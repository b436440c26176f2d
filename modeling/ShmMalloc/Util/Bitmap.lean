import ShmMalloc.Exec
import Mathlib.Data.Nat.Bitwise
import Mathlib.Tactic.Common

/-! `shm_util.h`: bitmaps in 64-bit words, and rounding up.

A bitmap is read by `bitmapGet` everywhere above this file: the lemmas say what each
operation does to, or finds among, the bits. The three searches of the header differ
in the words they look at; `scan` is their loop. -/
namespace ShmMalloc

abbrev Bitmap := Nat → BitVec 64

/-- `BITMAP_BITS2GROUPS`, in 32 bits. -/
def bits2groups (nbits : Nat) : Nat := (nbits + 63) % 2 ^ 32 / 64

def bitmapSet (bitmap : Bitmap) (n : Nat) : Bitmap :=
  fun w => if w = n / 64 then bitmap w ||| (1#64 <<< (n % 64)) else bitmap w

def bitmapGet (bitmap : Bitmap) (n : Nat) : Bool := (bitmap (n / 64)).getLsbD (n % 64)

def bitmapClear (bitmap : Bitmap) (n : Nat) : Bitmap :=
  fun w => if w = n / 64 then bitmap w &&& ~~~(1#64 <<< (n % 64)) else bitmap w

/-- `__builtin_ffsl`: one more than the least set bit, 0 if there is none. -/
def ffsU64 (g : BitVec 64) : Nat :=
  match (List.range 64).find? g.getLsbD with
  | some i => i + 1
  | none => 0

/-- The first set bit in `k` words from word `i` on, `b` if there is none. -/
def scan (word : Nat → BitVec 64) (b : Nat) : Nat → Nat → Nat
  | 0, _ => b
  | k + 1, i => if ffsU64 (word i) ≠ 0 then i * 64 + (ffsU64 (word i) - 1) else scan word b k (i + 1)

def bitmapFfu (bitmap : Bitmap) (b : Nat) : Nat := scan (fun i => ~~~bitmap i) b (bits2groups b) 0

def bitmapFfs (bitmap : Bitmap) (b : Nat) : Nat := scan bitmap b (bits2groups b) 0

def bitmapFfsp (bitmap : Bitmap) (n b : Nat) : Exec Nat := do
  require (n < b)
  let first := bitmap (n / 64) &&& ~~~((1#64 <<< (n % 64)) - 1#64)
  return scan (fun i => if i = n / 64 then first else bitmap i) b (bits2groups b - n / 64) (n / 64)

/-- The loop of `bitmap_ffsp` as it is written, at word `i` with `g` left of it: the words it
loads, and its result. The next word is loaded before the bound is tested. -/
def ffspLoop (bitmap : Bitmap) (b i : Nat) (g : BitVec 64) : List Nat × Nat :=
  if ffsU64 g ≠ 0 then ([], i * 64 + (ffsU64 g - 1))
  else if i + 1 < bits2groups b then
    let (words, r) := ffspLoop bitmap b (i + 1) (bitmap (i + 1))
    ((i + 1) :: words, r)
  else ([i + 1], b)
termination_by bits2groups b - i

/-- `bitmap_ffsp` with the words that it loads. -/
def bitmapFfspLoads (bitmap : Bitmap) (n b : Nat) : Exec (List Nat × Nat) := do
  require (n < b)
  let i := n / 64
  let (words, r) := ffspLoop bitmap b i (bitmap i &&& ~~~((1#64 <<< (n % 64)) - 1#64))
  return (i :: words, r)

def bitmapSfu (bitmap : Bitmap) (b : Nat) : Bitmap × Nat :=
  let r := bitmapFfu bitmap b
  (if r < b then bitmapSet bitmap r else bitmap, r)

/-- The multiplication and the sum are in 64 bits. -/
def alignSize (size align : Nat) : Nat :=
  align * ((size + (align - 1)) % 2 ^ 64 / align) % 2 ^ 64

/-! ### One bit -/

theorem bitmapGet_set (bitmap : Bitmap) (n m : Nat) :
    bitmapGet (bitmapSet bitmap n) m = (decide (m = n) || bitmapGet bitmap m) := by
  unfold bitmapGet bitmapSet
  by_cases hw : m / 64 = n / 64
  · have hm : m % 64 < 64 := Nat.mod_lt _ (by decide)
    rw [if_pos hw, BitVec.getLsbD_or, Bool.or_comm]
    congr 1
    simp only [BitVec.getLsbD_shiftLeft, BitVec.getLsbD_one, hm]
    by_cases h : m = n
    · subst h
      simp
    · have : m % 64 ≠ n % 64 := by omega
      simp only [h, decide_true, decide_false, Bool.true_and]
      by_cases hlt : m % 64 < n % 64
      · simp [hlt]
      · have : m % 64 - n % 64 ≠ 0 := by omega
        simp [hlt, this]
  · have h : m ≠ n := by
      rintro rfl
      exact hw rfl
    simp [hw, h]

theorem bitmapGet_clear (bitmap : Bitmap) (n m : Nat) :
    bitmapGet (bitmapClear bitmap n) m = (!decide (m = n) && bitmapGet bitmap m) := by
  unfold bitmapGet bitmapClear
  by_cases hw : m / 64 = n / 64
  · have hm : m % 64 < 64 := Nat.mod_lt _ (by decide)
    rw [if_pos hw, BitVec.getLsbD_and, Bool.and_comm, BitVec.getLsbD_not]
    congr 1
    simp only [BitVec.getLsbD_shiftLeft, BitVec.getLsbD_one, hm]
    by_cases h : m = n
    · subst h
      simp
    · have : m % 64 ≠ n % 64 := by omega
      simp only [h, decide_true, decide_false, Bool.true_and, Bool.not_false]
      by_cases hlt : m % 64 < n % 64
      · simp [hlt]
      · have : m % 64 - n % 64 ≠ 0 := by omega
        simp [hlt, this]
  · have h : m ≠ n := by
      rintro rfl
      exact hw rfl
    simp [hw, h]

/-! The same, for the bitmap as a function. -/

theorem bitmapGet_set_eq (bitmap : Bitmap) (n : Nat) :
    bitmapGet (bitmapSet bitmap n) = Function.update (bitmapGet bitmap) n true := by
  funext m
  rw [bitmapGet_set]
  by_cases h : m = n
  · simp [h]
  · simp [h]

theorem bitmapGet_clear_eq (bitmap : Bitmap) (n : Nat) :
    bitmapGet (bitmapClear bitmap n) = Function.update (bitmapGet bitmap) n false := by
  funext m
  rw [bitmapGet_clear]
  by_cases h : m = n
  · simp [h]
  · simp [h]

/-! ### Searching -/

/-- `r` is the first place in `[n, m)` where `p` holds, or `b` when there is none. -/
def FirstIn (p : Nat → Bool) (n m b r : Nat) : Prop :=
  (n ≤ r ∧ r < m ∧ p r = true ∧ ∀ j, n ≤ j → j < r → p j = false) ∨
    (r = b ∧ ∀ j, n ≤ j → j < m → p j = false)

/-- `r` is the last place up to `n` where `p` holds, or `b` when there is none. -/
def LastIn (p : Nat → Bool) (n b r : Nat) : Prop :=
  (r ≤ n ∧ p r = true ∧ ∀ j, r < j → j ≤ n → p j = false) ∨ (r = b ∧ ∀ j ≤ n, p j = false)

theorem ffsU64_cases (g : BitVec 64) :
    (ffsU64 g = 0 ∧ ∀ j < 64, g.getLsbD j = false) ∨
      ∃ k < 64, ffsU64 g = k + 1 ∧ g.getLsbD k = true ∧ ∀ j < k, g.getLsbD j = false := by
  unfold ffsU64
  cases h : (List.range 64).find? g.getLsbD with
  | none =>
    rw [List.find?_eq_none] at h
    exact .inl ⟨rfl, fun j hj => by simpa using h j (List.mem_range.mpr hj)⟩
  | some k =>
    obtain ⟨hk, hmem, hbefore⟩ := List.find?_range_eq_some.mp h
    exact .inr ⟨k, List.mem_range.mp hmem, rfl, hk, fun j hj => by simpa using hbefore j hj⟩

/-- The bits of a sequence of words. -/
def wordBit (word : Nat → BitVec 64) (n : Nat) : Bool := (word (n / 64)).getLsbD (n % 64)

theorem scan_first (word : Nat → BitVec 64) (b k i : Nat) :
    FirstIn (wordBit word) (i * 64) ((i + k) * 64) b (scan word b k i) := by
  induction k generalizing i with
  | zero => exact .inr ⟨rfl, fun j h₁ h₂ => by omega⟩
  | succ k ih =>
    rw [scan]
    have hbit : ∀ j, i * 64 ≤ j → j < i * 64 + 64 → wordBit word j = (word i).getLsbD (j - i * 64) := by
      intro j h₁ h₂
      have e₁ : j / 64 = i := by omega
      have e₂ : j % 64 = j - i * 64 := by omega
      rw [wordBit, e₁, e₂]
    rcases ffsU64_cases (word i) with ⟨h₀, hnone⟩ | ⟨c, hc, hr, hset, hbefore⟩
    · rw [if_neg (by simp [h₀])]
      have hfirst : ∀ j, i * 64 ≤ j → j < i * 64 + 64 → wordBit word j = false := by
        intro j h₁ h₂
        rw [hbit j h₁ h₂]
        exact hnone _ (by omega)
      rcases ih (i + 1) with ⟨h₁, h₂, h₃, h₄⟩ | ⟨h₁, h₂⟩
      · refine .inl ⟨by omega, by omega, h₃, fun j hj₁ hj₂ => ?_⟩
        by_cases hj : j < i * 64 + 64
        · exact hfirst j hj₁ hj
        · exact h₄ j (by omega) hj₂
      · refine .inr ⟨h₁, fun j hj₁ hj₂ => ?_⟩
        by_cases hj : j < i * 64 + 64
        · exact hfirst j hj₁ hj
        · exact h₂ j (by omega) (by omega)
    · rw [if_pos (by omega), hr]
      refine .inl ⟨by omega, by omega, ?_, fun j hj₁ hj₂ => ?_⟩
      · rw [hbit _ (by omega) (by omega)]
        simpa using hset
      · rw [hbit j hj₁ (by omega)]
        exact hbefore _ (by omega)

/-- `~((1LU << k) - 1)` keeps the bits from `k` on. -/
theorem getLsbD_mask {k j : Nat} (hk : k < 64) (hj : j < 64) :
    (~~~((1#64 <<< k) - 1#64)).getLsbD j = decide (k ≤ j) := by
  have hlow : ((1#64 <<< k) - 1#64).toNat = 2 ^ k - 1 := by
    have hlt : 2 ^ k < 2 ^ 64 := Nat.pow_lt_pow_right (by decide) hk
    have hpos : 0 < 2 ^ k := Nat.two_pow_pos k
    have hone : (1#64 <<< k).toNat = 2 ^ k := by
      rw [BitVec.toNat_shiftLeft, BitVec.toNat_ofNat, Nat.one_mod, Nat.shiftLeft_eq, Nat.one_mul,
        Nat.mod_eq_of_lt hlt]
    rw [BitVec.toNat_sub, hone, BitVec.toNat_ofNat, Nat.one_mod]
    omega
  rw [BitVec.getLsbD_not, BitVec.getLsbD, hlow, Nat.testBit_two_pow_sub_one]
  by_cases h : k ≤ j
  · simp [hj, h, Nat.not_lt.mpr h]
  · simp [hj, h, Nat.lt_of_not_le h]

/-- The whole words that hold `b` bits. -/
theorem le_bits2groups {b : Nat} (hb : b ≤ 2 ^ 32 - 64) : b ≤ bits2groups b * 64 := by
  unfold bits2groups
  omega

theorem bitmapFfu_first (bitmap : Bitmap) (b : Nat) :
    FirstIn (fun n => !bitmapGet bitmap n) 0 (bits2groups b * 64) b (bitmapFfu bitmap b) := by
  have h := scan_first (fun i => ~~~bitmap i) b (bits2groups b) 0
  have hbit : wordBit (fun i => ~~~bitmap i) = fun n => !bitmapGet bitmap n := by
    funext n
    have : n % 64 < 64 := Nat.mod_lt _ (by decide)
    simp [wordBit, bitmapGet, this]
  rwa [hbit, Nat.zero_mul, Nat.zero_add] at h

theorem bitmapFfsp_first (bitmap : Bitmap) {n b : Nat} (hn : n < b) (hb : b ≤ 2 ^ 32 - 64) :
    ∃ r, bitmapFfsp bitmap n b = .ok r ∧
      FirstIn (bitmapGet bitmap) n (bits2groups b * 64) b r := by
  let first := bitmap (n / 64) &&& ~~~((1#64 <<< (n % 64)) - 1#64)
  let word := fun i => if i = n / 64 then first else bitmap i
  have hgroups := le_bits2groups hb
  have hbit : ∀ j, n / 64 * 64 ≤ j → wordBit word j = (decide (n ≤ j) && bitmapGet bitmap j) := by
    intro j hj
    have hk : n % 64 < 64 := Nat.mod_lt _ (by decide)
    have hm : j % 64 < 64 := Nat.mod_lt _ (by decide)
    unfold wordBit bitmapGet
    by_cases hw : j / 64 = n / 64
    · have hle : n % 64 ≤ j % 64 ↔ n ≤ j := by omega
      show (if j / 64 = n / 64 then first else bitmap (j / 64)).getLsbD (j % 64) = _
      rw [if_pos hw, BitVec.getLsbD_and, getLsbD_mask hk hm, hw, Bool.and_comm, decide_eq_decide.mpr hle]
    · have : n ≤ j := by omega
      simp [word, hw, this]
  refine ⟨_, by rw [bitmapFfsp, decide_eq_true hn]; rfl, ?_⟩
  have h := scan_first word b (bits2groups b - n / 64) (n / 64)
  rw [Nat.add_sub_cancel' (by omega)] at h
  rcases h with ⟨h₁, h₂, h₃, h₄⟩ | ⟨h₁, h₂⟩
  · rw [hbit _ h₁, Bool.and_eq_true, decide_eq_true_eq] at h₃
    refine .inl ⟨h₃.1, h₂, h₃.2, fun j hj₁ hj₂ => ?_⟩
    have := h₄ j (by omega) hj₂
    rwa [hbit j (by omega), decide_eq_true hj₁, Bool.true_and] at this
  · refine .inr ⟨h₁, fun j hj₁ hj₂ => ?_⟩
    have := h₂ j (by omega) hj₂
    rwa [hbit j (by omega), decide_eq_true hj₁, Bool.true_and] at this

/-- A search of whole words for a bit below `b`. -/
theorem FirstIn.upto {p : Nat → Bool} {n m b r : Nat} (h : FirstIn p n m b r) (hm : b ≤ m)
    (hr : r ≤ b) : FirstIn p n b b r := by
  rcases h with ⟨h₁, h₂, h₃, h₄⟩ | ⟨h₁, h₂⟩
  · by_cases hlt : r < b
    · exact .inl ⟨h₁, hlt, h₃, h₄⟩
    · obtain rfl : r = b := by omega
      exact .inr ⟨rfl, h₄⟩
  · exact .inr ⟨h₁, fun j hj₁ hj₂ => h₂ j hj₁ (by omega)⟩

/-- A search from the other end is a search of the mirrored bits. -/
theorem FirstIn.reflect {p q : Nat → Bool} {n b r : Nat} (h : FirstIn p (b - 1 - n) b b r)
    (hn : n < b) (hpq : ∀ j < b, p (b - 1 - j) = q j) :
    LastIn q n b (if r ≠ b then b - 1 - r else b) := by
  rcases h with ⟨h₁, h₂, h₃, h₄⟩ | ⟨h₁, h₂⟩
  · rw [if_pos (by omega)]
    refine .inl ⟨by omega, ?_, fun j hj₁ hj₂ => ?_⟩
    · rw [← hpq _ (by omega), show b - 1 - (b - 1 - r) = r by omega]
      exact h₃
    · rw [← hpq j (by omega)]
      exact h₄ _ (by omega) (by omega)
  · rw [if_neg (by omega)]
    refine .inr ⟨rfl, fun j hj => ?_⟩
    rw [← hpq j (by omega)]
    exact h₂ _ (by omega) (by omega)

/-- From bit 0 on no bit of the first word is masked. -/
theorem bitmapFfsp_zero (bitmap : Bitmap) {b : Nat} (hb : 0 < b) :
    bitmapFfsp bitmap 0 b = .ok (bitmapFfs bitmap b) := by
  have hfirst : bitmap 0 &&& ~~~((1#64 <<< 0) - 1#64) = bitmap 0 := by
    rw [show ~~~((1#64 <<< 0) - 1#64) = BitVec.allOnes 64 by decide, BitVec.and_allOnes]
  have hword : (fun i => if i = 0 then bitmap 0 else bitmap i) = bitmap := by
    funext i
    split
    · next h => rw [h]
    · rfl
  unfold bitmapFfsp bitmapFfs
  simp only [decide_eq_true hb, require_true, Exec.ok_bind, Exec.pure_eq, Nat.zero_div, Nat.zero_mod,
    Nat.sub_zero, hfirst, hword]

/-- **The searches** find the first bit below `b` that is clear, or set, or set from a place
on, when the words end in clear bits, and `bitmap_sfu` sets the one it finds and no other. -/
theorem bitmap_search (bitmap : Bitmap) {b : Nat} (h₁ : 1 ≤ b) (hb : b ≤ 2 ^ 32 - 64)
    (hpad : ∀ j, b ≤ j → j < bits2groups b * 64 → bitmapGet bitmap j = false) :
    FirstIn (fun j => !bitmapGet bitmap j) 0 b b (bitmapFfu bitmap b) ∧
    (∀ n < b, ∃ r, bitmapFfsp bitmap n b = .ok r ∧ FirstIn (bitmapGet bitmap) n b b r) ∧
    bitmapFfsp bitmap 0 b = .ok (bitmapFfs bitmap b) ∧
    (bitmapSfu bitmap b).2 = bitmapFfu bitmap b ∧
    ∀ j, bitmapGet (bitmapSfu bitmap b).1 j =
      (bitmapGet bitmap j || decide (j = bitmapFfu bitmap b ∧ bitmapFfu bitmap b < b)) := by
  have hgroups := le_bits2groups hb
  refine ⟨?_, fun n hn => ?_, bitmapFfsp_zero bitmap h₁, rfl, fun j => ?_⟩
  · have h := bitmapFfu_first bitmap b
    refine h.upto hgroups ?_
    rcases h with ⟨-, hlt, -, hbefore⟩ | ⟨h, -⟩
    · -- the bit at `b` itself is clear
      by_contra hgt
      have hset : (!bitmapGet bitmap b) = false := hbefore b (by omega) (by omega)
      rw [hpad b (by omega) (by omega)] at hset
      cases hset
    · omega
  · obtain ⟨r, hrun, h⟩ := bitmapFfsp_first bitmap hn hb
    refine ⟨r, hrun, h.upto hgroups ?_⟩
    rcases h with ⟨-, hlt, hset, -⟩ | ⟨h, -⟩
    · by_contra hgt
      rw [hpad r (by omega) hlt] at hset
      cases hset
    · omega
  · unfold bitmapSfu
    by_cases hr : bitmapFfu bitmap b < b
    · simp only [hr, if_true, and_true]
      rw [bitmapGet_set, Bool.or_comm]
    · simp [hr]

/-- 70 bits, of which the first word's are all set, and two more. -/
def seventyBits : Bitmap := fun w => if w = 0 then BitVec.allOnes 64 else if w = 1 then 5#64 else 0#64

theorem bitmap_search_seventy : bitmapFfu seventyBits 70 = 65 ∧
    FirstIn (fun j => !bitmapGet seventyBits j) 0 70 70 65 ∧
    bitmapFfsp seventyBits 65 70 = .ok 66 ∧
    bitmapFfsp seventyBits 0 70 = .ok (bitmapFfs seventyBits 70) := by
  have h := bitmap_search seventyBits (b := 70) (by decide) (by decide) (by
    have : ∀ j < 128, 70 ≤ j → bitmapGet seventyBits j = false := by decide
    exact fun j hle hlt => this j hlt hle)
  exact ⟨by decide, h.1, by decide, h.2.2.1⟩

/-! ### The words a search loads -/

theorem scan_congr {word word' : Nat → BitVec 64} (b k : Nat) {i : Nat}
    (h : ∀ j, i ≤ j → word j = word' j) : scan word b k i = scan word' b k i := by
  induction k generalizing i with
  | zero => rfl
  | succ k ih => rw [scan, scan, h i (Nat.le_refl i), ih fun j hj => h j (by omega)]

/-- The loop as written has the result of `scan`. -/
theorem ffspLoop_result (bitmap : Bitmap) {b i : Nat} (g : BitVec 64) (h : i < bits2groups b) :
    (ffspLoop bitmap b i g).2 =
      scan (fun j => if j = i then g else bitmap j) b (bits2groups b - i) i := by
  fun_induction ffspLoop bitmap b i g with
  | case1 i g hbit =>
    obtain ⟨k, hk⟩ : ∃ k, bits2groups b - i = k + 1 := ⟨bits2groups b - i - 1, by omega⟩
    rw [hk, scan, if_pos rfl, if_pos hbit]
  | case2 i g hbit hlt words r hrest ih =>
    have hk : bits2groups b - i = bits2groups b - (i + 1) + 1 := by omega
    have ih := ih hlt
    rw [hrest] at ih
    rw [hk, scan, if_pos rfl, if_neg hbit]
    refine ih.trans (scan_congr b _ fun j hj => ?_)
    rw [if_neg (show ¬j = i by omega)]
    split
    · next hj => rw [hj]
    · rfl
  | case3 i g hbit hlt =>
    have hk : bits2groups b - i = 0 + 1 := by omega
    rw [hk, scan, if_pos rfl, if_neg hbit, scan]

theorem bitmapFfspLoads_result (bitmap : Bitmap) {n b : Nat} (hb : b ≤ 2 ^ 32 - 64) :
    (bitmapFfspLoads bitmap n b).map Prod.snd = bitmapFfsp bitmap n b := by
  unfold bitmapFfspLoads bitmapFfsp
  by_cases hn : n < b
  · have hgroups := le_bits2groups hb
    simp only [decide_eq_true hn, require_true, Exec.ok_bind, Exec.pure_eq]
    exact congrArg Except.ok (ffspLoop_result bitmap _ (by omega))
  · rw [decide_eq_false hn]
    rfl

theorem ffsU64_ne_zero {g : BitVec 64} : ffsU64 g ≠ 0 ↔ ∃ k < 64, g.getLsbD k = true := by
  rcases ffsU64_cases g with ⟨h₀, hnone⟩ | ⟨k, hk, hr, hset, -⟩
  · refine iff_of_false (fun h => h h₀) ?_
    rintro ⟨k, hk, hset⟩
    rw [hnone k hk] at hset
    cases hset
  · exact iff_of_true (by omega) ⟨k, hk, hset⟩

/-- The loop stays inside the bitmap when it comes to a word with a set bit. -/
theorem ffspLoop_loads (bitmap : Bitmap) (b i : Nat) (g : BitVec 64) :
    (∀ j ∈ (ffspLoop bitmap b i g).1, j < bits2groups b) ↔
      ffsU64 g ≠ 0 ∨ ∃ j, i < j ∧ j < bits2groups b ∧ ffsU64 (bitmap j) ≠ 0 := by
  fun_induction ffspLoop bitmap b i g with
  | case1 i g hbit => exact iff_of_true (by simp) (.inl hbit)
  | case2 i g hbit hlt words r hrest ih =>
    rw [hrest] at ih
    rw [List.forall_mem_cons, and_iff_right hlt, ih, or_iff_right hbit]
    constructor
    · rintro (hnext | ⟨j, h₁, h₂, hj⟩)
      · exact ⟨i + 1, by omega, hlt, hnext⟩
      · exact ⟨j, by omega, h₂, hj⟩
    · rintro ⟨j, h₁, h₂, hj⟩
      by_cases hnext : j = i + 1
      · exact .inl (hnext ▸ hj)
      · exact .inr ⟨j, by omega, h₂, hj⟩
  | case3 i g hbit hlt =>
    refine iff_of_false (by simpa using hlt) ?_
    rintro (h | ⟨j, h₁, h₂, -⟩)
    · exact hbit h
    · omega

theorem bitmapFfspLoads_run (bitmap : Bitmap) {n b : Nat} (hn : n < b) :
    bitmapFfspLoads bitmap n b = .ok (n / 64 :: (ffspLoop bitmap b (n / 64)
      (bitmap (n / 64) &&& ~~~((1#64 <<< (n % 64)) - 1#64))).1, (ffspLoop bitmap b (n / 64)
      (bitmap (n / 64) &&& ~~~((1#64 <<< (n % 64)) - 1#64))).2) := by
  rw [bitmapFfspLoads, decide_eq_true hn]
  rfl

/-- The words of a search are inside the bitmap when there is a bit for it to find. -/
theorem ffspLoop_masked (bitmap : Bitmap) {n b : Nat} (hn : n < b) (hb : b ≤ 2 ^ 32 - 64) :
    (∀ i ∈ n / 64 :: (ffspLoop bitmap b (n / 64)
      (bitmap (n / 64) &&& ~~~((1#64 <<< (n % 64)) - 1#64))).1, i < bits2groups b) ↔
        ∃ m, n ≤ m ∧ m < bits2groups b * 64 ∧ bitmapGet bitmap m = true := by
  have hgroups := le_bits2groups hb
  have hk : n % 64 < 64 := Nat.mod_lt _ (by decide)
  rw [List.forall_mem_cons, and_iff_right (by omega), ffspLoop_loads, ffsU64_ne_zero]
  constructor
  · rintro (⟨k, hlt, hset⟩ | ⟨j, h₁, h₂, hj⟩)
    · rw [BitVec.getLsbD_and, getLsbD_mask hk hlt, Bool.and_eq_true, decide_eq_true_eq] at hset
      refine ⟨n / 64 * 64 + k, by omega, by omega, ?_⟩
      rw [bitmapGet, show (n / 64 * 64 + k) / 64 = n / 64 by omega,
        show (n / 64 * 64 + k) % 64 = k by omega]
      exact hset.1
    · obtain ⟨k, hlt, hset⟩ := ffsU64_ne_zero.mp hj
      refine ⟨j * 64 + k, by omega, by omega, ?_⟩
      rwa [bitmapGet, show (j * 64 + k) / 64 = j by omega, show (j * 64 + k) % 64 = k by omega]
  · rintro ⟨m, h₁, h₂, hset⟩
    have hlt : m % 64 < 64 := Nat.mod_lt _ (by decide)
    by_cases hw : m / 64 = n / 64
    · refine .inl ⟨m % 64, hlt, ?_⟩
      rw [BitVec.getLsbD_and, getLsbD_mask hk hlt, Bool.and_eq_true, decide_eq_true_eq, ← hw]
      exact ⟨hset, by omega⟩
    · exact .inr ⟨m / 64, by omega, by omega, ffsU64_ne_zero.mpr ⟨m % 64, hlt, hset⟩⟩

/-- **A search stays inside the bitmap** exactly when there is a bit for it to find: without
one the word after the last is loaded too. -/
theorem bitmapFfsp_loads (bitmap : Bitmap) {n b : Nat} (hn : n < b) (hb : b ≤ 2 ^ 32 - 64) :
    ∃ words r, bitmapFfspLoads bitmap n b = .ok (words, r) ∧
      ((∀ i ∈ words, i < bits2groups b) ↔
        ∃ m, n ≤ m ∧ m < bits2groups b * 64 ∧ bitmapGet bitmap m = true) :=
  ⟨_, _, bitmapFfspLoads_run bitmap hn, ffspLoop_masked bitmap hn hb⟩

theorem bitmapFfsp_loads_seventy : ∃ words r, bitmapFfspLoads seventyBits 65 70 = .ok (words, r) ∧
    ((∀ i ∈ words, i < 2) ↔ ∃ m, 65 ≤ m ∧ m < 128 ∧ bitmapGet seventyBits m = true) :=
  bitmapFfsp_loads seventyBits (by decide) (by decide)

/-- In four words without a set bit, as `free_chunk_medium` leaves the marks of a chunk when
it looks for what is next to the only unit, a fifth one is loaded. -/
theorem bitmapFfsp_loads_past : ∃ words r, bitmapFfspLoads (fun _ => 0#64) 1 256 = .ok (words, r) ∧
    bits2groups 256 = 4 ∧ ¬∀ i ∈ words, i < bits2groups 256 := by
  refine ⟨_, _, bitmapFfspLoads_run _ (by decide), by decide, fun hall => ?_⟩
  obtain ⟨m, -, -, hset⟩ := (ffspLoop_masked _ (by decide) (by decide)).mp hall
  rw [bitmapGet, BitVec.getLsbD_zero] at hset
  cases hset

/-! ### Rounding up -/

/-- Without overflow the result is the least multiple that is not below the size. -/
theorem alignSize_eq {size align : Nat} (ha : 0 < align) (h : size + align ≤ 2 ^ 64) :
    alignSize size align = align * ((size + (align - 1)) / align) := by
  unfold alignSize
  have h₁ : (size + (align - 1)) % 2 ^ 64 = size + (align - 1) := Nat.mod_eq_of_lt (by omega)
  have h₂ := Nat.mul_div_le (size + (align - 1)) align
  rw [h₁, Nat.mod_eq_of_lt (by omega)]

theorem le_alignSize {size align : Nat} (ha : 0 < align) (h : size + align ≤ 2 ^ 64) :
    size ≤ alignSize size align := by
  rw [alignSize_eq ha h]
  have := Nat.div_add_mod (size + (align - 1)) align
  have := Nat.mod_lt (size + (align - 1)) ha
  omega

theorem alignSize_mod (size : Nat) {align : Nat} (h : align ∣ 2 ^ 64) :
    alignSize size align % align = 0 := by
  unfold alignSize
  rw [Nat.mod_mod_of_dvd _ h, Nat.mul_mod_right]

end ShmMalloc
