import Mathlib.Algebra.BigOperators.Intervals
import Mathlib.Order.Interval.Finset.Nat
import Mathlib.Tactic.Common

/-! An interval cut into segments by marks, some of the segments free.

A mark is the start of a segment, which runs to the next mark or to the end of the
interval. The free segments are a list of starts with a length for each: taking one,
splitting one, giving one back and joining two neighbours are the moves of an allocator
that keeps its free segments apart. -/
namespace ShmMalloc.Library

/-- A segment of `n` places starts at `p`. -/
structure Segment (mark : Nat → Bool) (hi p n : Nat) : Prop where
  start : mark p = true
  pos : 0 < n
  le : p + n ≤ hi
  inside : ∀ j, p < j → j < p + n → mark j = false
  stop : p + n = hi ∨ mark (p + n) = true

namespace Segment
variable {mark : Nat → Bool} {hi p q m n k : Nat}

theorem unique (s : Segment mark hi p n) (t : Segment mark hi p m) : n = m := by
  have key : ∀ {a b : Nat}, Segment mark hi p a → Segment mark hi p b → ¬a < b := by
    intro a b sa sb hlt
    rcases sa.stop with h | h
    · have := sb.le
      omega
    · have := sb.inside (p + a) (by have := sa.pos; omega) (by omega)
      rw [h] at this
      cases this
  have h₁ := key s t
  have h₂ := key t s
  omega

theorem disjoint (s : Segment mark hi p n) (t : Segment mark hi q m) (hne : p ≠ q) :
    p + n ≤ q ∨ q + m ≤ p := by
  by_contra h
  rcases Nat.lt_or_gt_of_ne hne with hlt | hlt
  · have := s.inside q hlt (by omega)
    rw [t.start] at this
    cases this
  · have := t.inside p hlt (by omega)
    rw [s.start] at this
    cases this

/-- A mark outside a segment or at its end does not cut it. -/
theorem mark_other (s : Segment mark hi p n) {x : Nat} (hx : x ≤ p ∨ p + n ≤ x) :
    Segment (Function.update mark x true) hi p n where
  start := by
    by_cases h : p = x
    · rw [h, Function.update_self]
    · rw [Function.update_of_ne h, s.start]
  pos := s.pos
  le := s.le
  inside j h₁ h₂ := by rw [Function.update_of_ne (by omega), s.inside j h₁ h₂]
  stop := by
    by_cases h : p + n = x
    · rw [h, Function.update_self]
      exact .inr rfl
    · rw [Function.update_of_ne h]
      exact s.stop

/-- A mark that goes and is not an end of a segment leaves it as it is. -/
theorem unmark_other (s : Segment mark hi p n) {x : Nat} (h₁ : x ≠ p) (h₂ : x ≠ p + n) :
    Segment (Function.update mark x false) hi p n where
  start := by rw [Function.update_of_ne (Ne.symm h₁), s.start]
  pos := s.pos
  le := s.le
  inside j hj₁ hj₂ := by
    by_cases h : j = x
    · rw [h, Function.update_self]
    · rw [Function.update_of_ne h, s.inside j hj₁ hj₂]
  stop := by
    rw [Function.update_of_ne (Ne.symm h₂)]
    exact s.stop

theorem split_left (s : Segment mark hi p n) (h₀ : 0 < k) (h : k < n) :
    Segment (Function.update mark (p + k) true) hi p k where
  start := by rw [Function.update_of_ne (by omega), s.start]
  pos := h₀
  le := by have := s.le; omega
  inside j h₁ h₂ := by rw [Function.update_of_ne (by omega), s.inside j h₁ (by omega)]
  stop := by rw [Function.update_self]; exact .inr rfl

theorem split_right (s : Segment mark hi p n) (h₀ : 0 < k) (h : k < n) :
    Segment (Function.update mark (p + k) true) hi (p + k) (n - k) where
  start := Function.update_self ..
  pos := by omega
  le := by have := s.le; omega
  inside j h₁ h₂ := by rw [Function.update_of_ne (by omega), s.inside j (by omega) (by omega)]
  stop := by
    rw [show p + k + (n - k) = p + n by omega, Function.update_of_ne (by omega)]
    exact s.stop

theorem join (s : Segment mark hi p n) (t : Segment mark hi (p + n) k) :
    Segment (Function.update mark (p + n) false) hi p (n + k) where
  start := by rw [Function.update_of_ne (by have := s.pos; omega), s.start]
  pos := by have := s.pos; omega
  le := by have := t.le; omega
  inside j h₁ h₂ := by
    by_cases hj : j = p + n
    · rw [hj, Function.update_self]
    · rw [Function.update_of_ne hj]
      by_cases hlt : j < p + n
      · exact s.inside j h₁ hlt
      · exact t.inside j (by omega) (by omega)
  stop := by
    rw [Function.update_of_ne (by have := t.pos; omega), ← Nat.add_assoc]
    exact t.stop

/-- Joining a segment with the next one leaves the others as they are. -/
theorem join_other (s : Segment mark hi p n) (t : Segment mark hi q m) (h₁ : q ≠ p)
    (h₂ : q ≠ p + n) : Segment (Function.update mark (p + n) false) hi q m := by
  have := s.disjoint t (Ne.symm h₁)
  have := s.pos
  have := t.pos
  exact t.unmark_other (Ne.symm h₂) (by omega)

/-- Splitting a segment leaves the others as they are. -/
theorem split_other (s : Segment mark hi p n) (t : Segment mark hi q m) (h₁ : q ≠ p)
    (h₂ : k < n) : Segment (Function.update mark (p + k) true) hi q m := by
  have := s.disjoint t (Ne.symm h₁)
  exact t.mark_other (by omega)

/-- Every mark starts a segment. -/
theorem of_mark (hp : mark p = true) (hlt : p < hi) : ∃ n, Segment mark hi p n := by
  have hex : ∃ e, p < e ∧ (e = hi ∨ mark e = true) := ⟨hi, hlt, .inl rfl⟩
  obtain ⟨h₁, h₂⟩ := Nat.find_spec hex
  have hmin : ∀ j, p < j → j < Nat.find hex → j ≠ hi ∧ ¬mark j = true := by
    intro j hj₁ hj₂
    have := Nat.find_min hex hj₂
    tauto
  have hle : Nat.find hex ≤ hi := Nat.find_min' hex ⟨hlt, .inl rfl⟩
  refine ⟨Nat.find hex - p, hp, by omega, by omega, fun j hj₁ hj₂ => ?_, ?_⟩
  · exact Bool.eq_false_iff.mpr (hmin j hj₁ (by omega)).2
  · rwa [Nat.add_sub_cancel' (Nat.le_of_lt h₁)]

/-- With a mark at the low end, every place is in a segment. -/
theorem cover {lo x : Nat} (hlo : mark lo = true) (h₁ : lo ≤ x) (h₂ : x < hi) :
    ∃ p n, Segment mark hi p n ∧ lo ≤ p ∧ p ≤ x ∧ x < p + n := by
  obtain ⟨d, rfl⟩ := Nat.exists_eq_add_of_le h₁
  induction d with
  | zero =>
    obtain ⟨n, hn⟩ := of_mark hlo h₂
    exact ⟨lo, n, hn, Nat.le_refl lo, Nat.le_refl lo, by have := hn.pos; omega⟩
  | succ d ih =>
    obtain ⟨p, n, hn, hlp, hp, hx⟩ := ih (by omega) (by omega)
    by_cases hin : lo + (d + 1) < p + n
    · exact ⟨p, n, hn, hlp, by omega, hin⟩
    · have hend : p + n = lo + (d + 1) := by omega
      rcases hn.stop with h | h
      · omega
      · rw [hend] at h
        obtain ⟨m, hm⟩ := of_mark h h₂
        exact ⟨_, m, hm, by omega, Nat.le_refl _, by have := hm.pos; omega⟩

/-- Segments are disjoint, so that they fit in the interval together. -/
theorem sum_le {lo : Nat} {l : List Nat} {len : Nat → Nat} (hnd : l.Nodup)
    (hl : ∀ p ∈ l, Segment mark hi p (len p) ∧ lo ≤ p) : (l.map len).sum ≤ hi - lo := by
  have hsum : (l.map len).sum = ∑ p ∈ l.toFinset, (Finset.Ico p (p + len p)).card := by
    rw [← List.sum_toFinset len hnd]
    exact Finset.sum_congr rfl fun p _ => by simp
  have hdisj : ∀ p ∈ l.toFinset, ∀ q ∈ l.toFinset, p ≠ q →
      Disjoint (Finset.Ico p (p + len p)) (Finset.Ico q (q + len q)) := by
    intro p hp q hq hne
    have := (hl p (List.mem_toFinset.mp hp)).1.disjoint (hl q (List.mem_toFinset.mp hq)).1 hne
    rw [Finset.disjoint_left]
    intro x hx hx'
    rw [Finset.mem_Ico] at hx hx'
    omega
  rw [hsum, ← Finset.card_biUnion hdisj, ← Nat.card_Ico]
  refine Finset.card_le_card fun x hx => ?_
  obtain ⟨p, hp, hx⟩ := Finset.mem_biUnion.mp hx
  obtain ⟨hseg, hlo⟩ := hl p (List.mem_toFinset.mp hp)
  have := hseg.le
  rw [Finset.mem_Ico] at hx ⊢
  omega

end Segment

/-! ### Free segments -/

/-- `l` lists the starts of the free segments, `len` gives their lengths. -/
structure Partition (lo hi : Nat) (mark used : Nat → Bool) (l : List Nat) (len : Nat → Nat) :
    Prop where
  first : mark lo = true
  range : ∀ p, mark p = true → lo ≤ p ∧ p < hi
  sub : ∀ p, used p = true → mark p = true
  nodup : l.Nodup
  mem : ∀ p, p ∈ l ↔ mark p = true ∧ used p = false
  segment : ∀ p ∈ l, Segment mark hi p (len p)

/-- One free segment ends where another starts. -/
structure Adjacent (l : List Nat) (len : Nat → Nat) (p q : Nat) : Prop where
  left : p ∈ l
  right : q ∈ l
  eq : p + len p = q

theorem Adjacent.mono {l l' : List Nat} {len len' : Nat → Nat} {p q : Nat} (a : Adjacent l' len' p q)
    (hl : ∀ r ∈ l', r ∈ l) (e : ∀ r ∈ l', len' r = len r) : Adjacent l len p q :=
  ⟨hl p a.left, hl q a.right, by rw [← e p a.left, a.eq]⟩

namespace Partition
variable {lo hi : Nat} {mark used : Nat → Bool} {l : List Nat} {len : Nat → Nat} {p q m k : Nat}

theorem congr {l' : List Nat} {len' : Nat → Nat} (h : Partition lo hi mark used l len)
    (hl : l'.Perm l) (e : ∀ p ∈ l, len' p = len p) : Partition lo hi mark used l' len' where
  first := h.first
  range := h.range
  sub := h.sub
  nodup := hl.nodup_iff.mpr h.nodup
  mem p := hl.mem_iff.trans (h.mem p)
  segment p hp := by
    rw [e p (hl.mem_iff.mp hp)]
    exact h.segment p (hl.mem_iff.mp hp)

theorem sum_le (h : Partition lo hi mark used l len) : (l.map len).sum ≤ hi - lo :=
  Segment.sum_le h.nodup fun p hp => ⟨h.segment p hp, (h.range p ((h.mem p).mp hp).1).1⟩

/-- A free segment and a used one fit in the interval together with the others. -/
theorem sum_add_le (h : Partition lo hi mark used l len) (hu : used p = true)
    (hs : Segment mark hi p m) : (l.map len).sum + m ≤ hi - lo := by
  have hp : p ∉ l := by
    intro hp
    have := ((h.mem p).mp hp).2
    rw [hu] at this
    cases this
  have hlen : ∀ q ∈ l, Function.update len p m q = len q := by
    intro q hq
    refine Function.update_of_ne ?_ ..
    rintro rfl
    exact hp hq
  have hall : ∀ q ∈ p :: l, Segment mark hi q (Function.update len p m q) ∧ lo ≤ q := by
    intro q hq
    rcases List.mem_cons.mp hq with rfl | hq
    · rw [Function.update_self]
      exact ⟨hs, (h.range _ hs.start).1⟩
    · rw [hlen q hq]
      exact ⟨h.segment q hq, (h.range q ((h.mem q).mp hq).1).1⟩
  have := Segment.sum_le (List.nodup_cons.mpr ⟨hp, h.nodup⟩) hall
  rw [List.map_cons, List.sum_cons, Function.update_self, List.map_congr_left hlen] at this
  omega

/-- A free segment is put to use. -/
theorem take (h : Partition lo hi mark used l len) (hp : p ∈ l) :
    Partition lo hi mark (Function.update used p true) (l.erase p) len where
  first := h.first
  range := h.range
  sub q hq := by
    by_cases e : q = p
    · rw [e]
      exact ((h.mem p).mp hp).1
    · rw [Function.update_of_ne e] at hq
      exact h.sub q hq
  nodup := h.nodup.erase p
  mem q := by
    rw [h.nodup.mem_erase_iff, h.mem]
    by_cases e : q = p
    · simp [e]
    · simp [e]
  segment q hq := h.segment q (List.mem_of_mem_erase hq)

/-- A free segment is cut in two. -/
theorem split (h : Partition lo hi mark used l len) (hp : p ∈ l) (h₀ : 0 < k) (hk : k < len p) :
    Partition lo hi (Function.update mark (p + k) true) used ((p + k) :: l)
      (Function.update (Function.update len p k) (p + k) (len p - k)) := by
  have hs := h.segment p hp
  have hnew : mark (p + k) = false := hs.inside _ (by omega) (by omega)
  have hout : p + k ∉ l := by
    intro hm
    have := ((h.mem _).mp hm).1
    rw [hnew] at this
    cases this
  have hfree : used (p + k) = false := by
    by_contra hu
    have := h.sub _ (Bool.eq_true_of_not_eq_false hu)
    rw [hnew] at this
    cases this
  refine ⟨?_, fun q hq => ?_, fun q hq => ?_, List.nodup_cons.mpr ⟨hout, h.nodup⟩, fun q => ?_,
    fun q hq => ?_⟩
  · by_cases e : lo = p + k
    · rw [← e, Function.update_self]
    · rw [Function.update_of_ne e, h.first]
  · by_cases e : q = p + k
    · have := h.range p hs.start
      have := hs.le
      omega
    · rw [Function.update_of_ne e] at hq
      exact h.range q hq
  · by_cases e : q = p + k
    · rw [e, Function.update_self]
    · rw [Function.update_of_ne e, h.sub q hq]
  · rw [List.mem_cons, h.mem]
    by_cases e : q = p + k
    · simp [e, hfree]
    · simp [e]
  · rcases List.mem_cons.mp hq with rfl | hq
    · rw [Function.update_self]
      exact hs.split_right h₀ hk
    · have hne : q ≠ p + k := fun e => hout (e ▸ hq)
      rw [Function.update_of_ne hne]
      by_cases e : q = p
      · rw [e, Function.update_self]
        exact hs.split_left h₀ hk
      · rw [Function.update_of_ne e]
        exact hs.split_other (h.segment q hq) e hk

/-- What is split off is not next to another free segment unless the whole was. -/
theorem split_adjacent (h : Partition lo hi mark used l len) (hp : p ∈ l) (h₀ : 0 < k)
    (hk : k < len p) {r s : Nat}
    (ha : Adjacent ((p + k) :: l.erase p)
      (Function.update (Function.update len p k) (p + k) (len p - k)) r s) :
    ∃ r', Adjacent l len r' s := by
  have hs := h.segment p hp
  have hnew : mark (p + k) = false := hs.inside _ (by omega) (by omega)
  obtain ⟨hr, hs', he⟩ := ha
  have hmem : ∀ x, x ∈ (p + k) :: l.erase p → x = p + k ∨ x ≠ p ∧ x ∈ l := by
    intro x hx
    rcases List.mem_cons.mp hx with e | hx
    · exact .inl e
    · exact .inr ((h.nodup.mem_erase_iff).mp hx)
  have hs'' : s ∈ l := by
    rcases hmem s hs' with e | ⟨-, hm⟩
    · -- nothing free ends inside the segment that was cut
      rcases hmem r hr with e' | ⟨hne, hr⟩
      · rw [e', Function.update_self] at he
        omega
      · have hne' : r ≠ p + k := by
          rintro rfl
          have := ((h.mem _).mp hr).1
          rw [hnew] at this
          cases this
        rw [Function.update_of_ne hne', Function.update_of_ne hne] at he
        have hstop := (h.segment r hr).stop
        rw [he, e, hnew] at hstop
        rcases hstop with hend | hend
        · have := hs.le
          omega
        · cases hend
    · exact hm
  rcases hmem r hr with e | ⟨hne, hr⟩
  · rw [e, Function.update_self] at he
    exact ⟨p, hp, hs'', by omega⟩
  · have hne' : r ≠ p + k := by
      rintro rfl
      have := ((h.mem _).mp hr).1
      rw [hnew] at this
      cases this
    rw [Function.update_of_ne hne', Function.update_of_ne hne] at he
    exact ⟨r, hr, hs'', he⟩

/-- A used segment is given back. -/
theorem release (h : Partition lo hi mark used l len) (hu : used p = true)
    (hs : Segment mark hi p m) :
    Partition lo hi mark (Function.update used p false) (p :: l) (Function.update len p m) := by
  have hp : p ∉ l := by
    intro hp
    have := ((h.mem p).mp hp).2
    rw [hu] at this
    cases this
  refine ⟨h.first, h.range, fun q hq => ?_, List.nodup_cons.mpr ⟨hp, h.nodup⟩, fun q => ?_,
    fun q hq => ?_⟩
  · by_cases e : q = p
    · rw [e]
      exact hs.start
    · rw [Function.update_of_ne e] at hq
      exact h.sub q hq
  · rw [List.mem_cons, h.mem]
    by_cases e : q = p
    · simp [e, hs.start]
    · simp [e]
  · by_cases e : q = p
    · rw [e, Function.update_self]
      exact hs
    · rw [Function.update_of_ne e]
      exact h.segment q (by simpa [e] using hq)

theorem release_adjacent {r s : Nat} (h : ∀ r s, ¬Adjacent l len r s)
    (ha : Adjacent (p :: l) (Function.update len p m) r s) : r = p ∨ s = p := by
  by_contra hne
  rw [not_or] at hne
  obtain ⟨hr, hs, he⟩ := ha
  rw [Function.update_of_ne hne.1] at he
  exact h r s ⟨by simpa [hne.1] using hr, by simpa [hne.2] using hs, he⟩

/-- Two free neighbours become one. -/
theorem join (h : Partition lo hi mark used l len) (ha : Adjacent l len p q) :
    Partition lo hi (Function.update mark q false) used (l.erase q)
      (Function.update len p (len p + len q)) := by
  obtain ⟨hp, hq, rfl⟩ := ha
  have hs := h.segment p hp
  have ht := h.segment _ hq
  have hlo := (h.range p hs.start).1
  refine ⟨?_, fun r hr => ?_, fun r hr => ?_, h.nodup.erase _, fun r => ?_, fun r hr => ?_⟩
  · rw [Function.update_of_ne (by have := hs.pos; omega), h.first]
  · by_cases e : r = p + len p
    · rw [e, Function.update_self] at hr
      cases hr
    · rw [Function.update_of_ne e] at hr
      exact h.range r hr
  · by_cases e : r = p + len p
    · have := ((h.mem _).mp hq).2
      rw [← e, hr] at this
      cases this
    · rw [Function.update_of_ne e, h.sub r hr]
  · rw [h.nodup.mem_erase_iff, h.mem]
    by_cases e : r = p + len p
    · simp [e]
    · simp [e]
  · obtain ⟨hne, hr⟩ := (h.nodup.mem_erase_iff).mp hr
    by_cases e : r = p
    · rw [e, Function.update_self]
      exact hs.join ht
    · rw [Function.update_of_ne e]
      exact hs.join_other (h.segment r hr) e hne

/-- The neighbours after two are joined: those of the first on its left, those of the
second on its right. -/
theorem join_adjacent (h : Partition lo hi mark used l len) (ha : Adjacent l len p q) {r s : Nat}
    (ha' : Adjacent (l.erase q) (Function.update len p (len p + len q)) r s) :
    r ≠ p ∧ s ≠ q ∧ Adjacent l len r s ∨ r = p ∧ Adjacent l len q s := by
  obtain ⟨hr, hs, he⟩ := ha'
  obtain ⟨-, hr⟩ := (h.nodup.mem_erase_iff).mp hr
  obtain ⟨hsq, hs⟩ := (h.nodup.mem_erase_iff).mp hs
  by_cases e : r = p
  · rw [e, Function.update_self] at he
    exact .inr ⟨e, ha.right, hs, by have := ha.eq; omega⟩
  · rw [Function.update_of_ne e] at he
    exact .inl ⟨e, hsq, hr, hs, he⟩

/-! ### What the used segments say -/

/-- A used segment has the place `x`. -/
def Covered (hi : Nat) (mark used : Nat → Bool) (x : Nat) : Prop :=
  ∃ p n, used p = true ∧ Segment mark hi p n ∧ p ≤ x ∧ x < p + n

/-- Where free segments are apart, a free segment starts where a used one ends, or at the
low end. -/
theorem mark_iff (h : Partition lo hi mark used l len) (ha : ∀ p q, ¬Adjacent l len p q) {x : Nat} :
    mark x = true ↔ lo ≤ x ∧ x < hi ∧ (used x = true ∨
      ¬Covered hi mark used x ∧ ∀ y, x = y + 1 → lo ≤ y → Covered hi mark used y) := by
  constructor
  · intro hx
    obtain ⟨hlo, hhi⟩ := h.range x hx
    refine ⟨hlo, hhi, ?_⟩
    by_cases hu : used x = true
    · exact .inl hu
    have hxl : x ∈ l := (h.mem x).mpr ⟨hx, Bool.eq_false_iff.mpr hu⟩
    refine .inr ⟨?_, ?_⟩
    · rintro ⟨p, n, hp, hs, hpx, hxn⟩
      by_cases he : p = x
      · exact hu (he ▸ hp)
      · have := hs.inside x (by omega) hxn
        rw [hx] at this
        cases this
    · rintro y rfl hy
      obtain ⟨p, n, hs, -, hpy, hyn⟩ := Segment.cover h.first hy (show y < hi by omega)
      by_cases hp : used p = true
      · exact ⟨p, n, hp, hs, hpy, hyn⟩
      · have hpl : p ∈ l := (h.mem p).mpr ⟨hs.start, Bool.eq_false_iff.mpr hp⟩
        have hend : p + n = y + 1 := by
          by_contra hne
          have := hs.inside (y + 1) (by omega) (by omega)
          rw [hx] at this
          cases this
        exact absurd ⟨hpl, hxl, by rw [(h.segment p hpl).unique hs, hend]⟩ (ha p (y + 1))
  · rintro ⟨hlo, hhi, hu | ⟨hn, hy⟩⟩
    · exact h.sub x hu
    · by_cases he : x = lo
      · exact he ▸ h.first
      · obtain ⟨p, n, hp, hs, hpy, hyn⟩ := hy (x - 1) (by omega) (by omega)
        have hend : p + n = x := by
          by_contra hne
          exact hn ⟨p, n, hp, hs, by omega, by omega⟩
        rcases hs.stop with hstop | hstop
        · omega
        · rwa [hend] at hstop

/-- **The used segments determine the marks**, when free segments are apart. -/
theorem mark_eq {mark' used' : Nat → Bool} {l' : List Nat} {len' : Nat → Nat}
    (h : Partition lo hi mark used l len) (ha : ∀ p q, ¬Adjacent l len p q)
    (h' : Partition lo hi mark' used' l' len') (ha' : ∀ p q, ¬Adjacent l' len' p q)
    (hu : ∀ p n, used p = true ∧ Segment mark hi p n ↔ used' p = true ∧ Segment mark' hi p n) :
    used = used' ∧ mark = mark' := by
  have hused : used = used' := by
    funext p
    rw [Bool.eq_iff_iff]
    constructor
    · intro hp
      have hm := h.sub p hp
      obtain ⟨n, hs⟩ := Segment.of_mark hm (h.range p hm).2
      exact ((hu p n).mp ⟨hp, hs⟩).1
    · intro hp
      have hm := h'.sub p hp
      obtain ⟨n, hs⟩ := Segment.of_mark hm (h'.range p hm).2
      exact ((hu p n).mpr ⟨hp, hs⟩).1
  have hcov : ∀ x, Covered hi mark used x ↔ Covered hi mark' used' x := fun x =>
    exists_congr fun p => exists_congr fun n => by
      rw [← and_assoc, hu p n, and_assoc]
  refine ⟨hused, ?_⟩
  funext x
  rw [Bool.eq_iff_iff, h.mark_iff ha, h'.mark_iff ha', hcov, hused]
  subst hused
  simp only [hcov]

end Partition

end ShmMalloc.Library
