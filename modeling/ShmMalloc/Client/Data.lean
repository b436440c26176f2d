import ShmMalloc.Client.Model

/-! What calls leave in the blocks of clients.

A call that completes leaves the bytes of every block that stays, and a block that is
moved has its bytes at its new position. -/
namespace ShmMalloc
open Library

/-- The first bytes at a position are those that were at another. -/
def SameCells (s s' : Shm) (pos pos' size : Nat) : Prop := ∀ j < size,
  s'.data (pos2index pos') (pos2offset pos' + j) = s.data (pos2index pos) (pos2offset pos + j)

/-- Sizes that can be rounded up. -/
def Fitting (live : List (Nat × Nat)) : Prop := ∀ b ∈ live, b.2 ≤ 2 ^ 64 - 2 ^ 20

section
variable {s s' s'' : Shm} {ls lm : List Nat} {live : List (Nat × Nat)} {pos size : Nat}

theorem mem_bytes {n j : Nat} (h : j < n) : (pos2index pos, pos2offset pos + j) ∈ bytes pos n :=
  ⟨rfl, Nat.le_add_right _ _, Nat.add_lt_add_left h _⟩

theorem SameCells.refl (s : Shm) (pos size : Nat) : SameCells s s pos pos size := fun _ _ => rfl

theorem SameCells.of_same (e : SameHeap s s') (pos size : Nat) : SameCells s s' pos pos size := fun j _ => by
  rw [e.data]

theorem SameBytes.cells {n : Nat} (h : SameBytes s s' pos n) (hle : size ≤ n) : SameCells s s' pos pos size := fun _ hj =>
  h _ (mem_bytes (hj.trans_le hle))

theorem shmGetAddr_same {r : Option Nat} (h : shmGetAddr s pos = .ok (s', r)) : SameHeap s s' := by
  unfold shmGetAddr at h
  dsimp only at h
  split at h
  · obtain ⟨rfl, -⟩ := Prod.mk.inj (Except.ok.inj h)
    exact .refl s
  · obtain ⟨⟨s₁, base⟩, hlook, hret⟩ := Exec.bind_ok h
    obtain ⟨rfl, -⟩ := Prod.mk.inj (Except.ok.inj hret)
    exact getOrUpdateArenaAddr_same hlook

/-- The block of a live position has the bytes that were asked for. -/
theorem BlocksLive.room (h : BlocksLive s ls lm live) (hf : Fitting live) (hb : (pos, size) ∈ live) :
    ∃ n, Block s ls lm (kindOf size) pos n ∧ size ≤ n := by
  obtain ⟨-, n, hb', hn⟩ := h.block _ hb
  exact ⟨n, hb', hn.mpr (hf _ hb)⟩

namespace HeapHeld
variable {B : Prop} {os : Os} {ret : Nat}

/-- An allocation leaves the blocks alone. -/
theorem malloc_cells (h : HeapHeld B s live) (hf : Fitting live) {len : Nat} (hsize : len < 2 ^ 64)
    (hrun : shmMalloc s len os = .ok (s', ret)) (hb : (pos, size) ∈ live) : SameCells s s' pos pos size := by
  unfold shmMalloc at hrun
  split at hrun
  · obtain ⟨rfl, -⟩ := Prod.mk.inj (Except.ok.inj hrun)
    exact .refl s pos size
  next hlen =>
  obtain ⟨ls, lm, pool, h, hl, -⟩ := h
  obtain ⟨n, hb, hn⟩ := hl.room hf hb
  obtain ⟨-, e⟩ | ⟨-, ls', lm', pool', m, -, ha, -⟩ := h.malloc (Nat.pos_of_ne_zero hlen) hsize hrun
  · exact .of_same e pos size
  · exact (ha.bytes _ _ _ hb).cells hn

/-- A free leaves the other blocks alone. -/
theorem free_cells (h : HeapHeld B s live) (hf : Fitting live) {p : Nat} (hp : IsLive live p) (hu : Unstale s p)
    (hrun : freeArena s (pos2index p) (pos2offset p) = .ok s') (hb : (pos, size) ∈ live) (hne : pos ≠ p) :
    SameCells s s' pos pos size := by
  obtain ⟨ls, lm, pool, h, hl, -⟩ := h
  obtain ⟨_, _, -, -, hbp, -⟩ := hl.at_live hp
  obtain ⟨n, hb, hn⟩ := hl.room hf hb
  obtain ⟨ls', lm', pool', -, hfree, -⟩ := h.free hbp hu hrun
  exact (hfree.bytes _ _ _ hb hne).cells hn

/-- A reallocation keeps the bytes, those of the block itself as far as there is room for them. -/
theorem realloc_cells (h : HeapHeld B s live) (hf : Fitting live) {p len : Nat} (hlen : len ≤ 2 ^ 64 - 2 ^ 20)
    (hp : IsLive live p) (hu : Unstale s p) (hrun : shmRealloc s p len os = .ok (s', ret)) (hb : (pos, size) ∈ live) :
    (pos ≠ p ∨ ret = 0 ∨ ret = p → SameCells s s' pos pos size) ∧
      (pos = p → ret ≠ 0 → ret ≠ p → SameCells s s' pos ret (min size len)) := by
  obtain ⟨ls, lm, pool, h, hl, -⟩ := h
  obtain ⟨_, m, -, -, hbp, -⟩ := hl.at_live hp
  obtain ⟨n, hb, hn⟩ := hl.room hf hb
  cases h.realloc hbp hu (hlen.trans_lt (by decide)) hrun with
  | kept e => exact ⟨fun _ => .of_same e pos size, fun _ _ hne => absurd rfl hne⟩
  | refused e => exact ⟨fun _ => .of_same e pos size, fun _ hne => absurd rfl hne⟩
  | @moved _ m' ls' lm' pool' hlt hne hm h' hls hmoved =>
    have hroom := hm.mpr hlen
    refine ⟨fun hpos => ?_, ?_⟩
    · have hret : ret ≠ p := fun he => hmoved.new _ m (he ▸ hbp)
      exact (hmoved.bytes hroom _ _ _ hb (hpos.resolve_right fun he => he.elim hne hret)).cells hn
    · rintro rfl - -
      obtain ⟨-, rfl⟩ := h.block_unique hb hbp
      exact fun j hj => hmoved.copied hroom j (by omega)

/-- **What a call leaves of the bytes.** -/
theorem call_cells (h : HeapHeld B s live) (hf : Fitting live) {c : Call} (hl : c.LegalFor live) (hfit : c.Fits)
    (hu : c.freed ≠ 0 → Unstale s c.freed) (hrun : c.run s os = .ok (s', ret)) (hb : (pos, size) ∈ live) :
    ((pos, size) ∈ c.liveAfter live ret → SameCells s s' pos pos size) ∧
      ∀ len, c = .realloc pos len → ret ≠ 0 → ret ≠ pos → SameCells s s' pos ret (min size len) := by
  cases c with
  | malloc len =>
    refine ⟨fun _ => h.malloc_cells hf ?_ hrun hb, fun _ he => by cases he⟩
    exact (show len ≤ 2 ^ 64 - 2 ^ 20 from hfit).trans_lt (by decide)
  | free p =>
    obtain ⟨s₁, hfree, hret⟩ := Exec.bind_ok hrun
    obtain ⟨rfl, rfl⟩ := Prod.mk.inj (Except.ok.inj hret)
    refine ⟨fun hmem => ?_, fun _ he => by cases he⟩
    unfold shmFree at hfree
    split at hfree
    · obtain rfl := Except.ok.inj hfree
      exact .refl s pos size
    · next hp =>
      exact h.free_cells hf (hl.resolve_left hp) (hu hp) hfree hb (of_decide_eq_true (List.mem_filter.mp hmem).2)
  | realloc p len =>
    have hlen : len ≤ 2 ^ 64 - 2 ^ 20 := hfit
    obtain ⟨hsize, hp⟩ := hl
    by_cases hz : p = 0
    · -- the same as `shm_malloc`
      subst hz
      refine ⟨fun _ => h.malloc_cells hf hsize hrun hb, fun _ he => ?_⟩
      obtain ⟨rfl, -⟩ := Call.realloc.inj he
      obtain ⟨ls, lm, pool, h, hl, -⟩ := h
      obtain ⟨n, hb, -⟩ := hl.room hf hb
      exact absurd rfl (h.pos_ne hb)
    · obtain ⟨hkept, hmoved⟩ := h.realloc_cells hf hlen (hp.resolve_left hz) (hu hz) hrun hb
      refine ⟨fun hmem => ?_, fun m he h₀ hne => ?_⟩
      · by_cases hr : ret = 0 ∨ ret = p
        · exact hkept (.inr hr)
        · refine hkept (.inl ?_)
          rw [Call.liveAfter, if_neg hr] at hmem
          rcases List.mem_cons.mp hmem with he | hmem
          · obtain ⟨rfl, -⟩ := Prod.mk.inj he
            exact fun he => hr (.inr he)
          · exact of_decide_eq_true (List.mem_filter.mp hmem).2
      · obtain ⟨rfl, rfl⟩ := Call.realloc.inj he
        exact hmoved rfl h₀ hne
  | checkSize p =>
    refine ⟨fun _ => ?_, fun _ he => by cases he⟩
    change shmCheckSize s p = _ at hrun
    unfold shmCheckSize at hrun
    split at hrun
    · obtain ⟨rfl, -⟩ := Prod.mk.inj (Except.ok.inj hrun)
      exact .refl s pos size
    · exact .of_same (checkArena_same hrun) pos size
  | getAddr p =>
    refine ⟨fun _ => ?_, fun _ he => by cases he⟩
    obtain ⟨⟨s₁, r⟩, hget, hret⟩ := Exec.bind_ok hrun
    obtain ⟨rfl, -⟩ := Prod.mk.inj (Except.ok.inj hret)
    exact .of_same (shmGetAddr_same hget) pos size

end HeapHeld

end

end ShmMalloc
