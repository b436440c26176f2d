import ShmMalloc.Malloc

/-! The searches of `shm_context.c`: for an empty entry, for an empty slot, and for an
arena that has one. -/
namespace ShmMalloc

/-- The context is in arena 0 only, and every arena in use names its own index. -/
structure ContextState (s : Shm) : Prop where
  context : ∀ i < 128, (s.arenas i).type = .context ↔ i = 0
  index : ∀ i < 128, (s.arenas i).type ≠ .empty → (s.arenas i).index = i

/-! ### Empty entries and empty slots -/

theorem findEmptyArena_some {s : Shm} {n i j : Nat} (h : findEmptyArena s n i = some j) :
    i ≤ j ∧ j < i + n ∧ (s.arenas j).type = .empty := by
  induction n generalizing i with
  | zero => cases h
  | succ n ih =>
    rw [findEmptyArena] at h
    split at h
    · next he =>
      obtain rfl := Option.some.inj h
      exact ⟨Nat.le_refl _, by omega, he⟩
    · obtain ⟨h₁, h₂, h₃⟩ := ih h
      exact ⟨by omega, by omega, h₃⟩

theorem findEmptyArena_none {s : Shm} {n i : Nat} :
    findEmptyArena s n i = none ↔ ∀ j, i ≤ j → j < i + n → (s.arenas j).type ≠ .empty := by
  induction n generalizing i with
  | zero => exact iff_of_true rfl fun j h₁ h₂ => absurd h₂ (by omega)
  | succ n ih =>
    rw [findEmptyArena]
    split
    · next he => exact iff_of_false (by simp) fun hall => hall i (Nat.le_refl i) (by omega) he
    · next he =>
      rw [ih]
      refine ⟨fun hall j h₁ h₂ => ?_, fun hall j h₁ h₂ => hall j (by omega) (by omega)⟩
      by_cases hj : j = i
      · rwa [hj]
      · exact hall j (by omega) (by omega)

theorem findEmptySlot_some {a : ShmArena} {n i k : Nat} (h : findEmptySlot a n i = some k) :
    i ≤ k ∧ k < i + n ∧ a.chunks k = 0 := by
  induction n generalizing i with
  | zero => cases h
  | succ n ih =>
    rw [findEmptySlot] at h
    split at h
    · next he =>
      obtain rfl := Option.some.inj h
      exact ⟨Nat.le_refl _, by omega, he⟩
    · obtain ⟨h₁, h₂, h₃⟩ := ih h
      exact ⟨by omega, by omega, h₃⟩

theorem findEmptySlot_none {a : ShmArena} {n i : Nat} :
    findEmptySlot a n i = none ↔ ∀ k, i ≤ k → k < i + n → a.chunks k ≠ 0 := by
  induction n generalizing i with
  | zero => exact iff_of_true rfl fun k h₁ h₂ => absurd h₂ (by omega)
  | succ n ih =>
    rw [findEmptySlot]
    split
    · next he => exact iff_of_false (by simp) fun hall => hall i (Nat.le_refl i) (by omega) he
    · next he =>
      rw [ih]
      refine ⟨fun hall k h₁ h₂ => ?_, fun hall k h₁ h₂ => hall k (by omega) (by omega)⟩
      by_cases hk : k = i
      · rwa [hk]
      · exact hall k (by omega) (by omega)

/-- The slots that `new_arena_chunk` gives out start here. -/
def firstSlot (a : ShmArena) : Nat := if a.type = .context then 1 else 0

/-- The slot `k` gets the position `ret`. -/
def enterChunk (s : Shm) (index k ret : Nat) : Shm :=
  s.setArena index {(s.arenas index).setChunk k ret with used := (s.arenas index).used + 1}

theorem newArenaChunk_full {s : Shm} {index : Nat}
    (h : ∀ k, firstSlot (s.arenas index) ≤ k → k < 8 → (s.arenas index).chunks k ≠ 0) :
    newArenaChunk s index = (s, 0) := by
  have hlt : firstSlot (s.arenas index) ≤ 8 := by
    unfold firstSlot
    split <;> omega
  have hnone : findEmptySlot (s.arenas index) (8 - firstSlot (s.arenas index))
      (firstSlot (s.arenas index)) = none :=
    findEmptySlot_none.mpr fun k h₁ h₂ => h k h₁ (by omega)
  unfold newArenaChunk
  simp only [← firstSlot.eq_def, hnone]

theorem newArenaChunk_slot {s : Shm} {index : Nat}
    (h : ∃ k, firstSlot (s.arenas index) ≤ k ∧ k < 8 ∧ (s.arenas index).chunks k = 0) :
    ∃ k, firstSlot (s.arenas index) ≤ k ∧ k < 8 ∧ (s.arenas index).chunks k = 0 ∧
      newArenaChunk s index =
        (enterChunk s index k (index2pos (s.arenas index).index (k * 2 ^ 20)),
          index2pos (s.arenas index).index (k * 2 ^ 20)) := by
  cases hf : findEmptySlot (s.arenas index) (8 - firstSlot (s.arenas index))
      (firstSlot (s.arenas index)) with
  | none =>
    obtain ⟨k, h₁, h₂, h₃⟩ := h
    exact absurd h₃ (findEmptySlot_none.mp hf k h₁ (by omega))
  | some k =>
    obtain ⟨h₁, h₂, h₃⟩ := findEmptySlot_some hf
    refine ⟨k, h₁, by omega, h₃, ?_⟩
    unfold newArenaChunk
    simp only [← firstSlot.eq_def, hf]
    rfl

theorem index2pos_slot {i k : Nat} (hk : k < 8) : index2pos i (k * 2 ^ 20) = i * 2 ^ 32 + k * 2 ^ 20 :=
  index2pos_eq (by omega)

/-! ### The scan of `new_chunk` -/

/-- Past the contexts the scan only looks for empty entries. -/
theorem findArenaChunk_other {s : Shm} {n i e : Nat} (hi : 0 < i)
    (h : ∀ j, i ≤ j → j < i + n → (s.arenas j).type ≠ .context) :
    ∃ e', findArenaChunk s n i e = (s, 0, e') ∧
      (e' = 0 ↔ e = 0 ∧ ∀ j, i ≤ j → j < i + n → (s.arenas j).type ≠ .empty) := by
  induction n generalizing i e with
  | zero => exact ⟨e, rfl, ⟨fun he => ⟨he, fun j h₁ h₂ => absurd h₂ (by omega)⟩, And.left⟩⟩
  | succ n ih =>
    have hc := h i (Nat.le_refl i) (by omega)
    have hrest : ∀ j, i + 1 ≤ j → j < i + 1 + n → (s.arenas j).type ≠ .context :=
      fun j h₁ h₂ => h j (by omega) (by omega)
    by_cases he : (s.arenas i).type = .empty
    · obtain ⟨e', hrun, hiff⟩ := ih (e := i) (by omega) hrest
      refine ⟨e', by simp only [findArenaChunk, hc, or_self, if_false, if_pos he, hrun], ?_⟩
      refine iff_of_false (fun h₀ => ?_) fun ⟨_, hall⟩ => hall i (Nat.le_refl i) (by omega) he
      have := (hiff.mp h₀).1
      omega
    · obtain ⟨e', hrun, hiff⟩ := ih (e := e) (by omega) hrest
      refine ⟨e', by simp only [findArenaChunk, hc, or_self, if_false, if_neg he, hrun], hiff.trans ?_⟩
      refine and_congr_right fun _ => ⟨fun hall j h₁ h₂ => ?_, fun hall j h₁ h₂ =>
        hall j (by omega) (by omega)⟩
      by_cases hj : j = i
      · rwa [hj]
      · exact hall j (by omega) (by omega)

/-- Arena 0 has an empty slot. -/
def ContextRoom (s : Shm) : Prop := ∃ k, 1 ≤ k ∧ k < 8 ∧ (s.arenas 0).chunks k = 0

section Scan
variable {s : Shm} (h : ContextState s)
include h

theorem ContextState.firstSlot_zero : firstSlot (s.arenas 0) = 1 :=
  if_pos ((h.context 0 (by omega)).mpr rfl)

/-- An empty slot of arena 0 is taken. -/
theorem findArenaChunk_room (hr : ContextRoom s) :
    ∃ k, 1 ≤ k ∧ k < 8 ∧ (s.arenas 0).chunks k = 0 ∧
      findArenaChunk s 128 0 0 = (enterChunk s 0 k (k * 2 ^ 20), k * 2 ^ 20, 0) := by
  have hc := (h.context 0 (by omega)).mpr rfl
  have hi := h.index 0 (by omega) (by rw [hc]; decide)
  obtain ⟨k, h₁, h₂, h₃, hrun⟩ := newArenaChunk_slot (s := s) (by
    rw [h.firstSlot_zero]
    exact hr)
  rw [h.firstSlot_zero] at h₁
  rw [hi, index2pos_slot h₂, Nat.zero_mul, Nat.zero_add] at hrun
  refine ⟨k, h₁, h₂, h₃, ?_⟩
  have hpos : k * 2 ^ 20 ≠ 0 := by omega
  rw [findArenaChunk, if_pos (.inl hc), hrun]
  exact if_pos hpos

/-- Otherwise no arena is looked at for a slot. -/
theorem findArenaChunk_full (hr : ¬ContextRoom s) :
    ∃ e, findArenaChunk s 128 0 0 = (s, 0, e) ∧
      (e = 0 ↔ ∀ j, 1 ≤ j → j < 128 → (s.arenas j).type ≠ .empty) := by
  have hc := (h.context 0 (by omega)).mpr rfl
  have hfull : newArenaChunk s 0 = (s, 0) := newArenaChunk_full fun k h₁ h₂ h₃ =>
    hr ⟨k, h.firstSlot_zero ▸ h₁, h₂, h₃⟩
  obtain ⟨e, hrun, hiff⟩ := findArenaChunk_other (s := s) (n := 127) (e := 0) (i := 1) (by omega)
    fun j h₁ h₂ hj => by
      have := (h.context j (by omega)).mp hj
      omega
  refine ⟨e, ?_, hiff.trans ⟨And.right, fun hall => ⟨rfl, hall⟩⟩⟩
  rw [findArenaChunk, if_pos (.inl hc), hfull]
  exact hrun

end Scan

/-! ### A new arena -/

/-- What `new_arena` does, by what the system answers. -/
theorem newArena_cases {s s' : Shm} {type : ArenaType} {size : Nat} {os : Os} {r : Option Nat}
    (h : newArena s type size os = .ok (s', r)) :
    size % 2 ^ 20 = 0 ∧
    (r = none ∧ s' = s ∧ findEmptyArena s 127 1 = none ∨
      ∃ index, findEmptyArena s 127 1 = some index ∧
        ((os = .keyFails ∨ os = .shmgetFails) ∧ s' = s ∧ r = none ∨
          (∃ shmid, os = .removeFails shmid ∧ s' = (mmapNewArena s index shmid).1 ∧ r = none) ∨
          (∃ shmid, os = .created shmid ∧ (mmapNewArena s index shmid).2.2 = none ∧
            s' = (mmapNewArena s index shmid).1 ∧ r = none) ∨
          ∃ shmid addr, os = .created shmid ∧ (mmapNewArena s index shmid).2.2 = some addr ∧
            s' = enterArena (mmapNewArena s index shmid).1 type size index
              (mmapNewArena s index shmid).2.1 addr ∧ r = some index)) := by
  unfold newArena at h
  obtain ⟨u, hreq, h⟩ := Exec.bind_ok h
  refine ⟨of_decide_eq_true (require_ok hreq), ?_⟩
  split at h
  · next hf =>
    obtain ⟨rfl, rfl⟩ := Prod.mk.inj (Except.ok.inj h)
    exact .inl ⟨rfl, rfl, hf⟩
  · next index hf =>
    refine .inr ⟨index, hf, ?_⟩
    cases os with
    | keyFails =>
      obtain ⟨rfl, rfl⟩ := Prod.mk.inj (Except.ok.inj h)
      exact .inl ⟨.inl rfl, rfl, rfl⟩
    | shmgetFails =>
      obtain ⟨rfl, rfl⟩ := Prod.mk.inj (Except.ok.inj h)
      exact .inl ⟨.inr rfl, rfl, rfl⟩
    | removeFails shmid =>
      obtain ⟨rfl, rfl⟩ := Prod.mk.inj (Except.ok.inj h)
      exact .inr (.inl ⟨shmid, rfl, rfl, rfl⟩)
    | created shmid =>
      refine .inr (.inr ?_)
      dsimp only at h
      split at h
      · next s₁ m hm =>
        obtain ⟨rfl, rfl⟩ := Prod.mk.inj (Except.ok.inj h)
        exact .inl ⟨shmid, rfl, by rw [hm], by rw [hm], rfl⟩
      · next s₁ m addr hm =>
        obtain ⟨rfl, rfl⟩ := Prod.mk.inj (Except.ok.inj h)
        exact .inr ⟨shmid, addr, rfl, by rw [hm], by rw [hm], rfl⟩

@[simp] theorem mmapNewArena_arenas (s : Shm) (index shmid : Nat) :
    (mmapNewArena s index shmid).1.arenas = s.arenas := rfl

theorem enterArena_arenas (s : Shm) (type : ArenaType) (size index shmid addr i : Nat) :
    (enterArena s type size index shmid addr).arenas i =
      if i = index then ⟨type, shmid, index, size, 0, fun _ => 0⟩ else s.arenas i := rfl

end ShmMalloc
