import ShmMalloc.Arena.Spec

/-! The ways of `new_chunk`: a place in an existing arena, none, or one in a new arena. -/
namespace ShmMalloc

/-- `new_chunk` once it has a place. -/
def startChunk (s : Shm) (pos : Nat) (type : ChunkType) : Exec (Shm × Option Nat) := do
  let s ← getOrUpdateAddr s pos
  let s ← initChunk s pos pos type
  return (s, some pos)

section Cases
variable {s s₁ : Shm} {type : ChunkType} {os : Os}

theorem newChunk_found {pos e : Nat} (h : findArenaChunk s 128 0 0 = (s₁, pos, e))
    (hp : pos ≠ 0) : newChunk s type os = startChunk s₁ pos type := by
  unfold newChunk
  rw [h]
  simp only [hp, false_and, if_false, Exec.pure_eq, Exec.ok_bind, ne_eq, not_false_eq_true, if_true]
  rfl

theorem newChunk_none (h : findArenaChunk s 128 0 0 = (s₁, 0, 0)) :
    newChunk s type os = .ok (s₁, none) := by
  unfold newChunk
  rw [h]
  rfl

/-- With no place but an empty entry, an arena is created. -/
theorem newChunk_create {e : Nat} (h : findArenaChunk s 128 0 0 = (s₁, 0, e)) (he : e ≠ 0) :
    newChunk s type os = newArena s₁ .chunk (2 ^ 23) os >>= fun r =>
      match r.2 with
      | none => .ok (r.1, none)
      | some index => require ((newArenaChunk r.1 index).2 ≠ 0) >>= fun _ =>
          startChunk (newArenaChunk r.1 index).1 (newArenaChunk r.1 index).2 type := by
  unfold newChunk
  rw [h]
  simp only [he, ne_eq, not_false_eq_true, and_self, if_true]
  cases newArena s₁ .chunk (2 ^ 23) os with
  | error => rfl
  | ok r =>
    obtain ⟨s₂, index⟩ := r
    cases index with
    | none => rfl
    | some index =>
      simp only [Exec.ok_bind]
      by_cases hp : (newArenaChunk s₂ index).2 = 0
      · simp only [hp]
        rfl
      · simp only [hp, not_false_eq_true, decide_true, require_true, Exec.ok_bind, Exec.pure_eq, if_true]
        rfl

end Cases

theorem startChunk_pos {s s' : Shm} {pos : Nat} {type : ChunkType} {r : Option Nat}
    (h : startChunk s pos type = .ok (s', r)) : r = some pos := by
  unfold startChunk at h
  obtain ⟨s₁, -, h⟩ := Exec.bind_ok h
  obtain ⟨s₂, -, h⟩ := Exec.bind_ok h
  exact (Prod.mk.inj (Except.ok.inj h)).2.symm

/-- The first slot of a new arena. -/
theorem newArenaChunk_new {s : Shm} {index shmid size : Nat}
    (harena : s.arenas index = ⟨.chunk, shmid, index, size, 0, fun _ => 0⟩) :
    newArenaChunk s index = (enterChunk s index 0 (index * 2 ^ 32), index * 2 ^ 32) := by
  have hpos : index2pos index (0 * 2 ^ 20) = index * 2 ^ 32 := by
    rw [index2pos_slot (by omega)]
    omega
  unfold newArenaChunk
  rw [harena]
  simp only [reduceCtorEq, if_false, findEmptySlot, if_true, hpos]
  rw [enterChunk, harena]

end ShmMalloc
