import ShmMalloc.Chunk.RunSpec

/-! The calls on small chunks as sequences of steps on a run, its chunk and its pool. -/
namespace ShmMalloc

/-- The run goes into the pool of its class. -/
def pushRun (s : Shm) (run : Nat) : Exec Shm := do
  let (h, pool) ← shmTreePush s.runNode (s.runPool (s.run run).confIndex) (s.run run).pos
  return (s.setRunPool (s.run run).confIndex pool).setRunNode h

/-- The pool of the run's class loses its root. -/
def popRun (s : Shm) (run : Nat) : Exec Shm := do
  let (h, pool) ← shmTreePop s.runNode (s.runPool (s.run run).confIndex)
  return (s.setRunPool (s.run run).confIndex pool).setRunNode h

/-- The run leaves the pool of its class. -/
def removeRun (s : Shm) (run : Nat) : Exec Shm := do
  let (h, pool) ← shmTreeRemove s.runNode (s.runPool (s.run run).confIndex) (s.run run).pos
  return (s.setRunPool (s.run run).confIndex pool).setRunNode h

/-- The chunk of a page that is taken or given back gets its key. -/
def rekeySmall (s : Shm) (chunk maxsize : Nat) : Exec Shm :=
  if (s.small chunk).used = 256 then updateChunkPool s chunk maxsize else .ok s

/-- The page of an empty run is given back. -/
def releaseRun (s : Shm) (chunk run : Nat) : Exec (Shm × Bool) := do
  let s ← removeRun s run
  let s ← rekeySmall s chunk 1
  let s ← freeChunkRun s chunk (s.run run).pos
  return (s, (s.small chunk).used = 1)

/-- A run on the page `idx` of a chunk. -/
def startRun (s : Shm) (chunk idx type : Nat) : Shm :=
  let elemsize := runConfig type
  let run := chunk + idx * 4096
  let s := clearPage s run
  let total := (4096 - 64) / elemsize
  let s := s.setRun run ⟨(s.header chunk).pos + idx * 4096, type, elemsize, total, 0, 64⟩
  initRunList run elemsize total (total - 1) s 1 64

section Equations
variable (s : Shm) (chunk : Nat)

/-- The loop writes links only. -/
theorem initRunList_eq (run elemsize total n : Nat) (s : Shm) (i block : Nat) :
    ∃ link data, initRunList run elemsize total n s i block = {s with link := link, data := data} := by
  induction n generalizing s i block with
  | zero => exact ⟨_, _, rfl⟩
  | succ n ih =>
    obtain ⟨link, data, h⟩ := ih (s.setLink run block (i * elemsize + 64)) (i + 1) (block + elemsize)
    exact ⟨link, data, h⟩

theorem startRun_fields (idx type : Nat) : ∃ link data, startRun s chunk idx type =
    {(clearPage s (chunk + idx * 4096)).setRun (chunk + idx * 4096)
      ⟨(s.header chunk).pos + idx * 4096, type, runConfig type, 4032 / runConfig type, 0, 64⟩ with
        link := link, data := data} := initRunList_eq ..

theorem mallocChunkRun_eq (run : Nat) : mallocChunkRun s run =
    mallocRun s run >>= fun r =>
      if runFull r.1 run then popRun r.1 run >>= fun s => .ok (s, (r.1.run run).pos + r.2)
      else .ok (r.1, (r.1.run run).pos + r.2) := by
  unfold mallocChunkRun popRun
  cases mallocRun s run with
  | error => rfl
  | ok r =>
    simp only [Exec.ok_bind]
    split
    · cases shmTreePop r.1.runNode (r.1.runPool (r.1.run run).confIndex) <;> rfl
    · rfl

theorem newChunkRun_eq (type : Nat) : newChunkRun s chunk type =
    require ((s.header chunk).type = .small) >>= fun _ =>
      require ((s.small chunk).used < 256) >>= fun _ =>
        let r := bitmapSfu (s.small chunk).bitmap 256
        require (r.2 < 256) >>= fun _ =>
          let run := chunk + r.2 * 4096
          pushRun (startRun (s.setSmall chunk ⟨(s.small chunk).used + 1, r.1⟩) chunk r.2 type) run >>=
            fun s => rekeySmall s chunk 0 >>= fun s => .ok (s, run) := by
  have hrun : ∀ (d : ChunkSmallDetial) idx,
      ((startRun (s.setSmall chunk d) chunk idx type).run (chunk + idx * 4096)).confIndex = type := by
    intro d idx
    obtain ⟨link, data, h⟩ := startRun_fields (s.setSmall chunk d) chunk idx type
    rw [h]
    exact congrArg RunHeader.confIndex (if_pos rfl)
  unfold newChunkRun
  cases require ((s.header chunk).type = .small) with
  | error => rfl
  | ok =>
    simp only [Exec.ok_bind]
    cases require ((s.small chunk).used < 256) with
    | error => rfl
    | ok =>
      simp only [Exec.ok_bind]
      cases require (decide ((bitmapSfu (s.small chunk).bitmap 256).2 < 256)) with
      | error => rfl
      | ok =>
        simp only [Exec.ok_bind]
        unfold pushRun rekeySmall
        rw [hrun]
        unfold startRun
        dsimp only
        cases shmTreePush _ _ _ with
        | error => rfl
        | ok r =>
          simp only [Exec.ok_bind, Exec.pure_eq]
          split <;> rfl

/-- The last part of `free_chunk_small`. -/
theorem releaseRun_eq (s : Shm) (run type : Nat) (h : (s.run run).confIndex = type) :
    (do
      if runEmpty s run && (s.runPool type).size > 1 then
        let (h, pool) ← shmTreeRemove s.runNode (s.runPool type) (s.run run).pos
        let s := (s.setRunPool type pool).setRunNode h
        let s ← if (s.small chunk).used = 256 then updateChunkPool s chunk 1 else pure s
        let s ← freeChunkRun s chunk (s.run run).pos
        return (s, (s.small chunk).used = 1)
      return (s, false) : Exec (Shm × Bool)) =
    if runEmpty s run && (s.runPool (s.run run).confIndex).size > 1 then releaseRun s chunk run
    else .ok (s, false) := by
  subst h
  unfold releaseRun removeRun rekeySmall
  split
  · cases shmTreeRemove s.runNode (s.runPool (s.run run).confIndex) (s.run run).pos with
    | error => rfl
    | ok r =>
      simp only [Exec.ok_bind, Exec.pure_eq]
      split <;> rfl
  · rfl

theorem freeChunkSmall_eq (offset : Nat) : freeChunkSmall s chunk offset =
    findRun s chunk offset >>= fun o =>
      match o with
      | none => .ok (s, false)
      | some run =>
        freeRun s run (((s.header chunk).pos + offset + 2 ^ 64 - (s.run run).pos) % 2 ^ 32) >>= fun s₁ =>
          (if runFull s run then pushRun s₁ run else .ok s₁) >>= fun s₂ =>
            if runEmpty s₂ run && (s₂.runPool (s₂.run run).confIndex).size > 1 then
              releaseRun s₂ chunk run
            else .ok (s₂, false) := by
  unfold freeChunkSmall
  cases findRun s chunk offset with
  | error => rfl
  | ok o =>
    cases o with
    | none => rfl
    | some run =>
      simp only [Exec.ok_bind]
      cases freeRun s run (((s.header chunk).pos + offset + 2 ^ 64 - (s.run run).pos) % 2 ^ 32) with
      | error => rfl
      | ok s₁ =>
        simp only [Exec.ok_bind]
        unfold pushRun
        split
        · cases shmTreePush s₁.runNode (s₁.runPool (s₁.run run).confIndex) (s₁.run run).pos with
          | error => rfl
          | ok r => exact releaseRun_eq chunk _ run _ rfl
        · exact releaseRun_eq chunk _ run _ rfl

end Equations

end ShmMalloc
