import ShmMalloc.Heap.Runs
import ShmMalloc.Library.Mutex

/-! The public operations, statement by statement under the context mutex.

A process takes the mutex, its statements work on the shared memory with its own table,
and it releases the mutex; a request that needs no heap returns without it. Other
processes call, wait and return in between, and may exit. The start of a process is one
action here, at a time when the mutex is free: what it does before it takes the mutex is
in `Process.Share`. A statement that aborts leaves the mutex taken, and the system then ends
the process: its attaches are gone, and it is still counted in the context. -/
namespace ShmMalloc
open Library

def HeapWorld.setShm (w : HeapWorld) (s : Shm) : HeapWorld := {w with world.shm := s}

/-- A local variable is a number, or a pointer that may be `NULL`. -/
abbrev HeapProg := Prog HeapWorld Fault (Option Nat)

namespace HeapProg

def onShm (f : Shm → Exec (Shm × Option Nat)) (w : HeapWorld) : Exec (HeapWorld × Option Nat) := do
  let (s, v) ← f w.world.shm
  return (w.setShm s, v)

/-! ### Statements -/

/-- A call that returns a pointer. -/
def find (f : Shm → Exec (Shm × Option Nat)) (k : Option Nat → HeapProg) : HeapProg := .step (onShm f) k

/-- A call that returns a number. -/
def call (f : Shm → Exec (Shm × Nat)) (k : Nat → HeapProg) : HeapProg :=
  .step (onShm fun s => do
    let (s, n) ← f s
    return (s, some n)) fun v => k (v.getD 0)

/-- A call that returns nothing. -/
def act (f : Shm → Exec Shm) (k : HeapProg) : HeapProg :=
  .step (onShm fun s => do
    let s ← f s
    return (s, none)) fun _ => k

/-- A local variable that is read from the shared memory. -/
def get (f : Shm → Nat) (k : Nat → HeapProg) : HeapProg := call (fun s => .ok (s, f s)) k

end HeapProg

open HeapProg

/-- `ARENA_TYPE_EMPTY` and the others. -/
def ArenaType.code : ArenaType → Nat
  | .empty => 0
  | .context => 1
  | .chunk => 2
  | .large => 3

/-! ### Inside the mutex -/

def mallocArenaProg (size : Nat) (os : Os) (k : Nat → HeapProg) : HeapProg :=
  if size ≤ 1920 then
    call (fun s => do return (s, ← findRunConfig size)) fun runidx =>
    find (tryRunPool · runidx) fun
      | some run => call (mallocChunkRun · run) k
      | none =>
        find (getOrNewChunk · .small size os) fun
          | none => k 0
          | some chunk =>
            call (newChunkRun · chunk runidx) fun run =>
            call (mallocChunkRun · run) k
  else if size ≤ 2 ^ 20 - 4096 then
    find (getOrNewChunk · .medium size os) fun
      | none => k 0
      | some chunk => call (mallocChunkMedium · chunk size) k
  else
    find (newArena · .large (alignSize size (2 ^ 20)) os) fun
      | none => k 0
      | some index => get (fun s => index2pos (s.arenas index).index 0) k

/-- The chunk of an offset, looked up and checked, in `free_arena` and `check_arena`. -/
def chunkProg (index offset : Nat) (k : HeapProg) (body : Nat → Nat → HeapProg) : HeapProg :=
  get (fun s => getArenaChunk (s.arenas index) offset) fun chunkPos =>
  if chunkPos = 0 then k
  else
    act (getOrUpdateAddr · chunkPos) <|
    let chunkOffset := (offset + 2 ^ 32 - pos2offset chunkPos) % 2 ^ 32
    act (fun s => do
      require (chunkOffset < 2 ^ 20)
      return s) <|
    body chunkPos chunkOffset

def freeArenaProg (index offset : Nat) (k : HeapProg) : HeapProg :=
  get (fun s => (isArenaValid s index).toNat) fun valid =>
  if valid = 0 then k
  else
    get (fun s => (s.arenas index).type.code) fun type =>
    if type = 1 ∨ type = 2 then
      chunkProg index offset k fun chunkPos chunkOffset =>
      call (fun s => do
        let (s, check) ← freeChunk s chunkPos chunkOffset
        return (s, check.toNat)) fun check =>
      if check ≠ 0 then act (checkDeleteChunk · index chunkPos) k else k
    else if type = 3 then act (deleteArena · index) k
    else act (fun _ => .error .assertion) k

def checkArenaProg (index offset : Nat) (k : Nat → HeapProg) : HeapProg :=
  get (fun s => (isArenaValid s index).toNat) fun valid =>
  if valid = 0 then k 0
  else
    get (fun s => (s.arenas index).type.code) fun type =>
    if type = 1 ∨ type = 2 then
      chunkProg index offset (k 0) fun chunkPos _ =>
      call (fun s => do return (s, ← checkChunk s chunkPos offset)) k
    else if type = 3 then get (fun s => (s.arenas index).size) k
    else act (fun _ => .error .assertion) (k 0)

def visitProg : List Nat → HeapProg → HeapProg
  | [], k => k
  | index :: visits, k =>
    find (getOrUpdateArenaAddr · index) fun
      | none => act (fun _ => .error .null) k
      | some _ => visitProg visits k

/-! ### The public operations -/

/-- What a process does first when it has the mutex: the table is its own. -/
def loadProg (pid : Nat) (shmat : Nat → Nat → List Attach → Option Nat) (k : HeapProg) : HeapProg :=
  .step (fun w => .ok (w.setShm (w.world.load (w.world.proc pid) shmat), none)) fun _ => k

/-- The end of a call: what is live is known by what it has done. -/
def unlockProg (pid : Nat) (c : Call) (ret : Nat) (r : Option Nat) : HeapProg :=
  .step (fun w => .ok (⟨w.world.store pid w.world.shm, c.liveAfter w.live ret⟩, none)) fun _ => .unlock (.ret r)

section
variable (pid : Nat) (visits : List Nat) (os : Os) (shmat : Nat → Nat → List Attach → Option Nat)

/-- `lock_context`, the body of a call, and `unlock_context`. -/
def lockedProg (c : Call) (body : (Nat → HeapProg) → HeapProg) : HeapProg :=
  .lock (loadProg pid shmat (visitProg visits (body fun ret => unlockProg pid c ret (some ret))))

def shmMallocProg (c : Call) (size : Nat) : HeapProg :=
  if size = 0 then .ret (some 0) else lockedProg pid visits shmat c (mallocArenaProg size os)

def shmFreeProg (c : Call) (pos : Nat) : HeapProg :=
  if pos = 0 then .ret none
  else lockedProg pid visits shmat c fun k => freeArenaProg (pos2index pos) (pos2offset pos) (k 0)

def shmReallocProg (c : Call) (pos size : Nat) : HeapProg :=
  if pos = 0 then shmMallocProg pid visits os shmat c size
  else
    lockedProg pid visits shmat c fun k =>
      checkArenaProg (pos2index pos) (pos2offset pos) fun checksize =>
      if size > checksize ∧ checksize ≠ 0 then
        mallocArenaProg size os fun ret =>
        if ret ≠ 0 then
          act (getOrUpdateAddr · pos) <|
          act (getOrUpdateAddr · ret) <|
          act (fun s => .ok (copyData s ret pos checksize)) <|
          freeArenaProg (pos2index pos) (pos2offset pos) (k ret)
        else k ret
      else k pos

def shmCheckSizeProg (c : Call) (pos : Nat) : HeapProg :=
  if pos = 0 then .ret (some 0)
  else lockedProg pid visits shmat c (checkArenaProg (pos2index pos) (pos2offset pos))

def shmGetAddrProg (c : Call) (pos : Nat) : HeapProg :=
  if pos2index pos ≥ 128 then .ret none
  else
    .lock <| loadProg pid shmat <| visitProg visits <|
    find (getOrUpdateArenaAddr · (pos2index pos)) fun base =>
    unlockProg pid c 0 (base.map (· + pos2offset pos))

def Call.prog (c : Call) : HeapProg :=
  match c with
  | .malloc size => shmMallocProg pid visits os shmat c size
  | .free pos => shmFreeProg pid visits shmat c pos
  | .realloc pos size => shmReallocProg pid visits os shmat c pos size
  | .checkSize pos => shmCheckSizeProg pid visits shmat c pos
  | .getAddr pos => shmGetAddrProg pid visits shmat c pos

end

/-! ### The programs as the atomic calls -/

section
variable {w : HeapWorld} {k : HeapProg}

theorem find_run (f : Shm → Exec (Shm × Option Nat)) (k : Option Nat → HeapProg) :
    (find f k).run w = f w.world.shm >>= fun r => (k r.2).run (w.setShm r.1) := by
  simp only [find, Prog.run, onShm]
  cases f w.world.shm <;> rfl

theorem call_run (f : Shm → Exec (Shm × Nat)) (k : Nat → HeapProg) :
    (call f k).run w = f w.world.shm >>= fun r => (k r.2).run (w.setShm r.1) := by
  simp only [call, Prog.run, onShm]
  cases f w.world.shm <;> rfl

theorem act_run (f : Shm → Exec Shm) : (act f k).run w = f w.world.shm >>= fun s => k.run (w.setShm s) := by
  simp only [act, Prog.run, onShm]
  cases f w.world.shm <;> rfl

theorem get_run (f : Shm → Nat) (k : Nat → HeapProg) : (HeapProg.get f k).run w = (k (f w.world.shm)).run w := by
  rw [HeapProg.get, call_run]
  rfl

@[simp] theorem setShm_shm (s : Shm) : (w.setShm s).world.shm = s := rfl

@[simp] theorem setShm_setShm (s s' : Shm) : (w.setShm s).setShm s' = w.setShm s' := rfl

theorem mallocArenaProg_run {size : Nat} {os : Os} {k : Nat → HeapProg} :
    (mallocArenaProg size os k).run w =
      mallocArena w.world.shm size os >>= fun r => (k r.2).run (w.setShm r.1) := by
  unfold mallocArenaProg mallocArena
  split
  · simp only [call_run, find_run, bind_assoc, Exec.pure_eq, Exec.ok_bind]
    congr 1
    funext runidx
    congr 1
    funext r
    obtain ⟨s, run⟩ := r
    cases run with
    | some run => simp only [call_run, setShm_shm, setShm_setShm]
    | none =>
      simp only [find_run, setShm_shm, setShm_setShm, bind_assoc]
      congr 1
      funext r
      obtain ⟨s, chunk⟩ := r
      cases chunk with
      | none => rfl
      | some chunk => simp only [call_run, setShm_shm, setShm_setShm, bind_assoc]
  · split
    · simp only [find_run, bind_assoc]
      congr 1
      funext r
      obtain ⟨s, chunk⟩ := r
      cases chunk with
      | none => rfl
      | some chunk => simp only [call_run, setShm_shm, setShm_setShm]
    · simp only [find_run, bind_assoc]
      congr 1
      funext r
      obtain ⟨s, index⟩ := r
      cases index with
      | none => rfl
      | some index => simp only [get_run, setShm_shm, Exec.pure_eq, Exec.ok_bind]

theorem chunkProg_run {index offset : Nat} {body : Nat → Nat → HeapProg} :
    (chunkProg index offset k body).run w =
      if getArenaChunk (w.world.shm.arenas index) offset = 0 then k.run w
      else
        let chunkPos := getArenaChunk (w.world.shm.arenas index) offset
        let chunkOffset := (offset + 2 ^ 32 - pos2offset chunkPos) % 2 ^ 32
        getOrUpdateAddr w.world.shm chunkPos >>= fun s => require (chunkOffset < 2 ^ 20) >>= fun _ =>
          (body chunkPos chunkOffset).run (w.setShm s) := by
  rw [chunkProg, get_run]
  split
  · rfl
  · simp only [act_run, setShm_shm, setShm_setShm, bind_assoc, Exec.pure_eq, Exec.ok_bind]

theorem freeArenaProg_run {index offset : Nat} :
    (freeArenaProg index offset k).run w = freeArena w.world.shm index offset >>= fun s => k.run (w.setShm s) := by
  unfold freeArenaProg freeArena
  rw [get_run]
  cases isArenaValid w.world.shm index with
  | false => rfl
  | true =>
    simp only [Bool.toNat_true, one_ne_zero, if_false, Bool.not_true, Bool.false_eq_true, get_run]
    cases (w.world.shm.arenas index).type with
    | empty => rfl
    | large => simp only [ArenaType.code, Nat.reduceEqDiff, or_self, if_true, if_false, act_run]
    | context | chunk =>
      simp only [ArenaType.code, Nat.reduceEqDiff, or_true, true_or, if_true, chunkProg_run]
      split
      · rfl
      simp only [call_run, setShm_shm, setShm_setShm, bind_assoc, Exec.pure_eq, Exec.ok_bind]
      congr 1
      funext s
      congr 1
      funext _
      congr 1
      funext r
      obtain ⟨s, check⟩ := r
      cases check with
      | false => rfl
      | true => simp only [Bool.toNat_true, ne_eq, one_ne_zero, not_false_eq_true, if_true, act_run, setShm_shm, setShm_setShm]

theorem checkArenaProg_run {index offset : Nat} {k : Nat → HeapProg} :
    (checkArenaProg index offset k).run w =
      checkArena w.world.shm index offset >>= fun r => (k r.2).run (w.setShm r.1) := by
  unfold checkArenaProg checkArena
  rw [get_run]
  cases isArenaValid w.world.shm index with
  | false => rfl
  | true =>
    simp only [Bool.toNat_true, one_ne_zero, if_false, Bool.not_true, Bool.false_eq_true, get_run]
    cases (w.world.shm.arenas index).type with
    | empty => rfl
    | large => rfl
    | context | chunk =>
      simp only [ArenaType.code, Nat.reduceEqDiff, or_true, true_or, if_true, chunkProg_run]
      split
      · rfl
      simp only [call_run, setShm_shm, setShm_setShm, bind_assoc, Exec.pure_eq, Exec.ok_bind]

theorem visitProg_run {visits : List Nat} :
    (visitProg visits k).run w = visit w.world.shm visits >>= fun s => k.run (w.setShm s) := by
  induction visits generalizing w with
  | nil => rfl
  | cons index visits ih =>
    simp only [visitProg, visit, find_run, bind_assoc]
    congr 1
    funext r
    obtain ⟨s, addr⟩ := r
    cases addr with
    | none => rfl
    | some addr =>
      simp only [ih, setShm_shm, setShm_setShm]
      rfl

variable {pid : Nat} {visits : List Nat} {os : Os} {shmat : Nat → Nat → List Attach → Option Nat} {c : Call}

theorem loadProg_run : (loadProg pid shmat k).run w = k.run (w.setShm (w.world.load (w.world.proc pid) shmat)) := rfl

theorem unlockProg_run {ret : Nat} {r : Option Nat} : (unlockProg pid c ret r).run w =
    .ok ⟨w.world.store pid w.world.shm, c.liveAfter w.live ret⟩ := rfl

/-- A body that computes what the atomic call computes. -/
theorem lockedProg_run {body : (Nat → HeapProg) → HeapProg} (run : Shm → Exec (Shm × Nat))
    (h : lockedProg pid visits shmat c body = .lock k)
    (hbody : ∀ (w : HeapWorld) k, (body k).run w = run w.world.shm >>= fun r => (k r.2).run (w.setShm r.1)) :
    k.run w = visit (w.world.load (w.world.proc pid) shmat) visits >>= fun s => run s >>= fun r =>
        .ok ⟨w.world.store pid r.1, c.liveAfter w.live r.2⟩ := by
  obtain rfl := Prog.lock.inj h
  simp only [loadProg_run, visitProg_run, hbody, unlockProg_run, setShm_shm, setShm_setShm]
  rfl

theorem shmMallocProg_run {size : Nat} (h : shmMallocProg pid visits os shmat c size = .lock k) :
    k.run w = visit (w.world.load (w.world.proc pid) shmat) visits >>= fun s => shmMalloc s size os >>= fun r =>
        .ok ⟨w.world.store pid r.1, c.liveAfter w.live r.2⟩ := by
  unfold shmMallocProg at h
  split at h
  · cases h
  next hsize =>
  simp only [shmMalloc, if_neg hsize]
  exact lockedProg_run _ h fun w k => mallocArenaProg_run

theorem shmFreeProg_run {pos : Nat} (h : shmFreeProg pid visits shmat c pos = .lock k) :
    k.run w = visit (w.world.load (w.world.proc pid) shmat) visits >>= fun s => shmFree s pos >>= fun s =>
        .ok ⟨w.world.store pid s, c.liveAfter w.live 0⟩ := by
  unfold shmFreeProg at h
  split at h
  · cases h
  next hpos =>
  simp only [shmFree, if_neg hpos]
  have hbody : ∀ (w : HeapWorld) (k : Nat → HeapProg),
      (freeArenaProg (pos2index pos) (pos2offset pos) (k 0)).run w =
        (freeArena w.world.shm (pos2index pos) (pos2offset pos) >>= fun s => .ok (s, 0)) >>= fun r =>
          (k r.2).run (w.setShm r.1) := fun w k => by
    simp only [freeArenaProg_run, bind_assoc, Exec.ok_bind]
  rw [lockedProg_run (fun s => freeArena s (pos2index pos) (pos2offset pos) >>= fun s => .ok (s, 0)) h hbody]
  simp only [bind_assoc, Exec.ok_bind]

theorem shmReallocProg_run {pos size : Nat} (h : shmReallocProg pid visits os shmat c pos size = .lock k) :
    k.run w = visit (w.world.load (w.world.proc pid) shmat) visits >>= fun s => shmRealloc s pos size os >>= fun r =>
        .ok ⟨w.world.store pid r.1, c.liveAfter w.live r.2⟩ := by
  unfold shmReallocProg at h
  split at h
  · next hpos =>
    simp only [shmRealloc, if_pos hpos]
    exact shmMallocProg_run h
  next hpos =>
  refine lockedProg_run _ h fun w k => ?_
  simp only [shmRealloc, if_neg hpos, checkArenaProg_run, bind_assoc]
  congr 1
  funext r
  obtain ⟨s, checksize⟩ := r
  dsimp only
  split
  · simp only [mallocArenaProg_run, setShm_shm, setShm_setShm, bind_assoc]
    congr 1
    funext r
    obtain ⟨s, ret⟩ := r
    dsimp only
    split
    · simp only [act_run, freeArenaProg_run, setShm_shm, setShm_setShm, bind_assoc, Exec.ok_bind, Exec.pure_eq]
    · rfl
  · rfl

theorem shmCheckSizeProg_run {pos : Nat} (h : shmCheckSizeProg pid visits shmat c pos = .lock k) :
    k.run w = visit (w.world.load (w.world.proc pid) shmat) visits >>= fun s => shmCheckSize s pos >>= fun r =>
        .ok ⟨w.world.store pid r.1, c.liveAfter w.live r.2⟩ := by
  unfold shmCheckSizeProg at h
  split at h
  · cases h
  next hpos =>
  simp only [shmCheckSize, if_neg hpos]
  exact lockedProg_run _ h fun w k => checkArenaProg_run

theorem shmGetAddrProg_run {pos : Nat} (h : shmGetAddrProg pid visits shmat c pos = .lock k) :
    k.run w = visit (w.world.load (w.world.proc pid) shmat) visits >>= fun s => shmGetAddr s pos >>= fun r =>
        .ok ⟨w.world.store pid r.1, c.liveAfter w.live 0⟩ := by
  unfold shmGetAddrProg at h
  split at h
  · cases h
  next hindex =>
  obtain rfl := Prog.lock.inj h
  simp only [shmGetAddr, if_neg hindex, loadProg_run, visitProg_run, find_run, unlockProg_run, setShm_shm, setShm_setShm,
    bind_assoc, Exec.ok_bind, Exec.pure_eq]
  rfl

/-- The steps between the lock and the unlock are the atomic call. -/
theorem Call.prog_run (h : c.prog pid visits os shmat = .lock k) :
    k.run w = w.step (.call pid c visits os shmat) := by
  cases c with
  | malloc size => exact shmMallocProg_run h
  | free pos =>
    rw [shmFreeProg_run h]
    simp only [HeapWorld.step, Call.run, bind_assoc, Exec.ok_bind, Exec.pure_eq]
  | realloc pos size => exact shmReallocProg_run h
  | checkSize pos => exact shmCheckSizeProg_run h
  | getAddr pos =>
    rw [shmGetAddrProg_run h]
    simp only [HeapWorld.step, Call.run, bind_assoc, Exec.ok_bind, Exec.pure_eq]

end

/-! ### What holds of every program -/

/-- A property of programs that a statement in front does not change. -/
def Closed (X : HeapProg → Prop) : Prop := ∀ f k, (∀ v, X (k v)) → X (.step (onShm f) k)

section
variable {X : HeapProg → Prop} {k : HeapProg}

theorem Closed.get (h : Closed X) {f : Shm → Nat} {k : Nat → HeapProg} (hk : ∀ n, X (k n)) : X (HeapProg.get f k) :=
  h _ _ fun _ => hk _

theorem Closed.act (h : Closed X) {f : Shm → Exec Shm} (hk : X k) : X (act f k) := h _ _ fun _ => hk

theorem Closed.mallocArena (h : Closed X) {size : Nat} {os : Os} {k : Nat → HeapProg} (hk : ∀ n, X (k n)) :
    X (mallocArenaProg size os k) := by
  unfold mallocArenaProg
  split
  · refine h _ _ fun _ => h _ _ fun run => ?_
    cases run with
    | some run => exact h _ _ fun _ => hk _
    | none =>
      refine h _ _ fun chunk => ?_
      cases chunk with
      | none => exact hk 0
      | some chunk => exact h _ _ fun _ => h _ _ fun _ => hk _
  · split
    · refine h _ _ fun chunk => ?_
      cases chunk with
      | none => exact hk 0
      | some chunk => exact h _ _ fun _ => hk _
    · refine h _ _ fun index => ?_
      cases index with
      | none => exact hk 0
      | some index => exact h.get hk

theorem Closed.chunk (h : Closed X) {index offset : Nat} {body : Nat → Nat → HeapProg} (hk : X k)
    (hbody : ∀ pos o, X (body pos o)) : X (chunkProg index offset k body) := by
  refine h.get fun chunkPos => ?_
  split
  · exact hk
  · exact h.act (h.act (hbody _ _))

theorem Closed.freeArena (h : Closed X) {index offset : Nat} (hk : X k) : X (freeArenaProg index offset k) := by
  refine h.get fun valid => ?_
  split
  · exact hk
  refine h.get fun type => ?_
  split
  · refine h.chunk hk fun pos o => h _ _ fun check => ?_
    dsimp only
    split
    · exact h.act hk
    · exact hk
  · split
    · exact h.act hk
    · exact h.act hk

theorem Closed.checkArena (h : Closed X) {index offset : Nat} {k : Nat → HeapProg} (hk : ∀ n, X (k n)) :
    X (checkArenaProg index offset k) := by
  refine h.get fun valid => ?_
  split
  · exact hk 0
  refine h.get fun type => ?_
  split
  · exact h.chunk (hk 0) fun pos o => h _ _ fun _ => hk _
  · split
    · exact h.get hk
    · exact h.act (hk 0)

theorem Closed.visit (h : Closed X) {visits : List Nat} (hk : X k) : X (visitProg visits k) := by
  induction visits with
  | nil => exact hk
  | cons index visits ih =>
    refine h _ _ fun addr => ?_
    cases addr with
    | none => exact h.act hk
    | some addr => exact ih

variable (pid : Nat) (visits : List Nat) (os : Os) (shmat : Nat → Nat → List Attach → Option Nat) (c : Call)

/-- A call either takes the mutex and has the property from then on, or returns at once. -/
theorem Call.prog_cases (h : Closed X) (hload : ∀ k, X k → X (loadProg pid shmat k))
    (hunlock : ∀ ret r, X (unlockProg pid c ret r)) :
    (∃ r, c.prog pid visits os shmat = .ret r) ∨ ∃ k, c.prog pid visits os shmat = .lock k ∧ X k := by
  have hmalloc : ∀ size, (∃ r, shmMallocProg pid visits os shmat c size = .ret r) ∨
      ∃ k, shmMallocProg pid visits os shmat c size = .lock k ∧ X k := fun size => by
    unfold shmMallocProg
    split
    · exact .inl ⟨_, rfl⟩
    · exact .inr ⟨_, rfl, hload _ (h.visit (h.mallocArena fun _ => hunlock _ _))⟩
  cases c with
  | malloc size => exact hmalloc size
  | free pos =>
    unfold Call.prog shmFreeProg
    dsimp only
    split
    · exact .inl ⟨_, rfl⟩
    · exact .inr ⟨_, rfl, hload _ (h.visit (h.freeArena (hunlock _ _)))⟩
  | realloc pos size =>
    unfold Call.prog shmReallocProg
    dsimp only
    split
    · exact hmalloc size
    · refine .inr ⟨_, rfl, hload _ (h.visit (h.checkArena fun checksize => ?_))⟩
      split
      · refine h.mallocArena fun ret => ?_
        split
        · exact h.act (h.act (h.act (h.freeArena (hunlock _ _))))
        · exact hunlock _ _
      · exact hunlock _ _
  | checkSize pos =>
    unfold Call.prog shmCheckSizeProg
    dsimp only
    split
    · exact .inl ⟨_, rfl⟩
    · exact .inr ⟨_, rfl, hload _ (h.visit (h.checkArena fun _ => hunlock _ _))⟩
  | getAddr pos =>
    unfold Call.prog shmGetAddrProg
    dsimp only
    split
    · exact .inl ⟨_, rfl⟩
    · exact .inr ⟨_, rfl, hload _ (h.visit (h _ _ fun _ => hunlock _ _))⟩

/-- Every access to the shared memory is between the lock and the unlock. -/
theorem Call.prog_outside : (c.prog pid visits os shmat).Outside := by
  rcases c.prog_cases pid visits os shmat (X := Prog.Inside) (fun f k hk => hk) (fun k hk _ => hk)
    (fun ret r _ => ⟨r, rfl⟩) with ⟨r, hr⟩ | ⟨k, hk, hin⟩
  · rw [hr]
    trivial
  · rw [hk]
    exact hin

end

/-! ### The mutex -/

def Action.pid : Action → Nat
  | .init pid _ _ => pid
  | .exit pid => pid
  | .call pid _ _ _ _ => pid

/-- The end of a process that has aborted. -/
def HeapWorld.abort (pid : Nat) (w : HeapWorld) : HeapWorld :=
  ⟨⟨{w.world.shm with arenaAddrs := Proc.none.arenaAddrs, sys := {w.world.shm.sys with attached := []}}, w.world.pids,
    Function.update w.world.proc pid .none⟩, w.live⟩

/-- A process that exits does not wait for the mutex. -/
def heapLocking : Locking heapMachine (Option Nat) Nat where
  who := Action.pid
  prog
    | .call pid c visits os shmat => some (c.prog pid visits os shmat)
    | _ => none
  passes a := ∃ pid, a = .exit pid
  ends := HeapWorld.abort
  outside a k h := by
    cases a with
    | init pid shmid shmat => cases h
    | exit pid => cases h
    | call pid c visits os shmat =>
      obtain rfl := Option.some.inj h
      exact c.prog_outside pid visits os shmat
  run a k w h := by
    cases a with
    | init pid shmid shmat => cases h
    | exit pid => cases h
    | call pid c visits os shmat => exact Call.prog_run (Option.some.inj h)

/-- Only calls of a kind are made. -/
def CallsOnly (P : Shm → Call → Prop) (w : HeapWorld) : Action → Prop
  | .call _ c _ _ _ => P w.world.shm c
  | _ => True

def HeapWorld.exit (pid : Nat) (w : HeapWorld) : HeapWorld := ⟨w.world.exit pid, w.live⟩

/-- The context stays as long as another process is in it. -/
theorem HeapWorld.exit_eq {w : HeapWorld} {pid q : Nat} (h : pid ∈ w.world.pids) (hne : pid ≠ q) : w.exit q =
    ⟨⟨w.world.shm, w.world.pids.filter (· ≠ q), Function.update w.world.proc q .none⟩, w.live⟩ := by
  have hpids : w.world.pids.filter (· ≠ q) ≠ [] :=
    List.ne_nil_of_mem (List.mem_filter.mpr ⟨h, decide_eq_true hne⟩)
  unfold HeapWorld.exit World.exit
  simp only [if_neg hpids]

section
variable {pid q : Nat} {pids : List Nat}

/-- A statement passes the exit of another process. -/
theorem passed_exit (h : pid ∈ pids) (hne : pid ≠ q) :
    Closed (Prog.Passed (HeapWorld.exit q) fun w => w.world.pids = pids) := by
  refine fun f k hk => ⟨fun w w' v hw hf => ?_, fun w e hw hf => ?_, hk⟩
  · obtain ⟨⟨s, v'⟩, hrun, hret⟩ := Exec.bind_ok hf
    obtain ⟨rfl, rfl⟩ := Prod.mk.inj (Except.ok.inj hret)
    have hset : (w.setShm s).exit q = _ := HeapWorld.exit_eq (show pid ∈ w.world.pids from hw ▸ h) hne
    rw [onShm, HeapWorld.exit_eq (hw ▸ h) hne, hrun, hset]
    exact ⟨rfl, hw⟩
  · cases hrun : f w.world.shm with
    | ok r =>
      rw [onShm, hrun] at hf
      cases hf
    | error e' =>
      rw [onShm, hrun] at hf
      rw [onShm, HeapWorld.exit_eq (hw ▸ h) hne, hrun]
      exact hf

theorem passed_load (h : pid ∈ pids) (hne : pid ≠ q) {shmat : Nat → Nat → List Attach → Option Nat} (k : HeapProg)
    (hk : k.Passed (HeapWorld.exit q) fun w => w.world.pids = pids) :
    (loadProg pid shmat k).Passed (HeapWorld.exit q) fun w => w.world.pids = pids := by
  refine ⟨fun w w' v hw hf => ?_, fun w e hw hf => absurd hf (by simp), fun _ => hk⟩
  obtain ⟨rfl, rfl⟩ := Prod.mk.inj (Except.ok.inj hf)
  have hset : (w.setShm (w.world.load (w.world.proc pid) shmat)).exit q = _ :=
    HeapWorld.exit_eq (show pid ∈ w.world.pids from hw ▸ h) hne
  have hproc : Function.update w.world.proc q .none pid = w.world.proc pid := Function.update_of_ne hne ..
  dsimp only
  rw [HeapWorld.exit_eq (show pid ∈ w.world.pids from hw ▸ h) hne, hset]
  dsimp only
  rw [hproc]
  exact ⟨rfl, hw⟩

theorem passed_unlock (h : pid ∈ pids) (hne : pid ≠ q) {c : Call} (ret : Nat) (r : Option Nat) :
    (unlockProg pid c ret r).Passed (HeapWorld.exit q) fun w => w.world.pids = pids := by
  refine ⟨fun w w' v hw hf => ?_, fun w e hw hf => absurd hf (by simp), fun _ => trivial⟩
  obtain ⟨rfl, rfl⟩ := Prod.mk.inj (Except.ok.inj hf)
  have hmem : pid ∈ w.world.pids := hw ▸ h
  have hmem' : pid ∈ w.world.pids.filter (· ≠ q) := List.mem_filter.mpr ⟨hmem, decide_eq_true hne⟩
  have hstore : (w.world.store pid w.world.shm).pids = w.world.pids := if_pos hmem
  have hexit := HeapWorld.exit_eq (w := ⟨w.world.store pid w.world.shm, c.liveAfter w.live ret⟩) (hstore.symm ▸ hmem) hne
  refine ⟨?_, hstore.trans hw⟩
  dsimp only
  rw [HeapWorld.exit_eq hmem hne, hexit]
  unfold World.store
  simp only [if_pos hmem, if_pos hmem', Function.update_comm hne]

theorem Call.prog_passed (h : pid ∈ pids) (hne : pid ≠ q) {visits : List Nat} {os : Os}
    {shmat : Nat → Nat → List Attach → Option Nat} {c : Call} {k : HeapProg} (hk : c.prog pid visits os shmat = .lock k) :
    k.Passed (HeapWorld.exit q) fun w => w.world.pids = pids := by
  rcases c.prog_cases pid visits os shmat (passed_exit h hne) (passed_load h hne) (passed_unlock h hne) with
    ⟨r, hr⟩ | ⟨k', hk', hpassed⟩
  · rw [hk] at hr
    cases hr
  · rw [hk] at hk'
    exact Prog.lock.inj hk' ▸ hpassed

/-- A call stays legal when another process exits. -/
theorem HeapWorld.Legal.exit {w : HeapWorld} {c : Call} {visits : List Nat} {os : Os}
    {shmat : Nat → Nat → List Attach → Option Nat} (h : w.Legal (.call pid c visits os shmat)) (hne : pid ≠ q) :
    (w.exit q).Legal (.call pid c visits os shmat) := by
  obtain ⟨⟨hp, hid, hfresh⟩, hlive⟩ := h
  rw [HeapWorld.exit_eq hp hne]
  refine ⟨⟨List.mem_filter.mpr ⟨hp, decide_eq_true hne⟩, fun m hm => ?_, hfresh⟩, hlive⟩
  obtain ⟨hpos, hkey, hattached⟩ := hid m hm
  refine ⟨hpos, hkey, fun p hp' => ?_⟩
  obtain ⟨hp', hpq⟩ := List.mem_filter.mp hp'
  show ∀ a ∈ (Function.update w.world.proc q .none p).attached, a.shmid ≠ m
  rw [Function.update_of_ne (of_decide_eq_true hpq)]
  exact hattached p hp'

/-- What another process does to exit, it might have done before the call. -/
theorem heapLocking_moves (P : Shm → Call → Prop) : heapLocking.Moves (CallsOnly P) := by
  rintro w₀ a k w b w' - hla hPa hmid - ⟨q, rfl⟩ hne hlb - hs
  obtain ⟨k₀, hk₀⟩ := hmid.prog
  cases a with
  | init pid shmid shmat => cases hk₀
  | exit pid => cases hk₀
  | call pid c visits os shmat =>
    have hmem : pid ∈ w₀.world.pids := hla.1.1
    have hne' : pid ≠ q := fun he => hne he.symm
    have hpassed : ∀ k, heapLocking.prog (.call pid c visits os shmat) = some (.lock k) →
        k.Passed (HeapWorld.exit q) fun w => w.world.pids = w₀.world.pids := fun k hk =>
      Call.prog_passed hmem hne' (Option.some.inj hk)
    obtain ⟨hpids, hmid', -⟩ := hmid.passed hpassed rfl
    obtain rfl : w.exit q = w' := Except.ok.inj hs
    have hexit : w₀.exit q = _ := HeapWorld.exit_eq hmem hne'
    refine ⟨w₀.exit q, ?_, trivial, rfl, HeapWorld.Legal.exit hla hne', ?_, hmid', fun e he => ?_⟩
    · show q ∈ w₀.world.pids
      exact hpids ▸ hlb
    · rw [hexit]
      exact hPa
    · have hrun := heapLocking.run _ _ w₀ hk₀
      have hrun' := heapLocking.run _ _ (w₀.exit q) hk₀
      rw [← hrun']
      exact ((hpassed k₀ hk₀).run rfl).2 e (hrun.trans he)

end

/-! ### Runs -/

/-- Processes on the heap, with what they are doing. -/
abbrev HeapThreads := Threads HeapWorld Action Fault (Option Nat) Nat

def heapThreadsMachine (P : Shm → Call → Prop) : Machine HeapThreads (Turn Action Nat) Fault :=
  heapLocking.machine (CallsOnly P)

section
variable {P : Shm → Call → Prop} {c c' : HeapThreads}

/-- **The mutex makes calls atomic**, however their statements interleave: only its owner is inside a call;
whenever it is free, atomic calls, one after the other, reach the heap; and its owner, left alone,
leaves what the atomic call leaves, or aborts where that does. -/
theorem calls_serialized (h : (heapThreadsMachine P).Reach (fun _ _ => True) c) :
    (∀ p, c.owner ≠ some p → heapLocking.ThreadOutside p (c.thread p)) ∧
    (c.owner = none → heapMachine.Reach (CallsOnly P) c.shared) ∧
    ∀ p, c.owner = some p → ∃ w₀ a, heapMachine.Reach (CallsOnly P) w₀ ∧ w₀.Legal a ∧ a.pid = p ∧
      ((∃ k, c.thread p = .running a k) ∨ ∃ e, c.thread p = .failed a e ∧ w₀.step a = .error e) ∧
      (∀ w, w₀.step a = .ok w → (heapThreadsMachine P).Leads (· = .next p) c
        ({c with shared := w, owner := none}.setThread p .idle)) ∧
      ∀ e, w₀.step a = .error e → ∃ w, (heapThreadsMachine P).Leads (· = .next p) c
        ({c with shared := w}.setThread p (.failed a e)) := by
  have hser := Locking.serial_reach (heapLocking_moves P) h
  refine ⟨hser.outside, hser.free, fun p hp => ?_⟩
  obtain ⟨w₀, a, hin⟩ := hser.held p hp
  obtain ⟨k, hmid, hrun⟩ | ⟨e, hf, he⟩ := hin.thread
  · obtain ⟨hok, herr⟩ := hmid.completes (CallsOnly P) hrun
    exact ⟨w₀, a, hin.reach, hin.legal, hin.who, .inl ⟨k, hrun⟩, hok, herr⟩
  · refine ⟨w₀, a, hin.reach, hin.legal, hin.who, .inr ⟨e, hf, he⟩, fun w hw => absurd (he.symm.trans hw) (by simp),
      fun e' he' => ?_⟩
    obtain rfl := Except.error.inj (he.symm.trans he')
    refine ⟨c.shared, ?_⟩
    rw [← hf, Threads.setThread, Function.update_eq_self]
    exact .refl

/-- What an abort under the mutex leaves: the heap, the keys of the segments and the live blocks are as they were,
the process `p` is still counted, and a process that has not exited has what it had attached. -/
structure Blocked (p : Nat) (w w' : HeapWorld) : Prop where
  heap : SameHeap w.world.shm w'.world.shm
  key : w'.world.shm.sys.key = w.world.shm.sys.key
  segment : w'.world.shm.sys.segment = w.world.shm.sys.segment
  live : w'.live = w.live
  counted : p ∈ w'.world.pids
  others : ∀ q, q ≠ p → q ∈ w'.world.pids → q ∈ w.world.pids ∧ w'.world.proc q = w.world.proc q

theorem Blocked.exit {p q : Nat} {w w' : HeapWorld} (h : Blocked p w w') (hne : p ≠ q) : Blocked p w (w'.exit q) := by
  rw [HeapWorld.exit_eq h.counted hne]
  refine ⟨h.heap, h.key, h.segment, h.live, List.mem_filter.mpr ⟨h.counted, decide_eq_true hne⟩, fun r hr hmem => ?_⟩
  obtain ⟨hmem, hrq⟩ := List.mem_filter.mp hmem
  obtain ⟨hin, hproc⟩ := h.others r hr hmem
  exact ⟨hin, (Function.update_of_ne (of_decide_eq_true hrq) ..).trans hproc⟩

theorem Blocked.abort {p : Nat} {w w' : HeapWorld} (h : Blocked p w w') : Blocked p w (w'.abort p) := by
  refine ⟨⟨h.heap.arenas, h.heap.objects.trans ?_, h.heap.data⟩, h.key, h.segment, h.live, h.counted, fun r hr hmem => ?_⟩
  · exact ⟨fun _ _ => rfl, fun _ _ => rfl, fun _ _ => rfl, fun _ _ => rfl, fun _ _ => rfl, fun _ _ => rfl,
      fun _ _ => rfl, fun _ _ _ => rfl, rfl, rfl, rfl⟩
  · obtain ⟨hin, hproc⟩ := h.others r hr hmem
    exact ⟨hin, (Function.update_of_ne hr ..).trans hproc⟩

end

/-! Process 2 frees a large block of process 1 that it has no address of. -/

def takesTest (_ : HeapWorld) : Order → Bool
  | .call _ (.malloc size) _ => decide (size ≠ 0)
  | .call _ _ _ => false
  | _ => true

theorem takesTest_takes (w : HeapWorld) (o : Order) (h : takesTest w o = true) :
    CallsOnly (fun _ _ => True) w o.action ∧ heapLocking.Takes o.action := by
  cases o with
  | init pid shmid => exact ⟨trivial, .inl rfl⟩
  | exit pid => exact ⟨trivial, .inl rfl⟩
  | call pid c os =>
    cases c with
    | malloc size => exact ⟨trivial, .inr ⟨_, congrArg some (if_neg (of_decide_eq_true h))⟩⟩
    | _ => cases h

def freeOrder : Order := .call 2 (.free (2 ^ 32)) .keyFails

theorem exists_freeing : ∃ w : HeapWorld, w.Legal freeOrder.action ∧ w.step freeOrder.action = .error .assertion ∧
    (heapThreadsMachine fun _ _ => True).Reach (fun _ _ => True)
      (Threads.setThread ⟨w, some 2, fun _ => .idle⟩ 2 (.running freeOrder.action (loadProg 2 servingShmat
        (freeArenaProg 1 0 (unlockProg 2 (.free (2 ^ 32)) 0 (some 0)))))) := by
  obtain ⟨w, hw, ht⟩ := Machine.exists_reach (M := heapOrderMachine) _ takesTest_takes
    [.init 1 10, .init 2 20, .call 1 (.malloc (2 ^ 20)) (.created 11)] HeapWorld.start_ok
    (p := fun w => decide (w.Legal freeOrder.action) && match w.step freeOrder.action with
      | .error e => decide (e = .assertion)
      | .ok _ => false) (by decide +kernel)
  obtain ⟨hlegal, hstep⟩ := Bool.and_eq_true_iff.mp ht
  have hl : w.Legal freeOrder.action := of_decide_eq_true hlegal
  refine ⟨w, hl, ?_, ?_⟩
  · split at hstep
    · next e he => rw [he, of_decide_eq_true hstep]
    · cases hstep
  · exact Locking.begins (a := freeOrder.action) (Locking.reach_of_atomic (Order.heap_reach hw)) hl trivial rfl

/-- Process 2 has the mutex, in the call that is going to abort. -/
theorem calls_serialized_test : ∃ c : HeapThreads, c.owner = some 2 ∧
    (∀ p, c.owner ≠ some p → heapLocking.ThreadOutside p (c.thread p)) ∧
    (∃ k, c.thread 2 = .running freeOrder.action k) ∧
    ∃ w₀, heapMachine.Reach (CallsOnly fun _ _ => True) w₀ ∧ w₀.Legal freeOrder.action ∧
      (∀ w, w₀.step freeOrder.action = .ok w → (heapThreadsMachine fun _ _ => True).Leads (· = .next 2) c
        ({c with shared := w, owner := none}.setThread 2 .idle)) ∧
      ∀ e, w₀.step freeOrder.action = .error e → ∃ w, (heapThreadsMachine fun _ _ => True).Leads (· = .next 2) c
        ({c with shared := w}.setThread 2 (.failed freeOrder.action e)) := by
  obtain ⟨w, -, -, h⟩ := exists_freeing
  have hself := Threads.setThread_self (⟨w, some 2, fun _ => .idle⟩ : HeapThreads) 2 (.running freeOrder.action
    (loadProg 2 servingShmat (freeArenaProg 1 0 (unlockProg 2 (.free (2 ^ 32)) 0 (some 0)))))
  obtain ⟨hout, -, hheld⟩ := calls_serialized h
  obtain ⟨w₀, a, hw₀, hl, -, ⟨k, hk⟩ | ⟨e, he, -⟩, hok, herr⟩ := hheld 2 rfl
  · obtain ⟨rfl, -⟩ := Thread.running.inj (hself.symm.trans hk)
    exact ⟨_, rfl, hout, ⟨_, hself⟩, w₀, hw₀, hl, hok, herr⟩
  · exact absurd (hself.symm.trans he) (by simp)

end ShmMalloc
