import ShmMalloc.Chunk.Pool

/-! `chunk_small.c`: a chunk whose pages hold runs, and a run whose slots have one size.

A page is in use when its bit is set. A run keeps its free slots in a list threaded
through the slots, and is in the pool of its class while it has a free slot. -/
namespace ShmMalloc

/-- `run_config_list`: the slot sizes by class, class 0 unused. -/
def runConfigList : List Nat := [0, 8, 16, 32, 48, 64, 96, 128, 192, 256, 384, 512, 768, 1280, 1920]

def runConfig (type : Nat) : Nat := runConfigList.getD type 0

def runTable8 : List Nat := [1, 2, 3, 3, 4, 4, 5, 5, 6, 6, 6, 6]

def runTable32 : List Nat := [7, 7, 7, 7, 8, 8, 9, 9, 10, 10, 10, 10, 11, 11, 11, 11]

def runTable128 : List Nat := [12, 12, 12, 12, 12, 12, 13, 13, 13, 13, 14, 14, 14, 14, 14, 14]

def findRunConfig (size : Nat) : Exec Nat := do
  require (size > 0 && size ≤ 1920)
  if size ≤ 96 then return runTable8.getD ((size - 1) / 8) 0
  else if size ≤ 512 then return runTable32.getD ((size - 1) / 32) 0
  else return runTable128.getD ((size - 1) / 128) 0

/-- `RUN_LIST_NULL`. -/
def runListNull : Nat := 0xffffffff

def Shm.setSmall (s : Shm) (chunk : Nat) (d : ChunkSmallDetial) : Shm :=
  {s with small := fun c => if c = chunk then d else s.small c, data := s.data.wrote chunk 4096}

def Shm.setRun (s : Shm) (run : Nat) (r : RunHeader) : Shm :=
  {s with run := fun p => if p = run then r else s.run p, data := s.data.wrote run 64}

def Shm.setRunPool (s : Shm) (type : Nat) (pool : ShmPool) : Shm :=
  {s with runPool := fun k => if k = type then pool else s.runPool k, data := s.data.wroteContext}

def Shm.setRunNode (s : Shm) (h : TreeHeap) : Shm :=
  {s with runNode := h, data := s.data.wroteNodes 4096 64 fun run => h run ≠ s.runNode run}

/-- The word at an offset of a run, where it is a slot's: elsewhere in the page it would be a part
of the header or of other words, which keep their values here. -/
def Shm.setLink (s : Shm) (run offset word : Nat) : Shm :=
  {s with
    link := fun p o => if p = run ∧ o = offset then word else s.link p o
    data := s.data.wrote (run + offset) 4}

/-- The run of the page that an offset of the chunk is in. -/
def findRun (s : Shm) (chunk offset : Nat) : Exec (Option Nat) := do
  require ((s.header chunk).type = .small)
  let runidx := offset / 4096
  if runidx ≥ 256 || !bitmapGet (s.small chunk).bitmap runidx then return none
  return some (chunk + runidx * 4096)

def mallocRun (s : Shm) (run : Nat) : Exec (Shm × Nat) := do
  let r := s.run run
  let offset := r.free
  require (offset ≠ runListNull)
  require (r.used < r.total)
  return (s.setRun run {r with free := s.link run offset, used := r.used + 1}, offset)

def freeRun (s : Shm) (run offset : Nat) : Exec Shm := do
  let r := s.run run
  require (r.used > 0)
  let s := s.setLink run offset r.free
  return s.setRun run {r with free := offset, used := r.used - 1}

def runFull (s : Shm) (run : Nat) : Bool := (s.run run).used = (s.run run).total

def runEmpty (s : Shm) (run : Nat) : Bool := (s.run run).used = 0

/-- The page of the run is zeroed: every object at an offset below 4096 of it. -/
def clearPage (s : Shm) (run : Nat) : Shm :=
  {s with
    run := fun p => if p = run then zeroRun else s.run p
    runNode := fun p => if p = run then zeroTreeNode else s.runNode p
    link := fun p o => if p = run ∧ o < 4096 then 0 else s.link p o
    data := fun i o => if (i, o) ∈ bytes run 4096 then some 0 else s.data i o}

/-- The loop over the slots of a new run, from slot `i` at `block` on. -/
def initRunList (run elemsize total : Nat) : Nat → Shm → Nat → Nat → Shm
  | 0, s, _, block => s.setLink run block runListNull
  | n + 1, s, i, block =>
    initRunList run elemsize total n (s.setLink run block (i * elemsize + 64)) (i + 1)
      (block + elemsize)

def initChunkSmall (s : Shm) (chunk : Nat) : Shm :=
  s.setSmall chunk ⟨1, bitmapSet (s.small chunk).bitmap 0⟩

def newChunkRun (s : Shm) (chunk type : Nat) : Exec (Shm × Nat) := do
  let d := s.small chunk
  require ((s.header chunk).type = .small)
  require (d.used < 256)
  let (bitmap, idx) := bitmapSfu d.bitmap 256
  let s := s.setSmall chunk ⟨d.used + 1, bitmap⟩
  require (idx < 256)
  -- init chunk_run
  let elemsize := runConfig type
  let run := chunk + idx * 4096
  let s := clearPage s run
  let total := (4096 - 64) / elemsize
  let s := s.setRun run ⟨(s.header chunk).pos + idx * 4096, type, elemsize, total, 0, 64⟩
  -- init run free list
  let s := initRunList run elemsize total (total - 1) s 1 64
  -- add to run pool
  let (h, pool) ← shmTreePush s.runNode (s.runPool type) (s.run run).pos
  let s := (s.setRunPool type pool).setRunNode h
  -- adjust chunk tree
  let s ← if (s.small chunk).used = 256 then updateChunkPool s chunk 0 else pure s
  return (s, run)

def mallocChunkRun (s : Shm) (run : Nat) : Exec (Shm × Nat) := do
  let (s, offset) ← mallocRun s run
  let r := (s.run run).pos + offset
  if runFull s run then
    let type := (s.run run).confIndex
    let (h, pool) ← shmTreePop s.runNode (s.runPool type)
    return ((s.setRunPool type pool).setRunNode h, r)
  return (s, r)

def freeChunkRun (s : Shm) (chunk pos : Nat) : Exec Shm := do
  let d := s.small chunk
  let idx := (pos - (s.header chunk).pos) / 4096
  require (bitmapGet d.bitmap idx)
  return s.setSmall chunk ⟨d.used - 1, bitmapClear d.bitmap idx⟩

def freeChunkSmall (s : Shm) (chunk offset : Nat) : Exec (Shm × Bool) := do
  match ← findRun s chunk offset with
  | none => return (s, false)
  | some run =>
    let full := runFull s run
    let runOffset := ((s.header chunk).pos + offset + 2 ^ 64 - (s.run run).pos) % 2 ^ 32
    let s ← freeRun s run runOffset
    let type := (s.run run).confIndex
    let s ←
      if full then do
        let (h, pool) ← shmTreePush s.runNode (s.runPool type) (s.run run).pos
        pure ((s.setRunPool type pool).setRunNode h)
      else pure s
    if runEmpty s run && (s.runPool type).size > 1 then
      let (h, pool) ← shmTreeRemove s.runNode (s.runPool type) (s.run run).pos
      let s := (s.setRunPool type pool).setRunNode h
      let s ← if (s.small chunk).used = 256 then updateChunkPool s chunk 1 else pure s
      let s ← freeChunkRun s chunk (s.run run).pos
      return (s, (s.small chunk).used = 1)
    return (s, false)

def checkChunkSmall (s : Shm) (chunk offset : Nat) : Exec Nat := do
  match ← findRun s chunk offset with
  | none => return 0
  | some run => return (s.run run).elemsize

end ShmMalloc
