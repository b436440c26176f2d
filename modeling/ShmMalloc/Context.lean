import ShmMalloc.Chunk.Model

/-! `shm_context.c`: arenas, the chunks in them, and the three sizes of request.

The chunk and run trees look up the nodes that they pass, and so may attach arenas. A
lookup changes the table entry of its own arena only, and no operation deletes an arena
before it has passed its trees; so these lookups are not part of the functions here,
but come before an operation as a whole. -/
namespace ShmMalloc

def Shm.setArena (s : Shm) (index : Nat) (a : ShmArena) : Shm :=
  {s with arenas := fun i => if i = index then a else s.arenas i, data := s.data.wroteContext}

/-- `set_arena_addr` and `clear_arena_addr`. -/
def Shm.setArenaAddr (s : Shm) (index : Nat) (a : ShmArenaAddr) : Shm :=
  {s with arenaAddrs := fun i => if i = index then a else s.arenaAddrs i}

def isArenaValid (s : Shm) (index : Nat) : Bool := index < 128 && (s.arenas index).type ≠ .empty

def mmapArena (s : Shm) (index : Nat) : Exec (Shm × Option Nat) := do
  let arena := s.arenas index
  require (arena.type ≠ .empty && arena.type ≠ .context)
  let (y, addr) := s.sys.mmap arena.shmid
  return ({s with sys := y}, addr)

/-- The part of `get_or_update_arena_addr` for an entry that has gone out of date. -/
def dropArenaAddr (s : Shm) (index : Nat) : Exec Shm :=
  if (s.arenaAddrs index).shmid ≠ 0 then
    match (s.arenaAddrs index).addr with
    | none => .error .assertion
    | some addr => .ok ({s with sys := s.sys.munmap addr}.setArenaAddr index ⟨none, 0⟩)
  else .ok s

/-- `get_or_update_arena_addr`: the table follows the shared arena entry. -/
def getOrUpdateArenaAddr (s : Shm) (index : Nat) : Exec (Shm × Option Nat) := do
  if (s.arenaAddrs index).shmid ≠ (s.arenas index).shmid then
    let s ← dropArenaAddr s index
    if isArenaValid s index then
      let (s, addr) ← mmapArena s index
      return (s.setArenaAddr index ⟨addr, (s.arenas index).shmid⟩, addr)
    else return (s, (s.arenaAddrs index).addr)
  else return (s, (s.arenaAddrs index).addr)

/-- `get_or_update_addr`, for a position that is read or written next. -/
def getOrUpdateAddr (s : Shm) (pos : Nat) : Exec Shm := do
  if pos = 0 then throw .null
  let (s, addr) ← getOrUpdateArenaAddr s (pos2index pos)
  if addr.isNone then throw .null
  return s

/-- `memset` of a new arena: every object in its segment is zeroed. -/
def clearArena (s : Shm) (index : Nat) : Shm :=
  {s with
    header := fun p => if pos2index p = index then ⟨.empty, 0⟩ else s.header p
    chunkNode := fun p => if pos2index p = index then zeroNode ⟨0, 0⟩ else s.chunkNode p
    small := fun p => if pos2index p = index then zeroSmall else s.small p
    medium := fun p => if pos2index p = index then zeroMedium else s.medium p
    run := fun p => if pos2index p = index then zeroRun else s.run p
    runNode := fun p => if pos2index p = index then zeroTreeNode else s.runNode p
    link := fun p o => if pos2index p = index then 0 else s.link p o
    data := fun i o => if i = index then some 0 else s.data i o}

/-- The first empty arena entry from `index` on. -/
def findEmptyArena (s : Shm) : Nat → Nat → Option Nat
  | 0, _ => none
  | n + 1, index =>
    if (s.arenas index).type = .empty then some index else findEmptyArena s n (index + 1)

/-- `shm_mmap` with the key of an arena index. -/
def mmapNewArena (s : Shm) (index shmid : Nat) : Shm × Nat × Option Nat :=
  let (y, shmid) := s.sys.shmget index shmid
  let (y, addr) := y.mmap shmid
  ({s with sys := y}, shmid, addr)

/-- What is left of `new_arena` once the segment is attached and marked for removal. -/
def enterArena (s : Shm) (type : ArenaType) (size index shmid addr : Nat) : Shm :=
  let s := {s with sys := s.sys.remove index}
  let s := clearArena s index
  let s := s.setArena index ⟨type, shmid, index, size, 0, fun _ => 0⟩
  s.setArenaAddr index ⟨some addr, shmid⟩

def newArena (s : Shm) (type : ArenaType) (size : Nat) (os : Os) : Exec (Shm × Option Nat) := do
  require (size % 2 ^ 20 = 0)
  match findEmptyArena s 127 1 with
  | none => return (s, none)
  | some index =>
    match os with
    | .keyFails => return (s, none)
    | .shmgetFails => return (s, none)
    | .removeFails shmid => return ((mmapNewArena s index shmid).1, none)
    | .created shmid =>
      match mmapNewArena s index shmid with
      | (s, _, none) => return (s, none)
      | (s, shmid, some addr) => return (enterArena s type size index shmid addr, some index)

/-- `memset` of an arena entry. What clients have kept in the segment is lost to them. -/
def Shm.zeroArena (s : Shm) (index : Nat) : Shm :=
  {s.setArena index .zero with
    data := fun i o => if i = index then none else (s.setArena index .zero).data i o}

def deleteArena (s : Shm) (index : Nat) : Exec Shm :=
  match (s.arenaAddrs index).addr with
  | none => .error .assertion
  | some addr =>
    .ok {(s.zeroArena index).setArenaAddr index ⟨none, 0⟩ with sys := s.sys.munmap addr}

def ShmArena.setChunk (a : ShmArena) (idx pos : Nat) : ShmArena :=
  {a with chunks := fun k => if k = idx then pos else a.chunks k}

/-- The loop of `new_arena_chunk`: the first empty slot from `idx` on. -/
def findEmptySlot (a : ShmArena) : Nat → Nat → Option Nat
  | 0, _ => none
  | n + 1, idx => if a.chunks idx = 0 then some idx else findEmptySlot a n (idx + 1)

def newArenaChunk (s : Shm) (index : Nat) : Shm × Nat :=
  let arena := s.arenas index
  let idx := if arena.type = .context then 1 else 0
  match findEmptySlot arena (8 - idx) idx with
  | none => (s, 0)
  | some idx =>
    let ret := index2pos arena.index (idx * 2 ^ 20)
    (s.setArena index {arena.setChunk idx ret with used := arena.used + 1}, ret)

def deleteArenaChunk (s : Shm) (index pos : Nat) : Exec Shm := do
  let arena := s.arenas index
  let idx := pos2offset pos / 2 ^ 20
  require (arena.chunks idx ≠ 0)
  return s.setArena index {arena.setChunk idx 0 with used := arena.used - 1}

/-- The loop of `new_chunk` over the arenas from `i` on: the place of a new chunk, or 0,
and the last empty entry passed. -/
def findArenaChunk (s : Shm) : Nat → Nat → Nat → Shm × Nat × Nat
  | 0, _, emptyIndex => (s, 0, emptyIndex)
  | n + 1, i, emptyIndex =>
    if (s.arenas i).type = .context ∨ (s.arenas i).type = .context then
      let (s, pos) := newArenaChunk s i
      if pos ≠ 0 then (s, pos, emptyIndex) else findArenaChunk s n (i + 1) emptyIndex
    else if (s.arenas i).type = .empty then findArenaChunk s n (i + 1) i
    else findArenaChunk s n (i + 1) emptyIndex

def newChunk (s : Shm) (type : ChunkType) (os : Os) : Exec (Shm × Option Nat) := do
  -- find arena can alloc chunk
  let (s, pos, emptyIndex) := findArenaChunk s 128 0 0
  -- alloc new arena
  let (s, pos) ←
    if pos = 0 ∧ emptyIndex ≠ 0 then do
      let (s, arena) ← newArena s .chunk (2 ^ 23) os
      match arena with
      | none => pure (s, pos)
      | some index => do
        let (s, pos) := newArenaChunk s index
        require (pos ≠ 0)
        pure (s, pos)
    else pure (s, pos)
  if pos ≠ 0 then
    let s ← getOrUpdateAddr s pos
    let s ← initChunk s pos pos type
    return (s, some pos)
  return (s, none)

def getOrNewChunk (s : Shm) (type : ChunkType) (size : Nat) (os : Os) : Exec (Shm × Option Nat) := do
  match ← getAvaliableChunk s type size with
  | some chunk => return (s, some chunk)
  | none => newChunk s type os

def checkDeleteChunk (s : Shm) (index pos : Nat) : Exec Shm := do
  let s ← deleteArenaChunk s index pos
  if (s.arenas index).used = 0 && (s.arenas index).type ≠ .context then
    deleteArena s (s.arenas index).index
  else return s

def tryRunPool (s : Shm) (runidx : Nat) : Exec (Shm × Option Nat) := do
  let runPos := (s.runPool runidx).root
  if runPos = 0 then return (s, none)
  let (s, addr) ← getOrUpdateArenaAddr s (pos2index runPos)
  require addr.isSome
  return (s, some runPos)

def mallocArena (s : Shm) (size : Nat) (os : Os) : Exec (Shm × Nat) := do
  if size ≤ 1920 then
    let runidx ← findRunConfig size
    let (s, run) ← tryRunPool s runidx
    match run with
    | some run => mallocChunkRun s run
    | none =>
      match ← getOrNewChunk s .small size os with
      | (s, none) => return (s, 0)
      | (s, some chunk) =>
        let (s, run) ← newChunkRun s chunk runidx
        mallocChunkRun s run
  else if size ≤ 2 ^ 20 - 4096 then
    match ← getOrNewChunk s .medium size os with
    | (s, none) => return (s, 0)
    | (s, some chunk) => mallocChunkMedium s chunk size
  else
    match ← newArena s .large (alignSize size (2 ^ 20)) os with
    | (s, none) => return (s, 0)
    | (s, some index) => return (s, index2pos (s.arenas index).index 0)

/-- `get_arena_chunk`. -/
def getArenaChunk (arena : ShmArena) (offset : Nat) : Nat :=
  if offset ≥ arena.size then 0 else arena.chunks (offset / 2 ^ 20)

def freeArena (s : Shm) (index offset : Nat) : Exec Shm := do
  if !isArenaValid s index then return s
  let arena := s.arenas index
  match arena.type with
  | .context | .chunk =>
    let chunkPos := getArenaChunk arena offset
    if chunkPos = 0 then return s
    let s ← getOrUpdateAddr s chunkPos
    let chunkOffset := (offset + 2 ^ 32 - pos2offset chunkPos) % 2 ^ 32
    require (chunkOffset < 2 ^ 20)
    let (s, check) ← freeChunk s chunkPos chunkOffset
    if check then checkDeleteChunk s index chunkPos else return s
  | .large => deleteArena s index
  | .empty => throw .assertion

def checkArena (s : Shm) (index offset : Nat) : Exec (Shm × Nat) := do
  if !isArenaValid s index then return (s, 0)
  let arena := s.arenas index
  match arena.type with
  | .context | .chunk =>
    let chunkPos := getArenaChunk arena offset
    if chunkPos = 0 then return (s, 0)
    let s ← getOrUpdateAddr s chunkPos
    let chunkOffset := (offset + 2 ^ 32 - pos2offset chunkPos) % 2 ^ 32
    require (chunkOffset < 2 ^ 20)
    let ret ← checkChunk s chunkPos offset
    return (s, ret)
  | .large => return (s, arena.size)
  | .empty => throw .assertion

end ShmMalloc
