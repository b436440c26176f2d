import ShmMalloc.Chunk.Pool

/-! `chunk_medium.c`: a chunk whose pages 1 to 255 are tiled by units.

A unit starts at a page with its bit set in `bitmap_up`, and in `bitmap_down` counted
from the other end; `bitmap_type` marks the units in use, and the others are in the
free tree. Unit sizes and page numbers have 16 bits. -/
namespace ShmMalloc

/-- `medium_tree_compare`: the difference of the sizes is cut to 16 unsigned bits. -/
def mediumTreeCompare (a b : MediumTreeValue) : Int :=
  let r := ((a.size : Int) - b.size) % 2 ^ 16
  if r ≠ 0 then r else a.index - b.index

def mediumMacros : Rbtree.Macros Nat MediumTreeValue := ⟨0, mediumTreeCompare⟩

abbrev MediumNode := Rbtree.Node Nat MediumTreeValue

def setMediumUnit (d : ChunkMediumDetial) (p : Nat) : Exec ChunkMediumDetial := do
  let q := 255 - p
  require (!bitmapGet d.bitmapUp p)
  require (!bitmapGet d.bitmapDown q)
  return {d with bitmapUp := bitmapSet d.bitmapUp p, bitmapDown := bitmapSet d.bitmapDown q}

def getMediumUnit (d : ChunkMediumDetial) (p : Nat) : Exec Bool := do
  let r := bitmapGet d.bitmapUp p
  require (r == bitmapGet d.bitmapDown (255 - p))
  return r

def clearMediumUnit (d : ChunkMediumDetial) (p : Nat) : Exec ChunkMediumDetial := do
  let q := 255 - p
  require (bitmapGet d.bitmapUp p)
  require (bitmapGet d.bitmapDown q)
  return {d with bitmapUp := bitmapClear d.bitmapUp p, bitmapDown := bitmapClear d.bitmapDown q}

def findNextMediumUnit (d : ChunkMediumDetial) (p : Nat) : Exec Nat := bitmapFfsp d.bitmapUp p 256

def findPrevMediumUnit (d : ChunkMediumDetial) (p : Nat) : Exec Nat := do
  let q ← bitmapFfsp d.bitmapDown (255 - p) 256
  return if q ≠ 256 then 255 - q else 256

/-- A unit's node gets its place: `v.size`, `v.index` and `s`. -/
def setUnit (size index : Nat) (n : MediumNode) : MediumNode := {n with v := ⟨size, index⟩, s := index}

def ChunkMediumDetial.setTree (d : ChunkMediumDetial) (t : Rbtree.State Nat MediumTreeValue) :
    ChunkMediumDetial := {d with tree := t}

/-- The unit is written, put in the free tree, and its bits are set. -/
def addMediumUnit (d : ChunkMediumDetial) (size index : Nat) : Exec ChunkMediumDetial := do
  let t ← Rbtree.insert mediumMacros (d.tree.modify index (setUnit size index)) index
  setMediumUnit (d.setTree t) index

/-- `get_medium_max_size`. -/
def getMediumMaxSize (s : Shm) (chunk : Nat) : Nat := (s.medium chunk).maxSize * 4096

/-- The allocator writes the nodes of the free tree that differ from what they were, each in its page. -/
def Bytes.wroteUnits (b : Bytes) (chunk : Nat) (d d' : ChunkMediumDetial) : Bytes := fun i o =>
  if i = pos2index chunk ∧ pos2offset chunk ≤ o ∧ o < pos2offset chunk + 2 ^ 20 ∧
      d'.tree.heap ((o - pos2offset chunk) / 4096) ≠ d.tree.heap ((o - pos2offset chunk) / 4096) then none
  else b i o

def Shm.setMedium (s : Shm) (chunk : Nat) (d : ChunkMediumDetial) : Shm :=
  {s with
    medium := fun c => if c = chunk then d else s.medium c
    data := (s.data.wrote chunk 4096).wroteUnits chunk (s.medium chunk) d}

def initChunkMedium (s : Shm) (chunk : Nat) : Exec Shm := do
  let d := {s.medium chunk with maxSize := 255, freeSize := 255}
  let d := d.setTree (Rbtree.init mediumMacros d.tree.heap)
  let d ← addMediumUnit d 255 1
  return s.setMedium chunk d

def checkChunkMediumMax (s : Shm) (chunk size : Nat) : Exec Shm := do
  let size ←
    if size = 0 then do
      let n ← Rbtree.max mediumMacros (s.medium chunk).tree
      pure (n.elim 0 fun n => ((s.medium chunk).tree.heap n).v.size)
    else pure size
  if (s.medium chunk).maxSize ≠ size then
    let s ← updateChunkPool s chunk (size * 4096)
    return s.setMedium chunk {s.medium chunk with maxSize := size}
  else return s

/-- `adjust free tree`: what is left of the unit `n` after `size` pages is a new free unit. -/
def splitMediumUnit (d : ChunkMediumDetial) (n size : Nat) : Exec ChunkMediumDetial := do
  let v := (d.tree.heap n).v
  if v.size > size then do
    require (v.index + size + (v.size - size) ≤ 256)
    addMediumUnit d (v.size - size) (v.index + size)
  else return d

/-- `clear node info for safe`. -/
def clearMediumNode (d : ChunkMediumDetial) (n : Nat) : ChunkMediumDetial :=
  d.setTree (d.tree.modify n (setUnit 0 0))

def mallocChunkMedium (s : Shm) (chunk len : Nat) : Exec (Shm × Nat) := do
  require ((s.header chunk).type = .medium)
  let d := s.medium chunk
  let size := alignSize len 4096 / 4096 % 2 ^ 16
  -- find first match free node
  let n ← Rbtree.lower mediumMacros d.tree ⟨size, 0⟩
  let n ← n.elim (.error .assertion) .ok
  let node := d.tree.heap n
  require (node.v.size ≥ size && node.v.index = node.s)
  let d ← splitMediumUnit d n size
  let ret := (s.header chunk).pos + node.s * 4096
  let t ← Rbtree.delete mediumMacros d.tree n
  let d := {d.setTree t with bitmapType := bitmapSet d.bitmapType node.s}
  -- change medium chunk info
  let s := s.setMedium chunk {d with freeSize := (d.freeSize + 2 ^ 16 - size) % 2 ^ 16}
  let s ← if node.v.size ≥ (s.medium chunk).maxSize then checkChunkMediumMax s chunk 0 else pure s
  return (s.setMedium chunk (clearMediumNode (s.medium chunk) n), ret)

/-- A free neighbour of the unit that is freed is taken out; the merged unit is returned.
The start is `index` for the next unit and the neighbour's for the previous one. -/
def mergeMediumUnit (d : ChunkMediumDetial) (neighbour : Nat) (unit : MediumTreeValue) (index : Nat) :
    Exec (ChunkMediumDetial × MediumTreeValue) := do
  if neighbour ≠ 256 && !bitmapGet d.bitmapType neighbour then do
    let n := d.tree.heap neighbour
    require (n.s = neighbour && n.v.size ≠ 0)
    let t ← Rbtree.delete mediumMacros d.tree neighbour
    let d ← clearMediumUnit (d.setTree t) neighbour
    return (clearMediumNode d neighbour, ⟨(unit.size + n.v.size) % 2 ^ 16, index⟩)
  else return (d, unit)

def freeChunkMedium (s : Shm) (chunk offset : Nat) : Exec (Shm × Bool) := do
  require ((s.header chunk).type = .medium)
  let d := s.medium chunk
  let curr := offset / 4096 % 2 ^ 16
  if curr ≥ 256 || offset % 4096 ≠ 0 then return (s, false)
  if !bitmapGet d.bitmapType curr then return (s, false)
  require (← getMediumUnit d curr)
  let d ← clearMediumUnit d curr
  let d := {d with bitmapType := bitmapClear d.bitmapType curr}
  -- merge current unit and next unit
  let next ← findNextMediumUnit d curr
  let currSize := next - curr
  let (d, unit) ← mergeMediumUnit d next ⟨currSize, curr⟩ curr
  -- merge current unit and previous unit
  let prev ← findPrevMediumUnit d curr
  let (d, unit) ← mergeMediumUnit d prev unit prev
  -- add new free unit
  let d ← addMediumUnit d unit.size unit.index
  -- change medium chunk info
  let s := s.setMedium chunk {d with freeSize := (d.freeSize + currSize) % 2 ^ 16}
  let s ←
    if unit.size ≥ (s.medium chunk).maxSize then checkChunkMediumMax s chunk unit.size else pure s
  return (s, (s.medium chunk).freeSize = 255)

def checkChunkMedium (s : Shm) (chunk offset : Nat) : Exec Nat := do
  require ((s.header chunk).type = .medium)
  let d := s.medium chunk
  let curr := offset / 4096 % 2 ^ 16
  if curr ≥ 256 || offset % 4096 ≠ 0 then return 0
  if !bitmapGet d.bitmapType curr then return 0
  require (← getMediumUnit d curr)
  let next ← findNextMediumUnit d curr
  return (next - curr) * 4096

end ShmMalloc
