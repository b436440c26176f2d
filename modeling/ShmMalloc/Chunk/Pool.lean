import ShmMalloc.State

/-! The two pools of chunks of `shm_chunk.c`: red-black trees over the nodes at the
starts of the chunk headers, keyed by the room left in the chunk. -/
namespace ShmMalloc

/-- `chunk_tree_compare`: the differences are of 32-bit unsigned numbers, returned as `int`. -/
def chunkTreeCompare (a b : ChunkTreeValue) : Int :=
  if a.maxsize = b.maxsize then ((a.index : Int) - b.index).bmod (2 ^ 32)
  else ((a.maxsize : Int) - b.maxsize).bmod (2 ^ 32)

def chunkMacros : Rbtree.Macros Nat ChunkTreeValue := ⟨0, chunkTreeCompare⟩

/-- The pool for chunks of a type, as a tree. -/
def Shm.pool (s : Shm) (type : ChunkType) : Rbtree.State Nat ChunkTreeValue :=
  let tree := if type = .small then s.chunkSmallPool else s.chunkMediumPool
  ⟨s.chunkNode, tree.root, tree.size⟩

def Shm.setPool (s : Shm) (type : ChunkType) (t : Rbtree.State Nat ChunkTreeValue) : Shm :=
  let s := {s with
    chunkNode := t.heap
    data := s.data.wroteContext.wroteNodes (2 ^ 20) 4096 fun c => t.heap c ≠ s.chunkNode c}
  if type = .small then {s with chunkSmallPool := ⟨t.root, t.size⟩}
  else {s with chunkMediumPool := ⟨t.root, t.size⟩}

def setMaxsize (m : Nat) (n : Rbtree.Node Nat ChunkTreeValue) : Rbtree.Node Nat ChunkTreeValue :=
  {n with v := {n.v with maxsize := m}}

def updateChunkPool (s : Shm) (chunk newMax : Nat) : Exec Shm := do
  let type := (s.header chunk).type
  let t ← Rbtree.delete chunkMacros (s.pool type) chunk
  let t := t.modify chunk (setMaxsize newMax)
  let t ← Rbtree.insert chunkMacros t chunk
  return s.setPool type t

end ShmMalloc
