import ShmMalloc.Chunk.MediumModel
import ShmMalloc.Chunk.SmallModel

/-! `shm_chunk.c`: what the two kinds of chunk have in common. -/
namespace ShmMalloc

/-- `memset` of a chunk header. The page nodes of the tree are not in it. -/
def clearHeader (s : Shm) (chunk : Nat) : Shm :=
  {s with
    header := fun c => if c = chunk then ⟨.empty, 0⟩ else s.header c
    chunkNode := fun c => if c = chunk then zeroNode ⟨0, 0⟩ else s.chunkNode c
    small := fun c => if c = chunk then zeroSmall else s.small c
    medium := fun c => if c = chunk then
      {zeroMedium with tree := {(s.medium c).tree with root := 0, size := 0}} else s.medium c
    data := s.data.wrote chunk 4096}

def Shm.setHeader (s : Shm) (chunk : Nat) (h : ChunkHeader) : Shm :=
  {s with header := fun c => if c = chunk then h else s.header c, data := s.data.wrote chunk 4096}

/-- The chunk's node is put in the pool of its type. -/
def insertChunk (s : Shm) (chunk : Nat) (type : ChunkType) (maxsize : Nat) : Exec Shm := do
  let t ← Rbtree.insert chunkMacros ((s.pool type).modify chunk (setMaxsize maxsize)) chunk
  return s.setPool type t

def initChunk (s : Shm) (chunk pos : Nat) (type : ChunkType) : Exec Shm := do
  let s := clearHeader s chunk
  let s := s.setHeader chunk ⟨type, pos⟩
  let s := {s with
    chunkNode := fun c =>
      if c = chunk then {s.chunkNode c with s := pos, v := ⟨pos2index pos, 0⟩} else s.chunkNode c
    data := s.data.wrote chunk 4096}
  if type = .small then insertChunk (initChunkSmall s chunk) chunk type 1
  else do
    let s ← initChunkMedium s chunk
    insertChunk s chunk type (getMediumMaxSize s chunk)

def getAvaliableChunk (s : Shm) (type : ChunkType) (size : Nat) : Exec (Option Nat) :=
  Rbtree.lower chunkMacros (s.pool type) ⟨0, if type = .small then 1 else size % 2 ^ 32⟩

def deleteChunk (s : Shm) (chunk : Nat) : Exec Shm := do
  let type := (s.header chunk).type
  let t ← Rbtree.delete chunkMacros (s.pool type) chunk
  return (s.setPool type t).setHeader chunk {s.header chunk with type := .empty}

def freeChunk (s : Shm) (chunk offset : Nat) : Exec (Shm × Bool) := do
  let (s, check) ←
    match (s.header chunk).type with
    | .small => freeChunkSmall s chunk offset
    | .medium => freeChunkMedium s chunk offset
    | .empty => pure (s, false)
  if check then
    let s ← deleteChunk s chunk
    return (s, true)
  return (s, false)

def checkChunk (s : Shm) (chunk offset : Nat) : Exec Nat :=
  match (s.header chunk).type with
  | .small => checkChunkSmall s chunk offset
  | .medium => checkChunkMedium s chunk offset
  | .empty => .ok 0

end ShmMalloc
