import Mathlib.Data.Set.Defs
import ShmMalloc.OpWrapper
import ShmMalloc.Rbtree.Model
import ShmMalloc.Tree.Model
import ShmMalloc.Util.Bitmap

/-! `shm_type.h`: what is in shared memory, and one process's table of attached arenas.

Shared memory is split by what is stored in it: a field of `Shm` for each kind of
object, read at the position of the object (a page of a medium chunk and a slot of a
run by their chunk and run as well). A write to an object is seen through its own
field only, so the proofs owe that no two objects in use overlap. What clients keep in
their blocks is `data`, by arena index and offset: a byte is lost to them, and `none`,
once the allocator writes an object there or the segment is gone. A page has 4096
bytes, a chunk 2^20, an arena of chunks 2^23.

The table of attached arenas is that of the process that runs, and so is what it has
attached; an address is a number, `none` for `NULL`. -/
namespace ShmMalloc

def index2pos (index offset : Nat) : Nat := index <<< 32 ||| offset

def pos2index (pos : Nat) : Nat := pos >>> 32

def pos2offset (pos : Nat) : Nat := pos % 2 ^ 32

inductive ChunkType where
  | empty
  | small
  | medium
  deriving DecidableEq, Repr

structure ChunkHeader where
  type : ChunkType
  pos : Nat
  deriving DecidableEq, Repr

/-- `chunk_tree_value`. -/
structure ChunkTreeValue where
  index : Nat
  maxsize : Nat
  deriving DecidableEq, Repr

/-- `medium_tree_value`. -/
structure MediumTreeValue where
  size : Nat
  index : Nat
  deriving DecidableEq, Repr

/-- `chunk_medium_detial`, with the nodes of its free tree, which are at the starts of the
pages of the chunk. -/
structure ChunkMediumDetial where
  maxSize : Nat
  freeSize : Nat
  tree : Rbtree.State Nat MediumTreeValue
  bitmapType : Bitmap
  bitmapUp : Bitmap
  bitmapDown : Bitmap

/-- `chunk_small_detial`. -/
structure ChunkSmallDetial where
  used : Nat
  bitmap : Bitmap

/-- `run_header`, without the tree node at its start. -/
structure RunHeader where
  pos : Nat
  confIndex : Nat
  elemsize : Nat
  total : Nat
  used : Nat
  free : Nat
  deriving DecidableEq, Repr

inductive ArenaType where
  | empty
  | context
  | chunk
  | large
  deriving DecidableEq, Repr

structure ShmArena where
  type : ArenaType
  shmid : Nat
  index : Nat
  size : Nat
  used : Nat
  chunks : Nat → Nat

/-- The arena entry that `memset` leaves. -/
def ShmArena.zero : ShmArena := ⟨.empty, 0, 0, 0, 0, fun _ => 0⟩

/-- `shm_arena_addr`. -/
structure ShmArenaAddr where
  addr : Option Nat
  shmid : Nat
  deriving DecidableEq, Repr

/-- The root and the size of a chunk tree. -/
structure ChunkTree where
  root : Nat
  size : Nat
  deriving DecidableEq, Repr

/-- What is in memory for clients, by arena and offset. -/
abbrev Bytes := Nat → Nat → Option UInt8

structure Shm where
  arenas : Nat → ShmArena
  runPool : Nat → ShmPool
  chunkSmallPool : ChunkTree
  chunkMediumPool : ChunkTree
  header : Nat → ChunkHeader
  chunkNode : Nat → Rbtree.Node Nat ChunkTreeValue
  small : Nat → ChunkSmallDetial
  medium : Nat → ChunkMediumDetial
  run : Nat → RunHeader
  runNode : TreeHeap
  /-- The word at an offset of a run, which links the free slots. -/
  link : Nat → Nat → Nat
  data : Bytes
  arenaAddrs : Nat → ShmArenaAddr
  sys : Sysv

/-! ### Positions -/

theorem index2pos_eq {index offset : Nat} (h : offset < 2 ^ 32) :
    index2pos index offset = index * 2 ^ 32 + offset := by
  rw [index2pos, ← Nat.shiftLeft_add_eq_or_of_lt h, Nat.shiftLeft_eq]

theorem pos2index_eq (pos : Nat) : pos2index pos = pos / 2 ^ 32 := Nat.shiftRight_eq_div_pow pos 32

/-! ### Bytes -/

/-- `n` bytes from a position on, by arena and offset. -/
def bytes (pos n : Nat) : Set (Nat × Nat) :=
  {x | x.1 = pos2index pos ∧ pos2offset pos ≤ x.2 ∧ x.2 < pos2offset pos + n}

instance (pos n : Nat) (x : Nat × Nat) : Decidable (x ∈ bytes pos n) :=
  inferInstanceAs (Decidable (_ ∧ _ ∧ _))

/-- An object in a page. -/
theorem bytes_page {r o n : Nat} (hr : r % 4096 = 0) (hn : o + n ≤ 4096) : ∀ y ∈ bytes (r + o) n, y ∈ bytes r 4096 := by
  rintro y ⟨h₁, h₂, h₃⟩
  rw [pos2index_eq] at h₁
  rw [pos2offset] at h₂ h₃
  refine ⟨?_, ?_, ?_⟩
  · rw [h₁, pos2index_eq]
    omega
  · rw [pos2offset]
    omega
  · rw [pos2offset]
    omega

theorem bytes_le {pos n m : Nat} (h : n ≤ m) : ∀ y ∈ bytes pos n, y ∈ bytes pos m :=
  fun _ hy => ⟨hy.1, hy.2.1, by have := hy.2.2; omega⟩

namespace Bytes

/-- The allocator writes `n` bytes. -/
def wrote (d : Bytes) (pos n : Nat) : Bytes := fun i o => if (i, o) ∈ bytes pos n then none else d i o

/-- It writes the context, which is the first unit of arena 0. -/
def wroteContext (d : Bytes) : Bytes := d.wrote 0 (2 ^ 20)

/-- It writes nodes, of `n` bytes each at the starts of units of memory: those that differ from
what they were. -/
def wroteNodes (d : Bytes) (unit n : Nat) (differs : Nat → Bool) : Bytes := fun i o =>
  if o < 2 ^ 32 ∧ o % unit < n ∧ differs (index2pos i (o / unit * unit)) then none else d i o

end Bytes

/-- The bytes outside `W` are the same. -/
def SameData (W : Set (Nat × Nat)) (d d' : Bytes) : Prop := ∀ y ∉ W, d' y.1 y.2 = d y.1 y.2

namespace SameData
variable {W W' : Set (Nat × Nat)} {d d' d'' : Bytes}

theorem refl (W : Set (Nat × Nat)) (d : Bytes) : SameData W d d := fun _ _ => rfl

theorem trans (h : SameData W d d') (h' : SameData W d' d'') : SameData W d d'' :=
  fun y hy => (h' y hy).trans (h y hy)

theorem mono (h : SameData W d d') (hle : ∀ y ∈ W, y ∈ W') : SameData W' d d' :=
  fun y hy => h y fun hW => hy (hle y hW)

theorem wrote {pos n : Nat} (h : ∀ y ∈ bytes pos n, y ∈ W) : SameData W d (d.wrote pos n) :=
  fun y hy => if_neg fun hb => hy (h y hb)

theorem wroteContext (h : ∀ y ∈ bytes 0 (2 ^ 20), y ∈ W) : SameData W d d.wroteContext := wrote h

theorem wroteNodes {unit n : Nat} {differs : Nat → Bool}
    (h : ∀ q, differs q = true → ∀ y ∈ bytes q n, y ∈ W) : SameData W d (d.wroteNodes unit n differs) := by
  intro y hy
  refine if_neg fun hc => hy (h _ hc.2.2 y ?_)
  have hdiv := Nat.div_add_mod' y.2 unit
  have hlt : y.2 / unit * unit < 2 ^ 32 := by omega
  have hpos : index2pos y.1 (y.2 / unit * unit) = y.1 * 2 ^ 32 + y.2 / unit * unit := index2pos_eq hlt
  refine ⟨?_, ?_, ?_⟩
  · rw [pos2index_eq, hpos]
    omega
  · rw [pos2offset, hpos]
    omega
  · rw [pos2offset, hpos]
    omega

end SameData

/-! ### Zeroed objects -/

def zeroNode {K : Type} (v : K) : Rbtree.Node Nat K := ⟨0, 0, 0, 0, v, .red⟩

def zeroMedium : ChunkMediumDetial :=
  ⟨0, 0, ⟨fun _ => zeroNode ⟨0, 0⟩, 0, 0⟩, fun _ => 0, fun _ => 0, fun _ => 0⟩

def zeroSmall : ChunkSmallDetial := ⟨0, fun _ => 0⟩

def zeroRun : RunHeader := ⟨0, 0, 0, 0, 0, 0⟩

def zeroTreeNode : ShmTreeNode := ⟨0, 0, 0, 0⟩

end ShmMalloc
