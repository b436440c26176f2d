import ShmMalloc.Heap.Overwrite
import ShmMalloc.Library.BlockStore
import ShmMalloc.Process.Survive

/-! Clients: processes that use the memory that they get.

A client gets the address of a block from `shm_get_addr` and keeps it; through it the
client reads and writes bytes of the block, without any further lookup, until some client
frees the block. An address is that of an attach, with the offset in its segment. What
clients see is their history: what they have done to blocks and to the user data, and
what each operation returned. -/
namespace ShmMalloc
open Library

/-- What `shm_get_addr` has returned to a process for a block. -/
structure Ptr where
  pid : Nat
  pos : Nat
  addr : Nat
  deriving DecidableEq, Repr

/-- The address of the attach. -/
def Ptr.base (p : Ptr) : Nat := p.addr - pos2offset p.pos

/-- The arena whose segment a process has attached at an address. -/
def World.mapped (w : World) (pid addr : Nat) : Option Nat :=
  ((w.proc pid).attached.find? fun a => a.addr = addr).bind fun a =>
    (List.range 128).find? fun i =>
      a.shmid ≠ 0 ∧ (w.shm.arenas i).shmid = a.shmid ∧ w.shm.sys.segment a.shmid = a.segment

/-- Operations on blocks by their positions, and on the user data. A byte that is read is not known,
and `none`, where the allocator wrote last. -/
abbrev ClientOp := BlockOp Nat (Option UInt8) Nat

structure ClientWorld where
  heap : HeapWorld
  userData : Nat
  ptrs : List Ptr
  /-- The last operation comes first. -/
  history : List ClientOp

namespace ClientWorld

abbrev world (w : ClientWorld) : World := w.heap.world

abbrev live (w : ClientWorld) : List (Nat × Nat) := w.heap.live

/-- The heap has changed. Addresses of blocks that are gone are not used any more, nor are those
of processes that are. -/
def after (w : ClientWorld) (heap : HeapWorld) (ops : List ClientOp) : ClientWorld :=
  {w with
    heap := heap
    ptrs := w.ptrs.filter fun p => p.pid ∈ heap.world.pids ∧ IsLive heap.live p.pos
    history := ops ++ w.history}

def setShm (w : ClientWorld) (s : Shm) : ClientWorld := {w with heap.world.shm := s}

def record (w : ClientWorld) (o : ClientOp) : ClientWorld := {w with history := o :: w.history}

def shmSetUserdata (w : ClientWorld) (data : Nat) : ClientWorld := {w with userData := data}

def shmGetUserdata (w : ClientWorld) : Nat := w.userData

end ClientWorld

/-- What a call that returns `ret` has done to the blocks. -/
def Call.ops (ret : Nat) : Call → List ClientOp
  | .malloc size => if ret = 0 then [] else [.alloc ret size]
  | .free pos => if pos = 0 then [] else [.free pos]
  | .realloc pos size =>
    if ret = 0 ∨ ret = pos then [] else if pos = 0 then [.alloc ret size] else [.move pos ret size]
  | .checkSize _ => []
  | .getAddr _ => []

/-- What clients do. A write leaves the memory `s`. -/
inductive Access where
  | act (a : Action)
  | getAddr (pid pos : Nat) (shmat : Nat → Nat → List Attach → Option Nat)
  | write (p : Ptr) (j : Nat) (v : UInt8) (s : Shm)
  | read (p : Ptr) (j : Nat)
  | setUserdata (pid data : Nat)
  | getUserdata (pid : Nat)

namespace Access

/-- `shm_get_addr`, for all that it does to the shared memory and to the process. -/
abbrev lookup (pid pos : Nat) (shmat : Nat → Nat → List Attach → Option Nat) : Action :=
  .call pid (.getAddr pos) [] .keyFails shmat

/-- The byte `j` of a block, through an address of the block. -/
structure Owns (w : ClientWorld) (p : Ptr) (j : Nat) : Prop where
  ptr : p ∈ w.ptrs
  inside : ∃ size, (p.pos, size) ∈ w.live ∧ j < size

def Legal (w : ClientWorld) : Access → Prop
  | act a => w.heap.Legal a
  | getAddr pid pos shmat => (lookup pid pos shmat).Legal w.world ∧ IsLive w.live pos
  | write p j v s => Owns w p j ∧ ∀ i ∈ w.world.mapped p.pid p.base,
      Overwrites w.world.shm s (i, pos2offset p.pos + j) ∧ s.data i (pos2offset p.pos + j) = some v
  | read p j => Owns w p j
  | setUserdata pid _ => pid ∈ w.world.pids
  | getUserdata pid => pid ∈ w.world.pids

def step (w : ClientWorld) : Access → Exec ClientWorld
  | act (.init pid shmid shmat) => do
    let heap ← w.heap.step (.init pid shmid shmat)
    if w.world.pids = [] then return {w.after heap [.clear 0] with userData := 0}
    else return w.after heap []
  | act (.exit pid) => do
    let heap ← w.heap.step (.exit pid)
    return w.after heap []
  | act (.call pid c visits os shmat) => do
    let s ← visit (w.world.load (w.world.proc pid) shmat) visits
    let (s, ret) ← c.run s os
    return w.after ⟨w.world.store pid s, c.liveAfter w.live ret⟩ (c.ops ret)
  | getAddr pid pos shmat => do
    let (s, addr) ← shmGetAddr (w.world.load (w.world.proc pid) shmat) pos
    let w := w.after ⟨w.world.store pid s, w.live⟩ []
    match addr with
    | none => return w
    | some addr => return {w with ptrs := ⟨pid, pos, addr⟩ :: w.ptrs}
  | write p j v s =>
    match w.world.mapped p.pid p.base with
    | none => .error .null
    | some _ => .ok ((w.setShm s).record (.write p.pos j (some v)))
  | read p j =>
    match w.world.mapped p.pid p.base with
    | none => .error .null
    | some i => .ok (w.record (.read p.pos j (w.world.shm.data i (pos2offset p.pos + j))))
  | setUserdata _ data => .ok ((w.shmSetUserdata data).record (.setRoot data))
  | getUserdata _ => .ok (w.record (.getRoot w.shmGetUserdata))

end Access

/-- A request whose size can be rounded up in 64 bits. -/
def Call.Fits : Call → Prop
  | .malloc size => size ≤ 2 ^ 64 - 2 ^ 20
  | .free _ => True
  | .realloc _ size => size ≤ 2 ^ 64 - 2 ^ 20
  | .checkSize _ => True
  | .getAddr _ => True

/-- The runs in which the segments of the arenas survive, runs leave their pools without
links, and sizes can be rounded up. -/
def Careful (w : ClientWorld) : Access → Prop
  | .act a => a.Granted w.world ∧ a.Keeping w.world ∧ Unlinks w.heap a ∧
      ∀ pid c visits os shmat, a = .call pid c visits os shmat → c.Fits
  | .getAddr pid pos shmat => (Access.lookup pid pos shmat).Granted w.world
  | _ => True

def clientMachine : Machine ClientWorld Access Fault where
  start w := w.world.Start ∧ w.live = [] ∧ w.userData = 0 ∧ w.ptrs = [] ∧ w.history = []
  legal := Access.Legal
  step := Access.step

end ShmMalloc
