import ShmMalloc.Malloc
import ShmMalloc.Library.Machine

/-! Processes on one shared context.

Each operation is atomic under the context mutex. A process has its own table of arena
addresses and its own attaches; an operation runs on the shared state with those of its
process, and leaves new ones. The first process creates the context, and the last one
to exit removes it. -/
namespace ShmMalloc
open Library

/-- What a process has of its own. -/
structure Proc where
  arenaAddrs : Nat → ShmArenaAddr
  attached : List Attach

/-- A process that has attached nothing. -/
def Proc.none : Proc := ⟨fun _ => ⟨Option.none, 0⟩, []⟩

/-- The process part of `shm` is left from the process that ran last. -/
structure World where
  shm : Shm
  pids : List Nat
  proc : Nat → Proc

/-- The public operations. -/
inductive Call where
  | malloc (size : Nat)
  | free (pos : Nat)
  | realloc (pos size : Nat)
  | checkSize (pos : Nat)
  | getAddr (pos : Nat)
  deriving DecidableEq, Repr

/-- What an operation leaves, and what it returns (0 where that is not a position). -/
def Call.run (s : Shm) (os : Os) : Call → Exec (Shm × Nat)
  | .malloc size => shmMalloc s size os
  | .free pos => do
    let s ← shmFree s pos
    return (s, 0)
  | .realloc pos size => shmRealloc s pos size os
  | .checkSize pos => shmCheckSize s pos
  | .getAddr pos => do
    let (s, _) ← shmGetAddr s pos
    return (s, 0)

/-- The lookups that the trees of an operation make. -/
def visit : Shm → List Nat → Exec Shm
  | s, [] => .ok s
  | s, index :: visits => do
    let (s, addr) ← getOrUpdateArenaAddr s index
    if addr.isNone then throw .null
    visit s visits

/-- The shared state with the process part of a process, and the system's next answers. -/
def World.load (w : World) (p : Proc) (shmat : Nat → Nat → List Attach → Option Nat) : Shm :=
  {w.shm with
    arenaAddrs := p.arenaAddrs
    sys := {w.shm.sys with attached := p.attached, shmat := shmat, attaches := 0}}

def World.store (w : World) (pid : Nat) (s : Shm) : World :=
  ⟨s, if pid ∈ w.pids then w.pids else pid :: w.pids,
    Function.update w.proc pid ⟨s.arenaAddrs, s.sys.attached⟩⟩

inductive Action where
  /-- `shmid` is for the context segment, if it is created. -/
  | init (pid shmid : Nat) (shmat : Nat → Nat → List Attach → Option Nat)
  | exit (pid : Nat)
  | call (pid : Nat) (c : Call) (visits : List Nat) (os : Os)
    (shmat : Nat → Nat → List Attach → Option Nat)

/-- `init_shm_shared_field` in the segment that the key of the context names. -/
def freshContext (s : Shm) (shmid : Nat) : Shm :=
  let (y, shmid) := s.sys.shmget 0 shmid
  {initShm shmid with sys := y}

/-- The context that a process finds, or creates. -/
def World.context (w : World) (shmid : Nat) : Shm :=
  if w.pids = [] then freshContext w.shm shmid else w.shm

/-- The loop of `shm_init` over the arenas from `i` on. -/
def mmapArenas : Nat → Shm → Nat → Exec Shm
  | 0, s, _ => .ok s
  | n + 1, s, i => do
    if isArenaValid s i then
      let (s, addr) ← mmapArena s i
      mmapArenas n (s.setArenaAddr i ⟨addr, (s.arenas i).shmid⟩) (i + 1)
    else mmapArenas n s (i + 1)

/-- `shm_init`; a process that cannot attach the context is not in it. -/
def World.init (w : World) (pid shmid : Nat) (shmat : Nat → Nat → List Attach → Option Nat) :
    Exec World := do
  let s := {w with shm := w.context shmid}.load .none shmat
  let (y, addr) := s.sys.mmap (s.arenas 0).shmid
  match addr with
  | none => return {w with shm := {s with sys := y}}
  | some addr =>
    let s := {s with sys := y}.setArenaAddr 0 ⟨some addr, (s.arenas 0).shmid⟩
    let s ← mmapArenas 127 s 1
    return w.store pid s

/-- `exit_shared_context`, and the end of the process. -/
def World.exit (w : World) (pid : Nat) : World :=
  let pids := w.pids.filter (· ≠ pid)
  let sys := if pids = [] then w.shm.sys.remove 0 else w.shm.sys
  ⟨{w.shm with sys := sys}, pids, Function.update w.proc pid .none⟩

def Action.step (w : World) : Action → Exec World
  | .init pid shmid shmat => w.init pid shmid shmat
  | .exit pid => .ok (w.exit pid)
  | .call pid c visits os shmat => do
    let s ← visit (w.load (w.proc pid) shmat) visits
    let (s, _) ← c.run s os
    return w.store pid s

/-! ### Runs -/

/-- No segment that there is has the identifier. -/
structure NewId (w : World) (shmid : Nat) : Prop where
  pos : shmid ≠ 0
  key : ∀ i < 128, w.shm.sys.key i ≠ some shmid
  attached : ∀ pid ∈ w.pids, ∀ a ∈ (w.proc pid).attached, a.shmid ≠ shmid

/-- Every attach gets an address that is not in use. -/
def FreshAddrs (shmat : Nat → Nat → List Attach → Option Nat) : Prop :=
  ∀ m k l addr, shmat m k l = some addr → ∀ a ∈ l, a.addr ≠ addr

/-- The identifier of the segment that `new_arena` creates. -/
def Os.shmid : Os → Option Nat
  | .keyFails => none
  | .shmgetFails => none
  | .removeFails shmid => some shmid
  | .created shmid => some shmid

/-- What processes do, and what the system promises them. -/
def Action.Legal (w : World) : Action → Prop
  | .init pid shmid shmat => pid ∉ w.pids ∧ NewId w shmid ∧ FreshAddrs shmat
  | .exit pid => pid ∈ w.pids
  | .call pid _ _ os shmat =>
    pid ∈ w.pids ∧ (∀ shmid, os.shmid = some shmid → NewId w shmid) ∧ FreshAddrs shmat

/-- Nobody has used the path yet. -/
def World.Start (w : World) : Prop := w.pids = [] ∧ ∀ i, w.shm.sys.key i = none

/-- The runs of any calls. A call may free what is not live, and where such a position is in the header of a run the
source writes over its fields, which `freeRun` leaves as they are; the runs of `heapMachine` free live positions. -/
def worldMachine : Machine World Action Fault := ⟨World.Start, Action.Legal, Action.step⟩

end ShmMalloc
