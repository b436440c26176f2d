import Mathlib.Logic.Function.Basic

/-! `shm_op_wrapper.c`: System V shared memory, as the process that calls it sees it.

An identifier names a segment; once a segment is destroyed the system may give its
identifier to a new one, so segments are numbered here by their creation. The key of an
arena index names an identifier from the segment's creation to its removal. What the
system answers is given: `shmat` for the attaches, each with what the process has attached
by then, and in `Os` for the other calls. -/
namespace ShmMalloc

/-- A segment that the process has attached. -/
structure Attach where
  addr : Nat
  shmid : Nat
  segment : Nat
  deriving DecidableEq, Repr

structure Sysv where
  /-- The segment that an identifier names. -/
  segment : Nat → Nat
  created : Nat
  /-- The identifier that the key of an arena index names. -/
  key : Nat → Option Nat
  /-- What the process has attached. -/
  attached : List Attach
  /-- The address for an identifier at an attach, `none` where it fails, by the number of
  attaches before and what is attached. -/
  shmat : Nat → Nat → List Attach → Option Nat
  attaches : Nat

namespace Sysv

/-- `shmget` with the key of an index and `IPC_CREAT`; a segment that is created gets `shmid`. -/
def shmget (y : Sysv) (index shmid : Nat) : Sysv × Nat :=
  match y.key index with
  | some shmid => (y, shmid)
  | none =>
    ({y with
      segment := Function.update y.segment shmid y.created
      created := y.created + 1
      key := Function.update y.key index (some shmid)}, shmid)

/-- `shm_mmap` without a key. -/
def mmap (y : Sysv) (shmid : Nat) : Sysv × Option Nat :=
  if shmid = 0 then (y, none)
  else
    match y.shmat shmid y.attaches y.attached with
    | none => ({y with attaches := y.attaches + 1}, none)
    | some addr =>
      ({y with
        attached := ⟨addr, shmid, y.segment shmid⟩ :: y.attached
        attaches := y.attaches + 1}, some addr)

/-- `shm_munmap`. -/
def munmap (y : Sysv) (addr : Nat) : Sysv :=
  {y with attached := y.attached.filter fun a => a.addr ≠ addr}

/-- `shm_remove` of the segment that the key of an index names. -/
def remove (y : Sysv) (index : Nat) : Sysv := {y with key := Function.update y.key index none}

end Sysv

/-- What the system answers to the calls of `new_arena` other than the attach. -/
inductive Os where
  | keyFails
  | shmgetFails
  | removeFails (shmid : Nat)
  | created (shmid : Nat)
  deriving DecidableEq, Repr

end ShmMalloc
