import Mathlib.Algebra.Group.Nat.Defs
import ShmMalloc.Exec
import ShmMalloc.Library.Script

/-! `shm_op_wrapper.c`, `shm_lock.c`, and the start and the end of a process, system call by system call.

A function asks the system and goes by what it answers; what it leaves of the result of a
call in `errno` it reads in a request of its own. A read of the shared segment is a
request as well, since other processes write to it. Logging is left out. -/
namespace ShmMalloc.System
open Library

def EPERM : Nat := 1
def ENOENT : Nat := 2
def EINTR : Nat := 4
def EIO : Nat := 5
def ENOMEM : Nat := 12
def EACCES : Nat := 13
def EFAULT : Nat := 14

/-- `SHM_INIT_FLAG`. -/
def shmInitFlag : Int := 0x1020304a

inductive Request where
  /-- The value of `errno`. -/
  | errno
  | access (filename : String)
  /-- `open` with `O_WRONLY | O_CREAT | O_TRUNC`. -/
  | create (filename : String)
  /-- `open` with `O_WRONLY`, between two calls of `umask`. -/
  | openFile (filename : String)
  | write (fd : Int) (buff : String) (size : Nat)
  | fsync (fd : Int)
  | close (fd : Int)
  | chmod (filename : String)
  | ftok (filename : String) (projId : Nat)
  | setlkw (fd : Int)
  /-- `shmget`, with `IPC_CREAT` or without. -/
  | shmget (key : Int) (size : Nat) (create : Bool)
  | shmat (shmid : Int)
  /-- `shmctl` with `IPC_RMID`. -/
  | rmid (shmid : Int)
  | mutexattrInit
  | mutexattrSetpshared
  | mutexattrSettype
  | mutexInit
  | mutexattrDestroy
  | mutexLock
  | mutexUnlock
  /-- `malloc` in `copystr`. -/
  | alloc (size : Nat)
  | atexit
  /-- The fields of the context segment. -/
  | initFlag
  | contextKey
  /-- The identifier in a valid arena entry, or 0. -/
  | arena (index : Nat)
  | setFields (key : Int)
  | setArena (shmid : Int)
  | addCount
  | subCount
  | contextShmid
  deriving DecidableEq, Repr

/-- What a call returns, and `errno` after it. -/
structure Answer where
  value : Int
  errno : Nat
  deriving DecidableEq, Repr

abbrev Sys := Script Request Answer Fault

def call (c : Request) : Sys Answer := .ask c .ret

/-- `errno != 0 ? errno : other`. -/
def errnoOr (other : Nat) : Sys Nat := do
  let r ← call .errno
  return if r.errno ≠ 0 then r.errno else other

def assert (b : Bool) : Sys Unit := if b then .ret () else .fail .assertion

/-! ### `shm_op_wrapper.c` -/

/-- The address, and what is left in `*id` and `*err_no`. -/
def shmMmap (key : Int) (size : Nat) (createSegment : Bool) (id : Int) : Sys (Option Int × Int × Nat) := do
  let shmid ←
    if key > 0 then do
      let r ← call (if createSegment then .shmget key size true else .shmget key 0 false)
      pure r.value
    else pure id
  if shmid ≤ 0 then
    let errNo ← errnoOr EPERM
    return (none, id, errNo)
  else
    let addr ← call (.shmat shmid)
    if addr.value = 0 ∨ addr.value = -1 then
      let errNo ← errnoOr EPERM
      return (none, id, errNo)
    else return (some addr.value, shmid, 0)

def writeFile (filename buff : String) (fileSize : Nat) : Sys Nat := do
  let fd ← call (.create filename)
  if fd.value < 0 then errnoOr EIO
  else
    let n ← call (.write fd.value buff fileSize)
    if n.value ≠ fileSize then
      let result ← errnoOr EIO
      let _ ← call (.close fd.value)
      return result
    else
      let r ← call (.fsync fd.value)
      if r.value ≠ 0 then
        let result ← errnoOr EIO
        let _ ← call (.close fd.value)
        return result
      else
        let _ ← call (.close fd.value)
        return 0

/-- The part of `shm_get_key` that creates a file that is missing. -/
def createKeyFile (filename : String) : Sys Nat := do
  let r ← call (.access filename)
  if r.value ≠ 0 then
    let result ← errnoOr ENOENT
    if result ≠ ENOENT then return result
    else
      let result ← writeFile filename "FOR LOCK" 8
      if result ≠ 0 then return result
      else
        let r ← call (.chmod filename)
        if r.value ≠ 0 then errnoOr EFAULT else return 0
  else return 0

/-- The result and `*key`. -/
def shmGetKey (filename : String) (projId : Nat) : Sys (Nat × Int) := do
  let result ← createKeyFile filename
  if result ≠ 0 then return (result, 0)
  else
    let key ← call (.ftok filename projId)
    if key.value = -1 then
      let result ← errnoOr EFAULT
      return (result, key.value)
    else return (0, key.value)

def shmRemove (shmid : Int) : Sys Nat := do
  let r ← call (.rmid shmid)
  if r.value ≠ 0 then errnoOr EACCES else return 0

/-! ### `shm_lock.c` -/

/-- A `pthread` function returns its error. -/
def shmLockInit : Sys Int := do
  let r ← call .mutexattrInit
  if r.value ≠ 0 then return r.value
  else
    let r ← call .mutexattrSetpshared
    if r.value ≠ 0 then return r.value
    else
      let r ← call .mutexattrSettype
      if r.value ≠ 0 then return r.value
      else
        let r ← call .mutexInit
        if r.value ≠ 0 then return r.value
        else
          let _ ← call .mutexattrDestroy
          return 0

/-- The loop goes on while a signal interrupts the wait. -/
def doLockFile (fd : Int) : Nat → Sys Nat
  | 0 => .fail .fuel
  | fuel + 1 => do
    let r ← call (.setlkw fd)
    let result ← if r.value ≠ 0 then errnoOr ENOMEM else pure 0
    if result = EINTR then doLockFile fd fuel else return result

def shmLockFile (filename : String) (fuel : Nat) : Sys Int := do
  let lockFd ← call (.openFile filename)
  if lockFd.value < 0 then
    let _ ← errnoOr EPERM
    return -1
  else
    let result ← doLockFile lockFd.value fuel
    if result ≠ 0 then
      let _ ← call (.close lockFd.value)
      return -1
    else return lockFd.value

def shmUnlockFile (lockFd : Int) : Sys Unit := do
  let _ ← call (.close lockFd)
  return ()

/-! ### `shm_context.c` and `shm_malloc.c` -/

/-- The result of `shm_lock_init` is not looked at. -/
def initShmSharedField (key shmid : Int) : Sys Unit := do
  let _ ← call (.setFields key)
  let _ ← shmLockInit
  let _ ← call (.setArena shmid)
  return ()

/-- What a process that creates the context does under the file lock; whether it gets the lock. -/
def setUpContext (path : String) (key shmid : Int) (fuel : Nat) : Sys Bool := do
  let lockFd ← shmLockFile path fuel
  if lockFd < 0 then return false
  else
    let flag ← call .initFlag
    let _ ← if flag.value ≠ shmInitFlag then initShmSharedField key shmid else pure ()
    let _ ← shmUnlockFile lockFd
    return true

def initSharedContext (path : String) (create : Bool) (fuel : Nat) : Sys (Option Int) := do
  let (err, key) ← shmGetKey path 0
  if err ≠ 0 then return none
  else
    let (context, shmid, _) ← shmMmap key (2 ^ 23) create 0
    match context with
    | none => return none
    | some context =>
      let ok ← if create then setUpContext path key shmid fuel else pure true
      if ok then
        let flag ← call .initFlag
        let _ ← assert (flag.value = shmInitFlag)
        let contextKey ← call .contextKey
        let _ ← assert (key = contextKey.value)
        let _ ← call .addCount
        return some context
      else return none

def exitSharedContext : Sys Unit := do
  let count ← call .subCount
  if count.value = 0 then
    let shmid ← call .contextShmid
    let _ ← shmRemove shmid.value
    return ()
  else return ()

/-- The loop of `shm_init` over the arenas from `i` on. An arena that cannot be attached is left out. -/
def attachArenas : Nat → Nat → Sys Unit
  | 0, _ => .ret ()
  | n + 1, i => do
    let arena ← call (.arena i)
    if arena.value ≠ 0 then
      let _ ← shmMmap 0 0 false arena.value
      attachArenas n (i + 1)
    else attachArenas n (i + 1)

def shmInit (path : String) (create : Bool) (fuel : Nat) : Sys Int := do
  let copy ← call (.alloc (path.utf8ByteSize + 1))
  if copy.value = 0 then return -ENOMEM
  else
    let r ← call .atexit
    if r.value ≠ 0 then return -1
    else
      match ← initSharedContext path create fuel with
      | none => return -1
      | some _ =>
        let _ ← call .mutexLock
        attachArenas 127 1
        let _ ← call .mutexUnlock
        return 0

/-- What `new_arena` asks the system for the arena of an index: its identifier and address. -/
def newArenaSegment (path : String) (index size : Nat) : Sys (Option (Int × Int)) := do
  let (err, key) ← shmGetKey path index
  if err ≠ 0 then return none
  else
    let (addr, shmid, _) ← shmMmap key size true 0
    match addr with
    | none => return none
    | some addr =>
      let err ← shmRemove shmid
      if err ≠ 0 then return none else return some (shmid, addr)

end ShmMalloc.System
