import ShmMalloc.Context

/-! `shm_malloc.c`: the public operations, each under the context mutex. -/
namespace ShmMalloc

/-- The state after `shm_init` has created the shared context in the segment `shmid`, which is
attached at the address of the same number. -/
def initShm (shmid : Nat) : Shm where
  arenas i :=
    if i = 0 then ⟨.context, shmid, 0, 2 ^ 23, 1, fun k => if k = 0 then index2pos 0 1 else 0⟩
    else .zero
  runPool _ := ⟨0, 0⟩
  chunkSmallPool := ⟨0, 0⟩
  chunkMediumPool := ⟨0, 0⟩
  header _ := ⟨.empty, 0⟩
  chunkNode _ := zeroNode ⟨0, 0⟩
  small _ := zeroSmall
  medium _ := zeroMedium
  run _ := zeroRun
  runNode _ := zeroTreeNode
  link _ _ := 0
  data i o := if (i, o) ∈ bytes 0 (2 ^ 20) then none else some 0
  arenaAddrs i := if i = 0 then ⟨some shmid, shmid⟩ else ⟨none, 0⟩
  sys := ⟨fun _ => 0, 1, fun _ => none, [⟨shmid, shmid, 0⟩], fun _ _ _ => none, 0⟩

def shmMalloc (s : Shm) (size : Nat) (os : Os) : Exec (Shm × Nat) :=
  if size = 0 then .ok (s, 0) else mallocArena s size os

def shmFree (s : Shm) (pos : Nat) : Exec Shm :=
  if pos = 0 then .ok s else freeArena s (pos2index pos) (pos2offset pos)

/-- `memcpy(dest, src, n)` between two positions. -/
def copyData (s : Shm) (dest src n : Nat) : Shm :=
  {s with data := fun i o =>
    if (i, o) ∈ bytes dest n then
      s.data (pos2index src) (pos2offset src + (o - pos2offset dest))
    else s.data i o}

def shmRealloc (s : Shm) (pos size : Nat) (os : Os) : Exec (Shm × Nat) := do
  if pos = 0 then shmMalloc s size os
  else
    let (s, checksize) ← checkArena s (pos2index pos) (pos2offset pos)
    if size > checksize ∧ checksize ≠ 0 then
      let (s, ret) ← mallocArena s size os
      if ret ≠ 0 then
        let s ← getOrUpdateAddr s pos
        let s ← getOrUpdateAddr s ret
        let s := copyData s ret pos checksize
        let s ← freeArena s (pos2index pos) (pos2offset pos)
        return (s, ret)
      return (s, ret)
    return (s, pos)

def shmCheckSize (s : Shm) (pos : Nat) : Exec (Shm × Nat) :=
  if pos = 0 then .ok (s, 0) else checkArena s (pos2index pos) (pos2offset pos)

def shmGetAddr (s : Shm) (pos : Nat) : Exec (Shm × Option Nat) := do
  let index := pos2index pos
  if index ≥ 128 then return (s, none)
  let (s, base) ← getOrUpdateArenaAddr s index
  return (s, base.map (· + pos2offset pos))

end ShmMalloc
