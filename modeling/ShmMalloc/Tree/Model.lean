import Mathlib.Algebra.Group.Nat.Defs
import ShmMalloc.Exec

/-! `shm_tree.h` and `shm_tree.c`: the pools of runs, leftist trees ordered by position.

A node is named by its position, and `shm_tree_getaddr` gives the node itself, or a
null pointer for `SHM_NULL`. The recursion of the merge goes down right links only;
its fuel covers two right spines through all the pages there can be. -/
namespace ShmMalloc

structure ShmTreeNode where
  rank : Nat
  root : Nat
  left : Nat
  right : Nat
  deriving DecidableEq, Repr

structure ShmPool where
  root : Nat
  size : Nat
  deriving DecidableEq, Repr

abbrev TreeHeap := Nat → ShmTreeNode

namespace TreeHeap

def modify (h : TreeHeap) (p : Nat) (f : ShmTreeNode → ShmTreeNode) : TreeHeap :=
  fun q => if q = p then f (h p) else h q

def setRoot (h : TreeHeap) (p q : Nat) : TreeHeap := h.modify p fun n => {n with root := q}

def setLeft (h : TreeHeap) (p q : Nat) : TreeHeap := h.modify p fun n => {n with left := q}

def setRight (h : TreeHeap) (p q : Nat) : TreeHeap := h.modify p fun n => {n with right := q}

/-- The rank has 32 bits. -/
def setRank (h : TreeHeap) (p r : Nat) : TreeHeap := h.modify p fun n => {n with rank := r % 2 ^ 32}

end TreeHeap

/-- What the merge does at `tr1` with the merged right subtree `rnode`. -/
def attach (h : TreeHeap) (tr1 rnode : Nat) : TreeHeap :=
  let h := h.setRoot rnode tr1
  let h := h.setRight tr1 rnode
  if (h tr1).left = 0 then
    let h := h.setLeft tr1 (h tr1).right
    h.setRight tr1 0
  else
    let lnode := (h tr1).left
    if (h lnode).rank < (h rnode).rank then
      let t := (h tr1).left
      let h := h.setLeft tr1 (h tr1).right
      let h := h.setRight tr1 t
      h.setRank tr1 ((h lnode).rank + 1)
    else h.setRank tr1 ((h rnode).rank + 1)

def shmTreeMerge : Nat → TreeHeap → Nat → Nat → Exec (TreeHeap × Nat)
  | 0, _, _, _ => .error .fuel
  | fuel + 1, h, tr1, tr2 =>
    if tr1 = 0 then .ok (h, tr2)
    else if tr2 = 0 then .ok (h, tr1)
    else do
      let (tr1, tr2) := if tr1 > tr2 then (tr2, tr1) else (tr1, tr2)
      let (h, rnode) ← shmTreeMerge fuel h (h tr1).right tr2
      return (attach h tr1 rnode, tr1)

/-- 128 arenas of 8 chunks of 256 pages, twice. -/
def mergeFuel : Nat := 2 * (128 * 8 * 256) + 1

def shmTreePush (h : TreeHeap) (pool : ShmPool) (node : Nat) : Exec (TreeHeap × ShmPool) := do
  let (h, r) ← shmTreeMerge mergeFuel h pool.root node
  return (h, ⟨r, (pool.size + 1) % 2 ^ 32⟩)

def shmTreePop (h : TreeHeap) (pool : ShmPool) : Exec (TreeHeap × ShmPool) := do
  require (pool.size > 0)
  if pool.root = 0 then throw .null
  let (h, r) ← shmTreeMerge mergeFuel h (h pool.root).left (h pool.root).right
  let h := if r ≠ 0 then h.setRoot r 0 else h
  return (h, ⟨r, pool.size - 1⟩)

def shmTreeRemove (h : TreeHeap) (pool : ShmPool) (node : Nat) : Exec (TreeHeap × ShmPool) :=
  if pool.root = node then shmTreePop h pool
  else do
    let (h, r) ← shmTreeMerge mergeFuel h (h node).left (h node).right
    let root := (h node).root
    let h := if r ≠ 0 then h.setRoot r root else h
    if root = 0 then throw .null
    let h := if node = (h root).left then h.setLeft root r else h.setRight root r
    return (h, ⟨pool.root, (pool.size + 2 ^ 32 - 1) % 2 ^ 32⟩)

end ShmMalloc
