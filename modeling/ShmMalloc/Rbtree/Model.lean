import ShmMalloc.Exec
import ShmMalloc.Library.RedBlack

/-! `rbtree.h`: red-black trees whose nodes name each other by handles.

The macros of the header are `Macros`: the null handle and the comparison. A node
pointer is modelled by the handle of the node it points to (`RB_GET_NODE` is
injective), so `RB_GET_NODE` only checks that the handle is not null; the stack
sentinel of `rbtree_delete` is the one pointer that names no handle, and it is
carried by value (`NodeRef.enode`). A loop gets one more unit of fuel than there
are nodes. The header's mirrored pairs are one definition with a `Side`. -/
namespace ShmMalloc.Rbtree
open Library

structure Macros (P K : Type) where
  null : P
  compare : K → K → Int

structure Node (P K : Type) where
  s : P
  p : P
  left : P
  right : P
  v : K
  color : Color
  deriving DecidableEq, Repr

variable {P K : Type}

namespace Node

def child : Side → Node P K → P
  | .left, n => n.left
  | .right, n => n.right

def setChild : Side → P → Node P K → Node P K
  | .left, q, n => {n with left := q}
  | .right, q, n => {n with right := q}

def setP (q : P) (n : Node P K) : Node P K := {n with p := q}

def setColor (c : Color) (n : Node P K) : Node P K := {n with color := c}

end Node

/-- The nodes by handle, and the header of the tree.

The source counts the nodes in 32 bits, which differs only for a tree of `2 ^ 32` nodes. The allocator
has none: a pool has a node for each of at most 127 * 8 chunks, a chunk's tree one for each of its pages. -/
structure State (P K : Type) where
  heap : P → Node P K
  root : P
  size : Nat

variable [DecidableEq P]

def State.modify (s : State P K) (p : P) (f : Node P K → Node P K) : State P K :=
  {s with heap := fun q => if q = p then f (s.heap p) else s.heap q}

def State.setRoot (s : State P K) (p : P) : State P K := {s with root := p}

variable (R : Macros P K)

/-- `RB_GET_NODE`. -/
def getNode (p : P) : Exec P := if p = R.null then .error .null else .ok p

def checkNode (p : P) : Option P := if p = R.null then none else some p

/-- `rbtree_min_node` and `rbtree_max_node`: to the end of the tree on side `d`. -/
def endNode (d : Side) (h : P → Node P K) : Nat → P → Exec P
  | 0, _ => .error .fuel
  | fuel + 1, node =>
    if (h node).child d = R.null then .ok node else endNode d h fuel ((h node).child d)

def minNode (h : P → Node P K) : Nat → P → Exec P := endNode R .left h

def maxNode (h : P → Node P K) : Nat → P → Exec P := endNode R .right h

/-- `if(p->left == old) p->left = new; else p->right = new;` -/
def replaceChild (old new : P) (n : Node P K) : Node P K :=
  if n.left = old then n.setChild .left new else n.setChild .right new

/-- The link to `old`, from its parent `p` or from the header, becomes one to `new`. -/
def relink (s : State P K) (p : Option P) (old new : P) : State P K :=
  match p with
  | none => s.setRoot new
  | some p => s.modify p (replaceChild old new)

/-- `if(q != RB_NULL) RB_GET_NODE(q)->p = p;` -/
def setParent (s : State P K) (q p : P) : State P K :=
  match checkNode R q with
  | none => s
  | some y => s.modify y (Node.setP p)

/-! ### Rotations -/

/-- The rotation at `node` that takes it down on side `d`. -/
def rotate (d : Side) (s : State P K) (node : P) : Exec (State P K) := do
  let x ← getNode R ((s.heap node).child d.other)
  let p := checkNode R (s.heap node).p
  let s := s.modify node (Node.setChild d.other ((s.heap x).child d))
  let s := setParent R s ((s.heap node).child d.other) (s.heap node).s
  let s := s.modify node (Node.setP (s.heap x).s)
  let s := s.modify x (Node.setChild d (s.heap node).s)
  let s := relink s p (s.heap node).s (s.heap x).s
  return s.modify x (Node.setP (p.elim R.null fun p => (s.heap p).s))

def leftRotate : State P K → P → Exec (State P K) := rotate R .left

def rightRotate : State P K → P → Exec (State P K) := rotate R .right

/-! ### Repair after an insertion -/

/-- One turn of the loop of `rbtree_fix_insert` where `p` is the child of `pp` on
side `d`; the node of the next turn is returned. -/
def fixInsertSide (d : Side) (s : State P K) (node p pp : P) : Exec (State P K × P) :=
  let recolor : Option P := (checkNode R ((s.heap pp).child d.other)).filter
    (fun uncle => (s.heap uncle).color = .red)
  match recolor with
  | some uncle =>
    let s := s.modify uncle (Node.setColor .black)
    let s := s.modify p (Node.setColor .black)
    let s := s.modify pp (Node.setColor .red)
    .ok (s, pp)
  | none => do
    let (s, node, p) ←
      if (s.heap node).s = (s.heap p).child d.other then do
        let s ← rotate R d s p
        pure (s, p, node)
      else pure (s, node, p)
    let s := s.modify p (Node.setColor .black)
    let s := s.modify pp (Node.setColor .red)
    let s ← rotate R d.other s pp
    return (s, node)

def fixInsert : Nat → State P K → P → Exec (State P K)
  | 0, _, _ => .error .fuel
  | fuel + 1, s, node =>
    let red : Option P := (checkNode R (s.heap node).p).filter (fun p => (s.heap p).color = .red)
    match red with
    | some p => do
      let pp ← getNode R (s.heap p).p
      let (s, node) ←
        if (s.heap p).s = (s.heap pp).left then fixInsertSide R .left s node p pp
        else fixInsertSide R .right s node p pp
      fixInsert fuel s node
    | none =>
      .ok (if (s.heap node).p = R.null then s.modify node (Node.setColor .black) else s)

/-! ### Repair after a deletion -/

/-- A node pointer in `rbtree_delete`: into the heap, or to the sentinel on the stack. -/
inductive NodeRef (P K : Type) where
  | node (p : P)
  | enode (n : Node P K)

def NodeRef.read (h : P → Node P K) : NodeRef P K → Node P K
  | .node p => h p
  | .enode n => n

def NodeRef.setColor (s : State P K) (c : Color) : NodeRef P K → State P K
  | .node p => s.modify p (Node.setColor c)
  | .enode _ => s

/-- `n == NULL || n->color == RB_BLACK` -/
def isBlack (h : P → Node P K) : Option P → Bool
  | none => true
  | some p => (h p).color = .black

/-- A turn of the loop of `rbtree_fix_delete` from where the sibling `w` of the node is black. -/
def fixDeleteRest (d : Side) (s : State P K) (p w : P) : Exec (State P K × Bool) := do
  let wl := checkNode R ((s.heap w).child d)
  let wr := checkNode R ((s.heap w).child d.other)
  if isBlack s.heap wl && isBlack s.heap wr then
    return (s.modify w (Node.setColor .red), true)
  let (s, w, wr) ←
    if isBlack s.heap wr then do
      let wl ← wl.elim (.error .null) .ok
      let s := s.modify wl (Node.setColor .black)
      let s := s.modify w (Node.setColor .red)
      let s ← rotate R d.other s w
      let w ← getNode R ((s.heap p).child d.other)
      let wr ← getNode R ((s.heap w).child d.other)
      pure (s, w, wr)
    else do
      let wr ← wr.elim (.error .null) .ok
      pure (s, w, wr)
  let s := s.modify w (Node.setColor (s.heap p).color)
  let s := s.modify p (Node.setColor .black)
  let s := s.modify wr (Node.setColor .black)
  let s ← rotate R d s p
  return (s, false)

/-- One turn of the loop of `rbtree_fix_delete` where the node hangs on side `d`
of `p`; the flag says that the loop goes on with `p`. -/
def fixDeleteSide (d : Side) (s : State P K) (p : P) : Exec (State P K × Bool) := do
  let w ← getNode R ((s.heap p).child d.other)
  if (s.heap w).color = .red then
    let s := s.modify w (Node.setColor .black)
    let s := s.modify p (Node.setColor .red)
    let s ← rotate R d s p
    let w ← getNode R ((s.heap p).child d.other)
    fixDeleteRest R d s p w
  else fixDeleteRest R d s p w

def fixDelete : Nat → State P K → NodeRef P K → Exec (State P K)
  | 0, _, _ => .error .fuel
  | fuel + 1, s, node =>
    if (node.read s.heap).p ≠ R.null ∧ (node.read s.heap).color = .black then do
      let p ← getNode R (node.read s.heap).p
      let (s, again) ←
        if (s.heap p).left = (node.read s.heap).s then fixDeleteSide R .left s p
        else fixDeleteSide R .right s p
      if again then fixDelete fuel s (.node p) else return node.setColor s .black
    else .ok (node.setColor s .black)

/-! ### The interface -/

def nodeInit (n : Node P K) : Node P K :=
  {n with color := .red, p := R.null, left := R.null, right := R.null}

def init (h : P → Node P K) : State P K := ⟨h, R.null, 0⟩

/-- `rbtree_min` and `rbtree_max`. -/
def endOf (d : Side) (s : State P K) : Exec (Option P) :=
  if s.root = R.null then .ok none
  else do
    let p ← endNode R d s.heap (s.size + 1) s.root
    return some p

def min : State P K → Exec (Option P) := endOf R .left

def max : State P K → Exec (Option P) := endOf R .right

/-- The climbing loop of `rbtree_next` and `rbtree_prev`. -/
def climb (d : Side) (h : P → Node P K) : Nat → P → Exec (Option P)
  | 0, _ => .error .fuel
  | fuel + 1, node =>
    if (h node).p = R.null then .ok none
    else if (h node).s = (h (h node).p).child d then climb d h fuel (h node).p
    else .ok (some (h node).p)

/-- `rbtree_next` (`d` is right) and `rbtree_prev` (`d` is left). -/
def step (d : Side) (s : State P K) (node : P) : Exec (Option P) :=
  if (s.heap node).child d ≠ R.null then do
    let p ← endNode R d.other s.heap (s.size + 1) ((s.heap node).child d)
    return some p
  else climb R d s.heap (s.size + 1) node

def next : State P K → P → Exec (Option P) := step R .right

def prev : State P K → P → Exec (Option P) := step R .left

def findLoop (h : P → Node P K) (val : K) : Nat → P → Exec (Option P)
  | 0, _ => .error .fuel
  | fuel + 1, node =>
    if node = R.null then .ok none
    else if R.compare (h node).v val < 0 then findLoop h val fuel (h node).right
    else if R.compare (h node).v val > 0 then findLoop h val fuel (h node).left
    else .ok (some node)

def find (s : State P K) (val : K) : Exec (Option P) := findLoop R s.heap val (s.size + 1) s.root

/-- The descent of `rbtree_lower`; `bigger` is `prev_bigger`. -/
def lowerLoop (h : P → Node P K) (val : K) : Nat → P → Option P → Bool → Exec (Option P)
  | 0, _, _, _ => .error .fuel
  | fuel + 1, node, prev, bigger =>
    if node = R.null then .ok (if bigger then prev else none)
    else if R.compare (h node).v val < 0 then
      if bigger then .ok prev else lowerLoop h val fuel (h node).right (some node) bigger
    else lowerLoop h val fuel (h node).left (some node) true

def lower (s : State P K) (val : K) : Exec (Option P) :=
  lowerLoop R s.heap val (s.size + 1) s.root none false

/-- The descent of `rbtree_insert`: the last node passed. -/
def descend (h : P → Node P K) (v : K) : Nat → P → Option P → Exec (Option P)
  | 0, _, _ => .error .fuel
  | fuel + 1, pnode, node =>
    if pnode = R.null then .ok node
    else descend h v fuel (if R.compare (h pnode).v v < 0 then (h pnode).right else (h pnode).left)
      (some pnode)

/-- `rbtree_node_init(new_node); root->size++;` -/
def insertInit (s : State P K) (new : P) : State P K :=
  {s.modify new (nodeInit R) with size := s.size + 1}

def insert (s : State P K) (new : P) : Exec (State P K) := do
  require ((s.heap new).s = new)
  let s := insertInit R s new
  if s.root = R.null then
    let s := s.modify new (Node.setColor .black)
    return s.setRoot (s.heap new).s
  let node ← descend R s.heap (s.heap new).v (s.size + 1) s.root none
  let node ← node.elim (.error .null) .ok
  let s :=
    if R.compare (s.heap node).v (s.heap new).v < 0 then
      s.modify node (Node.setChild .right (s.heap new).s)
    else s.modify node (Node.setChild .left (s.heap new).s)
  let s := s.modify new (Node.setP (s.heap node).s)
  fixInsert R (s.size + 1) s new

/-- `find replace node y`: the node to unlink, and the handle of its only child. -/
def deleteFind (s : State P K) (node : P) : Exec (P × P) :=
  if (s.heap node).left = R.null then .ok (node, (s.heap node).right)
  else if (s.heap node).right = R.null then .ok (node, (s.heap node).left)
  else do
    let y ← minNode R s.heap (s.size + 1) (s.heap node).right
    return (y, (s.heap y).right)

/-- `x->p = q` -/
def NodeRef.setP (s : State P K) (q : P) : NodeRef P K → State P K × NodeRef P K
  | .node p => (s.modify p (Node.setP q), .node p)
  | .enode n => (s, .enode (n.setP q))

/-- `delete replace node y`: `x` takes the place of `y`. -/
def deleteUnlink (s : State P K) (x : NodeRef P K) (y : P) : State P K × NodeRef P K :=
  let (s, x) := x.setP s (s.heap y).p
  (relink s (checkNode R (s.heap y).p) (s.heap y).s (x.read s.heap).s, x)

/-- The block for `y != node`: `y` takes the place of `node`. -/
def deleteReplace (s : State P K) (x : NodeRef P K) (y node : P) : State P K × NodeRef P K :=
  -- fix if y->p == node, change x->p
  let (s, x) := if (s.heap y).p = (s.heap node).s then x.setP s (s.heap y).s else (s, x)
  -- replace color
  let s := s.modify y (Node.setColor (s.heap node).color)
  -- replace parent
  let s := relink s (checkNode R (s.heap node).p) (s.heap node).s (s.heap y).s
  let s := s.modify y (Node.setP (s.heap node).p)
  let s := s.modify node (Node.setP R.null)
  -- replace left child
  let s := setParent R s (s.heap node).left (s.heap y).s
  let s := s.modify y (Node.setChild .left (s.heap node).left)
  let s := s.modify node (Node.setChild .left R.null)
  -- replace right child
  let s := setParent R s (s.heap node).right (s.heap y).s
  let s := s.modify y (Node.setChild .right (s.heap node).right)
  (s.modify node (Node.setChild .right R.null), x)

/-- The sentinel of `rbtree_delete`. -/
def enode (n : Node P K) : Node P K := {nodeInit R n with color := .black, s := R.null}

def delete (s : State P K) (node : P) : Exec (State P K) := do
  let fuel := s.size + 1
  let s := {s with size := s.size - 1}
  let (y, px) ← deleteFind R s node
  let x : NodeRef P K := if px = R.null then .enode (enode R (s.heap node)) else .node px
  let (s, x) := deleteUnlink R s x y
  let color := (s.heap y).color
  let (s, x) := if y ≠ node then deleteReplace R s x y node else (s, x)
  if color = .black then fixDelete R fuel s x else return s

end ShmMalloc.Rbtree
