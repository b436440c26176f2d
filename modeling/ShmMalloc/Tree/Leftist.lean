import Mathlib.Data.Fintype.Card
import ShmMalloc.Library.HeapTree
import ShmMalloc.Library.Machine
import ShmMalloc.Tree.Pool

/-! When a pool keeps the leftist shape that its merge relies on.

Push, and pop of the root, build the new tree by merging leftist trees, and a merge
leaves a leftist tree. `shm_tree_remove` merges the two subtrees of a node too, but the
node's ancestors keep the sides and ranks they had: the shape survives when the merged
subtree ranks as its new place asks, and only then. -/
namespace ShmMalloc
open Library

/-- The level of the merged tree, from the ranks along the two right spines. -/
def meldLevel : Tree Nat Nat → Tree Nat Nat → Nat
  | .nil, u => u.level
  | t, .nil => t.level
  | .node a l p r, .node b l' q r' =>
    if p > q then min l'.level (meldLevel r' (.node a l p r)) + 1
    else min l.level (meldLevel r (.node b l' q r')) + 1
termination_by t u => t.size + u.size
decreasing_by
  all_goals
    simp only [Tree.size]
    omega

/-- No tree of 64-bit positions ranks so high that its rank wraps. -/
theorem level_small {t : Tree Nat Nat} (h : t.Leftist) (hsize : t.size ≤ 2 ^ 64) :
    t.level ≤ 64 := by
  by_contra hlt
  have hpow := h.two_pow_level_le
  have hmono : 2 ^ 65 ≤ 2 ^ t.level := Nat.pow_le_pow_right (by decide) (by omega)
  omega

theorem storedRank_level {t : Tree Nat Nat} (h : t ≠ .nil) : t.level = storedRank t + 1 := by
  cases t with
  | nil => exact absurd rfl h
  | node => rfl

theorem graft_leftist {a p : Nat} {l m : Tree Nat Nat} (hl : l.Leftist) (hm : m.Leftist)
    (hne : m ≠ .nil) (ha : l = .nil → a = 0) (hsize : l.size + m.size ≤ 2 ^ 64) :
    (graft a l p m).Leftist ∧ (graft a l p m).level = min l.level m.level + 1 := by
  have hlevel := storedRank_level hne
  have hms := level_small hm (by omega)
  unfold graft
  by_cases hn : l = .nil
  · rw [if_pos hn, ha hn, hn]
    exact ⟨⟨Nat.zero_le _, rfl, hm, trivial⟩, by simp [Tree.level]⟩
  · have hlevel' := storedRank_level hn
    have hls := level_small hl (by omega)
    rw [if_neg hn]
    by_cases hlt : storedRank l < storedRank m
    · rw [if_pos hlt, Nat.mod_eq_of_lt (by omega)]
      refine ⟨⟨by omega, by omega, hm, hl⟩, ?_⟩
      rw [Tree.level]
      omega
    · rw [if_neg hlt, Nat.mod_eq_of_lt (by omega)]
      refine ⟨⟨by omega, by omega, hl, hm⟩, ?_⟩
      rw [Tree.level]
      omega

/-- A merge of leftist trees is leftist, and of the level that the spines tell. -/
theorem meld_leftist {t u : Tree Nat Nat} (ht : t.Leftist) (hu : u.Leftist)
    (hsize : t.size + u.size ≤ 2 ^ 64) :
    (meld t u).Leftist ∧ (meld t u).level = meldLevel t u := by
  induction t, u using meld.induct with
  | case1 u => simpa [meld, meldLevel] using hu
  | case2 t ht' => cases t <;> simpa [meld, meldLevel] using ht
  | case3 a l p r b l' q r' hpq ih =>
    obtain ⟨hle, hrank, hl, hr⟩ := id hu
    simp only [Tree.size] at hsize
    obtain ⟨hm, hlevel⟩ := ih hr ht (by simp only [Tree.size]; omega)
    have hms := meld_size r' (.node a l p r)
    rw [Tree.size] at hms
    have hne : meld r' (.node a l p r) ≠ .nil := by
      intro he
      rw [he, Tree.size] at hms
      omega
    rw [meld, if_pos hpq, meldLevel, if_pos hpq, ← hlevel]
    refine graft_leftist hl hm hne ?_ (by omega)
    rintro rfl
    exact hrank.trans (Nat.le_zero.mp hle)
  | case4 a l p r b l' q r' hpq ih =>
    obtain ⟨hle, hrank, hl, hr⟩ := id ht
    simp only [Tree.size] at hsize
    obtain ⟨hm, hlevel⟩ := ih hr hu (by simp only [Tree.size]; omega)
    have hms := meld_size r (.node b l' q r')
    rw [Tree.size] at hms
    have hne : meld r (.node b l' q r') ≠ .nil := by
      intro he
      rw [he, Tree.size] at hms
      omega
    rw [meld, if_neg hpq, meldLevel, if_neg hpq, ← hlevel]
    refine graft_leftist hl hm hne ?_ (by omega)
    rintro rfl
    exact hrank.trans (Nat.le_zero.mp hle)

/-! ### The shape, on the links -/

/-- The rank of a child; an absent one has -1. -/
def childRank (h : TreeHeap) (p : Nat) : Int := if p = 0 then -1 else (h p).rank

def LeftistAt (h : TreeHeap) (p : Nat) : Prop :=
  childRank h (h p).right ≤ childRank h (h p).left ∧
    ((h p).rank : Int) = childRank h (h p).right + 1

instance (h : TreeHeap) (p : Nat) : Decidable (LeftistAt h p) := inferInstanceAs (Decidable (_ ∧ _))

theorem childRank_root {h : TreeHeap} {par : Nat} {t : Tree Nat Nat}
    (l : Linked treeView 0 h par t) : childRank h (t.root 0) = t.level - 1 := by
  cases t with
  | nil => rfl
  | node a l' p r =>
    have hrank : (h p).rank = a := l.1.tag
    rw [Tree.root, childRank, if_neg l.1.ne, hrank, Tree.level]
    omega

/-- The tree is leftist when its links say so at every node. -/
theorem leftist_iff {h : TreeHeap} {par : Nat} {t : Tree Nat Nat} (l : Linked treeView 0 h par t) :
    t.Leftist ↔ ∀ p ∈ t.inorder, LeftistAt h p := by
  induction t generalizing par with
  | nil => exact ⟨fun _ p hp => absurd hp List.not_mem_nil, fun _ => trivial⟩
  | node a lt p rt ihl ihr =>
    obtain ⟨n, hl, hr⟩ := l
    have hself : LeftistAt h p ↔ rt.level ≤ lt.level ∧ a = rt.level := by
      have hleft : (h p).left = lt.root 0 := n.near
      have hright : (h p).right = rt.root 0 := n.far
      have hrank : (h p).rank = a := n.tag
      rw [LeftistAt, hleft, hright, hrank, childRank_root hl, childRank_root hr]
      omega
    rw [Tree.Leftist, ihl hl, ihr hr]
    simp only [Tree.inorder, List.mem_append, List.mem_cons]
    constructor
    · rintro ⟨hle, hrank, hl', hr'⟩ q (hq | rfl | hq)
      · exact hl' q hq
      · exact hself.mpr ⟨hle, hrank⟩
      · exact hr' q hq
    · intro hall
      obtain ⟨hle, hrank⟩ := hself.mp (hall p (.inr (.inl rfl)))
      exact ⟨hle, hrank, fun q hq => hall q (.inl hq), fun q hq => hall q (.inr (.inr hq))⟩

/-! ### Sequences of calls on one pool -/

/-- A pool, the nodes of its tree wherever they are, and a list of those that are in it. -/
structure TreeState where
  heap : TreeHeap
  pool : ShmPool
  nodes : List Nat

inductive TreeCall where
  | push (node : Nat) (n : ShmTreeNode)
  | pop
  | remove (node : Nat)

namespace TreeCall

/-- What the callers keep to: a node that is pushed is fresh, one that is removed is there. -/
def Legal (s : TreeState) : TreeCall → Prop
  | .push node n =>
    node ≠ 0 ∧ node < 2 ^ 64 ∧ node ∉ s.nodes ∧ n.rank = 0 ∧ n.left = 0 ∧ n.right = 0
  | .pop => True
  | .remove node => node ∈ s.nodes

instance (s : TreeState) : (a : TreeCall) → Decidable (a.Legal s)
  | .push _ _ => inferInstanceAs (Decidable (_ ∧ _))
  | .pop => inferInstanceAs (Decidable True)
  | .remove _ => inferInstanceAs (Decidable (_ ∈ _))

/-- The fuel is enough for all the positions there are. -/
def run (s : TreeState) : TreeCall → Exec TreeState
  | .push node n => do
    let (h, pool) ← shmTreePushWith (2 ^ 64 + 2) (s.heap.modify node fun _ => n) s.pool node
    return ⟨h, pool, node :: s.nodes⟩
  | .pop => do
    let (h, pool) ← shmTreePopWith (2 ^ 64 + 2) s.heap s.pool
    return ⟨h, pool, s.nodes.erase s.pool.root⟩
  | .remove node => do
    let (h, pool) ← shmTreeRemoveWith (2 ^ 64 + 2) s.heap s.pool node
    return ⟨h, pool, s.nodes.erase node⟩

end TreeCall

def treeMachine : Machine TreeState TreeCall Fault where
  start s := s.pool = ⟨0, 0⟩ ∧ s.nodes = []
  legal s a := a.Legal s
  step s a := a.run s

instance (s : TreeState) (a : TreeCall) : Decidable (treeMachine.legal s a) :=
  inferInstanceAs (Decidable (a.Legal s))

/-- The pool is this tree; the count of its nodes has 32 bits. -/
structure TreeRep (s : TreeState) (t : Tree Nat Nat) : Prop where
  linked : ∃ par, Linked treeView 0 s.heap par t
  root : s.pool.root = t.root 0
  size : s.pool.size = s.nodes.length % 2 ^ 32
  nodes : t.inorder.Perm s.nodes
  nodup : s.nodes.Nodup
  bound : ∀ p ∈ s.nodes, p < 2 ^ 64

/-- The removed node is the root, or a left child whose merged subtrees rank no lower than
its sibling, or a right child whose merged subtrees rank as it did. -/
def RemoveFits (s : TreeState) : TreeCall → Prop
  | .remove node => ∀ t, TreeRep s t → ∀ (ctx : Context Nat Nat) (a : Nat) (l r : Tree Nat Nat),
    t = Context.plug ctx (.node a l node r) → Tree.Fits ctx (a + 1) (meldLevel l r)
  | _ => True

theorem length_le_of_lt {l : List Nat} {n : Nat} (hnd : l.Nodup) (h : ∀ p ∈ l, p < n) :
    l.length ≤ n := by
  have hsub : l ⊆ List.range n := fun p hp => List.mem_range.mpr (h p hp)
  have hlen := (hnd.subperm hsub).length_le
  rwa [List.length_range] at hlen

/-- A pop that completes found the count above zero. -/
theorem shmTreePopWith_size {fuel : Nat} {h : TreeHeap} {pool : ShmPool} {x : TreeHeap × ShmPool}
    (hs : shmTreePopWith fuel h pool = .ok x) : pool.size > 0 := by
  unfold shmTreePopWith at hs
  obtain ⟨u, hu, -⟩ := Exec.bind_ok hs
  exact of_decide_eq_true (require_ok hu)

/-- Every node of the pool is leftist. -/
def LeftistShape (s : TreeState) : Prop := ∀ p ∈ s.nodes, LeftistAt s.heap p

instance (s : TreeState) : Decidable (LeftistShape s) :=
  inferInstanceAs (Decidable (∀ p ∈ s.nodes, LeftistAt s.heap p))

namespace TreeRep
variable {s s' : TreeState} {t : Tree Nat Nat}

theorem size_le (h : TreeRep s t) : t.size ≤ 2 ^ 64 := by
  rw [← Tree.size_inorder, h.nodes.length_eq]
  exact length_le_of_lt h.nodup h.bound

theorem nodup_inorder (h : TreeRep s t) : t.inorder.Nodup := h.nodes.nodup_iff.mpr h.nodup

theorem shape_iff (h : TreeRep s t) : LeftistShape s ↔ t.Leftist := by
  obtain ⟨par, hl⟩ := h.linked
  rw [leftist_iff hl]
  exact forall_congr' fun p => imp_congr_left h.nodes.mem_iff.symm

/-- A push always completes, and melds the node with the tree. -/
theorem push (h : TreeRep s t) {node : Nat} {n : ShmTreeNode}
    (ha : (TreeCall.push node n).Legal s) :
    ∃ s', (TreeCall.push node n).run s = .ok s' ∧
      TreeRep s' (meld t (.node 0 .nil node .nil)) := by
  obtain ⟨hn, hlt, hnew, hrank, hleft, hright⟩ := ha
  obtain ⟨par, hl⟩ := h.linked
  have hnt : node ∉ t.inorder := fun hm => hnew (h.nodes.mem_iff.mp hm)
  have hcell : (s.heap.modify node fun _ => n) node = n := TreeHeap.modify_self _ _
  have hl' : Linked treeView 0 (s.heap.modify node fun _ => n) par t := by
    refine hl.congr fun q hq => TreeHeap.modify_ne _ _ ?_
    rintro rfl
    exact hnt hq
  have hsize := h.size_le
  obtain ⟨h', par', u, rfl, hrun, hlinked, hperm, -⟩ := shmTreePushWith_run (2 ^ 64 + 2) hl'
    h.nodup_inorder h.root hn hnt (by rw [hcell]; exact hleft) (by rw [hcell]; exact hright)
    (by omega)
  rw [hcell, hrank] at hrun hlinked hperm
  refine ⟨⟨h', _, node :: s.nodes⟩, by rw [TreeCall.run, hrun]; rfl, ⟨par', hlinked⟩, rfl, ?_,
    hperm.trans (h.nodes.cons node), List.nodup_cons.mpr ⟨hnew, h.nodup⟩, fun p hp => ?_⟩
  · show (s.pool.size + 1) % 2 ^ 32 = (s.nodes.length + 1) % 2 ^ 32
    rw [h.size, Nat.mod_add_mod]
  · rcases List.mem_cons.mp hp with rfl | hp
    · exact hlt
    · exact h.bound p hp

/-- A remove that completes melds the subtrees of the node in its place. -/
theorem remove {ctx : Context Nat Nat} {a node : Nat} {l r : Tree Nat Nat}
    (h : TreeRep s (Context.plug ctx (.node a l node r))) {x : TreeHeap × ShmPool}
    (hs : shmTreeRemoveWith (2 ^ 64 + 2) s.heap s.pool node = .ok x) :
    TreeRep ⟨x.1, x.2, s.nodes.erase node⟩ (Context.plug ctx (meld l r)) := by
  obtain ⟨par, hl⟩ := h.linked
  have hnode : node ∈ s.nodes := by
    rw [← h.nodes.mem_iff, Context.mem_plug]
    exact .inl (List.mem_append_right _ (List.mem_cons_self ..))
  have hsize := h.size_le
  rw [Context.size_plug, Tree.size] at hsize
  have hpos : ctx = [] → s.pool.size > 0 := by
    rintro rfl
    rw [shmTreeRemoveWith, if_pos (show s.pool.root = node from h.root)] at hs
    exact shmTreePopWith_size hs
  obtain ⟨h', par', hrun, hlinked, -⟩ := shmTreeRemoveWith_run (2 ^ 64 + 2) hl
    h.nodup_inorder h.root (by rw [h.size]; omega) hpos (by omega)
  obtain rfl := Except.ok.inj (hs.symm.trans hrun)
  have hlen := List.length_pos_of_mem hnode
  refine ⟨⟨par', hlinked⟩, rfl, ?_, (plug_meld_perm h.nodup_inorder).trans (h.nodes.erase _),
    h.nodup.erase _, fun p hp => h.bound p (List.mem_of_mem_erase hp)⟩
  show (s.pool.size + 2 ^ 32 - 1) % 2 ^ 32 = (s.nodes.erase node).length % 2 ^ 32
  rw [h.size, List.length_erase_of_mem hnode]
  omega

/-- A pop that completes melds the subtrees of the root. -/
theorem pop (h : TreeRep s t) (hs : TreeCall.pop.run s = .ok s') :
    ∃ a l p r, t = .node a l p r ∧ TreeRep s' (meld l r) := by
  obtain ⟨x, hx, hs⟩ := Exec.bind_ok hs
  obtain rfl := Except.ok.inj hs
  cases t with
  | nil =>
    have hpos := shmTreePopWith_size hx
    have hnil : s.nodes = [] := List.nil_perm.mp h.nodes
    rw [h.size, hnil] at hpos
    cases hpos
  | node a l p r =>
    obtain rfl : s.pool.root = p := h.root
    have h' : TreeRep s (Context.plug [] (.node a l s.pool.root r)) := h
    refine ⟨a, l, _, r, rfl, h'.remove ?_⟩
    rwa [shmTreeRemoveWith, if_pos rfl]

/-- A call on a leftist pool leaves a leftist one exactly when a removed node's place asks
no more than the merged subtrees have. -/
theorem step (h : TreeRep s t) (ht : t.Leftist) {a : TreeCall} (ha : a.Legal s)
    (hs : a.run s = .ok s') :
    (∃ t', TreeRep s' t') ∧ (LeftistShape s' ↔ RemoveFits s a) := by
  cases a with
  | push node n =>
    obtain ⟨s₁, hrun, hrep⟩ := h.push ha
    obtain rfl := Except.ok.inj (hs.symm.trans hrun)
    have hsize := hrep.size_le
    rw [meld_size] at hsize
    have hu : (Library.Tree.node 0 .nil node .nil : Tree Nat Nat).Leftist :=
      ⟨Nat.le_refl _, rfl, trivial, trivial⟩
    refine ⟨⟨_, hrep⟩, iff_of_true (hrep.shape_iff.mpr (meld_leftist ht hu hsize).1) trivial⟩
  | pop =>
    obtain ⟨b, l, p, r, rfl, hrep⟩ := h.pop hs
    obtain ⟨-, -, hl, hr⟩ := ht
    have hsize := hrep.size_le
    rw [meld_size] at hsize
    exact ⟨⟨_, hrep⟩, iff_of_true (hrep.shape_iff.mpr (meld_leftist hl hr hsize).1) trivial⟩
  | remove node =>
    obtain ⟨x, hx, hs⟩ := Exec.bind_ok hs
    obtain rfl := Except.ok.inj hs
    have hfits : ∀ (ctx : Context Nat Nat) (b : Nat) (l r : Tree Nat Nat),
        TreeRep s (Context.plug ctx (.node b l node r)) →
        (LeftistShape ⟨x.1, x.2, s.nodes.erase node⟩ ↔ Tree.Fits ctx (b + 1) (meldLevel l r)) := by
      intro ctx b l r h'
      have ht' := h'.shape_iff.mp (h.shape_iff.mpr ht)
      obtain ⟨-, -, hl, hr⟩ := ht'.of_plug
      have hsize := h'.size_le
      rw [Context.size_plug, Tree.size] at hsize
      obtain ⟨hm, hlevel⟩ := meld_leftist hl hr (by omega)
      rw [(h'.remove hx).shape_iff, ht'.plug_iff hm, hlevel]
      exact Iff.rfl
    obtain ⟨ctx, b, l, r, rfl⟩ := Tree.focus (h.nodes.mem_iff.mpr ha)
    refine ⟨⟨_, h.remove hx⟩, fun hshape t h' ctx' b' l' r' he => ?_, fun hall => ?_⟩
    · subst he
      exact (hfits ctx' b' l' r' h').mp hshape
    · exact (hfits ctx b l r h).mpr (hall _ h ctx b l r rfl)

end TreeRep

/-- The states that removes of this kind lead to. -/
theorem leftist_reach {s : TreeState} (h : treeMachine.Reach RemoveFits s) :
    ∃ t, TreeRep s t ∧ t.Leftist := by
  have hempty : ∀ s, treeMachine.start s → ∃ t, TreeRep s t ∧ t.Leftist := by
    intro s hs
    obtain ⟨hpool, hnodes⟩ := hs
    exact ⟨.nil, ⟨⟨0, trivial⟩, by rw [hpool]; rfl, by rw [hpool, hnodes]; rfl, by rw [hnodes]; rfl,
      by rw [hnodes]; exact List.nodup_nil, by simp [hnodes]⟩, trivial⟩
  refine h.invariant hempty fun s a s' hi hl ha hs => ?_
  obtain ⟨t, hrep, ht⟩ := hi
  obtain ⟨⟨t', hrep'⟩, hiff⟩ := hrep.step ht hl hs
  exact ⟨t', hrep', hrep'.shape_iff.mp (hiff.mpr ha)⟩

/-- **The leftist shape** holds in every state that pushes, pops and such removes lead to, with
the short right spine that it gives, and from there the next call keeps it exactly when
it is not another kind of remove. -/
theorem leftist_runs {s : TreeState} (h : treeMachine.Reach RemoveFits s) :
    LeftistShape s ∧
      (∃ t, TreeRep s t ∧ t.rightSpine.length ≤ Nat.log2 (s.nodes.length + 1)) ∧
      ∀ a s', a.Legal s → a.run s = .ok s' → (LeftistShape s' ↔ RemoveFits s a) := by
  obtain ⟨t, hrep, ht⟩ := leftist_reach h
  refine ⟨hrep.shape_iff.mpr ht, ⟨t, hrep, ?_⟩, fun a s' ha hs => (hrep.step ht ha hs).2⟩
  rw [← hrep.nodes.length_eq, Tree.size_inorder]
  exact ht.rightSpine_le

/-! ### The other kind of remove -/

def freshNode : ShmTreeNode := ⟨0, 0, 0, 0⟩

def emptyPool : TreeState := ⟨fun _ => freshNode, ⟨0, 0⟩, []⟩

theorem emptyPool_start : treeMachine.start emptyPool := ⟨rfl, rfl⟩

def threePushes : List TreeCall :=
  [.push 4096 freshNode, .push 8192 freshNode, .push 12288 freshNode]

/-- Of three nodes the least has the other two as children; the left one goes, and what is
left has its only child on the right. -/
theorem remove_breaks_shape :
    ∃ s, treeMachine.Reach (fun _ _ => True) s ∧ ¬LeftistShape s := by
  have hrun : ((treeMachine.run (fun _ _ => true) emptyPool (threePushes ++ [.remove 8192])).any
      fun s => decide (¬LeftistShape s)) = true := by
    decide
  obtain ⟨s, hreach, hs⟩ : ∃ s, treeMachine.Reach (fun _ _ => True) s ∧ _ :=
    Machine.exists_reach _ (fun _ _ _ => trivial) _ emptyPool_start hrun
  exact ⟨s, hreach, of_decide_eq_true hs⟩

def TreeCall.keeps : TreeCall → Bool
  | .remove _ => false
  | _ => true

theorem RemoveFits.of_keeps {s : TreeState} {a : TreeCall} (h : a.keeps = true) :
    RemoveFits s a := by
  cases a with
  | push => trivial
  | pop => trivial
  | remove => cases h

/-- Right after the pushes the shape is there, and the next remove is one that breaks it. -/
theorem leftist_runs_three :
    ∃ s, treeMachine.Reach RemoveFits s ∧ s.nodes = [12288, 8192, 4096] ∧ LeftistShape s ∧
      ∀ s', (TreeCall.remove 8192).run s = .ok s' →
        (LeftistShape s' ↔ RemoveFits s (.remove 8192)) := by
  have hrun : ((treeMachine.run (fun _ a => a.keeps) emptyPool threePushes).any
      fun s => decide (s.nodes = [12288, 8192, 4096])) = true := by
    decide
  obtain ⟨s, hreach, hs⟩ : ∃ s, treeMachine.Reach RemoveFits s ∧ _ :=
    Machine.exists_reach _ (fun _ _ => RemoveFits.of_keeps) _ emptyPool_start hrun
  have hnodes := of_decide_eq_true hs
  obtain ⟨hshape, -, hnext⟩ := leftist_runs hreach
  exact ⟨s, hreach, hnodes, hshape, fun s' => hnext _ s' (show _ ∈ _ by rw [hnodes]; decide)⟩

end ShmMalloc
