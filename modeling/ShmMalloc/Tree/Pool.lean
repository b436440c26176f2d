import ShmMalloc.Tree.Merge
import ShmMalloc.Library.TreePaths

/-! What push, pop and remove do to a pool: first as operations on its tree, then on
the set of its nodes.

The merge needs as many turns as the right spines of its two trees are long, so any
bound on the nodes of a pool will do for its fuel. -/
namespace ShmMalloc
open Library

/-! ### As operations on trees -/

/-- `shm_tree_push` with a given number of turns for the merge. -/
def shmTreePushWith (fuel : Nat) (h : TreeHeap) (pool : ShmPool) (node : Nat) :
    Exec (TreeHeap × ShmPool) := do
  let (h, r) ← shmTreeMerge fuel h pool.root node
  return (h, ⟨r, (pool.size + 1) % 2 ^ 32⟩)

def shmTreePopWith (fuel : Nat) (h : TreeHeap) (pool : ShmPool) : Exec (TreeHeap × ShmPool) := do
  require (pool.size > 0)
  if pool.root = 0 then throw .null
  let (h, r) ← shmTreeMerge fuel h (h pool.root).left (h pool.root).right
  let h := if r ≠ 0 then h.setRoot r 0 else h
  return (h, ⟨r, pool.size - 1⟩)

def shmTreeRemoveWith (fuel : Nat) (h : TreeHeap) (pool : ShmPool) (node : Nat) :
    Exec (TreeHeap × ShmPool) :=
  if pool.root = node then shmTreePopWith fuel h pool
  else do
    let (h, r) ← shmTreeMerge fuel h (h node).left (h node).right
    let root := (h node).root
    let h := if r ≠ 0 then h.setRoot r root else h
    if root = 0 then throw .null
    let h := if node = (h root).left then h.setLeft root r else h.setRight root r
    return (h, ⟨pool.root, (pool.size + 2 ^ 32 - 1) % 2 ^ 32⟩)

theorem shmTreePush_eq (h : TreeHeap) (pool : ShmPool) (node : Nat) :
    shmTreePush h pool node = shmTreePushWith mergeFuel h pool node := rfl

theorem shmTreePop_eq (h : TreeHeap) (pool : ShmPool) :
    shmTreePop h pool = shmTreePopWith mergeFuel h pool := rfl

theorem shmTreeRemove_eq (h : TreeHeap) (pool : ShmPool) (node : Nat) :
    shmTreeRemove h pool node = shmTreeRemoveWith mergeFuel h pool node := rfl

/-- A node without children is melded with the tree. -/
theorem shmTreePushWith_run (fuel : Nat) {h : TreeHeap} {pool : ShmPool} {par node : Nat}
    {t : Tree Nat Nat} (hl : Linked treeView 0 h par t) (nd : t.inorder.Nodup)
    (hroot : pool.root = t.root 0) (hn : node ≠ 0) (hnew : node ∉ t.inorder)
    (hleft : (h node).left = 0) (hright : (h node).right = 0) (hf : t.size + 1 < fuel) :
    ∃ h' par' u, u = .node (h node).rank .nil node .nil ∧
      shmTreePushWith fuel h pool node =
        .ok (h', ⟨(meld t u).root 0, (pool.size + 1) % 2 ^ 32⟩) ∧
      Linked treeView 0 h' par' (meld t u) ∧ (meld t u).inorder.Perm (node :: t.inorder) ∧
      ∀ q, q ∉ node :: t.inorder → h' q = h q := by
  let u : Tree Nat Nat := .node (h node).rank .nil node .nil
  have hu : Linked treeView 0 h (h node).root u :=
    ⟨⟨hn, trivial, rfl, rfl, hleft, hright⟩, trivial, trivial⟩
  have hdisj : (t.inorder ++ u.inorder).Nodup :=
    List.perm_append_comm.nodup_iff.mpr (List.nodup_cons.mpr ⟨hnew, nd⟩)
  obtain ⟨h', par', hrun, hlinked, hout⟩ := shmTreeMerge_linked hl hu hdisj
    (show t.size + u.size < fuel by
      simp only [u, Tree.size]
      omega)
  refine ⟨h', par', u, rfl, ?_, hlinked, (meld_perm t u).trans List.perm_append_comm, fun q hq => ?_⟩
  · rw [shmTreePushWith, hroot, show node = u.root 0 from rfl, hrun]
    rfl
  · exact hout q fun hq' => hq (List.perm_append_comm.mem_iff.mp hq')


/-- `if(r.addr != NULL) r.addr->root = q;` -/
theorem linked_setRoot_if {h : TreeHeap} {par q : Nat} {t : Tree Nat Nat}
    (l : Linked treeView 0 h par t) (nd : t.inorder.Nodup) :
    Linked treeView 0 (if t.root 0 ≠ 0 then h.setRoot (t.root 0) q else h) q t ∧
      ∀ p, p ∉ t.inorder → (if t.root 0 ≠ 0 then h.setRoot (t.root 0) q else h : TreeHeap) p = h p := by
  by_cases hn : t.root 0 = 0
  · obtain rfl := l.root_eq_null.mp hn
    exact ⟨trivial, fun p _ => by rw [if_neg (not_not.mpr hn)]⟩
  · rw [if_pos hn]
    refine ⟨linked_setRoot l nd, fun p hp => TreeHeap.modify_ne _ _ ?_⟩
    rintro rfl
    exact hp (Tree.root_mem _ hn)

/-- The two subtrees of the root are left when it goes. -/
theorem shmTreePopWith_run (fuel : Nat) {h : TreeHeap} {pool : ShmPool} {par a p : Nat}
    {l r : Tree Nat Nat} (hl : Linked treeView 0 h par (.node a l p r))
    (nd : (Library.Tree.node a l p r).inorder.Nodup) (hroot : pool.root = p)
    (hsize : pool.size > 0) (hf : l.size + r.size < fuel) :
    ∃ h', shmTreePopWith fuel h pool = .ok (h', ⟨(meld l r).root 0, pool.size - 1⟩) ∧
      Linked treeView 0 h' 0 (meld l r) ∧
      ∀ q, q ∉ (Library.Tree.node a l p r).inorder → h' q = h q := by
  subst hroot
  obtain ⟨hp, htl, htr⟩ := hl
  have hleft : (h pool.root).left = l.root 0 := hp.near
  have hright : (h pool.root).right = r.root 0 := hp.far
  obtain ⟨-, nd'⟩ := List.nodup_cons.mp (List.perm_middle.nodup_iff.mp nd)
  obtain ⟨h₁, par', hrun, hlinked, hout⟩ := shmTreeMerge_linked htl htr nd' hf
  have hm := meld_perm l r
  obtain ⟨hlinked', hout'⟩ := linked_setRoot_if (q := 0) hlinked (hm.nodup_iff.mpr nd')
  refine ⟨_, ?_, hlinked', fun q hq => ?_⟩
  · unfold shmTreePopWith
    rw [decide_eq_true hsize, require_true, Exec.ok_bind, if_neg hp.ne, hleft, hright]
    simp only [Exec.pure_eq, Exec.ok_bind, hrun]
  · have hq' : q ∉ l.inorder ++ r.inorder := fun hm' =>
      hq (List.perm_middle.mem_iff.mpr (List.mem_cons_of_mem _ hm'))
    rw [hout' q fun hm' => hq' (hm.mem_iff.mp hm'), hout q hq']

/-- The parent's link to `node` becomes one to `r`. -/
theorem linkedContext_replace {h : TreeHeap} {par node r q b : Nat} {d : Side} {u : Tree Nat Nat}
    {rest : Context Nat Nat} (l : LinkedContext treeView 0 h par (⟨d, b, q, u⟩ :: rest) node)
    (nd : (Context.handles (⟨d, b, q, u⟩ :: rest)).Nodup) (hn : node ≠ 0)
    (hnm : node ∉ Context.handles (⟨d, b, q, u⟩ :: rest)) :
    LinkedContext treeView 0 (if node = (h q).left then h.setLeft q r else h.setRight q r) par
      (⟨d, b, q, u⟩ :: rest) r := by
  have hnear : treeView.child d (h q) = node := l.1.near
  have hfar : treeView.child d.other (h q) = u.root 0 := l.1.far
  have hu : u.root 0 ≠ node := by
    intro he
    have := Tree.root_mem _ (t := u) (by rw [he]; exact hn)
    rw [he] at this
    exact hnm ((Context.mem_handles_cons _ _ _).mpr (.inr (.inl this)))
  refine l.setHole nd (fun p _ hp => ?_) (fun _ _ _ => trivial) fun f rest' he => ?_
  · split
    · exact TreeHeap.modify_ne _ _ hp
    · exact TreeHeap.modify_ne _ _ hp
  · cases he
    cases d with
    | left =>
      rw [if_pos (show node = (h q).left from hnear.symm), TreeHeap.setLeft, TreeHeap.modify_self]
      exact ⟨rfl, rfl, rfl, rfl⟩
    | right =>
      have hleft : ¬node = (h q).left := fun he => hu (hfar.symm.trans he.symm)
      rw [if_neg hleft, TreeHeap.setRight, TreeHeap.modify_self]
      exact ⟨rfl, rfl, rfl, rfl⟩

/-- A node's subtrees, melded, take its place, wherever in the tree it is. -/
theorem shmTreeRemoveWith_run (fuel : Nat) {h : TreeHeap} {pool : ShmPool} {par a node : Nat}
    {ctx : Context Nat Nat} {l r : Tree Nat Nat}
    (hl : Linked treeView 0 h par (Context.plug ctx (.node a l node r)))
    (nd : (Context.plug ctx (.node a l node r)).inorder.Nodup)
    (hroot : pool.root = (Context.plug ctx (.node a l node r)).root 0)
    (hsize : pool.size < 2 ^ 32) (hpos : ctx = [] → pool.size > 0) (hf : l.size + r.size < fuel) :
    ∃ h' par', shmTreeRemoveWith fuel h pool node =
        .ok (h', ⟨(Context.plug ctx (meld l r)).root 0, (pool.size + 2 ^ 32 - 1) % 2 ^ 32⟩) ∧
      Linked treeView 0 h' par' (Context.plug ctx (meld l r)) ∧
      ∀ q, q ∉ (Context.plug ctx (.node a l node r)).inorder → h' q = h q := by
  cases ctx with
  | nil =>
    obtain ⟨h', hrun, hlinked, hout⟩ := shmTreePopWith_run fuel hl nd hroot (hpos rfl) hf
    refine ⟨h', 0, ?_, hlinked, hout⟩
    have := hpos rfl
    rw [shmTreeRemoveWith, if_pos (show pool.root = node from hroot), hrun, show (pool.size + 2 ^ 32 - 1) % 2 ^ 32 = pool.size - 1 by omega]
    rfl
  | cons f rest =>
    obtain ⟨d, b, q, u⟩ := f
    let ctx : Context Nat Nat := ⟨d, b, q, u⟩ :: rest
    obtain ⟨⟨hnode, htl, htr⟩, hctx⟩ := linked_plug (c := ctx).mp hl
    have hq : q ∈ Context.handles ctx := (Context.mem_handles_cons _ _ _).mpr (.inl rfl)
    obtain ⟨hin, hhandles, hdisj⟩ := (Context.nodup_plug ctx _).mp nd
    obtain ⟨hnm, hnd'⟩ := List.nodup_cons.mp (List.perm_middle.nodup_iff.mp hin)
    have hmid : ∀ p, p ∈ l.inorder ++ r.inorder → p ∈ (Library.Tree.node a l node r).inorder :=
      fun p hm => List.perm_middle.mem_iff.mpr (List.mem_cons_of_mem _ hm)
    have hout₀ : ∀ p ∈ Context.handles ctx, p ∉ l.inorder ++ r.inorder :=
      fun p hp hm => hdisj p (hmid p hm) hp
    have hleft : (h node).left = l.root 0 := hnode.near
    have hright : (h node).right = r.root 0 := hnode.far
    have hparent : (h node).root = q := hnode.parent
    obtain ⟨h₁, par', hrun, hlinked, hout⟩ := shmTreeMerge_linked htl htr hnd' hf
    have hm := meld_perm l r
    obtain ⟨hlinked₂, hout₂⟩ := linked_setRoot_if (q := q) hlinked (hm.nodup_iff.mpr hnd')
    let m := (meld l r).root 0
    let h₂ : TreeHeap := if m ≠ 0 then h₁.setRoot m q else h₁
    have hkeep : ∀ p ∈ Context.handles ctx, h₂ p = h p := fun p hp =>
      (hout₂ p fun hm' => hout₀ p hp (hm.mem_iff.mp hm')).trans (hout p (hout₀ p hp))
    -- the parent's link to the node becomes one to the merged tree
    let h₃ : TreeHeap := if node = (h₂ q).left then h₂.setLeft q m else h₂.setRight q m
    have hout₃ : ∀ p, p ≠ q → h₃ p = h₂ p := by
      intro p hp
      show (if _ then _ else _ : TreeHeap) p = _
      split
      · exact TreeHeap.modify_ne _ _ hp
      · exact TreeHeap.modify_ne _ _ hp
    have hlinked₃ : Linked treeView 0 h₃ q (meld l r) := by
      refine Linked.congr hlinked₂ fun p hp => hout₃ p ?_
      rintro rfl
      exact hout₀ p hq (hm.mem_iff.mp hp)
    have hself : node ∈ (Library.Tree.node a l node r).inorder :=
      List.perm_middle.mem_iff.mpr (List.mem_cons_self ..)
    have hctx₃ : LinkedContext treeView 0 h₃ par ctx m :=
      linkedContext_replace (hctx.congr hkeep) hhandles hnode.ne (hdisj node hself)
    have hparent₁ : (h₁ node).root = q := by rw [hout node hnm, hparent]
    have hqn : ¬q = 0 := hctx.1.ne
    have hne : ¬pool.root = node := fun he =>
      List.cons_ne_nil _ _ (Context.eq_nil_of_root nd hnode.ne (hroot.symm.trans he))
    refine ⟨h₃, par, ?_, linked_plug.mpr ⟨hlinked₃, hctx₃⟩, fun p hp => ?_⟩
    · unfold shmTreeRemoveWith
      rw [if_neg hne, hleft, hright]
      simp only [hrun, Exec.ok_bind, hparent₁, if_neg hqn, Exec.pure_eq]
      rw [hroot, root_plug_congr (List.cons_ne_nil _ _) _ (meld l r)]
    · rw [Context.mem_plug, not_or] at hp
      have hp₀ : p ∉ l.inorder ++ r.inorder := fun hm' => hp.1 (hmid p hm')
      rw [hout₃ p fun he => hp.2 (he.symm ▸ hq)]
      exact (hout₂ p fun hm' => hp₀ (hm.mem_iff.mp hm')).trans (hout p hp₀)

/-- The listing of a tree in which a node's subtrees, melded, took its place. -/
theorem plug_meld_perm {ctx : Context Nat Nat} {a node : Nat} {l r : Tree Nat Nat}
    (nd : (Context.plug ctx (.node a l node r)).inorder.Nodup) :
    (Context.plug ctx (meld l r)).inorder.Perm
      ((Context.plug ctx (.node a l node r)).inorder.erase node) := by
  rw [Context.erase_plug nd, Context.inorder_plug, List.append_assoc, List.append_assoc,
    ← List.append_assoc l.inorder]
  exact ((meld_perm l r).append_right _).append_left _

/-! ### As operations on sets -/

/-- The pool is the tree that its links spell out. -/
structure PoolRep (h : TreeHeap) (pool : ShmPool) (t : Tree Nat Nat) : Prop where
  linked : ∃ par, Linked treeView 0 h par t
  root : pool.root = t.root 0
  size : pool.size = t.size
  nodup : t.inorder.Nodup

/-- The pool holds these nodes, in some order; the bound is twice the pages there can be,
as the fuel of the merge is. -/
structure PoolHolds (h : TreeHeap) (pool : ShmPool) (l : List Nat) : Prop where
  rep : ∃ t, PoolRep h pool t ∧ t.inorder.Perm l
  bound : l.length ≤ 128 * 8 * 256

namespace PoolHolds
variable {h : TreeHeap} {pool : ShmPool} {l : List Nat}

theorem size (p : PoolHolds h pool l) : pool.size = l.length := by
  obtain ⟨⟨t, hrep, hperm⟩, -⟩ := p
  rw [hrep.size, ← Tree.size_inorder, hperm.length_eq]

theorem nodup (p : PoolHolds h pool l) : l.Nodup := by
  obtain ⟨⟨t, hrep, hperm⟩, -⟩ := p
  exact hperm.nodup_iff.mp hrep.nodup

theorem root_eq_zero (p : PoolHolds h pool l) : pool.root = 0 ↔ l = [] := by
  obtain ⟨⟨t, hrep, hperm⟩, -⟩ := p
  obtain ⟨par, hl⟩ := hrep.linked
  rw [hrep.root, hl.root_eq_null]
  constructor
  · rintro rfl
    exact List.nil_perm.mp hperm
  · rintro rfl
    cases t with
    | nil => rfl
    | node => simpa [Tree.inorder] using hperm.length_eq

theorem root_mem (p : PoolHolds h pool l) (hr : pool.root ≠ 0) : pool.root ∈ l := by
  obtain ⟨⟨t, hrep, hperm⟩, -⟩ := p
  rw [hrep.root] at hr ⊢
  exact hperm.mem_iff.mp (Tree.root_mem _ hr)

/-- Only the nodes in the pool matter. -/
theorem congr {h' : TreeHeap} (p : PoolHolds h pool l) (e : ∀ q ∈ l, h' q = h q) :
    PoolHolds h' pool l := by
  obtain ⟨⟨t, ⟨⟨par, hl⟩, hroot, hsize, hnd⟩, hperm⟩, hb⟩ := p
  exact ⟨⟨t, ⟨⟨par, hl.congr fun q hq => e q (hperm.mem_iff.mp hq)⟩, hroot, hsize, hnd⟩, hperm⟩, hb⟩

theorem perm {l' : List Nat} (p : PoolHolds h pool l) (hl : l.Perm l') : PoolHolds h pool l' := by
  obtain ⟨⟨t, hrep, hperm⟩, hb⟩ := p
  exact ⟨⟨t, hrep, hperm.trans hl⟩, hl.length_eq ▸ hb⟩

/-- The nodes that can be reached from the root are those of the pool. -/
theorem follow_iff (p : PoolHolds h pool l) {r : Nat} (hr : r ≠ 0) :
    (∃ path, follow treeView 0 h pool.root path = r) ↔ r ∈ l := by
  obtain ⟨⟨t, ⟨⟨par, hl⟩, hroot, -, -⟩, hperm⟩, -⟩ := p
  rw [hroot, ← hperm.mem_iff]
  exact ⟨fun hf => hf.elim fun path hpath => hl.follow_mem hpath hr, hl.exists_follow⟩

theorem follow_inj (p : PoolHolds h pool l) {path path' : List Side} {r : Nat} (hr : r ≠ 0)
    (hf : follow treeView 0 h pool.root path = r) (hf' : follow treeView 0 h pool.root path' = r) : path = path' := by
  obtain ⟨⟨t, ⟨⟨par, hl⟩, hroot, -, hnd⟩, -⟩, -⟩ := p
  rw [hroot] at hf hf'
  exact hl.follow_inj hnd hf hf' hr

end PoolHolds

/-- A node without children goes into a pool that it is not in. -/
theorem shmTreePush_holds {h : TreeHeap} {pool : ShmPool} {l : List Nat} {node : Nat}
    (hp : PoolHolds h pool l) (hn : node ≠ 0) (hnew : node ∉ l) (hleft : (h node).left = 0)
    (hright : (h node).right = 0) (hb : l.length + 1 ≤ 128 * 8 * 256) :
    ∃ h' pool', shmTreePush h pool node = .ok (h', pool') ∧ PoolHolds h' pool' (node :: l) ∧
      ∀ q, q ∉ node :: l → h' q = h q := by
  obtain ⟨⟨t, ⟨⟨par, hl⟩, hroot, hsize, hnd⟩, hperm⟩, -⟩ := hp
  have hlen : t.size = l.length := by rw [← Tree.size_inorder, hperm.length_eq]
  have hnt : node ∉ t.inorder := fun hm => hnew (hperm.mem_iff.mp hm)
  obtain ⟨h', par', u, -, hrun, hlinked, hnode, hout⟩ := shmTreePushWith_run mergeFuel
    hl hnd hroot hn hnt hleft hright (by simp only [mergeFuel]; omega)
  refine ⟨h', _, hrun, ⟨⟨meld t u, ⟨⟨par', hlinked⟩, rfl, ?_, ?_⟩, hnode.trans (hperm.cons node)⟩, hb⟩,
    fun q hq => hout q fun hq' => hq ((hperm.cons node).mem_iff.mp hq')⟩
  · rw [hsize, hlen, Nat.mod_eq_of_lt (by omega), ← Tree.size_inorder, hnode.length_eq,
      List.length_cons, hperm.length_eq]
  · exact hnode.nodup_iff.mpr (List.nodup_cons.mpr ⟨hnt, hnd⟩)

/-- A node goes out of a pool, wherever in the tree it is. -/
theorem PoolHolds.removeWith {h : TreeHeap} {pool : ShmPool} {l : List Nat} {node : Nat}
    (hp : PoolHolds h pool l) (hn : node ∈ l) :
    ∃ h' pool', shmTreeRemoveWith mergeFuel h pool node = .ok (h', pool') ∧
      PoolHolds h' pool' (l.erase node) ∧ ∀ q, q ∉ l → h' q = h q := by
  have hsize := hp.size
  obtain ⟨⟨t, ⟨⟨par, hl⟩, hr, -, hnd⟩, hperm⟩, hb⟩ := hp
  have hlen : t.size = l.length := by rw [← Tree.size_inorder, hperm.length_eq]
  obtain ⟨ctx, a, tl, tr, rfl⟩ := Tree.focus (hperm.mem_iff.mpr hn)
  have hsplit := Context.size_plug ctx (.node a tl node tr)
  rw [hlen, Tree.size] at hsplit
  obtain ⟨h', par', hrun, hlinked, hout⟩ := shmTreeRemoveWith_run mergeFuel hl hnd hr
    (by omega) (fun _ => by omega) (by simp only [mergeFuel]; omega)
  have hinorder := (plug_meld_perm hnd).trans (hperm.erase node)
  refine ⟨h', _, hrun, ⟨⟨Context.plug ctx (meld tl tr), ⟨⟨par', hlinked⟩, rfl, ?_, ?_⟩, hinorder⟩,
    Nat.le_trans (List.length_erase_le ..) hb⟩, fun p hp => hout p fun hm => hp (hperm.mem_iff.mp hm)⟩
  · show (pool.size + 2 ^ 32 - 1) % 2 ^ 32 = _
    rw [Context.size_plug, meld_size]
    omega
  · exact hinorder.nodup_iff.mpr ((hperm.nodup_iff.mp hnd).erase _)

/-- The root goes out of a pool. -/
theorem shmTreePop_holds {h : TreeHeap} {pool : ShmPool} {l : List Nat} (hp : PoolHolds h pool l)
    (hn : l ≠ []) :
    ∃ h' pool', shmTreePop h pool = .ok (h', pool') ∧ PoolHolds h' pool' (l.erase pool.root) ∧
      ∀ q, q ∉ l → h' q = h q := by
  have hrun := hp.removeWith (hp.root_mem (mt hp.root_eq_zero.mp hn))
  rwa [shmTreeRemoveWith, if_pos rfl] at hrun

/-- A node's subtrees take its place, wherever in the pool it is. -/
theorem shmTreeRemove_holds {h : TreeHeap} {pool : ShmPool} {l : List Nat} {node : Nat}
    (hp : PoolHolds h pool l) (hn : node ∈ l) :
    ∃ h' pool', shmTreeRemove h pool node = .ok (h', pool') ∧ PoolHolds h' pool' (l.erase node) ∧
      ∀ q, q ∉ l → h' q = h q :=
  hp.removeWith hn

end ShmMalloc
