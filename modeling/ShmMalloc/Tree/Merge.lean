import ShmMalloc.Tree.Model
import ShmMalloc.Library.LinkedTree

/-! The merge of two pools, as an operation on trees.

`meld` is the merge on trees whose tags are the stored ranks, and `shmTreeMerge`
computes it in place. That the result holds the nodes of both is all the pools need;
neither the order nor the ranks matter for it, and no rank needs to be right. -/
namespace ShmMalloc
open Library

/-- How a node of `shm_tree.h` is read as a node of a linked tree. -/
def treeView : View ShmTreeNode Nat Nat where
  child d n := match d with
    | .left => n.left
    | .right => n.right
  parent := ShmTreeNode.root
  tag := ShmTreeNode.rank
  own _ _ := True

/-- The rank of the root; an empty tree has none. -/
def storedRank : Tree Nat Nat → Nat
  | .nil => 0
  | .node a _ _ _ => a

/-- A node with a left subtree and the merged right one. -/
def graft (a : Nat) (l : Tree Nat Nat) (p : Nat) (m : Tree Nat Nat) : Tree Nat Nat :=
  if l = .nil then .node a m p .nil
  else if storedRank l < storedRank m then .node ((storedRank l + 1) % 2 ^ 32) m p l
  else .node ((storedRank m + 1) % 2 ^ 32) l p m

def meld : Tree Nat Nat → Tree Nat Nat → Tree Nat Nat
  | .nil, u => u
  | t, .nil => t
  | .node a l p r, .node b l' q r' =>
    if p > q then graft b l' q (meld r' (.node a l p r)) else graft a l p (meld r (.node b l' q r'))
termination_by t u => t.size + u.size
decreasing_by
  all_goals
    simp only [Tree.size]
    omega

theorem graft_perm (a : Nat) (l : Tree Nat Nat) (p : Nat) (m : Tree Nat Nat) :
    (graft a l p m).inorder.Perm (p :: (l.inorder ++ m.inorder)) := by
  unfold graft
  by_cases hl : l = .nil
  · subst hl
    simp [Tree.inorder, List.perm_append_singleton]
  · rw [if_neg hl]
    by_cases hr : storedRank l < storedRank m
    · rw [if_pos hr]
      exact List.perm_middle.trans (List.perm_append_comm.cons p)
    · rw [if_neg hr]
      exact List.perm_middle

/-- The merged tree has the nodes of both. -/
theorem meld_perm (t u : Tree Nat Nat) : (meld t u).inorder.Perm (t.inorder ++ u.inorder) := by
  induction t, u using meld.induct with
  | case1 u => simp [meld, Tree.inorder]
  | case2 t ht => cases t <;> simp [meld, Tree.inorder]
  | case3 a l p r b l' q r' h ih =>
    rw [meld, if_pos h]
    refine (graft_perm ..).trans ((ih.append_left _).cons _ |>.trans ?_)
    simp only [Tree.inorder]
    exact List.perm_iff_count.mpr fun x => by simp only [List.count_cons, List.count_append]; omega
  | case4 a l p r b l' q r' h ih =>
    rw [meld, if_neg h]
    refine (graft_perm ..).trans ((ih.append_left _).cons _ |>.trans ?_)
    simp only [Tree.inorder]
    exact List.perm_iff_count.mpr fun x => by simp only [List.count_cons, List.count_append]; omega

theorem meld_size (t u : Tree Nat Nat) : (meld t u).size = t.size + u.size := by
  rw [← Tree.size_inorder, (meld_perm t u).length_eq, List.length_append, Tree.size_inorder,
    Tree.size_inorder]

theorem graft_root (a : Nat) (l : Tree Nat Nat) (p : Nat) (m : Tree Nat Nat) :
    (graft a l p m).root 0 = p := by
  unfold graft
  split
  · rfl
  · split <;> rfl

/-! ### In place -/

namespace TreeHeap
variable (h : TreeHeap) {p q : Nat} (f : ShmTreeNode → ShmTreeNode)

theorem modify_self : h.modify p f p = f (h p) := if_pos rfl

theorem modify_ne (hq : q ≠ p) : h.modify p f q = h q := if_neg hq

theorem modify_modify (g : ShmTreeNode → ShmTreeNode) :
    (h.modify p f).modify p g = h.modify p fun n => g (f n) := by
  funext q
  by_cases hq : q = p
  · subst hq
    rw [modify_self, modify_self, modify_self]
  · rw [modify_ne _ _ hq, modify_ne _ _ hq, modify_ne _ _ hq]

end TreeHeap

/-- The tree gets another parent with one write. -/
theorem linked_setRoot {h : TreeHeap} {par par' : Nat} {t : Tree Nat Nat}
    (l : Linked treeView 0 h par t) (nd : t.inorder.Nodup) :
    Linked treeView 0 (h.setRoot (t.root 0) par') par' t := by
  refine l.reparent nd (fun q _ hq => if_neg hq) (fun _ _ _ => trivial) fun _ => ?_
  rw [TreeHeap.setRoot, TreeHeap.modify_self]
  exact ⟨rfl, rfl, fun d => by cases d <;> rfl⟩

/-- `attach` as two writes: the merged tree gets its parent, and the parent its cell. -/
theorem attach_eq {h h₁ : TreeHeap} {p r : Nat} (hset : h.setRoot r p = h₁) (hr : r ≠ p)
    (hl : (h p).left ≠ p) :
    attach h p r = h₁.modify p fun n =>
      if (h p).left = 0 then {n with left := r, right := 0}
      else if (h₁ (h p).left).rank < (h₁ r).rank then
        {n with left := r, right := (h p).left, rank := ((h₁ (h p).left).rank + 1) % 2 ^ 32}
      else {n with right := r, rank := ((h₁ r).rank + 1) % 2 ^ 32} := by
  subst hset
  obtain ⟨h₂, hset⟩ : ∃ h₂, h₂ = (h.setRoot r p).setRight p r := ⟨_, rfl⟩
  have hrun : attach h p r =
      if (h₂ p).left = 0 then (h₂.setLeft p (h₂ p).right).setRight p 0
      else if (h₂ (h₂ p).left).rank < (h₂ r).rank then
        let h₃ := (h₂.setLeft p (h₂ p).right).setRight p (h₂ p).left
        h₃.setRank p ((h₃ (h₂ p).left).rank + 1)
      else h₂.setRank p ((h₂ r).rank + 1) := by
    rw [hset]
    rfl
  have hcell : h₂ p = {h p with right := r} := by
    rw [hset]
    exact (TreeHeap.modify_self _ _).trans (by rw [TreeHeap.setRoot, TreeHeap.modify_ne _ _ hr.symm])
  have hrank : ∀ q, q ≠ p → h₂ q = (h.setRoot r p) q := fun q hq => by
    rw [hset]
    exact TreeHeap.modify_ne _ _ hq
  have hwrite : ∀ f, h₂.modify p f = (h.setRoot r p).modify p fun n => f {n with right := r} :=
    fun f => by
      rw [hset]
      exact TreeHeap.modify_modify ..
  rw [hrun, hcell, hrank _ hl, hrank _ hr]
  by_cases hzero : (h p).left = 0
  · simp only [if_pos hzero]
    rw [TreeHeap.setLeft, TreeHeap.setRight, TreeHeap.modify_modify, hwrite]
  · simp only [if_neg hzero]
    by_cases hlt : ((h.setRoot r p) (h p).left).rank < ((h.setRoot r p) r).rank
    · have hthird : ((h₂.setLeft p r).setRight p (h p).left) (h p).left = (h.setRoot r p) (h p).left := by
        rw [TreeHeap.setRight, TreeHeap.modify_ne _ _ hl, TreeHeap.setLeft, TreeHeap.modify_ne _ _ hl,
          hrank _ hl]
      simp only [if_pos hlt, hthird]
      rw [TreeHeap.setLeft, TreeHeap.setRight, TreeHeap.modify_modify, TreeHeap.setRank,
        TreeHeap.modify_modify, hwrite]
    · simp only [if_neg hlt]
      rw [TreeHeap.setRank, hwrite]

theorem linked_rank {h : TreeHeap} {par : Nat} {t : Tree Nat Nat}
    (l : Linked treeView 0 h par t) (ht : t ≠ .nil) : (h (t.root 0)).rank = storedRank t := by
  cases t with
  | nil => exact absurd rfl ht
  | node => exact l.1.tag

/-- The writes at a node after the merge of its right subtree. -/
theorem attach_linked {h : TreeHeap} {par a p par' : Nat} {l m : Tree Nat Nat} (hp : p ≠ 0)
    (hrank : (h p).rank = a) (hroot : (h p).root = par) (hleft : (h p).left = l.root 0)
    (hl : Linked treeView 0 h p l) (hm : Linked treeView 0 h par' m) (hne : m ≠ .nil)
    (nd : (p :: (l.inorder ++ m.inorder)).Nodup) :
    Linked treeView 0 (attach h p (m.root 0)) par (graft a l p m) ∧
      ∀ q, q ∉ p :: m.inorder → attach h p (m.root 0) q = h q := by
  have hmm := Tree.root_mem _ (mt hm.root_eq_null.mp hne)
  have hlm := Tree.root_mem 0 (t := l)
  simp only [List.nodup_cons, List.mem_append, not_or, List.nodup_append] at nd
  obtain ⟨⟨hpl, hpm⟩, -, hndm, hdisj⟩ := nd
  have hpr : m.root 0 ≠ p := fun he => hpm (he ▸ hmm)
  have hlp : l.root 0 ≠ p := by
    by_cases hz : l.root 0 = 0
    · rw [hz]
      exact hp.symm
    · exact fun he => hpl (he ▸ hlm hz)
  -- the root of the merged tree gets its parent
  have hout : ∀ q, q ≠ m.root 0 → (h.setRoot (m.root 0) p) q = h q :=
    fun q hq => TreeHeap.modify_ne _ _ hq
  have hm₁ : Linked treeView 0 (h.setRoot (m.root 0) p) p m := linked_setRoot hm hndm
  have hl₁ : Linked treeView 0 (h.setRoot (m.root 0) p) p l :=
    hl.congr fun q hq => hout q (hdisj q hq _ hmm)
  have hcell : (h.setRoot (m.root 0) p) p = h p := hout p hpr.symm
  -- what is left is a write to the cell of `p`
  rw [attach_eq rfl hpr (by rwa [hleft]), hleft]
  refine ⟨?_, fun q hq => ?_⟩
  · have build : ∀ (f : ShmTreeNode → ShmTreeNode) (t₁ t₂ : Tree Nat Nat) (k : Nat),
        f (h p) = ⟨k, par, t₁.root 0, t₂.root 0⟩ → Linked treeView 0 (h.setRoot (m.root 0) p) p t₁ →
        Linked treeView 0 (h.setRoot (m.root 0) p) p t₂ → p ∉ t₁.inorder → p ∉ t₂.inorder →
        Linked treeView 0 ((h.setRoot (m.root 0) p).modify p f) par (.node k t₁ p t₂) := by
      intro f t₁ t₂ k hf h₁ h₂ hp₁ hp₂
      have hf' : (h.setRoot (m.root 0) p).modify p f p = ⟨k, par, t₁.root 0, t₂.root 0⟩ := by
        rw [TreeHeap.modify_self, hcell, hf]
      have hkeep : ∀ {t : Tree Nat Nat}, p ∉ t.inorder → ∀ q ∈ t.inorder,
          (h.setRoot (m.root 0) p).modify p f q = (h.setRoot (m.root 0) p) q := by
        intro t hpt q hq
        refine TreeHeap.modify_ne _ _ ?_
        rintro rfl
        exact hpt hq
      exact ⟨⟨hp, trivial, congrArg ShmTreeNode.rank hf', congrArg ShmTreeNode.root hf',
        congrArg ShmTreeNode.left hf', congrArg ShmTreeNode.right hf'⟩, h₁.congr (hkeep hp₁),
        h₂.congr (hkeep hp₂)⟩
    by_cases hln : l = .nil
    · subst hln
      rw [graft, if_pos rfl]
      refine build _ m .nil a ?_ hm₁ trivial hpm (by simp [Tree.inorder])
      rw [hrank.symm, hroot.symm]
      exact if_pos rfl
    · rw [graft, if_neg hln, linked_rank hl₁ hln, linked_rank hm₁ hne]
      simp only [if_neg (mt hl.root_eq_null.mp hln)]
      by_cases hlt : storedRank l < storedRank m
      · simp only [if_pos hlt]
        refine build _ m l _ ?_ hm₁ hl₁ hpm hpl
        rw [hroot]
      · simp only [if_neg hlt]
        refine build _ l m _ ?_ hl₁ hm₁ hpl hpm
        rw [hroot, hleft]
  · simp only [List.mem_cons, not_or] at hq
    rw [TreeHeap.modify_ne _ _ hq.1, hout q]
    rintro rfl
    exact hq.2 hmm

/-- The merge in place computes `meld`, and writes to the nodes of the two trees only. -/
theorem shmTreeMerge_linked {fuel : Nat} {h : TreeHeap} {par par' : Nat} {t u : Tree Nat Nat}
    (ht : Linked treeView 0 h par t) (hu : Linked treeView 0 h par' u)
    (nd : (t.inorder ++ u.inorder).Nodup) (hf : t.size + u.size < fuel) :
    ∃ h' par'', shmTreeMerge fuel h (t.root 0) (u.root 0) = .ok (h', (meld t u).root 0) ∧
      Linked treeView 0 h' par'' (meld t u) ∧ ∀ q, q ∉ t.inorder ++ u.inorder → h' q = h q := by
  induction fuel generalizing h par par' t u with
  | zero => omega
  | succ fuel ih =>
    -- the turn at the smaller root, which is that of the first tree after the swap
    have turn : ∀ {par par' a p : Nat} {l r v : Tree Nat Nat},
        Linked treeView 0 h par (.node a l p r) → Linked treeView 0 h par' v → v ≠ .nil →
        ((Library.Tree.node a l p r).inorder ++ v.inorder).Nodup → r.size + v.size < fuel →
        ∃ h', (shmTreeMerge fuel h (h p).right (v.root 0) >>= fun x =>
            (Except.ok (attach x.1 p x.2, p) : Exec _)) = .ok (h', p) ∧
          Linked treeView 0 h' par (graft a l p (meld r v)) ∧
          ∀ q, q ∉ (Library.Tree.node a l p r).inorder ++ v.inorder → h' q = h q := by
      intro par par' a p l r v hnode hv hvn hnd hsize
      obtain ⟨hn, hl, hr⟩ := hnode
      have hright : (h p).right = r.root 0 := hn.far
      simp only [Tree.inorder, List.append_assoc, List.cons_append] at hnd
      have hperm := meld_perm r v
      obtain ⟨hndl, hndr, hdisj⟩ := List.nodup_append.mp hnd
      obtain ⟨hpr, hndrv⟩ := List.nodup_cons.mp hndr
      obtain ⟨h₁, par₁, hrun, hm, hout⟩ := ih hr hv hndrv hsize
      have hl₁ : Linked treeView 0 h₁ p l := hl.congr fun q hq => hout q fun hq' =>
        hdisj q hq q (List.mem_cons_of_mem _ hq') rfl
      have hp₁ : h₁ p = h p := hout p hpr
      have hmn : meld r v ≠ .nil := by
        intro he
        have := hperm.length_eq
        rw [he, List.length_append] at this
        cases v with
        | nil => exact hvn rfl
        | node =>
          simp only [Tree.inorder, List.length_nil, List.length_append, List.length_cons] at this
          omega
      have hndp : (p :: (l.inorder ++ (meld r v).inorder)).Nodup := by
        refine ((hperm.append_left l.inorder).cons p).nodup_iff.mpr ?_
        exact (List.perm_middle.nodup_iff).mp hnd
      obtain ⟨hgraft, hout'⟩ := attach_linked hn.ne (a := a) (by rw [hp₁]; exact hn.tag)
        (show (h₁ p).root = par by rw [hp₁]; exact hn.parent) (by rw [hp₁]; exact hn.near) hl₁ hm hmn hndp
      refine ⟨_, by rw [hright, hrun, Exec.ok_bind], hgraft, fun q hq => ?_⟩
      simp only [Tree.inorder, List.append_assoc, List.cons_append, List.mem_append, List.mem_cons,
        not_or] at hq
      rw [hout' q (by simp [hq, hperm.mem_iff]), hout q (by simp [hq])]
    cases t with
    | nil => exact ⟨h, par', by simp [shmTreeMerge, meld], by rwa [meld], fun q _ => rfl⟩
    | node a l p r =>
      have hpn : ¬p = 0 := ht.1.ne
      cases u with
      | nil => exact ⟨h, par, by simp [shmTreeMerge, meld, Tree.root, eq_comm], by simpa [meld] using ht, fun q _ => rfl⟩
      | node b l' q r' =>
        have hqn : ¬q = 0 := hu.1.ne
        simp only [Tree.size] at hf
        rw [Tree.root, Tree.root, shmTreeMerge, if_neg hpn, if_neg hqn, meld]
        by_cases hpq : p > q
        · obtain ⟨h', hrun, hlinked, hout⟩ := turn hu ht (by simp)
            (List.perm_append_comm.nodup_iff.mp nd) (by simp only [Tree.size]; omega)
          refine ⟨h', par', ?_, by rw [if_pos hpq]; exact hlinked, fun x hx => hout x fun hx' => ?_⟩
          · rw [if_pos hpq, if_pos hpq, graft_root]
            exact hrun
          · exact hx (List.perm_append_comm.mem_iff.mp hx')
        · obtain ⟨h', hrun, hlinked, hout⟩ := turn ht hu (by simp) nd (by simp only [Tree.size]; omega)
          refine ⟨h', par, ?_, by rw [if_neg hpq]; exact hlinked, hout⟩
          rw [if_neg hpq, if_neg hpq, graft_root]
          exact hrun

theorem shmTreeMerge_null_left (fuel : Nat) (h : TreeHeap) (q : Nat) :
    shmTreeMerge (fuel + 1) h 0 q = .ok (h, q) := by
  rw [shmTreeMerge, if_pos rfl]

theorem shmTreeMerge_null_right (fuel : Nat) (h : TreeHeap) (p : Nat) :
    shmTreeMerge (fuel + 1) h p 0 = .ok (h, p) := by
  by_cases hp : p = 0
  · rw [hp, shmTreeMerge_null_left]
  · rw [shmTreeMerge, if_neg hp, if_pos rfl]

/-- More turns than a merge needs do not change it. -/
theorem shmTreeMerge_mono {fuel fuel' : Nat} {h : TreeHeap} {p q : Nat} {x : TreeHeap × Nat}
    (hrun : shmTreeMerge fuel h p q = .ok x) (hle : fuel ≤ fuel') :
    shmTreeMerge fuel' h p q = .ok x := by
  induction fuel generalizing fuel' h p q x with
  | zero => cases hrun
  | succ fuel ih =>
    obtain ⟨fuel', rfl⟩ : ∃ k, fuel' = k + 1 := ⟨fuel' - 1, by omega⟩
    rw [shmTreeMerge] at hrun ⊢
    by_cases hp : p = 0
    · rwa [if_pos hp] at hrun ⊢
    rw [if_neg hp] at hrun ⊢
    by_cases hq : q = 0
    · rwa [if_pos hq] at hrun ⊢
    rw [if_neg hq] at hrun ⊢
    obtain ⟨y, hmerge, hret⟩ := Exec.bind_ok hrun
    show (shmTreeMerge fuel' _ _ _ >>= _) = _
    rw [ih hmerge (by omega)]
    exact hret

end ShmMalloc
