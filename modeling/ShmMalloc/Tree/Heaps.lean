import ShmMalloc.Tree.Leftist
import ShmMalloc.Tree.Ordered

/-! The merge of two leftist heaps, with all that `shm_tree.h` asks of one at once.

The node set, the links, the order and the ranks of the merged heap are those of `meld`,
each shown where it belongs; a merge that is given what it needs of the two heaps gives
it back of the merged one. -/
namespace ShmMalloc
open Library

/-- The nodes that the links from `root` on spell out, each with a position before those of its
children, the rank that its children give it, and, if it is not the root, a link to its
parent. -/
structure LeftistHeap (h : TreeHeap) (root : Nat) (t : Tree Nat Nat) : Prop where
  linked : ∃ par, Linked treeView 0 h par t
  root : root = t.root 0
  nodup : t.inorder.Nodup
  ordered : t.HeapOrdered
  ranks : ∀ p ∈ t.inorder, LeftistAt h p
  bound : ∀ p ∈ t.inorder, p < 2 ^ 64

/-- The smaller of the two roots is on top. -/
theorem meld_root {t u : Tree Nat Nat} (ht : t ≠ .nil) (hu : u ≠ .nil) :
    (meld t u).root 0 = min (t.root 0) (u.root 0) := by
  cases t with
  | nil => exact absurd rfl ht
  | node a l p r =>
    cases u with
    | nil => exact absurd rfl hu
    | node b l' q r' =>
      rw [meld, Tree.root, Tree.root]
      split
      · rw [graft_root]
        omega
      · rw [graft_root]
        omega

/-- **The merge of two leftist heaps** without common nodes returns a leftist heap of the nodes
of both, with the smaller root on top, whatever number of turns above that of the nodes it
may take. An absent heap leaves the other one as it is. -/
theorem shmTreeMerge_leftist {h : TreeHeap} {p q : Nat} {t u : Tree Nat Nat}
    (ht : LeftistHeap h p t) (hu : LeftistHeap h q u) (hd : ∀ x ∈ t.inorder, x ∉ u.inorder) :
    ∃ h' r v, (∀ fuel, t.size + u.size < fuel → shmTreeMerge fuel h p q = .ok (h', r)) ∧
      LeftistHeap h' r v ∧ v.inorder.Perm (t.inorder ++ u.inorder) ∧
      (p ≠ 0 → q ≠ 0 → r = min p q) ∧ (p = 0 → h' = h ∧ r = q) ∧ (q = 0 → h' = h ∧ r = p) ∧
      ∀ x, x ∉ t.inorder ++ u.inorder → h' x = h x := by
  obtain ⟨par, hlt⟩ := ht.linked
  obtain ⟨par', hlu⟩ := hu.linked
  have hperm := meld_perm t u
  have hnd : (t.inorder ++ u.inorder).Nodup :=
    List.nodup_append.mpr ⟨ht.nodup, hu.nodup, fun x hx y hy e => hd x hx (e ▸ hy)⟩
  have hbound : ∀ x ∈ t.inorder ++ u.inorder, x < 2 ^ 64 := fun x hx =>
    (List.mem_append.mp hx).elim (ht.bound x) (hu.bound x)
  have hsize : t.size + u.size ≤ 2 ^ 64 := by
    have := length_le_of_lt hnd hbound
    rwa [List.length_append, Tree.size_inorder, Tree.size_inorder] at this
  obtain ⟨h', par'', hrun, hlinked, hout⟩ := shmTreeMerge_linked hlt hlu hnd (Nat.lt_succ_self _)
  rw [← ht.root, ← hu.root] at hrun
  have hleft := (meld_leftist ((leftist_iff hlt).mpr ht.ranks) ((leftist_iff hlu).mpr hu.ranks) hsize).1
  have hnull : ∀ {x : TreeHeap × Nat}, shmTreeMerge (t.size + u.size + 1) h p q = .ok x →
      x = (h', (meld t u).root 0) := fun hx => Except.ok.inj (hx.symm.trans hrun)
  refine ⟨h', _, meld t u, fun fuel hf => shmTreeMerge_mono hrun hf, ⟨⟨par'', hlinked⟩, rfl,
    hperm.nodup_iff.mpr hnd, meld_ordered ht.ordered hu.ordered hnd, (leftist_iff hlinked).mp hleft,
    fun x hx => hbound x (hperm.mem_iff.mp hx)⟩, hperm, fun hp hq => ?_, fun hp => ?_, fun hq => ?_, hout⟩
  · rw [ht.root, hu.root] at *
    exact meld_root (mt hlt.root_eq_null.mpr hp) (mt hlu.root_eq_null.mpr hq)
  · obtain ⟨rfl, hr⟩ := Prod.mk.inj (hnull (by rw [hp, shmTreeMerge_null_left]))
    exact ⟨rfl, hr.symm⟩
  · obtain ⟨rfl, hr⟩ := Prod.mk.inj (hnull (by rw [hq, shmTreeMerge_null_right]))
    exact ⟨rfl, hr.symm⟩

/-- A heap of two nodes, and one of one node between them. -/
def twoHeaps : TreeHeap
  | 4096 => ⟨0, 0, 12288, 0⟩
  | 8192 => ⟨0, 0, 0, 0⟩
  | 12288 => ⟨0, 4096, 0, 0⟩
  | _ => ⟨0, 0, 0, 0⟩

theorem twoHeaps_pair : LeftistHeap twoHeaps 4096 (.node 0 (.node 0 .nil 12288 .nil) 4096 .nil) where
  linked := ⟨0, ⟨by decide, trivial, rfl, rfl, rfl, rfl⟩,
    ⟨⟨by decide, trivial, rfl, rfl, rfl, rfl⟩, trivial, trivial⟩, trivial⟩
  root := rfl
  nodup := by decide
  ordered := by simp [Tree.HeapOrdered, Tree.Under]
  ranks := by decide
  bound := by decide

theorem twoHeaps_single : LeftistHeap twoHeaps 8192 (.node 0 .nil 8192 .nil) where
  linked := ⟨0, ⟨by decide, trivial, rfl, rfl, rfl, rfl⟩, trivial, trivial⟩
  root := rfl
  nodup := by decide
  ordered := by simp [Tree.HeapOrdered, Tree.Under]
  ranks := by decide
  bound := by decide

theorem shmTreeMerge_leftist_two : ∃ h' v, shmTreeMerge 4 twoHeaps 8192 4096 = .ok (h', 4096) ∧
    LeftistHeap h' 4096 v ∧ v.inorder.Perm [8192, 12288, 4096] := by
  obtain ⟨h', r, v, hrun, hheap, hperm, hroot, -⟩ :=
    shmTreeMerge_leftist twoHeaps_single twoHeaps_pair (by decide)
  obtain rfl : r = 4096 := hroot (by decide) (by decide)
  exact ⟨h', v, hrun 4 (by decide), hheap, hperm⟩

end ShmMalloc
