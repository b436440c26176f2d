import ShmMalloc.Library.HeapTree
import ShmMalloc.Tree.Pool

/-! A pool as a priority queue by position: its root is the least node, and it still is
when a node has gone from the middle.

The merge swaps so that the smaller of the two roots is on top, and what it hangs below
that one came from below it or from the other tree. The ranks only decide on which side
it hangs. -/
namespace ShmMalloc
open Library

theorem graft_under {a p q : Nat} {l m : Tree Nat Nat} (h : q < p) : (graft a l p m).Under q := by
  unfold graft
  split
  · exact h
  · split <;> exact h

theorem graft_ordered {a p : Nat} {l m : Tree Nat Nat} (hl : l.Under p) (hm : m.Under p)
    (hol : l.HeapOrdered) (hom : m.HeapOrdered) : (graft a l p m).HeapOrdered := by
  unfold graft
  split
  · exact ⟨hm, trivial, hom, trivial⟩
  · split
    · exact ⟨hm, hl, hom, hol⟩
    · exact ⟨hl, hm, hol, hom⟩

/-- The merged tree may hang where both could. -/
theorem meld_under {p : Nat} {t u : Tree Nat Nat} (ht : t.Under p) (hu : u.Under p) :
    (meld t u).Under p := by
  cases t with
  | nil => rwa [meld]
  | node a l x r =>
    cases u with
    | nil => rwa [meld]; simp
    | node b l' y r' =>
      rw [meld]
      by_cases hxy : x > y
      · rw [if_pos hxy]
        exact graft_under hu
      · rw [if_neg hxy]
        exact graft_under ht

/-- The merged tree is ordered when both are. -/
theorem meld_ordered {t u : Tree Nat Nat} (ht : t.HeapOrdered) (hu : u.HeapOrdered)
    (nd : (t.inorder ++ u.inorder).Nodup) : (meld t u).HeapOrdered := by
  induction t, u using meld.induct with
  | case1 u => rwa [meld]
  | case2 t ht' => cases t <;> simpa [meld] using ht
  | case3 a l p r b l' q r' hpq ih =>
    obtain ⟨hl, hr, hol, hor⟩ := id hu
    rw [meld, if_pos hpq]
    refine graft_ordered hl (meld_under hr hpq) hol (ih hor ht ?_)
    refine (List.perm_append_comm.nodup_iff.mp nd).sublist ?_
    exact List.Sublist.append_right
      ((List.sublist_cons_self ..).trans (List.sublist_append_right ..)) _
  | case4 a l p r b l' q r' hpq ih =>
    obtain ⟨hl, hr, hol, hor⟩ := id ht
    have hne : p ≠ q := fun he => (List.nodup_append.mp nd).2.2 p
      (List.mem_append_right _ (List.mem_cons_self ..)) q
      (List.mem_append_right _ (List.mem_cons_self ..)) he
    have hlt : p < q := by omega
    rw [meld, if_neg hpq]
    refine graft_ordered hl (meld_under hr hlt) hol (ih hor hu (nd.sublist ?_))
    exact List.Sublist.append_right
      ((List.sublist_cons_self ..).trans (List.sublist_append_right ..)) _

/-- The pool is a heap-ordered tree, whatever ranks its nodes store. -/
structure HeapPool (h : TreeHeap) (pool : ShmPool) (t : Tree Nat Nat) : Prop extends
    PoolRep h pool t where
  ordered : t.HeapOrdered

/-- The root of an ordered pool is its least node. -/
theorem HeapPool.root_least {h : TreeHeap} {pool : ShmPool} {t : Tree Nat Nat}
    (hp : HeapPool h pool t) :
    (t = .nil → pool.root = 0) ∧
      (t ≠ .nil → pool.root ∈ t.inorder ∧ ∀ q ∈ t.inorder, pool.root ≤ q) := by
  obtain ⟨par, hl⟩ := hp.linked
  rw [hp.root]
  refine ⟨hl.root_eq_null.mpr, fun ht => ⟨Tree.root_mem 0 (mt hl.root_eq_null.mp ht), fun q hq => ?_⟩⟩
  exact hp.ordered.root_le hq

/-- **A node removed at any depth** leaves an ordered pool of exactly the other nodes, one
fewer by the count, and with the least of them at the root; no other cell is written. The
ranks need not be right for it. -/
theorem shmTreeRemove_ordered {h : TreeHeap} {pool : ShmPool} {t : Tree Nat Nat} {node fuel : Nat}
    (hp : HeapPool h pool t) (hsize : pool.size < 2 ^ 32) (hnode : node ∈ t.inorder)
    (hfuel : t.size ≤ fuel) :
    ∃ h' pool' t', shmTreeRemoveWith fuel h pool node = .ok (h', pool') ∧
      HeapPool h' pool' t' ∧ t'.inorder.Perm (t.inorder.erase node) ∧
      pool'.size + 1 = pool.size ∧
      (t.inorder.erase node = [] → pool'.root = 0) ∧
      (t.inorder.erase node ≠ [] →
        pool'.root ∈ t.inorder.erase node ∧ ∀ q ∈ t.inorder.erase node, pool'.root ≤ q) ∧
      ∀ q, q ∉ t.inorder → h' q = h q := by
  obtain ⟨ctx, a, l, r, rfl⟩ := Tree.focus hnode
  obtain ⟨par, hl⟩ := hp.linked
  have hcount := hp.size
  rw [Context.size_plug, Tree.size] at hcount hfuel
  obtain ⟨h', par', hrun, hlinked, hout⟩ := shmTreeRemoveWith_run fuel hl hp.nodup hp.root
    hsize (fun _ => by omega) (by omega)
  have hperm := plug_meld_perm hp.nodup
  have hsub := hp.ordered.of_plug
  obtain ⟨hul, hur, hol, hor⟩ := id hsub
  have hin := ((Context.nodup_plug _ _).mp hp.nodup).1
  have hmeld : (meld l r).HeapOrdered :=
    meld_ordered hol hor (List.nodup_cons.mp (List.perm_middle.nodup_iff.mp hin)).2
  have hordered : (Context.plug ctx (meld l r)).HeapOrdered := by
    refine hp.ordered.plug_replace hmeld fun p hp => meld_under ?_ ?_
    · cases l with
      | nil => trivial
      | node => exact Nat.lt_trans hp hul
    · cases r with
      | nil => trivial
      | node => exact Nat.lt_trans hp hur
  have hpool : HeapPool h' ⟨(Context.plug ctx (meld l r)).root 0, (pool.size + 2 ^ 32 - 1) % 2 ^ 32⟩
      (Context.plug ctx (meld l r)) := by
    refine ⟨⟨⟨par', hlinked⟩, rfl, ?_, hperm.nodup_iff.mpr (hp.nodup.erase _)⟩, hordered⟩
    show (pool.size + 2 ^ 32 - 1) % 2 ^ 32 = _
    rw [Context.size_plug, meld_size]
    omega
  have hempty : Context.plug ctx (meld l r) = .nil ↔
      (Context.plug ctx (.node a l node r)).inorder.erase node = [] := by
    rw [← List.length_eq_zero_iff, ← hperm.length_eq, Tree.size_inorder]
    cases Context.plug ctx (meld l r) <;> simp [Tree.size]
  obtain ⟨hnil, hleast⟩ := hpool.root_least
  refine ⟨h', _, _, hrun, hpool, hperm, ?_, fun he => hnil (hempty.mpr he), fun hne => ?_, hout⟩
  · show (pool.size + 2 ^ 32 - 1) % 2 ^ 32 + 1 = pool.size
    omega
  · obtain ⟨hmem, hle⟩ := hleast (mt hempty.mp hne)
    exact ⟨hperm.mem_iff.mp hmem, fun q hq => hle q (hperm.mem_iff.mpr hq)⟩

/-- Four nodes with no rank right: the root, its left child, and the two children of that one. -/
def chainHeap : TreeHeap
  | 1 => ⟨7, 0, 2, 0⟩
  | 2 => ⟨0, 1, 4, 3⟩
  | 3 => ⟨9, 2, 0, 0⟩
  | 4 => ⟨5, 2, 0, 0⟩
  | _ => ⟨0, 0, 0, 0⟩

def chainTree : Tree Nat Nat :=
  .node 7 (.node 0 (.node 5 .nil 4 .nil) 2 (.node 9 .nil 3 .nil)) 1 .nil

theorem chainPool_heap : HeapPool chainHeap ⟨1, 4⟩ chainTree where
  linked := by
    refine ⟨0, ⟨by decide, trivial, rfl, rfl, rfl, rfl⟩, ⟨⟨by decide, trivial, rfl, rfl, rfl, rfl⟩,
      ⟨⟨by decide, trivial, rfl, rfl, rfl, rfl⟩, trivial, trivial⟩,
      ⟨⟨by decide, trivial, rfl, rfl, rfl, rfl⟩, trivial, trivial⟩⟩, trivial⟩
  root := rfl
  size := rfl
  nodup := by decide
  ordered := by simp [chainTree, Tree.HeapOrdered, Tree.Under]

theorem shmTreeRemove_ordered_chain :
    HeapPool chainHeap ⟨1, 4⟩ chainTree ∧ 2 ∈ chainTree.inorder ∧
    ∃ h' pool' t', shmTreeRemoveWith 4 chainHeap ⟨1, 4⟩ 2 = .ok (h', pool') ∧
      HeapPool h' pool' t' ∧ t'.inorder.Perm [4, 3, 1] ∧ pool'.size = 3 := by
  obtain ⟨h', pool', t', hrun, hpool, hperm, hsize, -⟩ := @shmTreeRemove_ordered _ _ _ 2 4
    chainPool_heap (by decide) (by decide) (by decide)
  exact ⟨chainPool_heap, by decide, h', pool', t', hrun, hpool, hperm, Nat.succ.inj hsize⟩

end ShmMalloc
