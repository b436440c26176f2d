import ShmMalloc.Rbtree.Delete
import ShmMalloc.Rbtree.Insert
import Mathlib.Data.List.Sort

/-! Sequences of operations on one tree.

A node that is inserted may hold anything but its own handle: `Op.insert` first
writes the whole cell. `live` is the set the sequence leaves, as a list, and
`sorted` the sorted list that a tree with an ordered comparison refines. -/
namespace ShmMalloc.Rbtree
open Library

inductive Op (P K : Type) where
  | init
  | insert (p : P) (n : Node P K)
  | delete (p : P)

variable {P K : Type} [DecidableEq P] (R : Macros P K)

def Op.apply (s : State P K) : Op P K → Exec (State P K)
  | .init => .ok (Rbtree.init R s.heap)
  | .insert p n => Rbtree.insert R (s.modify p fun _ => n) p
  | .delete p => Rbtree.delete R s p

def run : State P K → List (Op P K) → Exec (State P K)
  | s, [] => .ok s
  | s, op :: ops => do
    let s ← op.apply R s
    run s ops

/-- The nodes in the tree after an operation on one with the nodes `l`. -/
def Op.live (l : List P) : Op P K → List P
  | .init => []
  | .insert p _ => p :: l
  | .delete p => l.erase p

def live (l : List P) (ops : List (Op P K)) : List P := ops.foldl Op.live l

/-- What the callers keep to: no node twice, no node out that is not in. -/
def Op.Legal (l : List P) : Op P K → Prop
  | .init => True
  | .insert p n => p ∉ l ∧ p ≠ R.null ∧ n.s = p
  | .delete p => p ∈ l

def Legal : List P → List (Op P K) → Prop
  | _, [] => True
  | l, op :: ops => op.Legal R l ∧ Legal (op.live l) ops

variable {R}

/-- One operation completes and leaves a red-black tree of the right nodes. -/
theorem Op.apply_holds {s : State P K} {l l' : List P} (h : Holds R s l) (hl : l.Perm l')
    {op : Op P K} (hop : op.Legal R l') :
    ∃ s' k, op.apply R s = .ok s' ∧ Holds R s' k ∧ k.Perm (op.live l') := by
  cases op with
  | init => exact ⟨_, [], rfl, .init s.heap, .nil⟩
  | insert p n =>
    obtain ⟨hp, hn, hs⟩ := hop
    have hpl : p ∉ l := fun hm => hp (hl.mem_iff.mp hm)
    obtain ⟨s', a, b, hrun, rfl, h', -⟩ := insert_holds (h.modify hpl fun _ => n) hpl hn
      (by rw [modify_heap_self]; exact hs)
    exact ⟨s', _, hrun, h', List.perm_middle.trans (hl.cons p)⟩
  | delete p =>
    obtain ⟨s', hrun, h', -⟩ := delete_holds h (hl.mem_iff.mpr hop)
    exact ⟨s', _, hrun, h', hl.erase p⟩

theorem run_holds {s : State P K} {l l' : List P} (h : Holds R s l) (hl : l.Perm l')
    {ops : List (Op P K)} (hops : Legal R l' ops) :
    ∃ s' k, run R s ops = .ok s' ∧ Holds R s' k ∧ k.Perm (live l' ops) := by
  induction ops generalizing s l l' with
  | nil => exact ⟨s, l, rfl, h, hl⟩
  | cons op ops ih =>
    obtain ⟨hop, hops⟩ := hops
    obtain ⟨s₁, k₁, hrun₁, h₁, hk₁⟩ := op.apply_holds h hl hop
    obtain ⟨s', k, hrun, h', hk⟩ := ih h₁ hk₁ hops
    exact ⟨s', k, by rw [run, hrun₁, Exec.ok_bind, hrun], h', hk⟩

/-- **Every sequence of insertions and deletions** completes and leaves a red-black
tree of exactly the nodes inserted and not deleted, whatever the comparison is. -/
theorem run_red_black (h : P → Node P K) {ops : List (Op P K)} (hops : Legal R [] ops) :
    ∃ s t, run R (init R h) ops = .ok s ∧
      s.root = t.root R.null ∧ Linked view R.null s.heap R.null t ∧ t.inorder.Nodup ∧
      t.color = .black ∧ NoRedRed t ∧ (∃ n, ∀ k ∈ blacks t, k = n) ∧
      (∀ p, p ∈ t.inorder ↔ p ∈ live [] ops) ∧ (live [] ops).Nodup ∧
      s.size = (live [] ops).length ∧ t.height ≤ 2 * Nat.log2 (s.size + 1) := by
  obtain ⟨s, l, hrun, hholds, hl⟩ := run_holds (.init h) .nil hops
  have hsize := hholds.size.trans hl.length_eq
  have hnodup := hl.nodup_iff.mp hholds.nodup
  obtain ⟨t, m, hrep, hbal, htsize, rfl⟩ := hholds
  refine ⟨s, t, hrun, hrep.root, hrep.linked, hrep.nodup, hbal.color_eq, hbal.noRedRed,
    ⟨m, hbal.blacks_eq⟩, fun p => hl.mem_iff, hnodup, hsize, ?_⟩
  rw [htsize]
  exact hbal.height_le_log

/-- The macros of the header's test: handles are indices, keys are numbers. -/
def testMacros : Macros Nat Int := ⟨0xffff, fun a b => a - b⟩

def testNode (p : Nat) (v : Int) : Node Nat Int := ⟨p, 0, 0, 0, v, .red⟩

/-- Three insertions, one key twice, and the deletion of an inner node. -/
def testOps : List (Op Nat Int) :=
  [.insert 0 (testNode 0 5), .insert 1 (testNode 1 14), .insert 2 (testNode 2 5), .delete 0]

theorem testOps_legal : Legal testMacros [] testOps := by
  simp [Legal, Op.Legal, Op.live, testOps, testNode, testMacros]

theorem run_red_black_test : Legal testMacros [] testOps ∧
    ∃ s t, run testMacros (init testMacros (testNode · 0)) testOps = .ok s ∧
      s.root = t.root 0xffff ∧ (∃ n, ∀ k ∈ blacks t, k = n) ∧ s.size = 2 := by
  obtain ⟨s, t, hrun, hroot, -, -, -, -, hblacks, -, -, hsize, -⟩ :=
    run_red_black (testNode · 0) testOps_legal
  exact ⟨testOps_legal, s, t, hrun, hroot, hblacks, hsize⟩

/-! ### The loops -/

/-- An insertion into the tree: its loop takes as many iterations as the tree is high, and all
that they dereference exists. -/
theorem Op.insert_turns {s : State P K} {l : List P} {t : Tree P Color} {m : Nat} {p : P} {n : Node P K}
    (hrep : Rep R s t) (hbal : Balanced t .black m) (hsize : s.size = t.size)
    (hl : t.inorder.Perm l) (hop : (Op.insert p n).Legal R l) :
    ∃ ys s', insertTurns R (s.modify p fun _ => n) p = .ok (ys, s') ∧
      (Op.insert p n).apply R s = .ok s' ∧ ys.length ≤ t.height ∧
      ∀ y ∈ ys, InsertSafe R y.1 y.2 := by
  obtain ⟨hp, hn, hs⟩ := hop
  have hpt : p ∉ t.inorder := fun hm => hp (hl.mem_iff.mp hm)
  obtain ⟨ys, s', hrun, hlen, hsafe, -⟩ := insertTurns_holds (hrep.modify hpt fun _ => n) hbal hsize
    hpt hn (by rw [modify_heap_self]; exact hs)
  refine ⟨ys, s', hrun, ?_, hlen, hsafe⟩
  rw [Op.apply, ← insertTurns_snd, hrun]
  rfl

theorem Op.delete_turns {s : State P K} {l : List P} {t : Tree P Color} {m : Nat} {p : P}
    (hrep : Rep R s t) (hbal : Balanced t .black m) (hsize : s.size = t.size)
    (hl : t.inorder.Perm l) (hop : (Op.delete (K := K) p).Legal R l) :
    ∃ ys s', deleteTurns R s p = .ok (ys, s') ∧ (Op.delete p).apply R s = .ok s' ∧
      ys.length ≤ t.height ∧ ∀ y ∈ ys, DeleteSafe R y.1 y.2 := by
  obtain ⟨ys, s', hrun, hlen, hsafe, -⟩ := deleteTurns_holds hrep hbal hsize (hl.mem_iff.mpr hop)
  refine ⟨ys, s', hrun, ?_, hlen, hsafe⟩
  rw [Op.apply, ← deleteTurns_snd, hrun]
  rfl

/-- **In every tree that insertions and deletions lead to** the loop of a next insertion or
deletion ends after at most as many iterations as the tree is high, and never at `RB_NULL`. -/
theorem run_turns (h : P → Node P K) {ops : List (Op P K)} (hops : Legal R [] ops) :
    ∃ s t, run R (init R h) ops = .ok s ∧ Rep R s t ∧
      (∀ p n, (Op.insert p n).Legal R (live [] ops) →
        ∃ ys s', insertTurns R (s.modify p fun _ => n) p = .ok (ys, s') ∧
          (Op.insert p n).apply R s = .ok s' ∧ ys.length ≤ t.height ∧
          ∀ y ∈ ys, InsertSafe R y.1 y.2) ∧
      (∀ p, (Op.delete (K := K) p).Legal R (live [] ops) →
        ∃ ys s', deleteTurns R s p = .ok (ys, s') ∧ (Op.delete p).apply R s = .ok s' ∧
          ys.length ≤ t.height ∧ ∀ y ∈ ys, DeleteSafe R y.1 y.2) := by
  obtain ⟨s, l, hrun, ⟨t, m, hrep, hbal, hsize, rfl⟩, hl⟩ := run_holds (.init h) .nil hops
  exact ⟨s, t, hrun, hrep, fun p n hop => Op.insert_turns hrep hbal hsize hl hop,
    fun p hop => Op.delete_turns hrep hbal hsize hl hop⟩

theorem run_turns_test : Legal testMacros [] testOps ∧
    ∃ s t, run testMacros (init testMacros (testNode · 0)) testOps = .ok s ∧ Rep testMacros s t ∧
      (∃ ys s', insertTurns testMacros (s.modify 0 fun _ => testNode 0 9) 0 = .ok (ys, s') ∧
        ys.length ≤ t.height ∧ ∀ y ∈ ys, InsertSafe testMacros y.1 y.2) ∧
      ∃ ys s', deleteTurns testMacros s 1 = .ok (ys, s') ∧
        ys.length ≤ t.height ∧ ∀ y ∈ ys, DeleteSafe testMacros y.1 y.2 := by
  obtain ⟨s, t, hrun, hrep, hinsert, hdelete⟩ := run_turns (testNode · 0) testOps_legal
  obtain ⟨ys, s₁, hrun₁, -, hlen₁, hsafe₁⟩ := hinsert 0 (testNode 0 9) (by
    simp [Op.Legal, live, Op.live, testOps, testNode, testMacros])
  obtain ⟨zs, s₂, hrun₂, -, hlen₂, hsafe₂⟩ := hdelete 1 (by
    simp [Op.Legal, live, Op.live, testOps])
  exact ⟨testOps_legal, s, t, hrun, hrep, ⟨ys, s₁, hrun₁, hlen₁, hsafe₁⟩, zs, s₂, hrun₂, hlen₂, hsafe₂⟩

/-! ### Sorted lists -/

variable (R)

/-- The nodes with their keys, sorted: a node goes before the first one whose key is not smaller. -/
def Op.sorted (l : List (P × K)) : Op P K → List (P × K)
  | .init => []
  | .insert p n => l.orderedInsert (fun x y => ¬R.compare y.2 x.2 < 0) (p, n.v)
  | .delete p => l.filter fun x => x.1 ≠ p

def sorted (ops : List (Op P K)) : List (P × K) := ops.foldl (Op.sorted R) []

/-- The tree is that of these nodes with these keys, in this order. -/
def Spells (s : State P K) (l : List (P × K)) : Prop :=
  Holds R s (l.map Prod.fst) ∧ ∀ x ∈ l, (s.heap x.1).v = x.2

variable {R} {le : K → K → Prop}

omit [DecidableEq P] in
theorem Spells.ascending {s : State P K} {l : List (P × K)} (h : Spells R s l)
    (ha : l.Pairwise fun x y => le x.2 y.2) : Ascending le s.heap (l.map Prod.fst) := by
  refine List.pairwise_map.mpr (ha.imp_of_mem fun {x y} hx hy hle => ?_)
  rw [h.2 x hx, h.2 y hy]
  exact hle

omit [DecidableEq P] in
/-- The tree that spells a list has its nodes in the list's order. -/
theorem Spells.tree {s : State P K} {l : List (P × K)} (h : Spells R s l) :
    ∃ t, Rep R s t ∧ s.size = t.size ∧ t.inorder = l.map Prod.fst ∧
      t.inorder.map (fun p => (p, (s.heap p).v)) = l := by
  obtain ⟨⟨t, m, hrep, -, hsize, hl⟩, hkey⟩ := h
  refine ⟨t, hrep, hsize, hl, ?_⟩
  rw [hl, List.map_map]
  refine (List.map_congr_left fun x hx => ?_).trans (List.map_id _)
  exact Prod.ext rfl (hkey x hx)

/-- Where an element goes in a list that is split at the right place. -/
theorem orderedInsert_append {α : Type} {r : α → α → Prop} [DecidableRel r] {x : α} {a b : List α}
    (ha : ∀ y ∈ a, ¬r x y) (hb : ∀ y ∈ b.head?, r x y) :
    (a ++ b).orderedInsert r x = a ++ x :: b := by
  induction a with
  | nil =>
    cases b with
    | nil => rfl
    | cons y b => exact List.orderedInsert_cons_of_le r _ (hb y rfl)
  | cons z a ih =>
    rw [List.cons_append, List.orderedInsert_of_not_le _ _ (ha z (List.mem_cons_self ..)),
      ih fun y hy => ha y (List.mem_cons_of_mem _ hy)]
    rfl

/-- One operation does to the tree what it does to the sorted list. -/
theorem Op.apply_spells (hR : Ordered R le) {s : State P K} {l : List (P × K)} {l' : List P}
    (h : Spells R s l) (ha : l.Pairwise fun x y => le x.2 y.2) (hl : (l.map Prod.fst).Perm l')
    {op : Op P K} (hop : op.Legal R l') :
    ∃ s', op.apply R s = .ok s' ∧ Spells R s' (op.sorted R l) ∧
      (op.sorted R l).Pairwise (fun x y => le x.2 y.2) ∧
      ((op.sorted R l).map Prod.fst).Perm (op.live l') := by
  cases op with
  | init => exact ⟨_, rfl, ⟨.init s.heap, by simp [Op.sorted]⟩, .nil, .nil⟩
  | insert p n =>
    obtain ⟨hp, hn, hs⟩ := hop
    have hpl : p ∉ l.map Prod.fst := fun hm => hp (hl.mem_iff.mp hm)
    have hkey : ∀ x ∈ l, ((s.modify p fun _ => n).heap x.1).v = x.2 := by
      intro x hx
      rw [modify_heap_ne, h.2 x hx]
      rintro rfl
      exact hpl (List.mem_map_of_mem hx)
    have ha' : Ascending le (s.modify p fun _ => n).heap (l.map Prod.fst) := by
      refine (h.ascending ha).congr fun q hq => ?_
      rw [modify_heap_ne]
      rintro rfl
      exact hpl hq
    obtain ⟨s', a, b, hrun, hab, h', hk, hbefore, hafter, hasc⟩ := insert_ascending hR
      (h.1.modify hpl fun _ => n) ha' (by simp) trivial hpl hn (by rw [modify_heap_self]; exact hs)
    obtain ⟨a, b, rfl, rfl, rfl⟩ := List.map_eq_append_iff.mp hab
    rw [modify_heap_self] at hbefore hafter
    have hbefore : ∀ x ∈ a, ¬le n.v x.2 := by
      intro x hx
      rw [← hkey x (List.mem_append_left _ hx)]
      exact hbefore x.1 (List.mem_map_of_mem hx)
    have hafter : ∀ x ∈ b, le n.v x.2 := by
      intro x hx
      rw [← hkey x (List.mem_append_right _ hx)]
      exact hafter x.1 (List.mem_map_of_mem hx)
    have hsorted : (Op.insert p n).sorted R (a ++ b) = a ++ (p, n.v) :: b := by
      refine orderedInsert_append (fun x hx => ?_) (fun y hy => ?_)
      · rw [not_not, hR.neg _ _ trivial trivial]
        exact hbefore x hx
      · rw [hR.neg _ _ trivial trivial, not_not]
        exact hafter y (List.mem_of_head? hy)
    rw [hsorted]
    have hspells : Spells R s' (a ++ (p, n.v) :: b) := by
      refine ⟨by rw [List.map_append]; exact h', fun x hx => ?_⟩
      rw [hk.key]
      rcases List.mem_append.mp hx with hx | hx
      · exact hkey x (List.mem_append_left _ hx)
      · rcases List.mem_cons.mp hx with rfl | hx
        · rw [modify_heap_self]
        · exact hkey x (List.mem_append_right _ hx)
    refine ⟨s', hrun, hspells, ?_, ?_⟩
    · have hasc' : ((a ++ (p, n.v) :: b).map Prod.fst).Pairwise fun q r =>
          le (s'.heap q).v (s'.heap r).v := by
        rw [List.map_append]
        exact hasc
      refine (List.pairwise_map.mp hasc').imp_of_mem fun {x y} hx hy hle => ?_
      rwa [hspells.2 x hx, hspells.2 y hy] at hle
    · rw [List.map_append] at hl ⊢
      exact List.perm_middle.trans (hl.cons p)
  | delete p =>
    obtain ⟨s', hrun, h', hk⟩ := delete_holds h.1 (hl.mem_iff.mpr hop)
    have herase : (l.map Prod.fst).erase p = ((Op.delete (K := K) p).sorted R l).map Prod.fst := by
      rw [h.1.nodup.erase_eq_filter, List.filter_map]
      refine congrArg _ (List.filter_congr fun x _ => ?_)
      by_cases hx : x.1 = p <;> simp [hx]
    rw [herase] at h'
    refine ⟨s', hrun, ⟨h', fun x hx => ?_⟩, ha.filter _, herase ▸ hl.erase p⟩
    rw [hk.key]
    exact h.2 x (List.mem_of_mem_filter hx)

theorem run_spells (hR : Ordered R le) {s : State P K} {l : List (P × K)} {l' : List P}
    (h : Spells R s l) (ha : l.Pairwise fun x y => le x.2 y.2) (hl : (l.map Prod.fst).Perm l')
    {ops : List (Op P K)} (hops : Legal R l' ops) :
    ∃ s', run R s ops = .ok s' ∧ Spells R s' (ops.foldl (Op.sorted R) l) ∧
      (ops.foldl (Op.sorted R) l).Pairwise fun x y => le x.2 y.2 := by
  induction ops generalizing s l l' with
  | nil => exact ⟨s, rfl, h, ha⟩
  | cons op ops ih =>
    obtain ⟨hop, hops⟩ := hops
    obtain ⟨s₁, hrun₁, h₁, ha₁, hl₁⟩ := op.apply_spells hR h ha hl hop
    obtain ⟨s', hrun, h', ha'⟩ := ih h₁ ha₁ hl₁ hops
    exact ⟨s', by rw [run, hrun₁, Exec.ok_bind, hrun], h', ha'⟩

/-- **With an ordered comparison** the tree refines the sorted list, its ends are the
ends of the list, and a search finds an equal key when the list has one. -/
theorem run_sorted (hR : Ordered R le) (h : P → Node P K) {ops : List (Op P K)}
    (hops : Legal R [] ops) :
    ∃ s t, run R (init R h) ops = .ok s ∧ Rep R s t ∧
      t.inorder.map (fun p => (p, (s.heap p).v)) = sorted R ops ∧
      (sorted R ops).Pairwise (fun x y => le x.2 y.2) ∧
      min R s = .ok ((sorted R ops).head?.map Prod.fst) ∧
      max R s = .ok ((sorted R ops).getLast?.map Prod.fst) ∧
      ∀ k, ∃ o, find R s k = .ok o ∧
        (∀ q ∈ o, q ∈ t.inorder ∧ R.compare (s.heap q).v k = 0) ∧
        (o = none ↔ ∀ x ∈ sorted R ops, R.compare x.2 k ≠ 0) := by
  obtain ⟨s, hrun, hspells, ha⟩ := run_spells hR (l := []) ⟨.init h, by simp⟩ .nil .nil hops
  obtain ⟨t, hrep, -, hl, hmap⟩ := hspells.tree
  have hmin := endOf_holds hspells.1 .left
  have hmax := endOf_holds hspells.1 .right
  have hfind := fun k => find_holds hR hspells.1 (hspells.ascending ha) (by simp) k trivial
  have hkey := hspells.2
  refine ⟨s, t, hrun, hrep, hmap, ha, ?_, ?_, fun k => ?_⟩
  · rw [← List.head?_map]
    exact hmin
  · rw [← List.getLast?_map]
    exact hmax
  · obtain ⟨o, hrun, hsome, hnone⟩ := hfind k
    refine ⟨o, hrun, fun q hq => ⟨hl ▸ (hsome q hq).1, (hsome q hq).2⟩, fun ho x hx => ?_, fun ho => ?_⟩
    · rw [← hkey x hx]
      exact hnone ho x.1 (List.mem_map_of_mem hx)
    · cases o with
      | none => rfl
      | some q =>
        obtain ⟨hq, h₀⟩ := hsome q rfl
        obtain ⟨x, hx, rfl⟩ := List.mem_map.mp hq
        rw [hkey x hx] at h₀
        exact absurd h₀ (ho x hx)

theorem testMacros_ordered : Ordered testMacros (· ≤ ·) where
  total := Int.le_total
  trans _ _ _ := Int.le_trans
  neg a b _ _ := by
    show a - b < 0 ↔ ¬b ≤ a
    omega
  pos a b _ _ := by
    show 0 < a - b ↔ ¬a ≤ b
    omega

theorem run_sorted_test : Ordered testMacros (· ≤ ·) ∧ Legal testMacros [] testOps ∧
    sorted testMacros testOps = [(2, 5), (1, 14)] ∧
    ∃ (s : State Nat Int) (t : Tree Nat Color), run testMacros (init testMacros (testNode · 0)) testOps = .ok s ∧
      t.inorder.map (fun p => (p, (s.heap p).v)) = sorted testMacros testOps ∧
      min testMacros s = .ok (some 2) ∧ max testMacros s = .ok (some 1) := by
  have hsorted : sorted testMacros testOps = [(2, 5), (1, 14)] := by decide
  obtain ⟨s, t, hrun, -, hl, -, hmin, hmax, -⟩ :=
    run_sorted testMacros_ordered (testNode · 0) testOps_legal
  rw [hsorted] at hmin hmax
  exact ⟨testMacros_ordered, testOps_legal, hsorted, s, t, hrun, hl, hmin, hmax⟩

end ShmMalloc.Rbtree
