import ShmMalloc.Rbtree.Links

/-! Reading a tree: its two ends, and the two searches. -/
namespace ShmMalloc.Rbtree
open Library

variable {P K : Type} {R : Macros P K}

/-- On the keys in `S` the sign of the comparison is that of a total preorder. -/
structure OrderedOn (R : Macros P K) (S : K → Prop) (le : K → K → Prop) : Prop where
  total : ∀ a b, le a b ∨ le b a
  trans : ∀ a b c, le a b → le b c → le a c
  neg : ∀ a b, S a → S b → (R.compare a b < 0 ↔ ¬le b a)
  pos : ∀ a b, S a → S b → (0 < R.compare a b ↔ ¬le a b)

/-- The sign of the comparison is that of a total preorder. -/
abbrev Ordered (R : Macros P K) (le : K → K → Prop) : Prop := OrderedOn R (fun _ => True) le

/-- The listed nodes have ascending keys. -/
def Ascending (le : K → K → Prop) (h : P → Node P K) (l : List P) : Prop :=
  l.Pairwise fun p q => le (h p).v (h q).v

theorem Ascending.congr {le : K → K → Prop} {h h' : P → Node P K} {l : List P}
    (ha : Ascending le h l) (e : ∀ q ∈ l, (h' q).v = (h q).v) : Ascending le h' l :=
  ha.imp_of_mem fun {p q} hp hq hle => by rwa [e p hp, e q hq]

variable [DecidableEq P]

/-- The loop to an end of a tree stops at a node with no child on that side, down a
path of that side only. -/
theorem endNode_run {h : P → Node P K} {par : P} {d : Side} {t : Tree P Color} {fuel : Nat}
    (l : Linked view R.null h par t) (ht : t ≠ .nil) (hf : t.height ≤ fuel) :
    ∃ ctx c p u, t = Context.plug ctx (.join d c .nil p u) ∧ (∀ f ∈ ctx, f.side = d) ∧
      endNode R d h fuel (t.root R.null) = .ok p := by
  induction fuel generalizing t par with
  | zero =>
    cases t with
    | nil => exact absurd rfl ht
    | node => simp [Library.Tree.height] at hf
  | succ fuel ih =>
    cases t with
    | nil => exact absurd rfl ht
    | node c lt q rt =>
      obtain ⟨t₁, t₂, hj⟩ := Tree.exists_join d .left c lt q rt
      have hj : Library.Tree.node c lt q rt = .join d c t₁ q t₂ := hj
      rw [hj] at l hf ⊢
      obtain ⟨n, h₁, h₂⟩ := linked_join.mp l
      have e₁ : (h q).child d = t₁.root R.null := n.near
      rw [Tree.root_join, endNode, e₁]
      by_cases hn : t₁ = .nil
      · subst hn
        exact ⟨[], c, q, t₂, rfl, by simp, if_pos rfl⟩
      · have hf₁ : t₁.height ≤ fuel := by
          have : t₁.height + 1 ≤ (Tree.join d c t₁ q t₂).height := by
            cases d <;> simp only [Tree.join, Library.Tree.height] <;> omega
          omega
        obtain ⟨ctx, c', p, u, rfl, hside, hrun⟩ := ih h₁ hn hf₁
        refine ⟨ctx ++ [⟨d, c, q, t₂⟩], c', p, u, by rw [Context.plug_append]; rfl, ?_, ?_⟩
        · intro f hf
          rcases List.mem_append.mp hf with hf | hf
          · exact hside f hf
          · rw [List.mem_singleton.mp hf]
        · rw [if_neg (mt h₁.root_eq_null.mp hn)]
          exact hrun

/-- The element at an end of a list. -/
def listEnd : Side → List P → Option P
  | .left, l => l.head?
  | .right, l => l.getLast?

omit [DecidableEq P] in
/-- Where a path of one side only ends. -/
theorem listEnd_plug {d : Side} {ctx : Context P Color} (hctx : ∀ f ∈ ctx, f.side = d) (c : Color)
    (p : P) (u : Tree P Color) :
    listEnd d (Context.plug ctx (.join d c .nil p u)).inorder = some p := by
  rw [Context.inorder_plug]
  cases d with
  | left => simp [listEnd, Context.before_of_left hctx, Tree.join, Tree.inorder]
  | right => simp [listEnd, Context.after_of_right hctx, Tree.join, Tree.inorder]

/-- `rbtree_min` and `rbtree_max` find the ends of the list. -/
theorem endOf_holds {s : State P K} {l : List P} (h : Holds R s l) (d : Side) :
    endOf R d s = .ok (listEnd d l) := by
  obtain ⟨t, m, hrep, hbal, hsize, rfl⟩ := h
  unfold endOf
  by_cases ht : t = .nil
  · subst ht
    have hroot : s.root = R.null := hrep.root
    rw [if_pos hroot]
    cases d <;> rfl
  · rw [if_neg (by rw [hrep.root]; exact mt hrep.linked.root_eq_null.mp ht), hrep.root]
    obtain ⟨ctx, c, p, u, rfl, hside, hrun⟩ := endNode_run (d := d) hrep.linked ht
      (show t.height ≤ s.size + 1 by have := Tree.height_le_size t; omega)
    rw [hrun, listEnd_plug hside]
    rfl

/-! ### Searching -/

section Find
variable {S : K → Prop} {le : K → K → Prop} (hR : OrderedOn R S le)
include hR

omit [DecidableEq P] in
theorem OrderedOn.refl (a : K) : le a a := (hR.total a a).elim id id

omit [DecidableEq P] in
theorem OrderedOn.zero_iff {a b : K} (ha : S a) (hb : S b) :
    R.compare a b = 0 ↔ le a b ∧ le b a := by
  have h₁ := hR.neg a b ha hb
  have h₂ := hR.pos a b ha hb
  constructor
  · intro h
    rw [h] at h₁ h₂
    simpa using And.intro h₂ h₁
  · rintro ⟨ha, hb⟩
    have := mt h₁.mp (not_not.mpr hb)
    have := mt h₂.mp (not_not.mpr ha)
    omega

/-- The search loop, in a tree whose keys ascend. -/
theorem findLoop_run {h : P → Node P K} {par : P} {t : Tree P Color} {fuel : Nat} {val : K}
    (l : Linked view R.null h par t) (ha : Ascending le h t.inorder)
    (hS : ∀ q ∈ t.inorder, S (h q).v) (hval : S val) (hf : t.height < fuel) :
    ∃ o, findLoop R h val fuel (t.root R.null) = .ok o ∧
      (∀ q ∈ o, q ∈ t.inorder ∧ R.compare (h q).v val = 0) ∧
      (o = none → ∀ q ∈ t.inorder, R.compare (h q).v val ≠ 0) := by
  induction t generalizing par fuel with
  | nil =>
    obtain ⟨fuel, rfl⟩ : ∃ k, fuel = k + 1 := ⟨fuel - 1, by omega⟩
    exact ⟨none, by simp [findLoop], by simp, by simp [Tree.inorder]⟩
  | node c lt p rt ihl ihr =>
    obtain ⟨fuel, rfl⟩ : ∃ k, fuel = k + 1 := ⟨fuel - 1, by omega⟩
    obtain ⟨n, hl, hr⟩ := l
    have e₁ : (h p).left = lt.root R.null := n.near
    have e₂ : (h p).right = rt.root R.null := n.far
    simp only [Library.Tree.height] at hf
    obtain ⟨hal, har, hcross⟩ := List.pairwise_append.mp ha
    obtain ⟨hpr, har⟩ := List.pairwise_cons.mp har
    simp only [Tree.inorder, List.mem_append, List.mem_cons] at hS
    have hSp := hS p (.inr (.inl rfl))
    have hSl := fun q hq => hS q (.inl hq)
    have hSr := fun q hq => hS q (.inr (.inr hq))
    rw [Tree.root, findLoop, if_neg n.ne, e₁, e₂]
    by_cases h₁ : R.compare (h p).v val < 0
    · -- nothing on the left is as large as the key
      obtain ⟨o, hrun, hsome, hnone⟩ := ihr hr har hSr (show rt.height < fuel by omega)
      have hp := (hR.neg _ _ hSp hval).mp h₁
      refine ⟨o, by rw [if_pos h₁, hrun], fun q hq => ?_, fun ho q hq h₀ => ?_⟩
      · obtain ⟨hmem, h₀⟩ := hsome q hq
        exact ⟨by simp [Tree.inorder, hmem], h₀⟩
      · simp only [Tree.inorder, List.mem_append, List.mem_cons] at hq
        have hle := ((hR.zero_iff (hS q hq) hval).mp h₀).2
        rcases hq with hq | rfl | hq
        · exact hp (hR.trans _ _ _ hle (hcross q hq p (List.mem_cons_self ..)))
        · exact hp hle
        · exact hnone ho q hq h₀
    · by_cases h₂ : R.compare (h p).v val > 0
      · obtain ⟨o, hrun, hsome, hnone⟩ := ihl hl hal hSl (show lt.height < fuel by omega)
        have hp := (hR.pos _ _ hSp hval).mp h₂
        refine ⟨o, by rw [if_neg h₁, if_pos h₂, hrun], fun q hq => ?_, fun ho q hq h₀ => ?_⟩
        · obtain ⟨hmem, h₀⟩ := hsome q hq
          exact ⟨by simp [Tree.inorder, hmem], h₀⟩
        · simp only [Tree.inorder, List.mem_append, List.mem_cons] at hq
          have hle := ((hR.zero_iff (hS q hq) hval).mp h₀).1
          rcases hq with hq | rfl | hq
          · exact hnone ho q hq h₀
          · exact hp hle
          · exact hp (hR.trans _ _ _ (hpr q hq) hle)
      · refine ⟨some p, by rw [if_neg h₁, if_neg h₂], fun q hq => ?_, by simp⟩
        obtain rfl := Option.mem_some_iff.mp hq
        exact ⟨by simp [Tree.inorder], by omega⟩

/-- `rbtree_find` finds a node that compares equal when there is one. -/
theorem find_holds {s : State P K} {l : List P} (h : Holds R s l) (ha : Ascending le s.heap l)
    (hS : ∀ q ∈ l, S (s.heap q).v) (val : K) (hval : S val) : ∃ o, find R s val = .ok o ∧
      (∀ q ∈ o, q ∈ l ∧ R.compare (s.heap q).v val = 0) ∧
      (o = none → ∀ q ∈ l, R.compare (s.heap q).v val ≠ 0) := by
  obtain ⟨t, m, hrep, hbal, hsize, rfl⟩ := h
  unfold find
  rw [hrep.root]
  have := Tree.height_le_size t
  exact findLoop_run hR hrep.linked ha hS hval (by omega)

end Find

section Lower
variable {h : P → Node P K} {par : P} {t : Tree P Color} {fuel : Nat} {val : K}

/-- Once a node is not smaller, the descent goes left for as long as that holds. -/
theorem lowerLoop_bigger {q₀ : P} (l : Linked view R.null h par t) (hf : t.height < fuel)
    (hq₀ : ¬R.compare (h q₀).v val < 0) :
    ∃ q, lowerLoop R h val fuel (t.root R.null) (some q₀) true = .ok (some q) ∧
      (q = q₀ ∨ q ∈ t.inorder) ∧ ¬R.compare (h q).v val < 0 ∧
      ((∀ r ∈ t.inorder, ¬R.compare (h r).v val < 0) → some q = t.inorder.head?.or (some q₀)) := by
  induction t generalizing par fuel q₀ with
  | nil =>
    obtain ⟨fuel, rfl⟩ : ∃ k, fuel = k + 1 := ⟨fuel - 1, by omega⟩
    exact ⟨q₀, by simp [lowerLoop], .inl rfl, hq₀, fun _ => rfl⟩
  | node c lt p rt ihl ihr =>
    obtain ⟨fuel, rfl⟩ : ∃ k, fuel = k + 1 := ⟨fuel - 1, by omega⟩
    obtain ⟨n, hl, hr⟩ := l
    have e₁ : (h p).left = lt.root R.null := n.near
    simp only [Library.Tree.height] at hf
    rw [Tree.root, lowerLoop, if_neg n.ne, e₁]
    by_cases hc : R.compare (h p).v val < 0
    · refine ⟨q₀, by rw [if_pos hc, if_pos rfl], .inl rfl, hq₀, fun hall => ?_⟩
      exact absurd hc (hall p (by simp [Tree.inorder]))
    · obtain ⟨q, hrun, hmem, hq, hhead⟩ := ihl hl (show lt.height < fuel by omega) hc
      refine ⟨q, by rw [if_neg hc, hrun], .inr ?_, hq, fun hall => ?_⟩
      · rcases hmem with rfl | hmem <;> simp [Tree.inorder, *]
      · rw [hhead fun r hr => hall r (by simp [Tree.inorder, hr]), Tree.inorder]
        cases lt.inorder <;> rfl

/-- What the descent of `rbtree_lower` returns, whatever the comparison is: a node that
is not smaller, or none when the last node is smaller; and when no node is smaller it is
the first one. -/
theorem lowerLoop_run {prev : Option P} (l : Linked view R.null h par t) (hf : t.height < fuel) :
    ∃ o, lowerLoop R h val fuel (t.root R.null) prev false = .ok o ∧
      (∀ q ∈ o, q ∈ t.inorder ∧ ¬R.compare (h q).v val < 0) ∧
      (o = none → ∀ q ∈ t.inorder.getLast?, R.compare (h q).v val < 0) ∧
      ((∀ r ∈ t.inorder, ¬R.compare (h r).v val < 0) → o = t.inorder.head?) := by
  induction t generalizing par fuel prev with
  | nil =>
    obtain ⟨fuel, rfl⟩ : ∃ k, fuel = k + 1 := ⟨fuel - 1, by omega⟩
    exact ⟨none, by simp [lowerLoop], by simp, by simp [Tree.inorder], by simp [Tree.inorder]⟩
  | node c lt p rt ihl ihr =>
    obtain ⟨fuel, rfl⟩ : ∃ k, fuel = k + 1 := ⟨fuel - 1, by omega⟩
    obtain ⟨n, hl, hr⟩ := l
    have e₁ : (h p).left = lt.root R.null := n.near
    have e₂ : (h p).right = rt.root R.null := n.far
    simp only [Library.Tree.height] at hf
    rw [Tree.root, lowerLoop, if_neg n.ne, e₁, e₂]
    by_cases hc : R.compare (h p).v val < 0
    · obtain ⟨o, hrun, hsome, hnone, -⟩ := ihr hr (show rt.height < fuel by omega)
      refine ⟨o, ?_, fun q hq => ?_, fun ho q hq => ?_, fun hall => ?_⟩
      · rw [if_pos hc, if_neg (by simp), hrun]
      · obtain ⟨hmem, hlt⟩ := hsome q hq
        exact ⟨by simp [Tree.inorder, hmem], hlt⟩
      · rw [Tree.inorder, List.getLast?_append_cons] at hq
        by_cases hn : rt.inorder = []
        · rw [hn] at hq
          obtain rfl : p = q := by simpa using hq
          exact hc
        · obtain ⟨x, xs, hx⟩ := List.exists_cons_of_ne_nil hn
          rw [hx, List.getLast?_cons_cons, ← hx] at hq
          exact hnone ho q hq
      · exact absurd hc (hall p (by simp [Tree.inorder]))
    · obtain ⟨q, hrun, hmem, hq, hhead⟩ := lowerLoop_bigger hl (show lt.height < fuel by omega) hc
      refine ⟨some q, by rw [if_neg hc, hrun], fun r hr => ?_, by simp, fun hall => ?_⟩
      · obtain rfl := Option.mem_some_iff.mp hr
        refine ⟨?_, hq⟩
        rcases hmem with rfl | hmem <;> simp [Tree.inorder, *]
      · rw [hhead fun r hr => hall r (by simp [Tree.inorder, hr]), Tree.inorder]
        cases lt.inorder <;> rfl

end Lower

/-- `rbtree_lower`, whatever the comparison is. -/
theorem lower_holds {s : State P K} {l : List P} (h : Holds R s l) (val : K) :
    ∃ o, lower R s val = .ok o ∧
      (∀ q ∈ o, q ∈ l ∧ ¬R.compare (s.heap q).v val < 0) ∧
      (o = none → ∀ q ∈ l.getLast?, R.compare (s.heap q).v val < 0) ∧
      ((∀ r ∈ l, ¬R.compare (s.heap r).v val < 0) → o = l.head?) := by
  obtain ⟨t, m, hrep, hbal, hsize, rfl⟩ := h
  unfold lower
  rw [hrep.root]
  have := Tree.height_le_size t
  exact lowerLoop_run hrep.linked (by omega)

end ShmMalloc.Rbtree
