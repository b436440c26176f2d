import ShmMalloc.Library.LinkedTree

/-! Paths in a heap of linked cells.

A path is a list of sides to take from a handle on. The cells need not spell out a tree
for that; where they do, every node is at the end of exactly one path from the root. -/
namespace ShmMalloc.Library

section
variable {N P A : Type} [DecidableEq P] (V : View N P A) (null : P)

/-- The handle that a path leads to, `null` if it leads out of the cells. -/
def follow (h : P → N) : P → List Side → P
  | p, [] => p
  | p, d :: path => if p = null then null else follow h (V.child d (h p)) path

variable {V null} {h : P → N}

@[simp] theorem follow_nil (p : P) : follow V null h p [] = p := rfl

@[simp] theorem follow_null (path : List Side) : follow V null h null path = null := by
  cases path with
  | nil => rfl
  | cons d path => exact if_pos rfl

/-- The first step from the root is into a subtree. -/
theorem Linked.follow_join {par p : P} {a : A} {d : Side} {t u : Tree P A}
    (l : Linked V null h par (Tree.join d a t p u)) (path : List Side) :
    follow V null h p (d :: path) = follow V null h (t.root null) path := by
  obtain ⟨n, -, -⟩ := linked_join.mp l
  rw [follow, if_neg n.ne, n.near]

/-- A path from the root stays in the tree. -/
theorem Linked.follow_mem {par p : P} {t : Tree P A} (l : Linked V null h par t) {path : List Side}
    (hf : follow V null h (t.root null) path = p) (hp : p ≠ null) : p ∈ t.inorder := by
  induction path generalizing par t with
  | nil =>
    subst hf
    exact Tree.root_mem null hp
  | cons d path ih =>
    cases t with
    | nil =>
      rw [Tree.root_nil, follow_null] at hf
      exact absurd hf.symm hp
    | node a lt q rt =>
      rw [Tree.node_eq_join] at l hf ⊢
      obtain ⟨t, u, he⟩ := Tree.exists_join d .left a lt q rt
      rw [he] at l hf ⊢
      rw [Tree.root_join, l.follow_join] at hf
      exact (Tree.mem_inorder_join ..).mpr (.inl (ih (linked_join.mp l).2.1 hf))

/-- Every node has a path. -/
theorem Linked.exists_follow {par p : P} {t : Tree P A} (l : Linked V null h par t) (hp : p ∈ t.inorder) :
    ∃ path, follow V null h (t.root null) path = p := by
  induction t generalizing par with
  | nil => cases hp
  | node a lt q rt ihl ihr =>
    have hl : Linked V null h par (Tree.join .left a lt q rt) := l
    have hr : Linked V null h par (Tree.join .right a rt q lt) := l
    rcases (Tree.mem_inorder_join p .left a lt q rt).mp hp with hp | rfl | hp
    · obtain ⟨path, hpath⟩ := ihl (linked_join.mp hl).2.1 hp
      exact ⟨.left :: path, (hl.follow_join path).trans hpath⟩
    · exact ⟨[], rfl⟩
    · obtain ⟨path, hpath⟩ := ihr (linked_join.mp hr).2.1 hp
      exact ⟨.right :: path, (hr.follow_join path).trans hpath⟩

/-- The root is at the end of no other path. -/
theorem Linked.follow_ne_root {par : P} {t : Tree P A} (l : Linked V null h par t) (nd : t.inorder.Nodup)
    (hne : t.root null ≠ null) (d : Side) (path : List Side) :
    follow V null h (t.root null) (d :: path) ≠ t.root null := by
  cases t with
  | nil => exact absurd rfl hne
  | node a lt q rt =>
    rw [Tree.node_eq_join] at l nd hne ⊢
    obtain ⟨t, u, he⟩ := Tree.exists_join d .left a lt q rt
    rw [he] at l nd hne ⊢
    rw [Tree.root_join] at hne ⊢
    rw [l.follow_join]
    intro hf
    exact ((Tree.nodup_join ..).mp nd).2.2.1 ((linked_join.mp l).2.1.follow_mem hf hne)

/-- **A node is at the end of one path**: there is no cycle and no sharing. -/
theorem Linked.follow_inj {par p : P} {t : Tree P A} (l : Linked V null h par t) (nd : t.inorder.Nodup)
    {path path' : List Side} (hf : follow V null h (t.root null) path = p)
    (hf' : follow V null h (t.root null) path' = p) (hp : p ≠ null) : path = path' := by
  induction path generalizing par t path' with
  | nil =>
    subst hf
    cases path' with
    | nil => rfl
    | cons d path' => exact absurd hf' (l.follow_ne_root nd hp d path')
  | cons d path ih =>
    cases path' with
    | nil =>
      subst hf'
      exact absurd hf (l.follow_ne_root nd hp d path)
    | cons d' path' =>
      cases t with
      | nil =>
        rw [Tree.root_nil, follow_null] at hf
        exact absurd hf.symm hp
      | node a lt q rt =>
        rw [Tree.node_eq_join] at l nd hf hf'
        obtain ⟨t, u, he⟩ := Tree.exists_join d .left a lt q rt
        rw [he] at l nd hf hf'
        rw [Tree.root_join] at hf hf'
        rw [l.follow_join] at hf
        obtain ⟨hnt, -, -, -, hdisj⟩ := (Tree.nodup_join ..).mp nd
        have ht := (linked_join.mp l).2.1
        rcases Side.eq_or_other d d' with rfl | rfl
        · rw [l.follow_join] at hf'
          rw [ih ht hnt hf hf']
        · -- the paths part here, and a node is in one subtree only
          have lu : Linked V null h par (Tree.join d.other a u q t) := by rwa [Tree.join_other]
          rw [lu.follow_join] at hf'
          exact absurd ((linked_join.mp l).2.2.follow_mem hf' hp) (hdisj p (ht.follow_mem hf hp))

end

end ShmMalloc.Library
