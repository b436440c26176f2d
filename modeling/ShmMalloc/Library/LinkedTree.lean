import Mathlib.Logic.Function.Basic
import Mathlib.Data.List.Nodup
import Mathlib.Tactic.Common

/-! Binary trees that live in a heap, linked by handles.

A heap cell holds the handles of its two children and of its parent, and a tag
(a colour, a rank). `Linked` says that the cells of a heap spell out a given
tree; a `Context` is such a tree with a hole, so that an in-place algorithm that
works at one node is read as a change of the tree in the hole. The lemmas are the
frame rules of that reading: what a write outside a tree leaves alone, how a
subtree gets another parent, and how a hole gets another subtree. -/
namespace ShmMalloc.Library

inductive Side where
  | left
  | right
  deriving DecidableEq, Repr

def Side.other : Side → Side
  | .left => .right
  | .right => .left

@[simp] theorem Side.other_other (d : Side) : d.other.other = d := by cases d <;> rfl

@[simp] theorem Side.other_ne (d : Side) : d.other ≠ d := by cases d <;> decide

@[simp] theorem Side.ne_other (d : Side) : d ≠ d.other := by cases d <;> decide

theorem Side.eq_or_other (d e : Side) : e = d ∨ e = d.other := by cases d <;> cases e <;> decide

inductive Tree (P A : Type) where
  | nil : Tree P A
  | node (tag : A) (left : Tree P A) (handle : P) (right : Tree P A) : Tree P A
  deriving DecidableEq, Repr

namespace Tree
variable {P A : Type}

/-- A node given by the subtree on side `d` and the one on the other side. -/
def join : Side → A → Tree P A → P → Tree P A → Tree P A
  | .left, a, t, p, u => .node a t p u
  | .right, a, t, p, u => .node a u p t

theorem node_eq_join (a : A) (l : Tree P A) (p : P) (r : Tree P A) :
    node a l p r = join .left a l p r := rfl

theorem join_other (d : Side) (a : A) (t : Tree P A) (p : P) (u : Tree P A) :
    join d.other a t p u = join d a u p t := by cases d <;> rfl

theorem exists_join (d e : Side) (a : A) (t : Tree P A) (p : P) (u : Tree P A) :
    ∃ t' u', join e a t p u = join d a t' p u' := by
  cases d <;> cases e <;> exact ⟨_, _, rfl⟩

def inorder : Tree P A → List P
  | nil => []
  | node _ l p r => l.inorder ++ p :: r.inorder

def size : Tree P A → Nat
  | nil => 0
  | node _ l _ r => l.size + r.size + 1

def height : Tree P A → Nat
  | nil => 0
  | node _ l _ r => max l.height r.height + 1

/-- The handle by which a tree is entered, `null` for the empty one. -/
def root (null : P) : Tree P A → P
  | nil => null
  | node _ _ p _ => p

@[simp] theorem root_nil (null : P) : (nil : Tree P A).root null = null := rfl

@[simp] theorem root_join (null : P) (d : Side) (a : A) (t : Tree P A) (p : P) (u : Tree P A) :
    (join d a t p u).root null = p := by cases d <;> rfl

theorem size_inorder (t : Tree P A) : t.inorder.length = t.size := by
  induction t with
  | nil => rfl
  | node _ l _ r ihl ihr =>
    simp only [inorder, size, List.length_append, List.length_cons, ihl, ihr]
    omega

theorem height_le_size (t : Tree P A) : t.height ≤ t.size := by
  induction t with
  | nil => simp [height, size]
  | node _ l _ r ihl ihr =>
    simp only [height, size]
    omega

theorem join_ne_nil (d : Side) (a : A) (t : Tree P A) (p : P) (u : Tree P A) :
    join d a t p u ≠ nil := by
  cases d <;> exact fun h => by cases h

theorem mem_inorder_join (q : P) (d : Side) (a : A) (t : Tree P A) (p : P) (u : Tree P A) :
    q ∈ (join d a t p u).inorder ↔ q ∈ t.inorder ∨ q = p ∨ q ∈ u.inorder := by
  cases d
  · simp [join, inorder]
  · simp only [join, inorder, List.mem_append, List.mem_cons]
    tauto

theorem nodup_join (d : Side) (a : A) (t : Tree P A) (p : P) (u : Tree P A) :
    (join d a t p u).inorder.Nodup ↔ t.inorder.Nodup ∧ u.inorder.Nodup ∧ p ∉ t.inorder ∧
      p ∉ u.inorder ∧ ∀ q ∈ t.inorder, q ∉ u.inorder := by
  cases d
  all_goals
    simp only [join, inorder, List.nodup_append, List.nodup_cons, List.mem_cons]
    grind

theorem root_mem (null : P) {t : Tree P A} (h : t.root null ≠ null) :
    t.root null ∈ t.inorder := by
  cases t with
  | nil => exact absurd rfl h
  | node => simp [root, inorder]

end Tree

/-! ### Trees with a hole -/

/-- One step from a hole to the root: the side the hole is on, and the node it hangs from. -/
structure Frame (P A : Type) where
  side : Side
  tag : A
  handle : P
  sibling : Tree P A

def Frame.fill {P A : Type} (f : Frame P A) (t : Tree P A) : Tree P A :=
  Tree.join f.side f.tag t f.handle f.sibling

/-- The frames from a hole up to the root. -/
abbrev Context (P A : Type) := List (Frame P A)

namespace Context
variable {P A : Type}

def plug : Context P A → Tree P A → Tree P A
  | [], t => t
  | f :: rest, t => plug rest (f.fill t)

/-- The handles before the hole, in order. -/
def before : Context P A → List P
  | [] => []
  | f :: rest => before rest ++ (match f.side with
    | .left => []
    | .right => f.sibling.inorder ++ [f.handle])

/-- The handles after the hole, in order. -/
def after : Context P A → List P
  | [] => []
  | f :: rest => (match f.side with
    | .left => f.handle :: f.sibling.inorder
    | .right => []) ++ after rest

/-- The handle a tree in the hole has for its parent. -/
def parent (par : P) : Context P A → P
  | [] => par
  | f :: _ => f.handle

@[simp] theorem plug_nil (t : Tree P A) : plug [] t = t := rfl

@[simp] theorem plug_cons (f : Frame P A) (c : Context P A) (t : Tree P A) :
    plug (f :: c) t = plug c (f.fill t) := rfl

@[simp] theorem parent_nil (par : P) : parent par ([] : Context P A) = par := rfl

@[simp] theorem parent_cons (par : P) (f : Frame P A) (c : Context P A) :
    parent par (f :: c) = f.handle := rfl

/-- A subtree with its parent, seen as a hole on the near side. -/
theorem plug_near (c : Context P A) (d : Side) (a : A) (t : Tree P A) (p : P) (u : Tree P A) :
    plug (⟨d, a, p, u⟩ :: c) t = plug c (Tree.join d a t p u) := rfl

/-- A subtree with its parent, seen as a hole on the far side. -/
theorem plug_far (c : Context P A) (d : Side) (a : A) (t : Tree P A) (p : P) (u : Tree P A) :
    plug (⟨d.other, a, p, t⟩ :: c) u = plug c (Tree.join d a t p u) := by
  rw [plug_near, Tree.join_other]

theorem plug_append (a b : Context P A) (t : Tree P A) : plug (a ++ b) t = plug b (plug a t) := by
  induction a generalizing t with
  | nil => rfl
  | cons f rest ih => exact ih _

theorem parent_append (par : P) (a b : Context P A) :
    parent par (a ++ b) = parent (parent par b) a := by cases a <;> rfl

/-- Nothing is before a hole reached by going left only. -/
theorem before_of_left {c : Context P A} (h : ∀ f ∈ c, f.side = .left) : before c = [] := by
  induction c with
  | nil => rfl
  | cons f rest ih =>
    simp [before, ih fun g hg => h g (List.mem_cons_of_mem _ hg), h f (List.mem_cons_self ..)]

theorem after_of_right {c : Context P A} (h : ∀ f ∈ c, f.side = .right) : after c = [] := by
  induction c with
  | nil => rfl
  | cons f rest ih =>
    simp [after, ih fun g hg => h g (List.mem_cons_of_mem _ hg), h f (List.mem_cons_self ..)]

theorem inorder_plug (c : Context P A) (t : Tree P A) :
    (plug c t).inorder = before c ++ t.inorder ++ after c := by
  induction c generalizing t with
  | nil => simp [before, after]
  | cons f rest ih =>
    rw [plug_cons, ih]
    cases hs : f.side <;> simp [before, after, Frame.fill, Tree.join, Tree.inorder, hs]

theorem size_plug (c : Context P A) (t : Tree P A) :
    (plug c t).size = (before c).length + t.size + (after c).length := by
  rw [← Tree.size_inorder, inorder_plug, ← Tree.size_inorder]
  simp only [List.length_append]

theorem length_le_size (c : Context P A) (t : Tree P A) : c.length + t.height ≤ (plug c t).height := by
  induction c generalizing t with
  | nil => simp
  | cons f rest ih =>
    have := ih (f.fill t)
    have : t.height + 1 ≤ (f.fill t).height := by
      unfold Frame.fill
      cases f.side <;> simp only [Tree.join, Tree.height] <;> omega
    simp only [List.length_cons, plug_cons]
    omega

/-- The handles outside the hole. -/
def handles (c : Context P A) : List P := before c ++ after c

theorem mem_handles_cons (q : P) (f : Frame P A) (c : Context P A) :
    q ∈ handles (f :: c) ↔ q = f.handle ∨ q ∈ f.sibling.inorder ∨ q ∈ handles c := by
  cases hs : f.side <;> simp [handles, before, after, hs] <;> tauto

theorem mem_plug (q : P) (c : Context P A) (t : Tree P A) :
    q ∈ (plug c t).inorder ↔ q ∈ t.inorder ∨ q ∈ handles c := by
  simp [inorder_plug, handles]
  tauto

theorem nodup_plug (c : Context P A) (t : Tree P A) :
    (plug c t).inorder.Nodup ↔
      t.inorder.Nodup ∧ (handles c).Nodup ∧ ∀ q ∈ t.inorder, q ∉ handles c := by
  simp only [inorder_plug, handles, List.nodup_append, List.mem_append]
  grind

theorem nodup_handles_cons (f : Frame P A) (c : Context P A) :
    (handles (f :: c)).Nodup ↔ f.sibling.inorder.Nodup ∧ (handles c).Nodup ∧
      f.handle ∉ f.sibling.inorder ∧ f.handle ∉ handles c ∧
      ∀ q ∈ f.sibling.inorder, q ∉ handles c := by
  cases hs : f.side <;>
    simp only [handles, before, after, hs, List.nodup_append, List.mem_append, List.nodup_cons,
      List.append_nil, List.nil_append, List.mem_cons, List.cons_append] <;>
    grind

end Context

/-! ### Trees in a heap -/

/-- What a heap cell says about its place in a tree. -/
structure View (N P A : Type) where
  child : Side → N → P
  parent : N → P
  tag : N → A
  /-- What a cell owes to be the one with the given handle. -/
  own : P → N → Prop

section Linked
variable {N P A : Type} (V : View N P A) (null : P)

/-- The cell at `p` is a node with this tag, this parent, and these children on
side `d` and on the other. -/
structure IsNode (h : P → N) (par p : P) (a : A) (d : Side) (q u : P) : Prop where
  ne : p ≠ null
  own : V.own p (h p)
  tag : V.tag (h p) = a
  parent : V.parent (h p) = par
  near : V.child d (h p) = q
  far : V.child d.other (h p) = u

/-- The heap spells out the tree, whose root has the parent `par`. -/
def Linked (h : P → N) : P → Tree P A → Prop
  | _, .nil => True
  | par, .node a l p r =>
    IsNode V null h par p a .left (l.root null) (r.root null) ∧ Linked h p l ∧ Linked h p r

/-- The heap spells out the context, with `q` in its hole. -/
def LinkedContext (h : P → N) (par : P) : Context P A → P → Prop
  | [], _ => True
  | f :: rest, q =>
    IsNode V null h (Context.parent par rest) f.handle f.tag f.side q (f.sibling.root null) ∧
      Linked V null h f.handle f.sibling ∧ LinkedContext h par rest f.handle

variable {V null}

theorem IsNode.flip {h : P → N} {par p : P} {a : A} {d : Side} {q u : P}
    (n : IsNode V null h par p a d q u) : IsNode V null h par p a d.other u q :=
  ⟨n.ne, n.own, n.tag, n.parent, n.far, by rw [Side.other_other]; exact n.near⟩

theorem IsNode.congr {h h' : P → N} {par p : P} {a : A} {d : Side} {q u : P}
    (n : IsNode V null h par p a d q u) (e : h' p = h p) : IsNode V null h' par p a d q u :=
  ⟨n.ne, by rw [e]; exact n.own, by rw [e]; exact n.tag, by rw [e]; exact n.parent,
    by rw [e]; exact n.near, by rw [e]; exact n.far⟩

theorem linked_join {h : P → N} {par p : P} {a : A} {d : Side} {t u : Tree P A} :
    Linked V null h par (Tree.join d a t p u) ↔
      IsNode V null h par p a d (t.root null) (u.root null) ∧ Linked V null h p t ∧
        Linked V null h p u := by
  cases d with
  | left => rfl
  | right =>
    constructor
    · rintro ⟨n, hu, ht⟩
      exact ⟨n.flip, ht, hu⟩
    · rintro ⟨n, ht, hu⟩
      exact ⟨n.flip, hu, ht⟩

/-- Writes outside a tree leave it alone. -/
theorem Linked.congr {h h' : P → N} {par : P} {t : Tree P A} (l : Linked V null h par t)
    (e : ∀ p ∈ t.inorder, h' p = h p) : Linked V null h' par t := by
  induction t generalizing par with
  | nil => trivial
  | node a lt p rt ihl ihr =>
    obtain ⟨n, hl, hr⟩ := l
    refine ⟨n.congr (e p (by simp [Tree.inorder])), ihl hl fun q hq => e q ?_, ihr hr fun q hq => e q ?_⟩
    · simp [Tree.inorder, hq]
    · simp [Tree.inorder, hq]

theorem Linked.root_ne {h : P → N} {par : P} {t : Tree P A} (l : Linked V null h par t)
    {p : P} (hp : p ∈ t.inorder) : p ≠ null := by
  induction t generalizing par with
  | nil => simp [Tree.inorder] at hp
  | node a lt q rt ihl ihr =>
    obtain ⟨n, hl, hr⟩ := l
    simp only [Tree.inorder, List.mem_append, List.mem_cons] at hp
    rcases hp with hp | rfl | hp
    · exact ihl hl hp
    · exact n.ne
    · exact ihr hr hp

theorem Linked.own {h : P → N} {par : P} {t : Tree P A} (l : Linked V null h par t) {p : P}
    (hp : p ∈ t.inorder) : V.own p (h p) := by
  induction t generalizing par with
  | nil => simp [Tree.inorder] at hp
  | node a lt q rt ihl ihr =>
    obtain ⟨n, hl, hr⟩ := l
    simp only [Tree.inorder, List.mem_append, List.mem_cons] at hp
    rcases hp with hp | rfl | hp
    · exact ihl hl hp
    · exact n.own
    · exact ihr hr hp

/-- A nonempty tree is entered by a handle that is not `null`. -/
theorem Linked.root_eq_null {h : P → N} {par : P} {t : Tree P A} (l : Linked V null h par t) :
    t.root null = null ↔ t = .nil := by
  cases t with
  | nil => simp
  | node a lt p rt => simpa [Tree.root] using l.1.ne

/-- The tree gets another parent when its root's cell does and nothing else in it changes. -/
theorem Linked.reparent {h h' : P → N} {par par' : P} {t : Tree P A}
    (l : Linked V null h par t) (nd : t.inorder.Nodup)
    (e : ∀ p ∈ t.inorder, p ≠ t.root null → h' p = h p)
    (own : ∀ p ∈ t.inorder, V.own p (h p) → V.own p (h' p))
    (er : t ≠ .nil → V.tag (h' (t.root null)) = V.tag (h (t.root null)) ∧
      V.parent (h' (t.root null)) = par' ∧
      ∀ d, V.child d (h' (t.root null)) = V.child d (h (t.root null))) :
    Linked V null h' par' t := by
  cases t with
  | nil => trivial
  | node a lt p rt =>
    obtain ⟨n, hl, hr⟩ := l
    obtain ⟨ht, hp, hc⟩ := er (by simp)
    rw [Tree.node_eq_join, Tree.nodup_join] at nd
    obtain ⟨_, _, hpl, hpr, _⟩ := nd
    refine ⟨⟨n.ne, own p (by simp [Tree.inorder]) n.own, by rw [← n.tag]; exact ht, hp,
      by rw [← n.near]; exact hc _, by rw [← n.far]; exact hc _⟩, hl.congr fun q hq => ?_,
      hr.congr fun q hq => ?_⟩
    · exact e q (by simp [Tree.inorder, hq]) (by rintro rfl; exact hpl hq)
    · exact e q (by simp [Tree.inorder, hq]) (by rintro rfl; exact hpr hq)

theorem LinkedContext.congr {h h' : P → N} {par : P} {c : Context P A} {q : P}
    (l : LinkedContext V null h par c q) (e : ∀ p ∈ Context.handles c, h' p = h p) :
    LinkedContext V null h' par c q := by
  induction c generalizing q with
  | nil => trivial
  | cons f rest ih =>
    obtain ⟨n, hs, hr⟩ := l
    simp only [Context.mem_handles_cons] at e
    exact ⟨n.congr (e _ (.inl rfl)), hs.congr fun p hp => e p (.inr (.inl hp)),
      ih hr fun p hp => e p (.inr (.inr hp))⟩

/-- A tree with a hole, and what is in the hole. -/
theorem linked_plug {h : P → N} {par : P} {c : Context P A} {t : Tree P A} :
    Linked V null h par (Context.plug c t) ↔
      Linked V null h (Context.parent par c) t ∧ LinkedContext V null h par c (t.root null) := by
  induction c generalizing t with
  | nil => simp [LinkedContext]
  | cons f rest ih =>
    rw [Context.plug_cons, ih, Frame.fill, linked_join, Tree.root_join, LinkedContext,
      Context.parent_cons]
    tauto

/-- The hole gets another subtree when its parent's cell does. -/
theorem LinkedContext.setHole {h h' : P → N} {par : P} {c : Context P A} {q q' : P}
    (l : LinkedContext V null h par c q) (nd : (Context.handles c).Nodup)
    (e : ∀ p ∈ Context.handles c, p ≠ Context.parent par c → h' p = h p)
    (own : ∀ p ∈ Context.handles c, V.own p (h p) → V.own p (h' p))
    (er : ∀ f rest, c = f :: rest → V.tag (h' f.handle) = V.tag (h f.handle) ∧
      V.parent (h' f.handle) = V.parent (h f.handle) ∧ V.child f.side (h' f.handle) = q' ∧
      V.child f.side.other (h' f.handle) = V.child f.side.other (h f.handle)) :
    LinkedContext V null h' par c q' := by
  cases c with
  | nil => trivial
  | cons f rest =>
    obtain ⟨n, hs, hr⟩ := l
    obtain ⟨ht, hp, hnear, hfar⟩ := er f rest rfl
    rw [Context.nodup_handles_cons] at nd
    obtain ⟨_, _, hfs, hfr, _⟩ := nd
    simp only [Context.mem_handles_cons, Context.parent_cons] at e own
    refine ⟨⟨n.ne, own _ (.inl rfl) n.own, by rw [← n.tag]; exact ht, by rw [← n.parent]; exact hp,
      hnear, by rw [← n.far]; exact hfar⟩, hs.congr fun p hp => ?_, hr.congr fun p hp => ?_⟩
    · exact e p (.inr (.inl hp)) (by rintro rfl; exact hfs hp)
    · exact e p (.inr (.inr hp)) (by rintro rfl; exact hfr hp)

/-- The root of a plugged tree does not depend on what fills a hole below it. -/
theorem root_plug_congr {c : Context P A} (hc : c ≠ []) (t u : Tree P A) :
    (Context.plug c t).root null = (Context.plug c u).root null := by
  induction c generalizing t u with
  | nil => exact absurd rfl hc
  | cons f rest ih =>
    by_cases hr : rest = []
    · subst hr
      simp [Frame.fill]
    · exact ih hr _ _

end Linked

/-- A hole whose node is the root of the whole tree is the whole tree. -/
theorem Context.eq_nil_of_root {P A : Type} {c : Context P A} {a : A} {l r : Tree P A} {p null : P}
    (nd : (plug c (.node a l p r)).inorder.Nodup) (hp : p ≠ null)
    (h : (plug c (.node a l p r)).root null = p) : c = [] := by
  by_contra hc
  rw [root_plug_congr hc _ .nil] at h
  have hmem := Tree.root_mem null (t := plug c .nil) (by rwa [h])
  rw [h, mem_plug] at hmem
  have hself : p ∈ (Tree.node a l p r).inorder := List.mem_append_right _ (List.mem_cons_self ..)
  exact ((nodup_plug _ _).mp nd).2.2 p hself (hmem.resolve_left List.not_mem_nil)

/-- The other nodes of a tree, in order. -/
theorem Context.erase_plug {P A : Type} [DecidableEq P] {c : Context P A} {a : A} {l r : Tree P A}
    {p : P} (nd : (plug c (.node a l p r)).inorder.Nodup) :
    (plug c (.node a l p r)).inorder.erase p = before c ++ l.inorder ++ (r.inorder ++ after c) := by
  have he : (plug c (.node a l p r)).inorder = (before c ++ l.inorder) ++ p :: (r.inorder ++ after c) := by
    simp [inorder_plug, Tree.inorder]
  rw [he] at nd ⊢
  have hp : p ∉ before c ++ l.inorder := by
    intro hmem
    exact (List.nodup_append.mp nd).2.2 p hmem p (List.mem_cons_self ..) rfl
  rw [List.erase_append_right _ hp, List.erase_cons_head]

/-- Every node of a tree is the root of the subtree in some hole. -/
theorem Tree.focus {P A : Type} {t : Tree P A} {p : P} (hp : p ∈ t.inorder) :
    ∃ (c : Context P A) (a : A) (l r : Tree P A), t = Context.plug c (.node a l p r) := by
  induction t with
  | nil => simp [Tree.inorder] at hp
  | node a lt q rt ihl ihr =>
    simp only [Tree.inorder, List.mem_append, List.mem_cons] at hp
    rcases hp with hp | rfl | hp
    · obtain ⟨c, b, l, r, rfl⟩ := ihl hp
      exact ⟨c ++ [⟨.left, a, q, rt⟩], b, l, r, by rw [Context.plug_append]; rfl⟩
    · exact ⟨[], a, lt, rt, rfl⟩
    · obtain ⟨c, b, l, r, rfl⟩ := ihr hp
      exact ⟨c ++ [⟨.right, a, q, lt⟩], b, l, r, by rw [Context.plug_append]; rfl⟩

end ShmMalloc.Library
