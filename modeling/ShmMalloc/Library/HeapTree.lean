import Mathlib.Algebra.Group.Nat.Defs
import Mathlib.Data.Nat.Log
import Mathlib.Order.Lattice
import ShmMalloc.Library.LinkedTree

/-! Heap-ordered trees and leftist trees.

`HeapOrdered` compares a node with its children only; that its root is the least of
all its nodes follows. A leftist tree stores a rank at each node, `level` counts an
absent tree as 0 and a tree of rank `a` as `a + 1`. What a subtree may be replaced by
is said of the hole it leaves. -/
namespace ShmMalloc.Library.Tree

section Order
variable {P A : Type} [LinearOrder P]

/-- The tree may hang under `p`. -/
def Under (p : P) : Tree P A → Prop
  | nil => True
  | node _ _ q _ => p < q

/-- Every handle is less than those of its children. -/
def HeapOrdered : Tree P A → Prop
  | nil => True
  | node _ l p r => Under p l ∧ Under p r ∧ l.HeapOrdered ∧ r.HeapOrdered

theorem Under.lt {t : Tree P A} {p q null : P} (h : Under p t) (hq : q ∈ t.inorder)
    (hle : t.root null ≤ q) : p < q := by
  cases t with
  | nil => cases hq
  | node => exact lt_of_lt_of_le h hle

/-- The root is the least handle. -/
theorem HeapOrdered.root_le {null : P} {t : Tree P A} (h : t.HeapOrdered) {q : P}
    (hq : q ∈ t.inorder) : t.root null ≤ q := by
  induction t with
  | nil => cases hq
  | node a l p r ihl ihr =>
    obtain ⟨hl, hr, hol, hor⟩ := h
    rcases List.mem_append.mp hq with hq | hq
    · exact le_of_lt (hl.lt hq (ihl hol hq))
    · rcases List.mem_cons.mp hq with rfl | hq
      · exact le_refl _
      · exact le_of_lt (hr.lt hq (ihr hor hq))

theorem heapOrdered_join {d : Side} {a : A} {t u : Tree P A} {p : P} :
    (join d a t p u).HeapOrdered ↔ Under p t ∧ Under p u ∧ t.HeapOrdered ∧ u.HeapOrdered := by
  cases d with
  | left => exact Iff.rfl
  | right =>
    constructor
    · rintro ⟨hu, ht, huo, hto⟩
      exact ⟨ht, hu, hto, huo⟩
    · rintro ⟨ht, hu, hto, huo⟩
      exact ⟨hu, ht, huo, hto⟩

theorem HeapOrdered.of_plug {c : Context P A} {t : Tree P A}
    (h : (Context.plug c t).HeapOrdered) : t.HeapOrdered := by
  induction c generalizing t with
  | nil => exact h
  | cons f c ih => exact (heapOrdered_join.mp (ih h)).2.2.1

/-- A subtree gives way to one that may hang wherever it may. -/
theorem HeapOrdered.plug_replace {c : Context P A} {t u : Tree P A}
    (h : (Context.plug c t).HeapOrdered) (hu : u.HeapOrdered) (hroot : ∀ p, Under p t → Under p u) :
    (Context.plug c u).HeapOrdered := by
  induction c generalizing t u with
  | nil => exact hu
  | cons f c ih =>
    obtain ⟨hunder, hsib, -, hso⟩ := heapOrdered_join.mp (of_plug (c := c) h)
    refine ih h (heapOrdered_join.mpr ⟨hroot _ hunder, hsib, hu, hso⟩) fun p hp => ?_
    obtain ⟨d, a, q, s⟩ := f
    cases d <;> exact hp

end Order

section Rank
variable {P : Type}

/-- The rank of a tree, counted from 1; an absent tree has none. -/
def level : Tree P Nat → Nat
  | nil => 0
  | node a _ _ _ => a + 1

/-- Every node's left subtree ranks no lower than its right one, which gives its rank. -/
def Leftist : Tree P Nat → Prop
  | nil => True
  | node a l _ r => r.level ≤ l.level ∧ a = r.level ∧ l.Leftist ∧ r.Leftist

def rightSpine : Tree P Nat → List P
  | nil => []
  | node _ _ p r => p :: r.rightSpine

theorem Leftist.length_rightSpine {t : Tree P Nat} (h : t.Leftist) :
    t.rightSpine.length = t.level := by
  induction t with
  | nil => rfl
  | node a l p r ihl ihr =>
    obtain ⟨-, hrank, -, hr⟩ := h
    rw [rightSpine, List.length_cons, ihr hr, level, hrank]

theorem Leftist.two_pow_level_le {t : Tree P Nat} (h : t.Leftist) : 2 ^ t.level ≤ t.size + 1 := by
  induction t with
  | nil => exact Nat.le_refl 1
  | node a l p r ihl ihr =>
    obtain ⟨hle, hrank, hl, hr⟩ := h
    have h₁ := ihl hl
    have h₂ := ihr hr
    have hmono : 2 ^ r.level ≤ 2 ^ l.level := Nat.pow_le_pow_right (by decide) hle
    rw [level, hrank, Nat.pow_succ, size]
    omega

/-- The right spine of a leftist tree is short. -/
theorem Leftist.rightSpine_le {t : Tree P Nat} (h : t.Leftist) :
    t.rightSpine.length ≤ Nat.log2 (t.size + 1) := by
  rw [h.length_rightSpine, Nat.le_log2 (Nat.succ_ne_zero _)]
  exact h.two_pow_level_le

/-- What a tree of level `new` owes to go where one of level `old` was: on the left it
ranks no lower than its sibling, on the right it has the rank of the old one. -/
def Fits : Context P Nat → Nat → Nat → Prop
  | [], _, _ => True
  | f :: _, old, new =>
    match f.side with
    | .left => f.sibling.level ≤ new
    | .right => new = old

theorem Leftist.of_plug {c : Context P Nat} {t : Tree P Nat} (h : (Context.plug c t).Leftist) :
    t.Leftist := by
  induction c generalizing t with
  | nil => exact h
  | cons f c ih =>
    obtain ⟨d, a, q, s⟩ := f
    have hfill := ih h
    cases d with
    | left => exact hfill.2.2.1
    | right => exact hfill.2.2.2

/-- A tree of the same level fits everywhere. -/
theorem Leftist.plug_congr {c : Context P Nat} {t u : Tree P Nat} (h : (Context.plug c t).Leftist)
    (hu : u.Leftist) (hlevel : u.level = t.level) : (Context.plug c u).Leftist := by
  induction c generalizing t u with
  | nil => exact hu
  | cons f c ih =>
    obtain ⟨d, a, q, s⟩ := f
    have hfill := of_plug (c := c) h
    cases d with
    | left =>
      obtain ⟨hle, hrank, -, hs⟩ := hfill
      exact ih h ⟨hlevel ▸ hle, hrank, hu, hs⟩ rfl
    | right =>
      obtain ⟨hle, hrank, hs, -⟩ := hfill
      exact ih h ⟨hlevel ▸ hle, hlevel ▸ hrank, hs, hu⟩ rfl

/-- A subtree of a leftist tree gives way to a leftist tree exactly when that one fits. -/
theorem Leftist.plug_iff {c : Context P Nat} {t u : Tree P Nat} (h : (Context.plug c t).Leftist)
    (hu : u.Leftist) : (Context.plug c u).Leftist ↔ Fits c t.level u.level := by
  cases c with
  | nil => exact ⟨fun _ => trivial, fun _ => hu⟩
  | cons f c =>
    obtain ⟨d, a, q, s⟩ := f
    have hfill := of_plug (c := c) h
    cases d with
    | left =>
      obtain ⟨-, hrank, -, hs⟩ := hfill
      constructor
      · intro hplug
        exact (of_plug (c := c) hplug).1
      · intro hle
        exact plug_congr (c := c) h (u := .node a u q s) ⟨hle, hrank, hu, hs⟩ rfl
    | right =>
      obtain ⟨hle, hrank, hs, -⟩ := hfill
      constructor
      · intro hplug
        have hrank' : a = u.level := (of_plug (c := c) hplug).2.1
        exact hrank'.symm.trans hrank
      · intro hlevel
        have hlevel : u.level = t.level := hlevel
        exact plug_congr (c := c) h (u := .node a s q u) ⟨hlevel ▸ hle, hlevel ▸ hrank, hs, hu⟩ rfl

end Rank

end ShmMalloc.Library.Tree
