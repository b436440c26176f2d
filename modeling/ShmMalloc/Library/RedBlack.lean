import ShmMalloc.Library.LinkedTree
import Mathlib.Algebra.Group.Nat.Defs
import Mathlib.Data.Nat.Log

/-! Red-black balance, of trees and of trees with a hole.

`Balanced t c n`: the root of `t` has colour `c` (black when `t` is empty), no red
node has a red child, and every path to an empty link passes `n` black nodes.
`Accepts c red n` is the same for a context: a subtree of black height `n` fits
its hole, one with a red root only if `red`. Insertion and deletion break balance
at one hole only, so their repairs are steps between contexts. -/
namespace ShmMalloc.Library

inductive Color where
  | red
  | black
  deriving DecidableEq, Repr

variable {P : Type}

/-- The colour of the root; an empty link counts as black. -/
def Tree.color : Tree P Color → Color
  | .nil => .black
  | .node c _ _ _ => c

@[simp] theorem Tree.color_join (d : Side) (c : Color) (t : Tree P Color) (p : P) (u : Tree P Color) :
    (Tree.join d c t p u).color = c := by cases d <;> rfl

def Tree.paint (c : Color) : Tree P Color → Tree P Color
  | .nil => .nil
  | .node _ l p r => .node c l p r

theorem Tree.paint_join (d : Side) (c c' : Color) (t : Tree P Color) (p : P) (u : Tree P Color) :
    (Tree.join d c t p u).paint c' = Tree.join d c' t p u := by cases d <;> rfl

inductive Balanced : Tree P Color → Color → Nat → Prop where
  | nil : Balanced .nil .black 0
  | red {l r : Tree P Color} {p : P} {n : Nat} : Balanced l .black n → Balanced r .black n →
      Balanced (.node .red l p r) .red n
  | black {l r : Tree P Color} {p : P} {c c' : Color} {n : Nat} : Balanced l c n →
      Balanced r c' n → Balanced (.node .black l p r) .black (n + 1)

namespace Balanced

theorem color_eq {t : Tree P Color} {c : Color} {n : Nat} (h : Balanced t c n) : t.color = c := by
  cases h <;> rfl

theorem join_red {d : Side} {t u : Tree P Color} {p : P} {n : Nat} (ht : Balanced t .black n)
    (hu : Balanced u .black n) : Balanced (Tree.join d .red t p u) .red n := by
  cases d
  · exact .red ht hu
  · exact .red hu ht

theorem join_black {d : Side} {t u : Tree P Color} {p : P} {c c' : Color} {n : Nat}
    (ht : Balanced t c n) (hu : Balanced u c' n) :
    Balanced (Tree.join d .black t p u) .black (n + 1) := by
  cases d
  · exact .black ht hu
  · exact .black hu ht

theorem of_join_red {d : Side} {t u : Tree P Color} {p : P} {c : Color} {n : Nat}
    (h : Balanced (Tree.join d .red t p u) c n) :
    c = .red ∧ Balanced t .black n ∧ Balanced u .black n := by
  cases d <;> cases h <;> simp_all

theorem of_join_black {d : Side} {t u : Tree P Color} {p : P} {c : Color} {n : Nat}
    (h : Balanced (Tree.join d .black t p u) c n) :
    c = .black ∧ ∃ m c₁ c₂, n = m + 1 ∧ Balanced t c₁ m ∧ Balanced u c₂ m := by
  cases d with
  | left =>
    cases h with
    | black ht hu => exact ⟨rfl, _, _, _, rfl, ht, hu⟩
  | right =>
    cases h with
    | black hu ht => exact ⟨rfl, _, _, _, rfl, ht, hu⟩

/-- A subtree of positive black height is not empty, seen from either side. -/
theorem exists_join {t : Tree P Color} {c : Color} {n : Nat} (h : Balanced t c (n + 1)) (d : Side) :
    ∃ l p r, t = Tree.join d c l p r := by
  cases h <;> cases d <;> exact ⟨_, _, _, rfl⟩

theorem exists_join_of_red {t : Tree P Color} {n : Nat} (h : Balanced t .red n) (d : Side) :
    ∃ l p r, t = Tree.join d .red l p r := by
  cases h
  cases d <;> exact ⟨_, _, _, rfl⟩

theorem paint_of_black {t : Tree P Color} {n : Nat} (h : Balanced t .black n) :
    t.paint .black = t := by cases h <;> rfl

theorem two_pow_le_size {t : Tree P Color} {c : Color} {n : Nat} (h : Balanced t c n) :
    2 ^ n ≤ t.size + 1 := by
  induction h with
  | nil => simp [Tree.size]
  | red _ _ ihl ihr =>
    simp only [Tree.size]
    omega
  | black _ _ ihl ihr =>
    simp only [Tree.size, Nat.pow_succ]
    omega

theorem height_le {t : Tree P Color} {c : Color} {n : Nat} (h : Balanced t c n) :
    t.height ≤ 2 * n + (if c = .red then 1 else 0) := by
  induction h with
  | nil => simp [Tree.height]
  | red _ _ ihl ihr =>
    simp only [Tree.height, if_true, reduceCtorEq, if_false] at *
    omega
  | @black _ _ _ c c' _ _ _ ihl ihr =>
    have : (if c = .red then 1 else 0) ≤ 1 := by split <;> omega
    have : (if c' = .red then 1 else 0) ≤ 1 := by split <;> omega
    simp only [Tree.height, reduceCtorEq, if_false]
    omega

/-- A balanced tree with a black root is at most twice as high as a perfect one. -/
theorem height_le_log {t : Tree P Color} {n : Nat} (h : Balanced t .black n) :
    t.height ≤ 2 * Nat.log2 (t.size + 1) := by
  have hn : n ≤ Nat.log2 (t.size + 1) := (Nat.le_log2 (by omega)).mpr h.two_pow_le_size
  have := h.height_le
  simp only [reduceCtorEq, if_false] at this
  omega

end Balanced

/-! ### The two rules, read off a tree -/

/-- No red node has a red child. -/
def NoRedRed : Tree P Color → Prop
  | .nil => True
  | .node c l _ r =>
    (c = .red → l.color = .black ∧ r.color = .black) ∧ NoRedRed l ∧ NoRedRed r

/-- The number of black nodes on each path from the root to an empty link. -/
def blacks : Tree P Color → List Nat
  | .nil => [0]
  | .node c l _ r =>
    (blacks l ++ blacks r).map (· + if c = .black then 1 else 0)

theorem Balanced.noRedRed {t : Tree P Color} {c : Color} {n : Nat} (h : Balanced t c n) :
    NoRedRed t := by
  induction h with
  | nil => trivial
  | red hl hr ihl ihr => exact ⟨fun _ => ⟨hl.color_eq, hr.color_eq⟩, ihl, ihr⟩
  | black _ _ ihl ihr => exact ⟨by simp, ihl, ihr⟩

theorem Balanced.blacks_eq {t : Tree P Color} {c : Color} {n : Nat} (h : Balanced t c n) :
    ∀ k ∈ blacks t, k = n := by
  induction h with
  | nil => simp [blacks]
  | red _ _ ihl ihr =>
    simp only [blacks, List.mem_map, List.mem_append]
    rintro k ⟨j, hj | hj, rfl⟩
    · simpa using ihl j hj
    · simpa using ihr j hj
  | black _ _ ihl ihr =>
    simp only [blacks, List.mem_map, List.mem_append, if_true]
    rintro k ⟨j, hj | hj, rfl⟩
    · rw [ihl j hj]
    · rw [ihr j hj]

/-! ### Contexts -/

/-- What a hole takes: subtrees of black height `n`, with a red root only if the flag is set. -/
inductive Accepts : Context P Color → Bool → Nat → Prop where
  | root (n : Nat) : Accepts [] false n
  | red {d : Side} {p : P} {u : Tree P Color} {c : Context P Color} {n : Nat} :
      Balanced u .black n → Accepts c true n → Accepts (⟨d, .red, p, u⟩ :: c) false n
  | black {d : Side} {p : P} {u : Tree P Color} {k : Color} {c : Context P Color} {b : Bool}
      {n : Nat} : Balanced u k n → Accepts c b (n + 1) → Accepts (⟨d, .black, p, u⟩ :: c) true n

namespace Accepts

theorem plug {c : Context P Color} {b : Bool} {n : Nat} (h : Accepts c b n) {t : Tree P Color}
    {k : Color} (ht : Balanced t k n) (hk : k = .red → b = true) :
    ∃ m, Balanced (Context.plug c t) .black m := by
  induction h generalizing t k with
  | root n =>
    cases k with
    | red => exact absurd (hk rfl) (by simp)
    | black => exact ⟨_, ht⟩
  | red hu _ ih =>
    cases k with
    | red => exact absurd (hk rfl) (by simp)
    | black => exact ih (Balanced.join_red ht hu) fun _ => rfl
  | black hu _ ih => exact ih (Balanced.join_black ht hu) (by simp)

/-- A balanced tree is balanced in every hole of it and around it. -/
theorem of_plug {c : Context P Color} {t : Tree P Color} {m : Nat}
    (h : Balanced (Context.plug c t) .black m) :
    ∃ b k n, Accepts c b n ∧ Balanced t k n ∧ (k = .red → b = true) := by
  induction c generalizing t with
  | nil => exact ⟨false, _, m, .root m, h, by simp⟩
  | cons f rest ih =>
    obtain ⟨d, a, p, u⟩ := f
    obtain ⟨b, k, n, hc, ht, hk⟩ := ih h
    cases a with
    | red =>
      obtain ⟨rfl, ht, hu⟩ := ht.of_join_red
      obtain rfl := hk rfl
      exact ⟨false, _, _, .red hu hc, ht, by simp⟩
    | black =>
      obtain ⟨rfl, m, c₁, c₂, rfl, ht, hu⟩ := ht.of_join_black
      exact ⟨true, _, _, .black hu hc, ht, fun _ => rfl⟩

/-- A hole that refuses red below a node has a red node above it, whose own parent is black. -/
theorem refusing {d : Side} {a : Color} {p : P} {u : Tree P Color} {c : Context P Color} {n : Nat}
    (h : Accepts (⟨d, a, p, u⟩ :: c) false n) :
    a = .red ∧ Balanced u .black n ∧ ∃ e q v rest k b, c = ⟨e, .black, q, v⟩ :: rest ∧
      Balanced v k n ∧ Accepts rest b (n + 1) := by
  cases h with
  | red hu hc =>
    cases hc with
    | black hv hr => exact ⟨rfl, hu, _, _, _, _, _, _, rfl, hv, hr⟩

/-- The sibling of a hole is balanced with it. -/
theorem sibling {d : Side} {a : Color} {p : P} {u : Tree P Color} {c : Context P Color} {b : Bool}
    {n : Nat} (h : Accepts (⟨d, a, p, u⟩ :: c) b n) : ∃ k, Balanced u k n ∧
      (a = .red → k = .black ∧ Accepts c true n) ∧ (a = .black → ∃ b', Accepts c b' (n + 1)) := by
  cases h with
  | red hu hc => exact ⟨_, hu, fun _ => ⟨rfl, hc⟩, by simp⟩
  | black hu hc => exact ⟨_, hu, by simp, fun _ => ⟨_, hc⟩⟩

/-- Which node a frame holds does not matter. -/
theorem rename {d : Side} {a : Color} {p q : P} {u : Tree P Color} {c c' : Context P Color}
    {b : Bool} {n : Nat} (h : Accepts (c ++ ⟨d, a, p, u⟩ :: c') b n) :
    Accepts (c ++ ⟨d, a, q, u⟩ :: c') b n := by
  induction c generalizing b n with
  | nil =>
    cases h with
    | red hu hc => exact .red hu hc
    | black hu hc => exact .black hu hc
  | cons f rest ih =>
    cases h with
    | red hu hc => exact .red hu (ih hc)
    | black hu hc => exact .black hu (ih hc)

/-- What a node with an empty side leaves behind: nothing to repair if it was red, and
a hole one black short if it was black. -/
theorem unlink {d : Side} {a : Color} {p : P} {u : Tree P Color} {c : Context P Color} {b : Bool}
    {k : Color} {n : Nat} (h : Accepts c b n) (ht : Balanced (Tree.join d a .nil p u) k n)
    (hk : k = .red → b = true) :
    ∃ k' n', Balanced u k' n' ∧ (a = .red → k' = .black ∧ Accepts c true n') ∧
      (a = .black → Accepts c b (n' + 1)) := by
  cases a with
  | red =>
    obtain ⟨rfl, -, hu⟩ := ht.of_join_red
    obtain rfl := hk rfl
    exact ⟨.black, n, hu, fun _ => ⟨rfl, h⟩, by simp⟩
  | black =>
    obtain ⟨-, m, c₁, c₂, rfl, -, hu⟩ := ht.of_join_black
    exact ⟨c₂, m, hu, by simp, fun _ => h⟩

end Accepts

end ShmMalloc.Library
