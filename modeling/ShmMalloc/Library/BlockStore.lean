import Mathlib.Logic.Function.Basic

/-! Blocks of cells and a root, and what may be read from them.

A block has a key and a number of cells. The value of a cell is not known before the
first access to it, which fixes it until the next write. The root is one value beside
the blocks. A history lists operations with what they returned, the last one first; it
is one of a store of blocks if the store can be replayed from it. -/
namespace ShmMalloc.Library

/-- An operation on blocks. A block that is moved has its cells at the new key, as far as there
is room for them. -/
inductive BlockOp (K V U : Type) where
  | alloc (k : K) (n : Nat)
  | free (k : K)
  | move (k k' : K) (n : Nat)
  | write (k : K) (j : Nat) (v : V)
  | read (k : K) (j : Nat) (v : V)
  | setRoot (u : U)
  | getRoot (u : U)
  /-- There is nothing but a root. -/
  | clear (u : U)
  deriving DecidableEq

structure BlockStore (K V U : Type) where
  size : K → Option Nat
  cell : K → Nat → Option V
  root : U

namespace BlockStore
variable {K V U : Type}

def empty (u : U) : BlockStore K V U := ⟨fun _ => none, fun _ _ => none, u⟩

section Step
variable [DecidableEq K]

def add (s : BlockStore K V U) (k : K) (n : Nat) (cells : Nat → Option V) : BlockStore K V U :=
  ⟨Function.update s.size k (some n), Function.update s.cell k cells, s.root⟩

def drop (s : BlockStore K V U) (k : K) : BlockStore K V U := {s with size := Function.update s.size k none}

/-- The value of a cell is known. -/
def fix (s : BlockStore K V U) (k : K) (j : Nat) (v : V) : BlockStore K V U :=
  {s with cell := Function.update s.cell k (Function.update (s.cell k) j (some v))}

/-- The cell is in a block. -/
def Has (s : BlockStore K V U) (k : K) (j : Nat) : Prop := ∃ n ∈ s.size k, j < n

instance (s : BlockStore K V U) (k : K) (j : Nat) : Decidable (s.Has k j) :=
  inferInstanceAs (Decidable (∃ n ∈ s.size k, j < n))

variable [DecidableEq V] [DecidableEq U]

/-- The store after an operation, if it can be one. -/
def step (s : BlockStore K V U) : BlockOp K V U → Option (BlockStore K V U)
  | .alloc k n => if s.size k = none then some (s.add k n fun _ => none) else none
  | .free k => if s.size k = none then none else some (s.drop k)
  | .move k k' n =>
    if s.size k = none ∨ s.size k' ≠ none then none
    else some ((s.drop k).add k' n fun j => if s.Has k j then s.cell k j else none)
  | .write k j v => if s.Has k j then some (s.fix k j v) else none
  | .read k j v =>
    if s.Has k j ∧ (s.cell k j = none ∨ s.cell k j = some v) then some (s.fix k j v) else none
  | .setRoot u => some {s with root := u}
  | .getRoot u => if u = s.root then some s else none
  | .clear u => some (empty u)

/-- The store that a history leaves, if it is one of a store that was empty. -/
def replay (u : U) : List (BlockOp K V U) → Option (BlockStore K V U)
  | [] => some (empty u)
  | o :: h => (replay u h).bind fun s => s.step o

end Step

/-! ### Where a value is -/

/-- The operation sets the root, or leaves it as it is. -/
def setsRoot : BlockOp K V U → Option U
  | .setRoot u => some u
  | .clear u => some u
  | _ => none

/-- The operation says what the value of the cell is. -/
def Fixes (k : K) (j : Nat) (v : V) (o : BlockOp K V U) : Prop := o = .write k j v ∨ o = .read k j v

/-- Where an operation leaves the value of the cell `j` of the block `k`, if it keeps it. -/
def carry [DecidableEq K] (j : Nat) (o : BlockOp K V U) (k : K) : Option K :=
  match o with
  | .free q => if q = k then none else some k
  | .move q q' n => if q = k then if j < n then some q' else none else some k
  | .write q i _ => if q = k ∧ i = j then none else some k
  | .clear _ => none
  | .alloc _ _ => some k
  | .read _ _ _ => some k
  | .setRoot _ => some k
  | .getRoot _ => some k

/-- Where the operations of a list leave it. -/
def carried [DecidableEq K] (j : Nat) : List (BlockOp K V U) → K → Option K
  | [], k => some k
  | o :: later, k => (carried j later k).bind (carry j o)

/-- A cell is in a block, and its value is known. -/
def Known (s : BlockStore K V U) (k : K) (j : Nat) (v : V) : Prop := s.Has k j ∧ s.cell k j = some v

section Fields
variable [DecidableEq K] {s : BlockStore K V U} {k : K} {j : Nat} {v : V}

@[simp] theorem add_size (n : Nat) (cells : Nat → Option V) (q : K) :
    (s.add k n cells).size q = if q = k then some n else s.size q := Function.update_apply ..

@[simp] theorem add_cell (n : Nat) (cells : Nat → Option V) (q : K) :
    (s.add k n cells).cell q = if q = k then cells else s.cell q := Function.update_apply ..

@[simp] theorem drop_size (q : K) : (s.drop k).size q = if q = k then none else s.size q :=
  Function.update_apply ..

@[simp] theorem drop_cell : (s.drop k).cell = s.cell := rfl

@[simp] theorem fix_size : (s.fix k j v).size = s.size := rfl

@[simp] theorem fix_cell (q : K) (i : Nat) :
    (s.fix k j v).cell q i = if q = k ∧ i = j then some v else s.cell q i := by
  simp only [fix, Function.update_apply]
  by_cases hq : q = k
  · subst hq
    by_cases hi : i = j <;> simp [hi]
  · simp [hq]

end Fields

section
variable [DecidableEq K] [DecidableEq V] [DecidableEq U] {s s' : BlockStore K V U} {k k' : K} {j : Nat} {v : V}

theorem Fixes.known {o : BlockOp K V U} (h : Fixes k j v o) (hs : s.step o = some s') : s'.Known k j v := by
  rcases h with rfl | rfl
  · simp only [step, Option.ite_none_right_eq_some, Option.some.injEq] at hs
    obtain ⟨hin, rfl⟩ := hs
    exact ⟨hin, by simp⟩
  · simp only [step, Option.ite_none_right_eq_some, Option.some.injEq] at hs
    obtain ⟨⟨hin, -⟩, rfl⟩ := hs
    exact ⟨hin, by simp⟩

/-- Only the value that is known can be read. -/
theorem Known.read (h : s.Known k j v) {u : V} (hs : s.step (.read k j u) = some s') : u = v := by
  simp only [step, Option.ite_none_right_eq_some] at hs
  rcases hs.1.2 with hc | hc
  · rw [h.2] at hc
    cases hc
  · exact Option.some.inj (hc.symm.trans h.2)

/-- A known value stays where the operation carries it. -/
theorem Known.step (h : s.Known k j v) {o : BlockOp K V U} (hs : s.step o = some s') (hc : carry j o k = some k') :
    s'.Known k' j v := by
  obtain ⟨⟨n, hn, hj⟩, hv⟩ := h
  have hn' : s.size k = some n := hn
  cases o with
  | alloc q m =>
    simp only [BlockStore.step, Option.ite_none_right_eq_some, Option.some.injEq] at hs
    obtain ⟨hq, rfl⟩ := hs
    obtain rfl := Option.some.inj hc
    have hne : k ≠ q := by
      rintro rfl
      rw [hq] at hn'
      cases hn'
    exact ⟨⟨n, by simpa [hne] using hn', hj⟩, by simpa [hne] using hv⟩
  | free q =>
    simp only [BlockStore.step, Option.ite_none_left_eq_some, Option.some.injEq] at hs
    simp only [carry, Option.ite_none_left_eq_some, Option.some.injEq] at hc
    obtain ⟨-, rfl⟩ := hs
    obtain ⟨hne, rfl⟩ := hc
    exact ⟨⟨n, by simpa [Ne.symm hne] using hn', hj⟩, hv⟩
  | move q q' m =>
    simp only [BlockStore.step, Option.ite_none_left_eq_some, Option.some.injEq, not_or, not_not] at hs
    obtain ⟨⟨hq, hq'⟩, rfl⟩ := hs
    by_cases he : q = k
    · subst he
      rw [carry, if_pos rfl, Option.ite_none_right_eq_some] at hc
      obtain ⟨hm, he⟩ := hc
      obtain rfl := Option.some.inj he
      exact ⟨⟨m, by simp, hm⟩, by simpa [show s.Has q j from ⟨n, hn, hj⟩] using hv⟩
    · rw [carry, if_neg he] at hc
      obtain rfl := Option.some.inj hc
      have hne : k ≠ q' := by
        rintro rfl
        rw [hq'] at hn'
        cases hn'
      exact ⟨⟨n, by simpa [hne, Ne.symm he] using hn', hj⟩, by simpa [hne] using hv⟩
  | write q i u =>
    simp only [BlockStore.step, Option.ite_none_right_eq_some, Option.some.injEq] at hs
    simp only [carry, Option.ite_none_left_eq_some, Option.some.injEq] at hc
    obtain ⟨-, rfl⟩ := hs
    obtain ⟨hne, rfl⟩ := hc
    refine ⟨⟨n, hn, hj⟩, ?_⟩
    rw [fix_cell, if_neg fun he => hne ⟨he.1.symm, he.2.symm⟩, hv]
  | read q i u =>
    obtain rfl := Option.some.inj hc
    have hread : q = k → i = j → u = v := by
      rintro rfl rfl
      exact Known.read ⟨⟨n, hn, hj⟩, hv⟩ hs
    simp only [BlockStore.step, Option.ite_none_right_eq_some, Option.some.injEq] at hs
    obtain ⟨-, rfl⟩ := hs
    refine ⟨⟨n, hn, hj⟩, ?_⟩
    rw [fix_cell]
    split
    · next he => rw [hread he.1.symm he.2.symm]
    · exact hv
  | setRoot u =>
    obtain rfl := Option.some.inj hs
    obtain rfl := Option.some.inj hc
    exact ⟨⟨n, hn, hj⟩, hv⟩
  | getRoot u =>
    simp only [BlockStore.step, Option.ite_none_right_eq_some, Option.some.injEq] at hs
    obtain ⟨-, rfl⟩ := hs
    obtain rfl := Option.some.inj hc
    exact ⟨⟨n, hn, hj⟩, hv⟩
  | clear u => cases hc

/-! ### Histories -/

variable {u₀ : U}

theorem replay_cons {o : BlockOp K V U} {h : List (BlockOp K V U)} :
    replay u₀ (o :: h) = some s' ↔ ∃ s, replay u₀ h = some s ∧ s.step o = some s' := Option.bind_eq_some_iff

theorem replay_append {h h' : List (BlockOp K V U)} (hr : replay u₀ (h ++ h') = some s) :
    ∃ s₀, replay u₀ h' = some s₀ := by
  induction h generalizing s with
  | nil => exact ⟨s, hr⟩
  | cons o h ih =>
    obtain ⟨s₁, h₁, -⟩ := replay_cons.mp hr
    exact ih h₁

/-- What has been written or read is known where later operations carry it. -/
theorem replay_known {o : BlockOp K V U} {later h : List (BlockOp K V U)} (hr : replay u₀ (later ++ o :: h) = some s)
    (ho : Fixes k j v o) (hc : carried j later k = some k') : s.Known k' j v := by
  induction later generalizing s k' with
  | nil =>
    obtain ⟨s₀, -, hs⟩ := replay_cons.mp hr
    obtain rfl := Option.some.inj hc
    exact ho.known hs
  | cons p later ih =>
    obtain ⟨s₀, h₀, hs⟩ := replay_cons.mp hr
    obtain ⟨k₀, hk₀, hp⟩ := Option.bind_eq_some_iff.mp hc
    exact (ih h₀ hk₀).step hs hp

/-- **A read returns what was last written**, or read, wherever the block has moved since. -/
theorem replay_read {o : BlockOp K V U} {later h : List (BlockOp K V U)} {v' : V}
    (hr : replay u₀ (.read k' j v' :: (later ++ o :: h)) = some s) (ho : Fixes k j v o)
    (hc : carried j later k = some k') : v' = v := by
  obtain ⟨s₀, h₀, hs⟩ := replay_cons.mp hr
  exact (replay_known h₀ ho hc).read hs

theorem step_root {o : BlockOp K V U} (hs : s.step o = some s') : s'.root = (setsRoot o).getD s.root := by
  cases o <;> simp only [step, Option.ite_none_right_eq_some, Option.ite_none_left_eq_some, Option.some.injEq] at hs
  case setRoot | clear =>
    subst hs
    rfl
  case getRoot =>
    obtain ⟨-, rfl⟩ := hs
    rfl
  all_goals
    obtain ⟨-, rfl⟩ := hs
    rfl

/-- The root is what it was last set to. -/
theorem replay_root {h : List (BlockOp K V U)} (hr : replay u₀ h = some s) :
    s.root = (h.findSome? setsRoot).getD u₀ := by
  induction h generalizing s with
  | nil =>
    obtain rfl := Option.some.inj hr
    rfl
  | cons o h ih =>
    obtain ⟨s₀, h₀, hs⟩ := replay_cons.mp hr
    rw [step_root hs, List.findSome?_cons, ih h₀]
    cases setsRoot o <;> rfl

/-- **The root that is read** is what it was last set to. -/
theorem replay_getRoot {h : List (BlockOp K V U)} {u : U} (hr : replay u₀ (.getRoot u :: h) = some s) :
    u = (h.findSome? setsRoot).getD u₀ := by
  obtain ⟨s₀, h₀, hs⟩ := replay_cons.mp hr
  rw [← replay_root h₀]
  simp only [step, Option.ite_none_right_eq_some] at hs
  exact hs.1

end

end BlockStore

end ShmMalloc.Library
