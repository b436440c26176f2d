import Mathlib.Logic.Relation
import Mathlib.Tactic.Common

/-! Machines whose calls complete or fail, and the states that their runs reach.

`legal` is what the callers of the machine promise. A run is cut off by a call that
fails, and a theorem about some of the runs names the calls that it admits. -/
namespace ShmMalloc.Library

/-- A call that leaves something with a property completes. -/
theorem exists_ok {E S : Type} {x : Except E S} {p : S → Bool} (h : x.toOption.any p = true) :
    ∃ s, x = .ok s ∧ p s = true := by
  cases x with
  | error e => cases h
  | ok s => exact ⟨s, rfl, h⟩

structure Machine (S A E : Type) where
  start : S → Prop
  legal : S → A → Prop
  step : S → A → Except E S

namespace Machine
variable {S A E : Type} (M : Machine S A E)

/-- The states reached from a start by legal calls that are admitted and complete. -/
inductive Reach (allow : S → A → Prop) : S → Prop where
  | start {s : S} (h : M.start s) : Reach allow s
  | step {s s' : S} {a : A} (h : Reach allow s) (hl : M.legal s a) (ha : allow s a)
      (hs : M.step s a = .ok s') : Reach allow s'

variable {M}

/-- What holds at the start and is preserved by the admitted calls holds of every state
that they reach. -/
theorem Reach.invariant {allow : S → A → Prop} {inv : S → Prop} (h₀ : ∀ s, M.start s → inv s)
    (hstep : ∀ s a s', inv s → M.legal s a → allow s a → M.step s a = .ok s' → inv s') {s : S}
    (h : M.Reach allow s) : inv s := by
  induction h with
  | start h => exact h₀ _ h
  | step _ hl ha hs ih => exact hstep _ _ _ ih hl ha hs

theorem Reach.mono {allow allow' : S → A → Prop} {s : S} (h : M.Reach allow s)
    (hle : ∀ s a, allow s a → allow' s a) : M.Reach allow' s := by
  induction h with
  | start h => exact .start h
  | step _ hl ha hs ih => exact .step ih hl (hle _ _ ha) hs

/-- The callers may promise more. -/
theorem Reach.weaken {allow : S → A → Prop} {legal : S → A → Prop} {s : S}
    (h : Reach {M with legal := legal} allow s) (hle : ∀ s a, legal s a → M.legal s a) : M.Reach allow s := by
  induction h with
  | start h => exact .start h
  | step _ hl ha hs ih => exact .step ih (hle _ _ hl) ha hs

/-- The second state comes after the first, by legal calls of a kind. -/
def Leads (M : Machine S A E) (ok : A → Prop) : S → S → Prop :=
  Relation.ReflTransGen fun s s' => ∃ a, ok a ∧ M.legal s a ∧ M.step s a = .ok s'

theorem Reach.leads {ok : A → Prop} {s s' : S} (h : M.Reach (fun _ _ => True) s) (hl : M.Leads ok s s') :
    M.Reach (fun _ _ => True) s' := by
  induction hl with
  | refl => exact h
  | tail _ hstep ih =>
    obtain ⟨a, -, hlegal, hs⟩ := hstep
    exact ih.step hlegal trivial hs

section Run
variable (M) [∀ s a, Decidable (M.legal s a)]

/-- Run a list of calls that pass a test; `none` if one does not, is not legal or fails. -/
def run (ok : S → A → Bool) : S → List A → Option S
  | s, [] => some s
  | s, a :: as =>
    if M.legal s a ∧ ok s a = true then
      match M.step s a with
      | .ok s' => run ok s' as
      | .error _ => none
    else none

variable {M} {allow : S → A → Prop} {ok : S → A → Bool}

theorem reach_of_run (hok : ∀ s a, ok s a = true → allow s a) {s s' : S} {as : List A}
    (hs : M.Reach allow s) (h : M.run ok s as = some s') : M.Reach allow s' := by
  induction as generalizing s with
  | nil =>
    obtain rfl := Option.some.inj h
    exact hs
  | cons a as ih =>
    rw [run] at h
    split at h
    · next hl =>
      cases hstep : M.step s a with
      | ok s₁ =>
        rw [hstep] at h
        exact ih (.step hs hl.1 (hok s a hl.2) hstep) h
      | error e =>
        rw [hstep] at h
        cases h
    · cases h

/-- A run that ends in a state with a property reaches such a state. -/
theorem exists_reach (ok : S → A → Bool) (hok : ∀ s a, ok s a = true → allow s a) {s : S} (as : List A) {p : S → Bool}
    (hs : M.start s) (h : (M.run ok s as).any p = true) : ∃ s', M.Reach allow s' ∧ p s' = true := by
  cases hr : M.run ok s as with
  | none =>
    rw [hr] at h
    cases h
  | some s' =>
    rw [hr] at h
    exact ⟨s', reach_of_run hok (.start hs) hr, h⟩

end Run

end Machine

end ShmMalloc.Library
