/-! Running C: a call either completes or stops the process.

The allocator's functions return plain values; what can go wrong in one is an
`assert`, a dereference of a null handle or pointer, or a loop that does not end.
Loops carry fuel, and running out of it is kept apart from the other two, so that
a theorem that a call completes is also the theorem that its loops do. -/
namespace ShmMalloc

inductive Fault where
  | assertion
  | null
  | fuel
  deriving DecidableEq, Repr

abbrev Exec := Except Fault

/-- `assert(b)`. -/
def require (b : Bool) : Exec Unit := if b then .ok () else .error .assertion

@[simp] theorem require_true : require true = .ok () := rfl

@[simp] theorem require_false : require false = .error .assertion := rfl

theorem require_ok {b : Bool} {u : Unit} (h : require b = .ok u) : b = true := by
  cases b with
  | true => rfl
  | false => cases h

namespace Exec
variable {α β : Type}

@[simp] theorem ok_bind (a : α) (f : α → Exec β) : ((Except.ok a : Exec α) >>= f) = f a := rfl

@[simp] theorem error_bind (e : Fault) (f : α → Exec β) :
    ((Except.error e : Exec α) >>= f) = .error e := rfl

@[simp] theorem pure_eq (a : α) : (pure a : Exec α) = .ok a := rfl

/-- A completed sequence completed in both parts. -/
theorem bind_ok {x : Exec α} {f : α → Exec β} {b : β} (h : (x >>= f) = .ok b) :
    ∃ a, x = .ok a ∧ f a = .ok b := by
  cases x with
  | error e => cases h
  | ok a => exact ⟨a, rfl, h⟩

end Exec

end ShmMalloc
