import Mathlib.Tactic.Common

/-! Programs that ask a system, one request after the other.

What the system answers is not known; a service says which requests it accepts in a
state, which answers it may give, and the state that it is in then. The weakest
precondition of a script is about all its answers, and it passes through a script
along every run. -/
namespace ShmMalloc.Library

/-- Requests `C` with answers `R`; a script that fails stops its process. -/
inductive Script (C R E α : Type) where
  | ret (a : α)
  | fail (e : E)
  | ask (c : C) (k : R → Script C R E α)

structure Service (C R S : Type) where
  accepts : S → C → Prop
  answers : S → C → R → Prop
  next : S → C → R → S

namespace Script
variable {C R E S α β : Type}

def bind (p : Script C R E α) (f : α → Script C R E β) : Script C R E β :=
  match p with
  | ret a => f a
  | fail e => fail e
  | ask c k => ask c fun r => (k r).bind f

instance : Monad (Script C R E) where
  pure := ret
  bind := bind

/-- Every request is accepted, and what is returned or failed with is as said, whatever the answers. -/
def Wp (V : Service C R S) (post : α → S → Prop) (bad : E → S → Prop) : Script C R E α → S → Prop
  | ret a, s => post a s
  | fail e, s => bad e s
  | ask c k, s => V.accepts s c ∧ ∀ r, V.answers s c r → (k r).Wp V post bad (V.next s c r)

variable {V : Service C R S} {post : α → S → Prop} {bad : E → S → Prop} {p : Script C R E α} {s : S}

@[simp] theorem wp_pure (a : α) : (pure a : Script C R E α).Wp V post bad s ↔ post a s := .rfl

@[simp] theorem wp_fail (e : E) : (fail e : Script C R E α).Wp V post bad s ↔ bad e s := .rfl

@[simp] theorem wp_ask (c : C) (k : R → Script C R E α) : (ask c k).Wp V post bad s ↔
    V.accepts s c ∧ ∀ r, V.answers s c r → (k r).Wp V post bad (V.next s c r) := .rfl

/-- A sequence: the second part does its share in each state that the first part leaves. -/
@[simp] theorem wp_bind {post : β → S → Prop} (f : α → Script C R E β) :
    (p >>= f).Wp V post bad s ↔ p.Wp V (fun a s => (f a).Wp V post bad s) bad s := by
  induction p generalizing s with
  | ret a => exact .rfl
  | fail e => exact .rfl
  | ask c k ih => exact and_congr_right fun _ => forall_congr' fun r => imp_congr_right fun _ => ih r

/-- The script and the state after some requests. -/
inductive Run (V : Service C R S) : Script C R E α → S → Script C R E α → S → Prop where
  | refl (p : Script C R E α) (s : S) : Run V p s p s
  | step {p : Script C R E α} {s : S} {c : C} {k : R → Script C R E α} {s₁ : S} {r : R}
    (h : Run V p s (ask c k) s₁) (hr : V.answers s₁ c r) : Run V p s (k r) (V.next s₁ c r)

theorem Run.head {c : C} {k : R → Script C R E α} {q : Script C R E α} {s' : S} (r : R) (hr : V.answers s c r)
    (h : Run V (k r) (V.next s c r) q s') : Run V (ask c k) s q s' := by
  induction h with
  | refl => exact .step (.refl _ _) hr
  | step _ hr' ih => exact ih.step hr'

/-- A run of a sequence, from runs of its parts. -/
theorem Run.bind {a : α} {f : α → Script C R E β} {q : Script C R E β} {s₁ s₂ : S} (h : Run V p s (ret a) s₁)
    (h' : Run V (f a) s₁ q s₂) : Run V (p >>= f) s q s₂ := by
  have hbind : ∀ {p' : Script C R E α} {s' : S}, Run V p s p' s' → Run V (p >>= f) s (p' >>= f) s' := fun h => by
    induction h with
    | refl => exact .refl _ _
    | step _ hr ih => exact ih.step hr
  have hrest : ∀ {p' : Script C R E β} {s' : S}, Run V (f a) s₁ p' s' → Run V (p >>= f) s p' s' := fun h => by
    induction h with
    | refl => exact hbind ‹_›
    | step _ hr ih => exact ih.step hr
  exact hrest h'

theorem Wp.run {q : Script C R E α} {s' : S} (h : p.Wp V post bad s) (hr : Run V p s q s') : q.Wp V post bad s' := by
  induction hr with
  | refl => exact h
  | step _ hr ih => exact ih.2 _ hr

end Script

end ShmMalloc.Library
