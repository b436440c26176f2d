import Mathlib.Tactic.Common

/-! `while` loops, with the states that their iterations start from.

An iteration goes on with a state or breaks with a result. The rule for such a loop is an
invariant that also bounds the iterations left: it tells that the loop ends, how soon, what
each iteration can rely on, and what holds of the result. -/
namespace ShmMalloc.Library

structure Loop (S T E : Type) where
  test : S → Bool
  body : S → Except E (S ⊕ T)
  /-- The result when the test ends the loop. -/
  exit : S → T

namespace Loop
variable {S T E : Type} (L : Loop S T E)

/-- The states that the iterations start from, and the result. Every iteration takes a unit
of fuel, and so does the last test; `out` is the error of a loop that is out of fuel. -/
def run (out : E) : Nat → S → Except E (List S × T)
  | 0, _ => .error out
  | fuel + 1, s =>
    if L.test s then
      match L.body s with
      | .error e => .error e
      | .ok (.inl s') => (run out fuel s').map fun x => (s :: x.1, x.2)
      | .ok (.inr t) => .ok ([s], t)
    else .ok ([], L.exit s)

variable {L} {out : E} {fuel : Nat} {s : S}

theorem run_exit (h : L.test s = false) : L.run out (fuel + 1) s = .ok ([], L.exit s) := by
  rw [run, if_neg (by rw [h]; decide)]

theorem run_next {s' : S} (h : L.test s = true) (hb : L.body s = .ok (.inl s')) :
    L.run out (fuel + 1) s = (L.run out fuel s').map fun x => (s :: x.1, x.2) := by
  rw [run, if_pos h, hb]

theorem run_break {t : T} (h : L.test s = true) (hb : L.body s = .ok (.inr t)) :
    L.run out (fuel + 1) s = .ok ([s], t) := by
  rw [run, if_pos h, hb]

/-- The result alone, one iteration at a time. -/
theorem run_snd : (L.run out (fuel + 1) s).map Prod.snd = if L.test s then
    L.body s >>= Sum.elim (fun s' => (L.run out fuel s').map Prod.snd) .ok else .ok (L.exit s) := by
  cases htest : L.test s with
  | false =>
    rw [run_exit htest]
    rfl
  | true =>
    rw [if_pos rfl]
    cases hbody : L.body s with
    | error e =>
      rw [run, if_pos htest, hbody]
      rfl
    | ok y =>
      cases y with
      | inl s' =>
        rw [run_next htest hbody]
        show _ = (L.run out fuel s').map Prod.snd
        cases L.run out fuel s' <;> rfl
      | inr t =>
        rw [run_break htest hbody]
        rfl

/-- The rule of a loop: `inv n s` holds where at most `n` iterations are left. -/
theorem run_ok (inv : Nat → S → Prop) (safe : S → Prop) (post : T → Prop)
    (hbody : ∀ n s, inv n s → L.test s = true → safe s ∧ ∃ m < n,
      (∃ s', L.body s = .ok (.inl s') ∧ inv m s') ∨ ∃ t, L.body s = .ok (.inr t) ∧ post t)
    (hexit : ∀ n s, inv n s → L.test s = false → post (L.exit s)) {n : Nat} (h : inv n s)
    (hf : n < fuel) :
    ∃ ss t, L.run out fuel s = .ok (ss, t) ∧ ss.length ≤ n ∧ (∀ s ∈ ss, safe s) ∧ post t := by
  induction fuel generalizing s n with
  | zero => omega
  | succ fuel ih =>
    cases htest : L.test s with
    | false => exact ⟨[], _, run_exit htest, Nat.zero_le n, by simp, hexit n s h htest⟩
    | true =>
      obtain ⟨hsafe, m, hm, ⟨s', hrun, hinv⟩ | ⟨t, hrun, hpost⟩⟩ := hbody n s h htest
      · obtain ⟨ss, t, hrest, hlen, hall, hpost⟩ := ih hinv (by omega)
        refine ⟨s :: ss, t, by rw [run_next htest hrun, hrest]; rfl, ?_, ?_, hpost⟩
        · rw [List.length_cons]
          omega
        · exact List.forall_mem_cons.mpr ⟨hsafe, hall⟩
      · refine ⟨[s], t, run_break htest hrun, ?_, by simpa using hsafe, hpost⟩
        rw [List.length_singleton]
        omega

end Loop

end ShmMalloc.Library
