import Mathlib.Data.List.Perm.Subperm
import Mathlib.Data.List.Nodup
import Mathlib.Tactic.Common

/-! Free lists threaded through the slots that they link.

A free slot holds the next free slot. Only the words of the free slots are read, so that
a write to a slot in use changes nothing; a slot is freed by making it the head. -/
namespace ShmMalloc.Library

/-- From `head` on, the links go through these slots and end in `null`. -/
def Chain {α : Type} (null : α) (link : α → α) : α → List α → Prop
  | head, [] => head = null
  | head, o :: os => head = o ∧ o ≠ null ∧ Chain null link (link o) os

namespace Chain
variable {α : Type} {null : α} {link link' : α → α} {head : α} {f g : List α}

theorem congr (h : Chain null link head f) (e : ∀ o ∈ f, link' o = link o) :
    Chain null link' head f := by
  induction f generalizing head with
  | nil => exact h
  | cons o os ih =>
    obtain ⟨h₁, h₂, h₃⟩ := h
    refine ⟨h₁, h₂, ?_⟩
    rw [e o List.mem_cons_self]
    exact ih h₃ fun p hp => e p (List.mem_cons_of_mem o hp)

/-- The links determine the slots. -/
theorem unique (h : Chain null link head f) (h' : Chain null link head g) : f = g := by
  induction f generalizing head g with
  | nil =>
    cases g with
    | nil => rfl
    | cons o os => exact absurd (h'.1.symm.trans h) h'.2.1
  | cons o os ih =>
    cases g with
    | nil => exact absurd (h.1.symm.trans h') h.2.1
    | cons p ps =>
      obtain rfl : o = p := h.1.symm.trans h'.1
      rw [ih h.2.2 h'.2.2]

/-- A slot that is not in the list becomes its head. -/
theorem push [DecidableEq α] (h : Chain null link head f) {o : α} (ho : o ∉ f) (hn : o ≠ null) :
    Chain null (Function.update link o head) o (o :: f) := by
  refine ⟨rfl, hn, ?_⟩
  rw [Function.update_self]
  refine h.congr fun p hp => Function.update_of_ne ?_ ..
  rintro rfl
  exact ho hp

end Chain

/-- Different slots out of a list with no more of them are all of its slots. -/
theorem mem_of_length_le {α : Type} {f slots : List α} (hnd : f.Nodup) (hsub : ∀ o ∈ f, o ∈ slots)
    (hlen : slots.length ≤ f.length) {o : α} (ho : o ∈ slots) : o ∈ f :=
  ((hnd.subperm hsub).perm_of_length_le hlen).mem_iff.mpr ho

end ShmMalloc.Library
