import ShmMalloc.Process.Writes

/-! What an operation does to the arena table and to its process's table.

Whatever the pools hold, an operation looks up arenas, may create one, and may delete
one at its end. Everything else that it does leaves the types and the segments of the
arenas alone (`Quiet`). The invariants of the tables are about these steps only. -/
namespace ShmMalloc

/-- Arenas may get and lose chunks, but no arena comes or goes. -/
structure Quiet (s s' : Shm) : Prop where
  type : ∀ i, (s'.arenas i).type = (s.arenas i).type
  shmid : ∀ i, (s'.arenas i).shmid = (s.arenas i).shmid
  index : ∀ i, (s'.arenas i).index = (s.arenas i).index
  arenaAddrs : s'.arenaAddrs = s.arenaAddrs
  sys : s'.sys = s.sys

namespace Quiet

theorem of_eq {s s' : Shm} (ha : s'.arenas = s.arenas) (ht : s'.arenaAddrs = s.arenaAddrs)
    (hs : s'.sys = s.sys) : Quiet s s' :=
  ⟨fun i => by rw [ha], fun i => by rw [ha], fun i => by rw [ha], ht, hs⟩

theorem setArena (s : Shm) {index : Nat} {a : ShmArena} (ht : a.type = (s.arenas index).type)
    (hm : a.shmid = (s.arenas index).shmid) (hi : a.index = (s.arenas index).index) :
    Quiet s (s.setArena index a) where
  type i := by
    show (if i = index then a else s.arenas i).type = _
    split
    · next h => rw [h, ht]
    · rfl
  shmid i := by
    show (if i = index then a else s.arenas i).shmid = _
    split
    · next h => rw [h, hm]
    · rfl
  index i := by
    show (if i = index then a else s.arenas i).index = _
    split
    · next h => rw [h, hi]
    · rfl
  arenaAddrs := rfl
  sys := rfl

theorem setPool (s : Shm) (type : ChunkType) (t : Rbtree.State Nat ChunkTreeValue) :
    Quiet s (s.setPool type t) := by
  unfold Shm.setPool
  split <;> exact of_eq rfl rfl rfl

end Quiet

/-- Lookups, and changes that leave the arenas alone. -/
inductive Calm : Shm → Shm → Prop where
  | refl (s : Shm) : Calm s s
  | quiet {s s₁ s₂ : Shm} (h : Calm s s₁) (q : Quiet s₁ s₂) : Calm s s₂
  | look {s s₁ s₂ : Shm} {index : Nat} {r : Option Nat} (h : Calm s s₁)
      (e : getOrUpdateArenaAddr s₁ index = .ok (s₂, r)) : Calm s s₂

theorem Calm.trans {s s' s'' : Shm} (h : Calm s s') (h' : Calm s' s'') : Calm s s'' := by
  induction h' with
  | refl => exact h
  | quiet _ q ih => exact ih.quiet q
  | look _ e ih => exact ih.look e

theorem Quiet.calm {s s' : Shm} (q : Quiet s s') : Calm s s' := (Calm.refl s).quiet q

theorem Calm.type {s s' : Shm} (h : Calm s s') (i : Nat) : (s'.arenas i).type = (s.arenas i).type := by
  induction h with
  | refl => rfl
  | quiet _ q ih => exact (q.type i).trans ih
  | look _ e ih => rw [getOrUpdateArenaAddr_arenas e, ih]

/-- The states that an operation passes before it deletes an arena: at most one is created. -/
def Passes (os : Os) (s u : Shm) : Prop :=
  ∃ s₁ s₂, Calm s s₁ ∧ (s₂ = s₁ ∨ Creates os s₁ s₂) ∧ Calm s₂ u

/-- What an operation does: at its end it may delete an arena. -/
def Effect (os : Os) (s s' : Shm) : Prop := ∃ u, Passes os s u ∧ (s' = u ∨ Deletes u s')

namespace Passes
variable {os : Os} {s s' s'' : Shm}

theorem of_calm (h : Calm s s') : Passes os s s' := ⟨s, s, .refl s, .inl rfl, h⟩

theorem refl (s : Shm) : Passes os s s := of_calm (.refl s)

theorem after (h : Calm s s') (h' : Passes os s' s'') : Passes os s s'' := by
  obtain ⟨s₁, s₂, hc, hn, hc'⟩ := h'
  exact ⟨s₁, s₂, h.trans hc, hn, hc'⟩

theorem new {type : ArenaType} {size : Nat} {r : Option Nat} (ht : type = .chunk ∨ type = .large)
    (h : newArena s type size os = .ok (s', r)) : Passes os s s' :=
  ⟨s, s', .refl s, .inr ⟨type, size, r, ht, h⟩, .refl s'⟩

end Passes

section Operations
variable {s s' : Shm} {os : Os}

theorem Writes.calm (h : Writes s s') : Calm s s' := by
  induction h with
  | refl => exact .refl _
  | look _ e ih => exact ih.look e
  | pool _ type t ih => exact ih.quiet (.setPool ..)
  | slot _ index a ht hm hi ih => exact ih.quiet (.setArena _ ht hm hi)
  | start _ c idx type hty ih =>
    obtain ⟨link, data, hs⟩ := startRun_fields _ c idx type
    rw [hs]
    exact ih.quiet (.of_eq rfl rfl rfl)
  | _ =>
    rename_i ih
    exact ih.quiet (.of_eq rfl rfl rfl)

theorem Works.passes (h : Works os s s') : Passes os s s' := by
  obtain ⟨s₁, s₂, hw, hn, hw'⟩ := h
  exact ⟨s₁, s₂, hw.calm, hn, hw'.calm⟩

/-- What a public operation does, whatever the pools hold. -/
theorem Call.effect {c : Call} {ret : Nat} (h : c.run s os = .ok (s', ret)) : Effect os s s' := by
  obtain ⟨u, hw, hu⟩ := Call.does h
  exact ⟨u, hw.passes, hu⟩

theorem visit_calm {visits : List Nat} (h : visit s visits = .ok s') : Calm s s' :=
  (visit_writes h).calm

theorem Effect.after {u : Shm} (h : Calm s u) (h' : Effect os u s') : Effect os s s' := by
  obtain ⟨v, hp, hv⟩ := h'
  exact ⟨v, .after h hp, hv⟩

end Operations

end ShmMalloc
