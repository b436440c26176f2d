import ShmMalloc.Arena.NewChunk
import ShmMalloc.Heap.Same

/-! Arenas and slots: what is entered, and what is cleared.

A change to the arena table is to one entry. The entry says which of its slots are in
use, and so which chunks there are. -/
namespace ShmMalloc

section
variable {s s' : Shm} {ls lm : List Nat}

/-- One entry is another. -/
def SetAt (s s' : Shm) (i : Nat) (a : ShmArena) : Prop := s'.arenas = fun j => if j = i then a else s.arenas j

theorem SetAt.self {i : Nat} {a : ShmArena} (e : SetAt s s' i a) : s'.arenas i = a := by
  rw [e]
  exact if_pos rfl

theorem SetAt.other {i j : Nat} {a : ShmArena} (e : SetAt s s' i a) (hj : j ≠ i) : s'.arenas j = s.arenas j := by
  rw [e]
  exact if_neg hj

/-- The slots of one arena are others. -/
theorem SetAt.isChunk {i : Nat} {a : ShmArena} (e : SetAt s s' i a) (c : Nat) : IsChunk s' c ↔
    (∃ j k, j ≠ i ∧ k ∈ slotsUsed (s.arenas j) ∧ (j ≠ 0 ∨ k ≠ 0) ∧ c = slotPos j k) ∨
      ∃ k ∈ slotsUsed a, (i ≠ 0 ∨ k ≠ 0) ∧ c = slotPos i k := by
  constructor
  · rintro ⟨j, k, hk, hne, hc⟩
    by_cases hj : j = i
    · subst hj
      rw [e.self] at hk
      exact .inr ⟨k, hk, hne, hc⟩
    · rw [e.other hj] at hk
      exact .inl ⟨j, k, hj, hk, hne, hc⟩
  · rintro (⟨j, k, hj, hk, hne, hc⟩ | ⟨k, hk, hne, hc⟩)
    · exact ⟨j, k, by rwa [e.other hj], hne, hc⟩
    · exact ⟨i, k, by rwa [e.self], hne, hc⟩

theorem SetAt.arena {i : Nat} {a : ShmArena} (e : SetAt s s' i a) (h : ∀ j, ArenaOk j (s.arenas j))
    (ha : ArenaOk i a) (j : Nat) : ArenaOk j (s'.arenas j) := by
  by_cases hj : j = i
  · subst hj
    rwa [e.self]
  · rw [e.other hj]
    exact h j

theorem SetAt.refl (s : Shm) (i : Nat) : SetAt s s i (s.arenas i) := by
  funext j
  split
  · next hj => rw [hj]
  · rfl

/-- One more slot of an arena is in use. -/
theorem ArenasHold.enter (h : ArenasHold s ls lm) {i k : Nat} {a : ShmArena} (e : SetAt s s' i a)
    (hok : ArenasOk s'.arenas) (ha : ArenaOk i a) (hne : i ≠ 0 ∨ k ≠ 0)
    (hs : slotsUsed a = insert k (slotsUsed (s.arenas i))) : ArenasHold s' (slotPos i k :: ls) lm := by
  refine ⟨hok, e.arena h.arena ha, fun c => ?_⟩
  have hold := h.registered c
  rw [(SetAt.refl s i).isChunk] at hold
  rw [e.isChunk, hs, List.mem_cons, or_assoc, ← hold]
  constructor
  · rintro (hc | ⟨k', hk, hne', hc⟩)
    · exact .inr (.inl hc)
    · rcases Finset.mem_insert.mp hk with rfl | hk
      · exact .inl hc
      · exact .inr (.inr ⟨k', hk, hne', hc⟩)
  · rintro (hc | hc | ⟨k', hk, hne', hc⟩)
    · exact .inr ⟨k, Finset.mem_insert_self _ _, hne, hc⟩
    · exact .inl hc
    · exact .inr ⟨k', Finset.mem_insert_of_mem hk, hne', hc⟩

/-- The chunks of an arena whose slots stay are the same. -/
theorem ArenasHold.set (h : ArenasHold s ls lm) {i : Nat} {a : ShmArena} (e : SetAt s s' i a)
    (hok : ArenasOk s'.arenas) (ha : ArenaOk i a) (hs : slotsUsed a = slotsUsed (s.arenas i)) :
    ArenasHold s' ls lm := by
  refine ⟨hok, e.arena h.arena ha, fun c => ?_⟩
  rw [e.isChunk, hs, ← h.registered c, (SetAt.refl s i).isChunk]

/-- A slot of an arena is not in use any more. -/
theorem ArenasHold.leave (h : ArenasHold s ls lm) {i k : Nat} {a : ShmArena} {ls' lm' : List Nat}
    (e : SetAt s s' i a) (hok : ArenasOk s'.arenas) (ha : ArenaOk i a) (hk : k < 8)
    (hs : slotsUsed a = (slotsUsed (s.arenas i)).erase k)
    (hl : ∀ c, c ∈ ls' ∨ c ∈ lm' ↔ (c ∈ ls ∨ c ∈ lm) ∧ c ≠ slotPos i k) : ArenasHold s' ls' lm' := by
  refine ⟨hok, e.arena h.arena ha, fun c => ?_⟩
  have hold := h.registered c
  rw [(SetAt.refl s i).isChunk] at hold
  rw [hl, ← hold, e.isChunk, hs]
  constructor
  · rintro (⟨j, k', hj, hk', hne, rfl⟩ | ⟨k', hk', hne, rfl⟩)
    · exact ⟨.inl ⟨j, k', hj, hk', hne, rfl⟩, fun he => hj (slotPos_inj (mem_slotsUsed.mp hk').1 hk he).1⟩
    · obtain ⟨hkk, hk'⟩ := Finset.mem_erase.mp hk'
      exact ⟨.inr ⟨k', hk', hne, rfl⟩, fun he => hkk (slotPos_inj (mem_slotsUsed.mp hk').1 hk he).2⟩
  · rintro ⟨hc | ⟨k', hk', hne, rfl⟩, hcc⟩
    · exact .inl hc
    · refine .inr ⟨k', Finset.mem_erase.mpr ⟨?_, hk'⟩, hne, rfl⟩
      rintro rfl
      exact hcc rfl

/-! ### Entries -/

theorem slotsUsed_setChunk (a : ShmArena) {k c : Nat} (hk : k < 8) (hc : c ≠ 0) (u : Nat) :
    slotsUsed {a.setChunk k c with used := u} = insert k (slotsUsed a) := by
  ext j
  rw [Finset.mem_insert, mem_slotsUsed, mem_slotsUsed]
  show j < 8 ∧ (if j = k then c else a.chunks j) ≠ 0 ↔ _
  by_cases hj : j = k
  · subst hj
    rw [if_pos rfl]
    exact iff_of_true ⟨hk, hc⟩ (.inl rfl)
  · rw [if_neg hj]
    exact ⟨.inr, fun h => h.resolve_left hj⟩

theorem slotsUsed_clearChunk (a : ShmArena) (k u : Nat) :
    slotsUsed {a.setChunk k 0 with used := u} = (slotsUsed a).erase k := by
  ext j
  rw [Finset.mem_erase, mem_slotsUsed, mem_slotsUsed]
  show j < 8 ∧ (if j = k then 0 else a.chunks j) ≠ 0 ↔ _
  by_cases hj : j = k
  · rw [if_pos hj]
    exact iff_of_false (fun h => h.2 rfl) fun h => h.1 hj
  · rw [if_neg hj]
    exact ⟨fun h => ⟨hj, h⟩, And.right⟩

theorem slotsUsed_zero {a : ShmArena} (h : a.chunks = fun _ => 0) : slotsUsed a = ∅ := by
  refine Finset.eq_empty_iff_forall_notMem.mpr fun k hk => (mem_slotsUsed.mp hk).2 ?_
  rw [h]

/-- An empty slot is filled. -/
theorem ArenaOk.setChunk {i k : Nat} {a : ShmArena} (h : ArenaOk i a) (hk : k < 8) (hfree : a.chunks k = 0)
    (hne : i ≠ 0 ∨ k ≠ 0) (ht : a.type = .context ∨ a.type = .chunk) :
    ArenaOk i {a.setChunk k (slotPos i k) with used := a.used + 1} := by
  have hs := slotsUsed_setChunk a hk (slotPos_ne hne) (a.used + 1)
  have hnot : k ∉ slotsUsed a := fun hm => (mem_slotsUsed.mp hm).2 hfree
  refine ⟨fun j hj => ?_, fun hi => ?_, ?_, fun he => ?_, fun _ => ?_, h.size⟩
  · show i = 0 ∧ j = 0 ∨ (if j = k then slotPos i k else a.chunks j) = slotPos i j
    by_cases hjk : j = k
    · rw [if_pos hjk, hjk]
      exact .inr rfl
    · rw [if_neg hjk]
      rw [hs] at hj
      exact h.slot j ((Finset.mem_insert.mp hj).resolve_left hjk)
  · show (if 0 = k then slotPos i k else a.chunks 0) = 1
    rw [if_neg fun he => hne.elim (absurd hi) (absurd he.symm)]
    exact h.context hi
  · rw [hs, Finset.card_insert_of_notMem hnot, ← h.used]
  · have he' : a.type = .empty ∨ a.type = .large := he
    rcases ht with ht | ht <;> rw [ht] at he' <;> rcases he' with he' | he' <;> cases he'
  · rw [hs]
    exact Finset.insert_ne_empty _ _

/-- A slot is cleared, of an arena that keeps another one or is the context. -/
theorem ArenaOk.clearChunk {i k : Nat} {a : ShmArena} (h : ArenaOk i a) (hk : k ∈ slotsUsed a)
    (hne : i ≠ 0 ∨ k ≠ 0) (ht : a.type = .context ∨ a.type = .chunk)
    (hleft : a.type = .chunk → a.used ≠ 1) : ArenaOk i {a.setChunk k 0 with used := a.used - 1} := by
  have hs := slotsUsed_clearChunk a k (a.used - 1)
  refine ⟨fun j hj => ?_, fun hi => ?_, ?_, fun he => ?_, fun hc => ?_, h.size⟩
  · rw [hs] at hj
    obtain ⟨hjk, hj⟩ := Finset.mem_erase.mp hj
    show i = 0 ∧ j = 0 ∨ (if j = k then 0 else a.chunks j) = slotPos i j
    rw [if_neg hjk]
    exact h.slot j hj
  · show (if 0 = k then 0 else a.chunks 0) = 1
    rw [if_neg fun he => hne.elim (absurd hi) (absurd he.symm)]
    exact h.context hi
  · rw [hs, Finset.card_erase_of_mem hk, ← h.used]
  · have he' : a.type = .empty ∨ a.type = .large := he
    rcases ht with ht | ht <;> rw [ht] at he' <;> rcases he' with he' | he' <;> cases he'
  · rw [hs]
    refine Finset.card_ne_zero.mp ?_ |>.ne_empty
    rw [Finset.card_erase_of_mem hk, ← h.used]
    have := hleft hc
    have := Finset.card_pos.mpr ⟨k, hk⟩
    rw [← h.used] at this
    omega

/-- An entry without slots. -/
theorem ArenaOk.bare {i : Nat} {a : ShmArena} (hi : i ≠ 0) (ht : a.type = .empty ∨ a.type = .large)
    (hu : a.used = 0) (hc : a.chunks = fun _ => 0) : ArenaOk i a := by
  have hs : slotsUsed a = ∅ := slotsUsed_zero hc
  refine ⟨fun j hj => ?_, fun h => absurd h hi, by rw [hs, hu]; rfl, fun _ => hs, fun h => ?_, fun h => ?_⟩
  · rw [hs] at hj
    cases hj
  · rw [h] at ht
    rcases ht with ht | ht <;> cases ht
  · rcases ht with ht | ht <;> rw [ht] at h <;> rcases h with h | h <;> cases h

/-- A new arena for chunks, with a chunk in its first slot. -/
theorem ArenaOk.chunk {i shmid : Nat} (hi : i ≠ 0) : ArenaOk i
    {(⟨.chunk, shmid, i, 2 ^ 23, 0, fun _ => 0⟩ : ShmArena).setChunk 0 (slotPos i 0) with used := 1} := by
  have hs := slotsUsed_setChunk ⟨.chunk, shmid, i, 2 ^ 23, 0, fun _ => 0⟩ (by omega : 0 < 8)
    (slotPos_ne (k := 0) (.inl hi)) 1
  rw [slotsUsed_zero (a := ⟨.chunk, shmid, i, 2 ^ 23, 0, fun _ => 0⟩) rfl] at hs
  refine ⟨fun j hj => ?_, fun h => absurd h hi, by rw [hs]; rfl, fun h => ?_, fun _ => ?_, fun _ => rfl⟩
  · rw [hs] at hj
    obtain rfl : j = 0 := Finset.mem_singleton.mp hj
    exact .inr rfl
  · rcases h with h | h <;> cases h
  · rw [hs]
    exact Finset.insert_ne_empty _ _

end

end ShmMalloc
