import ShmMalloc.Heap.Calls
import ShmMalloc.Process.Keys

/-! Where `new_chunk` puts a chunk.

The scan tests each arena for being a context twice, and never for being an arena of
chunks. So the empty slots of arena 0 are used, and those of other arenas never are. -/
namespace ShmMalloc
open Library

/-- An empty slot, which is not the one of the context itself. -/
def EmptySlot (s : Shm) (i k : Nat) : Prop :=
  i < 128 ∧ k < 8 ∧ ((s.arenas i).type = .context ∨ (s.arenas i).type = .chunk) ∧
    (i ≠ 0 ∨ k ≠ 0) ∧ (s.arenas i).chunks k = 0

/-- The system refuses the segment of a new arena. -/
def Refused (s : Shm) (os : Os) : Prop :=
  ∀ shmid index, os = .created shmid → findEmptyArena s 127 1 = some index →
    (mmapNewArena s index shmid).2.2 = none

/-- No arena of chunks has an empty slot. -/
def ChunksFull (s : Shm) : Prop :=
  ∀ i k, i < 128 → k < 8 → (s.arenas i).type = .chunk → (s.arenas i).chunks k ≠ 0

/-- A chunk is entered in slot `k` of arena `i`, whose entry was `a`, and its header is written. The
other arenas are as they were, and so are the process's entries for them. -/
structure PlacedAt (s s' : Shm) (type : ChunkType) (i k : Nat) (a : ShmArena) : Prop where
  slot : s'.arenas i = {a.setChunk k (index2pos i (k * 2 ^ 20)) with used := a.used + 1}
  arenas : ∀ j ≠ i, s'.arenas j = s.arenas j
  header : s'.header (index2pos i (k * 2 ^ 20)) = ⟨type, index2pos i (k * 2 ^ 20)⟩
  addrs : ∀ j ≠ i, s'.arenaAddrs j = s.arenaAddrs j

/-- `new_arena` is not called: the system is not asked, no segment is created, and nothing is
cleared. -/
structure NothingNew (s s' : Shm) (type : ChunkType) (r : Option Nat) : Prop where
  asked : ∀ os, newChunk s type os = .ok (s', r)
  created : s'.sys.created = s.sys.created
  headers : ∀ c, r ≠ some c → s'.header c = s.header c

/-- A chunk goes into an existing arena where one has room. A new arena is for the chunk only when
none has, and there is no chunk only when there can be no new arena either. -/
structure Reuses (s s' : Shm) (type : ChunkType) (os : Os) (r : Option Nat) : Prop where
  reused : (∃ i k, EmptySlot s i k) → NothingNew s s' type r ∧
    ∃ i k, EmptySlot s i k ∧ r = some (index2pos i (k * 2 ^ 20)) ∧ PlacedAt s s' type i k (s.arenas i)
  opened : ∀ c, r = some c → (¬∃ i k, EmptySlot s i k) →
    ∃ i shmid, findEmptyArena s 127 1 = some i ∧ c = index2pos i 0 ∧
      PlacedAt s s' type i 0 ⟨.chunk, shmid, i, 2 ^ 23, 0, fun _ => 0⟩
  refused : r = none → (¬∃ i k, EmptySlot s i k) ∧ SameHeap s s' ∧
    ((∀ i, 1 ≤ i → i < 128 → (s.arenas i).type ≠ .empty) ∨ Refused s os)

section Result
variable {s s₁ s' : Shm} {type : ChunkType} {os : Os} {r : Option Nat}

/-- Where arena 0 is full, an empty slot is in an arena of chunks. -/
theorem ContextState.emptySlot_iff (h : ContextState s) (hr : ¬ContextRoom s) :
    (¬∃ i k, EmptySlot s i k) ↔ ChunksFull s := by
  constructor
  · intro hnone i k hi hk htype hslot
    have h₀ : i ≠ 0 := by
      rintro rfl
      rw [(h.context 0 hi).mpr rfl] at htype
      cases htype
    exact hnone ⟨i, k, hi, hk, .inr htype, .inl h₀, hslot⟩
  · rintro hfull ⟨i, k, hi, hk, htype | htype, hne, hslot⟩
    · obtain rfl := (h.context i hi).mp htype
      exact hr ⟨k, by omega, hk, hslot⟩
    · exact hfull i k hi hk htype hslot

/-! ### A chunk in its place -/

theorem initChunk_fields {c : Nat} (h : initChunk s c c type = .ok s') :
    s'.arenas = s.arenas ∧ s'.arenaAddrs = s.arenaAddrs ∧ s'.sys = s.sys ∧ s'.header c = ⟨type, c⟩ ∧
      ∀ q ≠ c, s'.header q = s.header q := by
  have hinsert : ∀ {u : Shm} {m : Nat}, insertChunk u c type m = .ok s' →
      s'.arenas = u.arenas ∧ s'.arenaAddrs = u.arenaAddrs ∧ s'.sys = u.sys ∧ s'.header = u.header := by
    intro u m h
    obtain ⟨t, -, h⟩ := Exec.bind_ok h
    obtain rfl := Except.ok.inj h
    unfold Shm.setPool
    split <;> exact ⟨rfl, rfl, rfl, rfl⟩
  have hheader : ∀ q ≠ c, (writeHeader s c type).header q = s.header q := fun q hq =>
    (if_neg hq).trans (if_neg hq)
  rw [initChunk_eq] at h
  split at h
  · obtain ⟨ha, hd, hs, hh⟩ := hinsert h
    exact ⟨ha, hd, hs, by rw [hh]; exact if_pos rfl, fun q hq => by rw [hh]; exact hheader q hq⟩
  · obtain ⟨u, hinit, h⟩ := Exec.bind_ok h
    obtain ⟨d, -, hinit⟩ := Exec.bind_ok hinit
    obtain rfl := Except.ok.inj hinit
    obtain ⟨ha, hd, hs, hh⟩ := hinsert h
    exact ⟨ha, hd, hs, by rw [hh]; exact if_pos rfl, fun q hq => by rw [hh]; exact hheader q hq⟩

/-- The slot of the chunk is entered, and the chunk is written. -/
theorem enterChunk_placed {i k : Nat} (hk : k < 8) (harenas : ∀ j ≠ i, s₁.arenas j = s.arenas j)
    (haddrs : ∀ j ≠ i, s₁.arenaAddrs j = s.arenaAddrs j)
    (h : startChunk (enterChunk s₁ i k (index2pos i (k * 2 ^ 20))) (index2pos i (k * 2 ^ 20)) type = .ok (s', r)) :
    PlacedAt s s' type i k (s₁.arenas i) ∧ s'.sys.created = s₁.sys.created ∧
      ∀ c ≠ index2pos i (k * 2 ^ 20), s'.header c = s₁.header c := by
  have hindex : pos2index (index2pos i (k * 2 ^ 20)) = i := by
    rw [index2pos_slot hk, pos2index_eq]
    omega
  unfold startChunk at h
  obtain ⟨s₂, hlook, h⟩ := Exec.bind_ok h
  obtain ⟨s₃, hinit, h⟩ := Exec.bind_ok h
  obtain ⟨rfl, -⟩ := Prod.mk.inj (Except.ok.inj h)
  have hsame := getOrUpdateAddr_same hlook
  obtain ⟨-, addr, hlook⟩ := getOrUpdateAddr_cases hlook
  rw [hindex] at hlook
  obtain ⟨⟨l, n, hsys⟩, hothers⟩ := getOrUpdateArenaAddr_fields hlook
  obtain ⟨ha, hd, hs, hh, hne⟩ := initChunk_fields hinit
  refine ⟨⟨?_, fun j hj => ?_, hh, fun j hj => ?_⟩, ?_, fun c hc => ?_⟩
  · rw [ha, hsame.arenas]
    exact if_pos rfl
  · rw [ha, hsame.arenas]
    exact (if_neg hj).trans (harenas j hj)
  · rw [hd, hothers j hj]
    exact haddrs j hj
  · rw [hs, hsys]
    rfl
  · rw [hne c hc, hsame.objects.header c trivial]
    rfl

theorem Caller.context {w : HeapWorld} {pid : Nat} {shmat : Nat → Nat → List Attach → Option Nat}
    (h : Caller w pid shmat s) : ContextState s := by
  obtain ⟨ls, lm, pool, hheap, -⟩ := h.heap
  exact hheap.arenas.contextState

/-- In an empty slot of arena 0. -/
theorem ContextState.reuses_room (h : ContextState s) (hroom : ContextRoom s)
    (hrun : newChunk s type os = .ok (s', r)) : Reuses s s' type os r := by
  obtain ⟨k, h₁, h₂, h₃, hfind⟩ := findArenaChunk_room h hroom
  have hpos : k * 2 ^ 20 ≠ 0 := by omega
  have hslot : EmptySlot s 0 k :=
    ⟨by omega, h₂, .inl ((h.context 0 (by omega)).mpr rfl), .inr (by omega), h₃⟩
  have hnew : ∀ os, newChunk s type os =
      startChunk (enterChunk s 0 k (index2pos 0 (k * 2 ^ 20))) (index2pos 0 (k * 2 ^ 20)) type := fun os => by
    rw [newChunk_found hfind hpos, index2pos_slot h₂, Nat.zero_mul, Nat.zero_add]
  rw [hnew] at hrun
  obtain rfl := startChunk_pos hrun
  obtain ⟨hplaced, hcreated, hheaders⟩ := enterChunk_placed h₂ (fun _ _ => rfl) (fun _ _ => rfl) hrun
  exact ⟨fun _ => ⟨⟨fun os => (hnew os).trans hrun, hcreated, fun c hc => hheaders c fun he => hc (he ▸ rfl)⟩,
      0, k, hslot, rfl, hplaced⟩,
    fun _ _ hnone => absurd ⟨0, k, hslot⟩ hnone, fun hn => by cases hn⟩

theorem enterArena_others (s : Shm) (type : ArenaType) (size shmid addr : Nat) {index j : Nat} (h : j ≠ index) :
    (enterArena s type size index shmid addr).arenas j = s.arenas j ∧
      (enterArena s type size index shmid addr).arenaAddrs j = s.arenaAddrs j := ⟨if_neg h, if_neg h⟩

/-- The system has refused, or a new arena holds the chunk. -/
theorem newArena_placed (type : ChunkType) {index : Nat} {o : Option Nat} (hindex : findEmptyArena s 127 1 = some index)
    (hnew : newArena s .chunk (2 ^ 23) os = .ok (s₁, o)) : o = none ∧ SameHeap s s₁ ∧ Refused s os ∨
      o = some index ∧ ∃ shmid, (newArenaChunk s₁ index).2 = index2pos index (0 * 2 ^ 20) ∧
        ∀ s' r, startChunk (newArenaChunk s₁ index).1 (index2pos index (0 * 2 ^ 20)) type = .ok (s', r) →
          PlacedAt s s' type index 0 ⟨.chunk, shmid, index, 2 ^ 23, 0, fun _ => 0⟩ := by
  obtain ⟨-, ⟨-, -, hnone⟩ | ⟨index', hindex', hcase⟩⟩ := newArena_cases hnew
  · rw [hnone] at hindex
    cases hindex
  obtain rfl : index' = index := Option.some.inj (hindex'.symm.trans hindex)
  rcases hcase with ⟨hos, rfl, rfl⟩ | ⟨m, rfl, rfl, rfl⟩ | ⟨m, rfl, hnone, rfl, rfl⟩ | ⟨m, addr, rfl, -, rfl, rfl⟩
  · refine .inl ⟨rfl, .refl _, fun shmid _ hos' => ?_⟩
    rcases hos with rfl | rfl <;> cases hos'
  · exact .inl ⟨rfl, mmapNewArena_same s index' m, fun shmid _ hos' => by cases hos'⟩
  · refine .inl ⟨rfl, mmapNewArena_same s index' m, fun shmid i hos' hi => ?_⟩
    obtain rfl := Os.created.inj hos'
    obtain rfl : index' = i := Option.some.inj (hindex.symm.trans hi)
    exact hnone
  · have hself : (enterArena (mmapNewArena s index' m).1 .chunk (2 ^ 23) index' (mmapNewArena s index' m).2.1 addr).arenas
        index' = ⟨.chunk, (mmapNewArena s index' m).2.1, index', 2 ^ 23, 0, fun _ => 0⟩ := by
      rw [enterArena_arenas, if_pos rfl]
    have hpos : index' * 2 ^ 32 = index2pos index' (0 * 2 ^ 20) := by
      rw [index2pos_slot (by omega), Nat.zero_mul, Nat.add_zero]
    refine .inr ⟨rfl, (mmapNewArena s index' m).2.1, ?_, fun s' r hrun => ?_⟩
    · rw [newArenaChunk_new hself, hpos]
    · rw [newArenaChunk_new hself, hpos] at hrun
      have hothers := fun j (hj : j ≠ index') =>
        enterArena_others (mmapNewArena s index' m).1 .chunk (2 ^ 23) (mmapNewArena s index' m).2.1 addr hj
      have hplaced := (enterChunk_placed (s := s) (by omega) (fun j hj => (hothers j hj).1)
        (fun j hj => (hothers j hj).2) hrun).1
      rwa [hself] at hplaced

/-- Not in arena 0. -/
theorem ContextState.reuses_full (h : ContextState s) (hroom : ¬ContextRoom s)
    (hrun : newChunk s type os = .ok (s', r)) : Reuses s s' type os r ↔ ChunksFull s := by
  obtain ⟨e, hfind, hempty⟩ := findArenaChunk_full h hroom
  rw [← h.emptySlot_iff hroom]
  by_cases he : e = 0
  · subst he
    rw [newChunk_none hfind] at hrun
    obtain ⟨rfl, rfl⟩ := Prod.mk.inj (Except.ok.inj hrun)
    exact ⟨fun hreuse => (hreuse.refused rfl).1, fun hnone => ⟨fun hsome => absurd hsome hnone,
      fun c hc => (by cases hc), fun _ => ⟨hnone, .refl s, .inl (hempty.mp rfl)⟩⟩⟩
  obtain ⟨index, hindex⟩ : ∃ index, findEmptyArena s 127 1 = some index := by
    cases hf : findEmptyArena s 127 1 with
    | some index => exact ⟨index, rfl⟩
    | none => exact absurd (hempty.mpr fun j h₁ h₂ => findEmptyArena_none.mp hf j h₁ (by omega)) he
  rw [newChunk_create hfind he] at hrun
  obtain ⟨⟨s₁, o⟩, hnew, hrun⟩ := Exec.bind_ok hrun
  obtain ⟨rfl, hsame, hrefused⟩ | ⟨rfl, shmid, hpos, hplaced⟩ := newArena_placed type hindex hnew
  · obtain ⟨rfl, rfl⟩ := Prod.mk.inj (Except.ok.inj hrun)
    exact ⟨fun hreuse => (hreuse.refused rfl).1, fun hnone => ⟨fun hsome => absurd hsome hnone,
      fun c hc => (by cases hc), fun _ => ⟨hnone, hsame, .inr hrefused⟩⟩⟩
  obtain ⟨-, -, hrun⟩ := Exec.bind_ok hrun
  dsimp only at hrun
  rw [hpos] at hrun
  obtain rfl := startChunk_pos hrun
  constructor
  · -- the chunk is in the new arena, whose entry was empty
    intro hreuse hsome
    obtain ⟨-, i, k, ⟨-, hk, htype, -⟩, hc, -⟩ := hreuse.reused hsome
    have hc := Option.some.inj hc
    rw [index2pos_slot hk, index2pos_slot (by omega)] at hc
    obtain rfl : index = i := by omega
    rw [(findEmptyArena_some hindex).2.2] at htype
    rcases htype with htype | htype <;> cases htype
  · intro hnone
    refine ⟨fun hsome => absurd hsome hnone, fun c hc _ => ⟨index, shmid, hindex, ?_, hplaced s' _ hrun⟩,
      fun hn => by cases hn⟩
    rw [← Option.some.inj hc, Nat.zero_mul]

/-- **`new_chunk` reuses the room of existing arenas** exactly when arena 0 has an empty slot or no
arena of chunks has one. In a state of a run it completes, with the chunk in the pool of its type. -/
theorem newChunk_reuses (h : ContextState s) (type : ChunkType) (os : Os) :
    (∀ s' r, newChunk s type os = .ok (s', r) → (Reuses s s' type os r ↔ ContextRoom s ∨ ChunksFull s)) ∧
    ∀ w pid shmat s₀ visits, Caller w pid shmat s₀ → visit s₀ visits = .ok s → type ≠ .empty →
      (∀ m, os.shmid = some m → m ≠ 0) →
      ∃ s' r, newChunk s type os = .ok (s', r) ∧ ∀ c, r = some c → Pooled s s' type c := by
  constructor
  · intro s' r hrun
    by_cases hroom : ContextRoom s
    · exact iff_of_true (h.reuses_room hroom hrun) (.inl hroom)
    · rw [or_iff_right hroom]
      exact h.reuses_full hroom hrun
  · intro w pid shmat s₀ visits hcaller hvisit ht hos
    obtain ⟨ls, lm, pool, hheap, -⟩ := hcaller.heap
    exact (hheap.same (visit_same hvisit)).new_total (hcaller.table.calm (visit_calm hvisit)) ht hos

end Result

/-- Eight chunks, the last in a new arena. -/
def eightChunks : List Order :=
  .init 1 10 :: (List.range 8).map fun n => .call 1 (.malloc (255 * 4096)) (.created (20 + n))

/-- The ninth chunk is not put into arena 1, which has seven empty slots. -/
theorem ninth_chunk : ∃ w s s', Caller w 1 servingShmat s ∧ EmptySlot s 1 1 ∧
    newChunk s .medium (.created 30) = .ok (s', some (index2pos 2 0)) := by
  obtain ⟨w, s, h, ht⟩ := exists_caller 1 eightChunks (p := fun w =>
    let s := w.world.load (w.world.proc 1) servingShmat
    decide ((s.arenas 1).type = .chunk ∧ (s.arenas 1).chunks 1 = 0) &&
      (newChunk s .medium (.created 30)).toOption.any fun r : Shm × Option Nat => decide (r.2 = some (index2pos 2 0))) (by decide +kernel)
  dsimp only at ht
  rw [← h.load, Bool.and_eq_true, decide_eq_true_iff] at ht
  obtain ⟨⟨htype, hslot⟩, ht⟩ := ht
  obtain ⟨⟨s', r⟩, hnew, hr⟩ := exists_ok ht
  obtain rfl : r = some (index2pos 2 0) := of_decide_eq_true hr
  exact ⟨w, s, s', h, ⟨by decide, by decide, .inr htype, .inl (by decide), hslot⟩, hnew⟩

/-- Arena 1 has an empty slot, and the chunk goes into arena 2, which is new. -/
theorem newChunk_passes_by : ∃ s s', ContextState s ∧ EmptySlot s 1 1 ∧
    newChunk s .medium (.created 30) = .ok (s', some (index2pos 2 0)) := by
  obtain ⟨w, s, s', h, hslot, hnew⟩ := ninth_chunk
  exact ⟨s, s', h.context, hslot, hnew⟩

theorem newChunk_reuses_test : ∃ w s s', Caller w 1 servingShmat s ∧
    newChunk s .medium (.created 30) = .ok (s', some (index2pos 2 0)) ∧
    (Reuses s s' .medium (.created 30) (some (index2pos 2 0)) ↔ ContextRoom s ∨ ChunksFull s) ∧
    Pooled s s' .medium (index2pos 2 0) := by
  obtain ⟨w, s, s', h, -, hnew⟩ := ninth_chunk
  obtain ⟨hreuses, htotal⟩ := newChunk_reuses h.context .medium (.created 30)
  obtain ⟨s₁, r, hrun, hpooled⟩ := htotal w 1 servingShmat s [] h rfl (by decide) fun m hm => by
    obtain rfl := Option.some.inj hm
    decide
  obtain ⟨rfl, rfl⟩ := Prod.mk.inj (Except.ok.inj (hnew.symm.trans hrun))
  exact ⟨w, s, s', h, hnew, hreuses s' _ hnew, hpooled _ rfl⟩

end ShmMalloc
