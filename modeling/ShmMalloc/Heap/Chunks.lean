import ShmMalloc.Heap.Arenas

/-! Arenas and chunks come and go.

A new chunk is entered in a slot before it is written: `Entered` is the state between. No
block comes or goes with a chunk, since it is empty when it is written and when it is
deleted. -/
namespace ShmMalloc

/-- The bytes of a block are the same. -/
def SameBytes (s s' : Shm) (pos n : Nat) : Prop := ∀ y ∈ bytes pos n, s'.data y.1 y.2 = s.data y.1 y.2

/-- A run without stale links stays so. -/
def StaysUnlinked (s s' : Shm) (ls ls' : List Nat) (r : Nat) : Prop :=
  RunAt s ls r → Unlinked s r → RunAt s' ls' r ∧ (s'.run r).elemsize = (s.run r).elemsize ∧ Unlinked s' r

/-- The blocks are the same, and what is in them. -/
structure SameBlocks (s s' : Shm) (ls lm ls' lm' : List Nat) : Prop where
  blocks : ∀ k pos n, Block s' ls' lm' k pos n ↔ Block s ls lm k pos n
  bytes : ∀ k pos n, Block s ls lm k pos n → SameBytes s s' pos n
  unlinked : ∀ r, StaysUnlinked s s' ls ls' r

section
variable {s s' s'' : Shm} {ls lm ls' lm' ls'' lm'' : List Nat} {pool : Nat → List Nat}

theorem SameBytes.trans {pos n : Nat} (h : SameBytes s s' pos n) (h' : SameBytes s' s'' pos n) :
    SameBytes s s'' pos n := fun y hy => (h' y hy).trans (h y hy)

theorem SameBytes.of_data {W : Set (Nat × Nat)} {pos n : Nat} (e : SameData W s.data s'.data)
    (h : Disjoint (bytes pos n) W) : SameBytes s s' pos n :=
  fun y hy => e y (Set.disjoint_left.mp h hy)

/-- A run in the pool has a free slot, so that its links do not matter. -/
theorem StaysUnlinked.of_full {r : Nat} (hat : RunAt s ls r → RunAt s' ls' r) (hrun : s'.run r = s.run r)
    (hnode : RunAt s ls r → (s.run r).used = (s.run r).total → s'.runNode r = s.runNode r) :
    StaysUnlinked s s' ls ls' r := by
  intro hr hu
  refine ⟨hat hr, by rw [hrun], fun hfull => ?_⟩
  rw [hrun] at hfull
  rw [hnode hr hfull]
  exact hu hfull

theorem StaysUnlinked.of_runs {r : Nat} {W : Set (Nat × Nat)} (hat : RunAt s ls r → RunAt s' ls' r) (e : SameRuns W s s') :
    StaysUnlinked s s' ls ls' r :=
  .of_full hat (by rw [e.run]) fun _ _ => by rw [e.runNode]

theorem SmallInv.stays_unlinked {A : Nat → Prop} (h : SmallInv s ls pool) (e : SameIn A s s')
    (hA : ∀ c ∈ ls, A (pos2index c)) (r : Nat) : StaysUnlinked s s' ls ls r := by
  intro hr hu
  obtain ⟨c, hc, he⟩ := h.index_run hr
  have hAr : A (pos2index r) := he ▸ hA c hc
  exact (StaysUnlinked.of_full (RunAt.same e hA).mpr (e.run r hAr) fun _ _ => e.runNode r hAr) hr hu

theorem SameBlocks.refl (s : Shm) (ls lm : List Nat) : SameBlocks s s ls lm ls lm :=
  ⟨fun _ _ _ => .rfl, fun _ _ _ _ _ _ => rfl, fun _ hr hu => ⟨hr, rfl, hu⟩⟩

theorem SameBlocks.trans (h : SameBlocks s s' ls lm ls' lm') (h' : SameBlocks s' s'' ls' lm' ls'' lm'') :
    SameBlocks s s'' ls lm ls'' lm'' := by
  refine ⟨fun k pos n => (h'.blocks k pos n).trans (h.blocks k pos n), fun k pos n hb =>
    (h.bytes k pos n hb).trans (h'.bytes k pos n ((h.blocks k pos n).mpr hb)), fun r hr hu => ?_⟩
  obtain ⟨hr₁, he₁, hu₁⟩ := h.unlinked r hr hu
  obtain ⟨hr₂, he₂, hu₂⟩ := h'.unlinked r hr₁ hu₁
  exact ⟨hr₂, he₂.trans he₁, hu₂⟩

theorem SameHeap.blocks (h : ChunksOk s ls lm pool) (e : SameHeap s s') : SameBlocks s s' ls lm ls lm :=
  ⟨fun _ _ _ => Block.same h e, fun _ _ _ _ _ _ => by rw [e.data],
    h.small.stays_unlinked e.objects fun _ _ => trivial⟩

section Kept
variable {A : Nat → Prop} (h : HeapInv s ls lm pool) (e : SameIn A s s') (hA : ∀ i, (s.arenas i).type ≠ .empty → A i)
include h hA

theorem HeapInv.index_kept {c : Nat} (hc : IsChunk s c) : A (pos2index c) := hA _ (forChunks_ne (h.type_of hc)).1

include e

theorem HeapInv.chunks_kept : ChunksOk s' ls lm pool :=
  h.toChunksOk.same e (fun c hc => h.index_kept hA ((h.registered c).mpr (.inl hc)))
    fun c hc => h.index_kept hA ((h.registered c).mpr (.inr hc))

theorem HeapInv.small_kept (pos n : Nat) : SmallBlock s' ls pos n ↔ SmallBlock s ls pos n :=
  SmallBlock.same h.small e fun c hc => h.index_kept hA ((h.registered c).mpr (.inl hc))

theorem HeapInv.medium_kept (pos n : Nat) : MediumBlock s' lm pos n ↔ MediumBlock s lm pos n :=
  MediumBlock.same e fun c hc => h.index_kept hA ((h.registered c).mpr (.inr hc))

theorem HeapInv.unlinked_kept (r : Nat) : StaysUnlinked s s' ls ls r :=
  h.small.stays_unlinked e (fun c hc => h.index_kept hA ((h.registered c).mpr (.inl hc))) r

theorem HeapInv.bytes_kept {k : BlockKind} {pos n : Nat} (hb : Block s ls lm k pos n) : SameBytes s s' pos n :=
  fun y hy => e.data y (hA y.1 (h.in_use hb y hy)) (Set.disjoint_left.mp (h.disjoint_context hb) hy)

/-- Chunks in arenas that stay keep their blocks. -/
theorem HeapInv.blocks_kept (hl : ∀ i, (s'.arenas i).type = .large ↔ (s.arenas i).type = .large)
    (hsize : ∀ i, (s.arenas i).type = .large → (s'.arenas i).size = (s.arenas i).size) :
    SameBlocks s s' ls lm ls lm := by
  refine ⟨fun k pos n => ?_, fun _ _ _ hb => h.bytes_kept e hA hb, h.unlinked_kept e hA⟩
  cases k with
  | small => exact h.small_kept e hA pos n
  | medium => exact h.medium_kept e hA pos n
  | large =>
    constructor
    · rintro ⟨i, hi, hp, hn⟩
      have hi' := (hl i).mp hi
      exact ⟨i, hi', hp, by rw [hn, hsize i hi']⟩
    · rintro ⟨i, hi, hp, hn⟩
      exact ⟨i, (hl i).mpr hi, hp, by rw [hn, hsize i hi]⟩

end Kept

/-! ### New arenas -/

theorem SameIn.setArena (A : Nat → Prop) (s : Shm) (i : Nat) (a : ShmArena) : SameIn A s (s.setArena i a) :=
  ⟨fun _ _ => rfl, fun _ _ => rfl, fun _ _ => rfl, fun _ _ => rfl, fun _ _ => rfl, fun _ _ => rfl,
    fun _ _ => rfl, fun _ _ hc => if_neg hc, rfl, rfl, rfl⟩

theorem SetAt.setArena (s : Shm) (i : Nat) (a : ShmArena) : SetAt s (s.setArena i a) i a := rfl

theorem SetAt.zeroArena (s : Shm) (i : Nat) : SetAt s (s.zeroArena i) i .zero := rfl

theorem enterArena_same (s : Shm) (type : ArenaType) (size index shmid addr : Nat) :
    SameIn (· ≠ index) s (enterArena s type size index shmid addr) :=
  ⟨fun _ h => if_neg h, fun _ h => if_neg h, fun _ h => if_neg h, fun _ h => if_neg h, fun _ h => if_neg h,
    fun _ h => if_neg h, fun _ h => funext fun _ => if_neg h, fun _ h hc => (if_neg hc).trans (if_neg h), rfl, rfl, rfl⟩

theorem mmapNewArena_same (s : Shm) (index shmid : Nat) : SameHeap s (mmapNewArena s index shmid).1 :=
  .write s _ _

theorem newArena_step {type : ArenaType} {size : Nat} {os : Os} {r : Option Nat}
    (h : newArena s type size os = .ok (s', r)) : r = none ∧ SameHeap s s' ∨
      ∃ index shmid, r = some index ∧ index ≠ 0 ∧ index < 128 ∧ (s.arenas index).type = .empty ∧ shmid ≠ 0 ∧
        SameIn (· ≠ index) s s' ∧ SetAt s s' index ⟨type, shmid, index, size, 0, fun _ => 0⟩ := by
  obtain ⟨-, ⟨rfl, rfl, -⟩ | ⟨index, hf, hcase⟩⟩ := newArena_cases h
  · exact .inl ⟨rfl, .refl _⟩
  rcases hcase with ⟨-, rfl, rfl⟩ | ⟨m, -, rfl, rfl⟩ | ⟨m, -, -, rfl, rfl⟩ | ⟨m, addr, -, ha, rfl, rfl⟩
  · exact .inl ⟨rfl, .refl _⟩
  · exact .inl ⟨rfl, mmapNewArena_same s index m⟩
  · exact .inl ⟨rfl, mmapNewArena_same s index m⟩
  · obtain ⟨h₁, h₂, hemp⟩ := findEmptyArena_some hf
    have hm : (mmapNewArena s index m).2.1 ≠ 0 := by
      have hmm : ((s.sys.shmget index m).1.mmap (s.sys.shmget index m).2) =
          ((mmapNewArena s index m).1.sys, some addr) := Prod.ext rfl ha
      exact (Sysv.mmap_some hmm).1
    refine .inr ⟨index, (mmapNewArena s index m).2.1, rfl, by omega, by omega, hemp, hm, ?_, ?_⟩
    · exact ((mmapNewArena_same s index m).objects.mono fun _ _ => trivial).trans (enterArena_same _ _ _ _ _ _)
    · funext i
      rw [enterArena_arenas, mmapNewArena_arenas]

theorem newArena_total {type : ArenaType} {size : Nat} (h : size % 2 ^ 20 = 0) (os : Os) :
    ∃ s' r, newArena s type size os = .ok (s', r) := by
  have hreq : decide (size % 2 ^ 20 = 0) = true := decide_eq_true h
  unfold newArena
  rw [hreq, require_true, Exec.ok_bind]
  cases findEmptyArena s 127 1 with
  | none => exact ⟨_, _, rfl⟩
  | some index =>
    cases os with
    | keyFails => exact ⟨_, _, rfl⟩
    | shmgetFails => exact ⟨_, _, rfl⟩
    | removeFails shmid => exact ⟨_, _, rfl⟩
    | created shmid =>
      dsimp only
      rcases mmapNewArena s index shmid with ⟨s₁, m, _ | addr⟩
      · exact ⟨_, _, rfl⟩
      · exact ⟨_, _, rfl⟩

/-! ### New chunks -/

/-- The chunk `c` has its slot, and no more. -/
structure Entered (s s' : Shm) (ls lm : List Nat) (pool : Nat → List Nat) (c : Nat) : Prop where
  chunks : ChunksOk s' ls lm pool
  arenas : ArenasHold s' (c :: ls) lm
  small : c ∉ ls
  medium : c ∉ lm
  same : SameBlocks s s' ls lm ls lm
  apart : ∀ k pos n, Block s ls lm k pos n → Disjoint (ShmMalloc.bytes pos n) (ShmMalloc.bytes c (2 ^ 20))
  others : ∀ q ∈ lm, s'.medium q = s.medium q
  runPool : s'.runPool = s.runPool

theorem Entered.place {c : Nat} (h : Entered s s' ls lm pool c) : IsPlace c ∧ c ≠ 0 ∧ (s'.arenas (pos2index c)).type ≠ .empty := by
  have hc := (h.arenas.registered c).mpr (.inl List.mem_cons_self)
  obtain ⟨i, k, hi, hk, hne, -, he, -⟩ := h.arenas.chunk_place hc
  exact ⟨⟨i, k, hi, hk, he⟩, he ▸ slotPos_ne hne, (forChunks_ne (h.arenas.type_of hc)).1⟩

/-- A lookup of the chunk. -/
theorem Entered.look {c : Nat} (h : Entered s s' ls lm pool c) (e : SameHeap s' s'') : Entered s s'' ls lm pool c where
  chunks := h.chunks.same e.objects (fun _ _ => trivial) fun _ _ => trivial
  arenas := h.arenas.congr e.arenas
  small := h.small
  medium := h.medium
  same := h.same.trans (e.blocks h.chunks)
  apart := h.apart
  others q hq := (e.objects.medium q trivial).trans (h.others q hq)
  runPool := e.objects.runPool.trans h.runPool

theorem ArenasOk.contextState (h : ArenasOk s.arenas) : ContextState s :=
  ⟨fun i _ => h.context i, fun i _ => h.index i⟩

/-- An empty slot of the context is entered. -/
theorem HeapInv.enter_context (h : HeapInv s ls lm pool) {k : Nat} (h₁ : 1 ≤ k) (h₂ : k < 8)
    (hfree : (s.arenas 0).chunks k = 0) : Entered s (enterChunk s 0 k (k * 2 ^ 20)) ls lm pool (k * 2 ^ 20) := by
  have hpos : k * 2 ^ 20 = slotPos 0 k := by rw [slotPos, Nat.zero_mul, Nat.zero_add]
  rw [hpos]
  have hnot : ¬IsChunk s (slotPos 0 k) := by
    rintro ⟨i, j, hj, -, he⟩
    obtain ⟨rfl, rfl⟩ := slotPos_inj h₂ (mem_slotsUsed.mp hj).1 he
    exact (mem_slotsUsed.mp hj).2 hfree
  have ht := (h.arenas.context 0).mpr rfl
  have hne : 0 ≠ 0 ∨ k ≠ 0 := .inr (by omega)
  have hq : Quiet s (enterChunk s 0 k (slotPos 0 k)) := .setArena s rfl rfl rfl
  have e : SameIn (fun _ => True) s (enterChunk s 0 k (slotPos 0 k)) := .setArena _ s _ _
  refine ⟨h.toChunksOk.same e (fun _ _ => trivial) fun _ _ => trivial, ?_,
    fun hl => hnot ((h.registered _).mpr (.inl hl)), fun hl => hnot ((h.registered _).mpr (.inr hl)), ?_,
    fun _ _ _ hb => h.disjoint_slot hb h₂ (forChunks_ne (.inl ht)).2 hnot, fun q _ => rfl, rfl⟩
  · exact h.toArenasHold.enter (SetAt.setArena s 0 _) (h.arenas.of_quiet hq)
      ((h.arena 0).setChunk h₂ hfree hne (.inl ht)) hne (slotsUsed_setChunk _ h₂ (slotPos_ne hne) _)
  · refine h.blocks_kept e (fun _ _ => trivial) (fun i => by rw [hq.type]) fun i hi => ?_
    have hi₀ : i ≠ 0 := by
      rintro rfl
      rw [ht] at hi
      cases hi
    exact congrArg ShmArena.size ((SetAt.setArena s 0 _).other hi₀)

/-- The first slot of a new arena is entered. -/
theorem HeapInv.enter_arena (h : HeapInv s ls lm pool) {index shmid : Nat} (hi : index ≠ 0) (hlt : index < 128)
    (hemp : (s.arenas index).type = .empty) (hm : shmid ≠ 0) (e : SameIn (· ≠ index) s s')
    (ha : SetAt s s' index ⟨.chunk, shmid, index, 2 ^ 23, 0, fun _ => 0⟩) :
    Entered s (enterChunk s' index 0 (index * 2 ^ 32)) ls lm pool (index * 2 ^ 32) := by
  have hpos : index * 2 ^ 32 = slotPos index 0 := by rw [slotPos, Nat.zero_mul, Nat.add_zero]
  rw [hpos]
  have hnone : slotsUsed (s.arenas index) = ∅ := (h.arena index).none (.inl hemp)
  have hnot : ¬IsChunk s (slotPos index 0) := by
    rintro ⟨i, j, hj, -, he⟩
    obtain ⟨rfl, rfl⟩ := slotPos_inj (by omega) (mem_slotsUsed.mp hj).1 he
    rw [hnone] at hj
    cases hj
  have hA : ∀ i, (s.arenas i).type ≠ .empty → i ≠ index := fun i hne hie => hne (hie ▸ hemp)
  have e' : SameIn (· ≠ index) s (enterChunk s' index 0 (slotPos index 0)) := e.trans (.setArena _ s' _ _)
  have harena : SetAt s (enterChunk s' index 0 (slotPos index 0)) index
      {(⟨.chunk, shmid, index, 2 ^ 23, 0, fun _ => 0⟩ : ShmArena).setChunk 0 (slotPos index 0) with used := 1} := by
    funext j
    show (if j = index then {(s'.arenas index).setChunk 0 (slotPos index 0) with used := (s'.arenas index).used + 1}
      else s'.arenas j) = _
    by_cases hj : j = index
    · rw [if_pos hj, if_pos hj, ha.self]
    · rw [if_neg hj, if_neg hj, ha.other hj]
  have hok : ArenasOk (enterChunk s' index 0 (slotPos index 0)).arenas :=
    harena ▸ h.arenas.enter hi hlt (.inl rfl) hm rfl
  refine ⟨h.chunks_kept e' hA, ?_, fun hl => hnot ((h.registered _).mpr (.inl hl)),
    fun hl => hnot ((h.registered _).mpr (.inr hl)), ?_,
    fun _ _ _ hb => h.disjoint_slot hb (by omega) (by rw [hemp]; decide) hnot, fun q hq => e'.medium q ?_, e'.runPool⟩
  · refine h.toArenasHold.enter harena hok (.chunk hi) (.inl hi) ?_
    rw [slotsUsed_setChunk _ (by omega) (slotPos_ne (.inl hi)), hnone]
    congr 1
  · have hother : ∀ i, (s.arenas i).type = .large → i ≠ index := fun i hl hie => by
      rw [hie, hemp] at hl
      cases hl
    refine h.blocks_kept e' hA (fun i => ?_) fun i hl => by rw [harena.other (hother i hl)]
    by_cases hie : i = index
    · rw [hie, harena.self, hemp]
      exact iff_of_false (fun hl => by cases hl) fun hl => by cases hl
    · rw [harena.other hie]
  · obtain ⟨i, k, -, hk, -, -, rfl, ht⟩ := h.medium_place hq
    rw [← Nat.add_zero (slotPos i k), pos2index_slot hk (by omega)]
    exact hA i (forChunks_ne ht).1

/-- `new_chunk` has no place, or writes a chunk that it has entered. -/
theorem HeapInv.newChunk_cases (h : HeapInv s ls lm pool) (type : ChunkType) (os : Os) :
    (∃ s', newChunk s type os = .ok (s', none) ∧ SameHeap s s') ∨
      ∃ s' c, newChunk s type os = startChunk s' c type ∧ Entered s s' ls lm pool c ∧
        ((∀ m, os.shmid = some m → m ≠ 0) → TableOk s → TableOk s') := by
  have hctx := h.arenas.contextState
  by_cases hroom : ContextRoom s
  · obtain ⟨k, h₁, h₂, h₃, hfind⟩ := findArenaChunk_room hctx hroom
    refine .inr ⟨_, _, newChunk_found hfind (by omega), h.enter_context h₁ h₂ h₃, fun _ hT => ?_⟩
    exact hT.quiet (.setArena s rfl rfl rfl)
  obtain ⟨e, hfind, -⟩ := findArenaChunk_full hctx hroom
  by_cases he : e = 0
  · subst he
    exact .inl ⟨s, newChunk_none hfind, .refl s⟩
  rw [newChunk_create hfind he]
  obtain ⟨s₁, r, hnew⟩ := @newArena_total s .chunk (2 ^ 23) (by decide) os
  rw [hnew, Exec.ok_bind]
  obtain ⟨rfl, hsame⟩ | ⟨index, shmid, rfl, hi, hlt, hemp, hm, hin, ha⟩ := newArena_step hnew
  · exact .inl ⟨s₁, rfl, hsame⟩
  have hreq : decide (index * 2 ^ 32 ≠ 0) = true := decide_eq_true (by omega)
  refine .inr ⟨_, _, ?_, h.enter_arena hi hlt hemp hm hin ha, fun hos hT => ?_⟩
  · show (require (decide ((newArenaChunk s₁ index).2 ≠ 0)) >>= fun _ =>
      startChunk (newArenaChunk s₁ index).1 (newArenaChunk s₁ index).2 type) = _
    rw [newArenaChunk_new ha.self, hreq, require_true, Exec.ok_bind]
  · exact (hT.passes hos (.new (.inl rfl) hnew)).quiet (.setArena s₁ rfl rfl rfl)

/-! ### Chunks without blocks -/

theorem SmallBlock.congr (hat : ∀ r, RunAt s' ls' r ↔ RunAt s ls r) (hrun : s'.run = s.run)
    (hlink : s'.link = s.link) (pos n : Nat) : SmallBlock s' ls' pos n ↔ SmallBlock s ls pos n := by
  have hu : ∀ r o, UsedSlot s' r o ↔ UsedSlot s r o := fun r o =>
    UsedSlot.congr (by rw [hrun]) (fun _ => by rw [hlink]) o
  constructor
  · rintro ⟨r, o, hr, ho, hp, hn⟩
    exact ⟨r, o, (hat r).mp hr, (hu r o).mp ho, hp, by rw [hn, hrun]⟩
  · rintro ⟨r, o, hr, ho, hp, hn⟩
    exact ⟨r, o, (hat r).mpr hr, (hu r o).mpr ho, hp, by rw [hn, hrun]⟩

theorem MediumBlock.congr (h : ∀ c p k, c ∈ lm' ∧ UsedUnit (s'.medium c) p k ↔ c ∈ lm ∧ UsedUnit (s.medium c) p k)
    (pos n : Nat) : MediumBlock s' lm' pos n ↔ MediumBlock s lm pos n := by
  constructor
  · rintro ⟨c, hc, p, k, hu, hp, hn⟩
    obtain ⟨hc', hu'⟩ := (h c p k).mp ⟨hc, hu⟩
    exact ⟨c, hc', p, k, hu', hp, hn⟩
  · rintro ⟨c, hc, p, k, hu, hp, hn⟩
    obtain ⟨hc', hu'⟩ := (h c p k).mpr ⟨hc, hu⟩
    exact ⟨c, hc', p, k, hu', hp, hn⟩

/-- The blocks by their kinds, when no byte of them is written. -/
theorem SameBlocks.of_kinds (hs : ∀ pos n, SmallBlock s' ls' pos n ↔ SmallBlock s ls pos n)
    (hm : ∀ pos n, MediumBlock s' lm' pos n ↔ MediumBlock s lm pos n) (ha : s'.arenas = s.arenas)
    (hd : ∀ k pos n, Block s ls lm k pos n → SameBytes s s' pos n) (hu : ∀ r, StaysUnlinked s s' ls ls' r) :
    SameBlocks s s' ls lm ls' lm' := by
  refine ⟨fun k pos n => ?_, hd, hu⟩
  cases k with
  | small => exact hs pos n
  | medium => exact hm pos n
  | large => exact LargeBlock.congr ha

/-- The only page in use is that of the header. -/
theorem SmallChunk.page_zero {c p : Nat} (h : SmallChunk s c) (hu : (s.small c).used = 1)
    (hp : p ∈ pages (s.small c).bitmap) : p = 0 := by
  rw [h.used, Finset.card_eq_one] at hu
  obtain ⟨x, hx⟩ := hu
  have h₀ := h.first
  rw [hx, Finset.mem_singleton] at h₀ hp
  rw [hp, h₀]

/-- A small chunk without runs comes or goes. -/
theorem runAt_empty {c : Nat} (hs : ∀ q, q ≠ c → s'.small q = s.small q)
    (hl : ∀ q, q ≠ c → (q ∈ ls' ↔ q ∈ ls)) (hc : c ∈ ls → ∀ p ∈ pages (s.small c).bitmap, p = 0)
    (hc' : c ∈ ls' → ∀ p ∈ pages (s'.small c).bitmap, p = 0) (r : Nat) : RunAt s' ls' r ↔ RunAt s ls r := by
  constructor
  · rintro ⟨q, hq, p, hp, hp₀, rfl⟩
    by_cases hqc : q = c
    · subst hqc
      exact absurd (hc' hq p hp) hp₀
    · rw [hs q hqc] at hp
      exact ⟨q, (hl q hqc).mp hq, p, hp, hp₀, rfl⟩
  · rintro ⟨q, hq, p, hp, hp₀, rfl⟩
    by_cases hqc : q = c
    · subst hqc
      exact absurd (hc hq p hp) hp₀
    · exact ⟨q, (hl q hqc).mpr hq, p, by rwa [hs q hqc], hp₀, rfl⟩

theorem ChunksOk.mediums_frame (h : ChunksOk s ls lm pool) {c : Nat} (f : ChunkFrame s s' .small c ls) (hc : c ∉ lm) :
    ChunkPool s' .medium lm ∧ ∀ q ∈ lm, ∃ l, MediumChunk s' q l := by
  have hd : ∀ q ∈ lm, q ≠ c := fun q hq he => hc (he ▸ hq)
  refine ⟨h.mediums.frame f (by decide) fun q hq hqc => ?_, fun q hq => ?_⟩
  · exact (List.mem_cons.mp hqc).elim (hd q hq) fun hql => h.small_medium hql hq
  · obtain ⟨l, m⟩ := h.medium q hq
    exact ⟨l, m.frame f (hd q hq)⟩

/-- The header of the chunk, and those of other chunks, are in no block. -/
theorem Entered.headers {c : Nat} (h : Entered s s' ls lm pool c) (h₀ : HeapInv s ls lm pool) {l : List Nat}
    (hl : ∀ q ∈ l, q ∈ ls ∨ q ∈ lm) {k : BlockKind} {pos n : Nat} (hb : Block s' ls lm k pos n) :
    Disjoint (ShmMalloc.bytes pos n) (headerBytes (c :: l)) := by
  have hb₀ := (h.same.blocks k pos n).mp hb
  refine Set.disjoint_left.mpr fun y hy hy' => ?_
  rcases hy' with hy' | ⟨q, hq, hy'⟩
  · exact Set.disjoint_left.mp (h₀.disjoint_context hb₀) hy hy'
  · rcases List.mem_cons.mp hq with rfl | hq
    · exact Set.disjoint_left.mp (h.apart k pos n hb₀) hy (bytes_le (by omega) y hy')
    · exact Set.disjoint_left.mp (h₀.disjoint_header hb₀ ((h₀.registered q).mpr (hl q hq))) hy hy'

theorem Entered.init_small {c : Nat} (h : Entered s s' ls lm pool c) (h₀ : HeapInv s ls lm pool) :
    ∃ s'' ls', initChunk s' c c .small = .ok s'' ∧ HeapInv s'' ls' lm pool ∧ ls'.Perm (c :: ls) ∧
      SameBlocks s s'' ls lm ls' lm ∧ (s''.small c).used = 1 ∧ (∀ q ∈ lm, s''.medium q = s.medium q) ∧
      s''.runPool = s.runPool := by
  obtain ⟨hplace, hne, -⟩ := h.place
  obtain ⟨s'', ls', hrun, hi, hperm, f, e, hused⟩ := initChunk_small_step h.chunks.small h.small hne hplace
  obtain ⟨hm, hmc⟩ := h.chunks.mediums_frame f h.medium
  have hmed : ∀ q ∈ lm, s''.medium q = s'.medium q := fun q hq => f.medium q fun he => h.medium (he ▸ hq)
  have hmem : ∀ q, q ∈ ls' ↔ q ∈ c :: ls := fun q => hperm.mem_iff
  have hcl : c ∈ ls' := (hmem c).mpr List.mem_cons_self
  refine ⟨s'', ls', hrun, ⟨⟨hi, hm, hmc⟩, ?_⟩, hperm, h.same.trans ?_, hused, fun q hq =>
    (hmed q hq).trans (h.others q hq), e.runPool.trans h.runPool⟩
  · refine ⟨f.arenas ▸ h.arenas.arenas, fun i => by rw [f.arenas]; exact h.arenas.arena i, fun q => ?_⟩
    rw [IsChunk.congr f.arenas, h.arenas.registered, hmem]
  · have hat : ∀ r, RunAt s'' ls' r ↔ RunAt s' ls r :=
      runAt_empty f.small (fun q hq => by rw [hmem, List.mem_cons, or_iff_right hq]) (fun hc => absurd hc h.small)
        fun _ p hp => (hi.chunk c hcl).page_zero hused hp
    exact .of_kinds (SmallBlock.congr hat e.run e.link)
      (MediumBlock.congr fun q p k => and_congr_right fun hq => by rw [hmed q hq]) f.arenas
      (fun _ _ _ hb => .of_data e.data (h.headers h₀ (fun _ => .inl) hb)) fun r => .of_runs (hat r).mpr e

theorem Entered.init_medium {c : Nat} (h : Entered s s' ls lm pool c) (h₀ : HeapInv s ls lm pool) :
    ∃ s'' lm', initChunk s' c c .medium = .ok s'' ∧ HeapInv s'' ls lm' pool ∧ lm'.Perm (c :: lm) ∧
      SameBlocks s s'' ls lm ls lm' ∧ MediumChunk s'' c [1] ∧ unitSize (s''.medium c) 1 = 255 ∧
      ∀ q ∈ lm, s''.medium q = s.medium q := by
  obtain ⟨hplace, hne, -⟩ := h.place
  obtain ⟨i, k, hi, hk, rfl⟩ := hplace
  obtain ⟨s'', lm', hrun, hp, hperm, m, hmax, hsize, hfree, f, e⟩ :=
    initChunk_medium_spec h.chunks.mediums h.medium hne (by rw [pos2index_eq]; omega)
  have hmed : ∀ q ∈ lm, s''.medium q = s'.medium q := fun q hq => f.medium q fun he => h.medium (he ▸ hq)
  have hmem : ∀ q, q ∈ lm' ↔ q ∈ _ :: lm := fun q => hperm.mem_iff
  have hsmall : SmallInv s'' ls pool :=
    h.chunks.small.frame f e h.small fun q hq hm => h.chunks.small_medium hq hm
  refine ⟨s'', lm', hrun, ⟨⟨hsmall, hp, fun q hq => ?_⟩, ?_⟩, hperm, h.same.trans ?_, m, hsize, fun q hq =>
    (hmed q hq).trans (h.others q hq)⟩
  · rcases List.mem_cons.mp ((hmem q).mp hq) with rfl | hq
    · exact ⟨_, m⟩
    · obtain ⟨l, m'⟩ := h.chunks.medium q hq
      exact ⟨l, m'.frame f fun he => h.medium (he ▸ hq)⟩
  · refine ⟨f.arenas ▸ h.arenas.arenas, fun i => by rw [f.arenas]; exact h.arenas.arena i, fun q => ?_⟩
    rw [IsChunk.congr f.arenas, h.arenas.registered, hmem, List.mem_cons, List.mem_cons]
    tauto
  · have hat : ∀ r, RunAt s'' ls r ↔ RunAt s' ls r := fun r => RunAt.congr fun q hq => by
      rw [f.small q fun he => h.small (he ▸ hq)]
    refine .of_kinds (SmallBlock.congr hat e.run e.link) (MediumBlock.congr fun q p j => ?_) f.arenas
      (fun _ _ _ hb => .of_data e.data (Set.disjoint_left.mpr fun y hy hy' => ?_)) fun r => .of_runs (hat r).mpr e
    · rw [hmem, List.mem_cons]
      constructor
      · rintro ⟨rfl | hq, hu⟩
        · exact absurd hu (hfree p j)
        · exact ⟨hq, by rwa [← hmed q hq]⟩
      · rintro ⟨hq, hu⟩
        exact ⟨.inr hq, by rwa [hmed q hq]⟩
    · rcases hy' with hy' | ⟨q, hq, -, hy'⟩
      · exact Set.disjoint_left.mp (h.headers h₀ (fun _ => .inr) hb) hy hy'
      · exact Set.disjoint_left.mp (h.apart _ _ _ ((h.same.blocks _ _ _).mp hb)) hy (pageBytes_chunk hq y hy')

end

end ShmMalloc
