import ShmMalloc.Heap.Malloc

/-! `free_arena`: one block goes, and the others stay.

A chunk that has no block left goes with its last block, and its arena with it unless
that is the context. An arena is deleted through the address that the process has for
it; with a chunk in it the process has just looked it up, but a large arena is not
looked up. -/
namespace ShmMalloc

/-- The block at the position is gone. -/
structure Freed (s s' : Shm) (ls lm ls' lm' : List Nat) (pos : Nat) : Prop where
  blocks : ∀ k q n, Block s' ls' lm' k q n ↔ Block s ls lm k q n ∧ q ≠ pos
  bytes : ∀ k q n, Block s ls lm k q n → q ≠ pos → SameBytes s s' q n

/-- A full run that gets a slot back has no links left from its time in the pool. -/
def Unstale (s : Shm) (pos : Nat) : Prop :=
  (s.arenas (pos2index pos)).type ≠ .large → (s.header (pos / 2 ^ 20 * 2 ^ 20)).type = .small →
    Unlinked s (pos / 4096 * 4096)

section
variable {s s' s'' : Shm} {ls lm ls' lm' ls'' lm'' : List Nat} {pool : Nat → List Nat}

theorem SameBlocks.freed {pos : Nat} (h : SameBlocks s s' ls lm ls' lm') (h' : Freed s' s'' ls' lm' ls'' lm'' pos) :
    Freed s s'' ls lm ls'' lm'' pos where
  blocks k q m := (h'.blocks k q m).trans (and_congr_left' (h.blocks k q m))
  bytes k q m hb hq := (h.bytes k q m hb).trans (h'.bytes k q m ((h.blocks k q m).mpr hb) hq)

theorem Freed.same {pos : Nat} (h : Freed s s' ls lm ls' lm' pos) (h' : SameBlocks s' s'' ls' lm' ls'' lm'') :
    Freed s s'' ls lm ls'' lm'' pos where
  blocks k q m := (h'.blocks k q m).trans (h.blocks k q m)
  bytes k q m hb hq := (h.bytes k q m hb hq).trans (h'.bytes k q m ((h.blocks k q m).mpr ⟨hb, hq⟩))

theorem Unstale.same {pos : Nat} (h : Unstale s pos) (e : SameHeap s s') : Unstale s' pos := by
  unfold Unstale Unlinked at *
  rw [e.arenas, e.objects.header _ trivial, e.objects.run _ trivial, e.objects.runNode _ trivial]
  exact h

/-! ### Slots and arenas go -/

/-- The lookup returns what the table then has. -/
theorem getOrUpdateArenaAddr_entry {index : Nat} {r : Option Nat} (h : getOrUpdateArenaAddr s index = .ok (s', r)) :
    (s'.arenaAddrs index).addr = r := by
  unfold getOrUpdateArenaAddr at h
  split at h
  · obtain ⟨s₁, -, h⟩ := Exec.bind_ok h
    split at h
    · obtain ⟨⟨s₂, addr⟩, -, h⟩ := Exec.bind_ok h
      obtain ⟨rfl, rfl⟩ := Prod.mk.inj (Except.ok.inj h)
      exact congrArg ShmArenaAddr.addr (if_pos rfl)
    · obtain ⟨rfl, rfl⟩ := Prod.mk.inj (Except.ok.inj h)
      rfl
  · obtain ⟨rfl, rfl⟩ := Prod.mk.inj (Except.ok.inj h)
    rfl

theorem getOrUpdateAddr_entry {pos : Nat} (h : getOrUpdateAddr s pos = .ok s') :
    (s'.arenaAddrs (pos2index pos)).addr ≠ none := by
  obtain ⟨-, addr, hlook⟩ := getOrUpdateAddr_cases h
  rw [getOrUpdateArenaAddr_entry hlook]
  exact Option.some_ne_none addr

theorem deleteArena_eq {index : Nat} : (∃ s', deleteArena s index = .ok s') ↔ (s.arenaAddrs index).addr ≠ none := by
  unfold deleteArena
  cases (s.arenaAddrs index).addr with
  | none => exact iff_of_false (fun ⟨s', h⟩ => by cases h) fun h => h rfl
  | some addr => exact iff_of_true ⟨_, rfl⟩ (by simp)

theorem deleteArena_step {index : Nat} (h : deleteArena s index = .ok s') :
    SetAt s s' index .zero ∧ SameIn (· ≠ index) s s' := by
  unfold deleteArena at h
  split at h
  · cases h
  · obtain rfl := Except.ok.inj h
    exact ⟨rfl, fun _ _ => rfl, fun _ _ => rfl, fun _ _ => rfl, fun _ _ => rfl, fun _ _ => rfl, fun _ _ => rfl,
      fun _ _ => rfl, fun _ hi hc => (if_neg hi).trans (if_neg hc), rfl, rfl, rfl⟩

/-- A block that is left is as it was, if only arenas that go are written. -/
theorem HeapInv.bytes_left (h : HeapInv s' ls lm pool) (e : SameIn (fun i => (s'.arenas i).type ≠ .empty) s s')
    {k : BlockKind} {pos n : Nat} (hb : Block s' ls lm k pos n) : SameBytes s s' pos n :=
  fun y hy => e.data y (h.in_use hb y hy) (Set.disjoint_left.mp (h.disjoint_context hb) hy)

/-- The slot of a chunk is cleared. -/
theorem deleteArenaChunk_slot {i k : Nat} (hk : k < 8) (hc : (s.arenas i).chunks k ≠ 0) :
    deleteArenaChunk s i (slotPos i k) =
      .ok (s.setArena i {(s.arenas i).setChunk k 0 with used := (s.arenas i).used - 1}) := by
  have hidx : pos2offset (slotPos i k) / 2 ^ 20 = k := by
    rw [← Nat.add_zero (slotPos i k), pos2offset_slot hk (by omega)]
    omega
  have hreq : decide ((s.arenas i).chunks k ≠ 0) = true := decide_eq_true hc
  unfold deleteArenaChunk
  dsimp only
  rw [hidx, hreq]
  rfl

theorem LargeBlock.of_set {i : Nat} {a : ShmArena} (e : SetAt s s' i a) (ha : a.type ≠ .large)
    (hi : (s.arenas i).type ≠ .large) (pos n : Nat) : LargeBlock s' pos n ↔ LargeBlock s pos n := by
  constructor
  · rintro ⟨j, hj, hp, hn⟩
    by_cases hji : j = i
    · subst hji
      rw [e.self] at hj
      exact absurd hj ha
    · rw [e.other hji] at hj hn
      exact ⟨j, hj, hp, hn⟩
  · rintro ⟨j, hj, hp, hn⟩
    have hji : j ≠ i := fun he => hi (he ▸ hj)
    exact ⟨j, by rwa [e.other hji], hp, by rwa [e.other hji]⟩

/-- A chunk that has left its pool leaves its slot, and maybe the last one of its arena. -/
theorem checkDeleteChunk_step (h : ArenasHold s ls lm) {c : Nat} (hc : IsChunk s c)
    (haddr : (s.arenaAddrs (pos2index c)).addr ≠ none)
    (hl : ∀ q, q ∈ ls' ∨ q ∈ lm' ↔ (q ∈ ls ∨ q ∈ lm) ∧ q ≠ c) :
    ∃ s', checkDeleteChunk s (pos2index c) c = .ok s' ∧ ArenasHold s' ls' lm' ∧
      SameIn (fun i => (s'.arenas i).type ≠ .empty) s s' ∧ ∀ pos n, LargeBlock s' pos n ↔ LargeBlock s pos n := by
  obtain ⟨i, k, hi, hk, hne, hslot, rfl, ht⟩ := h.chunk_place hc
  have hindex : pos2index (slotPos i k) = i := by rw [← Nat.add_zero (slotPos i k), pos2index_slot hk (by omega)]
  rw [hindex] at haddr ⊢
  have hne₀ : (s.arenas i).chunks k ≠ 0 := by
    rw [hslot]
    exact slotPos_ne hne
  have hmem : k ∈ slotsUsed (s.arenas i) := mem_slotsUsed.mpr ⟨hk, hne₀⟩
  obtain ⟨hte, htl⟩ := forChunks_ne ht
  let a : ShmArena := {(s.arenas i).setChunk k 0 with used := (s.arenas i).used - 1}
  have hs : slotsUsed a = (slotsUsed (s.arenas i)).erase k := slotsUsed_clearChunk _ k _
  have ha : (s.setArena i a).arenas i = a := (SetAt.setArena s i a).self
  have hdel : checkDeleteChunk s i (slotPos i k) =
      if a.used = 0 && a.type ≠ .context then deleteArena (s.setArena i a) a.index
      else .ok (s.setArena i a) := by
    unfold checkDeleteChunk
    rw [deleteArenaChunk_slot hk hne₀, Exec.ok_bind]
    show (if ((s.setArena i a).arenas i).used = 0 && ((s.setArena i a).arenas i).type ≠ .context then
      deleteArena (s.setArena i a) ((s.setArena i a).arenas i).index else pure (s.setArena i a)) = _
    rw [ha]
    rfl
  rw [hdel]
  by_cases hlast : a.used = 0 ∧ a.type ≠ .context
  · have hcond : (decide (a.used = 0) && decide (a.type ≠ .context)) = true := by
      rw [Bool.and_eq_true]
      exact ⟨decide_eq_true hlast.1, decide_eq_true hlast.2⟩
    have hidx : a.index = i := h.arenas.index i hte
    have hi₀ : i ≠ 0 := fun he => hlast.2 ((h.arenas.context i).mpr he)
    obtain ⟨s', hrun⟩ := deleteArena_eq.mpr (show ((s.setArena i a).arenaAddrs i).addr ≠ none from haddr)
    obtain ⟨e₂, hsame⟩ := deleteArena_step hrun
    have e : SetAt s s' i .zero := by
      funext j
      show s'.arenas j = _
      rw [e₂]
      show (if j = i then ShmArena.zero else if j = i then a else s.arenas j) = _
      split <;> rfl
    have hzero : slotsUsed .zero = (slotsUsed (s.arenas i)).erase k := by
      rw [slotsUsed_zero rfl, ← hs]
      symm
      rw [← Finset.card_eq_zero, hs, Finset.card_erase_of_mem hmem, ← (h.arena i).used]
      exact hlast.1
    rw [if_pos hcond, hidx]
    have hok : ArenasOk s'.arenas := by
      rw [e]
      exact h.arenas.zero hi₀
    refine ⟨s', hrun, h.leave e hok (.bare hi₀ (.inl rfl) rfl rfl) hk hzero hl,
      ((SameIn.setArena _ s i a).trans hsame).mono fun j hj hji => hj ?_, LargeBlock.of_set e (fun he => by cases he) htl⟩
    rw [hji, e.self]
    rfl
  · have hcond : ¬(decide (a.used = 0) && decide (a.type ≠ .context)) = true := by
      rw [Bool.and_eq_true]
      exact fun hc => hlast ⟨of_decide_eq_true hc.1, of_decide_eq_true hc.2⟩
    rw [if_neg hcond]
    have hok : ArenasOk (s.setArena i a).arenas := h.arenas.of_quiet (.setArena s rfl rfl rfl)
    refine ⟨_, rfl, h.leave (SetAt.setArena s i a) hok ((h.arena i).clearChunk hmem hne ht fun hchunk hone => ?_) hk hs hl,
      SameIn.setArena _ s i a, LargeBlock.of_set (SetAt.setArena s i a) htl htl⟩
    refine hlast ⟨?_, fun he => ?_⟩
    · show (s.arenas i).used - 1 = 0
      omega
    · have he' : (s.arenas i).type = .context := he
      rw [hchunk] at he'
      cases he'

/-! ### Chunks go -/

/-- `delete_chunk` and `check_delete_chunk`, for a chunk that has no block left. -/
def releaseChunk (s : Shm) (index chunk : Nat) : Exec Shm := do
  let s ← deleteChunk s chunk
  checkDeleteChunk s index chunk

/-- `free_arena`, once it has looked up the chunk. -/
def freeInChunk (s : Shm) (index chunk offset : Nat) : Exec Shm := do
  let (s, check) ← freeChunk s chunk offset
  if check then checkDeleteChunk s index chunk else return s

theorem freeInChunk_small {c : Nat} (ht : (s.header c).type = .small) (index offset : Nat) :
    freeInChunk s index c offset = freeChunkSmall s c offset >>= fun r =>
      if r.2 then releaseChunk r.1 index c else .ok r.1 := by
  unfold freeInChunk freeChunk
  rw [ht]
  dsimp only
  cases freeChunkSmall s c offset with
  | error e => rfl
  | ok r =>
    obtain ⟨s₁, b⟩ := r
    cases b with
    | false => rfl
    | true =>
      show ((deleteChunk s₁ c >>= fun s => .ok (s, true)) >>= _) = deleteChunk s₁ c >>= _
      cases deleteChunk s₁ c <;> rfl

theorem freeInChunk_medium {c : Nat} (ht : (s.header c).type = .medium) (index offset : Nat) :
    freeInChunk s index c offset = freeChunkMedium s c offset >>= fun r =>
      if r.2 then releaseChunk r.1 index c else .ok r.1 := by
  unfold freeInChunk freeChunk
  rw [ht]
  dsimp only
  cases freeChunkMedium s c offset with
  | error e => rfl
  | ok r =>
    obtain ⟨s₁, b⟩ := r
    cases b with
    | false => rfl
    | true =>
      show ((deleteChunk s₁ c >>= fun s => .ok (s, true)) >>= _) = deleteChunk s₁ c >>= _
      cases deleteChunk s₁ c <;> rfl

theorem IsPlace.index_add {c x : Nat} (h : IsPlace c) (hx : x < 2 ^ 20) : pos2index (c + x) = pos2index c := by
  obtain ⟨i, k, -, hk, rfl⟩ := h
  rw [pos2index_eq, pos2index_eq]
  omega

theorem ArenasHold.isPlace (h : ArenasHold s ls lm) {c : Nat} (hc : IsChunk s c) : IsPlace c := by
  obtain ⟨i, k, hi, hk, -, -, hc, -⟩ := h.chunk_place hc
  exact ⟨i, k, hi, hk, hc⟩

/-- A position in a chunk, as `free_arena` and `check_arena` find it. -/
structure ChunkAt (s : Shm) (c x index offset : Nat) : Prop where
  valid : isArenaValid s index = true
  type : (s.arenas index).type = .context ∨ (s.arenas index).type = .chunk
  chunk : getArenaChunk (s.arenas index) offset = c
  inside : (offset + 2 ^ 32 - pos2offset c) % 2 ^ 32 = x

theorem ChunkAt.inUse {c x index offset : Nat} (h : ChunkAt s c x index offset) : (s.arenas index).type ≠ .empty :=
  (forChunks_ne h.type).1

theorem ArenasHold.chunk_at (h : ArenasHold s ls lm) {c x : Nat} (hc : IsChunk s c) (hx : x < 2 ^ 20) :
    ChunkAt s c x (pos2index c) (pos2offset (c + x)) ∧ pos2index (c + x) = pos2index c ∧ c ≠ 0 := by
  refine ⟨?_, (h.isPlace hc).index_add hx, ?_⟩
  · obtain ⟨i, k, hi, hk, hne, hslot, rfl, ht⟩ := h.chunk_place hc
    have hindex : pos2index (slotPos i k) = i := by rw [← Nat.add_zero (slotPos i k), pos2index_slot hk (by omega)]
    have hoffset : pos2offset (slotPos i k) = k * 2 ^ 20 := by
      rw [← Nat.add_zero (slotPos i k), pos2offset_slot hk (by omega), Nat.add_zero]
    rw [hindex, pos2offset_slot hk hx]
    refine ⟨?_, ht, ?_, by omega⟩
    · unfold isArenaValid
      rw [Bool.and_eq_true]
      exact ⟨decide_eq_true hi, decide_eq_true (forChunks_ne ht).1⟩
    · unfold getArenaChunk
      rw [(h.arena i).size ht, if_neg (by omega), show (k * 2 ^ 20 + x) / 2 ^ 20 = k by omega, hslot]
  · obtain ⟨i, k, -, -, hne, -, rfl, -⟩ := h.chunk_place hc
    exact slotPos_ne hne

/-- A position in a chunk is freed in the chunk. -/
theorem ArenasHold.freeArena_eq (h : ArenasHold s ls lm) {c x : Nat} (hc : IsChunk s c) (hx : x < 2 ^ 20) :
    freeArena s (pos2index (c + x)) (pos2offset (c + x)) =
      getOrUpdateAddr s c >>= fun s => freeInChunk s (pos2index c) c x := by
  obtain ⟨hat, hindex, hne⟩ := h.chunk_at hc hx
  have hreq : decide (x < 2 ^ 20) = true := decide_eq_true hx
  rw [hindex]
  unfold freeArena
  rw [hat.valid, if_neg (by decide)]
  dsimp only
  rcases hat.type with ht | ht <;>
  · rw [ht]
    dsimp only
    rw [hat.chunk, hat.inside, hreq, if_neg hne]
    rfl

/-- A chunk that has left its pool leaves its arena. -/
theorem ChunksOk.check_delete (h : ChunksOk s ls' lm' pool) (hA : ArenasHold s ls lm) {c : Nat} (hc : IsChunk s c)
    (haddr : (s.arenaAddrs (pos2index c)).addr ≠ none)
    (hl : ∀ q, q ∈ ls' ∨ q ∈ lm' ↔ (q ∈ ls ∨ q ∈ lm) ∧ q ≠ c) :
    ∃ s', checkDeleteChunk s (pos2index c) c = .ok s' ∧ HeapInv s' ls' lm' pool ∧
      SameBlocks s s' ls' lm' ls' lm' ∧ ∀ q ∈ lm', s'.medium q = s.medium q := by
  obtain ⟨s', hrun, hA', e, hlarge⟩ := checkDeleteChunk_step hA hc haddr hl
  have huse : ∀ q, q ∈ ls' ∨ q ∈ lm' → (s'.arenas (pos2index q)).type ≠ .empty := fun q hq =>
    (forChunks_ne (hA'.type_of ((hA'.registered q).mpr hq))).1
  have hs : ∀ q ∈ ls', (s'.arenas (pos2index q)).type ≠ .empty := fun q hq => huse q (.inl hq)
  have hm : ∀ q ∈ lm', (s'.arenas (pos2index q)).type ≠ .empty := fun q hq => huse q (.inr hq)
  have h' : HeapInv s' ls' lm' pool := ⟨h.same e hs hm, hA'⟩
  have hblock : ∀ k pos n, Block s' ls' lm' k pos n ↔ Block s ls' lm' k pos n := fun k pos n => by
    cases k with
    | small => exact SmallBlock.same h.small e hs
    | medium => exact MediumBlock.same e hm
    | large => exact hlarge pos n
  exact ⟨s', hrun, h', ⟨hblock, fun k pos n hb => h'.bytes_left e ((hblock k pos n).mpr hb),
    h.small.stays_unlinked e hs⟩, fun q hq => e.medium q (hm q hq)⟩

/-- A small chunk without runs goes. -/
theorem HeapInv.release_small (h : HeapInv s ls lm pool) {c : Nat} (hc : c ∈ ls) (hused : (s.small c).used = 1)
    (haddr : (s.arenaAddrs (pos2index c)).addr ≠ none) :
    ∃ s', releaseChunk s (pos2index c) c = .ok s' ∧ HeapInv s' (ls.erase c) lm pool ∧
      SameBlocks s s' ls lm (ls.erase c) lm ∧ ∀ q ∈ lm, s'.medium q = s.medium q := by
  have hcm : c ∉ lm := fun hm => h.small_medium hc hm
  have hnd := h.small.chunks.holds.nodup
  have hmem : ∀ q, q ∈ ls.erase c ↔ q ≠ c ∧ q ∈ ls := fun q => hnd.mem_erase_iff
  obtain ⟨s₁, hrun, hi, f, e⟩ := deleteChunk_small_step h.small hc hused
  obtain ⟨hm, hmc⟩ := h.toChunksOk.mediums_frame f hcm
  have hmed : ∀ q ∈ lm, s₁.medium q = s.medium q := fun q hq => f.medium q fun he => hcm (he ▸ hq)
  have hsame : SameBlocks s s₁ ls lm (ls.erase c) lm := by
    have hat : ∀ r, RunAt s₁ (ls.erase c) r ↔ RunAt s ls r :=
      runAt_empty f.small (fun q hq => by rw [hmem, and_iff_right hq])
        (fun _ p hp => (h.small.chunk c hc).page_zero hused hp) fun hc' => absurd rfl ((hmem c).mp hc').1
    exact .of_kinds (SmallBlock.congr hat e.run e.link)
      (MediumBlock.congr fun q p k => and_congr_right fun hq => by rw [hmed q hq]) f.arenas
      (fun _ _ _ hb => .of_data e.data (h.disjoint_headers hb fun q hq => (h.registered q).mpr (.inl hq)))
      fun r => .of_runs (hat r).mpr e
  have h₁ : ChunksOk s₁ (ls.erase c) lm pool := ⟨hi, hm, hmc⟩
  obtain ⟨s', hdel, h', hsame', hmed'⟩ := h₁.check_delete (h.toArenasHold.congr f.arenas)
    ((IsChunk.congr f.arenas).mpr ((h.registered c).mpr (.inl hc))) (by rwa [f.arenaAddrs]) fun q => by
      have hne : q ∈ lm → q ≠ c := fun hq he => hcm (he ▸ hq)
      rw [hmem]
      tauto
  refine ⟨s', ?_, h', hsame.trans hsame', fun q hq => (hmed' q hq).trans (hmed q hq)⟩
  unfold releaseChunk
  rw [hrun]
  exact hdel

/-- A medium chunk without blocks goes. -/
theorem HeapInv.release_medium (h : HeapInv s ls lm pool) {c : Nat} (hc : c ∈ lm)
    (hfree : (s.medium c).freeSize = 255) (haddr : (s.arenaAddrs (pos2index c)).addr ≠ none) :
    ∃ s', releaseChunk s (pos2index c) c = .ok s' ∧ HeapInv s' ls (lm.erase c) pool ∧
      SameBlocks s s' ls lm ls (lm.erase c) ∧ ∀ q ∈ lm.erase c, s'.medium q = s.medium q := by
  have hcs : c ∉ ls := fun hs => h.small_medium hs hc
  have hnd := h.mediums.holds.nodup
  have hmem : ∀ q, q ∈ lm.erase c ↔ q ≠ c ∧ q ∈ lm := fun q => hnd.mem_erase_iff
  obtain ⟨l, m⟩ := h.medium c hc
  obtain ⟨t, hrun, hpool, hframe, e⟩ := deleteChunk_spec h.mediums hc (congrArg ChunkHeader.type m.header)
  let s₁ : Shm := (s.setPool .medium t).setHeader c {s.header c with type := .empty}
  have f : ChunkFrame s s₁ .medium c lm := hframe.setHeader _
  have e₁ : SameRuns (headerBytes lm) s s₁ := e.trans (.setHeader _ _ (mem_headerBytes hc))
  have hmed : ∀ q, s₁.medium q = s.medium q := fun _ => rfl
  have hsame : SameBlocks s s₁ ls lm ls (lm.erase c) := by
    refine .of_kinds (SmallBlock.congr (fun r => RunAt.congr fun q _ => rfl) e₁.run e₁.link)
      (MediumBlock.congr fun q p k => ?_) f.arenas
      (fun _ _ _ hb => .of_data e₁.data (h.disjoint_headers hb fun q hq => (h.registered q).mpr (.inr hq)))
      fun r => .of_runs id e₁
    rw [hmem, hmed, and_assoc, and_iff_right_iff_imp]
    rintro ⟨-, hu⟩ rfl
    exact m.layout.full_iff.mp hfree p k hu
  have h₁ : ChunksOk s₁ ls (lm.erase c) pool := by
    refine ⟨h.small.frame f e₁ hcs fun q hq hm => h.small_medium hq hm, hpool.of_nodes (fun _ _ => rfl) rfl rfl,
      fun q hq => ?_⟩
    obtain ⟨hqc, hq⟩ := (hmem q).mp hq
    obtain ⟨k, mk⟩ := h.medium q hq
    exact ⟨k, mk.frame f hqc⟩
  obtain ⟨s', hdel, h', hsame', hmed'⟩ := h₁.check_delete (h.toArenasHold.congr f.arenas)
    ((IsChunk.congr f.arenas).mpr ((h.registered c).mpr (.inr hc))) (by rwa [f.arenaAddrs]) fun q => by
      have hne : q ∈ ls → q ≠ c := fun hq he => hcs (he ▸ hq)
      rw [hmem]
      tauto
  refine ⟨s', ?_, h', hsame.trans hsame', hmed'⟩
  unfold releaseChunk
  rw [hrun]
  exact hdel

/-! ### Blocks go -/

/-- A slot of a run is given back. -/
theorem HeapOk.free_small (h : HeapOk s ls lm pool) {c p o : Nat} (hc : c ∈ ls) (hp : p ∈ pages (s.small c).bitmap)
    (hp₀ : p ≠ 0) (ho : UsedSlot s (c + p * 4096) o) (hu : Unlinked s (c + p * 4096))
    (haddr : (s.arenaAddrs (pos2index c)).addr ≠ none) :
    ∃ s' ls' pool', freeInChunk s (pos2index c) c (p * 4096 + o) = .ok s' ∧ HeapOk s' ls' lm pool' ∧
      Freed s s' ls lm ls' lm (c + (p * 4096 + o)) := by
  obtain ⟨s₁, b, ls₁, pool₁, hrun, hi, hperm, hf, hused⟩ := freeChunkSmall_step h.small hc hp hp₀ ho hu
  have hcm : c ∉ lm := fun hm => h.small_medium hc hm
  have hat : RunAt s ls (c + p * 4096) := ⟨c, hc, p, hp, hp₀, rfl⟩
  have hb : Block s ls lm .small (c + (p * 4096 + o)) _ := ⟨_, o, hat, ho, (Nat.add_assoc ..).symm, rfl⟩
  obtain ⟨hm, hmc⟩ := h.toChunksOk.mediums_frame hf.frame hcm
  have hmed : ∀ q ∈ lm, s₁.medium q = s.medium q := fun q hq => hf.frame.medium q fun he => hcm (he ▸ hq)
  have h₁ : HeapInv s₁ ls₁ lm pool₁ := by
    refine ⟨⟨hi, hm, hmc⟩, hf.frame.arenas ▸ h.arenas, fun i => by rw [hf.frame.arenas]; exact h.arena i, fun q => ?_⟩
    rw [IsChunk.congr hf.frame.arenas, h.registered, hperm.mem_iff]
  -- a run that is left has its slots, and the run of a page given back had no other
  have hslot : ∀ r x, RunAt s₁ ls₁ r ∧ UsedSlot s₁ r x ↔
      RunAt s ls r ∧ UsedSlot s r x ∧ ¬(r = c + p * 4096 ∧ x = o) := by
    intro r x
    rw [hf.slot.used, RunAt.perm hperm]
    rcases hf.page with hpage | ⟨hempty, hpage⟩
    · rw [hpage]
    · rw [hpage, and_assoc, and_congr_right_iff]
      refine fun _ => and_iff_right_of_imp ?_
      rintro ⟨hx, hne⟩ rfl
      exact hempty x ((hf.slot.used _ x).mpr ⟨hx, hne⟩)
  have hfreed : Freed s s₁ ls lm ls₁ lm (c + (p * 4096 + o)) := by
    refine ⟨fun k q n => ?_, fun k q n hb' hq y hy => hf.data y fun hy' => ?_⟩
    cases k with
    | small =>
      constructor
      · rintro ⟨r, x, hr, hx, rfl, rfl⟩
        obtain ⟨hr', hx', hne⟩ := (hslot r x).mp ⟨hr, hx⟩
        refine ⟨⟨r, x, hr', hx', rfl, hf.slot.elemsize r⟩, fun he => hne ?_⟩
        exact h.small.slot_eq hr' hat (h.small.usedSlot_lt hr' hx') (h.small.usedSlot_lt hat ho) (by omega)
      · rintro ⟨⟨r, x, hr, hx, rfl, rfl⟩, hne⟩
        obtain ⟨hr', hx'⟩ := (hslot r x).mpr ⟨hr, hx, fun he => hne (by rw [he.1, he.2]; omega)⟩
        exact ⟨r, x, hr', hx', rfl, (hf.slot.elemsize r).symm⟩
    | medium =>
      exact (MediumBlock.congr (fun q p k => and_congr_right fun hq => by rw [hmed q hq]) q n).trans
        (and_iff_left_of_imp fun hb' => h.ne_of_kind (k := .medium) hb' hb (by decide)).symm
    | large =>
      exact (LargeBlock.congr hf.frame.arenas).trans
        (and_iff_left_of_imp fun hb' => h.ne_of_kind (k := .large) hb' hb (by decide)).symm
    · -- the link is written in the slot that is freed
      obtain ⟨-, -, -, -, -, -, -, -, -, h₈, -⟩ := h.smallBlock hb
      refine hy'.elim (Set.disjoint_left.mp (h.disjoint_smallBytes hb') hy) fun hy' => ?_
      rw [Nat.add_assoc] at hy'
      exact Set.disjoint_left.mp (h.disjoint hb' hb hq) hy (bytes_le (by omega) y hy')
  rw [freeInChunk_small (congrArg ChunkHeader.type (h.small.chunk c hc).header), hrun, Exec.ok_bind]
  cases b with
  | false =>
    exact ⟨s₁, ls₁, pool₁, rfl, ⟨h₁, fun q hq => by rw [hmed q hq]; exact h.used q hq⟩, hfreed⟩
  | true =>
    obtain ⟨s', hrel, h', hsame, hmed'⟩ := h₁.release_small (hperm.mem_iff.mpr hc) (hused rfl)
      (by rwa [hf.frame.arenaAddrs])
    exact ⟨s', _, pool₁, hrel, ⟨h', fun q hq => by rw [hmed' q hq, hmed q hq]; exact h.used q hq⟩, hfreed.same hsame⟩

/-- A unit of a medium chunk is given back. -/
theorem HeapOk.free_medium (h : HeapOk s ls lm pool) {c p k : Nat} (hc : c ∈ lm) (hu : UsedUnit (s.medium c) p k)
    (haddr : (s.arenaAddrs (pos2index c)).addr ≠ none) :
    ∃ s' lm', freeInChunk s (pos2index c) c (p * 4096) = .ok s' ∧ HeapOk s' ls lm' pool ∧
      Freed s s' ls lm ls lm' (c + p * 4096) := by
  obtain ⟨l, m⟩ := h.medium c hc
  have hb : Block s ls lm .medium (c + p * 4096) _ := ⟨c, hc, p, k, hu, rfl, rfl⟩
  obtain ⟨s₁, l₁, lm₁, index, n, hrun, m₁, hp, hperm, f, e, hrel, -⟩ := freeChunkMedium_step h.mediums hc m hu
  have hcs : c ∉ ls := fun hs => h.small_medium hs hc
  have hmem : ∀ q, q ∈ lm₁ ↔ q ∈ lm := fun q => hperm.mem_iff
  have hmed : ∀ q, q ≠ c → s₁.medium q = s.medium q := f.medium
  have h₁ : HeapInv s₁ ls lm₁ pool := by
    refine ⟨⟨h.small.frame f e hcs fun q hq hm => h.small_medium hq hm, hp, fun q hq => ?_⟩,
      f.arenas ▸ h.arenas, fun i => by rw [f.arenas]; exact h.arena i, fun q => ?_⟩
    · by_cases hqc : q = c
      · subst hqc
        exact ⟨l₁, m₁⟩
      · obtain ⟨k, mk⟩ := h.medium q ((hmem q).mp hq)
        exact ⟨k, mk.frame f hqc⟩
    · rw [IsChunk.congr f.arenas, h.registered, hmem]
  have hplace : ∀ q ∈ lm, IsPlace q := fun q hq => h.isPlace ((h.registered q).mpr (.inr hq))
  have hlt : ∀ q ∈ lm, ∀ p k, UsedUnit (s.medium q) p k → 1 ≤ p ∧ p < 256 := fun q hq p k hu => by
    obtain ⟨l, m⟩ := h.medium q hq
    exact m.layout.parts.range p hu.2.start
  have hunit : ∀ q p' k', q ∈ lm₁ ∧ UsedUnit (s₁.medium q) p' k' ↔
      q ∈ lm ∧ UsedUnit (s.medium q) p' k' ∧ ¬(q = c ∧ p' = p) := by
    intro q p' k'
    rw [hmem]
    by_cases hqc : q = c
    · subst hqc
      rw [hrel.used]
      tauto
    · rw [hmed q hqc]
      tauto
  have hfreed : Freed s s₁ ls lm ls lm₁ (c + p * 4096) := by
    refine ⟨fun k q n => ?_, fun k q n hb' hq => .of_data e.data (h.disjoint_mediumBytes hb' hc fun p' hp' _ => ?_)⟩
    cases k with
    | small =>
      have hat : ∀ r, RunAt s₁ ls r ↔ RunAt s ls r := fun r => RunAt.congr fun q hq => by
        rw [f.small q fun he => hcs (he ▸ hq)]
      exact (SmallBlock.congr hat e.run e.link q n).trans
        (and_iff_left_of_imp fun hb' => h.ne_of_kind (k := .small) hb' hb (by decide)).symm
    | medium =>
      constructor
      · rintro ⟨q', hq', p', k', hu', rfl, rfl⟩
        obtain ⟨hq, hu'', hne⟩ := (hunit q' p' k').mp ⟨hq', hu'⟩
        refine ⟨⟨q', hq, p', k', hu'', rfl, rfl⟩, fun he => hne ?_⟩
        exact (hplace q' hq).page_eq (hplace c hc) (hlt q' hq p' k' hu'').2 (hlt c hc p _ hu).2 he
      · rintro ⟨⟨q', hq', p', k', hu', rfl, rfl⟩, hne⟩
        obtain ⟨hq, hu''⟩ := (hunit q' p' k').mpr ⟨hq', hu', fun he => hne (by rw [he.1, he.2])⟩
        exact ⟨q', hq, p', k', hu'', rfl, rfl⟩
    | large =>
      exact (LargeBlock.congr f.arenas).trans
        (and_iff_left_of_imp fun hb' => h.ne_of_kind (k := .large) hb' hb (by decide)).symm
    · -- the node of the unit is written in its first page
      rcases List.mem_cons.mp hp' with rfl | hp'
      · have hk := hu.2.pos
        exact (h.disjoint hb' hb hq).mono_right (bytes_le (by omega))
      · exact h.disjoint_unit hb' hc m hp' le_rfl (by have := (m.layout.unitSize_le hp').1; omega)
  rw [freeInChunk_medium (congrArg ChunkHeader.type m.header), hrun, Exec.ok_bind]
  by_cases hfull : (s₁.medium c).freeSize = 255
  · obtain ⟨s', hrel', h', hsame, hmed'⟩ := h₁.release_medium ((hmem c).mpr hc) hfull (by rwa [f.arenaAddrs])
    have hnd := hp.holds.nodup
    refine ⟨s', lm₁.erase c, ?_, ⟨h', fun q hq => ?_⟩, hfreed.same hsame⟩
    · rw [if_pos (decide_eq_true hfull)]
      exact hrel'
    · obtain ⟨hqc, hql⟩ := hnd.mem_erase_iff.mp hq
      rw [hmed' q hq, hmed q hqc]
      exact h.used q ((hmem q).mp hql)
  · refine ⟨s₁, lm₁, if_neg fun hf => hfull (of_decide_eq_true hf), ⟨h₁, fun q hq => ?_⟩, hfreed⟩
    by_cases hqc : q = c
    · subst hqc
      exact hfull
    · rw [hmed q hqc]
      exact h.used q ((hmem q).mp hq)

/-- A large arena goes. -/
theorem HeapOk.free_large (h : HeapOk s ls lm pool) {i : Nat} (hi : (s.arenas i).type = .large)
    (hrun : deleteArena s i = .ok s') : HeapOk s' ls lm pool ∧ Freed s s' ls lm ls lm (i * 2 ^ 32) := by
  obtain ⟨e, hsame⟩ := deleteArena_step hrun
  have hi₀ : i ≠ 0 := by
    rintro rfl
    rw [(h.arenas.context 0).mpr rfl] at hi
    cases hi
  have hok : ArenasOk s'.arenas := by
    rw [e]
    exact h.arenas.zero hi₀
  have hnone : slotsUsed ShmArena.zero = slotsUsed (s.arenas i) := by
    rw [slotsUsed_zero rfl, (h.arena i).none (.inr hi)]
  have hne : ∀ q, q ∈ ls ∨ q ∈ lm → pos2index q ≠ i := fun q hq he => by
    have ht := h.type_of ((h.registered q).mpr hq)
    rw [he, hi] at ht
    exact (forChunks_ne ht).2 rfl
  have hs : ∀ q ∈ ls, pos2index q ≠ i := fun q hq => hne q (.inl hq)
  have hm : ∀ q ∈ lm, pos2index q ≠ i := fun q hq => hne q (.inr hq)
  have h' : HeapInv s' ls lm pool := ⟨h.toChunksOk.same hsame hs hm,
    h.toArenasHold.set e hok (.bare hi₀ (.inl rfl) rfl rfl) hnone⟩
  have hused : SameIn (fun j => (s'.arenas j).type ≠ .empty) s s' := hsame.mono fun j hj hji => hj (by
    rw [hji, e.self]
    rfl)
  have hblocks : ∀ k q n, Block s' ls lm k q n ↔ Block s ls lm k q n ∧ q ≠ i * 2 ^ 32 := fun k q n => by
    have hb : Block s ls lm .large (i * 2 ^ 32) _ := ⟨i, hi, rfl, rfl⟩
    cases k with
    | small =>
      exact (SmallBlock.same h.small hsame hs).trans
        (and_iff_left_of_imp fun hb' => h.ne_of_kind (k := .small) hb' hb (by decide)).symm
    | medium =>
      exact (MediumBlock.same hsame hm).trans
        (and_iff_left_of_imp fun hb' => h.ne_of_kind (k := .medium) hb' hb (by decide)).symm
    | large =>
      constructor
      · rintro ⟨j, hj, rfl, rfl⟩
        have hji : j ≠ i := by
          rintro rfl
          rw [e.self] at hj
          cases hj
        rw [e.other hji] at hj ⊢
        exact ⟨⟨j, hj, rfl, rfl⟩, by omega⟩
      · rintro ⟨⟨j, hj, rfl, rfl⟩, hne⟩
        have hji : j ≠ i := fun he => hne (by rw [he])
        exact ⟨j, by rwa [e.other hji], rfl, by rw [e.other hji]⟩
  refine ⟨⟨h', fun q hq => by rw [hsame.medium q (hm q hq)]; exact h.used q hq⟩, hblocks, fun k q n hb hq => ?_⟩
  exact h'.bytes_left hused ((hblocks k q n).mpr ⟨hb, hq⟩)

/-! ### `free_arena` -/

theorem page_start {c p o : Nat} (hc : c % 4096 = 0) (ho : o < 4096) :
    (c + (p * 4096 + o)) / 4096 * 4096 = c + p * 4096 := by omega

theorem HeapInv.large_at (h : HeapInv s ls lm pool) {pos n : Nat} (hb : LargeBlock s pos n) :
    isArenaValid s (pos2index pos) = true ∧ (s.arenas (pos2index pos)).type = .large ∧
      n = (s.arenas (pos2index pos)).size := by
  obtain ⟨i, ht, rfl, hn⟩ := hb
  have hindex : pos2index (i * 2 ^ 32) = i := by
    rw [pos2index_eq]
    omega
  have hlt : i < 128 := by
    by_contra hge
    rw [h.arenas.bound i (by omega)] at ht
    cases ht
  rw [hindex]
  refine ⟨?_, ht, hn⟩
  unfold isArenaValid
  rw [ht, Bool.and_eq_true]
  exact ⟨decide_eq_true hlt, rfl⟩

theorem HeapInv.large_iff (h : HeapInv s ls lm pool) {k : BlockKind} {pos n : Nat} (hb : Block s ls lm k pos n) :
    k = .large ↔ (s.arenas (pos2index pos)).type = .large := by
  constructor
  · rintro rfl
    exact (h.large_at hb).2.1
  · intro ht
    by_contra hk
    exact (forChunks_ne (h.type_at hk hb)).2 ht

theorem HeapInv.small_run (h : HeapInv s ls lm pool) {pos n : Nat} (hb : SmallBlock s ls pos n) :
    RunAt s ls (pos / 4096 * 4096) ∧ (s.run (pos / 4096 * 4096)).elemsize = n := by
  obtain ⟨r, o, hr, ho, rfl, rfl⟩ := hb
  have hlt := h.small.usedSlot_lt hr ho
  have hpage : (r + o) / 4096 * 4096 = r := by
    obtain ⟨c, hc, p, -, -, rfl⟩ := hr
    rw [Nat.add_assoc]
    exact page_start (h.small.chunk c hc).place.aligned hlt
  rw [hpage]
  exact ⟨hr, rfl⟩

/-- What has to be clear for a block to be freed. -/
theorem HeapInv.unstale_iff (h : HeapInv s ls lm pool) {k : BlockKind} {pos n : Nat} (hb : Block s ls lm k pos n) :
    Unstale s pos ↔ (k = .small → Unlinked s (pos / 4096 * 4096)) := by
  cases k with
  | small =>
    obtain ⟨c, p, o, hin, -, -, -, -, -, h₈, -⟩ := h.smallBlock hb
    obtain ⟨i, j, -, -, -, -, hplace, -⟩ := h.small_place hin.chunk
    have hlarge : (s.arenas (pos2index pos)).type ≠ .large := (forChunks_ne (h.type_at (by decide) hb)).2
    have htype : (s.header (pos / 2 ^ 20 * 2 ^ 20)).type = .small := by
      rw [hin.start hplace (by omega), (h.small.chunk c hin.chunk).header]
    exact ⟨fun hu _ => hu hlarge htype, fun hu _ _ => hu rfl⟩
  | medium =>
    obtain ⟨c, p, m, hin, -, -, -, hm, rfl⟩ := h.mediumBlock hb
    obtain ⟨l, hl⟩ := h.medium c hin.chunk
    obtain ⟨i, j, -, -, -, -, hplace, -⟩ := h.medium_place hin.chunk
    refine iff_of_true (fun _ ht => ?_) fun he => by cases he
    rw [hin.start hplace (by omega), hl.header] at ht
    cases ht
  | large =>
    refine iff_of_true (fun hne => ?_) fun he => by cases he
    exact absurd (h.large_at hb).2.1 hne

/-- A block in a chunk is freed once the chunk is looked up. -/
theorem HeapOk.free_chunk (h : HeapOk s ls lm pool) {k : BlockKind} {pos n : Nat} (hk : k ≠ .large)
    (hb : Block s ls lm k pos n) (hu : Unstale s pos) :
    ∃ c x, pos = c + x ∧ IsChunk s c ∧ x < 2 ^ 20 ∧ ∀ s₁, SameHeap s s₁ →
      (s₁.arenaAddrs (pos2index c)).addr ≠ none → ∃ s' ls' lm' pool', freeInChunk s₁ (pos2index c) c x = .ok s' ∧
        HeapOk s' ls' lm' pool' ∧ Freed s s' ls lm ls' lm' pos ∧ (k ≠ .small → ls' = ls) := by
  cases k with
  | small =>
    obtain ⟨c, p, o, hin, hp, hp₀, ho, h₁, h₂, h₈, -⟩ := h.smallBlock hb
    have hc := (h.registered c).mpr (.inl hin.chunk)
    have hx : p * 4096 + o < 2 ^ 20 := by
      have := (mem_pages.mp hp).1
      omega
    have hpos := hin.pos
    have hunl : Unlinked s (c + p * 4096) := by
      rw [← page_start (h.small.chunk c hin.chunk).place.aligned (by omega : o < 4096), ← hpos]
      exact (h.unstale_iff hb).mp hu rfl
    refine ⟨c, p * 4096 + o, hpos, hc, hx, fun s₁ e haddr => ?_⟩
    have hunl₁ : Unlinked s₁ (c + p * 4096) := by
      unfold Unlinked at *
      rwa [e.objects.run _ trivial, e.objects.runNode _ trivial]
    obtain ⟨s', ls', pool', hrun, h', hf⟩ := (h.same e).free_small hin.chunk (by rwa [e.objects.small c trivial]) hp₀
      ((UsedSlot.same e.objects trivial o).mpr ho) hunl₁ haddr
    exact ⟨s', ls', lm, pool', hrun, h', hpos ▸ (e.blocks h.toChunksOk).freed hf, absurd rfl⟩
  | medium =>
    obtain ⟨c, p, m, hin, hu', h₁, h₂, hm, -⟩ := h.mediumBlock hb
    have hpos := hin.pos
    refine ⟨c, p * 4096, hpos, (h.registered c).mpr (.inr hin.chunk), by omega, fun s₁ e haddr => ?_⟩
    obtain ⟨s', lm', hrun, h', hf⟩ := (h.same e).free_medium hin.chunk (by rwa [e.objects.medium c trivial]) haddr
    exact ⟨s', ls, lm', pool, hrun, h', hpos ▸ (e.blocks h.toChunksOk).freed hf, fun _ => rfl⟩
  | large => exact absurd rfl hk

/-- A large block is freed with its arena, which is not looked up. -/
theorem HeapInv.freeArena_large (h : HeapInv s ls lm pool) {pos n : Nat} (hb : LargeBlock s pos n) :
    freeArena s (pos2index pos) (pos2offset pos) = deleteArena s (pos2index pos) := by
  obtain ⟨hvalid, ht, -⟩ := h.large_at hb
  unfold freeArena
  rw [hvalid, if_neg (by decide)]
  dsimp only
  rw [ht]

/-- **What a free that completes does.** -/
theorem HeapOk.free (h : HeapOk s ls lm pool) {k : BlockKind} {pos n : Nat} (hb : Block s ls lm k pos n)
    (hu : Unstale s pos) (hrun : freeArena s (pos2index pos) (pos2offset pos) = .ok s') :
    ∃ ls' lm' pool', HeapOk s' ls' lm' pool' ∧ Freed s s' ls lm ls' lm' pos ∧ (k ≠ .small → ls' = ls) := by
  by_cases hk : k = .large
  · subst hk
    rw [h.freeArena_large hb] at hrun
    obtain ⟨i, ht, rfl, -⟩ := hb
    rw [show pos2index (i * 2 ^ 32) = i by rw [pos2index_eq]; omega] at hrun
    obtain ⟨h', hf⟩ := h.free_large ht hrun
    exact ⟨ls, lm, pool, h', hf, fun _ => rfl⟩
  · obtain ⟨c, x, rfl, hc, hx, hfree⟩ := h.free_chunk hk hb hu
    rw [h.freeArena_eq hc hx] at hrun
    obtain ⟨s₁, hlook, hrun⟩ := Exec.bind_ok hrun
    obtain ⟨s₂, ls', lm', pool', hin, h', hf, hls⟩ := hfree s₁ (getOrUpdateAddr_same hlook) (getOrUpdateAddr_entry hlook)
    obtain rfl := Except.ok.inj (hin.symm.trans hrun)
    exact ⟨ls', lm', pool', h', hf, hls⟩

/-- A free completes if its arena is for chunks, or the process has an address for it. -/
theorem HeapOk.free_total (h : HeapOk s ls lm pool) (hT : TableOk s) {k : BlockKind} {pos n : Nat}
    (hb : Block s ls lm k pos n) (hu : Unstale s pos) :
    (∃ s', freeArena s (pos2index pos) (pos2offset pos) = .ok s') ↔
      (k = .large → (s.arenaAddrs (pos2index pos)).addr ≠ none) := by
  by_cases hk : k = .large
  · subst hk
    rw [h.freeArena_large hb, deleteArena_eq]
    exact ⟨fun ha _ => ha, fun ha => ha rfl⟩
  · refine iff_of_true ?_ fun he => absurd he hk
    obtain ⟨c, x, rfl, hc, hx, hfree⟩ := h.free_chunk hk hb hu
    obtain ⟨hat, -, hne⟩ := h.chunk_at hc hx
    obtain ⟨s₁, hlook, e, -⟩ := hT.getOrUpdateAddr_total hne hat.inUse
    obtain ⟨s', ls', lm', pool', hin, -⟩ := hfree s₁ e (getOrUpdateAddr_entry hlook)
    exact ⟨s', by rw [h.freeArena_eq hc hx, hlook, Exec.ok_bind, hin]⟩

end

end ShmMalloc
