import Mathlib.Order.CompletePartialOrder
import ShmMalloc.Chunk.SmallSpec
import ShmMalloc.Chunk.MediumSpec
import ShmMalloc.Process.Tables

/-! The shared memory as a whole: arenas, the chunks in their slots, and the blocks.

`HeapInv` ties the levels together: the slots of the arenas name the chunks that the two
pools hold, each chunk has its layout, and nothing else is registered anywhere. A block
is what a caller holds: a slot of a run, a unit of a medium chunk, or a large arena. -/
namespace ShmMalloc

/-! ### Slots -/

/-- The position of a chunk slot. -/
def slotPos (i k : Nat) : Nat := i * 2 ^ 32 + k * 2 ^ 20

theorem pos2index_slot {i k x : Nat} (hk : k < 8) (hx : x < 2 ^ 20) : pos2index (slotPos i k + x) = i := by
  rw [pos2index_eq, slotPos]
  omega

theorem pos2offset_slot {i k x : Nat} (hk : k < 8) (hx : x < 2 ^ 20) :
    pos2offset (slotPos i k + x) = k * 2 ^ 20 + x := by
  rw [pos2offset, slotPos]
  omega

theorem slotPos_inj {i k i' k' : Nat} (hk : k < 8) (hk' : k' < 8) (h : slotPos i k = slotPos i' k') :
    i = i' ∧ k = k' := by
  unfold slotPos at h
  omega

theorem slotPos_ne {i k : Nat} (h : i ≠ 0 ∨ k ≠ 0) : slotPos i k ≠ 0 := by
  unfold slotPos
  omega

/-- An arena for chunks is in use, and not large. -/
theorem forChunks_ne {t : ArenaType} (h : t = .context ∨ t = .chunk) : t ≠ .empty ∧ t ≠ .large := by
  rcases h with rfl | rfl <;> decide

/-- The slots of an arena that are not empty. -/
def slotsUsed (a : ShmArena) : Finset Nat := (Finset.range 8).filter fun k => a.chunks k ≠ 0

theorem mem_slotsUsed {a : ShmArena} {k : Nat} : k ∈ slotsUsed a ↔ k < 8 ∧ a.chunks k ≠ 0 := by
  rw [slotsUsed, Finset.mem_filter, Finset.mem_range]

/-- An arena entry: slot 0 of arena 0 is that of the context itself. -/
structure ArenaOk (i : Nat) (a : ShmArena) : Prop where
  slot : ∀ k ∈ slotsUsed a, i = 0 ∧ k = 0 ∨ a.chunks k = slotPos i k
  context : i = 0 → a.chunks 0 = 1
  used : a.used = (slotsUsed a).card
  none : a.type = .empty ∨ a.type = .large → slotsUsed a = ∅
  some : a.type = .chunk → slotsUsed a ≠ ∅
  size : a.type = .context ∨ a.type = .chunk → a.size = 2 ^ 23

/-- A chunk is registered in a slot. -/
def IsChunk (s : Shm) (c : Nat) : Prop :=
  ∃ i k, k ∈ slotsUsed (s.arenas i) ∧ (i ≠ 0 ∨ k ≠ 0) ∧ c = slotPos i k

/-- The small chunks `ls` and the medium chunks `lm`, with the runs in the pools. -/
structure ChunksOk (s : Shm) (ls lm : List Nat) (pool : Nat → List Nat) : Prop where
  small : SmallInv s ls pool
  mediums : ChunkPool s .medium lm
  medium : ∀ c ∈ lm, ∃ l, MediumChunk s c l

/-- The arena entries, whose slots name these chunks. -/
structure ArenasHold (s : Shm) (ls lm : List Nat) : Prop where
  arenas : ArenasOk s.arenas
  arena : ∀ i, ArenaOk i (s.arenas i)
  registered : ∀ c, IsChunk s c ↔ c ∈ ls ∨ c ∈ lm

structure HeapInv (s : Shm) (ls lm : List Nat) (pool : Nat → List Nat) : Prop extends
  ChunksOk s ls lm pool, ArenasHold s ls lm

/-! ### Blocks -/

def SmallBlock (s : Shm) (ls : List Nat) (pos n : Nat) : Prop :=
  ∃ r o, RunAt s ls r ∧ UsedSlot s r o ∧ pos = r + o ∧ n = (s.run r).elemsize

def MediumBlock (s : Shm) (lm : List Nat) (pos n : Nat) : Prop :=
  ∃ c ∈ lm, ∃ p k, UsedUnit (s.medium c) p k ∧ pos = c + p * 4096 ∧ n = k * 4096

def LargeBlock (s : Shm) (pos n : Nat) : Prop :=
  ∃ i, (s.arenas i).type = .large ∧ pos = i * 2 ^ 32 ∧ n = (s.arenas i).size

inductive BlockKind where
  | small
  | medium
  | large
  deriving DecidableEq, Repr

/-- A block of a capacity at a position. -/
def Block (s : Shm) (ls lm : List Nat) : BlockKind → Nat → Nat → Prop
  | .small => SmallBlock s ls
  | .medium => MediumBlock s lm
  | .large => LargeBlock s

/-- `n` bytes from the offset `x` of a slot on. -/
structure Within (pos n i k x : Nat) : Prop where
  slot : k < 8
  pos : pos = slotPos i k + x
  lt : x < 2 ^ 20
  le : x + n ≤ 2 ^ 20

theorem Within.bytes {pos n i k x : Nat} (h : Within pos n i k x) : ∀ y ∈ bytes pos n, y.1 = i ∧
    k * 2 ^ 20 + x ≤ y.2 ∧ y.2 < k * 2 ^ 20 + x + n := by
  rintro y ⟨h₁, h₂, h₃⟩
  rw [h.pos, pos2index_slot h.slot h.lt] at h₁
  rw [h.pos, pos2offset_slot h.slot h.lt] at h₂ h₃
  exact ⟨h₁, h₂, h₃⟩

theorem Within.disjoint {pos n i k x pos' n' i' k' x' : Nat} (h : Within pos n i k x)
    (h' : Within pos' n' i' k' x') (hne : ¬(i = i' ∧ k = k') ∨ x + n ≤ x' ∨ x' + n' ≤ x) :
    Disjoint (ShmMalloc.bytes pos n) (ShmMalloc.bytes pos' n') := by
  refine Set.disjoint_left.mpr fun y hy hy' => ?_
  obtain ⟨h₁, h₂, h₃⟩ := h.bytes y hy
  obtain ⟨h₁', h₂', h₃'⟩ := h'.bytes y hy'
  have := h.le
  have := h'.le
  omega

section
variable {s s' : Shm} {ls lm : List Nat} {pool : Nat → List Nat}

theorem ArenasHold.chunk_place (h : ArenasHold s ls lm) {c : Nat} (hc : IsChunk s c) :
    ∃ i k, i < 128 ∧ k < 8 ∧ (i ≠ 0 ∨ k ≠ 0) ∧ (s.arenas i).chunks k = c ∧ c = slotPos i k ∧
      ((s.arenas i).type = .context ∨ (s.arenas i).type = .chunk) := by
  obtain ⟨i, k, hk, hne, rfl⟩ := hc
  have hslot := ((h.arena i).slot k hk).resolve_left fun he => hne.elim (absurd he.1) (absurd he.2)
  have htype : ¬((s.arenas i).type = .empty ∨ (s.arenas i).type = .large) := fun ht => by
    rw [(h.arena i).none ht] at hk
    cases hk
  have hlt : i < 128 := by
    by_contra hge
    exact htype (.inl (h.arenas.bound i (by omega)))
  refine ⟨i, k, hlt, (mem_slotsUsed.mp hk).1, hne, hslot, rfl, ?_⟩
  cases ht : (s.arenas i).type with
  | empty => exact absurd (.inl ht) htype
  | large => exact absurd (.inr ht) htype
  | context => exact .inl rfl
  | chunk => exact .inr rfl

theorem ArenasHold.type_of (h : ArenasHold s ls lm) {c : Nat} (hc : IsChunk s c) :
    (s.arenas (pos2index c)).type = .context ∨ (s.arenas (pos2index c)).type = .chunk := by
  obtain ⟨i, k, -, hk, -, -, rfl, ht⟩ := h.chunk_place hc
  rwa [← Nat.add_zero (slotPos i k), pos2index_slot hk (by omega)]

theorem ChunksOk.small_medium (h : ChunksOk s ls lm pool) {c : Nat} (hs : c ∈ ls) (hm : c ∈ lm) : False := by
  obtain ⟨l, m⟩ := h.medium c hm
  have := m.header.symm.trans (h.small.chunk c hs).header
  cases this

theorem HeapInv.medium_place (h : HeapInv s ls lm pool) {c : Nat} (hc : c ∈ lm) : ∃ i k, i < 128 ∧ k < 8 ∧
    (i ≠ 0 ∨ k ≠ 0) ∧ (s.arenas i).chunks k = c ∧ c = slotPos i k ∧
      ((s.arenas i).type = .context ∨ (s.arenas i).type = .chunk) :=
  h.chunk_place ((h.registered c).mpr (.inr hc))

theorem HeapInv.small_place (h : HeapInv s ls lm pool) {c : Nat} (hc : c ∈ ls) : ∃ i k, i < 128 ∧ k < 8 ∧
    (i ≠ 0 ∨ k ≠ 0) ∧ (s.arenas i).chunks k = c ∧ c = slotPos i k ∧
      ((s.arenas i).type = .context ∨ (s.arenas i).type = .chunk) :=
  h.chunk_place ((h.registered c).mpr (.inl hc))

/-- Which chunks are small is in their headers. -/
theorem HeapInv.small_iff (h : HeapInv s ls lm pool) {c : Nat} :
    c ∈ ls ↔ IsChunk s c ∧ (s.header c).type = .small := by
  constructor
  · intro hc
    exact ⟨(h.registered c).mpr (.inl hc), by rw [(h.small.chunk c hc).header]⟩
  · rintro ⟨hc, ht⟩
    refine ((h.registered c).mp hc).resolve_right fun hm => ?_
    obtain ⟨l, m⟩ := h.medium c hm
    rw [m.header] at ht
    cases ht

theorem HeapInv.medium_iff (h : HeapInv s ls lm pool) {c : Nat} :
    c ∈ lm ↔ IsChunk s c ∧ (s.header c).type = .medium := by
  constructor
  · intro hc
    obtain ⟨l, m⟩ := h.medium c hc
    exact ⟨(h.registered c).mpr (.inr hc), by rw [m.header]⟩
  · rintro ⟨hc, ht⟩
    refine ((h.registered c).mp hc).resolve_left fun hs => ?_
    rw [(h.small.chunk c hs).header] at ht
    cases ht

/-! ### Where blocks are -/

/-- A position in a page says which page, and where in it. -/
theorem SmallInv.slot_eq (h : SmallInv s ls pool) {r o r' o' : Nat} (hr : RunAt s ls r) (hr' : RunAt s ls r')
    (ho : o < 4096) (ho' : o' < 4096) (he : r + o = r' + o') : r = r' ∧ o = o' := by
  obtain ⟨c, hc, p, -, -, rfl⟩ := hr
  obtain ⟨c', hc', p', -, -, rfl⟩ := hr'
  have := (h.chunk c hc).place.aligned
  have := (h.chunk c' hc').place.aligned
  omega

theorem SmallInv.usedSlot_lt (h : SmallInv s ls pool) {r o : Nat} (hr : RunAt s ls r) (ho : UsedSlot s r o) :
    o < 4096 := by
  obtain ⟨f, hf⟩ := h.run r hr
  have := slot_bounds ((hf.usedSlot_iff o).mp ho).1
  have := hf.bounds
  omega

/-- A block in a chunk: its page and its place in it. -/
structure InChunk (s : Shm) (l : List Nat) (pos n c x : Nat) : Prop where
  chunk : c ∈ l
  pos : pos = c + x
  low : 4096 ≤ x
  high : x + n ≤ 2 ^ 20

theorem HeapInv.smallBlock (h : HeapInv s ls lm pool) {pos n : Nat} (hb : SmallBlock s ls pos n) :
    ∃ c p o, InChunk s ls pos n c (p * 4096 + o) ∧ p ∈ pages (s.small c).bitmap ∧ p ≠ 0 ∧
      UsedSlot s (c + p * 4096) o ∧ 64 ≤ o ∧ o + n ≤ 4096 ∧ 8 ≤ n ∧ n = (s.run (c + p * 4096)).elemsize := by
  obtain ⟨r, o, hat, hu, rfl, rfl⟩ := hb
  obtain ⟨f, hf⟩ := h.small.run r hat
  obtain ⟨c, hc, p, hp, hp₀, rfl⟩ := hat
  have hslot := ((hf.usedSlot_iff o).mp hu).1
  obtain ⟨h₁, h₂⟩ := slot_bounds hslot
  have hlt := (mem_pages.mp hp).1
  exact ⟨c, p, o, ⟨hc, by omega, by omega, by omega⟩, hp, hp₀, hu, h₁, h₂, hf.bounds.1, rfl⟩

theorem HeapInv.mediumBlock (h : HeapInv s ls lm pool) {pos n : Nat} (hb : MediumBlock s lm pos n) :
    ∃ c p k, InChunk s lm pos n c (p * 4096) ∧ UsedUnit (s.medium c) p k ∧ 1 ≤ p ∧ p + k ≤ 256 ∧ 0 < k ∧
      n = k * 4096 := by
  obtain ⟨c, hc, p, k, hu, rfl, rfl⟩ := hb
  obtain ⟨l, m⟩ := h.medium c hc
  obtain ⟨h₁, h₂⟩ := m.layout.parts.range p hu.2.start
  have hseg := hu.2
  have hle := hseg.le
  exact ⟨c, p, k, ⟨hc, rfl, by omega, by omega⟩, hu, h₁, hle, hseg.pos, rfl⟩

theorem InChunk.within {l : List Nat} {pos n c x i k : Nat} (h : InChunk s l pos n c x) (hk : k < 8)
    (hc : c = slotPos i k) (hn : 0 < n) : Within pos n i k x :=
  have hle := h.high
  ⟨hk, by rw [h.pos, hc], by omega, hle⟩

theorem InChunk.start {l : List Nat} {pos n c x i k : Nat} (h : InChunk s l pos n c x) (hc : c = slotPos i k)
    (hn : 0 < n) : pos / 2 ^ 20 * 2 ^ 20 = c := by
  have hpos := h.pos
  have hle := h.high
  unfold slotPos at hc
  omega

theorem LargeBlock.bytes {pos n : Nat} (h : LargeBlock s pos n) :
    ∀ y ∈ bytes pos n, (s.arenas y.1).type = .large ∧ pos = y.1 * 2 ^ 32 := by
  obtain ⟨i, hi, hp, -⟩ := h
  rintro y ⟨hy, -, -⟩
  have : y.1 = i := by
    rw [hy, hp, pos2index_eq]
    omega
  rw [this]
  exact ⟨hi, hp⟩

/-- A block that is not large is in a slot of an arena for chunks. -/
theorem HeapInv.within (h : HeapInv s ls lm pool) {k : BlockKind} {pos n : Nat} (hk : k ≠ .large)
    (hb : Block s ls lm k pos n) : ∃ i j x, Within pos n i j x ∧ 0 < n ∧ 4096 ≤ x ∧
      ((s.arenas i).type = .context ∨ (s.arenas i).type = .chunk) ∧ IsChunk s (slotPos i j) := by
  cases k with
  | small =>
    obtain ⟨c, p, o, hin, -, -, -, -, -, h₈, -⟩ := h.smallBlock hb
    obtain ⟨i, j, -, hj, -, -, hc, ht⟩ := h.small_place hin.chunk
    exact ⟨i, j, _, hin.within hj hc (by omega), by omega, hin.low, ht,
      hc ▸ (h.registered c).mpr (.inl hin.chunk)⟩
  | medium =>
    obtain ⟨c, p, m, hin, -, -, -, hm, rfl⟩ := h.mediumBlock hb
    obtain ⟨i, j, -, hj, -, -, hc, ht⟩ := h.medium_place hin.chunk
    exact ⟨i, j, _, hin.within hj hc (by omega), by omega, hin.low, ht,
      hc ▸ (h.registered c).mpr (.inr hin.chunk)⟩
  | large => exact absurd rfl hk

theorem HeapInv.type_at (h : HeapInv s ls lm pool) {k : BlockKind} {pos n : Nat} (hk : k ≠ .large)
    (hb : Block s ls lm k pos n) : (s.arenas (pos2index pos)).type = .context ∨ (s.arenas (pos2index pos)).type = .chunk := by
  obtain ⟨i, j, x, hw, -, -, ht, -⟩ := h.within hk hb
  rwa [hw.pos, pos2index_slot hw.slot hw.lt]

/-- The kind of a block can be read off its position. -/
def kindAt (pos : Nat) : BlockKind :=
  if pos % 4096 ≠ 0 then .small else if pos % 2 ^ 20 ≠ 0 then .medium else .large

theorem HeapInv.kindAt (h : HeapInv s ls lm pool) {k : BlockKind} {pos n : Nat} (hb : Block s ls lm k pos n) :
    kindAt pos = k := by
  unfold ShmMalloc.kindAt
  cases k with
  | small =>
    obtain ⟨c, p, o, hin, -, -, -, ho, ho', h₈, -⟩ := h.smallBlock hb
    have := hin.pos
    have := (h.small.chunk c hin.chunk).place.aligned
    exact if_pos (by omega)
  | medium =>
    obtain ⟨c, p, m, hin, -, h₁, h₂, hm, -⟩ := h.mediumBlock hb
    obtain ⟨i, j, -, -, -, -, hc, -⟩ := h.medium_place hin.chunk
    have := hin.pos
    unfold slotPos at hc
    rw [if_neg (by omega), if_pos (by omega)]
  | large =>
    obtain ⟨i, -, rfl, -⟩ := hb
    rw [if_neg (by omega), if_neg (by omega)]

theorem HeapInv.ne_of_kind (h : HeapInv s ls lm pool) {k k' : BlockKind} {pos n pos' n' : Nat}
    (hb : Block s ls lm k pos n) (hb' : Block s ls lm k' pos' n') (hk : k ≠ k') : pos ≠ pos' := by
  rintro rfl
  exact hk ((h.kindAt hb).symm.trans (h.kindAt hb'))

/-- There is one block at a position, of one kind and capacity. -/
theorem HeapInv.block_unique (h : HeapInv s ls lm pool) {k k' : BlockKind} {pos n n' : Nat}
    (hb : Block s ls lm k pos n) (hb' : Block s ls lm k' pos n') : k = k' ∧ n = n' := by
  obtain rfl : k = k' := (h.kindAt hb).symm.trans (h.kindAt hb')
  refine ⟨rfl, ?_⟩
  cases k with
  | small =>
    obtain ⟨r, o, hr, ho, rfl, rfl⟩ := hb
    obtain ⟨r', o', hr', ho', he, rfl⟩ := hb'
    rw [(h.small.slot_eq hr hr' (h.small.usedSlot_lt hr ho) (h.small.usedSlot_lt hr' ho') he).1]
  | medium =>
    obtain ⟨c, p, m, hin, hu, -, h₂, hm, rfl⟩ := h.mediumBlock hb
    obtain ⟨c', p', m', hin', hu', -, h₂', hm', rfl⟩ := h.mediumBlock hb'
    obtain ⟨i, j, -, -, -, -, hc, -⟩ := h.medium_place hin.chunk
    obtain ⟨i', j', -, -, -, -, hc', -⟩ := h.medium_place hin'.chunk
    have := hin.pos
    have := hin'.pos
    unfold slotPos at hc hc'
    obtain rfl : c = c' := by omega
    obtain rfl : p = p' := by omega
    rw [hu.2.unique hu'.2]
  | large =>
    obtain ⟨i, -, hp, rfl⟩ := hb
    obtain ⟨i', -, hp', rfl⟩ := hb'
    rw [show i = i' by omega]

/-! ### Blocks do not overlap -/

/-- A large block is in no arena for chunks. -/
theorem LargeBlock.disjoint {pos n pos' n' i k x : Nat} (h : LargeBlock s pos n) (hw : Within pos' n' i k x)
    (ht : (s.arenas i).type = .context ∨ (s.arenas i).type = .chunk) : Disjoint (ShmMalloc.bytes pos n) (ShmMalloc.bytes pos' n') := by
  refine Set.disjoint_left.mpr fun y hy hy' => (forChunks_ne ht).2 ?_
  rw [← (hw.bytes y hy').1]
  exact (h.bytes y hy).1

theorem HeapInv.disjoint_large (h : HeapInv s ls lm pool) {k : BlockKind} {pos n pos' n' : Nat} (hk : k ≠ .large)
    (hb : Block s ls lm k pos n) (hb' : LargeBlock s pos' n') : Disjoint (bytes pos n) (bytes pos' n') := by
  obtain ⟨i, j, x, hw, -, -, ht, -⟩ := h.within hk hb
  exact (hb'.disjoint hw ht).symm

theorem disjoint_chunks {l l' : List Nat} {pos n c x pos' n' c' x' i k i' k' : Nat}
    (hb : InChunk s l pos n c x) (hn : 0 < n) (hk : k < 8) (hc : c = slotPos i k)
    (hb' : InChunk s l' pos' n' c' x') (hn' : 0 < n') (hk' : k' < 8) (hc' : c' = slotPos i' k')
    (hne : c ≠ c' ∨ x + n ≤ x' ∨ x' + n' ≤ x) : Disjoint (bytes pos n) (bytes pos' n') := by
  refine (hb.within hk hc hn).disjoint (hb'.within hk' hc' hn') ?_
  rcases hne with hne | hne
  · refine .inl fun he => hne ?_
    rw [hc, hc', he.1, he.2]
  · exact .inr hne

theorem HeapInv.disjoint_small_medium (h : HeapInv s ls lm pool) {pos n pos' n' : Nat}
    (hb : SmallBlock s ls pos n) (hb' : MediumBlock s lm pos' n') :
    Disjoint (bytes pos n) (bytes pos' n') := by
  obtain ⟨c, p, o, hin, -, -, -, -, -, h₈, -⟩ := h.smallBlock hb
  obtain ⟨c', p', m, hin', -, -, -, hm, rfl⟩ := h.mediumBlock hb'
  obtain ⟨i, k, -, hk, -, -, hc, -⟩ := h.small_place hin.chunk
  obtain ⟨i', k', -, hk', -, -, hc', -⟩ := h.medium_place hin'.chunk
  refine disjoint_chunks hin (by omega) hk hc hin' (by omega) hk' hc' (.inl fun he => ?_)
  exact h.small_medium hin.chunk (he ▸ hin'.chunk)

theorem HeapInv.disjoint_small (h : HeapInv s ls lm pool) {pos n pos' n' : Nat} (hb : SmallBlock s ls pos n)
    (hb' : SmallBlock s ls pos' n') (hne : pos ≠ pos') : Disjoint (bytes pos n) (bytes pos' n') := by
  obtain ⟨c, p, o, hin, hp, hp₀, hu, h₁, h₂, h₈, he⟩ := h.smallBlock hb
  obtain ⟨c', p', o', hin', hp', -, hu', h₁', h₂', h₈', he'⟩ := h.smallBlock hb'
  obtain ⟨i, k, -, hk, -, -, hc, -⟩ := h.small_place hin.chunk
  obtain ⟨i', k', -, hk', -, -, hc', -⟩ := h.small_place hin'.chunk
  refine disjoint_chunks hin (by omega) hk hc hin' (by omega) hk' hc' ?_
  by_cases hcc : c = c'
  · subst hcc
    by_cases hpp : p = p'
    · -- two slots of one run
      subst hpp
      obtain ⟨f, hf⟩ := h.small.run _ ⟨c, hin.chunk, p, hp, hp₀, rfl⟩
      have hs := ((hf.usedSlot_iff o).mp hu).1
      have hs' := ((hf.usedSlot_iff o').mp hu').1
      have := slot_disjoint hs hs' fun ho => hne (by rw [hin.pos, hin'.pos, ho])
      omega
    · omega
  · exact .inl hcc

theorem HeapInv.disjoint_medium (h : HeapInv s ls lm pool) {pos n pos' n' : Nat} (hb : MediumBlock s lm pos n)
    (hb' : MediumBlock s lm pos' n') (hne : pos ≠ pos') : Disjoint (bytes pos n) (bytes pos' n') := by
  obtain ⟨c, p, m, hin, hu, -, -, hm, rfl⟩ := h.mediumBlock hb
  obtain ⟨c', p', m', hin', hu', -, -, hm', rfl⟩ := h.mediumBlock hb'
  obtain ⟨i, k, -, hk, -, -, hc, -⟩ := h.medium_place hin.chunk
  obtain ⟨i', k', -, hk', -, -, hc', -⟩ := h.medium_place hin'.chunk
  refine disjoint_chunks hin (by omega) hk hc hin' (by omega) hk' hc' ?_
  by_cases hcc : c = c'
  · subst hcc
    have := hu.2.disjoint hu'.2 fun hp => hne (by rw [hin.pos, hin'.pos, hp])
    omega
  · exact .inl hcc

/-- **Two blocks have no byte in common.** -/
theorem HeapInv.disjoint (h : HeapInv s ls lm pool) {k k' : BlockKind} {pos n pos' n' : Nat}
    (hb : Block s ls lm k pos n) (hb' : Block s ls lm k' pos' n') (hne : pos ≠ pos') :
    Disjoint (bytes pos n) (bytes pos' n') := by
  cases k with
  | small =>
    cases k' with
    | small => exact h.disjoint_small hb hb' hne
    | medium => exact h.disjoint_small_medium hb hb'
    | large => exact h.disjoint_large (k := .small) (by decide) hb hb'
  | medium =>
    cases k' with
    | small => exact (h.disjoint_small_medium hb' hb).symm
    | medium => exact h.disjoint_medium hb hb' hne
    | large => exact h.disjoint_large (k := .medium) (by decide) hb hb'
  | large =>
    cases k' with
    | small => exact (h.disjoint_large (k := .small) (by decide) hb' hb).symm
    | medium => exact (h.disjoint_large (k := .medium) (by decide) hb' hb).symm
    | large =>
      refine Set.disjoint_left.mpr fun y hy hy' => hne ?_
      rw [(LargeBlock.bytes hb y hy).2, (LargeBlock.bytes hb' y hy').2]

/-- A block covers no chunk header. -/
theorem HeapInv.disjoint_header (h : HeapInv s ls lm pool) {k : BlockKind} {pos n c : Nat}
    (hb : Block s ls lm k pos n) (hc : IsChunk s c) : Disjoint (bytes pos n) (bytes c 4096) := by
  obtain ⟨i, j, -, hj, -, -, rfl, ht⟩ := h.chunk_place hc
  have hw : Within (slotPos i j) 4096 i j 0 := ⟨hj, (Nat.add_zero _).symm, by omega, by omega⟩
  by_cases hk : k = .large
  · subst hk
    exact LargeBlock.disjoint hb hw ht
  · obtain ⟨i', j', x, hw', -, hx, -, -⟩ := h.within hk hb
    exact hw'.disjoint hw (.inr (.inr hx))

/-- A block covers no part of the shared context. -/
theorem HeapInv.disjoint_context (h : HeapInv s ls lm pool) {k : BlockKind} {pos n : Nat}
    (hb : Block s ls lm k pos n) : Disjoint (bytes pos n) (bytes 0 (2 ^ 20)) := by
  have hw : Within 0 (2 ^ 20) 0 0 0 := ⟨by omega, by simp [slotPos], by omega, by omega⟩
  by_cases hk : k = .large
  · subst hk
    exact LargeBlock.disjoint hb hw (.inl ((h.arenas.context 0).mpr rfl))
  · obtain ⟨i, j, x, hw', -, -, -, hc⟩ := h.within hk hb
    refine hw'.disjoint hw (.inl fun he => ?_)
    obtain ⟨rfl, rfl⟩ := he
    obtain ⟨i, j, -, hj, hne, -, he, -⟩ := h.chunk_place hc
    obtain ⟨rfl, rfl⟩ := slotPos_inj (by omega) hj he
    exact hne.elim (absurd rfl) (absurd rfl)

/-- A block is apart from a part of a small chunk, if the slots of the chunk are. -/
theorem HeapInv.disjoint_part (h : HeapInv s ls lm pool) {k : BlockKind} {pos n pos' n' c x : Nat}
    (hb : Block s ls lm k pos n) (hin : InChunk s ls pos' n' c x) (hn : 0 < n')
    (hs : ∀ p ∈ pages (s.small c).bitmap, ∀ o, 64 ≤ o → o + n ≤ 4096 → p * 4096 + o + n ≤ x ∨ x + n' ≤ p * 4096 + o) :
    Disjoint (bytes pos n) (bytes pos' n') := by
  obtain ⟨i, j, -, hj, -, -, hc, ht⟩ := h.small_place hin.chunk
  cases k with
  | small =>
    obtain ⟨c', p, o, hin', hp, -, -, ho, ho', h₈, -⟩ := h.smallBlock hb
    obtain ⟨i', j', -, hj', -, -, hc', -⟩ := h.small_place hin'.chunk
    refine disjoint_chunks hin' (by omega) hj' hc' hin hn hj hc ?_
    by_cases hcc : c' = c
    · exact .inr (hs p (hcc ▸ hp) o ho ho')
    · exact .inl hcc
  | medium =>
    obtain ⟨c', p, m, hin', -, -, -, hm, rfl⟩ := h.mediumBlock hb
    obtain ⟨i', j', -, hj', -, -, hc', -⟩ := h.medium_place hin'.chunk
    refine disjoint_chunks hin' (by omega) hj' hc' hin hn hj hc (.inl fun he => ?_)
    exact h.small_medium hin.chunk (he ▸ hin'.chunk)
  | large => exact LargeBlock.disjoint hb (hin.within hj hc hn) ht

/-- A block is on no page of a small chunk that is not in use. -/
theorem HeapInv.disjoint_page (h : HeapInv s ls lm pool) {k : BlockKind} {pos n c p : Nat}
    (hb : Block s ls lm k pos n) (hc : c ∈ ls) (hlt : p < 256) (hp₀ : p ≠ 0)
    (hp : p ∉ pages (s.small c).bitmap) : Disjoint (bytes pos n) (bytes (c + p * 4096) 4096) := by
  refine h.disjoint_part hb ⟨hc, rfl, by omega, by omega⟩ (by omega) fun p' hp' o ho ho' => ?_
  have hne : p' ≠ p := fun he => hp (he ▸ hp')
  omega

/-- A block covers no run header. -/
theorem HeapInv.disjoint_run (h : HeapInv s ls lm pool) {k : BlockKind} {pos n r : Nat}
    (hb : Block s ls lm k pos n) (hr : RunAt s ls r) : Disjoint (bytes pos n) (bytes r 64) := by
  obtain ⟨c, hc, p, hp, hp₀, rfl⟩ := hr
  have hlt := (mem_pages.mp hp).1
  refine h.disjoint_part hb ⟨hc, rfl, by omega, by omega⟩ (by omega) fun p' _ o ho ho' => ?_
  omega

/-! ### Where the allocator's objects are -/

/-- A block covers no page of a free unit. -/
theorem HeapInv.disjoint_unit (h : HeapInv s ls lm pool) {k : BlockKind} {pos n c p q : Nat} {l : List Nat}
    (hb : Block s ls lm k pos n) (hc : c ∈ lm) (m : MediumChunk s c l) (hp : p ∈ l) (h₁ : p ≤ q)
    (h₂ : q < p + unitSize (s.medium c) p) : Disjoint (bytes pos n) (bytes (c + q * 4096) 4096) := by
  have hseg := m.layout.parts.segment p hp
  obtain ⟨hp₁, -⟩ := m.layout.parts.range p hseg.start
  have hle := hseg.le
  have hin : InChunk s lm (c + q * 4096) 4096 c (q * 4096) := ⟨hc, rfl, by omega, by omega⟩
  obtain ⟨i, j, -, hj, -, -, hplace, ht⟩ := h.medium_place hc
  cases k with
  | small =>
    obtain ⟨c', p', o, hin', -, -, -, -, -, h₈, -⟩ := h.smallBlock hb
    obtain ⟨i', j', -, hj', -, -, hc', -⟩ := h.small_place hin'.chunk
    refine disjoint_chunks hin' (by omega) hj' hc' hin (by omega) hj hplace (.inl fun he => ?_)
    exact h.small_medium hin'.chunk (he ▸ hc)
  | medium =>
    obtain ⟨c', p', m', hin', hu, -, -, hm', rfl⟩ := h.mediumBlock hb
    obtain ⟨i', j', -, hj', -, -, hc', -⟩ := h.medium_place hin'.chunk
    refine disjoint_chunks hin' (by omega) hj' hc' hin (by omega) hj hplace ?_
    by_cases he : c' = c
    · -- a unit in use and a free one of a chunk
      subst he
      have hne : p' ≠ p := by
        rintro rfl
        have := ((m.layout.parts.mem p').mp hp).2
        rw [hu.1] at this
        cases this
      have := hu.2.disjoint hseg hne
      omega
    · exact .inl he
  | large => exact LargeBlock.disjoint hb (hin.within hj hplace (by omega)) ht

/-- A block covers no link of a free slot. -/
theorem HeapInv.disjoint_link (h : HeapInv s ls lm pool) {k : BlockKind} {pos n r o : Nat} {f : List Nat}
    (hb : Block s ls lm k pos n) (hr : RunAt s ls r) (hf : Run s r f) (ho : o ∈ f) :
    Disjoint (bytes pos n) (bytes (r + o) 4) := by
  obtain ⟨c, hc, p, hp, hp₀, rfl⟩ := hr
  have hlt := (mem_pages.mp hp).1
  obtain ⟨hb₁, hb₂⟩ := hf.bounds
  have hslot := slot_bounds (hf.slot o ho)
  have hin : InChunk s ls (c + p * 4096 + o) 4 c (p * 4096 + o) :=
    ⟨hc, by omega, by omega, by omega⟩
  obtain ⟨i, j, -, hj, -, -, hplace, ht⟩ := h.small_place hc
  cases k with
  | small =>
    obtain ⟨c', p', o', hin', hp', -, hu, h₁, h₂, h₈, he⟩ := h.smallBlock hb
    obtain ⟨i', j', -, hj', -, -, hc', -⟩ := h.small_place hin'.chunk
    refine disjoint_chunks hin' (by omega) hj' hc' hin (by omega) hj hplace ?_
    by_cases hcc : c' = c
    · subst hcc
      by_cases hpp : p' = p
      · -- a slot in use and a free one of a run
        subst hpp
        obtain ⟨hs, hof⟩ := (hf.usedSlot_iff o').mp hu
        have hne : o' ≠ o := by
          rintro rfl
          exact hof ho
        have := slot_disjoint hs (hf.slot o ho) hne
        omega
      · omega
    · exact .inl hcc
  | medium =>
    obtain ⟨c', p', m, hin', -, -, -, hm, rfl⟩ := h.mediumBlock hb
    obtain ⟨i', j', -, hj', -, -, hc', -⟩ := h.medium_place hin'.chunk
    refine disjoint_chunks hin' (by omega) hj' hc' hin (by omega) hj hplace (.inl fun he => ?_)
    exact h.small_medium hc (he ▸ hin'.chunk)
  | large => exact LargeBlock.disjoint hb (hin.within hj hplace (by omega)) ht

theorem HeapInv.disjoint_headers (h : HeapInv s ls lm pool) {k : BlockKind} {pos n : Nat} {l : List Nat}
    (hb : Block s ls lm k pos n) (hl : ∀ c ∈ l, IsChunk s c) : Disjoint (bytes pos n) (headerBytes l) := by
  refine Set.disjoint_left.mpr fun y hy hy' => ?_
  rcases hy' with hy' | ⟨c, hc, hy'⟩
  · exact Set.disjoint_left.mp (h.disjoint_context hb) hy hy'
  · exact Set.disjoint_left.mp (h.disjoint_header hb (hl c hc)) hy hy'

/-- A block covers none of what the calls on small chunks write. -/
theorem HeapInv.disjoint_smallBytes (h : HeapInv s ls lm pool) {k : BlockKind} {pos n : Nat}
    (hb : Block s ls lm k pos n) : Disjoint (bytes pos n) (smallBytes s ls) := by
  refine Set.disjoint_left.mpr fun y hy hy' => ?_
  rcases hy' with hy' | ⟨r, hr, hy'⟩
  · exact Set.disjoint_left.mp (h.disjoint_headers hb fun c hc => (h.registered c).mpr (.inl hc)) hy hy'
  · exact Set.disjoint_left.mp (h.disjoint_run hb hr) hy hy'

theorem pageBytes_eq {c q : Nat} (hc : IsPlace c) (hq : q < 256) : pageBytes c q = bytes (c + q * 4096) 4096 := by
  obtain ⟨i, k, -, hk, rfl⟩ := hc
  ext y
  show _ ∧ _ ∧ _ ↔ _ ∧ _ ∧ _
  simp only [pos2index_eq, pos2offset]
  omega

/-- A block covers none of what a call on a medium chunk writes, if it is in no page of these nodes. -/
theorem HeapInv.disjoint_mediumBytes (h : HeapInv s ls lm pool) {k : BlockKind} {pos n c : Nat} {node : Nat → Prop}
    (hb : Block s ls lm k pos n) (hc : c ∈ lm)
    (hn : ∀ q, node q → q < 256 → Disjoint (bytes pos n) (bytes (c + q * 4096) 4096)) :
    Disjoint (bytes pos n) (mediumBytes lm c node) := by
  refine Set.disjoint_left.mpr fun y hy hy' => ?_
  rcases hy' with hy' | ⟨q, hq, hnode, hy'⟩
  · exact Set.disjoint_left.mp (h.disjoint_headers hb fun c hc => (h.registered c).mpr (.inr hc)) hy hy'
  · obtain ⟨i, j, hi, hj, -, -, hplace, -⟩ := h.medium_place hc
    rw [pageBytes_eq ⟨i, j, hi, hj, hplace⟩ hq] at hy'
    exact Set.disjoint_left.mp (hn q hnode hq) hy hy'

/-- A block is in an arena in use. -/
theorem HeapInv.in_use (h : HeapInv s ls lm pool) {k : BlockKind} {pos n : Nat} (hb : Block s ls lm k pos n) :
    ∀ y ∈ bytes pos n, (s.arenas y.1).type ≠ .empty := by
  intro y hy he
  by_cases hk : k = .large
  · subst hk
    rw [(LargeBlock.bytes hb y hy).1] at he
    cases he
  · obtain ⟨i, j, x, hw, -, -, ht, -⟩ := h.within hk hb
    rw [(hw.bytes y hy).1] at he
    exact (forChunks_ne ht).1 he

/-- A block is in no slot that no chunk is in. -/
theorem HeapInv.disjoint_slot (h : HeapInv s ls lm pool) {k : BlockKind} {pos n i j : Nat}
    (hb : Block s ls lm k pos n) (hj : j < 8) (hi : (s.arenas i).type ≠ .large) (hc : ¬IsChunk s (slotPos i j)) :
    Disjoint (bytes pos n) (bytes (slotPos i j) (2 ^ 20)) := by
  have hw : Within (slotPos i j) (2 ^ 20) i j 0 := ⟨hj, (Nat.add_zero _).symm, by omega, by omega⟩
  by_cases hk : k = .large
  · subst hk
    refine Set.disjoint_left.mpr fun y hy hy' => hi ?_
    rw [← (hw.bytes y hy').1]
    exact (LargeBlock.bytes hb y hy).1
  · obtain ⟨i', j', x, hw', -, -, -, hc'⟩ := h.within hk hb
    refine hw'.disjoint hw (.inl fun he => hc ?_)
    rwa [← he.1, ← he.2]

end

end ShmMalloc
