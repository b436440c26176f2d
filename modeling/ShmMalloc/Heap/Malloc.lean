import ShmMalloc.Chunk.MediumLive
import ShmMalloc.Heap.Chunks

/-! `malloc_arena`: one block comes, and the others stay.

An allocation returns 0 only where no chunk or arena could be had, and then the heap is
as before. -/
namespace ShmMalloc

/-- No medium chunk is entirely free. -/
structure HeapOk (s : Shm) (ls lm : List Nat) (pool : Nat → List Nat) : Prop extends HeapInv s ls lm pool where
  used : ∀ c ∈ lm, (s.medium c).freeSize ≠ 255

/-- There is one more block. -/
structure Allocated (s s' : Shm) (ls lm ls' lm' : List Nat) (kind : BlockKind) (pos n : Nat) : Prop where
  blocks : ∀ k q m, Block s' ls' lm' k q m ↔ Block s ls lm k q m ∨ k = kind ∧ q = pos ∧ m = n
  new : ∀ m, ¬Block s ls lm kind pos m
  bytes : ∀ k q m, Block s ls lm k q m → SameBytes s s' q m
  /-- Of the runs, one that has slots of the size of the block may have become full. -/
  unlinked : ∀ r, (kind = .small → (s.run r).elemsize ≠ n) → StaysUnlinked s s' ls ls' r

section
variable {s s' s'' : Shm} {ls lm ls' lm' ls'' lm'' : List Nat} {pool : Nat → List Nat}

theorem HeapOk.same (h : HeapOk s ls lm pool) (e : SameHeap s s') : HeapOk s' ls lm pool :=
  ⟨h.toHeapInv.same e, fun c hc => by rw [e.objects.medium c trivial]; exact h.used c hc⟩

theorem SameBlocks.allocated {kind : BlockKind} {pos n : Nat} (h : SameBlocks s s' ls lm ls' lm')
    (h' : Allocated s' s'' ls' lm' ls'' lm'' kind pos n) : Allocated s s'' ls lm ls'' lm'' kind pos n where
  blocks k q m := (h'.blocks k q m).trans (or_congr_left (h.blocks k q m))
  new m hb := h'.new m ((h.blocks kind pos m).mpr hb)
  bytes k q m hb := (h.bytes k q m hb).trans (h'.bytes k q m ((h.blocks k q m).mpr hb))
  unlinked r hn hr hu := by
    obtain ⟨hr₁, he₁, hu₁⟩ := h.unlinked r hr hu
    obtain ⟨hr₂, he₂, hu₂⟩ := h'.unlinked r (fun hk => by rw [he₁]; exact hn hk) hr₁ hu₁
    exact ⟨hr₂, he₂.trans he₁, hu₂⟩

theorem Allocated.same {kind : BlockKind} {pos n : Nat} (h : Allocated s s' ls lm ls' lm' kind pos n)
    (h' : SameBlocks s' s'' ls' lm' ls'' lm'') : Allocated s s'' ls lm ls'' lm'' kind pos n where
  blocks k q m := (h'.blocks k q m).trans (h.blocks k q m)
  new := h.new
  bytes k q m hb := (h.bytes k q m hb).trans (h'.bytes k q m ((h.blocks k q m).mpr (.inl hb)))
  unlinked r hn hr hu := by
    obtain ⟨hr₁, he₁, hu₁⟩ := h.unlinked r hn hr hu
    obtain ⟨hr₂, he₂, hu₂⟩ := h'.unlinked r hr₁ hu₁
    exact ⟨hr₂, he₂.trans he₁, hu₂⟩

/-! ### Small blocks -/

theorem findRunConfig_spec {size : Nat} (h₁ : 0 < size) (h₂ : size ≤ 1920) :
    ∃ k, findRunConfig size = .ok k ∧ IsClass k ∧ size ≤ runConfig k := by
  have hreq : (decide (size > 0) && decide (size ≤ 1920)) = true := by
    rw [Bool.and_eq_true]
    exact ⟨decide_eq_true h₁, decide_eq_true h₂⟩
  have h8 : ∀ j < 12, IsClass (runTable8.getD j 0) ∧ (j + 1) * 8 ≤ runConfig (runTable8.getD j 0) := by
    unfold IsClass
    decide
  have h32 : ∀ j < 16, 3 ≤ j → IsClass (runTable32.getD j 0) ∧ (j + 1) * 32 ≤ runConfig (runTable32.getD j 0) := by
    unfold IsClass
    decide
  have h128 : ∀ j < 15, 4 ≤ j → IsClass (runTable128.getD j 0) ∧ (j + 1) * 128 ≤ runConfig (runTable128.getD j 0) := by
    unfold IsClass
    decide
  unfold findRunConfig
  rw [hreq, require_true, Exec.ok_bind]
  by_cases h96 : size ≤ 96
  · rw [if_pos h96]
    obtain ⟨hk, hle⟩ := h8 ((size - 1) / 8) (by omega)
    exact ⟨_, rfl, hk, by omega⟩
  · rw [if_neg h96]
    by_cases h512 : size ≤ 512
    · rw [if_pos h512]
      obtain ⟨hk, hle⟩ := h32 ((size - 1) / 32) (by omega) (by omega)
      exact ⟨_, rfl, hk, by omega⟩
    · rw [if_neg h512]
      obtain ⟨hk, hle⟩ := h128 ((size - 1) / 128) (by omega) (by omega)
      exact ⟨_, rfl, hk, by omega⟩

/-- Runs and their pools do not concern the medium chunks and the arenas. -/
theorem HeapOk.runs {pool' : Nat → List Nat} (h : HeapOk s ls lm pool) (e : RunsOnly s s')
    (hi : SmallInv s' ls pool') : HeapOk s' ls lm pool' := by
  refine ⟨⟨⟨hi, h.mediums.of_nodes (fun _ _ => by rw [e.chunkNode]) e.smallPool e.mediumPool, fun c hc => ?_⟩,
    h.toArenasHold.congr e.arenas⟩, fun c hc => by rw [e.medium]; exact h.used c hc⟩
  obtain ⟨l, m⟩ := h.medium c hc
  exact ⟨l, by rw [e.header]; exact m.header, by rw [e.medium]; exact m.layout,
    by rw [e.chunkNode, e.medium]; exact m.key, by rw [e.medium]; exact m.maxSize⟩

theorem SmallInv.full_not_mem (h : SmallInv s ls pool) {k r : Nat} (hk : IsClass k)
    (hfull : (s.run r).used = (s.run r).total) : r ∉ pool k := fun hm =>
  Nat.ne_of_lt ((h.mem k hk r).mp hm).2.2 hfull

/-- A slot of the run at the root of a pool. -/
theorem HeapOk.malloc_run (h : HeapOk s ls lm pool) {k r : Nat} (hk : IsClass k)
    (hroot : (s.runPool k).root = r) (hne : r ≠ 0) :
    ∃ s' pos pool', mallocChunkRun s r = .ok (s', pos) ∧ pos ≠ 0 ∧ HeapOk s' ls lm pool' ∧
      Allocated s s' ls lm ls lm .small pos (runConfig k) := by
  obtain ⟨s', o, l, hrun, hi, e, hat, hconf, ht, hout, hdata⟩ := mallocChunkRun_step h.small hk hroot hne
  obtain ⟨f, hf⟩ := h.small.run r hat
  have helem : (s.run r).elemsize = runConfig k := by rw [hf.elemsize, hconf]
  have hat' : ∀ q, RunAt s' ls q ↔ RunAt s ls q := fun q => RunAt.congr fun _ _ => by rw [e.small]
  have hsmall : ∀ q m, SmallBlock s' ls q m ↔ SmallBlock s ls q m ∨ q = r + o ∧ m = runConfig k := by
    intro q m
    constructor
    · rintro ⟨r', o', hr', hu, rfl, rfl⟩
      rcases (ht.used r' o').mp hu with hu | ⟨rfl, rfl⟩
      · exact .inl ⟨r', o', (hat' r').mp hr', hu, rfl, ht.elemsize r'⟩
      · exact .inr ⟨rfl, by rw [ht.elemsize, helem]⟩
    · rintro (⟨r', o', hr', hu, rfl, rfl⟩ | ⟨rfl, rfl⟩)
      · exact ⟨r', o', (hat' r').mpr hr', (ht.used r' o').mpr (.inl hu), rfl, (ht.elemsize r').symm⟩
      · exact ⟨r, o, (hat' r).mpr hat, (ht.used r o).mpr (.inr ⟨rfl, rfl⟩), rfl, by rw [ht.elemsize, helem]⟩
  refine ⟨s', r + o, _, hrun, by omega, h.runs e hi, fun j q m => ?_, fun m hb => ?_,
    fun j q m hb => .of_data hdata (h.disjoint_smallBytes hb), fun q hn hq hu => ?_⟩
  · cases j with
    | small =>
      refine (hsmall q m).trans (or_congr_right ?_)
      rw [eq_self_iff_true, true_and]
    | medium =>
      refine (MediumBlock.congr (fun c p k => by rw [e.medium]) q m).trans (or_iff_left ?_).symm
      rintro ⟨he, -⟩
      cases he
    | large =>
      refine (LargeBlock.congr e.arenas).trans (or_iff_left ?_).symm
      rintro ⟨he, -⟩
      cases he
  · -- the slot was free
    obtain ⟨r', o', hr', hu, he, -⟩ := hb
    have ho := slot_bounds ht.slot
    have := hf.bounds
    obtain ⟨rfl, rfl⟩ := h.small.slot_eq hat hr' (by omega) (h.small.usedSlot_lt hr' hu) he
    exact ht.free hu
  · -- a run of another class is in another pool, if in one
    have hqk : q ∉ pool k := fun hm => by
      obtain ⟨g, hg⟩ := h.small.run q hq
      exact hn rfl (by rw [hg.elemsize, ((h.small.mem k hk q).mp hm).2.1])
    obtain ⟨hqrun, hqnode⟩ := hout q hqk
    exact (StaysUnlinked.of_full (hat' q).mpr hqrun fun _ _ => hqnode) hq hu

/-- A new run has no block. -/
theorem HeapOk.new_run (h : HeapOk s ls lm pool) {c k : Nat} (hc : c ∈ ls) (hk : IsClass k)
    (hroom : (s.small c).used < 256) :
    ∃ s' r ls', newChunkRun s c k = .ok (s', r) ∧ r ≠ 0 ∧ HeapOk s' ls' lm (Function.update pool k (r :: pool k)) ∧
      SameBlocks s s' ls lm ls' lm := by
  obtain ⟨s', p, ls', hrun, hi, hperm, ht, hnode, hdata⟩ := newChunkRun_step h.small hc hk hroom
  have hcm : c ∉ lm := fun hm => h.small_medium hc hm
  obtain ⟨hm, hmc⟩ := h.toChunksOk.mediums_frame ht.frame hcm
  have hmed : ∀ q ∈ lm, s'.medium q = s.medium q := fun q hq => ht.frame.medium q fun he => hcm (he ▸ hq)
  have hplace := (h.small.chunk c hc).place
  have hnew : ¬RunAt s ls (c + p * 4096) := by
    rintro ⟨c', hc', p', hp', -, he⟩
    obtain ⟨rfl, rfl⟩ := hplace.page_eq (h.small.chunk c' hc').place ht.lt (mem_pages.mp hp').1 he
    exact ht.free hp'
  have hat : ∀ r, RunAt s' ls' r ↔ RunAt s ls r ∨ r = c + p * 4096 := fun r =>
    (RunAt.perm hperm).trans (runAt_set hc ht.lt ht.ne ht.bitmap ht.frame.small r)
  have hold : ∀ r, RunAt s ls r → r ≠ c + p * 4096 := fun r hr he => hnew (he ▸ hr)
  have hused : ∀ r, RunAt s ls r → ∀ o, UsedSlot s' r o ↔ UsedSlot s r o := fun r hr o =>
    UsedSlot.congr (ht.other r (hold r hr)).1 (fun _ => by rw [(ht.other r (hold r hr)).2]) o
  refine ⟨s', c + p * 4096, ls', hrun, ?_, ⟨⟨⟨hi, hm, hmc⟩, ?_⟩, fun q hq => by rw [hmed q hq]; exact h.used q hq⟩,
    ?_, ?_, fun r hr hu => ?_⟩
  · obtain ⟨i, j, -, -, -, -, rfl, -⟩ := h.small_place hc
    have := ht.ne
    omega
  · refine ⟨ht.frame.arenas ▸ h.arenas, fun i => by rw [ht.frame.arenas]; exact h.arena i, fun q => ?_⟩
    rw [IsChunk.congr ht.frame.arenas, h.registered, hperm.mem_iff]
  · intro j q m
    cases j with
    | small =>
      constructor
      · rintro ⟨r, o, hr, hu, hp, hn⟩
        rcases (hat r).mp hr with hr | rfl
        · exact ⟨r, o, hr, (hused r hr o).mp hu, hp, by rw [hn, (ht.other r (hold r hr)).1]⟩
        · exact absurd ((ht.run.usedSlot_iff o).mp hu) fun hu => by
            rw [ht.run.elemsize, ht.conf] at hu
            exact hu.2 hu.1
      · rintro ⟨r, o, hr, hu, hp, hn⟩
        exact ⟨r, o, (hat r).mpr (.inl hr), (hused r hr o).mpr hu, hp, by rw [hn, (ht.other r (hold r hr)).1]⟩
    | medium => exact MediumBlock.congr (fun q p j => and_congr_right fun hq => by rw [hmed q hq]) q m
    | large => exact LargeBlock.congr ht.frame.arenas
  · intro j q m hb y hy
    have hd := h.disjoint_page hb hc ht.lt ht.ne ht.free
    exact hdata y fun hy' => hy'.elim (Set.disjoint_left.mp (h.disjoint_smallBytes hb) hy)
      (Set.disjoint_left.mp hd hy)
  · refine StaysUnlinked.of_full (fun hr => (hat r).mpr (.inl hr)) (ht.other r (hold r hr)).1 (fun hr hfull => ?_) hr hu
    exact hnode r fun hm => (List.mem_cons.mp hm).elim (hold r hr) (h.small.full_not_mem hk hfull)

/-- A new run of a class without room is the root of its pool. -/
theorem HeapOk.new_root (h : HeapOk s ls lm pool) {c k : Nat} (hc : c ∈ ls) (hk : IsClass k)
    (hroom : (s.small c).used < 256) (hroot : (s.runPool k).root = 0) :
    ∃ s' r ls' pool', newChunkRun s c k = .ok (s', r) ∧ r ≠ 0 ∧ (s'.runPool k).root = r ∧ HeapOk s' ls' lm pool' ∧
      SameBlocks s s' ls lm ls' lm := by
  obtain ⟨s₁, r, ls', hnew, hr, h₁, hsame⟩ := h.new_run hc hk hroom
  have hpool := h₁.small.pools k hk
  rw [Function.update_self, (h.small.pools k hk).root_eq_zero.mp hroot] at hpool
  have hne : (s₁.runPool k).root ≠ 0 := fun he => absurd (hpool.root_eq_zero.mp he) (List.cons_ne_nil r [])
  exact ⟨s₁, r, ls', _, hnew, hr, List.mem_singleton.mp (hpool.root_mem hne), h₁, hsame⟩

/-- A slot of a new run, where the pool has none. -/
theorem HeapOk.malloc_new_run (h : HeapOk s ls lm pool) {c k : Nat} (hc : c ∈ ls) (hk : IsClass k)
    (hroom : (s.small c).used < 256) (hroot : (s.runPool k).root = 0) :
    ∃ s' pos ls' pool', (newChunkRun s c k >>= fun r => mallocChunkRun r.1 r.2) = .ok (s', pos) ∧ pos ≠ 0 ∧
      HeapOk s' ls' lm pool' ∧ Allocated s s' ls lm ls' lm .small pos (runConfig k) := by
  obtain ⟨s₁, r, ls', pool₁, hnew, hr, hr₁, h₁, hsame⟩ := h.new_root hc hk hroom hroot
  obtain ⟨s', pos, pool', hrun, hpos, h', ha⟩ := h₁.malloc_run hk hr₁ hr
  refine ⟨s', pos, ls', pool', ?_, hpos, h', hsame.allocated ha⟩
  rw [hnew]
  exact hrun

theorem startChunk_eq (s : Shm) (pos : Nat) (type : ChunkType) : startChunk s pos type =
    getOrUpdateAddr s pos >>= fun s => initChunk s pos pos type >>= fun s => .ok (s, some pos) := rfl

/-- A new small chunk. -/
theorem HeapOk.new_small (h : HeapOk s ls lm pool) {os : Os} {r : Option Nat}
    (hrun : newChunk s .small os = .ok (s', r)) : r = none ∧ SameHeap s s' ∨
      ∃ c ls', r = some c ∧ HeapOk s' ls' lm pool ∧ SameBlocks s s' ls lm ls' lm ∧ c ∈ ls' ∧
        (s'.small c).used = 1 ∧ s'.runPool = s.runPool := by
  obtain ⟨s₁, hnone, hs⟩ | ⟨s₁, c, hstart, he, -⟩ := h.newChunk_cases .small os
  · rw [hnone] at hrun
    obtain ⟨rfl, rfl⟩ := Prod.mk.inj (Except.ok.inj hrun)
    exact .inl ⟨rfl, hs⟩
  · rw [hstart, startChunk_eq] at hrun
    obtain ⟨s₂, hlook, hrun⟩ := Exec.bind_ok hrun
    have he₂ := he.look (getOrUpdateAddr_same hlook)
    obtain ⟨s₃, ls', hinit, hi, hperm, hsame, hused, hmed, hpool⟩ := he₂.init_small h.toHeapInv
    rw [hinit] at hrun
    obtain ⟨rfl, rfl⟩ := Prod.mk.inj (Except.ok.inj hrun)
    refine .inr ⟨c, ls', rfl, ⟨hi, fun q hq => by rw [hmed q hq]; exact h.used q hq⟩, hsame,
      hperm.mem_iff.mpr List.mem_cons_self, hused, hpool⟩

/-- The chunk is one more in the pool of its type, and the blocks are as they were. -/
def Pooled (s s' : Shm) (type : ChunkType) (c : Nat) : Prop :=
  ∃ ls lm pool ls' lm', HeapInv s ls lm pool ∧ HeapInv s' ls' lm' pool ∧ SameBlocks s s' ls lm ls' lm' ∧
    (type = .small ∧ ls'.Perm (c :: ls) ∧ lm' = lm ∨ type = .medium ∧ ls' = ls ∧ lm'.Perm (c :: lm))

/-- `new_chunk` completes. -/
theorem HeapOk.new_total (h : HeapOk s ls lm pool) (hT : TableOk s) {type : ChunkType} (ht : type ≠ .empty) {os : Os}
    (hos : ∀ m, os.shmid = some m → m ≠ 0) :
    ∃ s' r, newChunk s type os = .ok (s', r) ∧ ∀ c, r = some c → Pooled s s' type c := by
  obtain ⟨s₁, hnone, -⟩ | ⟨s₁, c, hstart, he, hT₁⟩ := h.newChunk_cases type os
  · exact ⟨s₁, none, hnone, fun c hc => by cases hc⟩
  · obtain ⟨-, hne, hemp⟩ := he.place
    obtain ⟨s₂, hlook, hsame, -⟩ := (hT₁ hos hT).getOrUpdateAddr_total hne hemp
    rw [hstart, startChunk_eq, hlook, Exec.ok_bind]
    have he₂ := he.look hsame
    cases type with
    | empty => exact absurd rfl ht
    | small =>
      obtain ⟨s₃, ls', hinit, hi, hperm, hblocks, -⟩ := he₂.init_small h.toHeapInv
      refine ⟨s₃, some c, by rw [hinit]; rfl, fun _ hc => ?_⟩
      obtain rfl := Option.some.inj hc
      exact ⟨ls, lm, pool, ls', lm, h.toHeapInv, hi, hblocks, .inl ⟨rfl, hperm, rfl⟩⟩
    | medium =>
      obtain ⟨s₃, lm', hinit, hi, hperm, hblocks, -⟩ := he₂.init_medium h.toHeapInv
      refine ⟨s₃, some c, by rw [hinit]; rfl, fun _ hc => ?_⟩
      obtain rfl := Option.some.inj hc
      exact ⟨ls, lm, pool, ls, lm', h.toHeapInv, hi, hblocks, .inr ⟨rfl, rfl, hperm⟩⟩

theorem getOrNewChunk_eq (s : Shm) (type : ChunkType) (size : Nat) (os : Os) : getOrNewChunk s type size os =
    getAvaliableChunk s type size >>= fun o =>
      match o with
      | some chunk => .ok (s, some chunk)
      | none => newChunk s type os := rfl

/-- A small chunk with room for a run. -/
theorem HeapOk.get_small (h : HeapOk s ls lm pool) {size : Nat} {os : Os} {r : Option Nat}
    (hrun : getOrNewChunk s .small size os = .ok (s', r)) : r = none ∧ SameHeap s s' ∨
      ∃ c ls', r = some c ∧ HeapOk s' ls' lm pool ∧ SameBlocks s s' ls lm ls' lm ∧ c ∈ ls' ∧
        (s'.small c).used < 256 ∧ s'.runPool = s.runPool := by
  obtain ⟨o, hget, hsome, -⟩ := getAvaliableChunk_spec h.small.chunks size (show 1 < 2 ^ 31 by decide)
  rw [getOrNewChunk_eq, hget, Exec.ok_bind] at hrun
  cases o with
  | some c =>
    obtain ⟨rfl, rfl⟩ := Prod.mk.inj (Except.ok.inj hrun)
    obtain ⟨hc, hroom⟩ := hsome c rfl
    have hcs := h.small.chunk c hc
    have hle := card_pages_le (s.small c).bitmap
    rw [← hcs.used] at hle
    have hne : (s.small c).used ≠ 256 := fun he => by
      rw [hcs.key, if_pos he] at hroom
      cases hroom
    exact .inr ⟨c, ls, rfl, h, .refl s ls lm, hc, by omega, rfl⟩
  | none =>
    obtain hn | ⟨c, ls', hr, h', hsame, hc, hused, hpool⟩ := h.new_small hrun
    · exact .inl hn
    · exact .inr ⟨c, ls', hr, h', hsame, hc, by omega, hpool⟩

theorem HeapOk.get_total (h : HeapOk s ls lm pool) (hT : TableOk s) {type : ChunkType} (ht : type ≠ .empty)
    {size : Nat} (hsize : size < 2 ^ 31) {os : Os} (hos : ∀ m, os.shmid = some m → m ≠ 0) :
    ∃ s' r, getOrNewChunk s type size os = .ok (s', r) := by
  have hroom : poolRoom type size < 2 ^ 31 := by
    unfold poolRoom
    split
    · decide
    · omega
  have hget : ∃ o, getAvaliableChunk s type size = .ok o := by
    cases type with
    | empty => exact absurd rfl ht
    | small =>
      obtain ⟨o, hget, -⟩ := getAvaliableChunk_spec h.small.chunks size hroom
      exact ⟨o, hget⟩
    | medium =>
      obtain ⟨o, hget, -⟩ := getAvaliableChunk_spec h.mediums size hroom
      exact ⟨o, hget⟩
  obtain ⟨o, hget⟩ := hget
  rw [getOrNewChunk_eq, hget, Exec.ok_bind]
  cases o with
  | some c => exact ⟨s, some c, rfl⟩
  | none =>
    obtain ⟨s', r, hnew, -⟩ := h.new_total hT ht hos
    exact ⟨s', r, hnew⟩

/-- What an allocation leaves; the size of a large arena is rounded up in 64 bits. -/
def Grown (s s' : Shm) (ls lm : List Nat) (kind : BlockKind) (pos size : Nat) : Prop :=
  pos = 0 ∧ SameHeap s s' ∨ pos ≠ 0 ∧ ∃ ls' lm' pool' n, HeapOk s' ls' lm' pool' ∧
    Allocated s s' ls lm ls' lm' kind pos n ∧ (size ≤ n ↔ size ≤ 2 ^ 64 - 2 ^ 20) ∧ (kind ≠ .small → ls' = ls)

/-- `try_run_pool` finds the root of a pool. -/
theorem tryRunPool_step {k : Nat} {r : Option Nat} (hrun : tryRunPool s k = .ok (s', r)) :
    SameHeap s s' ∧ if (s.runPool k).root = 0 then r = none else r = some (s.runPool k).root := by
  unfold tryRunPool at hrun
  dsimp only at hrun
  split at hrun
  · next hroot =>
    obtain ⟨rfl, rfl⟩ := Prod.mk.inj (Except.ok.inj hrun)
    exact ⟨.refl s, by rw [if_pos hroot]⟩
  · next hroot =>
    obtain ⟨⟨s₁, a⟩, hlook, hrun⟩ := Exec.bind_ok hrun
    obtain ⟨-, -, hrun⟩ := Exec.bind_ok hrun
    obtain ⟨rfl, rfl⟩ := Prod.mk.inj (Except.ok.inj hrun)
    exact ⟨getOrUpdateArenaAddr_same hlook, by rw [if_neg hroot]⟩

theorem HeapOk.tryRunPool_total (h : HeapOk s ls lm pool) (hT : TableOk s) {k : Nat} (hk : IsClass k) :
    ∃ s' r, tryRunPool s k = .ok (s', r) ∧ TableOk s' := by
  unfold tryRunPool
  by_cases hroot : (s.runPool k).root = 0
  · rw [if_pos hroot]
    exact ⟨s, none, rfl, hT⟩
  · obtain ⟨hr, -⟩ := (h.small.mem k hk _).mp ((h.small.pools k hk).root_mem hroot)
    obtain ⟨c, hc, he⟩ := h.small.index_run hr
    obtain ⟨i, j, -, hj, -, -, rfl, ht⟩ := h.small_place hc
    rw [← Nat.add_zero (slotPos i j), pos2index_slot hj (by omega)] at he
    obtain ⟨s', a, hlook, ha⟩ := hT.lookup_total (pos2index (s.runPool k).root)
    have hsome : a.isSome = true := ha.mpr fun hemp => by
      rw [he] at hemp
      exact (forChunks_ne ht).1 hemp
    refine ⟨s', some (s.runPool k).root, ?_, hT.look hlook⟩
    rw [if_neg hroot, hlook, Exec.ok_bind]
    show (require a.isSome >>= fun _ => _) = _
    rw [hsome]
    rfl

theorem mallocArena_small_eq {size : Nat} (h : size ≤ 1920) (s : Shm) (os : Os) : mallocArena s size os =
    findRunConfig size >>= fun k => tryRunPool s k >>= fun r =>
      match r.2 with
      | some run => mallocChunkRun r.1 run
      | none => getOrNewChunk r.1 .small size os >>= fun r =>
        match r.2 with
        | none => .ok (r.1, 0)
        | some chunk => newChunkRun r.1 chunk k >>= fun r => mallocChunkRun r.1 r.2 := by
  unfold mallocArena
  rw [if_pos h]
  congr 1
  funext k
  congr 1
  funext r
  obtain ⟨s₁, run⟩ := r
  cases run with
  | some run => rfl
  | none =>
    show getOrNewChunk s₁ .small size os >>= _ = _
    congr 1
    funext r
    obtain ⟨s₂, chunk⟩ := r
    cases chunk with
    | none => rfl
    | some chunk => rfl

theorem HeapOk.malloc_small (h : HeapOk s ls lm pool) {size pos : Nat} (h₁ : 0 < size) (h₂ : size ≤ 1920) {os : Os}
    (hrun : mallocArena s size os = .ok (s', pos)) : Grown s s' ls lm .small pos size := by
  obtain ⟨k, hfind, hk, hle⟩ := findRunConfig_spec h₁ h₂
  rw [mallocArena_small_eq h₂, hfind, Exec.ok_bind] at hrun
  obtain ⟨⟨s₁, r⟩, htry, hrun⟩ := Exec.bind_ok hrun
  obtain ⟨e, hr⟩ := tryRunPool_step htry
  have h' := h.same e
  have hsame := e.blocks h.toChunksOk
  by_cases hroot : (s.runPool k).root = 0
  · rw [if_pos hroot] at hr
    subst hr
    obtain ⟨⟨s₂, o⟩, hget, hrun⟩ := Exec.bind_ok hrun
    obtain ⟨rfl, e₂⟩ | ⟨c, ls', rfl, h₂, hsame₂, hc, hroom, hpool⟩ := h'.get_small hget
    · obtain ⟨rfl, rfl⟩ := Prod.mk.inj (Except.ok.inj hrun)
      exact .inl ⟨rfl, e.trans e₂⟩
    · have hroot₂ : (s₂.runPool k).root = 0 := by rw [hpool, e.objects.runPool, hroot]
      obtain ⟨s₃, pos', ls'', pool', hmal, hpos, h₃, ha⟩ := h₂.malloc_new_run hc hk hroom hroot₂
      obtain ⟨rfl, rfl⟩ := Prod.mk.inj (Except.ok.inj (hmal.symm.trans hrun))
      exact .inr ⟨hpos, ls'', lm, pool', _, h₃, (hsame.trans hsame₂).allocated ha, iff_of_true hle (by omega),
        absurd rfl⟩
  · rw [if_neg hroot] at hr
    subst hr
    obtain ⟨s₂, pos', pool', hmal, hpos, h₂, ha⟩ := h'.malloc_run hk (by rw [e.objects.runPool]) hroot
    obtain ⟨rfl, rfl⟩ := Prod.mk.inj (Except.ok.inj (hmal.symm.trans hrun))
    exact .inr ⟨hpos, ls, lm, pool', _, h₂, hsame.allocated ha, iff_of_true hle (by omega), absurd rfl⟩

/-- A small allocation completes. -/
theorem HeapOk.malloc_small_total (h : HeapOk s ls lm pool) (hT : TableOk s) {size : Nat} (h₁ : 0 < size)
    (h₂ : size ≤ 1920) {os : Os} (hos : ∀ m, os.shmid = some m → m ≠ 0) :
    ∃ s' pos, mallocArena s size os = .ok (s', pos) := by
  obtain ⟨k, hfind, hk, -⟩ := findRunConfig_spec h₁ h₂
  obtain ⟨s₁, r, htry, hT₁⟩ := h.tryRunPool_total hT hk
  obtain ⟨e, hr⟩ := tryRunPool_step htry
  have h' := h.same e
  rw [mallocArena_small_eq h₂, hfind, Exec.ok_bind, htry, Exec.ok_bind]
  by_cases hroot : (s.runPool k).root = 0
  · rw [if_pos hroot] at hr
    subst hr
    obtain ⟨s₂, o, hget⟩ := h'.get_total hT₁ (show ChunkType.small ≠ .empty by decide) (by omega : size < 2 ^ 31) hos
    show ∃ s' pos, (getOrNewChunk s₁ .small size os >>= _) = .ok (s', pos)
    rw [hget, Exec.ok_bind]
    obtain ⟨rfl, -⟩ | ⟨c, ls', rfl, h₂, -, hc, hroom, hpool⟩ := h'.get_small hget
    · exact ⟨s₂, 0, rfl⟩
    · have hroot₂ : (s₂.runPool k).root = 0 := by rw [hpool, e.objects.runPool, hroot]
      obtain ⟨s₃, pos', ls'', pool', hmal, -⟩ := h₂.malloc_new_run hc hk hroom hroot₂
      exact ⟨s₃, pos', hmal⟩
  · rw [if_neg hroot] at hr
    subst hr
    obtain ⟨s₂, pos', pool', hmal, -⟩ := h'.malloc_run hk (by rw [e.objects.runPool]) hroot
    exact ⟨s₂, pos', hmal⟩

/-! ### Medium blocks -/

theorem mediumPages_le {size : Nat} (h₁ : 0 < size) (h₂ : size ≤ 2 ^ 20 - 4096) :
    size ≤ mediumPages size * 4096 ∧ 0 < mediumPages size ∧ mediumPages size ≤ 255 := by
  rw [mediumPages, alignSize_eq (by omega) (by omega)]
  omega

/-- A new medium chunk. -/
theorem HeapOk.new_medium (h : HeapOk s ls lm pool) {os : Os} {r : Option Nat}
    (hrun : newChunk s .medium os = .ok (s', r)) : r = none ∧ SameHeap s s' ∨
      ∃ c lm', r = some c ∧ HeapInv s' ls lm' pool ∧ SameBlocks s s' ls lm ls lm' ∧ c ∈ lm' ∧
        (∀ q ∈ lm', q ≠ c → (s'.medium q).freeSize ≠ 255) ∧ MediumChunk s' c [1] ∧ unitSize (s'.medium c) 1 = 255 := by
  obtain ⟨s₁, hnone, hs⟩ | ⟨s₁, c, hstart, he, -⟩ := h.newChunk_cases .medium os
  · rw [hnone] at hrun
    obtain ⟨rfl, rfl⟩ := Prod.mk.inj (Except.ok.inj hrun)
    exact .inl ⟨rfl, hs⟩
  · rw [hstart, startChunk_eq] at hrun
    obtain ⟨s₂, hlook, hrun⟩ := Exec.bind_ok hrun
    have he₂ := he.look (getOrUpdateAddr_same hlook)
    obtain ⟨s₃, lm', hinit, hi, hperm, hsame, m, hsize, hmed⟩ := he₂.init_medium h.toHeapInv
    rw [hinit] at hrun
    obtain ⟨rfl, rfl⟩ := Prod.mk.inj (Except.ok.inj hrun)
    refine .inr ⟨c, lm', rfl, hi, hsame, hperm.mem_iff.mpr List.mem_cons_self, fun q hq hqc => ?_, m, hsize⟩
    have hql := (List.mem_cons.mp (hperm.mem_iff.mp hq)).resolve_left hqc
    rw [hmed q hql]
    exact h.used q hql

/-- A medium chunk, of which the first unit fits if it is new. -/
theorem HeapOk.get_medium (h : HeapOk s ls lm pool) {size : Nat} (hsize : size ≤ 2 ^ 20 - 4096) {os : Os} {r : Option Nat}
    (hrun : getOrNewChunk s .medium size os = .ok (s', r)) :
    (∃ c ∈ lm, getAvaliableChunk s .medium size = .ok (some c) ∧ s' = s ∧ r = some c) ∨
      getAvaliableChunk s .medium size = .ok none ∧ (r = none ∧ SameHeap s s' ∨
        ∃ c lm', r = some c ∧ HeapInv s' ls lm' pool ∧ SameBlocks s s' ls lm ls lm' ∧ c ∈ lm' ∧
          (∀ q ∈ lm', q ≠ c → (s'.medium q).freeSize ≠ 255) ∧ MediumChunk s' c [1] ∧
          unitSize (s'.medium c) 1 = 255) := by
  obtain ⟨o, hget, hsome, -⟩ := getAvaliableChunk_spec h.mediums size
    (show size % 2 ^ 32 < 2 ^ 31 by omega)
  rw [getOrNewChunk_eq, hget, Exec.ok_bind] at hrun
  cases o with
  | some c =>
    obtain ⟨rfl, rfl⟩ := Prod.mk.inj (Except.ok.inj hrun)
    exact .inl ⟨c, (hsome c rfl).1, hget, rfl, rfl⟩
  | none => exact .inr ⟨hget, h.new_medium hrun⟩

/-- The first unit of a chunk. -/
theorem HeapInv.malloc_chunk (h : HeapInv s ls lm pool) {c len pos : Nat} (hc : c ∈ lm)
    (hothers : ∀ q ∈ lm, q ≠ c → (s.medium q).freeSize ≠ 255) (hrun : mallocChunkMedium s c len = .ok (s', pos)) :
    pos ≠ 0 ∧ ∃ lm', HeapOk s' ls lm' pool ∧
      Allocated s s' ls lm ls lm' .medium pos (mediumPages len * 4096) := by
  obtain ⟨l, m⟩ := h.medium c hc
  obtain ⟨n, rest, l', lm', rfl, h₀, hfit, rfl, m', hp, hperm, f, e, ht, -⟩ := mallocChunkMedium_step h.mediums hc m hrun
  have hcs : c ∉ ls := fun hs => h.small_medium hs hc
  have hmem : ∀ q, q ∈ lm' ↔ q ∈ lm := fun q => hperm.mem_iff
  have hmed : ∀ q, q ≠ c → s'.medium q = s.medium q := f.medium
  have hsmall : SmallInv s' ls pool := h.small.frame f e hcs fun q hq hm => h.small_medium hq hm
  have hn : n ∈ n :: rest := List.mem_cons_self
  have hfree : bitmapGet (s.medium c).bitmapType n = false := ((m.layout.parts.mem n).mp hn).2
  have hunit : ∀ q p k, q ∈ lm' ∧ UsedUnit (s'.medium q) p k ↔
      q ∈ lm ∧ UsedUnit (s.medium q) p k ∨ q = c ∧ p = n ∧ k = mediumPages len := by
    intro q p k
    rw [hmem]
    by_cases hqc : q = c
    · subst hqc
      rw [ht.used]
      tauto
    · rw [hmed q hqc]
      tauto
  have hat : ∀ r, RunAt s' ls r ↔ RunAt s ls r := fun r => RunAt.congr fun q hq => by
    rw [f.small q fun he => hcs (he ▸ hq)]
  refine ⟨?_, lm', ⟨⟨⟨hsmall, hp, fun q hq => ?_⟩, ?_⟩, fun q hq => ?_⟩, fun j q x => ?_, fun x hb => ?_,
    fun j q x hb => .of_data e.data (h.disjoint_mediumBytes hb hc fun p hp _ => ?_), fun r _ => .of_runs (hat r).mpr e⟩
  · obtain ⟨i, j, -, -, hne, -, rfl, -⟩ := h.medium_place hc
    have := slotPos_ne hne
    omega
  · by_cases hqc : q = c
    · subst hqc
      exact ⟨l', m'⟩
    · obtain ⟨k, mk⟩ := h.medium q ((hmem q).mp hq)
      exact ⟨k, mk.frame f hqc⟩
  · refine ⟨f.arenas ▸ h.arenas, fun i => by rw [f.arenas]; exact h.arena i, fun q => ?_⟩
    rw [IsChunk.congr f.arenas, h.registered, hmem]
  · by_cases hqc : q = c
    · subst hqc
      exact fun hfull => (m'.layout.full_iff.mp hfull) n _ ((ht.used n _).mpr (.inr ⟨rfl, rfl⟩))
    · rw [hmed q hqc]
      exact hothers q ((hmem q).mp hq) hqc
  · cases j with
    | small =>
      refine (SmallBlock.congr hat e.run e.link q x).trans (or_iff_left ?_).symm
      rintro ⟨he, -⟩
      cases he
    | medium =>
      constructor
      · rintro ⟨q', hq', p, k, hu, rfl, rfl⟩
        rcases (hunit q' p k).mp ⟨hq', hu⟩ with ⟨hq', hu⟩ | ⟨rfl, rfl, rfl⟩
        · exact .inl ⟨q', hq', p, k, hu, rfl, rfl⟩
        · exact .inr ⟨rfl, rfl, rfl⟩
      · rintro (⟨q', hq', p, k, hu, rfl, rfl⟩ | ⟨-, rfl, rfl⟩)
        · obtain ⟨hq', hu⟩ := (hunit q' p k).mpr (.inl ⟨hq', hu⟩)
          exact ⟨q', hq', p, k, hu, rfl, rfl⟩
        · obtain ⟨hq', hu⟩ := (hunit c n (mediumPages len)).mpr (.inr ⟨rfl, rfl, rfl⟩)
          exact ⟨c, hq', n, _, hu, rfl, rfl⟩
    | large =>
      refine (LargeBlock.congr f.arenas).trans (or_iff_left ?_).symm
      rintro ⟨he, -⟩
      cases he
  · -- the unit was free
    obtain ⟨c', p, k, hin, hu, h₁, h₂, hk, -⟩ := h.mediumBlock hb
    obtain ⟨i, j, hi, hj, -, -, hplace, -⟩ := h.medium_place hc
    obtain ⟨i', j', hi', hj', -, -, hplace', -⟩ := h.medium_place hin.chunk
    have hlt := (m.layout.parts.range n ((m.layout.parts.mem n).mp hn).1).2
    obtain ⟨rfl, rfl⟩ := IsPlace.page_eq ⟨i, j, hi, hj, hplace⟩ ⟨i', j', hi', hj', hplace'⟩ hlt (by omega) hin.pos
    rw [hu.1] at hfree
    cases hfree
  · -- the nodes that are written are in free units
    rcases hp with hp | ⟨hlt, rfl⟩
    · exact h.disjoint_unit hb hc m hp le_rfl (by have := (m.layout.unitSize_le hp).1; omega)
    · exact h.disjoint_unit hb hc m hn (by omega) (by omega)

theorem mallocArena_medium_eq {size : Nat} (h₁ : 1920 < size) (h₂ : size ≤ 2 ^ 20 - 4096) (s : Shm) (os : Os) :
    mallocArena s size os = getOrNewChunk s .medium size os >>= fun r =>
      match r.2 with
      | none => .ok (r.1, 0)
      | some chunk => mallocChunkMedium r.1 chunk size := by
  unfold mallocArena
  rw [if_neg (by omega), if_pos h₂]
  congr 1
  funext r
  obtain ⟨s₁, chunk⟩ := r
  cases chunk with
  | none => rfl
  | some chunk => rfl

theorem HeapOk.malloc_medium (h : HeapOk s ls lm pool) {size pos : Nat} (h₁ : 1920 < size) (h₂ : size ≤ 2 ^ 20 - 4096)
    {os : Os} (hrun : mallocArena s size os = .ok (s', pos)) : Grown s s' ls lm .medium pos size := by
  rw [mallocArena_medium_eq h₁ h₂] at hrun
  obtain ⟨⟨s₁, o⟩, hget, hrun⟩ := Exec.bind_ok hrun
  have hle := (mediumPages_le (by omega) h₂).1
  obtain ⟨c, hc, -, rfl, rfl⟩ | ⟨-, ⟨rfl, e⟩ | ⟨c, lm', rfl, h', hsame, hc, hothers, -⟩⟩ := h.get_medium h₂ hget
  · obtain ⟨hpos, lm', h'', ha⟩ := h.toHeapInv.malloc_chunk hc (fun q hq _ => h.used q hq) hrun
    exact .inr ⟨hpos, ls, lm', pool, _, h'', ha, iff_of_true hle (by omega), fun _ => rfl⟩
  · obtain ⟨rfl, rfl⟩ := Prod.mk.inj (Except.ok.inj hrun)
    exact .inl ⟨rfl, e⟩
  · obtain ⟨hpos, lm'', h'', ha⟩ := h'.malloc_chunk hc hothers hrun
    exact .inr ⟨hpos, ls, lm'', pool, _, h'', hsame.allocated ha, iff_of_true hle (by omega), fun _ => rfl⟩

/-- The chunk that `malloc_arena` chooses has a first unit that fits. -/
def FirstFits (s : Shm) (size : Nat) : Prop :=
  ∀ c, getAvaliableChunk s .medium size = .ok (some c) →
    ∃ n, Rbtree.min mediumMacros (s.medium c).tree = .ok (some n) ∧ mediumPages size ≤ unitSize (s.medium c) n

/-- An allocation in a medium chunk completes if the first unit fits, and only then. -/
theorem HeapInv.malloc_chunk_total (h : HeapInv s ls lm pool) {c len : Nat} (hc : c ∈ lm) (h₀ : 0 < mediumPages len) :
    (∃ s' pos, mallocChunkMedium s c len = .ok (s', pos)) ↔
      ∃ n, Rbtree.min mediumMacros (s.medium c).tree = .ok (some n) ∧ mediumPages len ≤ unitSize (s.medium c) n := by
  obtain ⟨l, m⟩ := h.medium c hc
  have hmin : Rbtree.min mediumMacros (s.medium c).tree = .ok l.head? := Rbtree.endOf_holds m.layout.holds .left
  constructor
  · rintro ⟨s', pos, hrun⟩
    obtain ⟨n, rest, rfl, -, hfit⟩ := mallocChunkMedium_ok m hrun
    exact ⟨n, hmin, hfit⟩
  · rintro ⟨n, hn, hfit⟩
    cases l with
    | nil =>
      rw [hmin] at hn
      cases hn
    | cons n' rest =>
      obtain rfl : n' = n := Option.some.inj (Except.ok.inj (hmin.symm.trans hn))
      obtain ⟨t, d', data, l', lm', hrun, -⟩ := mallocChunkMedium_spec h.mediums hc m h₀ hfit
      exact ⟨_, _, hrun⟩

/-- A medium allocation completes if the chosen chunk's first unit fits, and only then. -/
theorem HeapOk.malloc_medium_total (h : HeapOk s ls lm pool) (hT : TableOk s) {size : Nat} (h₁ : 1920 < size)
    (h₂ : size ≤ 2 ^ 20 - 4096) {os : Os} (hos : ∀ m, os.shmid = some m → m ≠ 0) :
    (∃ s' pos, mallocArena s size os = .ok (s', pos)) ↔ FirstFits s size := by
  obtain ⟨-, h₀, hle⟩ := mediumPages_le (by omega : 0 < size) h₂
  obtain ⟨s₁, o, hget⟩ := h.get_total hT (show ChunkType.medium ≠ .empty by decide) (by omega : size < 2 ^ 31) hos
  rw [mallocArena_medium_eq h₁ h₂, hget, Exec.ok_bind]
  obtain ⟨c, hc, hav, rfl, rfl⟩ | ⟨hav, hnew⟩ := h.get_medium h₂ hget
  · refine (h.toHeapInv.malloc_chunk_total hc h₀).trans ⟨fun hfit c' hc' => ?_, fun hfits => hfits c hav⟩
    obtain rfl : c = c' := Option.some.inj (Except.ok.inj (hav.symm.trans hc'))
    exact hfit
  · have hfits : FirstFits s size := fun c hc => by
      rw [hav] at hc
      cases hc
    refine iff_of_true ?_ hfits
    obtain ⟨rfl, -⟩ | ⟨c, lm', rfl, h', -, hc, -, m, hsize⟩ := hnew
    · exact ⟨s₁, 0, rfl⟩
    · refine (h'.malloc_chunk_total hc h₀).mpr ⟨1, ?_, by omega⟩
      exact Rbtree.endOf_holds m.layout.holds .left

/-! ### Large blocks -/

theorem alignSize_large {size : Nat} (hsize : size < 2 ^ 64) : alignSize size (2 ^ 20) % 2 ^ 20 = 0 ∧
    (size ≤ alignSize size (2 ^ 20) ↔ size ≤ 2 ^ 64 - 2 ^ 20) := by
  unfold alignSize
  omega

theorem mallocArena_large_eq {size : Nat} (h : 2 ^ 20 - 4096 < size) (s : Shm) (os : Os) :
    mallocArena s size os = newArena s .large (alignSize size (2 ^ 20)) os >>= fun r =>
      match r.2 with
      | none => .ok (r.1, 0)
      | some index => .ok (r.1, index2pos (r.1.arenas index).index 0) := by
  unfold mallocArena
  rw [if_neg (by omega), if_neg (by omega)]
  congr 1
  funext r
  obtain ⟨s₁, index⟩ := r
  cases index with
  | none => rfl
  | some index => rfl

theorem HeapOk.malloc_large (h : HeapOk s ls lm pool) {size pos : Nat} (h₁ : 2 ^ 20 - 4096 < size) (h₂ : size < 2 ^ 64)
    {os : Os} (hrun : mallocArena s size os = .ok (s', pos)) : Grown s s' ls lm .large pos size := by
  rw [mallocArena_large_eq h₁] at hrun
  obtain ⟨⟨s₁, o⟩, hnew, hrun⟩ := Exec.bind_ok hrun
  obtain ⟨rfl, e⟩ | ⟨index, shmid, rfl, hi, hlt, hemp, hm, e, ha⟩ := newArena_step hnew
  · obtain ⟨rfl, rfl⟩ := Prod.mk.inj (Except.ok.inj hrun)
    exact .inl ⟨rfl, e⟩
  obtain ⟨rfl, rfl⟩ := Prod.mk.inj (Except.ok.inj hrun)
  have hpos : index2pos (s₁.arenas index).index 0 = index * 2 ^ 32 := by
    rw [ha.self, index2pos_eq (by omega), Nat.add_zero]
  have hA : ∀ i, (s.arenas i).type ≠ .empty → i ≠ index := fun i hne hie => hne (hie ▸ hemp)
  have hnone : slotsUsed (s.arenas index) = ∅ := (h.arena index).none (.inl hemp)
  have hok : ArenasOk s₁.arenas := ha ▸ h.arenas.enter hi hlt (.inr rfl) hm rfl
  have hold : ArenasHold s₁ ls lm := by
    refine h.toArenasHold.set ha hok (.bare hi (.inr rfl) rfl rfl) ?_
    rw [hnone]
    exact slotsUsed_zero rfl
  have hmed : ∀ q ∈ lm, s₁.medium q = s.medium q := fun q hq =>
    e.medium q (h.index_kept hA ((h.registered q).mpr (.inr hq)))
  rw [hpos]
  refine .inr ⟨by omega, ls, lm, pool, alignSize size (2 ^ 20), ⟨⟨h.chunks_kept e hA, hold⟩, fun q hq => by
    rw [hmed q hq]; exact h.used q hq⟩, ⟨fun k q n => ?_, ?_, fun k q n hb => h.bytes_kept e hA hb,
      fun r _ => h.unlinked_kept e hA r⟩, (alignSize_large h₂).2, fun _ => rfl⟩
  · cases k with
    | small =>
      refine (h.small_kept e hA q n).trans (or_iff_left ?_).symm
      rintro ⟨he, -⟩
      cases he
    | medium =>
      refine (h.medium_kept e hA q n).trans (or_iff_left ?_).symm
      rintro ⟨he, -⟩
      cases he
    | large =>
      constructor
      · rintro ⟨i, ht, rfl, rfl⟩
        by_cases hi : i = index
        · subst hi
          exact .inr ⟨rfl, rfl, by rw [ha.self]⟩
        · rw [ha.other hi] at ht ⊢
          exact .inl ⟨i, ht, rfl, rfl⟩
      · rintro (⟨i, ht, rfl, rfl⟩ | ⟨-, rfl, rfl⟩)
        · have hi : i ≠ index := hA i fun he => by
            rw [ht] at he
            cases he
          exact ⟨i, by rwa [ha.other hi], rfl, by rw [ha.other hi]⟩
        · exact ⟨index, by rw [ha.self], rfl, by rw [ha.self]⟩
  · rintro n ⟨i, ht, he, -⟩
    obtain rfl : i = index := by omega
    rw [hemp] at ht
    cases ht

/-! ### Any size -/

/-- The kind of block that serves a request. -/
def kindOf (size : Nat) : BlockKind :=
  if size ≤ 1920 then .small else if size ≤ 2 ^ 20 - 4096 then .medium else .large

theorem kindOf_small {size : Nat} (h : kindOf size = .small) : size ≤ 1920 := by
  unfold kindOf at h
  split at h
  · assumption
  · split at h <;> cases h

theorem HeapOk.malloc (h : HeapOk s ls lm pool) {size pos : Nat} (h₁ : 0 < size) (h₂ : size < 2 ^ 64) {os : Os}
    (hrun : mallocArena s size os = .ok (s', pos)) : Grown s s' ls lm (kindOf size) pos size := by
  unfold kindOf
  by_cases hs : size ≤ 1920
  · rw [if_pos hs]
    exact h.malloc_small h₁ hs hrun
  · rw [if_neg hs]
    by_cases hm : size ≤ 2 ^ 20 - 4096
    · rw [if_pos hm]
      exact h.malloc_medium (by omega) hm hrun
    · rw [if_neg hm]
      exact h.malloc_large (by omega) h₂ hrun

/-- An allocation completes unless it is of pages and the first unit is too small. -/
theorem HeapOk.malloc_total (h : HeapOk s ls lm pool) (hT : TableOk s) {size : Nat} (h₁ : 0 < size) (h₂ : size < 2 ^ 64)
    {os : Os} (hos : ∀ m, os.shmid = some m → m ≠ 0) :
    (∃ s' pos, mallocArena s size os = .ok (s', pos)) ↔ (kindOf size = .medium → FirstFits s size) := by
  unfold kindOf
  by_cases hs : size ≤ 1920
  · rw [if_pos hs]
    exact iff_of_true (h.malloc_small_total hT h₁ hs hos) fun he => by cases he
  · rw [if_neg hs]
    by_cases hm : size ≤ 2 ^ 20 - 4096
    · rw [if_pos hm, h.malloc_medium_total hT (by omega) hm hos]
      exact ⟨fun hf _ => hf, fun hf => hf rfl⟩
    · rw [if_neg hm]
      refine iff_of_true ?_ fun he => by cases he
      obtain ⟨s', r, hnew⟩ := @newArena_total s .large _ (alignSize_large h₂).1 os
      rw [mallocArena_large_eq (by omega), hnew, Exec.ok_bind]
      cases r with
      | none => exact ⟨s', 0, rfl⟩
      | some index => exact ⟨s', _, rfl⟩

end

end ShmMalloc
