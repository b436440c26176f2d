import ShmMalloc.Heap.Free

/-! `check_arena` and `shm_realloc`.

`check_arena` translates the position into an offset of the chunk, as `free_arena` does, but
hands on the offset of the arena: it finds a page in the first slot of an arena only. In a
medium chunk the search for the end of the unit stops at its start. -/
namespace ShmMalloc

/-- What `check_arena` returns for a block of this capacity. -/
def checkedSize (kind : BlockKind) (pos n : Nat) : Nat :=
  if kind ≠ .medium ∧ pos2offset pos < 2 ^ 20 then n else 0

section
variable {s s' : Shm} {ls lm ls' lm' : List Nat} {pool pool' : Nat → List Nat}

theorem ArenasHold.checkArena_eq (h : ArenasHold s ls lm) {c x : Nat} (hc : IsChunk s c) (hx : x < 2 ^ 20) :
    checkArena s (pos2index (c + x)) (pos2offset (c + x)) =
      getOrUpdateAddr s c >>= fun s => checkChunk s c (pos2offset (c + x)) >>= fun n => .ok (s, n) := by
  obtain ⟨hat, hindex, hne⟩ := h.chunk_at hc hx
  have hreq : decide (x < 2 ^ 20) = true := decide_eq_true hx
  rw [hindex]
  unfold checkArena
  rw [hat.valid, if_neg (by decide)]
  dsimp only
  rcases hat.type with ht | ht <;>
  · rw [ht]
    dsimp only
    rw [hat.chunk, hat.inside, hreq, if_neg hne]
    rfl

/-- A page that is looked for by its offset in the arena is found in the first slot. -/
theorem HeapInv.check_small (h : HeapInv s ls lm pool) {pos n : Nat} (hb : SmallBlock s ls pos n) :
    ∃ c x, pos = c + x ∧ IsChunk s c ∧ x < 2 ^ 20 ∧
      checkChunk s c (pos2offset pos) = .ok (checkedSize .small pos n) := by
  obtain ⟨c, p, o, hin, hp, hp₀, ho, h₁, h₂, h₈, hn⟩ := h.smallBlock hb
  have hlt := (mem_pages.mp hp).1
  have hx : p * 4096 + o < 2 ^ 20 := by omega
  refine ⟨c, p * 4096 + o, hin.pos, (h.registered c).mpr (.inl hin.chunk), hx, ?_⟩
  obtain ⟨i, j, -, hj, -, -, hplace, -⟩ := h.small_place hin.chunk
  have hoffset : pos2offset pos = j * 2 ^ 20 + (p * 4096 + o) := by rw [hin.pos, hplace, pos2offset_slot hj hx]
  have hheader := (h.small.chunk c hin.chunk).header
  unfold checkChunk checkedSize
  rw [hheader]
  dsimp only
  unfold checkChunkSmall
  by_cases hfirst : j = 0
  · rw [hoffset, hfirst, Nat.zero_mul, Nat.zero_add, h.small.toPages.findRun hin.chunk hp (by omega), Exec.ok_bind,
      if_pos ⟨by decide, hx⟩, hn]
    rfl
  · have hnone : findRun s c (pos2offset pos) = .ok none := by
      have hge : decide (pos2offset pos / 4096 ≥ 256) = true := decide_eq_true (by omega)
      unfold findRun
      rw [hheader]
      dsimp only
      rw [hge]
      rfl
    rw [hnone, Exec.ok_bind, if_neg fun hf => by omega]
    rfl

theorem HeapInv.check_medium (h : HeapInv s ls lm pool) {pos n : Nat} (hb : MediumBlock s lm pos n) :
    ∃ c x, pos = c + x ∧ IsChunk s c ∧ x < 2 ^ 20 ∧
      checkChunk s c (pos2offset pos) = .ok (checkedSize .medium pos n) := by
  obtain ⟨c, p, k, hin, hu, h₁, h₂, hk, -⟩ := h.mediumBlock hb
  obtain ⟨l, m⟩ := h.medium c hin.chunk
  refine ⟨c, p * 4096, hin.pos, (h.registered c).mpr (.inr hin.chunk), by omega, ?_⟩
  unfold checkChunk
  rw [m.header]
  exact checkChunkMedium_spec m _

theorem HeapInv.checkArena_large (h : HeapInv s ls lm pool) {pos n : Nat} (hb : LargeBlock s pos n) :
    checkArena s (pos2index pos) (pos2offset pos) = .ok (s, n) := by
  obtain ⟨hvalid, ht, hn⟩ := h.large_at hb
  unfold checkArena
  rw [hvalid, if_neg (by decide)]
  dsimp only
  rw [ht, hn]
  rfl

theorem HeapInv.check_chunk (h : HeapInv s ls lm pool) {k : BlockKind} {pos n : Nat} (hk : k ≠ .large)
    (hb : Block s ls lm k pos n) : ∃ c x, pos = c + x ∧ IsChunk s c ∧ x < 2 ^ 20 ∧ ∀ s₁, SameHeap s s₁ →
      checkChunk s₁ c (pos2offset pos) = .ok (checkedSize k pos n) := by
  obtain ⟨i, j, x, hw, -, -, -, hc⟩ := h.within hk hb
  refine ⟨slotPos i j, x, hw.pos, hc, hw.lt, fun s₁ e => ?_⟩
  have h₁ := h.same e
  have hb₁ := (Block.same h.toChunksOk e).mpr hb
  have heq : ∀ {c' x' : Nat}, pos = c' + x' → IsChunk s₁ c' → x' < 2 ^ 20 → c' = slotPos i j := by
    intro c' x' hpos hc' hx'
    obtain ⟨i', j', -, -, -, -, rfl, -⟩ := h₁.chunk_place hc'
    have := hw.pos
    have := hw.lt
    unfold slotPos at *
    omega
  cases k with
  | small =>
    obtain ⟨c, x', hpos, hc', hx', hcheck⟩ := h₁.check_small hb₁
    rwa [heq hpos hc' hx'] at hcheck
  | medium =>
    obtain ⟨c, x', hpos, hc', hx', hcheck⟩ := h₁.check_medium hb₁
    rwa [heq hpos hc' hx'] at hcheck
  | large => exact absurd rfl hk

theorem checkedSize_large {pos n : Nat} (hb : LargeBlock s pos n) : checkedSize .large pos n = n := by
  obtain ⟨i, -, rfl, -⟩ := hb
  exact if_pos ⟨by decide, by rw [pos2offset]; omega⟩

/-- What `check_arena` returns, if it does. -/
theorem HeapInv.check (h : HeapInv s ls lm pool) {k : BlockKind} {pos n m : Nat} (hb : Block s ls lm k pos n)
    (hrun : checkArena s (pos2index pos) (pos2offset pos) = .ok (s', m)) : SameHeap s s' ∧ m = checkedSize k pos n := by
  by_cases hk : k = .large
  · subst hk
    rw [h.checkArena_large hb] at hrun
    obtain ⟨rfl, rfl⟩ := Prod.mk.inj (Except.ok.inj hrun)
    exact ⟨.refl s, (checkedSize_large hb).symm⟩
  · obtain ⟨c, x, rfl, hc, hx, hcheck⟩ := h.check_chunk hk hb
    rw [h.checkArena_eq hc hx] at hrun
    obtain ⟨s₁, hlook, hrun⟩ := Exec.bind_ok hrun
    have e := getOrUpdateAddr_same hlook
    rw [hcheck s₁ e, Exec.ok_bind] at hrun
    obtain ⟨rfl, rfl⟩ := Prod.mk.inj (Except.ok.inj hrun)
    exact ⟨e, rfl⟩

theorem HeapInv.check_total (h : HeapInv s ls lm pool) (hT : TableOk s) {k : BlockKind} {pos n : Nat}
    (hb : Block s ls lm k pos n) : ∃ s', checkArena s (pos2index pos) (pos2offset pos) = .ok (s', checkedSize k pos n) ∧
      SameHeap s s' ∧ TableOk s' := by
  by_cases hk : k = .large
  · subst hk
    exact ⟨s, by rw [h.checkArena_large hb, checkedSize_large hb], .refl s, hT⟩
  · obtain ⟨c, x, rfl, hc, hx, hcheck⟩ := h.check_chunk hk hb
    obtain ⟨s₁, hlook, e, hT₁⟩ := hT.getOrUpdateAddr_total (h.chunk_at hc hx).2.2 (h.chunk_at hc hx).1.inUse
    exact ⟨s₁, by rw [h.checkArena_eq hc hx, hlook, Exec.ok_bind, hcheck s₁ e, Exec.ok_bind], e, hT₁⟩

/-! ### Copies -/

/-- The bytes that are in memory for clients are of no concern to the heap. -/
theorem HeapOk.setData (h : HeapOk s ls lm pool) (d : Bytes) : HeapOk {s with data := d} ls lm pool := by
  have hp := h.small
  refine ⟨⟨⟨⟨hp.chunks.of_nodes (fun _ _ => rfl) rfl rfl, fun c hc => (hp.chunk c hc).congr rfl rfl rfl,
    fun r hr => ?_, hp.pools, hp.mem⟩, h.mediums.of_nodes (fun _ _ => rfl) rfl rfl, fun c hc => ?_⟩,
    h.toArenasHold.congr rfl⟩, h.used⟩
  · obtain ⟨f, hf⟩ := hp.run r hr
    exact ⟨f, hf.congr rfl fun _ _ => rfl⟩
  · obtain ⟨l, m⟩ := h.medium c hc
    exact ⟨l, m.header, m.layout, m.key, m.maxSize⟩

theorem Block.setData (d : Bytes) (k : BlockKind) (pos n : Nat) :
    Block {s with data := d} ls lm k pos n ↔ Block s ls lm k pos n := by
  cases k with
  | small =>
    have hat : ∀ r, RunAt {s with data := d} ls r ↔ RunAt s ls r := fun _ => .rfl
    exact SmallBlock.congr hat rfl rfl pos n
  | medium => exact MediumBlock.congr (fun _ _ _ => .rfl) pos n
  | large => exact LargeBlock.congr rfl

/-! ### `shm_realloc` -/

/-- The block at `pos` has moved to `ret`, with its bytes if there is room for the request. -/
structure Moved (s s' : Shm) (ls lm ls' lm' : List Nat) (pos n size : Nat) (kind : BlockKind) (ret m : Nat) : Prop where
  blocks : ∀ k q x, Block s' ls' lm' k q x ↔ Block s ls lm k q x ∧ q ≠ pos ∨ k = kind ∧ q = ret ∧ x = m
  new : ∀ k x, ¬Block s ls lm k ret x
  bytes : size ≤ m → ∀ k q x, Block s ls lm k q x → q ≠ pos → SameBytes s s' q x
  copied : size ≤ m → ∀ j < n, s'.data (pos2index ret) (pos2offset ret + j) = s.data (pos2index pos) (pos2offset pos + j)

theorem HeapInv.pos_ne (h : HeapInv s ls lm pool) {k : BlockKind} {pos n : Nat} (hb : Block s ls lm k pos n) :
    pos ≠ 0 := by
  by_cases hk : k = .large
  · subst hk
    obtain ⟨i, ht, rfl, -⟩ := hb
    have hi : i ≠ 0 := fun he => by
      rw [(h.arenas.context i).mpr he] at ht
      cases ht
    omega
  · obtain ⟨i, j, x, hw, -, hx, -, -⟩ := h.within hk hb
    have := hw.pos
    omega

/-- A new block is at a new position. -/
theorem Allocated.fresh {kind : BlockKind} {pos n : Nat} (ha : Allocated s s' ls lm ls' lm' kind pos n)
    (h' : HeapInv s' ls' lm' pool) {k : BlockKind} {q m : Nat} (hb : Block s ls lm k q m) : q ≠ pos := by
  rintro rfl
  have hold := (ha.blocks k q m).mpr (.inl hb)
  have hnew := (ha.blocks kind q n).mpr (.inr ⟨rfl, rfl, rfl⟩)
  obtain ⟨rfl, rfl⟩ := h'.block_unique hold hnew
  exact ha.new m hb

theorem shmRealloc_eq {pos : Nat} (hpos : pos ≠ 0) (s : Shm) (size : Nat) (os : Os) : shmRealloc s pos size os =
    checkArena s (pos2index pos) (pos2offset pos) >>= fun r =>
      if size > r.2 ∧ r.2 ≠ 0 then
        mallocArena r.1 size os >>= fun q =>
          if q.2 ≠ 0 then
            getOrUpdateAddr q.1 pos >>= fun s₁ => getOrUpdateAddr s₁ q.2 >>= fun s₂ =>
              freeArena (copyData s₂ q.2 pos r.2) (pos2index pos) (pos2offset pos) >>= fun s₃ => .ok (s₃, q.2)
          else .ok (q.1, q.2)
      else .ok (r.1, pos) := by
  unfold shmRealloc
  rw [if_neg hpos]
  rfl

/-- The block is copied to the new one and freed. -/
theorem HeapOk.move (h : HeapOk s ls lm pool) {k kind : BlockKind} {pos n ret m size : Nat} (hb : Block s ls lm k pos n)
    (hu : Unstale s pos) (hn : kind = .small → n < m) (h' : HeapOk s' ls' lm' pool')
    (ha : Allocated s s' ls lm ls' lm' kind ret m) (hsize : n < size) :
    Unstale (copyData s' ret pos n) pos ∧ HeapOk (copyData s' ret pos n) ls' lm' pool' ∧
      Block (copyData s' ret pos n) ls' lm' k pos n ∧ ∀ s'' ls'' lm'',
        Freed (copyData s' ret pos n) s'' ls' lm' ls'' lm'' pos → Moved s s'' ls lm ls'' lm'' pos n size kind ret m := by
  have hc : HeapOk (copyData s' ret pos n) ls' lm' pool' := h'.setData _
  have hblocks : ∀ j q x, Block (copyData s' ret pos n) ls' lm' j q x ↔
      Block s ls lm j q x ∨ j = kind ∧ q = ret ∧ x = m := fun j q x => (Block.setData _ j q x).trans (ha.blocks j q x)
  have hb' : Block (copyData s' ret pos n) ls' lm' k pos n := (hblocks k pos n).mpr (.inl hb)
  have hne : ret ≠ pos := (ha.fresh h'.toHeapInv hb).symm
  refine ⟨(hc.unstale_iff hb').mpr fun hk => ?_, hc, hb', fun s'' ls'' lm'' hf => ⟨fun j q x => ?_, fun j x hj => ?_,
    fun hle j q x hj hq => ?_, fun hle i hi => ?_⟩⟩
  · subst hk
    obtain ⟨hr, he⟩ := h.small_run hb
    exact (ha.unlinked _ (fun hkind => by have := hn hkind; omega) hr ((h.unstale_iff hb).mp hu rfl)).2.2
  · rw [hf.blocks, hblocks]
    constructor
    · rintro ⟨hj | hj, hq⟩
      · exact .inl ⟨hj, hq⟩
      · exact .inr hj
    · rintro (⟨hj, hq⟩ | ⟨rfl, rfl, rfl⟩)
      · exact ⟨.inl hj, hq⟩
      · exact ⟨.inr ⟨rfl, rfl, rfl⟩, hne⟩
  · exact ha.fresh h'.toHeapInv hj rfl
  · -- the copy is inside the new block
    have hj' := (hblocks j q x).mpr (.inl hj)
    refine (ha.bytes j q x hj).trans (SameBytes.trans ?_ (hf.bytes j q x hj' hq))
    have hnew := (hblocks kind ret m).mpr (.inr ⟨rfl, rfl, rfl⟩)
    have hd := hc.disjoint hj' hnew (ha.fresh h'.toHeapInv hj)
    exact fun y hy => if_neg fun hy' => Set.disjoint_left.mp hd hy (bytes_le (by omega) y hy')
  · have hnew := (hblocks kind ret m).mpr (.inr ⟨rfl, rfl, rfl⟩)
    have hin : (pos2index ret, pos2offset ret + i) ∈ bytes ret m := ⟨rfl, by simp, by simp; omega⟩
    have hsrc : (pos2index pos, pos2offset pos + i) ∈ bytes pos n := ⟨rfl, by simp, by simp; omega⟩
    have hcopy : (copyData s' ret pos n).data (pos2index ret) (pos2offset ret + i) =
        s'.data (pos2index pos) (pos2offset pos + i) := by
      refine (if_pos ⟨rfl, by omega, by omega⟩).trans ?_
      rw [Nat.add_sub_cancel_left]
    exact (hf.bytes kind ret m hnew hne _ hin).trans (hcopy.trans (ha.bytes k pos n hb _ hsrc))

/-- What `shm_realloc` leaves. -/
inductive Reallocated (s s' : Shm) (ls lm : List Nat) (k : BlockKind) (pos n size : Nat) : Nat → Prop where
  | kept (e : SameHeap s s') (h : size ≤ checkedSize k pos n ∨ checkedSize k pos n = 0) :
    Reallocated s s' ls lm k pos n size pos
  | refused (e : SameHeap s s') (h : n < size ∧ checkedSize k pos n = n ∧ n ≠ 0) :
    Reallocated s s' ls lm k pos n size 0
  | moved {ret m : Nat} {ls' lm' : List Nat} {pool' : Nat → List Nat} (h : n < size ∧ checkedSize k pos n = n ∧ n ≠ 0)
    (hne : ret ≠ 0) (hm : size ≤ m ↔ size ≤ 2 ^ 64 - 2 ^ 20) (h' : HeapOk s' ls' lm' pool')
    (hls : k ≠ .small → kindOf size ≠ .small → ls' = ls)
    (hmoved : Moved s s' ls lm ls' lm' pos n size (kindOf size) ret m) : Reallocated s s' ls lm k pos n size ret

theorem checkedSize_cases (k : BlockKind) (pos n : Nat) : checkedSize k pos n = n ∨ checkedSize k pos n = 0 := by
  unfold checkedSize
  split
  · exact .inl rfl
  · exact .inr rfl

theorem HeapOk.realloc (h : HeapOk s ls lm pool) {k : BlockKind} {pos n size ret : Nat} (hb : Block s ls lm k pos n)
    (hu : Unstale s pos) (hsize : size < 2 ^ 64) {os : Os} (hrun : shmRealloc s pos size os = .ok (s', ret)) :
    Reallocated s s' ls lm k pos n size ret := by
  rw [shmRealloc_eq (h.pos_ne hb)] at hrun
  obtain ⟨⟨s₁, c⟩, hcheck, hrun⟩ := Exec.bind_ok hrun
  obtain ⟨e₁, rfl⟩ := h.check hb hcheck
  dsimp only at hrun
  split at hrun
  · next hlt =>
    have hn : checkedSize k pos n = n := (checkedSize_cases k pos n).resolve_right hlt.2
    rw [hn] at hlt hrun
    obtain ⟨⟨s₂, ret'⟩, hmalloc, hrun⟩ := Exec.bind_ok hrun
    obtain ⟨rfl, e₂⟩ | ⟨hne, ls', lm', pool', m, h₂, ha, hm, hls⟩ := (h.same e₁).malloc (by omega) hsize hmalloc
    · obtain ⟨rfl, rfl⟩ := Prod.mk.inj (Except.ok.inj hrun)
      exact .refused (e₁.trans e₂) ⟨hlt.1, hn, hlt.2⟩
    · dsimp only at hrun
      rw [if_pos hne] at hrun
      obtain ⟨s₃, hl₃, hrun⟩ := Exec.bind_ok hrun
      obtain ⟨s₄, hl₄, hrun⟩ := Exec.bind_ok hrun
      obtain ⟨s₅, hfree, hrun⟩ := Exec.bind_ok hrun
      obtain ⟨rfl, rfl⟩ := Prod.mk.inj (Except.ok.inj hrun)
      have e₄ := (getOrUpdateAddr_same hl₃).trans (getOrUpdateAddr_same hl₄)
      have ha₄ := ((e₁.blocks h.toChunksOk).allocated ha).same (e₄.blocks h₂.toChunksOk)
      have hsmall : kindOf size = .small → n < m := fun hk => by
        have := kindOf_small hk
        omega
      obtain ⟨hu₅, h₅, hb₅, hmoved⟩ := h.move hb hu hsmall (h₂.same e₄) ha₄ hlt.1
      obtain ⟨ls'', lm'', pool'', h₆, hf, hls'⟩ := h₅.free hb₅ hu₅ hfree
      exact .moved ⟨hlt.1, hn, hlt.2⟩ hne hm h₆ (fun hk hs => (hls' hk).trans (hls hs)) (hmoved _ _ _ hf)
  · next hge =>
    obtain ⟨rfl, rfl⟩ := Prod.mk.inj (Except.ok.inj hrun)
    exact .kept e₁ (by omega)

/-! ### Whether `shm_realloc` completes -/

theorem FirstFits.same {size : Nat} (e : SameHeap s s') : FirstFits s' size ↔ FirstFits s size := by
  have hpool : s'.pool .medium = s.pool .medium := by
    show (⟨s'.chunkNode, s'.chunkMediumPool.root, s'.chunkMediumPool.size⟩ : Rbtree.State Nat ChunkTreeValue) = _
    rw [e.objects.mediumPool, show s'.chunkNode = s.chunkNode from funext fun q => e.objects.chunkNode q trivial]
    rfl
  have hmed : s'.medium = s.medium := funext fun q => e.objects.medium q trivial
  unfold FirstFits getAvaliableChunk
  rw [hpool, hmed]

/-- A lookup leaves no entry without an address that had one, while its arena is in use. -/
theorem TableOk.entry_kept (hT : TableOk s) {p j : Nat} (h : (s.arenaAddrs j).addr ≠ none)
    (hrun : getOrUpdateAddr s p = .ok s') : (s'.arenaAddrs j).addr ≠ none := by
  by_cases hj : j = pos2index p
  · rw [hj]
    exact getOrUpdateAddr_entry hrun
  obtain ⟨-, addr, hlook⟩ := getOrUpdateAddr_cases hrun
  have hd := detachArena_at hT.entries (pos2index p) j
  rw [if_neg hj] at hd
  generalize some addr = r at hlook
  cases lookup_cases hT hlook with
  | current => exact h
  | gone => rwa [hd]
  | attached =>
    show (if j = pos2index p then _ else (detachArena s (pos2index p)).arenaAddrs j).addr ≠ none
    rwa [if_neg hj, hd]

theorem HeapInv.inUse (h : HeapInv s ls lm pool) {k : BlockKind} {pos n : Nat} (hb : Block s ls lm k pos n) :
    (s.arenas (pos2index pos)).type ≠ .empty := by
  by_cases hk : k = .large
  · rw [(h.large_iff hb).mp hk]
    decide
  · exact (forChunks_ne (h.type_at hk hb)).1

theorem HeapOk.realloc_total (h : HeapOk s ls lm pool) (hT : TableOk s) {k : BlockKind} {pos n size : Nat}
    (hb : Block s ls lm k pos n) (hu : Unstale s pos) (hsize : size < 2 ^ 64) {os : Os}
    (hos : ∀ m, os.shmid = some m → m ≠ 0) : (∃ s' ret, shmRealloc s pos size os = .ok (s', ret)) ↔
      (size > checkedSize k pos n ∧ checkedSize k pos n ≠ 0 → kindOf size = .medium → FirstFits s size) := by
  obtain ⟨s₁, hcheck, e₁, hT₁⟩ := h.check_total hT hb
  rw [shmRealloc_eq (h.pos_ne hb), hcheck, Exec.ok_bind]
  dsimp only
  split
  · next hlt =>
    have hn : checkedSize k pos n = n := (checkedSize_cases k pos n).resolve_right hlt.2
    have hlt' : n < size := hn ▸ hlt.1
    have htotal := (h.same e₁).malloc_total hT₁ (by omega : 0 < size) hsize hos
    rw [FirstFits.same e₁] at htotal
    rw [forall_prop_of_true hlt, ← htotal]
    constructor
    · rintro ⟨s', ret, hrun⟩
      obtain ⟨⟨s₂, ret'⟩, hmalloc, -⟩ := Exec.bind_ok hrun
      exact ⟨s₂, ret', hmalloc⟩
    rintro ⟨s₂, ret, hmalloc⟩
    rw [hmalloc, Exec.ok_bind]
    obtain ⟨rfl, -⟩ | ⟨hne, ls', lm', pool', m, h₂, ha, hm, -⟩ := (h.same e₁).malloc (by omega) hsize hmalloc
    · exact ⟨s₂, 0, rfl⟩
    have ha := (e₁.blocks h.toChunksOk).allocated ha
    have hT₂ := hT₁.passes hos (mallocArena_works hmalloc).passes
    have hold := h₂.inUse ((ha.blocks k pos n).mpr (.inl hb))
    have hnew := h₂.inUse ((ha.blocks _ ret m).mpr (.inr ⟨rfl, rfl, rfl⟩))
    obtain ⟨s₃, hl₃, e₃, hT₃⟩ := hT₂.getOrUpdateAddr_total (h.pos_ne hb) hold
    obtain ⟨s₄, hl₄, e₄, hT₄⟩ := hT₃.getOrUpdateAddr_total hne (by rwa [e₃.arenas])
    have hentry := hT₃.entry_kept (getOrUpdateAddr_entry hl₃) hl₄
    have hsmall : kindOf size = .small → n < m := fun hk => by
      have := kindOf_small hk
      omega
    obtain ⟨hu₅, h₅, hb₅, -⟩ := h.move hb hu hsmall (h₂.same (e₃.trans e₄))
      (ha.same ((e₃.trans e₄).blocks h₂.toChunksOk)) hlt'
    have hT₅ : TableOk (copyData s₄ ret pos n) := hT₄.quiet (.of_eq rfl rfl rfl)
    obtain ⟨s₆, hfree⟩ := (h₅.free_total hT₅ hb₅ hu₅).mpr fun _ => hentry
    refine ⟨s₆, ret, ?_⟩
    dsimp only
    rw [if_pos hne, hl₃, Exec.ok_bind, hl₄, Exec.ok_bind, hn, hfree, Exec.ok_bind]
  · next hge => exact iff_of_true ⟨s₁, pos, rfl⟩ fun hlt => absurd hlt hge

end

end ShmMalloc
