import ShmMalloc.Heap.Runs

/-! What a client writes in its block.

The objects of the allocator and the blocks are in one memory. A write of a byte may
leave anything in an object that contains it, be the object in use or not, and leaves
the others as they were. What the allocator has in use is in no block, so that a write
in a block changes nothing but the byte, as far as the allocator can tell. -/
namespace ShmMalloc

/-- The fields of the chunk header are the same; the nodes are in other pages. -/
structure SameDetial (d d' : ChunkMediumDetial) : Prop where
  maxSize : d'.maxSize = d.maxSize
  freeSize : d'.freeSize = d.freeSize
  root : d'.tree.root = d.tree.root
  size : d'.tree.size = d.tree.size
  type : d'.bitmapType = d.bitmapType
  up : d'.bitmapUp = d.bitmapUp
  down : d'.bitmapDown = d.bitmapDown

/-- What a write of the byte `x` leaves: every object that is not where it is. -/
structure Overwrites (s s' : Shm) (x : Nat × Nat) : Prop where
  arenas : x ∉ bytes 0 (2 ^ 20) → s'.arenas = s.arenas
  runPool : x ∉ bytes 0 (2 ^ 20) → s'.runPool = s.runPool
  smallPool : x ∉ bytes 0 (2 ^ 20) → s'.chunkSmallPool = s.chunkSmallPool
  mediumPool : x ∉ bytes 0 (2 ^ 20) → s'.chunkMediumPool = s.chunkMediumPool
  header : ∀ c, x ∉ bytes c 4096 → s'.header c = s.header c
  chunkNode : ∀ c, x ∉ bytes c 4096 → s'.chunkNode c = s.chunkNode c
  small : ∀ c, x ∉ bytes c 4096 → s'.small c = s.small c
  medium : ∀ c, x ∉ bytes c 4096 → SameDetial (s.medium c) (s'.medium c)
  node : ∀ c p, x ∉ bytes (c + p * 4096) 4096 → (s'.medium c).tree.heap p = (s.medium c).tree.heap p
  run : ∀ r, x ∉ bytes r 64 → s'.run r = s.run r
  runNode : ∀ r, x ∉ bytes r 64 → s'.runNode r = s.runNode r
  link : ∀ r o, x ∉ bytes (r + o) 4 → s'.link r o = s.link r o
  data : ∀ i o, (i, o) ≠ x → s'.data i o = s.data i o
  arenaAddrs : s'.arenaAddrs = s.arenaAddrs
  sys : s'.sys = s.sys

/-- A write that changes nothing but its byte. -/
def Shm.setByte (s : Shm) (i o : Nat) (v : UInt8) : Shm :=
  {s with data := fun i' o' => if i' = i ∧ o' = o then some v else s.data i' o'}

theorem Shm.setByte_overwrites (s : Shm) (i o : Nat) (v : UInt8) : Overwrites s (s.setByte i o v) (i, o) :=
  ⟨fun _ => rfl, fun _ => rfl, fun _ => rfl, fun _ => rfl, fun _ _ => rfl, fun _ _ => rfl, fun _ _ => rfl,
    fun _ _ => ⟨rfl, rfl, rfl, rfl, rfl, rfl, rfl⟩, fun _ _ _ => rfl, fun _ _ => rfl, fun _ _ => rfl, fun _ _ _ => rfl,
    fun _ _ hne => if_neg fun he => hne (Prod.ext he.1 he.2), rfl, rfl⟩

/-- The objects that the allocator has in use are the same. -/
structure SameUsed (s s' : Shm) (ls lm : List Nat) : Prop where
  arenas : s'.arenas = s.arenas
  runPool : s'.runPool = s.runPool
  smallPool : s'.chunkSmallPool = s.chunkSmallPool
  mediumPool : s'.chunkMediumPool = s.chunkMediumPool
  header : ∀ c, c ∈ ls ∨ c ∈ lm → s'.header c = s.header c
  chunkNode : ∀ c, c ∈ ls ∨ c ∈ lm → s'.chunkNode c = s.chunkNode c
  small : ∀ c ∈ ls, s'.small c = s.small c
  medium : ∀ c ∈ lm, SameDetial (s.medium c) (s'.medium c)
  node : ∀ c ∈ lm, ∀ l, MediumChunk s c l → ∀ p ∈ l, (s'.medium c).tree.heap p = (s.medium c).tree.heap p
  run : ∀ r, RunAt s ls r → s'.run r = s.run r
  runNode : ∀ r, RunAt s ls r → s'.runNode r = s.runNode r
  link : ∀ r f, RunAt s ls r → Run s r f → ∀ o ∈ f, s'.link r o = s.link r o

section
variable {s s' : Shm} {ls lm : List Nat} {pool : Nat → List Nat}

/-- A write in a block is none in an object that the allocator has in use. -/
theorem HeapInv.overwrites (h : HeapInv s ls lm pool) {k : BlockKind} {pos n : Nat} (hb : Block s ls lm k pos n)
    {x : Nat × Nat} (hx : x ∈ bytes pos n) (e : Overwrites s s' x) : SameUsed s s' ls lm := by
  have hctx : x ∉ bytes 0 (2 ^ 20) := Set.disjoint_left.mp (h.disjoint_context hb) hx
  have hchunk : ∀ c, c ∈ ls ∨ c ∈ lm → x ∉ bytes c 4096 := fun c hc =>
    Set.disjoint_left.mp (h.disjoint_header hb ((h.registered c).mpr hc)) hx
  have hrun : ∀ r, RunAt s ls r → x ∉ bytes r 64 := fun r hr => Set.disjoint_left.mp (h.disjoint_run hb hr) hx
  exact {
    arenas := e.arenas hctx
    runPool := e.runPool hctx
    smallPool := e.smallPool hctx
    mediumPool := e.mediumPool hctx
    header := fun c hc => e.header c (hchunk c hc)
    chunkNode := fun c hc => e.chunkNode c (hchunk c hc)
    small := fun c hc => e.small c (hchunk c (.inl hc))
    medium := fun c hc => e.medium c (hchunk c (.inr hc))
    node := fun c hc l m p hp => e.node c p (Set.disjoint_left.mp (h.disjoint_unit hb hc m hp le_rfl
      (by have := (m.layout.unitSize_le hp).1; omega)) hx)
    run := fun r hr => e.run r (hrun r hr)
    runNode := fun r hr => e.runNode r (hrun r hr)
    link := fun r f hr hf o ho => e.link r o (Set.disjoint_left.mp (h.disjoint_link hb hr hf ho) hx) }

/-! ### What depends on them -/

section Used
variable (e : SameUsed s s' ls lm)
include e

theorem SameUsed.runAt (r : Nat) : RunAt s' ls r ↔ RunAt s ls r :=
  RunAt.congr fun c hc => by rw [e.small c hc]

theorem SameUsed.runs (h : SmallInv s ls pool) {r : Nat} (hr : RunAt s ls r) : ∃ f, Run s r f ∧ Run s' r f := by
  obtain ⟨f, hf⟩ := h.run r hr
  exact ⟨f, hf, hf.congr (e.run r hr) (e.link r f hr hf)⟩

theorem SameUsed.smallInv (h : SmallInv s ls pool) : SmallInv s' ls pool := by
  refine ⟨h.chunks.of_nodes (fun c hc => e.chunkNode c (.inl hc)) e.smallPool e.mediumPool, fun c hc => ?_,
    fun r hr => ?_, fun k hk => ?_, fun k hk r => ?_⟩
  · obtain ⟨h₁, h₂, h₃, h₄, h₅⟩ := h.chunk c hc
    have hsmall := e.small c hc
    exact ⟨h₁, by rw [e.header c (.inl hc), h₂], by rwa [hsmall], by rw [hsmall, h₄],
      by rw [e.chunkNode c (.inl hc), hsmall, h₅]⟩
  · obtain ⟨f, -, hf⟩ := e.runs h ((e.runAt r).mp hr)
    exact ⟨f, hf⟩
  · rw [e.runPool]
    exact (h.pools k hk).congr fun q hq => e.runNode q ((h.mem k hk q).mp hq).1
  · rw [e.runAt, h.mem k hk r]
    refine and_congr_right fun hr => ?_
    rw [e.run r hr]

theorem SameUsed.mediumChunk {c : Nat} {l : List Nat} (m : MediumChunk s c l) (hc : c ∈ lm) : MediumChunk s' c l := by
  have hd := e.medium c hc
  exact ⟨by rw [e.header c (.inr hc), m.header],
    m.layout.congr hd.up hd.down hd.type hd.root hd.size hd.freeSize (e.node c hc l m),
    by rw [e.chunkNode c (.inr hc), hd.maxSize, m.key], by rw [hd.maxSize]; exact m.maxSize⟩

theorem SameUsed.heap (h : HeapOk s ls lm pool) : HeapOk s' ls lm pool where
  small := e.smallInv h.small
  mediums := h.mediums.of_nodes (fun c hc => e.chunkNode c (.inr hc)) e.smallPool e.mediumPool
  medium c hc := by
    obtain ⟨l, m⟩ := h.medium c hc
    exact ⟨l, e.mediumChunk m hc⟩
  toArenasHold := h.toArenasHold.congr e.arenas
  used c hc := by
    rw [(e.medium c hc).freeSize]
    exact h.used c hc

/-- Without links left before, none are there after. -/
theorem SameUsed.unstale (h : HeapInv s ls lm pool) (h' : HeapInv s' ls lm pool) {k : BlockKind} {pos n : Nat}
    (hb : Block s ls lm k pos n) (hb' : Block s' ls lm k pos n) (hu : Unstale s pos) : Unstale s' pos := by
  refine (h'.unstale_iff hb').mpr fun hk => ?_
  subst hk
  obtain ⟨hr, -⟩ := h.small_run hb
  have hu := (h.unstale_iff hb).mp hu rfl
  unfold Unlinked at *
  rwa [e.run _ hr, e.runNode _ hr]

theorem SameUsed.usedSlot (h : SmallInv s ls pool) {r : Nat} (hr : RunAt s ls r) (o : Nat) :
    UsedSlot s' r o ↔ UsedSlot s r o := by
  obtain ⟨f, hf, hf'⟩ := e.runs h hr
  rw [hf.usedSlot_iff, hf'.usedSlot_iff, e.run r hr]

/-- The blocks are the same. -/
theorem SameUsed.block (h : HeapInv s ls lm pool) (k : BlockKind) (pos n : Nat) :
    Block s' ls lm k pos n ↔ Block s ls lm k pos n := by
  cases k with
  | small =>
    refine exists_congr fun r => exists_congr fun o => ?_
    rw [e.runAt r]
    refine and_congr_right fun hr => ?_
    rw [e.usedSlot h.small hr o, e.run r hr]
  | medium =>
    refine exists_congr fun c => and_congr_right fun hc => exists_congr fun p => exists_congr fun m => ?_
    have hd := e.medium c hc
    simp only [UsedUnit, hd.type, hd.up]
  | large => exact LargeBlock.congr e.arenas

end Used

/-- A write in a block is seen in its byte only. -/
theorem HeapOk.overwrite (h : HeapOk s ls lm pool) {k : BlockKind} {pos n : Nat} (hb : Block s ls lm k pos n)
    {x : Nat × Nat} (hx : x ∈ bytes pos n) (e : Overwrites s s' x) : HeapOk s' ls lm pool ∧
      (∀ k q m, Block s' ls lm k q m ↔ Block s ls lm k q m) ∧ s'.arenas = s.arenas ∧
      ∀ k q m, Block s ls lm k q m → q ≠ pos → SameBytes s s' q m := by
  have u := h.overwrites hb hx e
  refine ⟨u.heap h, u.block h.toHeapInv, u.arenas, fun k q m hq hne y hy => e.data y.1 y.2 ?_⟩
  rintro rfl
  exact Set.disjoint_left.mp (h.disjoint hq hb hne) hy hx

end

end ShmMalloc
