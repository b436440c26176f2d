import ShmMalloc.Heap.Block

/-! What a change of the arena table leaves of the chunks.

Lookups, and the creation and deletion of arenas and slots, are not about any chunk;
`memset` of a new arena is about the objects in that arena only. -/
namespace ShmMalloc

/-- The objects in these arenas are the same, but for the context's bytes, and the pools are. -/
structure SameIn (A : Nat → Prop) (s s' : Shm) : Prop where
  header : ∀ p, A (pos2index p) → s'.header p = s.header p
  chunkNode : ∀ p, A (pos2index p) → s'.chunkNode p = s.chunkNode p
  small : ∀ p, A (pos2index p) → s'.small p = s.small p
  medium : ∀ p, A (pos2index p) → s'.medium p = s.medium p
  run : ∀ p, A (pos2index p) → s'.run p = s.run p
  runNode : ∀ p, A (pos2index p) → s'.runNode p = s.runNode p
  link : ∀ p, A (pos2index p) → s'.link p = s.link p
  data : ∀ y, A y.1 → y ∉ bytes 0 (2 ^ 20) → s'.data y.1 y.2 = s.data y.1 y.2
  runPool : s'.runPool = s.runPool
  smallPool : s'.chunkSmallPool = s.chunkSmallPool
  mediumPool : s'.chunkMediumPool = s.chunkMediumPool

/-- Nothing but the process's table and the system differs. -/
structure SameHeap (s s' : Shm) : Prop where
  arenas : s'.arenas = s.arenas
  objects : SameIn (fun _ => True) s s'
  data : s'.data = s.data

section
variable {A : Nat → Prop} {s s' s'' : Shm}

theorem SameIn.refl (A : Nat → Prop) (s : Shm) : SameIn A s s :=
  ⟨fun _ _ => rfl, fun _ _ => rfl, fun _ _ => rfl, fun _ _ => rfl, fun _ _ => rfl, fun _ _ => rfl,
    fun _ _ => rfl, fun _ _ _ => rfl, rfl, rfl, rfl⟩

theorem SameIn.trans (h : SameIn A s s') (h' : SameIn A s' s'') : SameIn A s s'' where
  header p hp := (h'.header p hp).trans (h.header p hp)
  chunkNode p hp := (h'.chunkNode p hp).trans (h.chunkNode p hp)
  small p hp := (h'.small p hp).trans (h.small p hp)
  medium p hp := (h'.medium p hp).trans (h.medium p hp)
  run p hp := (h'.run p hp).trans (h.run p hp)
  runNode p hp := (h'.runNode p hp).trans (h.runNode p hp)
  link p hp := (h'.link p hp).trans (h.link p hp)
  data y hy hc := (h'.data y hy hc).trans (h.data y hy hc)
  runPool := h'.runPool.trans h.runPool
  smallPool := h'.smallPool.trans h.smallPool
  mediumPool := h'.mediumPool.trans h.mediumPool

theorem SameIn.mono {B : Nat → Prop} (h : SameIn A s s') (hle : ∀ i, B i → A i) : SameIn B s s' where
  header p hp := h.header p (hle _ hp)
  chunkNode p hp := h.chunkNode p (hle _ hp)
  small p hp := h.small p (hle _ hp)
  medium p hp := h.medium p (hle _ hp)
  run p hp := h.run p (hle _ hp)
  runNode p hp := h.runNode p (hle _ hp)
  link p hp := h.link p (hle _ hp)
  data y hy := h.data y (hle _ hy)
  runPool := h.runPool
  smallPool := h.smallPool
  mediumPool := h.mediumPool

theorem SameHeap.refl (s : Shm) : SameHeap s s := ⟨rfl, .refl _ s, rfl⟩

theorem SameHeap.trans (h : SameHeap s s') (h' : SameHeap s' s'') : SameHeap s s'' :=
  ⟨h'.arenas.trans h.arenas, h.objects.trans h'.objects, h'.data.trans h.data⟩

/-! ### Lookups -/

/-- The table and the system are written. -/
theorem SameHeap.write (s : Shm) (t : Nat → ShmArenaAddr) (y : Sysv) :
    SameHeap s {s with arenaAddrs := t, sys := y} :=
  ⟨rfl, ⟨fun _ _ => rfl, fun _ _ => rfl, fun _ _ => rfl, fun _ _ => rfl, fun _ _ => rfl, fun _ _ => rfl,
    fun _ _ => rfl, fun _ _ _ => rfl, rfl, rfl, rfl⟩, rfl⟩

theorem dropArenaAddr_same {index : Nat} (h : dropArenaAddr s index = .ok s') : SameHeap s s' := by
  unfold dropArenaAddr at h
  split at h
  · split at h
    · cases h
    · obtain rfl := Except.ok.inj h
      exact .write s _ _
  · obtain rfl := Except.ok.inj h
    exact .refl s

theorem getOrUpdateArenaAddr_same {index : Nat} {r : Option Nat}
    (h : getOrUpdateArenaAddr s index = .ok (s', r)) : SameHeap s s' := by
  unfold getOrUpdateArenaAddr at h
  split at h
  · obtain ⟨s₁, h₁, h⟩ := Exec.bind_ok h
    refine (dropArenaAddr_same h₁).trans ?_
    split at h
    · obtain ⟨⟨s₂, addr⟩, h₂, h⟩ := Exec.bind_ok h
      obtain ⟨-, y, -, rfl⟩ := mmapArena_ok h₂
      obtain ⟨rfl, -⟩ := Prod.mk.inj (Except.ok.inj h)
      exact .write s₁ _ _
    · obtain ⟨rfl, -⟩ := Prod.mk.inj (Except.ok.inj h)
      exact .refl s₁
  · obtain ⟨rfl, -⟩ := Prod.mk.inj (Except.ok.inj h)
    exact .refl s

theorem getOrUpdateAddr_same {pos : Nat} (h : getOrUpdateAddr s pos = .ok s') : SameHeap s s' := by
  obtain ⟨-, addr, hlook⟩ := getOrUpdateAddr_cases h
  exact getOrUpdateArenaAddr_same hlook

theorem visit_same {visits : List Nat} (h : visit s visits = .ok s') : SameHeap s s' := by
  induction visits generalizing s with
  | nil =>
    obtain rfl := Except.ok.inj h
    exact .refl s
  | cons index visits ih =>
    obtain ⟨⟨s₁, addr⟩, h₁, h⟩ := Exec.bind_ok h
    dsimp only at h
    split at h
    · cases h
    · exact (getOrUpdateArenaAddr_same h₁).trans (ih h)

/-- A position in an arena in use has an address. -/
theorem TableOk.getOrUpdateAddr_total (h : TableOk s) {pos : Nat} (hp : pos ≠ 0)
    (hi : (s.arenas (pos2index pos)).type ≠ .empty) :
    ∃ s', getOrUpdateAddr s pos = .ok s' ∧ SameHeap s s' ∧ TableOk s' := by
  obtain ⟨s', r, hrun, hr⟩ := h.lookup_total (pos2index pos)
  have hne : r.isNone = false := by
    rw [← Option.not_isSome, hr.mpr hi]
    rfl
  refine ⟨s', ?_, getOrUpdateArenaAddr_same hrun, h.look hrun⟩
  unfold getOrUpdateAddr
  rw [if_neg hp, hrun]
  show (if r.isNone = true then throw Fault.null else pure s' : Exec Shm) = .ok s'
  rw [hne]
  rfl

/-! ### The chunks -/

variable {ls lm : List Nat} {pool : Nat → List Nat}

theorem SmallInv.index_run (h : SmallInv s ls pool) {r : Nat} (hr : RunAt s ls r) :
    ∃ c ∈ ls, pos2index r = pos2index c := by
  obtain ⟨c, hc, p, hp, -, rfl⟩ := hr
  obtain ⟨i, k, -, hk, rfl⟩ := (h.chunk c hc).place
  have hlt := (mem_pages.mp hp).1
  refine ⟨_, hc, ?_⟩
  rw [pos2index_eq, pos2index_eq]
  omega

theorem RunAt.same (e : SameIn A s s') (hA : ∀ c ∈ ls, A (pos2index c)) {r : Nat} :
    RunAt s' ls r ↔ RunAt s ls r :=
  RunAt.congr fun c hc => by rw [e.small c (hA c hc)]

theorem SmallInv.same (h : SmallInv s ls pool) (e : SameIn A s s') (hA : ∀ c ∈ ls, A (pos2index c)) :
    SmallInv s' ls pool := by
  have hrun : ∀ r, RunAt s ls r → A (pos2index r) := fun r hr => by
    obtain ⟨c, hc, he⟩ := h.index_run hr
    exact he ▸ hA c hc
  have hat : ∀ r, RunAt s' ls r ↔ RunAt s ls r := fun r => RunAt.same e hA
  refine ⟨h.chunks.of_nodes (fun q hq => e.chunkNode q (hA q hq)) e.smallPool e.mediumPool,
    fun c hc => ?_, fun r hr => ?_, fun k hk => ?_, fun k hk r => ?_⟩
  · obtain ⟨h₁, h₂, h₃, h₄, h₅⟩ := h.chunk c hc
    have hc' := hA c hc
    exact ⟨h₁, by rw [e.header c hc', h₂], by rwa [e.small c hc'], by rw [e.small c hc', h₄],
      by rw [e.chunkNode c hc', e.small c hc', h₅]⟩
  · have hr' := (hat r).mp hr
    obtain ⟨f, hf⟩ := h.run r hr'
    exact ⟨f, hf.congr (e.run r (hrun r hr')) fun o _ => by rw [e.link r (hrun r hr')]⟩
  · rw [e.runPool]
    exact (h.pools k hk).congr fun q hq => e.runNode q (hrun q ((h.mem k hk q).mp hq).1)
  · rw [hat, h.mem k hk r]
    refine and_congr_right fun hr => ?_
    rw [e.run r (hrun r hr)]

theorem MediumChunk.same {c : Nat} {l : List Nat} (m : MediumChunk s c l) (e : SameIn A s s')
    (hA : A (pos2index c)) : MediumChunk s' c l :=
  ⟨by rw [e.header c hA, m.header], by rw [e.medium c hA]; exact m.layout,
    by rw [e.chunkNode c hA, e.medium c hA, m.key], by rw [e.medium c hA]; exact m.maxSize⟩

theorem ChunksOk.same (h : ChunksOk s ls lm pool) (e : SameIn A s s') (hs : ∀ c ∈ ls, A (pos2index c))
    (hm : ∀ c ∈ lm, A (pos2index c)) : ChunksOk s' ls lm pool := by
  refine ⟨h.small.same e hs, h.mediums.of_nodes (fun q hq => e.chunkNode q (hm q hq)) e.smallPool e.mediumPool,
    fun c hc => ?_⟩
  obtain ⟨l, m⟩ := h.medium c hc
  exact ⟨l, m.same e (hm c hc)⟩

theorem IsChunk.congr (e : s'.arenas = s.arenas) {c : Nat} : IsChunk s' c ↔ IsChunk s c := by
  unfold IsChunk
  rw [e]

theorem ArenasHold.congr (h : ArenasHold s ls lm) (e : s'.arenas = s.arenas) : ArenasHold s' ls lm :=
  ⟨e ▸ h.arenas, fun i => by rw [e]; exact h.arena i, fun c => (IsChunk.congr e).trans (h.registered c)⟩

/-- The heap is the same after a lookup. -/
theorem HeapInv.same (h : HeapInv s ls lm pool) (e : SameHeap s s') : HeapInv s' ls lm pool :=
  ⟨h.toChunksOk.same e.objects (fun _ _ => trivial) fun _ _ => trivial, h.toArenasHold.congr e.arenas⟩

/-! ### The blocks -/

theorem UsedSlot.same (e : SameIn A s s') {r : Nat} (hA : A (pos2index r)) (o : Nat) :
    UsedSlot s' r o ↔ UsedSlot s r o :=
  UsedSlot.congr (e.run r hA) (fun x => by rw [e.link r hA]) o

theorem SmallBlock.same (h : SmallInv s ls pool) (e : SameIn A s s') (hA : ∀ c ∈ ls, A (pos2index c))
    {pos n : Nat} : SmallBlock s' ls pos n ↔ SmallBlock s ls pos n := by
  have hrun : ∀ r, RunAt s ls r → A (pos2index r) := fun r hr => by
    obtain ⟨c, hc, he⟩ := h.index_run hr
    exact he ▸ hA c hc
  constructor
  · rintro ⟨r, o, hat, hu, hp, hn⟩
    have hr := (RunAt.same e hA).mp hat
    exact ⟨r, o, hr, (UsedSlot.same e (hrun r hr) o).mp hu, hp, by rw [hn, e.run r (hrun r hr)]⟩
  · rintro ⟨r, o, hr, hu, hp, hn⟩
    exact ⟨r, o, (RunAt.same e hA).mpr hr, (UsedSlot.same e (hrun r hr) o).mpr hu, hp,
      by rw [hn, e.run r (hrun r hr)]⟩

theorem MediumBlock.same (e : SameIn A s s') (hA : ∀ c ∈ lm, A (pos2index c)) {pos n : Nat} :
    MediumBlock s' lm pos n ↔ MediumBlock s lm pos n := by
  constructor
  · rintro ⟨c, hc, p, k, hu, hp, hn⟩
    exact ⟨c, hc, p, k, by rwa [e.medium c (hA c hc)] at hu, hp, hn⟩
  · rintro ⟨c, hc, p, k, hu, hp, hn⟩
    exact ⟨c, hc, p, k, by rwa [e.medium c (hA c hc)], hp, hn⟩

theorem LargeBlock.congr (e : s'.arenas = s.arenas) {pos n : Nat} : LargeBlock s' pos n ↔ LargeBlock s pos n := by
  unfold LargeBlock
  rw [e]

theorem Block.same (h : ChunksOk s ls lm pool) (e : SameHeap s s') {k : BlockKind} {pos n : Nat} :
    Block s' ls lm k pos n ↔ Block s ls lm k pos n := by
  cases k with
  | small => exact SmallBlock.same h.small e.objects fun _ _ => trivial
  | medium => exact MediumBlock.same e.objects fun _ _ => trivial
  | large => exact LargeBlock.congr e.arenas

end

end ShmMalloc
