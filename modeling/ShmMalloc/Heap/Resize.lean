import ShmMalloc.Heap.Calls
import ShmMalloc.Heap.Overwrite

/-! `shm_realloc` of a live position.

It keeps the block if the size that `check_arena` finds is enough or is 0. Otherwise the
block moves, unless the request is refused; so a block whose size is not found is kept
whatever is asked for. -/
namespace ShmMalloc
open Library

/-- There is a block of `n` bytes at a position. -/
def HasBlock (s : Shm) (pos n : Nat) : Prop :=
  ∃ ls lm pool k, HeapInv s ls lm pool ∧ Block s ls lm k pos n

/-- The memory after clients have written what they like in blocks. -/
inductive Overwritten : Shm → Shm → Prop where
  | refl (s : Shm) : Overwritten s s
  | write {s t u : Shm} {pos n : Nat} {x : Nat × Nat} (h : Overwritten s t) (hb : HasBlock t pos n)
    (hx : x ∈ bytes pos n) (e : Overwrites t u x) : Overwritten s u

/-- A block of `c` bytes at `pos`, after a request for `size` bytes in its place that returns `ret`. -/
structure Resized (s s' : Shm) (pos c size ret : Nat) : Prop where
  null : ret = 0 → HasBlock s' pos c ∧ SameBytes s s' pos c
  block : ret ≠ 0 → ∃ n, HasBlock s' ret n ∧ size ≤ n
  bytes : ret ≠ 0 → ∀ j < min c size, s'.data (pos2index ret) (pos2offset ret + j) = s.data (pos2index pos) (pos2offset pos + j)
  gone : ret ≠ 0 → ret ≠ pos → ∀ n, ¬HasBlock s' pos n
  others : ∀ q n, HasBlock s q n → q ≠ pos → HasBlock s' q n ∧ SameBytes s s' q n

/-- No arena is created: there is no entry for it, or the system refuses. -/
def NoArena (s : Shm) (os : Os) : Prop := findEmptyArena s 127 1 = none ∨ ∀ m, os ≠ .created m

section
variable {s s' : Shm} {ls lm ls' lm' : List Nat} {pool pool' : Nat → List Nat}

/-! ### Blocks by position -/

theorem HeapInv.block_iff (h : HeapInv s ls lm pool) (h' : HeapInv s ls' lm' pool') (k : BlockKind) (pos n : Nat) :
    Block s ls lm k pos n ↔ Block s ls' lm' k pos n := by
  have hs : ∀ c, c ∈ ls ↔ c ∈ ls' := fun c => h.small_iff.trans h'.small_iff.symm
  have hm : ∀ c, c ∈ lm ↔ c ∈ lm' := fun c => h.medium_iff.trans h'.medium_iff.symm
  cases k with
  | small =>
    have hat : ∀ r, RunAt s ls r ↔ RunAt s ls' r := fun r => by
      unfold RunAt
      simp only [hs]
    exact SmallBlock.congr hat rfl rfl pos n
  | medium => exact MediumBlock.congr (fun c p m => by rw [hm]) pos n
  | large => exact .rfl

theorem HeapInv.hasBlock_iff (h : HeapInv s ls lm pool) {pos n : Nat} :
    HasBlock s pos n ↔ ∃ k, Block s ls lm k pos n := by
  constructor
  · rintro ⟨ls', lm', pool', k, h', hb⟩
    exact ⟨k, (h'.block_iff h k pos n).mp hb⟩
  · rintro ⟨k, hb⟩
    exact ⟨ls, lm, pool, k, h, hb⟩

theorem HeapInv.hasBlock_unique (h : HeapInv s ls lm pool) {k : BlockKind} {pos n m : Nat}
    (hb : Block s ls lm k pos n) (hm : HasBlock s pos m) : m = n := by
  obtain ⟨k', hb'⟩ := h.hasBlock_iff.mp hm
  exact (h.block_unique hb' hb).2

/-! ### What clients have written -/

theorem SameUsed.refl (s : Shm) (ls lm : List Nat) : SameUsed s s ls lm :=
  ⟨rfl, rfl, rfl, rfl, fun _ _ => rfl, fun _ _ => rfl, fun _ _ => rfl, fun _ _ => ⟨rfl, rfl, rfl, rfl, rfl, rfl, rfl⟩,
    fun _ _ _ _ _ _ => rfl, fun _ _ => rfl, fun _ _ => rfl, fun _ _ _ _ _ _ => rfl⟩

theorem SameDetial.trans {d d' d'' : ChunkMediumDetial} (h : SameDetial d d') (h' : SameDetial d' d'') : SameDetial d d'' :=
  ⟨h'.maxSize.trans h.maxSize, h'.freeSize.trans h.freeSize, h'.root.trans h.root, h'.size.trans h.size,
    h'.type.trans h.type, h'.up.trans h.up, h'.down.trans h.down⟩

theorem SameUsed.trans {s'' : Shm} (e : SameUsed s s' ls lm) (e' : SameUsed s' s'' ls lm) : SameUsed s s'' ls lm where
  arenas := e'.arenas.trans e.arenas
  runPool := e'.runPool.trans e.runPool
  smallPool := e'.smallPool.trans e.smallPool
  mediumPool := e'.mediumPool.trans e.mediumPool
  header c hc := (e'.header c hc).trans (e.header c hc)
  chunkNode c hc := (e'.chunkNode c hc).trans (e.chunkNode c hc)
  small c hc := (e'.small c hc).trans (e.small c hc)
  medium c hc := (e.medium c hc).trans (e'.medium c hc)
  node c hc l m p hp := (e'.node c hc l (e.mediumChunk m hc) p hp).trans (e.node c hc l m p hp)
  run r hr := (e'.run r ((e.runAt r).mpr hr)).trans (e.run r hr)
  runNode r hr := (e'.runNode r ((e.runAt r).mpr hr)).trans (e.runNode r hr)
  link r f hr hf o ho := (e'.link r f ((e.runAt r).mpr hr) (hf.congr (e.run r hr) (e.link r f hr hf)) o ho).trans
    (e.link r f hr hf o ho)

/-- Writes in blocks are none in what the allocator has in use, however many there are. -/
theorem HeapOk.overwritten (h : HeapOk s ls lm pool) (e : Overwritten s s') :
    HeapOk s' ls lm pool ∧ SameUsed s s' ls lm ∧ s'.arenaAddrs = s.arenaAddrs ∧ s'.sys = s.sys := by
  induction e with
  | refl => exact ⟨h, .refl _ ls lm, rfl, rfl⟩
  | write _ hb hx e ih =>
    obtain ⟨ht, hsame, haddrs, hsys⟩ := ih
    obtain ⟨k, hb⟩ := ht.hasBlock_iff.mp hb
    have hu := ht.overwrites hb hx e
    exact ⟨hu.heap ht, hsame.trans hu, e.arenaAddrs.trans haddrs, e.sys.trans hsys⟩

/-! ### The kept and the moved block -/

/-- A request that leaves the heap as it was has been refused, or had a block that was enough. -/
theorem HeapOk.resized_same (h : HeapOk s ls lm pool) (e : SameHeap s s') {k : BlockKind} {pos n size ret : Nat}
    (hb : Block s ls lm k pos n) (hr : ret = 0 ∨ ret = pos ∧ size ≤ n) : Resized s s' pos n size ret := by
  have hsame := e.blocks h.toChunksOk
  have h' := h.same e
  have hkept : ∀ q x, HasBlock s q x → HasBlock s' q x ∧ SameBytes s s' q x := fun q x hx => by
    obtain ⟨k, hx⟩ := h.hasBlock_iff.mp hx
    exact ⟨h'.hasBlock_iff.mpr ⟨k, (hsame.blocks k q x).mpr hx⟩, hsame.bytes k q x hx⟩
  have hpos : HasBlock s pos n := h.hasBlock_iff.mpr ⟨k, hb⟩
  refine ⟨fun _ => hkept pos n hpos, fun hne => ?_, fun hne j hj => ?_, fun hne hp => ?_, fun q x hx _ => hkept q x hx⟩
  · obtain ⟨rfl, hle⟩ := hr.resolve_left hne
    exact ⟨n, (hkept ret n hpos).1, hle⟩
  · obtain ⟨rfl, -⟩ := hr.resolve_left hne
    rw [e.data]
  · exact absurd (hr.resolve_left hne).1 hp

theorem HeapOk.resized_moved (h : HeapOk s ls lm pool) (h' : HeapOk s' ls' lm' pool') {kind : BlockKind}
    {pos n size ret m : Nat} (hne : ret ≠ 0) (hle : size ≤ m)
    (hm : Moved s s' ls lm ls' lm' pos n size kind ret m) : Resized s s' pos n size ret := by
  refine ⟨fun he => absurd he hne, fun _ => ⟨m, h'.hasBlock_iff.mpr ⟨kind, (hm.blocks _ _ _).mpr (.inr ⟨rfl, rfl, rfl⟩)⟩, hle⟩,
    fun _ j hj => hm.copied hle j (by omega), fun _ hp x hx => ?_, fun q x hx hq => ?_⟩
  · obtain ⟨k', hx⟩ := h'.hasBlock_iff.mp hx
    rcases (hm.blocks _ _ _).mp hx with ⟨-, hq⟩ | ⟨-, he, -⟩
    · exact hq rfl
    · exact hp he.symm
  · obtain ⟨k', hx⟩ := h.hasBlock_iff.mp hx
    exact ⟨h'.hasBlock_iff.mpr ⟨k', (hm.blocks _ _ _).mpr (.inl ⟨hx, hq⟩)⟩, hm.bytes hle k' q x hx hq⟩

/-! ### Arenas that are refused -/

theorem TableOk.calm_shmat (hT : TableOk s) (hc : Calm s s') : s'.sys.shmat = s.sys.shmat := by
  induction hc with
  | refl => rfl
  | quiet hc q ih => rw [q.sys, ih]
  | look hc e ih =>
    cases lookup_cases (hT.calm hc) e with
    | current => exact ih
    | gone => exact (detachArena_shmat _ _).trans ih
    | attached => exact (detachArena_shmat _ _).trans ih

/-- A segment of the arena's key is attached, be it new or not. -/
theorem TableOk.mmapNewArena_some (hT : TableOk s) (hat : Attaching s.sys.shmat) {shmid : Nat} (hm : shmid ≠ 0)
    (index : Nat) : (mmapNewArena s index shmid).2.2 ≠ none := by
  have hget : (s.sys.shmget index shmid).2 ≠ 0 := by
    obtain ⟨m, hk, h⟩ | ⟨-, h⟩ := s.sys.shmget_cases index shmid <;> rw [h]
    · exact hT.key index m hk
    · exact hm
  intro hnone
  have hmap : ((s.sys.shmget index shmid).1.mmap (s.sys.shmget index shmid).2).2 = none := hnone
  obtain hz | hz := (Sysv.mmap_none (Prod.ext rfl hmap)).1
  · exact hget hz
  · have hsome := hat _ (s.sys.shmget index shmid).1.attaches (s.sys.shmget index shmid).1.attached hget
    rw [Sysv.shmget_shmat] at hz
    rw [hz] at hsome
    cases hsome

theorem newArena_none (hT : TableOk s) (hat : Attaching s.sys.shmat) {type : ArenaType} {size : Nat} {os : Os}
    (hos : ∀ m, os.shmid = some m → m ≠ 0) {r : Option Nat} (hrun : newArena s type size os = .ok (s', r)) :
    r = none ↔ NoArena s os := by
  obtain ⟨-, ⟨rfl, -, hf⟩ | ⟨index, hf, h⟩⟩ := newArena_cases hrun
  · exact iff_of_true rfl (.inl hf)
  obtain ⟨rfl | rfl, -, rfl⟩ | ⟨m, rfl, -, rfl⟩ | ⟨m, rfl, hnone, -⟩ | ⟨m, addr, rfl, -, -, rfl⟩ := h
  · exact iff_of_true rfl (.inr fun _ he => by cases he)
  · exact iff_of_true rfl (.inr fun _ he => by cases he)
  · exact iff_of_true rfl (.inr fun _ he => by cases he)
  · exact absurd hnone (hT.mmapNewArena_some hat (hos m rfl) index)
  · refine iff_of_false (Option.some_ne_none _) fun hn => ?_
    rcases hn with hn | hn
    · rw [hf] at hn
      cases hn
    · exact hn m rfl

/-- A large request is refused when no arena is created. -/
theorem TableOk.mallocArena_null (hT : TableOk s) (hat : Attaching s.sys.shmat) {size pos : Nat} {os : Os}
    (hsize : 2 ^ 20 - 4096 < size) (hos : ∀ m, os.shmid = some m → m ≠ 0)
    (hrun : mallocArena s size os = .ok (s', pos)) : pos = 0 ↔ NoArena s os := by
  rw [mallocArena_large_eq hsize] at hrun
  obtain ⟨⟨s₁, o⟩, hnew, hrun⟩ := Exec.bind_ok hrun
  rw [← newArena_none hT hat hos hnew]
  obtain ⟨rfl, -⟩ | ⟨index, shmid, rfl, hi, -, -, -, -, ha⟩ := newArena_step hnew
  · obtain ⟨-, rfl⟩ := Prod.mk.inj (Except.ok.inj hrun)
    exact iff_of_true rfl rfl
  · obtain ⟨-, rfl⟩ := Prod.mk.inj (Except.ok.inj hrun)
    refine iff_of_false ?_ (Option.some_ne_none _)
    show index2pos (s₁.arenas index).index 0 ≠ 0
    rw [ha.self, index2pos_eq (by omega)]
    show index * 2 ^ 32 + 0 ≠ 0
    omega

theorem NoArena.same {os : Os} (e : SameHeap s s') : NoArena s' os ↔ NoArena s os := by
  have hfind : ∀ n i, findEmptyArena s' n i = findEmptyArena s n i := fun n => by
    induction n with
    | zero => exact fun _ => rfl
    | succ n ih => exact fun i => by simp only [findEmptyArena, e.arenas, ih]
  unfold NoArena
  rw [hfind]

/-- A block that has to move for a large request stays when no arena is created. -/
theorem HeapOk.realloc_null (h : HeapOk s ls lm pool) (hT : TableOk s) (hat : Attaching s.sys.shmat) {k : BlockKind}
    {pos n size ret : Nat} (hb : Block s ls lm k pos n) (hn : n < size ∧ checkedSize k pos n = n ∧ n ≠ 0)
    (hsize : 2 ^ 20 - 4096 < size) {os : Os} (hos : ∀ m, os.shmid = some m → m ≠ 0)
    (hrun : shmRealloc s pos size os = .ok (s', ret)) : ret = 0 ↔ NoArena s os := by
  obtain ⟨s₁, hcheck, e₁, hT₁⟩ := h.check_total hT hb
  rw [shmRealloc_eq (h.pos_ne hb), hcheck, Exec.ok_bind, hn.2.1] at hrun
  dsimp only at hrun
  rw [if_pos ⟨hn.1, hn.2.2⟩] at hrun
  obtain ⟨⟨s₂, ret'⟩, hmalloc, hrun⟩ := Exec.bind_ok hrun
  have hsys : s₁.sys.shmat = s.sys.shmat := hT.calm_shmat (checkArena_writes hcheck).calm
  have hret : ret = ret' := by
    dsimp only at hrun
    split at hrun
    · obtain ⟨s₃, _, hrun⟩ := Exec.bind_ok hrun
      obtain ⟨s₄, _, hrun⟩ := Exec.bind_ok hrun
      obtain ⟨s₅, _, hrun⟩ := Exec.bind_ok hrun
      exact (Prod.mk.inj (Except.ok.inj hrun)).2.symm
    · exact (Prod.mk.inj (Except.ok.inj hrun)).2.symm
  rw [hret, hT₁.mallocArena_null (hsys ▸ hat) hsize hos hmalloc, NoArena.same e₁]

/-! ### The exact condition -/

/-- A block that is not enough moves to one that is, or the request is refused. -/
def Resizes (s : Shm) (kind : BlockKind) (pos c size : Nat) (os : Os) : Prop :=
  kind ≠ .medium ∧ pos2offset pos < 2 ^ 20 ∧ c ≠ 0 ∧ (kindOf size = .medium → FirstFits s size) ∧
    (size ≤ 2 ^ 64 - 2 ^ 20 ∨ NoArena s os)

theorem checkedSize_eq_iff {k : BlockKind} {pos n : Nat} (hn : n ≠ 0) :
    checkedSize k pos n = n ↔ k ≠ .medium ∧ pos2offset pos < 2 ^ 20 := by
  unfold checkedSize
  split
  · next hc => exact iff_of_true rfl hc
  · next hc => exact iff_of_false hn.symm hc

theorem HeapOk.resized_iff (h : HeapOk s ls lm pool) (hT : TableOk s) (hat : Attaching s.sys.shmat) {k : BlockKind}
    {pos n size : Nat} (hb : Block s ls lm k pos n) (hu : Unstale s pos) (hsize : size < 2 ^ 64) {os : Os}
    (hos : ∀ m, os.shmid = some m → m ≠ 0) :
    (∃ s' ret, shmRealloc s pos size os = .ok (s', ret) ∧ Resized s s' pos n size ret) ↔
      size ≤ n ∨ Resizes s k pos n size os := by
  have htotal := h.realloc_total hT hb hu hsize hos
  constructor
  · rintro ⟨s', ret, hrun, hres⟩
    have hfits := htotal.mp ⟨s', ret, hrun⟩
    have hresizes : n < size ∧ checkedSize k pos n = n ∧ n ≠ 0 → size ≤ 2 ^ 64 - 2 ^ 20 ∨ NoArena s os →
        Resizes s k pos n size os := fun hn hr => by
      obtain ⟨hkind, hoff⟩ := (checkedSize_eq_iff hn.2.2).mp hn.2.1
      rw [hn.2.1] at hfits
      exact ⟨hkind, hoff, hn.2.2, hfits ⟨hn.1, hn.2.2⟩, hr⟩
    cases h.realloc hb hu hsize hrun with
    | kept e =>
      obtain ⟨m, hm, hle⟩ := hres.block (h.pos_ne hb)
      rw [(h.same e).hasBlock_unique (((e.blocks h.toChunksOk).blocks _ _ _).mpr hb) hm] at hle
      exact .inl hle
    | refused e hn =>
      refine .inr (hresizes hn ?_)
      by_cases hle : size ≤ 2 ^ 64 - 2 ^ 20
      · exact .inl hle
      · exact .inr ((h.realloc_null hT hat hb hn (by omega) hos hrun).mp rfl)
    | moved hn hne hm h' _ hmoved =>
      obtain ⟨m', hm', hle⟩ := hres.block hne
      rw [h'.hasBlock_unique ((hmoved.blocks _ _ _).mpr (.inr ⟨rfl, rfl, rfl⟩)) hm'] at hle
      exact .inr (hresizes hn (.inl (hm.mp hle)))
  · intro hc
    have hfits : size > checkedSize k pos n ∧ checkedSize k pos n ≠ 0 → kindOf size = .medium → FirstFits s size := by
      rintro ⟨hlt, hne⟩
      rw [(checkedSize_cases k pos n).resolve_right hne] at hlt
      exact (hc.resolve_left (by omega)).2.2.2.1
    obtain ⟨s', ret, hrun⟩ := htotal.mpr hfits
    refine ⟨s', ret, hrun, ?_⟩
    cases h.realloc hb hu hsize hrun with
    | kept e hk =>
      refine h.resized_same e hb (.inr ⟨rfl, ?_⟩)
      rcases hc with hle | ⟨hkind, hoff, hne, -⟩
      · exact hle
      · rw [(checkedSize_eq_iff hne).mpr ⟨hkind, hoff⟩] at hk
        exact hk.resolve_right hne
    | refused e => exact h.resized_same e hb (.inl rfl)
    | moved hn hne hm h' _ hmoved =>
      refine h.resized_moved h' hne (hm.mpr ?_) hmoved
      by_contra hgt
      have hnull := (hc.resolve_left (by omega)).2.2.2.2.resolve_left hgt
      exact hne ((h.realloc_null hT hat hb hn (by omega) hos hrun).mpr hnull)

end

/-- **`shm_realloc` of a live position**, whatever clients have written in their blocks, and after the
lookups of arenas in use that its trees make, does what is promised if the block is enough, or
its size is found and the request can be served or refused, and only then. -/
theorem realloc_live {w : HeapWorld} {pid : Nat} {shmat : Nat → Nat → List Attach → Option Nat} {s t : Shm}
    (h : Caller w pid shmat s) (ht : Overwritten s t) {pos size₀ : Nat} (hb : (pos, size₀) ∈ w.live) (hu : Unstale s pos) {size : Nat}
    (hsize : size < 2 ^ 64) {os : Os} (hos : ∀ m, os.shmid = some m → NewId w.world m) {visits : List Nat}
    (hv : ∀ i ∈ visits, (s.arenas i).type ≠ .empty) :
    ∃ s₁ c, visit t visits = .ok s₁ ∧ SameHeap t s₁ ∧ HasBlock s₁ pos c ∧ Capacity s₁ pos size₀ c ∧
      ((∃ s' ret, shmRealloc s₁ pos size os = .ok (s', ret) ∧ Resized s₁ s' pos c size ret) ↔
        size ≤ c ∨ Resizes s₁ (kindOf size₀) pos c size os) := by
  obtain ⟨ls, lm, pool, hok, hl⟩ := h.heap
  obtain ⟨-, c, hblock, -⟩ := hl.block _ hb
  obtain ⟨hok', hsame, haddrs, hsys⟩ := hok.overwritten ht
  have hblock' := (hsame.block hok.toHeapInv _ _ _).mpr hblock
  have hT' : TableOk t := h.table.quiet (.of_eq hsame.arenas haddrs hsys)
  obtain ⟨s₁, hvisit, hT₁⟩ := hT'.visit_total fun i hi => by
    rw [hsame.arenas]
    exact hv i hi
  have e := visit_same hvisit
  have hok₁ := hok'.same e
  have hb₁ := ((e.blocks hok'.toChunksOk).blocks _ _ _).mpr hblock'
  have hu' := hsame.unstale hok.toHeapInv hok'.toHeapInv hblock hblock' hu
  have hat : Attaching s₁.sys.shmat := by
    rw [hT'.calm_shmat (visit_calm hvisit), hsys, h.load]
    exact h.attaching
  exact ⟨s₁, c, hvisit, e, hok₁.hasBlock_iff.mpr ⟨_, hb₁⟩, hok₁.capacity hb₁,
    hok₁.resized_iff hT₁ hat hb₁ (hu'.same e) hsize fun m hm => (hos m hm).pos⟩

/-- A byte's block is kept for a request of 100 bytes. -/
theorem realloc_keeps : ∃ w s s', Caller w 1 servingShmat s ∧ (2 ^ 20 + 4096 + 64, 1) ∈ w.live ∧
    Unstale s (2 ^ 20 + 4096 + 64) ∧
    shmRealloc s (2 ^ 20 + 4096 + 64) 100 .keyFails = .ok (s', 2 ^ 20 + 4096 + 64) ∧
    ∀ c, ¬Resized s s' (2 ^ 20 + 4096 + 64) c 100 (2 ^ 20 + 4096 + 64) := by
  obtain ⟨w, s, h, ht⟩ := exists_caller 1 [.init 1 10, .call 1 (.malloc 1) .keyFails] (p := fun w =>
    decide ((2 ^ 20 + 4096 + 64, 1) ∈ w.live ∧ Unstale w.world.shm (2 ^ 20 + 4096 + 64)) &&
      (shmRealloc (w.world.load (w.world.proc 1) servingShmat) (2 ^ 20 + 4096 + 64) 100 .keyFails).toOption.any
        fun r : Shm × Nat => decide (r.2 = 2 ^ 20 + 4096 + 64 ∧ (r.1.run (2 ^ 20 + 4096)).elemsize = 8)) (by decide +kernel)
  obtain ⟨hlive, ht⟩ := Bool.and_eq_true_iff.mp ht
  obtain ⟨hlive, hu⟩ := of_decide_eq_true hlive
  rw [← h.load] at ht
  obtain ⟨⟨s', ret⟩, hrun, hr⟩ := exists_ok ht
  obtain ⟨rfl, helem⟩ : ret = 2 ^ 20 + 4096 + 64 ∧ (s'.run (2 ^ 20 + 4096)).elemsize = 8 := of_decide_eq_true hr
  refine ⟨w, s, s', h, hlive, hu.same h.same, hrun, fun c hres => ?_⟩
  obtain ⟨n, ⟨ls, lm, pool, k, hinv, hb⟩, hle⟩ := hres.block (by decide)
  obtain rfl : .small = k := (by decide : kindAt (2 ^ 20 + 4096 + 64) = .small).symm.trans (hinv.kindAt hb)
  have hn : (s'.run (2 ^ 20 + 4096)).elemsize = n := (hinv.small_run hb).2
  omega

/-- A large block may be replaced by another; its byte 5 is 7. -/
theorem realloc_live_test : ∃ w s, Caller w 1 servingShmat s ∧ Overwritten s (s.setByte 1 5 7) ∧
    ∃ s₁ c, visit (s.setByte 1 5 7) [] = .ok s₁ ∧ SameHeap (s.setByte 1 5 7) s₁ ∧ HasBlock s₁ (2 ^ 32) c ∧
    Capacity s₁ (2 ^ 32) (2 ^ 20) c ∧ ((∃ s' ret, shmRealloc s₁ (2 ^ 32) (2 ^ 21) (.created 12) = .ok (s', ret) ∧
      Resized s₁ s' (2 ^ 32) c (2 ^ 21) ret) ↔
      2 ^ 21 ≤ c ∨ Resizes s₁ (kindOf (2 ^ 20)) (2 ^ 32) c (2 ^ 21) (.created 12)) := by
  obtain ⟨w, s, h, ht⟩ := exists_caller 1 sharedOrders
    (p := fun w => decide ((2 ^ 32, 2 ^ 20) ∈ w.live ∧ Unstale w.world.shm (2 ^ 32) ∧ NewId w.world 12)) (by decide +kernel)
  obtain ⟨hlive, hu, hid⟩ := of_decide_eq_true ht
  obtain ⟨ls, lm, pool, hok, hl⟩ := h.heap
  obtain ⟨-, n, hb, hn⟩ := hl.block _ hlive
  have hn := hn.mpr (by decide)
  have hin : ((1, 5) : Nat × Nat) ∈ bytes (2 ^ 32) n :=
    bytes_le hn _ (by decide : ((1, 5) : Nat × Nat) ∈ bytes (2 ^ 32) (2 ^ 20))
  have hw : Overwritten s (s.setByte 1 5 7) :=
    .write (.refl s) (hok.hasBlock_iff.mpr ⟨_, hb⟩) hin (s.setByte_overwrites 1 5 7)
  have hos : ∀ m, (Os.created 12).shmid = some m → NewId w.world m := fun m hm => Option.some.inj hm ▸ hid
  exact ⟨w, s, h, hw, realloc_live h hw hlive (hu.same h.same) (by decide) hos fun i hi => absurd hi List.not_mem_nil⟩

end ShmMalloc
