import ShmMalloc.Heap.Blocks
import ShmMalloc.Heap.Resize

/-! When a request is refused.

What is free already is looked for first, then a place in the context for a new chunk,
then a new arena. A request for which all of this fails returns the null position, and
no other request does. -/
namespace ShmMalloc
open Library

/-- A new chunk has no place: the slots of the context are taken, and no arena is created. -/
def NoChunk (s : Shm) (os : Os) : Prop := ¬ContextRoom s ∧ NoArena s os

/-- Nothing that the heap has is enough for the request, and it gets nothing more. -/
def Full (s : Shm) (size : Nat) (os : Os) : Prop :=
  match kindOf size with
  | .small =>
    (∀ k r, findRunConfig size = .ok k → ¬HasRoom s k r) ∧
      (∀ c, IsChunk s c → (s.header c).type = .small → ∀ p < 256, bitmapGet (s.small c).bitmap p = true) ∧ NoChunk s os
  | .medium =>
    (∀ c, IsChunk s c → (s.header c).type = .medium → (s.medium c).maxSize * 4096 < size) ∧ NoChunk s os
  | .large => NoArena s os

section
variable {s s' : Shm} {ls lm : List Nat} {pool : Nat → List Nat} {os : Os}

/-! ### Chunks -/

theorem newChunk_null (h : ContextState s) (hT : TableOk s) (hat : Attaching s.sys.shmat)
    (hos : ∀ m, os.shmid = some m → m ≠ 0) {type : ChunkType} {r : Option Nat}
    (hrun : newChunk s type os = .ok (s', r)) : r = none ↔ NoChunk s os := by
  by_cases hroom : ContextRoom s
  · obtain ⟨k, h₁, -, -, hfind⟩ := findArenaChunk_room h hroom
    rw [newChunk_found hfind (by omega)] at hrun
    rw [startChunk_pos hrun]
    exact iff_of_false (Option.some_ne_none _) fun hn => hn.1 hroom
  obtain ⟨e, hfind, hempty⟩ := findArenaChunk_full h hroom
  by_cases he : e = 0
  · subst he
    rw [newChunk_none hfind] at hrun
    obtain ⟨-, rfl⟩ := Prod.mk.inj (Except.ok.inj hrun)
    exact iff_of_true rfl ⟨hroom, .inl (findEmptyArena_none.mpr (hempty.mp rfl))⟩
  · rw [newChunk_create hfind he] at hrun
    obtain ⟨⟨s₁, r₁⟩, hnew, hrun⟩ := Exec.bind_ok hrun
    have hnone := newArena_none hT hat hos hnew
    cases r₁ with
    | none =>
      obtain ⟨-, rfl⟩ := Prod.mk.inj (Except.ok.inj hrun)
      exact iff_of_true rfl ⟨hroom, hnone.mp rfl⟩
    | some index =>
      obtain ⟨-, -, hrun⟩ := Exec.bind_ok hrun
      rw [startChunk_pos hrun]
      exact iff_of_false (Option.some_ne_none _) fun hn => Option.some_ne_none _ (hnone.mpr hn.2)

/-- No chunk is had if none in the pool has the room, and none is new. -/
theorem ChunkPool.get_null {type : ChunkType} {l : List Nat} (p : ChunkPool s type l) (h : ContextState s) (hT : TableOk s)
    (hat : Attaching s.sys.shmat) (hos : ∀ m, os.shmid = some m → m ≠ 0) {size : Nat} (hsize : poolRoom type size < 2 ^ 31)
    {r : Option Nat} (hrun : getOrNewChunk s type size os = .ok (s', r)) :
    r = none ↔ (∀ c ∈ l, (s.chunkNode c).v.maxsize < poolRoom type size) ∧ NoChunk s os := by
  obtain ⟨o, hget, hsome, hnone⟩ := getAvaliableChunk_spec p size hsize
  rw [getOrNewChunk_eq, hget, Exec.ok_bind] at hrun
  cases o with
  | some c =>
    obtain ⟨-, rfl⟩ := Prod.mk.inj (Except.ok.inj hrun)
    obtain ⟨hc, hroom⟩ := hsome c rfl
    refine iff_of_false (Option.some_ne_none _) fun hn => ?_
    have := hn.1 c hc
    omega
  | none => rw [newChunk_null h hT hat hos hrun, and_iff_right (hnone rfl)]

/-- The key of a small chunk says whether all of its pages are in use. -/
theorem SmallChunk.full_iff {c : Nat} (h : SmallChunk s c) :
    (s.chunkNode c).v.maxsize < 1 ↔ ∀ p < 256, bitmapGet (s.small c).bitmap p = true := by
  have hall : (s.small c).used = 256 ↔ ∀ p < 256, bitmapGet (s.small c).bitmap p = true := by
    rw [h.used]
    unfold pages
    constructor
    · intro hcard p hp
      have hfull := Finset.filter_card_eq (hcard.trans (Finset.card_range 256).symm)
      exact hfull p (Finset.mem_range.mpr hp)
    · intro hall
      rw [Finset.filter_true_of_mem fun p hp => hall p (Finset.mem_range.mp hp), Finset.card_range]
  rw [← hall, h.key]
  by_cases hused : (s.small c).used = 256
  · simp only [hused, if_true, Nat.zero_lt_one]
  · simp only [hused, if_false, Nat.lt_irrefl]

/-! ### Requests -/

/-- A small request is refused. -/
theorem HeapOk.small_null (h : HeapOk s ls lm pool) (hT : TableOk s) (hat : Attaching s.sys.shmat)
    (hos : ∀ m, os.shmid = some m → m ≠ 0) {size pos : Nat} (h₁ : 0 < size) (h₂ : size ≤ 1920)
    (hrun : mallocArena s size os = .ok (s', pos)) : pos = 0 ↔ Full s size os := by
  have hfull : Full s size os ↔ (∀ k r, findRunConfig size = .ok k → ¬HasRoom s k r) ∧
      (∀ c, IsChunk s c → (s.header c).type = .small → ∀ p < 256, bitmapGet (s.small c).bitmap p = true) ∧
        NoChunk s os := by
    unfold Full kindOf
    rw [if_pos h₂]
  obtain ⟨k, hfind, hk, -⟩ := findRunConfig_spec h₁ h₂
  have hroot : (s.runPool k).root = 0 ↔ ∀ r, ¬HasRoom s k r := by
    rw [(h.small.pools k hk).root_eq_zero, List.eq_nil_iff_forall_not_mem]
    refine forall_congr' fun r => not_congr ?_
    unfold HasRoom
    rw [h.small.mem k hk, h.isRun_iff]
  have hchunks : (∀ c ∈ ls, (s.chunkNode c).v.maxsize < 1) ↔
      ∀ c, IsChunk s c → (s.header c).type = .small → ∀ p < 256, bitmapGet (s.small c).bitmap p = true := by
    constructor
    · exact fun hall c hc ht => (h.small.chunk c (h.small_iff.mpr ⟨hc, ht⟩)).full_iff.mp (hall c (h.small_iff.mpr ⟨hc, ht⟩))
    · intro hall c hc
      obtain ⟨hchunk, ht⟩ := h.small_iff.mp hc
      exact (h.small.chunk c hc).full_iff.mpr (hall c hchunk ht)
  rw [mallocArena_small_eq h₂, hfind, Exec.ok_bind] at hrun
  by_cases hempty : (s.runPool k).root = 0
  · have htry : tryRunPool s k = .ok (s, none) := by
      unfold tryRunPool
      rw [if_pos hempty]
      rfl
    rw [htry, Exec.ok_bind] at hrun
    obtain ⟨⟨s₁, o⟩, hget, hrun⟩ := Exec.bind_ok hrun
    have hnull := h.small.chunks.get_null h.arenas.contextState hT hat hos (show 1 < 2 ^ 31 by decide) hget
    rw [show poolRoom .small size = 1 from if_pos rfl, hchunks] at hnull
    have hnone : Full s size os ↔ o = none := by
      rw [hfull, hnull]
      refine and_iff_right fun j r hj => ?_
      obtain rfl := Except.ok.inj (hfind.symm.trans hj)
      exact hroot.mp hempty r
    rw [hnone]
    obtain ⟨rfl, e⟩ | ⟨c, ls', rfl, h₁, -, hc, hroom, hpool⟩ := h.get_small hget
    · obtain ⟨-, rfl⟩ := Prod.mk.inj (Except.ok.inj hrun)
      exact iff_of_true rfl rfl
    · obtain ⟨s₂, pos', -, -, hmal, hne, -⟩ := h₁.malloc_new_run hc hk hroom (by rw [hpool, hempty])
      obtain ⟨-, rfl⟩ := Prod.mk.inj (Except.ok.inj (hmal.symm.trans hrun))
      exact iff_of_false hne (Option.some_ne_none _)
  · obtain ⟨⟨s₁, r⟩, htry, hrun⟩ := Exec.bind_ok hrun
    obtain ⟨e, hr⟩ := tryRunPool_step htry
    rw [if_neg hempty] at hr
    subst hr
    obtain ⟨s₂, pos', -, hmal, hne, -⟩ := (h.same e).malloc_run hk (by rw [e.objects.runPool]) hempty
    obtain ⟨-, rfl⟩ := Prod.mk.inj (Except.ok.inj (hmal.symm.trans hrun))
    exact iff_of_false hne fun hf => hempty (hroot.mpr fun r => (hfull.mp hf).1 k r hfind)

/-- A request for pages is refused. -/
theorem HeapOk.medium_null (h : HeapOk s ls lm pool) (hT : TableOk s) (hat : Attaching s.sys.shmat)
    (hos : ∀ m, os.shmid = some m → m ≠ 0) {size pos : Nat} (h₁ : 1920 < size) (h₂ : size ≤ 2 ^ 20 - 4096)
    (hrun : mallocArena s size os = .ok (s', pos)) : pos = 0 ↔ Full s size os := by
  have hfull : Full s size os ↔
      (∀ c, IsChunk s c → (s.header c).type = .medium → (s.medium c).maxSize * 4096 < size) ∧ NoChunk s os := by
    unfold Full kindOf
    rw [if_neg (by omega), if_pos h₂]
  have hsize : poolRoom .medium size = size := by
    unfold poolRoom
    rw [if_neg (by decide), Nat.mod_eq_of_lt (by omega)]
  have hchunks : (∀ c ∈ lm, (s.chunkNode c).v.maxsize < size) ↔
      ∀ c, IsChunk s c → (s.header c).type = .medium → (s.medium c).maxSize * 4096 < size := by
    have hkey : ∀ c ∈ lm, (s.chunkNode c).v.maxsize = (s.medium c).maxSize * 4096 := fun c hc => by
      obtain ⟨l, hl⟩ := h.medium c hc
      rw [hl.key]
    constructor
    · intro hall c hc ht
      have hm := h.medium_iff.mpr ⟨hc, ht⟩
      exact hkey c hm ▸ hall c hm
    · intro hall c hc
      obtain ⟨hchunk, ht⟩ := h.medium_iff.mp hc
      exact hkey c hc ▸ hall c hchunk ht
  rw [mallocArena_medium_eq h₁ h₂] at hrun
  obtain ⟨⟨s₁, o⟩, hget, hrun⟩ := Exec.bind_ok hrun
  have hnull := h.mediums.get_null h.arenas.contextState hT hat hos (by omega) hget
  rw [hsize, hchunks, ← hfull] at hnull
  rw [← hnull]
  obtain ⟨c, hc, -, rfl, rfl⟩ | ⟨-, ⟨rfl, -⟩ | ⟨c, lm', rfl, h', -, hc, hothers, -⟩⟩ := h.get_medium h₂ hget
  · exact iff_of_false (h.toHeapInv.malloc_chunk hc (fun q hq _ => h.used q hq) hrun).1 (Option.some_ne_none _)
  · obtain ⟨-, rfl⟩ := Prod.mk.inj (Except.ok.inj hrun)
    exact iff_of_true rfl rfl
  · exact iff_of_false (h'.malloc_chunk hc hothers hrun).1 (Option.some_ne_none _)

theorem HeapOk.malloc_null (h : HeapOk s ls lm pool) (hT : TableOk s) (hat : Attaching s.sys.shmat)
    (hos : ∀ m, os.shmid = some m → m ≠ 0) {size pos : Nat} (h₁ : 0 < size)
    (hrun : mallocArena s size os = .ok (s', pos)) : pos = 0 ↔ Full s size os := by
  by_cases hsmall : size ≤ 1920
  · exact h.small_null hT hat hos h₁ hsmall hrun
  · by_cases hmedium : size ≤ 2 ^ 20 - 4096
    · exact h.medium_null hT hat hos (by omega) hmedium hrun
    · have hfull : Full s size os ↔ NoArena s os := by
        unfold Full kindOf
        rw [if_neg hsmall, if_neg hmedium]
      rw [hfull]
      exact hT.mallocArena_null hat (by omega) hos hrun

/-- A lookup makes no room. -/
theorem Full.same {size : Nat} (e : SameHeap s s') : Full s' size os ↔ Full s size os := by
  have hheader : s'.header = s.header := funext fun p => e.objects.header p trivial
  have hsmall : s'.small = s.small := funext fun p => e.objects.small p trivial
  have hmedium : s'.medium = s.medium := funext fun p => e.objects.medium p trivial
  have hrun : s'.run = s.run := funext fun p => e.objects.run p trivial
  have hchunk : ∀ c, IsChunk s' c ↔ IsChunk s c := fun c => IsChunk.congr e.arenas
  have hroom : ∀ k r, HasRoom s' k r ↔ HasRoom s k r := fun k r => by
    simp only [HasRoom, IsRun, hchunk, hheader, hsmall, hrun]
  have hno : NoChunk s' os ↔ NoChunk s os := by
    simp only [NoChunk, ContextRoom, e.arenas, NoArena.same e]
  unfold Full
  cases kindOf size with
  | small => simp only [hroom, hchunk, hheader, hsmall, hno]
  | medium => simp only [hchunk, hheader, hmedium, hno]
  | large => exact NoArena.same e

/-- A request that completes is refused when the heap is full for it, and only then. -/
theorem HeapOk.shmMalloc_null (h : HeapOk s ls lm pool) (hT : TableOk s) (hat : Attaching s.sys.shmat)
    (hos : ∀ m, os.shmid = some m → m ≠ 0) {size ret : Nat} (hrun : shmMalloc s size os = .ok (s', ret)) :
    ret = 0 ↔ size = 0 ∨ Full s size os := by
  unfold shmMalloc at hrun
  split at hrun
  · next h₀ =>
    obtain ⟨-, rfl⟩ := Prod.mk.inj (Except.ok.inj hrun)
    exact iff_of_true rfl (.inl h₀)
  · next h₀ => rw [h.malloc_null hT hat hos (Nat.pos_of_ne_zero h₀) hrun, or_iff_right h₀]

/-- A block stays where a request in its place is refused. -/
theorem HeapOk.shmRealloc_null (h : HeapOk s ls lm pool) (hT : TableOk s) (hat : Attaching s.sys.shmat)
    (hos : ∀ m, os.shmid = some m → m ≠ 0) {k : BlockKind} {pos n size ret : Nat} (hb : Block s ls lm k pos n)
    (hrun : shmRealloc s pos size os = .ok (s', ret)) :
    ret = 0 ↔ (checkedSize k pos n < size ∧ checkedSize k pos n ≠ 0) ∧ Full s size os := by
  obtain ⟨s₁, hcheck, e₁, hT₁⟩ := h.check_total hT hb
  have hsys : s₁.sys.shmat = s.sys.shmat := hT.calm_shmat (checkArena_writes hcheck).calm
  rw [shmRealloc_eq (h.pos_ne hb), hcheck, Exec.ok_bind] at hrun
  dsimp only at hrun
  split at hrun
  · next hlt =>
    obtain ⟨⟨s₂, ret'⟩, hmalloc, hrun⟩ := Exec.bind_ok hrun
    have hret : ret = ret' := by
      dsimp only at hrun
      split at hrun
      · obtain ⟨s₃, _, hrun⟩ := Exec.bind_ok hrun
        obtain ⟨s₄, _, hrun⟩ := Exec.bind_ok hrun
        obtain ⟨s₅, _, hrun⟩ := Exec.bind_ok hrun
        exact (Prod.mk.inj (Except.ok.inj hrun)).2.symm
      · exact (Prod.mk.inj (Except.ok.inj hrun)).2.symm
    rw [hret, (h.same e₁).malloc_null hT₁ (hsys ▸ hat) hos (by omega) hmalloc, Full.same e₁, and_iff_right hlt]
  · next hge =>
    obtain ⟨-, rfl⟩ := Prod.mk.inj (Except.ok.inj hrun)
    exact iff_of_false (h.pos_ne hb) fun hn => hge hn.1

end

/-- **When a request is refused**, of a process at any point of a run: `shm_malloc` returns the null position when
nothing is asked for or the heap is full for the size, and `shm_realloc` of a live position when
the block has a size that is found and not enough, and the heap is full. -/
theorem requests_refused {w : HeapWorld} {pid : Nat} {shmat : Nat → Nat → List Attach → Option Nat} {s : Shm}
    (h : Caller w pid shmat s) {os : Os} (hos : ∀ m, os.shmid = some m → NewId w.world m) {visits : List Nat}
    (hv : ∀ i ∈ visits, (s.arenas i).type ≠ .empty) : ∃ s₁, visit s visits = .ok s₁ ∧ SameHeap s s₁ ∧
      (∀ size s' ret, shmMalloc s₁ size os = .ok (s', ret) → (ret = 0 ↔ size = 0 ∨ Full s₁ size os)) ∧
      ∀ pos, IsLive w.live pos → ∃ s₂ m, shmCheckSize s₁ pos = .ok (s₂, m) ∧ ∀ size s' ret,
        shmRealloc s₁ pos size os = .ok (s', ret) → (ret = 0 ↔ (m < size ∧ m ≠ 0) ∧ Full s₁ size os) := by
  obtain ⟨ls, lm, pool, hok, hl⟩ := h.heap
  obtain ⟨s₁, hvisit, hT₁⟩ := h.table.visit_total hv
  have e := visit_same hvisit
  have hok₁ := hok.same e
  have hat : Attaching s₁.sys.shmat := by
    rw [h.table.calm_shmat (visit_calm hvisit), h.load]
    exact h.attaching
  have hne : ∀ m, os.shmid = some m → m ≠ 0 := fun m hm => (hos m hm).pos
  refine ⟨s₁, hvisit, e, fun size s' ret hrun => hok₁.shmMalloc_null hT₁ hat hne hrun, fun pos hlive => ?_⟩
  obtain ⟨size₀, n, -, -, hblock, -⟩ := hl.at_live hlive
  have hb₁ := ((e.blocks hok.toChunksOk).blocks _ _ _).mpr hblock
  obtain ⟨s₂, hcheck, -⟩ := hok₁.check_total hT₁ hb₁
  refine ⟨s₂, _, ?_, fun size s' ret hrun => hok₁.shmRealloc_null hT₁ hat hne hb₁ hrun⟩
  unfold shmCheckSize
  rw [if_neg (hok₁.pos_ne hb₁)]
  exact hcheck

/-- The system has no key for a large arena. -/
theorem requests_refused_test : ∃ w s, Caller w 1 servingShmat s ∧ ∃ s', shmMalloc s (2 ^ 20) .keyFails = .ok (s', 0) ∧
    Full s (2 ^ 20) .keyFails := by
  obtain ⟨w, s, h, ht⟩ := exists_caller 1 sharedOrders (p := fun w =>
    (shmMalloc (w.world.load (w.world.proc 1) servingShmat) (2 ^ 20) .keyFails).toOption.any fun r : Shm × Nat =>
      decide (r.2 = 0)) (by decide +kernel)
  rw [← h.load] at ht
  obtain ⟨⟨s', ret⟩, hrun, hr⟩ := exists_ok ht
  obtain rfl : ret = 0 := of_decide_eq_true hr
  obtain ⟨s₁, hvisit, -, hmalloc, -⟩ := requests_refused h
    (fun m (hm : Os.shmid .keyFails = some m) => by cases hm) fun i (hi : i ∈ []) => absurd hi List.not_mem_nil
  obtain rfl := Except.ok.inj hvisit
  exact ⟨w, s, h, s', hrun, ((hmalloc _ _ _ hrun).mp rfl).resolve_left (by decide)⟩

end ShmMalloc
