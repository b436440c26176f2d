import ShmMalloc.Heap.Spare

/-! What the heap keeps, over runs.

An arena is there for its chunks, a chunk for its runs or its blocks, and a run for its
blocks, but for one run of each class. So what is not in use is bounded, however much
has been allocated and freed. -/
namespace ShmMalloc
open Library

/-- Places that are in use, and one place at most of each class that is not. -/
theorem length_le_of_places {α β κ : Type} {l : List α} {used : List β} (place : β → α) (classes : List κ)
    (spare : κ → α → Prop) (hl : l.Nodup) (h : ∀ a ∈ l, a ∈ used.map place ∨ ∃ k ∈ classes, spare k a)
    (hone : ∀ k a a', spare k a → spare k a' → a = a') : l.length ≤ used.length + classes.length := by
  classical
  let pick : κ → Option α := fun k => if hk : ∃ a, spare k a then some hk.choose else none
  have hsub : l ⊆ used.map place ++ classes.filterMap pick := fun a ha => by
    refine List.mem_append.mpr ((h a ha).imp_right fun ⟨k, hk, hka⟩ => List.mem_filterMap.mpr ⟨k, hk, ?_⟩)
    have hex : ∃ a, spare k a := ⟨a, hka⟩
    show dite _ _ _ = _
    rw [dif_pos hex, hone k _ a hex.choose_spec hka]
  have hle := (hl.subperm hsub).length_le
  rw [List.length_append, List.length_map] at hle
  exact hle.trans (Nat.add_le_add_left (List.length_filterMap_le pick classes) _)

section
variable {s s' : Shm} {ls lm : List Nat} {pool : Nat → List Nat} {live : List (Nat × Nat)}

/-! ### Runs of calls -/

theorem HeapSpared.fresh {m : Nat} (hm : ((freshContext s m).arenas 0).shmid ≠ 0) : HeapSpared (freshContext s m) := by
  refine ⟨[], [], _, HeapOk.fresh hm, fun r r' hr => ?_, fun c hc => nomatch hc⟩
  obtain ⟨c, hc, -⟩ := hr.page
  cases hc

/-- A call that completes. -/
theorem HeapSpared.call (hs : HeapSpared s) (h : HeapHeld False s live) {c : Call} {os : Os}
    {ret : Nat} (hl : c.LegalFor live) (hu : c.freed ≠ 0 → Unstale s c.freed) (hrun : c.run s os = .ok (s', ret)) :
    HeapSpared s' := by
  obtain ⟨ls, lm, pool, hok, hb, -⟩ := h
  have hmalloc : ∀ size, size < 2 ^ 64 → shmMalloc s size os = .ok (s', ret) → HeapSpared s' := by
    intro size hsize hrun
    unfold shmMalloc at hrun
    split at hrun
    · obtain ⟨rfl, -⟩ := Prod.mk.inj (Except.ok.inj hrun)
      exact hs
    · next h₀ => exact hs.malloc (Nat.pos_of_ne_zero h₀) hsize hrun
  cases c with
  | malloc size => exact hmalloc size hl hrun
  | free pos =>
    obtain ⟨s₁, hfree, hret⟩ := Exec.bind_ok hrun
    obtain ⟨rfl, -⟩ := Prod.mk.inj (Except.ok.inj hret)
    unfold shmFree at hfree
    split at hfree
    · obtain rfl := Except.ok.inj hfree
      exact hs
    · next hpos =>
      obtain ⟨size, n, -, -, hblock, -⟩ := hb.at_live (hl.resolve_left hpos)
      exact hs.free hok hblock (hu hpos) hfree
  | realloc pos size =>
    by_cases hpos : pos = 0
    · subst hpos
      exact hmalloc size hl.1 hrun
    · obtain ⟨size', n, -, -, hblock, -⟩ := hb.at_live (hl.2.resolve_left hpos)
      exact hs.realloc hok hblock (hu hpos) hl.1 hrun
  | checkSize pos =>
    have hcheck : shmCheckSize s pos = .ok (s', ret) := hrun
    unfold shmCheckSize at hcheck
    split at hcheck
    · obtain ⟨rfl, -⟩ := Prod.mk.inj (Except.ok.inj hcheck)
      exact hs
    · exact hs.same (checkArena_same hcheck)
  | getAddr pos =>
    obtain ⟨⟨s₁, addr⟩, hget, hret⟩ := Exec.bind_ok hrun
    obtain ⟨rfl, -⟩ := Prod.mk.inj (Except.ok.inj hret)
    unfold shmGetAddr at hget
    dsimp only at hget
    split at hget
    · obtain ⟨rfl, -⟩ := Prod.mk.inj (Except.ok.inj hget)
      exact hs
    · obtain ⟨⟨s₂, base⟩, hlook, hget⟩ := Exec.bind_ok hget
      obtain ⟨rfl, -⟩ := Prod.mk.inj (Except.ok.inj hget)
      exact hs.same (getOrUpdateArenaAddr_same hlook)

theorem HeapSpared.step {w w' : HeapWorld} {a : Action} (hs : w.world.pids ≠ [] → HeapSpared w.world.shm)
    (h : HeapLive False w) (hl : w.Legal a) (ha : Unlinks w a) (hst : w.step a = .ok w') :
    w'.world.pids ≠ [] → HeapSpared w'.world.shm := by
  cases a with
  | init pid shmid shmat =>
    obtain ⟨world, hinit, hret⟩ := Exec.bind_ok hst
    obtain rfl := Except.ok.inj hret
    have hfound : SameHeap (w.world.context shmid) (w.world.found shmid shmat) := .write _ _ _
    rcases World.init_cases hinit with ⟨-, k, rfl⟩ | ⟨addr, s, hne, -, hloop, rfl⟩
    · intro hp
      have hctx : w.world.context shmid = w.world.shm := if_neg hp
      exact (hs hp).same ((hctx ▸ hfound).trans (.write _ _ _))
    · intro _
      have hattach : SameHeap (w.world.found shmid shmat) (attachArena (w.world.found shmid shmat) 0 addr) :=
        .write _ _ _
      refine HeapSpared.same ?_ ((hfound.trans hattach).trans (mmapArenas_same hloop))
      unfold World.context at hne ⊢
      split
      · next hp =>
        rw [if_pos hp] at hne
        exact .fresh hne
      · next hp => exact hs hp
  | exit pid =>
    obtain rfl := Except.ok.inj hst
    intro hp
    have hw : w.world.pids ≠ [] := fun he => hp (by show (w.world.exit pid).pids = []; rw [World.exit, he]; rfl)
    exact (hs hw).same (.write _ _ _)
  | call pid c visits os shmat =>
    obtain ⟨s, hvisit, hst⟩ := Exec.bind_ok hst
    obtain ⟨⟨s', ret⟩, hrun, hst⟩ := Exec.bind_ok hst
    obtain rfl := Except.ok.inj hst
    have e := visit_load hvisit
    have hp := List.ne_nil_of_mem hl.1.1
    exact fun _ => ((hs hp).same e).call ((h hp).same e) hl.2 (fun hc => (ha hc).same e) hrun

theorem heapSpared_reach {w : HeapWorld} (h : heapMachine.Reach Unlinks w) (hp : w.world.pids ≠ []) :
    HeapSpared w.world.shm := by
  have hstart : ∀ w, heapMachine.start w → HeapLive False w ∧ (w.world.pids ≠ [] → HeapSpared w.world.shm) :=
    fun w hw => ⟨fun hp => absurd hw.1.1 hp, fun hp => absurd hw.1.1 hp⟩
  exact (h.invariant hstart fun w a w' hi hl ha hst =>
    ⟨hi.1.step hl False.elim ha hst, HeapSpared.step hi.2 hi.1 hl ha hst⟩).2 hp

/-! ### What is kept -/

/-- What the heap has beside the live blocks. -/
structure HeapKept (s : Shm) (live : List (Nat × Nat)) : Prop where
  run : ∀ r r', IsRun s r → IsRun s r' → (∀ p, IsLive live p → p / 4096 * 4096 ≠ r) →
    (∀ p, IsLive live p → p / 4096 * 4096 ≠ r') → (s.run r).elemsize = (s.run r').elemsize → r = r'
  small : ∀ c, IsChunk s c → (s.header c).type = .small → ∃ r, IsRun s r ∧ r / 2 ^ 20 * 2 ^ 20 = c
  medium : ∀ c, IsChunk s c → (s.header c).type = .medium → ∃ p, IsLive live p ∧ p / 2 ^ 20 * 2 ^ 20 = c
  chunk : ∀ i, (s.arenas i).type = .chunk → ∃ c, IsChunk s c ∧ pos2index c = i
  large : ∀ i, (s.arenas i).type = .large → IsLive live (i * 2 ^ 32)

/-- A chunk, or a large arena. -/
def IsHeld (s : Shm) (a : Nat) : Prop := IsChunk s a ∨ ∃ i, (s.arenas i).type = .large ∧ a = i * 2 ^ 32

theorem page_div (p : Nat) : p / 4096 * 4096 / 2 ^ 20 = p / 2 ^ 20 := by
  rw [show 2 ^ 20 = 4096 * 256 from rfl, ← Nat.div_div_eq_div_mul, Nat.mul_div_cancel _ (by decide),
    Nat.div_div_eq_div_mul]

theorem IsPlace.page_chunk {c x : Nat} (h : IsPlace c) (hx : x < 2 ^ 20) : (c + x) / 2 ^ 20 * 2 ^ 20 = c := by
  obtain ⟨i, k, -, -, rfl⟩ := h
  omega

theorem HeapOk.kept (h : HeapOk s ls lm pool) (hs : Spared s ls) (hl : BlocksLive s ls lm live) :
    HeapKept s live := by
  have hspare : ∀ r, IsRun s r → (∀ p, IsLive live p → p / 4096 * 4096 ≠ r) → Spare s ls r := fun r hr hp => by
    have hat := (h.isRun_iff r).mp hr
    refine ⟨hat, fun o ho => hp (r + o) (hl.held .small _ _ ⟨r, o, hat, ho, rfl, rfl⟩) ?_⟩
    exact h.small.run_start hat (h.small.usedSlot_lt hat ho)
  refine ⟨fun r r' hr hr' hp hp' he => hs.one r r' (hspare r hr hp) (hspare r' hr' hp') he, fun c hc ht => ?_,
    fun c hc ht => ?_, fun i hi => ?_, fun i hi => ?_⟩
  · have hm := h.small_iff.mpr ⟨hc, ht⟩
    obtain ⟨p, hp, -, hr⟩ := hs.some c hm
    exact ⟨_, (h.isRun_iff _).mpr hr, (h.small.chunk c hm).place.page_chunk (by omega)⟩
  · have hm := h.medium_iff.mpr ⟨hc, ht⟩
    obtain ⟨l, hlay⟩ := h.medium c hm
    have hne := h.used c hm
    rw [Ne, hlay.layout.full_iff] at hne
    push Not at hne
    obtain ⟨p, n, hu⟩ := hne
    have hlt := (hlay.layout.parts.range p (hlay.layout.parts.sub p hu.1)).2
    exact ⟨_, hl.held .medium _ _ ⟨c, hm, p, n, hu, rfl, rfl⟩, (h.isPlace hc).page_chunk (by omega)⟩
  · obtain ⟨k, hk⟩ := Finset.nonempty_of_ne_empty ((h.arena i).some hi)
    have hi₀ : i ≠ 0 := fun he => by
      rw [(h.arenas.context i).mpr he] at hi
      cases hi
    refine ⟨slotPos i k, ⟨i, k, hk, .inl hi₀, rfl⟩, ?_⟩
    rw [← Nat.add_zero (slotPos i k), pos2index_slot (mem_slotsUsed.mp hk).1 (by decide)]
  · exact hl.held .large _ _ ⟨i, hi, rfl, rfl⟩

theorem HeapInv.isRun_class (h : HeapInv s ls lm pool) {r : Nat} (hr : IsRun s r) :
    ∃ k ∈ List.range' 1 14, (s.run r).elemsize = runConfig k := by
  have hat := (h.isRun_iff r).mp hr
  obtain ⟨h₁, h₂⟩ := h.small.conf hat
  exact ⟨_, List.mem_range'_1.mpr ⟨h₁, by omega⟩, h.small.elemsize hat⟩

/-- A block in the page of a run is in the run. -/
theorem HeapInv.small_page (h : HeapInv s ls lm pool) {k : BlockKind} {pos n : Nat} (hb : Block s ls lm k pos n)
    (hr : RunAt s ls (pos / 4096 * 4096)) : k = .small := by
  obtain ⟨c, hc, p, hp, hp₀, he⟩ := hr
  have hlt := (mem_pages.mp hp).1
  have hstart := (h.small.chunk c hc).place.page_chunk (by omega : p * 4096 < 2 ^ 20)
  cases k with
  | small => rfl
  | medium =>
    obtain ⟨c', q, m, hin, -, -, hq, hm, -⟩ := h.mediumBlock hb
    have hplace := h.isPlace ((h.registered c').mpr (.inr hin.chunk))
    have hstart' := hplace.page_chunk (by omega : q * 4096 < 2 ^ 20)
    have hcc : c = c' := by
      rw [← hstart, ← hstart', ← he, page_div, hin.pos]
    exact (h.small_medium hc (hcc ▸ hin.chunk)).elim
  | large =>
    obtain ⟨i, -, rfl, -⟩ := hb
    rw [← he, page_div, Nat.div_mul_cancel (Dvd.dvd.mul_left (by decide) i)] at hstart
    rw [Nat.div_mul_cancel (Dvd.dvd.mul_left (by decide) i)] at he
    omega

/-- Runs are pages, of which one of each class may be without a block. -/
theorem HeapKept.runs_le (hk : HeapKept s live) (h : HeapInv s ls lm pool) (hl : BlocksLive s ls lm live) {l : List Nat}
    (hnd : l.Nodup) (hrun : ∀ r ∈ l, IsRun s r) : l.length ≤ (live.filter fun b => b.2 ≤ 1920).length + 14 := by
  refine length_le_of_places (fun b : Nat × Nat => b.1 / 4096 * 4096) (List.range' 1 14)
    (fun k r => IsRun s r ∧ (s.run r).elemsize = runConfig k ∧ ∀ p, IsLive live p → p / 4096 * 4096 ≠ r)
    hnd (fun r hr => ?_) fun k r r' hr hr' => hk.run r r' hr.1 hr'.1 hr.2.2 hr'.2.2 (by rw [hr.2.1, hr'.2.1])
  by_cases hused : ∃ p, IsLive live p ∧ p / 4096 * 4096 = r
  · obtain ⟨p, hp, rfl⟩ := hused
    obtain ⟨size, n, hb, -, hblock, -⟩ := hl.at_live hp
    have hsmall := h.small_page hblock ((h.isRun_iff _).mp (hrun _ hr))
    exact .inl (List.mem_map.mpr ⟨(p, size), List.mem_filter.mpr ⟨hb, decide_eq_true (kindOf_small hsmall)⟩, rfl⟩)
  · obtain ⟨k, hclass, he⟩ := h.isRun_class (hrun r hr)
    exact .inr ⟨k, hclass, hrun r hr, he, fun p hp hpr => hused ⟨p, hp, hpr⟩⟩

/-- Chunks and large arenas hold blocks, or a run that is kept. -/
theorem HeapKept.held_le (hk : HeapKept s live) (h : HeapInv s ls lm pool) {l : List Nat} (hnd : l.Nodup)
    (hheld : ∀ a ∈ l, IsHeld s a) : l.length ≤ live.length + 14 := by
  refine length_le_of_places (fun b : Nat × Nat => b.1 / 2 ^ 20 * 2 ^ 20) (List.range' 1 14)
    (fun k a => ∃ r, IsRun s r ∧ (s.run r).elemsize = runConfig k ∧
      (∀ p, IsLive live p → p / 4096 * 4096 ≠ r) ∧ a = r / 2 ^ 20 * 2 ^ 20) hnd (fun a ha => ?_) ?_
  · have hlive : ∀ p, IsLive live p → p / 2 ^ 20 * 2 ^ 20 = a →
        a ∈ live.map fun b => b.1 / 2 ^ 20 * 2 ^ 20 := fun p hp he => by
      obtain ⟨b, hb, rfl⟩ := List.mem_map.mp hp
      exact List.mem_map.mpr ⟨b, hb, he⟩
    rcases hheld a ha with hc | ⟨i, hi, rfl⟩
    · rcases (h.registered a).mp hc with hm | hm
      · obtain ⟨r, hr, hra⟩ := hk.small a hc (h.small_iff.mp hm).2
        by_cases hused : ∃ p, IsLive live p ∧ p / 4096 * 4096 = r
        · obtain ⟨p, hp, rfl⟩ := hused
          exact .inl (hlive p hp (by rw [← hra, page_div]))
        · obtain ⟨k, hclass, he⟩ := h.isRun_class hr
          exact .inr ⟨k, hclass, r, hr, he, fun p hp hpr => hused ⟨p, hp, hpr⟩, hra.symm⟩
      · obtain ⟨p, hp, he⟩ := hk.medium a hc (h.medium_iff.mp hm).2
        exact .inl (hlive p hp he)
    · exact .inl (hlive _ (hk.large i hi) (by rw [show 2 ^ 32 = 4096 * 2 ^ 20 by rfl]; omega))
  · rintro k a a' ⟨r, hr, he, hp, rfl⟩ ⟨r', hr', he', hp', rfl⟩
    rw [hk.run r r' hr hr' hp hp' (by rw [he, he'])]

/-- **What the heap keeps beside the live blocks**, in every run in which no block is freed in a full run with
links: of each class one run without a block, and its chunk and arena. So there are 14 more
pages than live small blocks at most, and 14 more chunks and large arenas than live blocks. -/
theorem heap_kept {w : HeapWorld} (h : heapMachine.Reach Unlinks w) (hp : w.world.pids ≠ []) :
    HeapKept w.world.shm w.live ∧
    (∀ l : List Nat, l.Nodup → (∀ r ∈ l, IsRun w.world.shm r) →
      l.length ≤ (w.live.filter fun b => b.2 ≤ 1920).length + 14) ∧
    ∀ l : List Nat, l.Nodup → (∀ a ∈ l, IsHeld w.world.shm a) → l.length ≤ w.live.length + 14 := by
  obtain ⟨ls, lm, pool, hok, hs⟩ := heapSpared_reach h hp
  obtain ⟨ls', lm', pool', hok', hl', -⟩ := heapLive_reach h hp
  have hb := fun k pos n => hok.toHeapInv.block_iff hok'.toHeapInv k pos n
  have hl := hl'.same hb
  have hk := hok.kept hs hl
  exact ⟨hk, fun l hnd hr => hk.runs_le hok.toHeapInv hl hnd hr, fun l hnd ha => hk.held_le hok.toHeapInv hnd ha⟩

end

/-- Nothing is live after a large and a small block are freed: the page of the small one is kept. -/
theorem heap_kept_test : ∃ w : HeapWorld, w.live = [] ∧ HeapKept w.world.shm w.live ∧
    ∀ l : List Nat, l.Nodup → (∀ a ∈ l, IsHeld w.world.shm a) → l.length ≤ 14 := by
  have hrun : (heapOrderMachine.run unlinksTest .start [.init 1 10, .call 1 (.malloc 8) .keyFails,
      .call 1 (.malloc (2 ^ 20)) (.created 11), .call 1 (.free (2 ^ 32)) .keyFails,
      .call 1 (.free (2 ^ 20 + 4096 + 64)) .keyFails]).any (fun w => decide (w.world.pids ≠ [] ∧ w.live = [])) = true := by
    decide +kernel
  obtain ⟨w, hw, ht⟩ := Machine.exists_reach (M := heapOrderMachine) _ unlinksTest_unlinks _ HeapWorld.start_ok hrun
  obtain ⟨hp, hl⟩ := of_decide_eq_true ht
  obtain ⟨hk, -, hle⟩ := heap_kept (Order.heap_reach hw) hp
  rw [hl] at hle
  exact ⟨w, hl, hk, hle⟩

end ShmMalloc
