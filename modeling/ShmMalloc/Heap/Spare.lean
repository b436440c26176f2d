import ShmMalloc.Heap.Blocks
import ShmMalloc.Heap.Resize

/-! What the heap keeps without a block in it.

An empty run stays if it is the only one in the pool of its class: the next request of
the class is served from it. A chunk stays for its runs or its blocks, and an arena for
its chunks. So what is kept beside the blocks is one page for each class, whatever has been
allocated and freed before. -/
namespace ShmMalloc
open Library

/-! ### Spare runs -/

/-- A run of which no slot is in use. -/
structure Spare (s : Shm) (ls : List Nat) (r : Nat) : Prop where
  page : RunAt s ls r
  free : ∀ o, ¬UsedSlot s r o

/-- There is one spare run of a class, and no chunk without a run. -/
structure Spared (s : Shm) (ls : List Nat) : Prop where
  one : ∀ r r', Spare s ls r → Spare s ls r' → (s.run r).elemsize = (s.run r').elemsize → r = r'
  some : ∀ c ∈ ls, ∃ p < 256, p ≠ 0 ∧ RunAt s ls (c + p * 4096)

section
variable {s s' : Shm} {ls lm ls' lm' : List Nat} {pool pool' : Nat → List Nat} {live : List (Nat × Nat)}

theorem runConfig_inj {j k : Nat} (hj : IsClass j) (hk : IsClass k) (h : runConfig j = runConfig k) : j = k := by
  have inj : ∀ j < 15, ∀ k < 15, 1 ≤ j → 1 ≤ k → runConfig j = runConfig k → j = k := by decide
  obtain ⟨h₁, h₂⟩ := hj
  obtain ⟨h₃, h₄⟩ := hk
  exact inj j (by omega) k (by omega) h₁ h₃ h

/-- All of its slots are in its list. -/
theorem Run.used_eq_zero {r : Nat} {f : List Nat} (h : Run s r f) (hf : ∀ o, ¬UsedSlot s r o) :
    (s.run r).used = 0 ∧ 0 < (s.run r).total := by
  have hb := h.bounds
  have hsub : slots (s.run r).elemsize ⊆ f := fun o ho => by
    by_contra hof
    exact hf o ((h.usedSlot_iff o).mpr ⟨ho, hof⟩)
  have hle := ((nodup_slots (by omega)).subperm hsub).length_le
  rw [length_slots, ← h.total] at hle
  have hused := h.used
  have hpos : 0 < 4032 / (s.run r).elemsize := Nat.div_pos (by omega) (by omega)
  rw [h.total]
  omega

/-- A spare run is in the pool of its class. -/
theorem SmallInv.spare_mem (h : SmallInv s ls pool) {r : Nat} (hr : Spare s ls r) :
    IsClass (s.run r).confIndex ∧ r ∈ pool (s.run r).confIndex ∧ (s.run r).used = 0 := by
  obtain ⟨f, hf⟩ := h.run r hr.page
  obtain ⟨hzero, hpos⟩ := hf.used_eq_zero hr.free
  exact ⟨h.conf hr.page, (h.mem _ (h.conf hr.page) r).mpr ⟨hr.page, rfl, by omega⟩, hzero⟩

theorem SmallInv.elemsize (h : SmallInv s ls pool) {r : Nat} (hr : RunAt s ls r) :
    (s.run r).elemsize = runConfig (s.run r).confIndex := by
  obtain ⟨f, hf⟩ := h.run r hr
  exact hf.elemsize

/-- Runs of the same size of slots are in the same pool. -/
theorem SmallInv.conf_eq (h : SmallInv s ls pool) {r r' : Nat} (hr : RunAt s ls r) (hr' : RunAt s ls r')
    (he : (s.run r).elemsize = (s.run r').elemsize) : (s.run r).confIndex = (s.run r').confIndex :=
  runConfig_inj (h.conf hr) (h.conf hr') (by rw [← h.elemsize hr, ← h.elemsize hr', he])

/-! ### Runs by their blocks and pools -/

theorem SmallInv.run_start (h : SmallInv s ls pool) {r o : Nat} (hr : RunAt s ls r) (ho : o < 4096) :
    (r + o) / 4096 * 4096 = r := by
  obtain ⟨c, hc, p, -, -, rfl⟩ := hr
  rw [Nat.add_assoc]
  exact page_start (h.chunk c hc).place.aligned ho

/-- A run with a block stays with the block, and one without it stays in its pool. `x` is a run that
comes. -/
theorem SmallInv.runs_stay (h : SmallInv s ls pool) (h' : SmallInv s' ls' pool') {x : Nat}
    (hb : ∀ pos n, SmallBlock s' ls' pos n ↔ SmallBlock s ls pos n)
    (hsub : ∀ k, IsClass k → ∀ r ∈ pool k, r ∈ pool' k) (hback : ∀ k, IsClass k → ∀ r ∈ pool' k, r ≠ x → r ∈ pool k) :
    (∀ r, RunAt s ls r → RunAt s' ls' r) ∧
      ∀ r, r ≠ x → Spare s' ls' r → Spare s ls r ∧ (s'.run r).elemsize = (s.run r).elemsize := by
  refine ⟨fun r hr => ?_, fun r hx hr => ?_⟩
  · obtain ⟨f, hf⟩ := h.run r hr
    by_cases hroom : (s.run r).used < (s.run r).total
    · have hm := hsub _ (h.conf hr) r ((h.mem _ (h.conf hr) r).mpr ⟨hr, rfl, hroom⟩)
      exact ((h'.mem _ (h.conf hr) r).mp hm).1
    · -- a full run has a block in its first slot
      have hnil : f = [] := by
        by_contra hne
        exact hroom (hf.full_iff.mpr hne)
      have hbd := hf.bounds
      have hslot : 64 ∈ slots (s.run r).elemsize :=
        mem_slots.mpr ⟨0, Nat.div_pos (by omega) (by omega), (by omega)⟩
      have hused : UsedSlot s r 64 := (hf.usedSlot_iff 64).mpr ⟨hslot, hnil ▸ List.not_mem_nil⟩
      obtain ⟨r', o, hr', ho, he, -⟩ := (hb _ _).mpr ⟨r, 64, hr, hused, rfl, rfl⟩
      have hstart := h'.run_start hr' (h'.usedSlot_lt hr' ho)
      rw [← he, h.run_start hr (by decide)] at hstart
      exact hstart ▸ hr'
  · obtain ⟨hk, hm, -⟩ := h'.spare_mem hr
    obtain ⟨hr₀, hconf, -⟩ := (h.mem _ hk r).mp (hback _ hk r hm hx)
    refine ⟨⟨hr₀, fun o ho => ?_⟩, by rw [h'.elemsize hr.page, h.elemsize hr₀, hconf]⟩
    have hlt := h.usedSlot_lt hr₀ ho
    obtain ⟨r', o', hr', ho', he, -⟩ := (hb _ _).mpr ⟨r, o, hr₀, ho, rfl, rfl⟩
    obtain ⟨rfl, rfl⟩ := h'.slot_eq hr' hr.page (h'.usedSlot_lt hr' ho') hlt he.symm
    exact hr.free _ ho'

/-- What is spare was so before, and each chunk has a run. -/
theorem Spared.keep (h : Spared s ls)
    (hspare : ∀ r, Spare s' ls' r → Spare s ls r ∧ (s'.run r).elemsize = (s.run r).elemsize)
    (hat : ∀ r, RunAt s ls r → RunAt s' ls' r)
    (hls : ∀ c ∈ ls', c ∈ ls ∨ ∃ p < 256, p ≠ 0 ∧ RunAt s' ls' (c + p * 4096)) : Spared s' ls' := by
  refine ⟨fun r r' hr hr' he => ?_, fun c hc => ?_⟩
  · obtain ⟨h₁, e₁⟩ := hspare r hr
    obtain ⟨h₂, e₂⟩ := hspare r' hr'
    exact h.one r r' h₁ h₂ (by rw [← e₁, ← e₂, he])
  · rcases hls c hc with hc | hrun
    · obtain ⟨p, hp, hp₀, hr⟩ := h.some c hc
      exact ⟨p, hp, hp₀, hat _ hr⟩
    · exact hrun

/-- The blocks of runs are the same, and the pools are. -/
theorem Spared.same_pools (hs : Spared s ls) (h : SmallInv s ls pool) (h' : SmallInv s' ls' pool)
    (hb : ∀ pos n, SmallBlock s' ls' pos n ↔ SmallBlock s ls pos n) (hls : ∀ c ∈ ls', c ∈ ls) : Spared s' ls' := by
  obtain ⟨hat, hspare⟩ := h.runs_stay h' (x := 0) hb (fun _ _ _ hm => hm) fun _ _ _ hm _ => hm
  exact hs.keep (fun r hr => hspare r hr.page.ne_zero hr) hat fun c hc => .inl (hls c hc)

theorem Spared.same (hs : Spared s ls) (h : SmallInv s ls pool) (e : SameHeap s s') : Spared s' ls :=
  hs.same_pools h (h.same e.objects fun _ _ => trivial)
    (fun _ _ => SmallBlock.same h e.objects fun _ _ => trivial) fun _ hc => hc

/-! ### Allocations -/

/-- A slot is taken of a run that is then not spare. -/
theorem HeapInv.malloc_run_spare (h : HeapInv s ls lm pool) {k r pos : Nat} (hk : IsClass k)
    (hroot : (s.runPool k).root = r) (hne : r ≠ 0) (hrun : mallocChunkRun s r = .ok (s', pos)) :
    (∀ q, RunAt s' ls q ↔ RunAt s ls q) ∧
      ∀ q, Spare s' ls q → q ≠ r ∧ Spare s ls q ∧ (s'.run q).elemsize = (s.run q).elemsize := by
  obtain ⟨s₁, o, l, hmal, -, e, hat, -, ht, -⟩ := mallocChunkRun_step h.small hk hroot hne
  obtain ⟨rfl, -⟩ := Prod.mk.inj (Except.ok.inj (hmal.symm.trans hrun))
  have hat' : ∀ q, RunAt s₁ ls q ↔ RunAt s ls q := fun q => RunAt.congr fun _ _ => by rw [e.small]
  refine ⟨hat', fun q hq => ⟨?_, ⟨(hat' q).mp hq.page, fun x hx => hq.free x ((ht.used q x).mpr (.inl hx))⟩, ht.elemsize q⟩⟩
  rintro rfl
  exact hq.free o ((ht.used q o).mpr (.inr ⟨rfl, rfl⟩))

/-- A new chunk is the only one that was not there. -/
theorem HeapOk.new_small_chunk (h : HeapOk s ls lm pool) {os : Os} {c : Nat}
    (hrun : newChunk s .small os = .ok (s', some c)) {q : Nat} (hq : IsChunk s' q) : IsChunk s q ∨ q = c := by
  obtain ⟨s₁, hnone, -⟩ | ⟨s₁, c', hstart, he, -⟩ := h.newChunk_cases .small os
  · rw [hnone] at hrun
    cases hrun
  · rw [hstart, startChunk_eq] at hrun
    obtain ⟨s₂, hlook, hrun⟩ := Exec.bind_ok hrun
    have he₂ := he.look (getOrUpdateAddr_same hlook)
    obtain ⟨s₃, ls', hinit, hi, hperm, -⟩ := he₂.init_small h.toHeapInv
    rw [hinit] at hrun
    obtain ⟨rfl, hc⟩ := Prod.mk.inj (Except.ok.inj hrun)
    obtain rfl := Option.some.inj hc
    rw [hi.registered, hperm.mem_iff, List.mem_cons] at hq
    rw [h.registered]
    tauto

/-- The chunks are as before, but for the one that has room. -/
theorem HeapOk.get_small_chunk (h : HeapOk s ls lm pool) {size c q : Nat} {os : Os}
    (hrun : getOrNewChunk s .small size os = .ok (s', some c)) (h' : HeapInv s' ls' lm pool) (hq : q ∈ ls')
    (hne : q ≠ c) : q ∈ ls := by
  obtain ⟨hchunk, htype⟩ := h'.small_iff.mp hq
  obtain ⟨o, hget, -⟩ := getAvaliableChunk_spec h.small.chunks size (show 1 < 2 ^ 31 by decide)
  rw [getOrNewChunk_eq, hget, Exec.ok_bind] at hrun
  cases o with
  | some c' =>
    obtain ⟨rfl, -⟩ := Prod.mk.inj (Except.ok.inj hrun)
    exact h.small_iff.mpr ⟨hchunk, htype⟩
  | none =>
    have hq₀ := (h.new_small_chunk hrun hchunk).resolve_right hne
    exact ((h.registered q).mp hq₀).resolve_right fun hm => h'.small_medium hq hm

/-- A slot of a new run in a chunk that has room: it is the chunk's run, if no other is. -/
theorem HeapOk.malloc_new_run_spare (h : HeapOk s ls lm pool) {c k pos : Nat} (hc : c ∈ ls) (hk : IsClass k)
    (hroom : (s.small c).used < 256) (hroot : (s.runPool k).root = 0)
    (hrun : (newChunkRun s c k >>= fun r => mallocChunkRun r.1 r.2) = .ok (s', pos)) :
    ∃ ls', (∀ q ∈ ls', q ∈ ls) ∧ (∀ r, RunAt s ls r → RunAt s' ls' r) ∧ (∃ p < 256, p ≠ 0 ∧ RunAt s' ls' (c + p * 4096)) ∧
      (∃ lm' pool', HeapOk s' ls' lm' pool') ∧
      ∀ r, Spare s' ls' r → Spare s ls r ∧ (s'.run r).elemsize = (s.run r).elemsize := by
  obtain ⟨s₁, r, ls₁, hnew, hr, h₁, hsame⟩ := h.new_run hc hk hroom
  obtain ⟨s₁', p, -, hnew', -, -, ht, -⟩ := newChunkRun_step h.small hc hk hroom
  obtain ⟨rfl, rfl⟩ := Prod.mk.inj (Except.ok.inj (hnew.symm.trans hnew'))
  have hnil := (h.small.pools k hk).root_eq_zero.mp hroot
  have hpool := h₁.small.pools k hk
  rw [Function.update_self, hnil] at hpool
  have hroot₁ : (s₁.runPool k).root = c + p * 4096 :=
    List.mem_singleton.mp (hpool.root_mem fun he => absurd (hpool.root_eq_zero.mp he) (List.cons_ne_nil _ []))
  rw [hnew, Exec.ok_bind] at hrun
  obtain ⟨s₂, pos', pool', hmal, -, h₂, -⟩ := h₁.malloc_run hk hroot₁ hr
  obtain ⟨rfl, -⟩ := Prod.mk.inj (Except.ok.inj (hmal.symm.trans hrun))
  obtain ⟨hat₂, hspare₂⟩ := h₁.malloc_run_spare hk hroot₁ hr hrun
  obtain ⟨hat₁, hspare₁⟩ := h.small.runs_stay h₁.small (x := c + p * 4096) (fun pos n => hsame.blocks .small pos n)
    (fun j hj q hq => by
      rw [Function.update_apply]
      split
      · next he => exact List.mem_cons_of_mem _ (he ▸ hq)
      · exact hq)
    fun j hj q hq hx => by
      rw [Function.update_apply] at hq
      split at hq
      · next he => exact he ▸ (List.mem_cons.mp hq).resolve_left hx
      · exact hq
  have hnewAt : RunAt s₁ ls₁ (c + p * 4096) := by
    have hm : c + p * 4096 ∈ Function.update pool k ((c + p * 4096) :: pool k) k := by
      rw [Function.update_self]
      exact List.mem_cons_self
    exact ((h₁.small.mem k hk _).mp hm).1
  refine ⟨ls₁, fun q hq => ?_, fun q hq => (hat₂ q).mpr (hat₁ q hq), ⟨p, ht.lt, ht.ne, (hat₂ _).mpr hnewAt⟩,
    ⟨lm, pool', h₂⟩, fun q hq => ?_⟩
  · obtain ⟨hchunk, htype⟩ := h₁.small_iff.mp hq
    exact h.small_iff.mpr ⟨(IsChunk.congr ht.frame.arenas).mp hchunk, by rwa [← ht.header]⟩
  · obtain ⟨hne, hq₁, e₂⟩ := hspare₂ q hq
    obtain ⟨hq₀, e₁⟩ := hspare₁ q hne hq₁
    exact ⟨hq₀, e₂.trans e₁⟩

/-- A heap that keeps one run of each class beside the blocks. -/
def HeapSpared (s : Shm) : Prop := ∃ ls lm pool, HeapOk s ls lm pool ∧ Spared s ls

theorem HeapSpared.same (h : HeapSpared s) (e : SameHeap s s') : HeapSpared s' := by
  obtain ⟨ls, lm, pool, h, hs⟩ := h
  exact ⟨ls, lm, pool, h.same e, hs.same h.small e⟩

/-- A block that is not small comes. -/
theorem Spared.allocated (hs : Spared s ls) (h : SmallInv s ls pool) (h' : SmallInv s' ls pool) {k : BlockKind}
    {pos n : Nat} (hk : k ≠ .small) (ha : Allocated s s' ls lm ls lm' k pos n) : Spared s' ls :=
  hs.same_pools h h' (fun q m => (ha.blocks .small q m).trans (or_iff_left fun hq => hk hq.1.symm)) fun _ hc => hc

theorem HeapOk.malloc_small_spare (h : HeapOk s ls lm pool) (hs : Spared s ls) {size pos : Nat} (h₁ : 0 < size)
    (h₂ : size ≤ 1920) {os : Os} (hrun : mallocArena s size os = .ok (s', pos)) : HeapSpared s' := by
  obtain ⟨k, hfind, hk, -⟩ := findRunConfig_spec h₁ h₂
  rw [mallocArena_small_eq h₂, hfind, Exec.ok_bind] at hrun
  obtain ⟨⟨s₁, r⟩, htry, hrun⟩ := Exec.bind_ok hrun
  obtain ⟨e, hr⟩ := tryRunPool_step htry
  have hok := h.same e
  have hs₁ := hs.same h.small e
  by_cases hroot : (s.runPool k).root = 0
  · rw [if_pos hroot] at hr
    subst hr
    obtain ⟨⟨s₂, o⟩, hget, hrun⟩ := Exec.bind_ok hrun
    obtain ⟨rfl, e₂⟩ | ⟨c, ls₂, rfl, hok₂, hsame₂, hc, hroom, hpool⟩ := hok.get_small hget
    · obtain ⟨rfl, rfl⟩ := Prod.mk.inj (Except.ok.inj hrun)
      exact ⟨ls, lm, pool, hok.same e₂, hs₁.same hok.small e₂⟩
    · have hroot₂ : (s₂.runPool k).root = 0 := by rw [hpool, e.objects.runPool, hroot]
      obtain ⟨ls', hls', hat', hnew, ⟨lm', pool', h'⟩, hspare'⟩ := hok₂.malloc_new_run_spare hc hk hroom hroot₂ hrun
      obtain ⟨hat₂, hspare₂⟩ := hok.small.runs_stay hok₂.small (x := 0) (fun q n => hsame₂.blocks .small q n)
        (fun _ _ _ hm => hm) fun _ _ _ hm _ => hm
      refine ⟨ls', lm', pool', h', hs₁.keep (fun q hq => ?_) (fun q hq => hat' q (hat₂ q hq)) fun q hq => ?_⟩
      · obtain ⟨hq₂, e'⟩ := hspare' q hq
        obtain ⟨hq₁, e₂⟩ := hspare₂ q hq₂.page.ne_zero hq₂
        exact ⟨hq₁, e'.trans e₂⟩
      · by_cases hqc : q = c
        · exact .inr (hqc ▸ hnew)
        · exact .inl (hok.get_small_chunk hget hok₂.toHeapInv (hls' q hq) hqc)
  · rw [if_neg hroot] at hr
    subst hr
    have hroot₁ : (s₁.runPool k).root = (s.runPool k).root := by rw [e.objects.runPool]
    obtain ⟨s₂, pos', pool', hmal, -, hok', -⟩ := hok.malloc_run hk hroot₁ hroot
    obtain ⟨rfl, -⟩ := Prod.mk.inj (Except.ok.inj (hmal.symm.trans hrun))
    obtain ⟨hat, hspare⟩ := hok.malloc_run_spare hk hroot₁ hroot hmal
    exact ⟨ls, lm, pool', hok', hs₁.keep (fun q hq => (hspare q hq).2) (fun q hq => (hat q).mpr hq) fun _ hc => .inl hc⟩

theorem HeapOk.malloc_medium_spare (h : HeapOk s ls lm pool) (hs : Spared s ls) {size pos : Nat} (h₁ : 1920 < size)
    (h₂ : size ≤ 2 ^ 20 - 4096) {os : Os} (hrun : mallocArena s size os = .ok (s', pos)) : HeapSpared s' := by
  rw [mallocArena_medium_eq h₁ h₂] at hrun
  obtain ⟨⟨s₁, o⟩, hget, hrun⟩ := Exec.bind_ok hrun
  obtain ⟨c, hc, -, rfl, rfl⟩ | ⟨-, ⟨rfl, e⟩ | ⟨c, lm₁, rfl, h', hsame, hc, hothers, -⟩⟩ := h.get_medium h₂ hget
  · obtain ⟨-, lm', h'', ha⟩ := h.toHeapInv.malloc_chunk hc (fun q hq _ => h.used q hq) hrun
    exact ⟨ls, lm', pool, h'', hs.allocated h.small h''.small (by decide) ha⟩
  · obtain ⟨rfl, rfl⟩ := Prod.mk.inj (Except.ok.inj hrun)
    exact ⟨ls, lm, pool, h.same e, hs.same h.small e⟩
  · obtain ⟨-, lm'', h'', ha⟩ := h'.malloc_chunk hc hothers hrun
    exact ⟨ls, lm'', pool, h'', hs.allocated h.small h''.small (by decide) (hsame.allocated ha)⟩

theorem HeapOk.malloc_large_spare (h : HeapOk s ls lm pool) (hs : Spared s ls) {size pos : Nat} (h₁ : 2 ^ 20 - 4096 < size)
    (h₂ : size < 2 ^ 64) {os : Os} (hrun : mallocArena s size os = .ok (s', pos)) : HeapSpared s' := by
  obtain ⟨-, e⟩ | ⟨-, ls', lm', pool', n, h', ha, -, hls⟩ := h.malloc_large h₁ h₂ hrun
  · exact ⟨ls, lm, pool, h.same e, hs.same h.small e⟩
  obtain rfl := hls (by decide)
  rw [mallocArena_large_eq h₁] at hrun
  obtain ⟨⟨s₁, o⟩, hnew, hrun⟩ := Exec.bind_ok hrun
  obtain ⟨rfl, e⟩ | ⟨index, shmid, rfl, -, -, hemp, -, e, -⟩ := newArena_step hnew
  · obtain ⟨rfl, rfl⟩ := Prod.mk.inj (Except.ok.inj hrun)
    exact ⟨ls', lm, pool, h.same e, hs.same h.small e⟩
  obtain ⟨rfl, rfl⟩ := Prod.mk.inj (Except.ok.inj hrun)
  have hk := h.chunks_kept e fun i hne hie => hne (hie ▸ hemp)
  exact ⟨ls', lm', pool', h', hs.allocated h.small hk.small (by decide) ha⟩

theorem HeapSpared.malloc (h : HeapSpared s) {size pos : Nat} (h₁ : 0 < size) (h₂ : size < 2 ^ 64) {os : Os}
    (hrun : mallocArena s size os = .ok (s', pos)) : HeapSpared s' := by
  obtain ⟨ls, lm, pool, h, hs⟩ := h
  by_cases hsmall : size ≤ 1920
  · exact h.malloc_small_spare hs h₁ hsmall hrun
  · by_cases hmedium : size ≤ 2 ^ 20 - 4096
    · exact h.malloc_medium_spare hs (by omega) hmedium hrun
    · exact h.malloc_large_spare hs (by omega) h₂ hrun

/-! ### Frees -/

/-- `free_chunk_small`, up to whether the page of the run is given back. -/
theorem SmallInv.free_slot (h : SmallInv s ls pool) {c p o : Nat} (hc : c ∈ ls) (hp : p ∈ pages (s.small c).bitmap)
    (hp₀ : p ≠ 0) (ho : UsedSlot s (c + p * 4096) o) (hu : Unlinked s (c + p * 4096)) :
    ∃ s₂ l, freeChunkSmall s c (p * 4096 + o) =
        (if runEmpty s₂ (c + p * 4096) && (s₂.runPool (s₂.run (c + p * 4096)).confIndex).size > 1 then
          releaseRun s₂ c (c + p * 4096) else .ok (s₂, false)) ∧
      SmallInv s₂ ls (Function.update pool (s.run (c + p * 4096)).confIndex l) ∧ RunsOnly s s₂ ∧ c + p * 4096 ∈ l ∧
      SlotFreed s s₂ (c + p * 4096) o ∧ (s₂.run (c + p * 4096)).confIndex = (s.run (c + p * 4096)).confIndex := by
  have hat : RunAt s ls (c + p * 4096) := ⟨c, hc, p, hp, hp₀, rfl⟩
  obtain ⟨f, hf⟩ := h.run _ hat
  have hlt := h.usedSlot_lt hat ho
  have hoff : ((s.header c).pos + (p * 4096 + o) + 2 ^ 64 - (s.run (c + p * 4096)).pos) % 2 ^ 32 = o := by
    rw [(h.chunk c hc).header, hf.pos]
    dsimp only
    omega
  obtain ⟨s₁, s₂, l, hfree, hpush, h₂, e, hl, hfreed, hconf, -⟩ := freeRun_step h hat ho hu
  refine ⟨s₂, l, ?_, h₂, e, hl, hfreed, hconf⟩
  rw [freeChunkSmall_eq, h.toPages.findRun hc hp hlt, Exec.ok_bind]
  dsimp only
  rw [hoff, hfree, Exec.ok_bind, hpush, Exec.ok_bind]

/-- A slot is given back: a run that stays without a slot in use is alone in its pool, and a chunk that
is not reported has a run. -/
theorem SmallInv.free_spare (h : SmallInv s ls pool) (hs : Spared s ls) {c p o : Nat} (hc : c ∈ ls)
    (hp : p ∈ pages (s.small c).bitmap) (hp₀ : p ≠ 0) (ho : UsedSlot s (c + p * 4096) o)
    (hu : Unlinked s (c + p * 4096)) {b : Bool} (hrun : freeChunkSmall s c (p * 4096 + o) = .ok (s', b)) :
    (∀ r r', Spare s' ls r → Spare s' ls r' → (s'.run r).elemsize = (s'.run r').elemsize → r = r') ∧
      ∀ q ∈ ls, q ≠ c ∨ b = false → ∃ x < 256, x ≠ 0 ∧ RunAt s' ls (q + x * 4096) := by
  have hat : RunAt s ls (c + p * 4096) := ⟨c, hc, p, hp, hp₀, rfl⟩
  obtain ⟨s₂, l, hcall, h₂, e, hl, hfreed, hconf⟩ := h.free_slot hc hp hp₀ ho hu
  have hat₂ : ∀ r, RunAt s₂ ls r ↔ RunAt s ls r := fun r => RunAt.congr fun _ _ => by rw [e.small]
  -- a run that is not the one of the slot is spare as before
  have hold : ∀ r, r ≠ c + p * 4096 → Spare s₂ ls r → Spare s ls r := fun r hr hsp =>
    ⟨(hat₂ r).mp hsp.page, fun x hx => hsp.free x ((hfreed.used r x).mpr ⟨hx, fun he => hr he.1⟩)⟩
  have hone : ∀ r r', r ≠ c + p * 4096 → r' ≠ c + p * 4096 → Spare s₂ ls r → Spare s₂ ls r' →
      (s₂.run r).elemsize = (s₂.run r').elemsize → r = r' := fun r r' hr hr' hsp hsp' he =>
    hs.one r r' (hold r hr hsp) (hold r' hr' hsp') (by rw [← hfreed.elemsize, ← hfreed.elemsize, he])
  rw [hcall] at hrun
  split at hrun
  · next hcond =>
    have hp₂ : p ∈ pages (s₂.small c).bitmap := by rwa [e.small]
    obtain ⟨s₃, ls', hrel, h₃, hperm, hpage, -⟩ := releaseRun_step h₂ hc hp₂ hp₀ hconf (by
      rw [Function.update_self]
      exact hl)
    obtain ⟨rfl, rfl⟩ := Prod.mk.inj (Except.ok.inj (hrel.symm.trans hrun))
    have hat₃ : ∀ r, RunAt s₃ ls r ↔ RunAt s₂ ls r ∧ r ≠ c + p * 4096 :=
      h₂.toPages.runAt_clear hc hp₂ hpage.bitmap hpage.frame.small
    have hspare : ∀ r, Spare s₃ ls r → r ≠ c + p * 4096 ∧ Spare s₂ ls r := fun r hsp =>
      ⟨((hat₃ r).mp hsp.page).2, ((hat₃ r).mp hsp.page).1, fun x hx => hsp.free x
        ((UsedSlot.congr (by rw [hpage.run]) (fun _ => by rw [hpage.link]) x).mpr hx)⟩
    refine ⟨fun r r' hsp hsp' he => ?_, fun q hq hqc => ?_⟩
    · obtain ⟨hr, hsp⟩ := hspare r hsp
      obtain ⟨hr', hsp'⟩ := hspare r' hsp'
      exact hone r r' hr hr' hsp hsp' (by rwa [hpage.run] at he)
    · by_cases hqc' : q = c
      · -- the page of the header is not the only one that is left
        subst hqc'
        have hq₃ := h₃.chunk q (hperm.mem_iff.mpr hq)
        have hne : (pages (s₃.small q).bitmap).card ≠ 1 := fun hcard =>
          of_decide_eq_false (hqc.resolve_left fun hne => hne rfl) (hq₃.used.trans hcard)
        have hlt : 1 < (pages (s₃.small q).bitmap).card := by
          have := Finset.card_pos.mpr ⟨0, hq₃.first⟩
          omega
        obtain ⟨x, hx, hx₀⟩ := Finset.exists_mem_ne hlt 0
        exact ⟨x, (mem_pages.mp hx).1, hx₀, q, hq, x, hx, hx₀, rfl⟩
      · obtain ⟨x, hx, hx₀, hrunq⟩ := hs.some q hq
        refine ⟨x, hx, hx₀, (hat₃ _).mpr ⟨(hat₂ _).mpr hrunq, fun he => hqc' ?_⟩⟩
        exact ((h.chunk q hq).place.page_eq (h.chunk c hc).place hx (mem_pages.mp hp).1 he).1
  · next hcond =>
    obtain ⟨rfl, -⟩ := Prod.mk.inj (Except.ok.inj hrun)
    refine ⟨fun r r' hsp hsp' he => ?_, fun q hq _ => ?_⟩
    · -- a pool with one run in it
      have halone : ∀ q, Spare s₂ ls (c + p * 4096) → Spare s₂ ls q →
          (s₂.run (c + p * 4096)).elemsize = (s₂.run q).elemsize → q = c + p * 4096 := by
        intro q hr hq he
        obtain ⟨hk, -, hzero⟩ := h₂.spare_mem hr
        obtain ⟨-, hm, -⟩ := h₂.spare_mem hq
        have hsize := (h₂.pools _ hk).size
        rw [← h₂.conf_eq hr.page hq.page he, hconf, Function.update_self] at hm
        rw [hconf, Function.update_self] at hsize
        have hlen : l.length = 1 := by
          by_contra hlt
          refine hcond (Bool.and_eq_true_iff.mpr ⟨decide_eq_true hzero, decide_eq_true ?_⟩)
          have := List.length_pos_of_mem hl
          rw [hconf, hsize]
          omega
        obtain ⟨x, rfl⟩ := List.length_eq_one_iff.mp hlen
        exact (List.mem_singleton.mp hm).trans (List.mem_singleton.mp hl).symm
      by_cases hr : r = c + p * 4096
      · subst hr
        exact (halone r' hsp hsp' he).symm
      · by_cases hr' : r' = c + p * 4096
        · subst hr'
          exact halone r hsp' hsp he.symm
        · exact hone r r' hr hr' hsp hsp' he
    · obtain ⟨x, hx, hx₀, hrunq⟩ := hs.some q hq
      exact ⟨x, hx, hx₀, (hat₂ _).mpr hrunq⟩

theorem HeapOk.free_small_spare (h : HeapOk s ls lm pool) (hs : Spared s ls) {c p o : Nat} (hc : c ∈ ls)
    (hp : p ∈ pages (s.small c).bitmap) (hp₀ : p ≠ 0) (ho : UsedSlot s (c + p * 4096) o)
    (hu : Unlinked s (c + p * 4096)) (haddr : (s.arenaAddrs (pos2index c)).addr ≠ none)
    (hrun : freeInChunk s (pos2index c) c (p * 4096 + o) = .ok s') : HeapSpared s' := by
  have hcm : c ∉ lm := fun hm => h.small_medium hc hm
  obtain ⟨s₁, b, ls₁, pool₁, hcall, hi, hperm, hf, hused⟩ := freeChunkSmall_step h.small hc hp hp₀ ho hu
  obtain ⟨hone, hsome⟩ := h.small.free_spare hs hc hp hp₀ ho hu hcall
  obtain ⟨hm, hmc⟩ := h.toChunksOk.mediums_frame hf.frame hcm
  have hmed : ∀ q ∈ lm, s₁.medium q = s.medium q := fun q hq => hf.frame.medium q fun he => hcm (he ▸ hq)
  have h₁ : HeapInv s₁ ls₁ lm pool₁ := by
    refine ⟨⟨hi, hm, hmc⟩, hf.frame.arenas ▸ h.arenas, fun i => by rw [hf.frame.arenas]; exact h.arena i, fun q => ?_⟩
    rw [IsChunk.congr hf.frame.arenas, h.registered, hperm.mem_iff]
  have hone₁ : ∀ r r', Spare s₁ ls₁ r → Spare s₁ ls₁ r' → (s₁.run r).elemsize = (s₁.run r').elemsize → r = r' :=
    fun r r' hr hr' => hone r r' ⟨(RunAt.perm hperm).mp hr.page, hr.free⟩ ⟨(RunAt.perm hperm).mp hr'.page, hr'.free⟩
  rw [freeInChunk_small (congrArg ChunkHeader.type (h.small.chunk c hc).header), hcall, Exec.ok_bind] at hrun
  cases b with
  | false =>
    obtain rfl := Except.ok.inj hrun
    refine ⟨ls₁, lm, pool₁, ⟨h₁, fun q hq => by rw [hmed q hq]; exact h.used q hq⟩, hone₁, fun q hq => ?_⟩
    obtain ⟨x, hx, hx₀, hr⟩ := hsome q (hperm.mem_iff.mp hq) (.inr rfl)
    exact ⟨x, hx, hx₀, (RunAt.perm hperm).mpr hr⟩
  | true =>
    obtain ⟨s₂, hrel, h₂, hsame, hmed₂⟩ := h₁.release_small (hperm.mem_iff.mpr hc) (hused rfl)
      (by rwa [hf.frame.arenaAddrs])
    obtain rfl := Except.ok.inj (hrel.symm.trans hrun)
    obtain ⟨hat, hspare⟩ := h₁.small.runs_stay h₂.small (x := 0) (fun q n => hsame.blocks .small q n)
      (fun _ _ _ hm => hm) fun _ _ _ hm _ => hm
    refine ⟨_, lm, pool₁, ⟨h₂, fun q hq => by rw [hmed₂ q hq, hmed q hq]; exact h.used q hq⟩, fun r r' hr hr' he => ?_,
      fun q hq => ?_⟩
    · obtain ⟨hr₁, e⟩ := hspare r hr.page.ne_zero hr
      obtain ⟨hr₁', e'⟩ := hspare r' hr'.page.ne_zero hr'
      exact hone₁ r r' hr₁ hr₁' (by rw [← e, ← e', he])
    · obtain ⟨hne, hq₁⟩ := hi.chunks.holds.nodup.mem_erase_iff.mp hq
      obtain ⟨x, hx, hx₀, hr⟩ := hsome q (hperm.mem_iff.mp hq₁) (.inl hne)
      exact ⟨x, hx, hx₀, hat _ ((RunAt.perm hperm).mpr hr)⟩

/-- A block that is not small goes. -/
theorem Spared.freed (hs : Spared s ls) (h : HeapInv s ls lm pool) (h' : SmallInv s' ls pool) {k : BlockKind} {pos n : Nat}
    (hk : k ≠ .small) (hb : Block s ls lm k pos n) (hf : Freed s s' ls lm ls lm' pos) : Spared s' ls :=
  hs.same_pools h.small h' (fun q m => (hf.blocks .small q m).trans
    (and_iff_left_of_imp fun hq => h.ne_of_kind (k := .small) hq hb hk.symm)) fun _ hc => hc

theorem HeapSpared.free (hs : HeapSpared s) (h : HeapOk s ls lm pool) {k : BlockKind} {pos n : Nat}
    (hb : Block s ls lm k pos n) (hu : Unstale s pos) (hrun : freeArena s (pos2index pos) (pos2offset pos) = .ok s') :
    HeapSpared s' := by
  obtain ⟨ls₀, lm₀, pool₀, h₀, hs₀⟩ := hs
  have hb₀ := (h₀.block_iff h.toHeapInv k pos n).mpr hb
  cases k with
  | small =>
    obtain ⟨c, p, o, hin, hp, hp₀, ho, h₁, h₂, h₈, -⟩ := h₀.smallBlock hb₀
    have hc := (h₀.registered c).mpr (.inl hin.chunk)
    have hx : p * 4096 + o < 2 ^ 20 := by
      have := (mem_pages.mp hp).1
      omega
    have hunl : Unlinked s (c + p * 4096) := by
      rw [← page_start (h₀.small.chunk c hin.chunk).place.aligned (by omega : o < 4096), ← hin.pos]
      exact (h₀.unstale_iff hb₀).mp hu rfl
    rw [hin.pos, h₀.freeArena_eq hc hx] at hrun
    obtain ⟨s₁, hlook, hrun⟩ := Exec.bind_ok hrun
    have e := getOrUpdateAddr_same hlook
    have hunl₁ : Unlinked s₁ (c + p * 4096) := by
      unfold Unlinked at *
      rwa [e.objects.run _ trivial, e.objects.runNode _ trivial]
    exact (h₀.same e).free_small_spare (hs₀.same h₀.small e) hin.chunk (by rwa [e.objects.small c trivial]) hp₀
      ((UsedSlot.same e.objects trivial o).mpr ho) hunl₁ (getOrUpdateAddr_entry hlook) hrun
  | medium =>
    obtain ⟨c, p, m, hin, hu', h₁, h₂, hm, -⟩ := h₀.mediumBlock hb₀
    rw [hin.pos, h₀.freeArena_eq ((h₀.registered c).mpr (.inr hin.chunk)) (by omega)] at hrun
    obtain ⟨s₁, hlook, hrun⟩ := Exec.bind_ok hrun
    have e := getOrUpdateAddr_same hlook
    obtain ⟨s₂, lm', hcall, h', hf⟩ := (h₀.same e).free_medium hin.chunk (by rwa [e.objects.medium c trivial])
      (getOrUpdateAddr_entry hlook)
    obtain rfl := Except.ok.inj (hcall.symm.trans hrun)
    exact ⟨ls₀, lm', pool₀, h', hs₀.freed h₀.toHeapInv h'.small (by decide) hb₀
      (hin.pos ▸ (e.blocks h₀.toChunksOk).freed hf)⟩
  | large =>
    rw [h₀.freeArena_large hb₀] at hrun
    obtain ⟨i, ht, rfl, rfl⟩ := hb₀
    rw [show pos2index (i * 2 ^ 32) = i by rw [pos2index_eq]; omega] at hrun
    obtain ⟨h', hf⟩ := h₀.free_large ht hrun
    exact ⟨ls₀, lm₀, pool₀, h', hs₀.freed h₀.toHeapInv h'.small (k := .large) (by decide) ⟨i, ht, rfl, rfl⟩ hf⟩

theorem HeapSpared.setData (h : HeapSpared s) (d : Bytes) : HeapSpared {s with data := d} := by
  obtain ⟨ls, lm, pool, h, hs⟩ := h
  have hb : ∀ q n, Block {s with data := d} ls lm .small q n ↔ Block s ls lm .small q n := fun q n =>
    Block.setData d .small q n
  exact ⟨ls, lm, pool, h.setData d, hs.same_pools h.small (h.setData d).small hb fun _ hc => hc⟩

theorem HeapSpared.realloc (hs : HeapSpared s) (h : HeapOk s ls lm pool) {k : BlockKind} {pos n size ret : Nat}
    (hb : Block s ls lm k pos n) (hu : Unstale s pos) (hsize : size < 2 ^ 64) {os : Os}
    (hrun : shmRealloc s pos size os = .ok (s', ret)) : HeapSpared s' := by
  rw [shmRealloc_eq (h.pos_ne hb)] at hrun
  obtain ⟨⟨s₁, c⟩, hcheck, hrun⟩ := Exec.bind_ok hrun
  obtain ⟨e₁, rfl⟩ := h.check hb hcheck
  have hs₁ := hs.same e₁
  dsimp only at hrun
  split at hrun
  · next hlt =>
    have hn : checkedSize k pos n = n := (checkedSize_cases k pos n).resolve_right hlt.2
    rw [hn] at hlt hrun
    obtain ⟨⟨s₂, ret'⟩, hmalloc, hrun⟩ := Exec.bind_ok hrun
    have hs₂ := hs₁.malloc (by omega) hsize hmalloc
    obtain ⟨rfl, e₂⟩ | ⟨hne, ls', lm', pool', m, h₂, ha, hm, -⟩ := (h.same e₁).malloc (by omega) hsize hmalloc
    · obtain ⟨rfl, rfl⟩ := Prod.mk.inj (Except.ok.inj hrun)
      exact hs₂
    · dsimp only at hrun
      rw [if_pos hne] at hrun
      obtain ⟨s₃, hl₃, hrun⟩ := Exec.bind_ok hrun
      obtain ⟨s₄, hl₄, hrun⟩ := Exec.bind_ok hrun
      obtain ⟨s₅, hfree, hrun⟩ := Exec.bind_ok hrun
      obtain ⟨rfl, rfl⟩ := Prod.mk.inj (Except.ok.inj hrun)
      have e₄ := (getOrUpdateAddr_same hl₃).trans (getOrUpdateAddr_same hl₄)
      have ha₄ := ((e₁.blocks h.toChunksOk).allocated ha).same (e₄.blocks h₂.toChunksOk)
      have hsmall : kindOf size = .small → n < m := fun hk => by
        have := kindOf_small hk
        omega
      obtain ⟨hu₅, h₅, hb₅, -⟩ := h.move hb hu hsmall (h₂.same e₄) ha₄ hlt.1
      exact ((hs₂.same e₄).setData _).free h₅ hb₅ hu₅ hfree
  · obtain ⟨rfl, rfl⟩ := Prod.mk.inj (Except.ok.inj hrun)
    exact hs₁

end
end ShmMalloc
