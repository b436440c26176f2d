import ShmMalloc.Chunk.SmallPages

/-! Small chunks, their runs, and the pools of runs.

A page of a small chunk with its bit set has a run, and the pool of a class holds the
runs of the class that have a free slot. A call changes one run and one pool, and at
most the key of the chunk; `SmallInv` is carried over each of the three changes: to a
run, to a page that is taken, and to a page that is given back. -/
namespace ShmMalloc

structure SmallInv (s : Shm) (ls : List Nat) (pool : Nat → List Nat) : Prop where
  chunks : ChunkPool s .small ls
  chunk : ∀ c ∈ ls, SmallChunk s c
  run : ∀ r, RunAt s ls r → ∃ f, Run s r f
  pools : ∀ k, IsClass k → PoolHolds s.runNode (s.runPool k) (pool k)
  mem : ∀ k, IsClass k → ∀ r, r ∈ pool k ↔
    RunAt s ls r ∧ (s.run r).confIndex = k ∧ (s.run r).used < (s.run r).total

/-- The bytes of the context and of the headers of small chunks and their runs. -/
def smallBytes (s : Shm) (ls : List Nat) : Set (Nat × Nat) :=
  {y | y ∈ headerBytes ls ∨ ∃ r, RunAt s ls r ∧ y ∈ bytes r 64}

section
variable {s s' : Shm} {ls : List Nat} {pool : Nat → List Nat}

theorem smallBytes_header : ∀ y ∈ headerBytes ls, y ∈ smallBytes s ls := fun _ hy => .inl hy

theorem smallBytes_context : ∀ y ∈ bytes 0 (2 ^ 20), y ∈ smallBytes s ls := fun _ hy => .inl (.inl hy)

theorem RunAt.smallBytes {r : Nat} (h : RunAt s ls r) : ∀ y ∈ bytes r 64, y ∈ smallBytes s ls :=
  fun _ hy => .inr ⟨r, h, hy⟩

theorem SmallInv.toPages (h : SmallInv s ls pool) : SmallPages s ls where
  chunks := h.chunks
  chunk := h.chunk
  pos r hr := by
    obtain ⟨f, hf⟩ := h.run r hr
    exact hf.pos

theorem SmallInv.page (h : SmallInv s ls pool) {r : Nat} (hr : RunAt s ls r) : IsPage r := by
  obtain ⟨c, hc, p, hp, -, rfl⟩ := hr
  exact (h.chunk c hc).place.page (mem_pages.mp hp).1

theorem SmallInv.conf (h : SmallInv s ls pool) {r : Nat} (hr : RunAt s ls r) :
    IsClass (s.run r).confIndex := by
  obtain ⟨f, hf⟩ := h.run r hr
  exact hf.conf

/-- A run is in no pool but that of its class. -/
theorem SmallInv.apart (h : SmallInv s ls pool) {j k r : Nat} (hj : IsClass j) (hk : IsClass k) (hne : j ≠ k)
    (hr : r ∈ pool j) : r ∉ pool k := by
  intro hr'
  obtain ⟨-, h₁, -⟩ := (h.mem j hj r).mp hr
  obtain ⟨-, h₂, -⟩ := (h.mem k hk r).mp hr'
  exact hne (h₁.symm.trans h₂)

/-! ### One run -/

/-- One run changes, and the pool of its class. -/
theorem SmallInv.rerun (h : SmallInv s ls pool) (e : RunsOnly s s') {r k : Nat} {f l : List Nat}
    (hr : RunAt s ls r) (hk : (s.run r).confIndex = k) (hrun : Run s' r f)
    (hconf : (s'.run r).confIndex = k)
    (hother : ∀ q, q ≠ r → s'.run q = s.run q ∧ s'.link q = s.link q)
    (hpool : ∀ j, j ≠ k → s'.runPool j = s.runPool j)
    (hnode : ∀ q, q ∉ r :: pool k → s'.runNode q = s.runNode q)
    (hholds : PoolHolds s'.runNode (s'.runPool k) l)
    (hmem : ∀ q, q ∈ l ↔ q ≠ r ∧ q ∈ pool k ∨ q = r ∧ (s'.run r).used < (s'.run r).total) :
    SmallInv s' ls (Function.update pool k l) := by
  have hclass : IsClass k := hk ▸ h.conf hr
  have hat : ∀ q, RunAt s' ls q ↔ RunAt s ls q := fun q => RunAt.congr fun c _ => by rw [e.small]
  refine ⟨h.chunks.of_nodes (fun q _ => by rw [e.chunkNode]) e.smallPool e.mediumPool, fun c hc => ?_,
    fun q hq => ?_, fun j hj => ?_, fun j hj q => ?_⟩
  · obtain ⟨h₁, h₂, h₃, h₄, h₅⟩ := h.chunk c hc
    exact ⟨h₁, by rw [e.header, h₂], by rwa [e.small], by rw [e.small, h₄], by rw [e.chunkNode, e.small, h₅]⟩
  · by_cases hqr : q = r
    · rw [hqr]
      exact ⟨f, hrun⟩
    · obtain ⟨g, hg⟩ := h.run q ((hat q).mp hq)
      obtain ⟨h₁, h₂⟩ := hother q hqr
      exact ⟨g, hg.congr h₁ fun o _ => by rw [h₂]⟩
  · by_cases hjk : j = k
    · rw [hjk, Function.update_self]
      exact hholds
    · rw [Function.update_of_ne hjk, hpool j hjk]
      refine (h.pools j hj).congr fun q hq => hnode q fun hm => ?_
      rcases List.mem_cons.mp hm with rfl | hm
      · exact hjk (((h.mem j hj q).mp hq).2.1.symm.trans hk)
      · exact h.apart hj hclass hjk hq hm
  · rw [hat]
    by_cases hqr : q = r
    · subst hqr
      rw [hconf]
      by_cases hjk : j = k
      · rw [hjk, Function.update_self, hmem]
        simp [hr]
      · rw [Function.update_of_ne hjk]
        refine iff_of_false (fun hq => ?_) fun hq => hjk hq.2.1.symm
        exact hjk (((h.mem j hj q).mp hq).2.1.symm.trans hk)
    · obtain ⟨h₁, -⟩ := hother q hqr
      rw [h₁]
      by_cases hjk : j = k
      · rw [hjk, Function.update_self, hmem, ← h.mem k hclass q]
        simp [hqr]
      · rw [Function.update_of_ne hjk]
        exact h.mem j hj q

/-- The pool of a class as it is. -/
theorem SmallInv.pool_mem (h : SmallInv s ls pool) {r k : Nat} (hk : IsClass k) (hr : RunAt s ls r)
    (hconf : (s.run r).confIndex = k) (q : Nat) :
    q ∈ pool k ↔ q ≠ r ∧ q ∈ pool k ∨ q = r ∧ (s.run r).used < (s.run r).total := by
  by_cases hq : q = r
  · subst hq
    rw [h.mem k hk]
    simp [hr, hconf]
  · simp [hq]

/-! ### A slot is taken -/

structure SlotTaken (s s' : Shm) (r o : Nat) : Prop where
  slot : o ∈ slots (s.run r).elemsize
  free : ¬UsedSlot s r o
  used : ∀ q x, UsedSlot s' q x ↔ UsedSlot s q x ∨ q = r ∧ x = o
  elemsize : ∀ q, (s'.run q).elemsize = (s.run q).elemsize

theorem SlotTaken.of_runs {r o : Nat} {f : List Nat} (h : Run s r (o :: f)) (h' : Run s' r f)
    (he : (s'.run r).elemsize = (s.run r).elemsize)
    (hother : ∀ q, q ≠ r → s'.run q = s.run q ∧ s'.link q = s.link q) : SlotTaken s s' r o where
  slot := h.slot o List.mem_cons_self
  free hu := ((h.usedSlot_iff o).mp hu).2 List.mem_cons_self
  used q x := by
    by_cases hq : q = r
    · subst hq
      rw [h.usedSlot_iff, h'.usedSlot_iff, he, List.mem_cons, not_or]
      have ho := h.slot o List.mem_cons_self
      have hof := (List.nodup_cons.mp h.nodup).1
      constructor
      · rintro ⟨hs, hx⟩
        by_cases hxo : x = o
        · exact .inr ⟨rfl, hxo⟩
        · exact .inl ⟨hs, hxo, hx⟩
      · rintro (⟨hs, -, hx⟩ | ⟨-, rfl⟩)
        · exact ⟨hs, hx⟩
        · exact ⟨ho, hof⟩
    · obtain ⟨h₁, h₂⟩ := hother q hq
      rw [UsedSlot.congr h₁ fun o => by rw [h₂]]
      simp [hq]
  elemsize q := by
    by_cases hq : q = r
    · rw [hq, he]
    · rw [(hother q hq).1]

theorem Run.setRunTree {r : Nat} {f : List Nat} (h : Run s r f) (k : Nat) (t : TreeHeap) (pool : ShmPool) :
    Run (s.setRunTree k t pool) r f := h.congr rfl fun _ _ => rfl

/-- `malloc_chunk_run` on the root of a pool. -/
theorem mallocChunkRun_step (h : SmallInv s ls pool) {k r : Nat} (hk : IsClass k)
    (hroot : (s.runPool k).root = r) (hne : r ≠ 0) :
    ∃ s' o l, mallocChunkRun s r = .ok (s', r + o) ∧ SmallInv s' ls (Function.update pool k l) ∧
      RunsOnly s s' ∧ RunAt s ls r ∧ (s.run r).confIndex = k ∧ SlotTaken s s' r o ∧
      (∀ q, q ∉ pool k → s'.run q = s.run q ∧ s'.runNode q = s.runNode q) ∧
      SameData (smallBytes s ls) s.data s'.data := by
  have hmem : r ∈ pool k := hroot ▸ (h.pools k hk).root_mem (hroot ▸ hne)
  obtain ⟨hat, hconf, hlt⟩ := (h.mem k hk r).mp hmem
  obtain ⟨f₀, hf⟩ := h.run r hat
  cases f₀ with
  | nil => exact absurd rfl (hf.full_iff.mp hlt)
  | cons o f =>
    obtain ⟨hd, hmalloc, hrun, hhd⟩ := mallocRun_spec hf
    have hself : (s.setRun r hd).run r = hd := setRun_run ..
    have hother : ∀ q, q ≠ r → (s.setRun r hd).run q = s.run q ∧ (s.setRun r hd).link q = s.link q :=
      fun q hq => ⟨setRun_ne s hd hq, rfl⟩
    have hout_run : ∀ q, q ∉ pool k → (s.setRun r hd).run q = s.run q := fun q hq =>
      (hother q fun he => hq (he ▸ hmem)).1
    have hconf' : ((s.setRun r hd).run r).confIndex = k := by rw [hself, hhd, ← hconf]
    have helem : ((s.setRun r hd).run r).elemsize = (s.run r).elemsize := by rw [hself, hhd]
    have hpos := hrun.pos
    have hdata : SameData (smallBytes s ls) s.data (s.setRun r hd).data := .wrote hat.smallBytes
    rw [mallocChunkRun_eq, hmalloc, Exec.ok_bind]
    by_cases hfull : ((s.setRun r hd).run r).used = ((s.setRun r hd).run r).total
    · obtain ⟨h', pool', hpop, hholds, hout⟩ := shmTreePop_holds (h.pools k hk) (List.ne_nil_of_mem hmem)
      rw [hroot] at hholds
      have hnd := (h.pools k hk).nodup
      have hpopRun : popRun (s.setRun r hd) r = .ok ((s.setRun r hd).setRunTree k h' pool') := by
        unfold popRun
        rw [hconf', show (s.setRun r hd).runNode = s.runNode from rfl,
          show (s.setRun r hd).runPool k = s.runPool k from rfl, hpop]
        rfl
      have e : RunsOnly s ((s.setRun r hd).setRunTree k h' pool') := (RunsOnly.setRun ..).trans (.setRunTree ..)
      have hrun' := hrun.setRunTree k h' pool'
      refine ⟨_, o, (pool k).erase r, ?_, h.rerun e hat hconf hrun' hconf' hother
        (fun j hj => setRunTree_pool_ne _ _ _ hj) (fun q hq => hout q fun hm => hq (.tail _ hm)) ?_ fun q => ?_,
        e, hat, hconf, .of_runs hf hrun' helem hother, fun q hq => ⟨hout_run q hq, hout q hq⟩,
        hdata.trans (.setRunTree smallBytes_context (fun q hq => ?_) k pool')⟩
      · have hfull' : runFull (s.setRun r hd) r = true := decide_eq_true hfull
        simp only [hfull', if_true, hpopRun, Exec.ok_bind, hpos]
      · rw [setRunTree_pool]
        exact hholds
      · have hnlt : ¬((s.setRun r hd).run r).used < ((s.setRun r hd).run r).total := by omega
        rw [hnd.mem_erase_iff]
        exact ⟨.inl, fun hq => hq.elim id fun hq => absurd hq.2 hnlt⟩
      · by_contra hno
        exact hq (hout q fun hm => hno ((h.mem k hk q).mp hm).1.smallBytes)
    · have hlt' : ((s.setRun r hd).run r).used < ((s.setRun r hd).run r).total := by
        have := hrun.used
        omega
      have e : RunsOnly s (s.setRun r hd) := .setRun ..
      refine ⟨_, o, pool k, ?_, h.rerun e hat hconf hrun hconf' hother (fun _ _ => rfl) (fun _ _ => rfl)
        (h.pools k hk) fun q => ?_, e, hat, hconf, .of_runs hf hrun helem hother, fun q hq => ⟨hout_run q hq, rfl⟩,
        hdata⟩
      · have hnot : ¬runFull (s.setRun r hd) r = true := fun he => hfull (of_decide_eq_true he)
        rw [if_neg hnot, hpos]
      · refine (h.pool_mem hk hat hconf q).trans ?_
        simp only [hlt, hlt']

/-! ### A slot is given back -/

structure SlotFreed (s s' : Shm) (r o : Nat) : Prop where
  used : ∀ q x, UsedSlot s' q x ↔ UsedSlot s q x ∧ ¬(q = r ∧ x = o)
  elemsize : ∀ q, (s'.run q).elemsize = (s.run q).elemsize

theorem SlotFreed.of_runs {r o : Nat} {f : List Nat} (h : Run s r f) (h' : Run s' r (o :: f))
    (he : (s'.run r).elemsize = (s.run r).elemsize)
    (hother : ∀ q, q ≠ r → s'.run q = s.run q ∧ s'.link q = s.link q) : SlotFreed s s' r o where
  used q x := by
    by_cases hq : q = r
    · subst hq
      rw [h.usedSlot_iff, h'.usedSlot_iff, he, List.mem_cons, not_or]
      constructor
      · rintro ⟨hs, hxo, hx⟩
        exact ⟨⟨hs, hx⟩, fun he => hxo he.2⟩
      · rintro ⟨⟨hs, hx⟩, hne⟩
        exact ⟨hs, fun he => hne ⟨rfl, he⟩, hx⟩
    · obtain ⟨h₁, h₂⟩ := hother q hq
      rw [UsedSlot.congr h₁ fun o => by rw [h₂]]
      simp [hq]
  elemsize q := by
    by_cases hq : q = r
    · rw [hq, he]
    · rw [(hother q hq).1]

/-- The links of a run that is full, and so not in its pool, are clear. -/
def Unlinked (s : Shm) (r : Nat) : Prop :=
  (s.run r).used = (s.run r).total → (s.runNode r).left = 0 ∧ (s.runNode r).right = 0

/-- `free_run`, and the run goes back to its pool if it was full. -/
theorem freeRun_step (h : SmallInv s ls pool) {r o : Nat} (hat : RunAt s ls r) (ho : UsedSlot s r o)
    (hu : Unlinked s r) :
    ∃ s₁ s₂ l, freeRun s r o = .ok s₁ ∧ (if runFull s r then pushRun s₁ r else .ok s₁) = .ok s₂ ∧
      SmallInv s₂ ls (Function.update pool (s.run r).confIndex l) ∧ RunsOnly s s₂ ∧ r ∈ l ∧
      SlotFreed s s₂ r o ∧ (s₂.run r).confIndex = (s.run r).confIndex ∧
      (∀ q, q ∉ r :: pool (s.run r).confIndex → s₂.runNode q = s.runNode q) ∧
      SameData {y | y ∈ smallBytes s ls ∨ y ∈ bytes (r + o) 4} s.data s₂.data := by
  obtain ⟨f, hf⟩ := h.run r hat
  obtain ⟨hd, hfree, hrun, hhd⟩ := freeRun_spec hf ho
  have hk := h.conf hat
  generalize hconf : (s.run r).confIndex = k at hk ⊢
  generalize hs₁ : (s.setLink r o (s.run r).free).setRun r hd = s₁ at hfree hrun
  have hself : s₁.run r = hd := by rw [← hs₁, setRun_run]
  have hother : ∀ q, q ≠ r → s₁.run q = s.run q ∧ s₁.link q = s.link q := by
    intro q hq
    rw [← hs₁]
    exact ⟨setRun_ne _ hd hq, setLink_ne s _ _ hq⟩
  have e₁ : RunsOnly s s₁ := by
    rw [← hs₁]
    exact ⟨rfl, rfl, rfl, rfl, rfl, rfl, rfl, rfl, rfl⟩
  have hdata : SameData {y | y ∈ smallBytes s ls ∨ y ∈ bytes (r + o) 4} s.data s₁.data := by
    rw [← hs₁]
    exact (SameData.wrote fun y hy => .inr hy).trans (.wrote fun y hy => .inl (hat.smallBytes y hy))
  have hnode : s₁.runNode = s.runNode := by rw [← hs₁]; rfl
  have hpool : s₁.runPool = s.runPool := by rw [← hs₁]; rfl
  have hconf₁ : (s₁.run r).confIndex = k := by rw [hself, hhd, ← hconf]
  have helem : (s₁.run r).elemsize = (s.run r).elemsize := by rw [hself, hhd]
  have hlt : (s₁.run r).used < (s₁.run r).total := hrun.full_iff.mpr (List.cons_ne_nil o f)
  by_cases hfull : (s.run r).used = (s.run r).total
  · obtain ⟨hleft, hright⟩ := hu hfull
    have hnm : r ∉ pool k := fun hm => by
      have := ((h.mem k hk r).mp hm).2.2
      omega
    have hlen := length_le_pages (List.nodup_cons.mpr ⟨hnm, (h.pools k hk).nodup⟩) fun q hq => by
      rcases List.mem_cons.mp hq with rfl | hq
      · exact h.page hat
      · exact h.page ((h.mem k hk q).mp hq).1
    obtain ⟨t, pool', hpush, hholds, hout⟩ := shmTreePush_holds (h.pools k hk) hat.ne_zero hnm hleft hright hlen
    have hpushRun : pushRun s₁ r = .ok (s₁.setRunTree k t pool') := by
      unfold pushRun
      rw [hconf₁, hnode, hpool, hrun.pos, hpush]
      rfl
    have e : RunsOnly s (s₁.setRunTree k t pool') := e₁.trans (.setRunTree ..)
    have hrun' := hrun.setRunTree k t pool'
    refine ⟨s₁, _, r :: pool k, hfree, ?_, h.rerun e hat hconf hrun' hconf₁ hother
      (fun j hj => (setRunTree_pool_ne _ _ _ hj).trans (by rw [hpool])) hout ?_ fun q => ?_, e, .head _,
      .of_runs hf hrun' helem hother, hconf₁, hout, hdata.trans
        (.setRunTree (fun y hy => .inl (smallBytes_context y hy)) (fun q hq y hy => .inl ?_) k pool')⟩
    · have hfull' : runFull s r = true := decide_eq_true hfull
      rw [if_pos hfull', hpushRun]
    · rw [setRunTree_pool]
      exact hholds
    · rw [List.mem_cons]
      constructor
      · rintro (hq | hq)
        · exact .inr ⟨hq, hlt⟩
        · exact .inl ⟨fun he => hnm (he ▸ hq), hq⟩
      · rintro (⟨-, hq⟩ | ⟨hq, -⟩)
        · exact .inr hq
        · exact .inl hq
    · rw [hnode] at hq
      by_contra hno
      refine hq (hout q fun hm => hno ?_)
      rcases List.mem_cons.mp hm with rfl | hm
      · exact hat.smallBytes y hy
      · exact ((h.mem k hk q).mp hm).1.smallBytes y hy
  · have hlt₀ : (s.run r).used < (s.run r).total := by
      have := hf.used
      omega
    have hnot : ¬runFull s r = true := fun he => hfull (of_decide_eq_true he)
    refine ⟨s₁, s₁, pool k, hfree, if_neg hnot, h.rerun e₁ hat hconf hrun hconf₁ hother
      (fun _ _ => by rw [hpool]) (fun _ _ => by rw [hnode]) ?_ fun q => ?_, e₁, ?_,
      .of_runs hf hrun helem hother, hconf₁, fun _ _ => by rw [hnode], hdata⟩
    · rw [hnode, hpool]
      exact h.pools k hk
    · refine (h.pool_mem hk hat hconf q).trans ?_
      simp only [hlt, hlt₀]
    · exact (h.mem k hk r).mpr ⟨hat, hconf, hlt₀⟩

/-! ### A page is given back -/

theorem releaseRun_step (h : SmallInv s ls pool) {c p k : Nat} (hc : c ∈ ls)
    (hp : p ∈ pages (s.small c).bitmap) (hp₀ : p ≠ 0) (hk : (s.run (c + p * 4096)).confIndex = k)
    (hmem : c + p * 4096 ∈ pool k) :
    ∃ s' ls', releaseRun s c (c + p * 4096) = .ok (s', decide ((s'.small c).used = 1)) ∧
      SmallInv s' ls' (Function.update pool k ((pool k).erase (c + p * 4096))) ∧ ls'.Perm ls ∧
      PageFreed s s' ls c p ∧ SameData (smallBytes s ls) s.data s'.data := by
  have hat : RunAt s ls (c + p * 4096) := ⟨c, hc, p, hp, hp₀, rfl⟩
  have hclass : IsClass k := hk ▸ h.conf hat
  obtain ⟨t, pool', hremove, hholds, hout⟩ := shmTreeRemove_holds (h.pools k hclass) hmem
  have hremoveRun : removeRun s (c + p * 4096) = .ok (s.setRunTree k t pool') := by
    unfold removeRun
    rw [hk, h.toPages.pos _ hat, hremove]
    rfl
  obtain ⟨s', ls', hrun, hpages, hperm, hfreed, hnode, hpool, hdata⟩ := h.toPages.releaseRun hc hp hp₀ hremoveRun
  have hatAll : ∀ r, RunAt s' ls' r ↔ RunAt s ls r ∧ r ≠ c + p * 4096 := fun r =>
    (RunAt.perm hperm).trans (h.toPages.runAt_clear hc hp hfreed.bitmap hfreed.frame.small r)
  refine ⟨s', ls', hrun, ⟨hpages.chunks, hpages.chunk, fun r hr => ?_, fun j hj => ?_, fun j hj r => ?_⟩,
    hperm, hfreed, (SameData.setRunTree smallBytes_context (fun q hq => ?_) k pool').trans
      (hdata.mono smallBytes_header)⟩
  · obtain ⟨g, hg⟩ := h.run r ((hatAll r).mp hr).1
    exact ⟨g, hg.congr (by rw [hfreed.run]) fun o _ => by rw [hfreed.link]⟩
  · rw [hnode, hpool]
    by_cases hjk : j = k
    · rw [hjk, Function.update_self, setRunTree_pool]
      exact hholds
    · rw [Function.update_of_ne hjk, setRunTree_pool_ne _ _ _ hjk]
      exact (h.pools j hj).congr fun q hq => hout q (h.apart hj hclass hjk hq)
  · rw [hatAll, hfreed.run]
    by_cases hjk : j = k
    · rw [hjk, Function.update_self, (h.pools k hclass).nodup.mem_erase_iff, h.mem k hclass]
      tauto
    · rw [Function.update_of_ne hjk, h.mem j hj]
      refine ⟨fun hr => ⟨⟨hr.1, ?_⟩, hr.2⟩, fun hr => ⟨hr.1.1, hr.2⟩⟩
      rintro rfl
      exact hjk (hr.2.1.symm.trans hk)
  · by_contra hno
    exact hq (hout q fun hm => hno ((h.mem k hclass q).mp hm).1.smallBytes)

/-! ### A block in a small chunk is freed -/

/-- What `free_chunk_small` leaves of the runs. -/
structure BlockFreed (s s' : Shm) (ls : List Nat) (c r o : Nat) : Prop where
  frame : ChunkFrame s s' .small c ls
  header : s'.header = s.header
  slot : SlotFreed s s' r o
  data : SameData {y | y ∈ smallBytes s ls ∨ y ∈ bytes (r + o) 4} s.data s'.data
  /-- The run's page stays, or all of the run's slots are free. -/
  page : (∀ q, RunAt s' ls q ↔ RunAt s ls q) ∨
    (∀ x, ¬UsedSlot s' r x) ∧ ∀ q, RunAt s' ls q ↔ RunAt s ls q ∧ q ≠ r

theorem freeChunkSmall_step (h : SmallInv s ls pool) {c p o : Nat} (hc : c ∈ ls)
    (hp : p ∈ pages (s.small c).bitmap) (hp₀ : p ≠ 0) (ho : UsedSlot s (c + p * 4096) o)
    (hu : Unlinked s (c + p * 4096)) :
    ∃ s' b ls' pool', freeChunkSmall s c (p * 4096 + o) = .ok (s', b) ∧ SmallInv s' ls' pool' ∧
      ls'.Perm ls ∧ BlockFreed s s' ls c (c + p * 4096) o ∧ (b = true → (s'.small c).used = 1) := by
  have hat : RunAt s ls (c + p * 4096) := ⟨c, hc, p, hp, hp₀, rfl⟩
  obtain ⟨f, hf⟩ := h.run _ hat
  have hslot := ((hf.usedSlot_iff o).mp ho).1
  have hlt : o < 4096 := by
    have := slot_bounds hslot
    have := hf.bounds
    omega
  have hoff : ((s.header c).pos + (p * 4096 + o) + 2 ^ 64 - (s.run (c + p * 4096)).pos) % 2 ^ 32 = o := by
    rw [(h.chunk c hc).header, hf.pos]
    dsimp only
    omega
  obtain ⟨s₁, s₂, l, hfree, hpush, h₂, e, hl, hfreed, hconf, -, hdata⟩ := freeRun_step h hat ho hu
  have hsame : ∀ q, RunAt s₂ ls q ↔ RunAt s ls q := fun q => RunAt.congr fun c _ => by rw [e.small]
  have hrun : freeChunkSmall s c (p * 4096 + o) =
      if runEmpty s₂ (c + p * 4096) && (s₂.runPool (s₂.run (c + p * 4096)).confIndex).size > 1 then
        releaseRun s₂ c (c + p * 4096) else .ok (s₂, false) := by
    rw [freeChunkSmall_eq, h.toPages.findRun hc hp hlt, Exec.ok_bind]
    dsimp only
    rw [hoff, hfree, Exec.ok_bind, hpush, Exec.ok_bind]
  rw [hrun]
  split
  · next hcond =>
    have hempty : (s₂.run (c + p * 4096)).used = 0 :=
      of_decide_eq_true (Bool.and_eq_true _ _ ▸ hcond).1
    have hp₂ : p ∈ pages (s₂.small c).bitmap := by rwa [e.small]
    obtain ⟨s', ls', hrel, h', hperm, hpage, hdata'⟩ := releaseRun_step h₂ hc hp₂ hp₀ hconf (by
      rw [Function.update_self]
      exact hl)
    have hused : ∀ q x, UsedSlot s' q x ↔ UsedSlot s₂ q x := fun q x =>
      UsedSlot.congr (by rw [hpage.run]) (fun _ => by rw [hpage.link]) x
    refine ⟨s', _, ls', _, hrel, h', hperm, ⟨(e.frame .small c ls).trans hpage.frame,
      hpage.header.trans e.header, ⟨fun q x => (hused q x).trans (hfreed.used q x),
        fun q => by rw [hpage.run]; exact hfreed.elemsize q⟩, hdata.trans (hdata'.mono fun y hy => .inl ?_),
      .inr ⟨fun x hx => ?_, fun q => ?_⟩⟩, of_decide_eq_true⟩
    · exact hy.imp_right fun ⟨r, hr, hb⟩ => ⟨r, (hsame r).mp hr, hb⟩
    · obtain ⟨g, hg⟩ := h₂.run _ ((hsame _).mpr hat)
      exact Nat.ne_of_gt (hg.used_pos ((hused _ x).mp hx)) hempty
    · rw [h₂.toPages.runAt_clear hc hp₂ hpage.bitmap hpage.frame.small]
      exact and_congr_left fun _ => hsame q
  · exact ⟨s₂, false, ls, _, rfl, h₂, .refl _, ⟨e.frame .small c ls, e.header, hfreed, hdata, .inl hsame⟩,
      fun hf => by cases hf⟩

/-! ### A page is taken -/

theorem newChunkRun_step (h : SmallInv s ls pool) {c k : Nat} (hc : c ∈ ls) (hk : IsClass k)
    (hroom : (s.small c).used < 256) :
    ∃ s' p ls', newChunkRun s c k = .ok (s', c + p * 4096) ∧
      SmallInv s' ls' (Function.update pool k ((c + p * 4096) :: pool k)) ∧ ls'.Perm ls ∧
      PageTaken s s' ls c p k ∧ (∀ q, q ∉ (c + p * 4096) :: pool k → s'.runNode q = s.runNode q) ∧
      SameData {y | y ∈ smallBytes s ls ∨ y ∈ bytes (c + p * 4096) 4096} s.data s'.data := by
  have hplace := (h.chunk c hc).place
  obtain ⟨p, s₁, hs, hnew⟩ := (h.chunk c hc).start hk hroom
  have hnewAt : ¬RunAt s ls (c + p * 4096) := by
    rintro ⟨q, hq, x, hx, -, he⟩
    obtain ⟨rfl, rfl⟩ := hplace.page_eq (h.chunk q hq).place hs.lt (mem_pages.mp hx).1 he
    exact hs.free hx
  have hnm : ∀ j, IsClass j → c + p * 4096 ∉ pool j := fun j hj hm => hnewAt ((h.mem j hj _).mp hm).1
  -- the run goes into its pool
  have hlen := length_le_pages (List.nodup_cons.mpr ⟨hnm k hk, (h.pools k hk).nodup⟩) fun q hq => by
    rcases List.mem_cons.mp hq with rfl | hq
    · exact hplace.page hs.lt
    · exact h.page ((h.mem k hk q).mp hq).1
  have hpools₁ : ∀ j, IsClass j → PoolHolds s₁.runNode (s₁.runPool j) (pool j) := fun j hj => by
    rw [hs.pool]
    refine (h.pools j hj).congr fun q hq => (hs.other q ?_).2.2
    rintro rfl
    exact hnm j hj hq
  obtain ⟨t, pool', hpush, hholds, hout⟩ := shmTreePush_holds (hpools₁ k hk)
    (fun he => hs.ne (by omega)) (hnm k hk) (by rw [hs.node]; rfl) (by rw [hs.node]; rfl) hlen
  have hpushRun : pushRun s₁ (c + p * 4096) = .ok (s₁.setRunTree k t pool') := by
    unfold pushRun
    rw [hs.self]
    dsimp only
    rw [hpush]
    rfl
  obtain ⟨s', ls', hrekey, hpages, hperm, htaken, hrun', hre⟩ := h.toPages.takePage hc hroom hs hpushRun
  have hnode := hre.runNode
  have hpool := hre.runPool
  have hatAll : ∀ r, RunAt s' ls' r ↔ RunAt s ls r ∨ r = c + p * 4096 := fun r =>
    (RunAt.perm hperm).trans (runAt_set hc hs.lt hs.ne htaken.bitmap htaken.frame.small r)
  refine ⟨s', p, ls', by rw [hnew, hpushRun, Exec.ok_bind, hrekey, Exec.ok_bind],
    ⟨hpages.chunks, hpages.chunk, fun r hr => ?_, fun j hj => ?_, fun j hj r => ?_⟩, hperm, htaken, fun q hq => ?_, ?_⟩
  · rcases (hatAll r).mp hr with hr | rfl
    · obtain ⟨g, hg⟩ := h.run r hr
      obtain ⟨h₁, h₂⟩ := htaken.other r fun he => hnewAt (he ▸ hr)
      exact ⟨g, hg.congr h₁ fun o _ => by rw [h₂]⟩
    · exact ⟨_, htaken.run⟩
  · rw [hnode, hpool]
    by_cases hjk : j = k
    · rw [hjk, Function.update_self, setRunTree_pool]
      exact hholds
    · rw [Function.update_of_ne hjk, setRunTree_pool_ne _ _ _ hjk]
      refine (hpools₁ j hj).congr fun q hq => hout q fun hm => ?_
      rcases List.mem_cons.mp hm with rfl | hm
      · exact hnm j hj hq
      · exact h.apart hj hk hjk hq hm
  · rw [hatAll]
    by_cases hr : r = c + p * 4096
    · rw [hr, htaken.conf]
      have hroom' : (s'.run (c + p * 4096)).used < (s'.run (c + p * 4096)).total := by
        refine htaken.run.full_iff.mpr fun he => ?_
        have hpos : 0 < (slots (runConfig k)).length := by
          obtain ⟨h₁, h₂⟩ := runConfig_bounds hk.1 hk.2
          rw [length_slots]
          exact Nat.div_pos (by omega) (by omega)
        rw [he] at hpos
        exact absurd hpos (Nat.lt_irrefl 0)
      by_cases hjk : j = k
      · rw [hjk, Function.update_self]
        exact iff_of_true (.head _) ⟨.inr rfl, rfl, hroom'⟩
      · rw [Function.update_of_ne hjk]
        exact iff_of_false (hnm j hj) fun hc => hjk hc.2.1.symm
    · obtain ⟨h₁, -⟩ := htaken.other r hr
      rw [h₁, or_iff_left hr]
      by_cases hjk : j = k
      · rw [hjk, Function.update_self, List.mem_cons, or_iff_right hr]
        exact h.mem k hk r
      · rw [Function.update_of_ne hjk]
        exact h.mem j hj r
  · rw [hnode]
    exact (hout q hq).trans (hs.other q fun he => hq (he ▸ .head _)).2.2
  · refine ((hs.data.mono ?_).trans (.setRunTree (fun y hy => .inl (smallBytes_context y hy)) (fun q hq y hy => ?_) k
      pool')).trans (hre.data.mono fun y hy => .inl (smallBytes_header y hy))
    · rintro y (hy | hy)
      · exact .inl (smallBytes_header y (mem_headerBytes hc y hy))
      · exact .inr hy
    · by_contra hno
      refine hq (hout q fun hm => hno ?_)
      rcases List.mem_cons.mp hm with rfl | hm
      · exact .inr (bytes_le (by decide) y hy)
      · exact .inl (((h.mem k hk q).mp hm).1.smallBytes y hy)

/-! ### A chunk comes, goes, or is not concerned -/

/-- What a call on another chunk keeps of the chunks, and of their runs and pools. -/
theorem SmallInv.keep (h : SmallInv s ls pool) {ls' : List Nat} (h' : SmallPages s' ls')
    (hat : ∀ r, RunAt s' ls' r ↔ RunAt s ls r) {W : Set (Nat × Nat)} (e : SameRuns W s s') : SmallInv s' ls' pool := by
  refine ⟨h'.chunks, h'.chunk, fun r hr => ?_, fun j hj => ?_, fun j hj r => ?_⟩
  · obtain ⟨g, hg⟩ := h.run r ((hat r).mp hr)
    exact ⟨g, hg.congr (by rw [e.run]) fun _ _ => by rw [e.link]⟩
  · rw [e.runNode, e.runPool]
    exact h.pools j hj
  · rw [hat, e.run]
    exact h.mem j hj r

/-- A call on a medium chunk. -/
theorem SmallInv.frame {c : Nat} {lm : List Nat} (h : SmallInv s ls pool) (f : ChunkFrame s s' .medium c lm)
    {W : Set (Nat × Nat)} (e : SameRuns W s s') (hc : c ∉ ls) (hd : ∀ q ∈ ls, q ∉ lm) : SmallInv s' ls pool := by
  have hne : ∀ q ∈ ls, q ≠ c := by
    rintro q hq rfl
    exact hc hq
  have hpool : ChunkPool s' .small ls := h.chunks.frame f (by decide) fun q hq hm =>
    (List.mem_cons.mp hm).elim (hne q hq) (hd q hq)
  obtain ⟨h', hat⟩ := h.toPages.keep f e.run hpool (fun q hq => .inl ⟨hq, hne q hq⟩) fun q hq hgo =>
    hgo.elim (absurd hq) fun he => absurd he (hne q hq)
  exact h.keep h' hat e

theorem initChunk_small_step (h : SmallInv s ls pool) {c : Nat} (hc : c ∉ ls) (hn : c ≠ 0) (hplace : IsPlace c) :
    ∃ s' ls', initChunk s c c .small = .ok s' ∧ SmallInv s' ls' pool ∧ ls'.Perm (c :: ls) ∧
      ChunkFrame s s' .small c ls ∧ SameRuns (headerBytes (c :: ls)) s s' ∧ (s'.small c).used = 1 := by
  obtain ⟨s', ls', hrun, h', hperm, hat, f, e, m, hpages⟩ := h.toPages.create hc hn hplace
  refine ⟨s', ls', hrun, h.keep h' hat e, hperm, f, e, ?_⟩
  rw [m.used, hpages]
  rfl

/-- A chunk of which no run is left is deleted. -/
theorem deleteChunk_small_step (h : SmallInv s ls pool) {c : Nat} (hc : c ∈ ls) (hused : (s.small c).used = 1) :
    ∃ s', deleteChunk s c = .ok s' ∧ SmallInv s' (ls.erase c) pool ∧ ChunkFrame s s' .small c ls ∧
      SameRuns (headerBytes ls) s s' := by
  obtain ⟨s', hrun, h', hat, f, e⟩ := h.toPages.delete hc hused
  exact ⟨s', hrun, h.keep h' hat e, f, e⟩

end

end ShmMalloc
