import ShmMalloc.Chunk.SmallPages
import ShmMalloc.Library.Machine
import ShmMalloc.Malloc

/-! Runs of the calls that create and release the runs of small chunks.

The runs that `new_chunk_run` made and no free has released since are kept beside the
state. The slots of a run and the pools of runs may be in any order, and the rest of the
allocator writes anything but the small chunks, their pool, where the runs are and the
sizes of their slots. A free in the page of a run is of a slot, live or not: elsewhere in
the page the word that `free_run` writes is part of the header or of two slots. -/
namespace ShmMalloc
open Library

/-- A slot goes back to its run, and a run that was full goes into its pool. -/
def putBack (s : Shm) (chunk run offset : Nat) : Exec Shm :=
  freeRun s run (((s.header chunk).pos + offset + 2 ^ 64 - (s.run run).pos) % 2 ^ 32) >>= fun s₁ =>
    if runFull s run then pushRun s₁ run else .ok s₁

/-- The test of `free_chunk_small` for an empty run that its pool can do without. -/
def spare (s : Shm) (run : Nat) : Bool :=
  runEmpty s run && (s.runPool (s.run run).confIndex).size > 1

/-- `free_chunk_small` gives the page of the offset back. -/
def releases (s : Shm) (chunk offset : Nat) : Bool :=
  match findRun s chunk offset with
  | .ok (some run) =>
    match putBack s chunk run offset with
    | .ok s => spare s run
    | .error _ => false
  | _ => false

/-- The page of an offset of the chunk. -/
def pageOf (chunk offset : Nat) : Nat := chunk + offset / 4096 * 4096

structure SmallWorld where
  shm : Shm
  chunks : List Nat
  runs : List Nat

inductive SmallCall where
  | create (chunk : Nat)
  | newRun (chunk type size : Nat)
  | malloc (run : Nat)
  | free (chunk offset : Nat)
  | rest (s : Shm)

/-- Small chunks, their pool, the positions of runs and the sizes of their slots are the same. -/
structure SameSmall (w : SmallWorld) (s : Shm) : Prop where
  header : ∀ c ∈ w.chunks, s.header c = w.shm.header c
  small : ∀ c ∈ w.chunks, s.small c = w.shm.small c
  node : ∀ c ∈ w.chunks, s.chunkNode c = w.shm.chunkNode c
  pool : s.chunkSmallPool = w.shm.chunkSmallPool
  pos : ∀ r ∈ w.runs, (s.run r).pos = (w.shm.run r).pos
  elemsize : ∀ r ∈ w.runs, (s.run r).elemsize = (w.shm.run r).elemsize

/-- No page of the chunk has a run. -/
def SmallWorld.NoRun (w : SmallWorld) (chunk : Nat) : Prop := ∀ p < 256, chunk + p * 4096 ∉ w.runs

/-- An offset in the page of a run is that of a slot. -/
def SmallWorld.OnSlot (w : SmallWorld) (chunk offset : Nat) : Prop :=
  pageOf chunk offset ∈ w.runs → offset % 4096 ∈ slots (w.shm.run (pageOf chunk offset)).elemsize

namespace SmallCall

/-- A run is made in a chunk that a search returns, or in one that has none. -/
def Legal (w : SmallWorld) : SmallCall → Prop
  | .create c => c ∉ w.chunks ∧ c ≠ 0 ∧ IsPlace c
  | .newRun c k size => c ∈ w.chunks ∧ IsClass k ∧
      (getAvaliableChunk w.shm .small size = .ok (some c) ∨ w.NoRun c)
  | .malloc r => r ∈ w.runs
  | .free c o => c ∈ w.chunks ∧ o < 2 ^ 20 ∧ w.OnSlot c o
  | .rest s => SameSmall w s

def step (w : SmallWorld) : SmallCall → Exec SmallWorld
  | .create c => do
    let s ← initChunk w.shm c c .small
    return {w with shm := s, chunks := c :: w.chunks}
  | .newRun c k _ => do
    let (s, r) ← newChunkRun w.shm c k
    return {w with shm := s, runs := r :: w.runs}
  | .malloc r => do
    let (s, _) ← mallocChunkRun w.shm r
    return {w with shm := s}
  | .free c o => do
    let (s, gone) ← freeChunk w.shm c o
    return ⟨s, if gone then w.chunks.erase c else w.chunks,
      if releases w.shm c o then w.runs.erase (pageOf c o) else w.runs⟩
  | .rest s => .ok {w with shm := s}

/-- A free is not of the page of the chunk's own header. -/
def OffHeader (_ : SmallWorld) : SmallCall → Prop
  | .free _ o => 4096 ≤ o
  | _ => True

end SmallCall

def smallMachine : Machine SmallWorld SmallCall Fault where
  start w := w.chunks = [] ∧ w.runs = [] ∧ w.shm.chunkSmallPool = ⟨0, 0⟩
  legal w a := a.Legal w
  step w a := a.step w

/-! ### Calls on one chunk -/

section
variable {s s' : Shm} {ls : List Nat} {c o r : Nat}

/-- The runs have their positions and their sizes of slots. -/
def SameShapes (s s' : Shm) : Prop :=
  ∀ q, (s'.run q).pos = (s.run q).pos ∧ (s'.run q).elemsize = (s.run q).elemsize

theorem SameShapes.trans {s'' : Shm} (h : SameShapes s s') (h' : SameShapes s' s'') : SameShapes s s'' :=
  fun q => ⟨(h' q).1.trans (h q).1, (h' q).2.trans (h q).2⟩

theorem SameShapes.of_run (h : s'.run = s.run) : SameShapes s s' := fun q => by rw [h]; exact ⟨rfl, rfl⟩

/-- The header of a run gets another count and another first free slot. -/
theorem SameShapes.setRun (s : Shm) (r free used : Nat) :
    SameShapes s (s.setRun r {s.run r with free := free, used := used}) := by
  intro q
  by_cases hq : q = r
  · rw [hq, setRun_run]
    exact ⟨rfl, rfl⟩
  · rw [setRun_ne _ _ hq]
    exact ⟨rfl, rfl⟩

theorem freeRun_ok (h : freeRun s r o = .ok s') : RunsOnly s s' ∧ SameShapes s s' := by
  obtain ⟨_, -, hs⟩ := Exec.bind_ok h
  obtain rfl := Except.ok.inj hs
  exact ⟨⟨rfl, rfl, rfl, rfl, rfl, rfl, rfl, rfl, rfl⟩, .setRun (s.setLink r o (s.run r).free) r _ _⟩

theorem pushRun_only (h : pushRun s r = .ok s') : RunsOnly s s' ∧ s'.run = s.run := by
  obtain ⟨t, pool, rfl⟩ := pushRun_ok h
  exact ⟨.setRunTree .., rfl⟩

theorem putBack_ok (h : putBack s c r o = .ok s') : RunsOnly s s' ∧ SameShapes s s' := by
  obtain ⟨s₁, hfree, h⟩ := Exec.bind_ok h
  obtain ⟨e₁, hshapes₁⟩ := freeRun_ok hfree
  split at h
  · obtain ⟨e₂, hrun₂⟩ := pushRun_only h
    exact ⟨e₁.trans e₂, hshapes₁.trans (.of_run hrun₂)⟩
  · obtain rfl := Except.ok.inj h
    exact ⟨e₁, hshapes₁⟩

theorem mallocChunkRun_ok {x : Shm × Nat} (h : mallocChunkRun s r = .ok x) :
    RunsOnly s x.1 ∧ SameShapes s x.1 := by
  rw [mallocChunkRun_eq] at h
  obtain ⟨y, hy, h⟩ := Exec.bind_ok h
  have hslot : RunsOnly s y.1 ∧ SameShapes s y.1 := by
    obtain ⟨_, -, hy⟩ := Exec.bind_ok hy
    obtain ⟨_, -, hy⟩ := Exec.bind_ok hy
    obtain rfl := Except.ok.inj hy
    exact ⟨.setRun .., .setRun s r _ _⟩
  split at h
  · obtain ⟨s₂, hpop, h⟩ := Exec.bind_ok h
    obtain rfl := Except.ok.inj h
    obtain ⟨z, -, hz⟩ := Exec.bind_ok hpop
    obtain rfl := Except.ok.inj hz
    exact ⟨hslot.1.trans (.setRunTree ..), hslot.2⟩
  · obtain rfl := Except.ok.inj h
    exact hslot

theorem freeChunkSmall_cases {x : Shm × Bool} (h : freeChunkSmall s c o = .ok x) :
    (findRun s c o = .ok none ∧ x = (s, false)) ∨
      ∃ run s₂, findRun s c o = .ok (some run) ∧ putBack s c run o = .ok s₂ ∧
        releases s c o = spare s₂ run ∧
        if spare s₂ run then releaseRun s₂ c run = .ok x else x = (s₂, false) := by
  rw [freeChunkSmall_eq] at h
  obtain ⟨found, hfind, h⟩ := Exec.bind_ok h
  cases found with
  | none => exact .inl ⟨hfind, (Except.ok.inj h).symm⟩
  | some run =>
    obtain ⟨s₁, hfree, h⟩ := Exec.bind_ok h
    obtain ⟨s₂, hpush, h⟩ := Exec.bind_ok h
    have hput : putBack s c run o = .ok s₂ := by
      rw [putBack, hfree]
      exact hpush
    refine .inr ⟨run, s₂, hfind, hput, ?_, ?_⟩
    · unfold releases
      rw [hfind]
      dsimp only
      rw [hput]
    · unfold spare
      split at h
      · rename_i hsp
        rw [if_pos hsp]
        exact h
      · rename_i hsp
        rw [if_neg hsp]
        exact (Except.ok.inj h).symm

/-- `find_run` goes by the bitmap. -/
theorem SmallChunk.findRun_eq (m : SmallChunk s c) (ho : o < 2 ^ 20) : findRun s c o =
    .ok (if o / 4096 ∈ pages (s.small c).bitmap then some (pageOf c o) else none) := by
  have hlt : o / 4096 < 256 := by omega
  unfold findRun pageOf
  rw [m.header]
  simp only [mem_pages, hlt, true_and]
  cases bitmapGet (s.small c).bitmap (o / 4096) <;> simp [require, Nat.not_le.mpr hlt]

/-- An offset of a page that is not in use is no slot, and nothing is done. -/
theorem SmallChunk.free_none (m : SmallChunk s c) (ho : o < 2 ^ 20)
    (hp : o / 4096 ∉ pages (s.small c).bitmap) :
    checkChunkSmall s c o = .ok 0 ∧ freeChunkSmall s c o = .ok (s, false) := by
  have hfind := m.findRun_eq ho
  rw [if_neg hp] at hfind
  constructor
  · rw [checkChunkSmall, hfind]
    rfl
  · rw [freeChunkSmall_eq, hfind]
    rfl

/-- What a free of a page other than the first one keeps, and what it reports. -/
theorem SmallPages.free (h : SmallPages s ls) (hc : c ∈ ls) (hlo : 4096 ≤ o) (hhi : o < 2 ^ 20)
    {b : Bool} (hx : freeChunkSmall s c o = .ok (s', b)) :
    ∃ ls', SmallPages s' ls' ∧ ls'.Perm ls ∧
      (releases s c o = true → RunAt s ls (pageOf c o)) ∧
      (∀ r, RunAt s' ls' r ↔ RunAt s ls r ∧ (releases s c o = true → r ≠ pageOf c o)) ∧ SameShapes s s' ∧
      b = (releases s c o && decide ((s'.small c).used = 1)) := by
  have hfind := (h.chunk c hc).findRun_eq hhi
  rcases freeChunkSmall_cases hx with ⟨hnone, hx⟩ | ⟨run, s₂, hsome, hput, hrel, hx⟩
  · obtain ⟨rfl, rfl⟩ := Prod.mk.inj hx
    have hrel : releases s' c o = false := by
      unfold releases
      rw [hnone]
    rw [hrel]
    exact ⟨ls, h, .refl _, by simp, by simp, .of_run rfl, rfl⟩
  · rw [hsome] at hfind
    by_cases hp : o / 4096 ∈ pages (s.small c).bitmap
    · rw [if_pos hp] at hfind
      obtain rfl : run = pageOf c o := by injection hfind with hfind; injection hfind
      obtain ⟨e, hshapes⟩ := putBack_ok hput
      have h₂ := h.runsOnly e fun q => (hshapes q).1
      have hat₂ : ∀ r, RunAt s₂ ls r ↔ RunAt s ls r := fun r => RunAt.congr fun q _ => by rw [e.small]
      rw [hrel]
      cases hsp : spare s₂ (pageOf c o) with
      | false =>
        rw [hsp, if_neg Bool.false_ne_true] at hx
        obtain ⟨rfl, rfl⟩ := Prod.mk.inj hx
        exact ⟨ls, h₂, .refl _, by simp, fun r => by simp [hat₂], hshapes, rfl⟩
      | true =>
        rw [hsp, if_pos rfl] at hx
        obtain ⟨s₁, hremove, -⟩ := Exec.bind_ok hx
        have hp₂ : o / 4096 ∈ pages (s₂.small c).bitmap := by rwa [e.small]
        obtain ⟨s₃, ls', hrun, h₃, hperm, hfreed, -, -⟩ := h₂.releaseRun hc hp₂ (by omega) hremove
        obtain ⟨rfl, rfl⟩ := Prod.mk.inj (Except.ok.inj (hx.symm.trans hrun))
        refine ⟨ls', h₃, hperm, fun _ => ⟨c, hc, _, hp, by omega, rfl⟩, fun r => ?_,
          hshapes.trans (.of_run hfreed.run), rfl⟩
        rw [RunAt.perm hperm, h₂.runAt_clear hc hp₂ hfreed.bitmap hfreed.frame.small, hat₂]
        simp [pageOf]
    · rw [if_neg hp] at hfind
      injection hfind with hfind
      cases hfind

/-- A chunk with a run has more than its header page in use. -/
theorem SmallChunk.used_one (m : SmallChunk s c) :
    (s.small c).used = 1 ↔ ∀ p ∈ pages (s.small c).bitmap, p = 0 := by
  constructor
  · intro hused p hp
    rw [m.pages_eq hused] at hp
    exact Finset.mem_singleton.mp hp
  · intro hall
    rw [m.used, Finset.card_eq_one]
    exact ⟨0, Finset.eq_singleton_iff_unique_mem.mpr ⟨m.first, hall⟩⟩

end

/-! ### Runs of calls -/

/-- The chunks are those of the pool, and the runs those on their pages, with slots of a class. -/
structure RunsOk (w : SmallWorld) (ls : List Nat) : Prop where
  pages : SmallPages w.shm ls
  chunks : ls.Perm w.chunks
  runs : ∀ r, r ∈ w.runs ↔ RunAt w.shm ls r
  nodup : w.runs.Nodup
  elemsize : ∀ r ∈ w.runs, ∃ k, IsClass k ∧ (w.shm.run r).elemsize = runConfig k

namespace RunsOk
variable {w w' : SmallWorld} {ls : List Nat} {c o r p : Nat}

theorem start (h : smallMachine.start w) : RunsOk w [] := by
  obtain ⟨hchunks, hruns, hpool⟩ := h
  have hinit : w.shm.pool .small = Rbtree.init chunkMacros w.shm.chunkNode := by
    unfold Shm.pool
    rw [if_pos rfl, hpool]
    rfl
  refine ⟨⟨⟨?_, List.Pairwise.nil, by simp⟩, by simp, fun r ⟨_, hc, _⟩ => absurd hc List.not_mem_nil⟩,
    by rw [hchunks], fun r => ?_, by rw [hruns]; exact List.nodup_nil,
    fun r hr => by rw [hruns] at hr; exact absurd hr List.not_mem_nil⟩
  · rw [hinit]
    exact Rbtree.Holds.init _
  · rw [hruns]
    constructor
    · intro hr
      exact absurd hr List.not_mem_nil
    · rintro ⟨_, hc, -⟩
      exact absurd hc List.not_mem_nil

theorem chunk (h : RunsOk w ls) (hc : c ∈ w.chunks) : SmallChunk w.shm c :=
  h.pages.chunk c (h.chunks.mem_iff.mpr hc)

/-- A page of a chunk has a run exactly when it is in use and not the first one. -/
theorem page (h : RunsOk w ls) (hc : c ∈ w.chunks) (hp : p < 256) :
    c + p * 4096 ∈ w.runs ↔ p ∈ ShmMalloc.pages (w.shm.small c).bitmap ∧ p ≠ 0 := by
  rw [h.runs]
  constructor
  · rintro ⟨q, hq, x, hx, hx₀, he⟩
    obtain ⟨rfl, rfl⟩ := (h.chunk hc).place.page_eq (h.pages.chunk q hq).place hp (mem_pages.mp hx).1 he
    exact ⟨hx, hx₀⟩
  · rintro ⟨hx, hx₀⟩
    exact ⟨c, h.chunks.mem_iff.mpr hc, p, hx, hx₀, rfl⟩

theorem page_of (h : RunsOk w ls) (hc : c ∈ w.chunks) (ho : o < 2 ^ 20) :
    pageOf c o ∈ w.runs ↔ o / 4096 ∈ ShmMalloc.pages (w.shm.small c).bitmap ∧ o / 4096 ≠ 0 :=
  h.page hc (by omega)

theorem used_one (h : RunsOk w ls) (hc : c ∈ w.chunks) :
    (w.shm.small c).used = 1 ↔ w.NoRun c := by
  rw [(h.chunk hc).used_one]
  constructor
  · intro hall p hp hr
    obtain ⟨hx, hx₀⟩ := (h.page hc hp).mp hr
    exact hx₀ (hall p hx)
  · intro hno p hp
    by_contra hp₀
    exact hno p (mem_pages.mp hp).1 ((h.page hc (mem_pages.mp hp).1).mpr ⟨hp, hp₀⟩)

/-- A chunk in which a run is to be made has a page for it. -/
theorem room (h : RunsOk w ls) {k size : Nat} (hl : (SmallCall.newRun c k size).Legal w) :
    (w.shm.small c).used < 256 := by
  obtain ⟨hc, -, hroom⟩ := hl
  have m := h.chunk hc
  have hle := m.used.trans_le (card_pages_le _)
  rcases hroom with hfind | hno
  · obtain ⟨x, hx, hsome, -⟩ := getAvaliableChunk_spec h.pages.chunks size
      (show 1 < 2 ^ 31 by decide)
    obtain rfl := Except.ok.inj (hfind.symm.trans hx)
    obtain ⟨-, hmax⟩ := hsome c rfl
    rw [m.key] at hmax
    by_contra hfull
    rw [if_pos (by omega)] at hmax
    exact absurd hmax (show ¬1 ≤ 0 by decide)
  · rw [(h.used_one hc).mpr hno]
    decide

/-- The runs that are left have slots of their classes. -/
theorem shapes (h : RunsOk w ls) {s : Shm} (hs : SameShapes w.shm s) :
    ∀ r ∈ w.runs, ∃ k, IsClass k ∧ (s.run r).elemsize = runConfig k := by
  intro r hr
  rw [(hs r).2]
  exact h.elemsize r hr

theorem create (h : RunsOk w ls) (hl : (SmallCall.create c).Legal w)
    (hs : (SmallCall.create c).step w = .ok w') : ∃ ls', RunsOk w' ls' := by
  obtain ⟨hc, hn, hplace⟩ := hl
  obtain ⟨s, ls', hrun, hpages, hperm, hat, -, e, -⟩ :=
    h.pages.create (fun hm => hc (h.chunks.mem_iff.mp hm)) hn hplace
  rw [SmallCall.step, hrun] at hs
  obtain rfl := Except.ok.inj hs
  exact ⟨ls', hpages, hperm.trans (h.chunks.cons c), fun r => (h.runs r).trans (hat r).symm, h.nodup,
    h.shapes (.of_run e.run)⟩

theorem newRun (h : RunsOk w ls) {k size : Nat} (hl : (SmallCall.newRun c k size).Legal w) {s : Shm}
    (hs : newChunkRun w.shm c k = .ok (s, r)) :
    (∃ p < 256, r = c + p * 4096 ∧ p ∉ ShmMalloc.pages (w.shm.small c).bitmap ∧
      (s.small c).bitmap = bitmapSet (w.shm.small c).bitmap p) ∧
    ∃ ls', RunsOk ⟨s, w.chunks, r :: w.runs⟩ ls' := by
  have hroom := h.room hl
  obtain ⟨hc, hk, -⟩ := hl
  have hcl := h.chunks.mem_iff.mpr hc
  obtain ⟨p, s₁, hst, heq⟩ := (h.chunk hc).start hk hroom
  rw [heq] at hs
  obtain ⟨s₂, hpush, hs⟩ := Exec.bind_ok hs
  obtain ⟨s₃, ls', hrekey, hpages, hperm, htaken, hrun, -⟩ := h.pages.takePage hcl hroom hst hpush
  rw [hrekey] at hs
  obtain ⟨rfl, rfl⟩ := Prod.mk.inj (Except.ok.inj hs)
  refine ⟨⟨p, hst.lt, rfl, hst.free, htaken.bitmap⟩, ls', hpages, hperm.trans h.chunks, fun r => ?_,
    List.nodup_cons.mpr ⟨fun hm => hst.free ((h.page hc hst.lt).mp hm).1, h.nodup⟩, fun r hr => ?_⟩
  · rw [List.mem_cons, RunAt.perm hperm, runAt_set hcl hst.lt hst.ne htaken.bitmap htaken.frame.small,
      h.runs, or_comm]
  · dsimp only
    rw [hrun]
    by_cases hne : r = c + p * 4096
    · rw [hne, hst.self]
      exact ⟨k, hk, rfl⟩
    · rw [(hst.other r hne).1]
      exact h.elemsize r ((List.mem_cons.mp hr).resolve_left hne)

/-- Only runs and their pools are written. -/
theorem runsOnly (h : RunsOk w ls) {s : Shm} (e : RunsOnly w.shm s) (hs : SameShapes w.shm s) :
    RunsOk {w with shm := s} ls :=
  ⟨h.pages.runsOnly e fun r => (hs r).1, h.chunks,
    fun r => (h.runs r).trans (RunAt.congr fun q _ => by rw [e.small]).symm, h.nodup, h.shapes hs⟩

theorem rest (h : RunsOk w ls) {s : Shm} (hs : SameSmall w s) : RunsOk {w with shm := s} ls := by
  have hmem : ∀ q ∈ ls, q ∈ w.chunks := fun q hq => h.chunks.mem_iff.mp hq
  have hat : ∀ r, RunAt s ls r ↔ RunAt w.shm ls r :=
    fun r => RunAt.congr fun q hq => by rw [hs.small q (hmem q hq)]
  refine ⟨⟨?_, fun q hq => ?_, fun r hr => ?_⟩, h.chunks, fun r => (h.runs r).trans (hat r).symm, h.nodup,
    fun r hr => ?_⟩
  · have p := h.pages.chunks
    have hn : ∀ q ∈ ls, s.chunkNode q = w.shm.chunkNode q := fun q hq => hs.node q (hmem q hq)
    have hroot : (s.pool .small).root = (w.shm.pool .small).root := congrArg ChunkTree.root hs.pool
    have hsize : (s.pool .small).size = (w.shm.pool .small).size := congrArg ChunkTree.size hs.pool
    exact ⟨p.holds.congr hn hroot hsize, p.ascending.congr fun q hq => by rw [hn q hq],
      fun q hq => by rw [hn q hq]; exact p.valid q hq⟩
  · have hq' := hmem q hq
    exact (h.pages.chunk q hq).congr (hs.header q hq') (hs.small q hq') (by rw [hs.node q hq'])
  · have hr := (hat r).mp hr
    show (s.run r).pos = r
    rw [hs.pos r ((h.runs r).mpr hr)]
    exact h.pages.pos r hr
  · dsimp only
    rw [hs.elemsize r hr]
    exact h.elemsize r hr

/-- What `free_chunk_small` leaves, before the chunk may be deleted. -/
theorem freeSmall (h : RunsOk w ls) (hc : c ∈ w.chunks) (hlo : 4096 ≤ o) (hhi : o < 2 ^ 20) {s : Shm}
    {b : Bool} (hs : freeChunkSmall w.shm c o = .ok (s, b)) :
    ∃ ls', RunsOk ⟨s, w.chunks, if releases w.shm c o then w.runs.erase (pageOf c o) else w.runs⟩ ls' ∧
      b = (releases w.shm c o && decide ((s.small c).used = 1)) := by
  obtain ⟨ls', hpages, hperm, -, hat, hshapes, hb⟩ := h.pages.free (h.chunks.mem_iff.mpr hc) hlo hhi hs
  refine ⟨ls', ⟨hpages, hperm.trans h.chunks, fun r => ?_, ?_, fun r hr => h.shapes hshapes r ?_⟩, hb⟩
  · dsimp only
    rw [hat, ← h.runs]
    cases releases w.shm c o with
    | false => simp
    | true => simp [h.nodup.mem_erase_iff, and_comm]
  · dsimp only
    split
    · exact h.nodup.erase _
    · exact h.nodup
  · dsimp only at hr
    split at hr
    · exact List.mem_of_mem_erase hr
    · exact hr

theorem free (h : RunsOk w ls) (hl : (SmallCall.free c o).Legal w) (hlo : 4096 ≤ o)
    (hs : (SmallCall.free c o).step w = .ok w') : ∃ ls', RunsOk w' ls' := by
  obtain ⟨hc, hhi, -⟩ := hl
  obtain ⟨⟨s, gone⟩, hrun, hs⟩ := Exec.bind_ok hs
  obtain rfl := Except.ok.inj hs
  rw [freeChunk, (h.chunk hc).header] at hrun
  obtain ⟨⟨s₁, b⟩, hsmall, hrun⟩ := Exec.bind_ok hrun
  obtain ⟨ls', h', hb⟩ := h.freeSmall hc hlo hhi hsmall
  cases b with
  | false =>
    obtain ⟨rfl, rfl⟩ := Prod.mk.inj (Except.ok.inj hrun)
    exact ⟨ls', h'⟩
  | true =>
    obtain ⟨s₂, hdelete, hrun⟩ := Exec.bind_ok hrun
    obtain ⟨rfl, rfl⟩ := Prod.mk.inj (Except.ok.inj hrun)
    have hused : (s₁.small c).used = 1 := of_decide_eq_true (Bool.and_eq_true_iff.mp hb.symm).2
    obtain ⟨s₃, hrun, hpages, hat, -, e⟩ := h'.pages.delete (h'.chunks.mem_iff.mpr hc) hused
    obtain rfl := Except.ok.inj (hdelete.symm.trans hrun)
    exact ⟨_, hpages, h'.chunks.erase c, fun r => (h'.runs r).trans (hat r).symm, h'.nodup,
      h'.shapes (.of_run e.run)⟩

theorem step (h : RunsOk w ls) {a : SmallCall} (hl : a.Legal w) (ha : a.OffHeader w)
    (hs : a.step w = .ok w') : ∃ ls', RunsOk w' ls' := by
  cases a with
  | create c => exact h.create hl hs
  | newRun c k size =>
    obtain ⟨⟨s, r⟩, hrun, hs⟩ := Exec.bind_ok hs
    obtain rfl := Except.ok.inj hs
    exact (h.newRun hl hrun).2
  | malloc r =>
    obtain ⟨x, hrun, hs⟩ := Exec.bind_ok hs
    obtain rfl := Except.ok.inj hs
    obtain ⟨e, hshapes⟩ := mallocChunkRun_ok hrun
    exact ⟨ls, h.runsOnly e hshapes⟩
  | free c o => exact h.free hl ha hs
  | rest s =>
    obtain rfl := Except.ok.inj hs
    exact ⟨ls, h.rest hl⟩

end RunsOk

theorem runsOk_reach {w : SmallWorld} (h : smallMachine.Reach SmallCall.OffHeader w) :
    ∃ ls, RunsOk w ls := by
  have hstart : ∀ w, smallMachine.start w → ∃ ls, RunsOk w ls := fun w hw => ⟨[], .start hw⟩
  refine h.invariant hstart fun w a w' hi hl ha hs => ?_
  obtain ⟨ls, hok⟩ := hi
  exact hok.step hl ha hs

/-- The word that a free writes is in its slot, behind the header of the run. -/
theorem slot_inside {w : SmallWorld} (h : smallMachine.Reach SmallCall.OffHeader w) {c o : Nat}
    (hr : pageOf c o ∈ w.runs) (ho : w.OnSlot c o) : 64 ≤ o % 4096 ∧ o % 4096 + 8 ≤ 4096 := by
  obtain ⟨ls, hok⟩ := runsOk_reach h
  obtain ⟨k, hk, he⟩ := hok.elemsize _ hr
  have hslot := slot_bounds (ho hr)
  have hsize := (runConfig_bounds hk.1 hk.2).1
  omega

/-! Calls alone, whose promises can be tested. -/

instance (c : Nat) : Decidable (IsPlace c) :=
  decidable_of_iff (c / 2 ^ 32 < 128 ∧ c % 2 ^ 32 < 2 ^ 23 ∧ c % 2 ^ 20 = 0) (by
    constructor
    · intro h
      exact ⟨c / 2 ^ 32, c % 2 ^ 32 / 2 ^ 20, h.1, by omega, by omega⟩
    · rintro ⟨i, k, hi, hk, rfl⟩
      omega)

instance (w : SmallWorld) (c : Nat) : Decidable (w.NoRun c) :=
  decidable_of_iff (∀ r ∈ w.runs, ¬(c ≤ r ∧ (r - c) % 4096 = 0 ∧ (r - c) / 4096 < 256)) (by
    constructor
    · intro h p hp hr
      exact h _ hr (by omega)
    · intro h r hr hc
      exact h ((r - c) / 4096) hc.2.2 (by rwa [show c + (r - c) / 4096 * 4096 = r by omega]))

instance (w : SmallWorld) (c o : Nat) : Decidable (w.OnSlot c o) := inferInstanceAs (Decidable (_ → _))

namespace SmallCall

def IsCall : SmallCall → Prop
  | .rest _ => False
  | _ => True

instance (w : SmallWorld) : (a : SmallCall) → Decidable (a.IsCall ∧ a.Legal w)
  | .create _ => inferInstanceAs (Decidable (True ∧ _ ∧ _ ∧ _))
  | .newRun c k size => inferInstanceAs (Decidable (True ∧ c ∈ w.chunks ∧ (1 ≤ k ∧ k ≤ 14) ∧
      (getAvaliableChunk w.shm .small size = .ok (some c) ∨ w.NoRun c)))
  | .malloc r => inferInstanceAs (Decidable (True ∧ r ∈ w.runs))
  | .free .. => inferInstanceAs (Decidable (True ∧ _ ∧ _ ∧ _))
  | .rest _ => isFalse And.left

instance (w : SmallWorld) : (a : SmallCall) → Decidable (a.OffHeader w)
  | .free _ o => inferInstanceAs (Decidable (4096 ≤ o))
  | .create _ | .newRun .. | .malloc _ | .rest _ => isTrue trivial

end SmallCall

def smallCallMachine : Machine SmallWorld SmallCall Fault :=
  {smallMachine with legal := fun w a => a.IsCall ∧ a.Legal w}

instance (w : SmallWorld) (a : SmallCall) : Decidable (smallCallMachine.legal w a) :=
  inferInstanceAs (Decidable (a.IsCall ∧ a.Legal w))

/-- Before any chunk. -/
def noChunks : SmallWorld := ⟨initShm 7, [], []⟩

theorem exists_small (calls : List SmallCall) {p : SmallWorld → Bool}
    (hrun : (smallCallMachine.run (fun w a => decide (a.OffHeader w)) noChunks calls).any p = true) :
    ∃ w, smallMachine.Reach SmallCall.OffHeader w ∧ p w = true := by
  obtain ⟨w, hw, hp⟩ := Machine.exists_reach (M := smallCallMachine) _ (fun _ _ ha => of_decide_eq_true ha) calls
    (show smallMachine.start noChunks from ⟨rfl, rfl, rfl⟩) hrun
  exact ⟨w, hw.weaken fun _ _ => And.right, hp⟩

/-- Two chunks with the same key, and runs of one class in both. The second run of the second chunk
is released. -/
def smallCalls : List SmallCall := [.create (2 ^ 20), .create (2 ^ 21), .newRun (2 ^ 20) 13 0, .newRun (2 ^ 21) 13 0,
  .newRun (2 ^ 21) 13 0, .malloc (2 ^ 21 + 8192), .free (2 ^ 21) 8256]

theorem smallCalls_reach : ∃ w, smallMachine.Reach SmallCall.OffHeader w ∧ w.chunks = [2 ^ 21, 2 ^ 20] ∧
    w.runs = [2 ^ 21 + 4096, 2 ^ 20 + 4096] := by
  obtain ⟨w, hreach, hw⟩ := exists_small smallCalls
    (p := fun w => decide (w.chunks = [2 ^ 21, 2 ^ 20] ∧ w.runs = [2 ^ 21 + 4096, 2 ^ 20 + 4096])) (by decide +kernel)
  exact ⟨w, hreach, of_decide_eq_true hw⟩

/-! ### Pages in use -/

theorem shmTreeMerge_error {fuel : Nat} {h : TreeHeap} {p q : Nat} {e : Fault}
    (he : shmTreeMerge fuel h p q = .error e) : e = .fuel := by
  induction fuel generalizing h p q with
  | zero => exact (Except.error.inj he).symm
  | succ fuel ih =>
    unfold shmTreeMerge at he
    split at he
    · cases he
    · split at he
      · cases he
      · dsimp only at he
        split at he
        · cases hm : shmTreeMerge fuel h (h q).right p with
          | error e' =>
            rw [hm] at he
            obtain rfl := Except.error.inj he
            exact ih hm
          | ok x =>
            rw [hm] at he
            cases he
        · cases hm : shmTreeMerge fuel h (h p).right q with
          | error e' =>
            rw [hm] at he
            obtain rfl := Except.error.inj he
            exact ih hm
          | ok x =>
            rw [hm] at he
            cases he

/-- The push of a run has no assertion to fail. -/
theorem pushRun_error {s : Shm} {r : Nat} {e : Fault} (he : pushRun s r = .error e) : e = .fuel := by
  unfold pushRun shmTreePush at he
  cases hm : shmTreeMerge mergeFuel s.runNode (s.runPool (s.run r).confIndex).root (s.run r).pos with
  | error e' =>
    rw [hm] at he
    obtain rfl := Except.error.inj he
    exact shmTreeMerge_error hm
  | ok x =>
    rw [hm] at he
    cases he

/-- The counter, the bitmap and the key of a small chunk agree. -/
structure PagesAgree (s : Shm) (c : Nat) : Prop where
  used : (s.small c).used = (pages (s.small c).bitmap).card
  first : bitmapGet (s.small c).bitmap 0 = true
  room : (s.chunkNode c).v.maxsize = 1 ↔ (s.small c).used < 256
  full : (s.chunkNode c).v.maxsize = 0 ↔ (s.small c).used = 256

theorem SmallChunk.agree {s : Shm} {c : Nat} (m : SmallChunk s c) : PagesAgree s c := by
  have hle := m.used.trans_le (card_pages_le _)
  refine ⟨m.used, (mem_pages.mp m.first).2, ?_, ?_⟩
  · rw [m.key]
    dsimp only
    split
    · omega
    · omega
  · rw [m.key]
    dsimp only
    split
    · omega
    · omega

/-- What `new_chunk_run` does on the chunk. -/
structure NewRunOk (w : SmallWorld) (c k : Nat) : Prop where
  used : (w.shm.small c).used < 256
  index : (bitmapSfu (w.shm.small c).bitmap 256).2 < 256
  run : newChunkRun w.shm c k ≠ .error .assertion
  page : ∀ s r, newChunkRun w.shm c k = .ok (s, r) → ∃ p < 256, r = c + p * 4096 ∧
    bitmapGet (w.shm.small c).bitmap p = false ∧ (s.small c).bitmap = bitmapSet (w.shm.small c).bitmap p

theorem RunsOk.newRun_ok {w : SmallWorld} {ls : List Nat} (h : RunsOk w ls) {c k size : Nat}
    (hl : (SmallCall.newRun c k size).Legal w) : NewRunOk w c k := by
  have hroom := h.room hl
  have hcl := h.chunks.mem_iff.mpr hl.1
  have m := h.chunk hl.1
  refine ⟨hroom, ?_, fun he => ?_, fun s r hs => ?_⟩
  · obtain ⟨p, hp, -, hsfu⟩ := bitmapSfu_spec (m.used ▸ hroom)
    rw [hsfu]
    exact hp
  · obtain ⟨p, s₁, hst, heq⟩ := m.start hl.2.1 hroom
    rw [heq] at he
    cases hpush : pushRun s₁ (c + p * 4096) with
    | error e =>
      rw [hpush, pushRun_error hpush] at he
      exact absurd (Except.error.inj he) (by decide)
    | ok s₂ =>
      obtain ⟨s₃, ls', hrekey, -⟩ := h.pages.takePage hcl hroom hst hpush
      rw [hpush, Exec.ok_bind, hrekey] at he
      cases he
  · obtain ⟨⟨p, hp, hr, hfree, hset⟩, -⟩ := h.newRun hl hs
    refine ⟨p, hp, hr, ?_, hset⟩
    rw [mem_pages, not_and, Bool.not_eq_true] at hfree
    exact hfree hp

/-- **In every state that these calls reach** the counter of a small chunk is the number of its
pages in use, the first page is one of them, and the key says whether there is room; so the
assertions of `new_chunk_run` hold, its page was not in use, and a free reports
the chunk exactly when it releases the last run. -/
theorem small_pages_agree {w : SmallWorld} (h : smallMachine.Reach SmallCall.OffHeader w) :
    (∃ l, Rbtree.Holds chunkMacros (w.shm.pool .small) l ∧ l.Perm w.chunks) ∧
    ∀ c ∈ w.chunks, PagesAgree w.shm c ∧
      (∀ k size, (SmallCall.newRun c k size).Legal w → NewRunOk w c k) ∧
      ∀ o s b, 4096 ≤ o → o < 2 ^ 20 → w.OnSlot c o → freeChunkSmall w.shm c o = .ok (s, b) →
        (b = true ↔ releases w.shm c o = true ∧
          ∀ p < 256, c + p * 4096 ∈ w.runs → c + p * 4096 = pageOf c o) := by
  obtain ⟨ls, hok⟩ := runsOk_reach h
  refine ⟨⟨ls, hok.pages.chunks.holds, hok.chunks⟩, fun c hc => ⟨(hok.chunk hc).agree,
    fun k size hl => hok.newRun_ok hl, fun o s b hlo hhi _ hs => ?_⟩⟩
  obtain ⟨ls', h', hb⟩ := hok.freeSmall hc hlo hhi hs
  have hone := h'.used_one (c := c) hc
  dsimp only at hone
  rw [hb, Bool.and_eq_true, decide_eq_true_iff, hone]
  refine and_congr_right fun hrel => ?_
  unfold SmallWorld.NoRun
  dsimp only
  rw [if_pos hrel]
  refine forall₂_congr fun p hp => ?_
  rw [hok.nodup.mem_erase_iff, not_and', not_not]

theorem small_pages_agree_run : ∃ w, smallMachine.Reach SmallCall.OffHeader w ∧
    w.chunks = [2 ^ 21, 2 ^ 20] ∧ w.runs = [2 ^ 21 + 4096, 2 ^ 20 + 4096] ∧
    PagesAgree w.shm (2 ^ 21) ∧ PagesAgree w.shm (2 ^ 20) := by
  obtain ⟨w, hreach, hchunks, hruns⟩ := smallCalls_reach
  have hagree := (small_pages_agree hreach).2
  refine ⟨w, hreach, hchunks, hruns, (hagree _ ?_).1, (hagree _ ?_).1⟩
  · rw [hchunks]
    exact List.mem_cons_self
  · rw [hchunks]
    exact List.mem_cons_of_mem _ List.mem_cons_self

/-! ### Offsets -/

/-- `find_run` finds the runs there are, and another offset is turned down. -/
structure FindExact (w : SmallWorld) (c o : Nat) : Prop where
  find : ∀ r, findRun w.shm c o = .ok (some r) ↔ pageOf c o ∈ w.runs ∧ r = pageOf c o
  reject : pageOf c o ∉ w.runs →
    checkChunkSmall w.shm c o = .ok 0 ∧ freeChunkSmall w.shm c o = .ok (w.shm, false)

/-- **An offset of a small chunk** is treated by the run on its page exactly when its page is not
that of the chunk's header, which has its bit set and no run. -/
theorem small_offsets {w : SmallWorld} (h : smallMachine.Reach SmallCall.OffHeader w) {c o : Nat}
    (hc : c ∈ w.chunks) (ho : o < 2 ^ 20) : FindExact w c o ↔ 4096 ≤ o := by
  obtain ⟨ls, hok⟩ := runsOk_reach h
  have m := hok.chunk hc
  have hfind := m.findRun_eq ho
  have hpage := hok.page_of hc ho
  constructor
  · intro hex
    by_contra hlt
    have hzero : o / 4096 = 0 := by omega
    rw [if_pos (hzero ▸ m.first)] at hfind
    have hrun := ((hex.find _).mp hfind).1
    exact (hpage.mp hrun).2 hzero
  · intro hlo
    have hne : o / 4096 ≠ 0 := by omega
    have hin : o / 4096 ∈ pages (w.shm.small c).bitmap ↔ pageOf c o ∈ w.runs := by
      rw [hpage, and_iff_left hne]
    refine ⟨fun r => ?_, fun hno => m.free_none ho fun hp => hno (hin.mp hp)⟩
    rw [hfind, ← hin]
    split
    · rename_i hp
      simp [hp, eq_comm]
    · rename_i hp
      simp [hp]

/-- The header of a new chunk is found as a run. -/
theorem header_found : ∃ w, smallMachine.Reach SmallCall.OffHeader w ∧ w.chunks = [2 ^ 20] ∧
    w.runs = [] ∧ findRun w.shm (2 ^ 20) 64 = .ok (some (2 ^ 20)) ∧ ¬FindExact w (2 ^ 20) 64 := by
  obtain ⟨w, hreach, hw⟩ := exists_small [.create (2 ^ 20)] (p := fun w =>
    decide (w.chunks = [2 ^ 20] ∧ w.runs = [] ∧ findRun w.shm (2 ^ 20) 64 = .ok (some (2 ^ 20)))) (by decide +kernel)
  obtain ⟨hchunks, hruns, hfind⟩ := of_decide_eq_true hw
  refine ⟨w, hreach, hchunks, hruns, hfind, fun hex => ?_⟩
  have hrun := ((hex.find _).mp hfind).1
  rw [hruns] at hrun
  exact absurd hrun List.not_mem_nil

/-- In a page with a run, in one that was released, and in the first one. -/
theorem small_offsets_run : ∃ w, smallMachine.Reach SmallCall.OffHeader w ∧
    w.chunks = [2 ^ 21, 2 ^ 20] ∧ w.runs = [2 ^ 21 + 4096, 2 ^ 20 + 4096] ∧
    (FindExact w (2 ^ 20) 4160 ↔ 4096 ≤ 4160) ∧ (FindExact w (2 ^ 21) 8256 ↔ 4096 ≤ 8256) ∧
    (FindExact w (2 ^ 21) 64 ↔ 4096 ≤ 64) := by
  obtain ⟨w, hreach, hchunks, hruns⟩ := smallCalls_reach
  have hfirst : 2 ^ 20 ∈ w.chunks := by
    rw [hchunks]
    exact List.mem_cons_of_mem _ List.mem_cons_self
  have hsecond : 2 ^ 21 ∈ w.chunks := by
    rw [hchunks]
    exact List.mem_cons_self
  exact ⟨w, hreach, hchunks, hruns, small_offsets hreach hfirst (by decide), small_offsets hreach hsecond (by decide),
    small_offsets hreach hsecond (by decide)⟩

end ShmMalloc
