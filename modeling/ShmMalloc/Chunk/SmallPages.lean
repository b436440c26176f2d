import Mathlib.Data.Finset.Card
import Mathlib.Data.Finset.Prod
import Mathlib.Data.Finset.Image
import ShmMalloc.Chunk.PoolSpec
import ShmMalloc.Chunk.SmallCalls
import ShmMalloc.Tree.Pool

/-! The pages of small chunks.

A page of a small chunk with its bit set has a run. Taking a page and giving one back
keep the bitmap, the counter and the key of the chunk together, whatever the pools of
runs hold: that a call completes is all that is asked of them here. -/
namespace ShmMalloc

/-! ### Pages -/

/-- The pages of a small chunk that are in use. -/
def pages (b : Bitmap) : Finset Nat := (Finset.range 256).filter fun p => bitmapGet b p = true

theorem mem_pages {b : Bitmap} {p : Nat} : p ∈ pages b ↔ p < 256 ∧ bitmapGet b p = true := by
  rw [pages, Finset.mem_filter, Finset.mem_range]

theorem pages_set (b : Bitmap) {p : Nat} (hp : p < 256) : pages (bitmapSet b p) = insert p (pages b) := by
  ext q
  rw [Finset.mem_insert, mem_pages, mem_pages, bitmapGet_set, Bool.or_eq_true, decide_eq_true_iff]
  constructor
  · rintro ⟨hq, h | h⟩
    · exact .inl h
    · exact .inr ⟨hq, h⟩
  · rintro (rfl | ⟨hq, h⟩)
    · exact ⟨hp, .inl rfl⟩
    · exact ⟨hq, .inr h⟩

theorem pages_clear (b : Bitmap) (p : Nat) : pages (bitmapClear b p) = (pages b).erase p := by
  ext q
  rw [Finset.mem_erase, mem_pages, mem_pages, bitmapGet_clear_eq]
  by_cases h : q = p
  · simp [h]
  · simp [h]

theorem card_pages_le (b : Bitmap) : (pages b).card ≤ 256 :=
  (Finset.card_filter_le _ _).trans (Nat.le_of_eq (Finset.card_range 256))

/-- `bitmap_sfu` takes a page that is not in use. -/
theorem bitmapSfu_spec {b : Bitmap} (h : (pages b).card < 256) :
    ∃ p < 256, p ∉ pages b ∧ bitmapSfu b 256 = (bitmapSet b p, p) := by
  have hclear : ∃ p < 256, bitmapGet b p = false := by
    by_contra hall
    refine absurd h (Nat.not_lt.mpr ?_)
    have heq : pages b = Finset.range 256 := by
      refine Finset.filter_true_of_mem fun p hp => ?_
      refine Bool.eq_true_of_not_eq_false fun hf => hall ⟨p, Finset.mem_range.mp hp, hf⟩
    rw [heq, Finset.card_range]
  obtain ⟨q, hq, hfree⟩ := hclear
  rcases bitmapFfu_first b 256 with ⟨-, hlt, hp, -⟩ | ⟨-, hall⟩
  · have hlt : bitmapFfu b 256 < 256 := by
      have : bits2groups 256 * 64 = 256 := by decide
      omega
    refine ⟨bitmapFfu b 256, hlt, fun hm => ?_, by rw [bitmapSfu, if_pos hlt]⟩
    simp [(mem_pages.mp hm).2] at hp
  · have := hall q (Nat.zero_le q) (by rw [show bits2groups 256 * 64 = 256 by decide]; exact hq)
    simp [hfree] at this

/-! ### Runs in their chunks -/

/-- A position at which a chunk may be. -/
def IsPlace (c : Nat) : Prop := ∃ i k, i < 128 ∧ k < 8 ∧ c = i * 2 ^ 32 + k * 2 ^ 20

theorem IsPlace.aligned {c : Nat} (h : IsPlace c) : c % 4096 = 0 := by
  obtain ⟨i, k, -, -, rfl⟩ := h
  omega

/-- A page of a chunk is in no other chunk. -/
theorem IsPlace.page_eq {c c' p p' : Nat} (h : IsPlace c) (h' : IsPlace c') (hp : p < 256) (hp' : p' < 256)
    (he : c + p * 4096 = c' + p' * 4096) : c = c' ∧ p = p' := by
  obtain ⟨i, k, -, -, rfl⟩ := h
  obtain ⟨i', k', -, -, rfl⟩ := h'
  omega

structure SmallChunk (s : Shm) (c : Nat) : Prop where
  place : IsPlace c
  header : s.header c = ⟨.small, c⟩
  first : 0 ∈ pages (s.small c).bitmap
  used : (s.small c).used = (pages (s.small c).bitmap).card
  key : (s.chunkNode c).v = ⟨pos2index c, if (s.small c).used = 256 then 0 else 1⟩

/-- A run is on a page in use of a chunk. -/
def RunAt (s : Shm) (ls : List Nat) (r : Nat) : Prop :=
  ∃ c ∈ ls, ∃ p ∈ pages (s.small c).bitmap, p ≠ 0 ∧ r = c + p * 4096

def IsClass (k : Nat) : Prop := 1 ≤ k ∧ k ≤ 14

/-- Only runs, their links and their pools differ, and bytes. -/
structure RunsOnly (s s' : Shm) : Prop where
  arenas : s'.arenas = s.arenas
  arenaAddrs : s'.arenaAddrs = s.arenaAddrs
  sys : s'.sys = s.sys
  header : s'.header = s.header
  small : s'.small = s.small
  medium : s'.medium = s.medium
  chunkNode : s'.chunkNode = s.chunkNode
  smallPool : s'.chunkSmallPool = s.chunkSmallPool
  mediumPool : s'.chunkMediumPool = s.chunkMediumPool

theorem RunsOnly.frame {s s' : Shm} (h : RunsOnly s s') (type : ChunkType) (c : Nat) (l : List Nat) :
    ChunkFrame s s' type c l :=
  ⟨h.arenas, h.arenaAddrs, h.sys, fun _ _ => by rw [h.header], fun _ _ => by rw [h.small],
    fun _ _ => by rw [h.medium], fun _ _ => by rw [h.chunkNode], fun _ _ => by rw [h.chunkNode],
    fun _ => h.smallPool, fun _ => h.mediumPool⟩

theorem RunsOnly.trans {s s' s'' : Shm} (h : RunsOnly s s') (h' : RunsOnly s' s'') : RunsOnly s s'' :=
  ⟨h'.arenas.trans h.arenas, h'.arenaAddrs.trans h.arenaAddrs, h'.sys.trans h.sys,
    h'.header.trans h.header, h'.small.trans h.small, h'.medium.trans h.medium,
    h'.chunkNode.trans h.chunkNode, h'.smallPool.trans h.smallPool, h'.mediumPool.trans h.mediumPool⟩

section
variable {s s' : Shm} {ls : List Nat}

/-- The position of a page, by arena, slot and number. -/
def pagePos (x : (Nat × Nat) × Nat) : Nat := x.1.1 * 2 ^ 32 + x.1.2 * 2 ^ 20 + x.2 * 4096

def IsPage (r : Nat) : Prop := ∃ x, (x.1.1 < 128 ∧ x.1.2 < 8) ∧ x.2 < 256 ∧ pagePos x = r

theorem IsPlace.page {c p : Nat} (h : IsPlace c) (hp : p < 256) : IsPage (c + p * 4096) := by
  obtain ⟨i, k, hi, hk, rfl⟩ := h
  exact ⟨((i, k), p), ⟨hi, hk⟩, hp, by simp only [pagePos]⟩

/-- There are not more runs than pages. -/
theorem length_le_pages {l : List Nat} (hnd : l.Nodup) (hl : ∀ r ∈ l, IsPage r) :
    l.length ≤ 128 * 8 * 256 := by
  have hsub : l.toFinset ⊆ ((Finset.range 128 ×ˢ Finset.range 8) ×ˢ Finset.range 256).image pagePos := by
    intro r hr
    have hpage := hl r (List.mem_toFinset.mp hr)
    simpa only [Finset.mem_image, Finset.mem_product, Finset.mem_range, IsPage, and_assoc] using hpage
  calc l.length = l.toFinset.card := (List.toFinset_card_of_nodup hnd).symm
    _ ≤ (((Finset.range 128 ×ˢ Finset.range 8) ×ˢ Finset.range 256).image pagePos).card :=
      Finset.card_le_card hsub
    _ ≤ ((Finset.range 128 ×ˢ Finset.range 8) ×ˢ Finset.range 256).card := Finset.card_image_le
    _ = 128 * 8 * 256 := by simp only [Finset.card_product, Finset.card_range]

theorem RunAt.congr {r : Nat} (e : ∀ c ∈ ls, (s'.small c).bitmap = (s.small c).bitmap) :
    RunAt s' ls r ↔ RunAt s ls r := by
  unfold RunAt
  constructor
  · rintro ⟨c, hc, p, hp, h⟩
    exact ⟨c, hc, p, e c hc ▸ hp, h⟩
  · rintro ⟨c, hc, p, hp, h⟩
    exact ⟨c, hc, p, (e c hc).symm ▸ hp, h⟩

theorem RunAt.perm {ls' : List Nat} {r : Nat} (hp : ls'.Perm ls) : RunAt s ls' r ↔ RunAt s ls r := by
  unfold RunAt
  simp only [hp.mem_iff]

theorem RunAt.ne_zero {r : Nat} (h : RunAt s ls r) : r ≠ 0 := by
  obtain ⟨c, -, p, -, hp, rfl⟩ := h
  omega

/-- Small chunks with their pages in order, and the runs on them, whatever is free in them. -/
structure SmallPages (s : Shm) (ls : List Nat) : Prop where
  chunks : ChunkPool s .small ls
  chunk : ∀ c ∈ ls, SmallChunk s c
  pos : ∀ r, RunAt s ls r → (s.run r).pos = r

theorem SmallChunk.congr {c : Nat} (m : SmallChunk s c) (hh : s'.header c = s.header c)
    (hs : s'.small c = s.small c) (hk : (s'.chunkNode c).v = (s.chunkNode c).v) : SmallChunk s' c := by
  obtain ⟨h₁, h₂, h₃, h₄, h₅⟩ := m
  exact ⟨h₁, by rw [hh, h₂], by rwa [hs], by rw [hs, h₄], by rw [hk, hs, h₅]⟩

/-- A chunk does not depend on what a call on another chunk writes. -/
theorem SmallChunk.frame {type : ChunkType} {c q : Nat} {l : List Nat} (m : SmallChunk s q)
    (f : ChunkFrame s s' type c l) (hq : q ≠ c) : SmallChunk s' q :=
  m.congr (f.header q hq) (f.small q hq) (f.key q hq)

/-- A chunk that comes or goes has no run. -/
theorem runAt_keep {type : ChunkType} {c : Nat} {l ls' : List Nat} (f : ChunkFrame s s' type c l)
    (hls : ∀ q ∈ ls', q ∈ ls ∧ q ≠ c ∨ pages (s'.small q).bitmap = {0})
    (hgone : ∀ q ∈ ls, q ∉ ls' ∨ q = c → pages (s.small q).bitmap = {0}) (r : Nat) :
    RunAt s' ls' r ↔ RunAt s ls r := by
  have hempty : ∀ {b : Bitmap} {x}, pages b = {0} → x ∈ pages b → x = 0 := fun hb hx =>
    Finset.mem_singleton.mp (hb ▸ hx)
  constructor
  · rintro ⟨q, hq, x, hx, hx₀, rfl⟩
    rcases hls q hq with ⟨hq', hqc⟩ | hb
    · rw [f.small q hqc] at hx
      exact ⟨q, hq', x, hx, hx₀, rfl⟩
    · exact absurd (hempty hb hx) hx₀
  · rintro ⟨q, hq, x, hx, hx₀, rfl⟩
    by_cases hgo : q ∉ ls' ∨ q = c
    · exact absurd (hempty (hgone q hq hgo) hx) hx₀
    · rw [not_or, not_not] at hgo
      exact ⟨q, hgo.1, x, by rwa [f.small q hgo.2], hx₀, rfl⟩

/-- What a call keeps that writes no run, and that brings or takes away a chunk without runs. -/
theorem SmallPages.keep {type : ChunkType} {c : Nat} {l ls' : List Nat} (h : SmallPages s ls)
    (f : ChunkFrame s s' type c l) (hrun : s'.run = s.run) (p : ChunkPool s' .small ls')
    (hls : ∀ q ∈ ls', q ∈ ls ∧ q ≠ c ∨ SmallChunk s' q ∧ pages (s'.small q).bitmap = {0})
    (hgone : ∀ q ∈ ls, q ∉ ls' ∨ q = c → pages (s.small q).bitmap = {0}) :
    SmallPages s' ls' ∧ ∀ r, RunAt s' ls' r ↔ RunAt s ls r := by
  have hat := runAt_keep f (fun q hq => (hls q hq).imp id And.right) hgone
  refine ⟨⟨p, fun q hq => ?_, fun r hr => ?_⟩, hat⟩
  · rcases hls q hq with ⟨hq', hqc⟩ | ⟨hnew, -⟩
    · exact (h.chunk q hq').frame f hqc
    · exact hnew
  · rw [hrun]
    exact h.pos r ((hat r).mp hr)

/-- Only runs and their pools are written, and no run gets another position. -/
theorem SmallPages.runsOnly (h : SmallPages s ls) (e : RunsOnly s s')
    (hpos : ∀ r, (s'.run r).pos = (s.run r).pos) : SmallPages s' ls where
  chunks := h.chunks.of_nodes (fun q _ => by rw [e.chunkNode]) e.smallPool e.mediumPool
  chunk c hc := (h.chunk c hc).congr (by rw [e.header]) (by rw [e.small]) (by rw [e.chunkNode])
  pos r hr := by
    rw [hpos]
    exact h.pos r ((RunAt.congr fun c _ => by rw [e.small]).mp hr)

/-! ### Writes to the pools of runs -/

/-- The pool of a class, and the nodes of the runs, are written. -/
def Shm.setRunTree (s : Shm) (type : Nat) (h : TreeHeap) (pool : ShmPool) : Shm :=
  (s.setRunPool type pool).setRunNode h

@[simp] theorem setRunTree_pool (s : Shm) (k : Nat) (h : TreeHeap) (pool : ShmPool) :
    (s.setRunTree k h pool).runPool k = pool := if_pos rfl

theorem setRunTree_pool_ne (s : Shm) {j k : Nat} (h : TreeHeap) (pool : ShmPool) (hj : j ≠ k) :
    (s.setRunTree k h pool).runPool j = s.runPool j := if_neg hj

theorem RunsOnly.setRunTree (s : Shm) (k : Nat) (h : TreeHeap) (pool : ShmPool) :
    RunsOnly s (s.setRunTree k h pool) := ⟨rfl, rfl, rfl, rfl, rfl, rfl, rfl, rfl, rfl⟩

theorem RunsOnly.setRun (s : Shm) (r : Nat) (hd : RunHeader) : RunsOnly s (s.setRun r hd) :=
  ⟨rfl, rfl, rfl, rfl, rfl, rfl, rfl, rfl, rfl⟩

/-- Nodes of runs are in their headers. -/
theorem SameData.setRunTree {W : Set (Nat × Nat)} {h : TreeHeap} (hctx : ∀ y ∈ bytes 0 (2 ^ 20), y ∈ W)
    (hout : ∀ q, h q ≠ s.runNode q → ∀ y ∈ bytes q 64, y ∈ W) (k : Nat) (pool : ShmPool) :
    SameData W s.data (s.setRunTree k h pool).data :=
  (SameData.wroteContext hctx).trans (.wroteNodes fun q hq => hout q (of_decide_eq_true hq))

theorem pushRun_ok {r : Nat} (h : pushRun s r = .ok s') :
    ∃ t pool, s' = s.setRunTree (s.run r).confIndex t pool := by
  obtain ⟨x, -, hx⟩ := Exec.bind_ok h
  exact ⟨x.1, x.2, (Except.ok.inj hx).symm⟩

theorem removeRun_ok {r : Nat} (h : removeRun s r = .ok s') :
    ∃ t pool, s' = s.setRunTree (s.run r).confIndex t pool := by
  obtain ⟨x, -, hx⟩ := Exec.bind_ok h
  exact ⟨x.1, x.2, (Except.ok.inj hx).symm⟩

/-! ### A page is given back -/

theorem setSmall_small (s : Shm) (c : Nat) (d : ChunkSmallDetial) : (s.setSmall c d).small c = d := if_pos rfl

theorem setSmall_ne (s : Shm) {c q : Nat} (d : ChunkSmallDetial) (hq : q ≠ c) :
    (s.setSmall c d).small q = s.small q := if_neg hq

/-- What is left when a chunk has got its key. -/
structure SmallRekeyed (s s' : Shm) (ls : List Nat) (c m : Nat) : Prop where
  frame : ChunkFrame s s' .small c ls
  runs : SameRuns (headerBytes ls) s s'
  small : s'.small = s.small
  header : s'.header = s.header
  key : (s'.chunkNode c).v =
    if (s.small c).used = 256 then ⟨(s.chunkNode c).v.index, m⟩ else (s.chunkNode c).v

/-- The key of a chunk is written when its last page is taken, and when one is given back. -/
theorem rekeySmall_step {c m : Nat} (p : ChunkPool s .small ls) (hc : c ∈ ls)
    (hty : (s.header c).type = .small) (hm : m < 2 ^ 31) :
    ∃ s' ls', rekeySmall s c m = .ok s' ∧ ChunkPool s' .small ls' ∧ ls'.Perm ls ∧ SmallRekeyed s s' ls c m := by
  unfold rekeySmall
  by_cases hfull : (s.small c).used = 256
  · obtain ⟨t, ls', hrun, hpool, hperm, hre⟩ := updateChunkPool_spec p hc hty hm
    rw [if_pos hfull]
    refine ⟨_, ls', hrun, hpool, hperm, hre.frame, hre.runs .small, setPool_small .., setPool_header .., ?_⟩
    rw [if_pos hfull, setPool_chunkNode]
    exact hre.key
  · rw [if_neg hfull]
    refine ⟨s, ls, rfl, p, .refl _, .refl .., ⟨rfl, rfl, rfl, rfl, .refl _ _⟩, rfl, rfl, ?_⟩
    rw [if_neg hfull]

/-- One page of a chunk is not in use any more. -/
theorem SmallPages.runAt_clear (h : SmallPages s ls) {c p : Nat} (hc : c ∈ ls)
    (hp : p ∈ pages (s.small c).bitmap) (hs : (s'.small c).bitmap = bitmapClear (s.small c).bitmap p)
    (hother : ∀ q, q ≠ c → s'.small q = s.small q) (r : Nat) :
    RunAt s' ls r ↔ RunAt s ls r ∧ r ≠ c + p * 4096 := by
  have hplace := fun q hq => (h.chunk q hq).place
  constructor
  · rintro ⟨q, hq, x, hx, hx₀, rfl⟩
    by_cases hqc : q = c
    · subst hqc
      rw [hs, pages_clear, Finset.mem_erase] at hx
      refine ⟨⟨q, hq, x, hx.2, hx₀, rfl⟩, fun he => hx.1 ?_⟩
      omega
    · rw [hother q hqc] at hx
      refine ⟨⟨q, hq, x, hx, hx₀, rfl⟩, fun he => hqc ?_⟩
      exact ((hplace q hq).page_eq (hplace c hc) (mem_pages.mp hx).1 (mem_pages.mp hp).1 he).1
  · rintro ⟨⟨q, hq, x, hx, hx₀, rfl⟩, hne⟩
    refine ⟨q, hq, x, ?_, hx₀, rfl⟩
    by_cases hqc : q = c
    · subst hqc
      rw [hs, pages_clear, Finset.mem_erase]
      refine ⟨fun he => hne (by rw [he]), hx⟩
    · rwa [hother q hqc]

/-- What the release of a run's page leaves. -/
structure PageFreed (s s' : Shm) (ls : List Nat) (c p : Nat) : Prop where
  frame : ChunkFrame s s' .small c ls
  header : s'.header = s.header
  bitmap : (s'.small c).bitmap = bitmapClear (s.small c).bitmap p
  run : s'.run = s.run
  link : s'.link = s.link

/-- The page of a run that has left its pool is given back, and the chunk is reported when it was
the last one. -/
theorem SmallPages.releaseRun (h : SmallPages s ls) {c p : Nat} (hc : c ∈ ls)
    (hp : p ∈ pages (s.small c).bitmap) (hp₀ : p ≠ 0) {s₁ : Shm}
    (hremove : removeRun s (c + p * 4096) = .ok s₁) :
    ∃ s' ls', releaseRun s c (c + p * 4096) = .ok (s', decide ((s'.small c).used = 1)) ∧
      SmallPages s' ls' ∧ ls'.Perm ls ∧ PageFreed s s' ls c p ∧
      s'.runNode = s₁.runNode ∧ s'.runPool = s₁.runPool ∧ SameData (headerBytes ls) s₁.data s'.data := by
  have hat : RunAt s ls (c + p * 4096) := ⟨c, hc, p, hp, hp₀, rfl⟩
  obtain ⟨hplace, hheader, hfirst, hused, hkey⟩ := h.chunk c hc
  have hcard := card_pages_le (s.small c).bitmap
  have hcard₀ := Finset.card_pos.mpr ⟨p, hp⟩
  obtain ⟨t, pool', hs₁⟩ := removeRun_ok hremove
  have e₁ : RunsOnly s s₁ := hs₁ ▸ .setRunTree ..
  have hrun₁ : s₁.run = s.run := by rw [hs₁]; rfl
  have hlink₁ : s₁.link = s.link := by rw [hs₁]; rfl
  have p₁ : ChunkPool s₁ .small ls := h.chunks.of_nodes (fun q _ => by rw [e₁.chunkNode]) e₁.smallPool e₁.mediumPool
  obtain ⟨s₂, ls', hrekey, p₂, hperm, hre⟩ := rekeySmall_step (m := 1) p₁ hc
    (by rw [e₁.header, hheader]) (by decide)
  have hsmall₂ : s₂.small = s.small := hre.small.trans e₁.small
  have hheader₂ : s₂.header = s.header := hre.header.trans e₁.header
  have hfreeRun : freeChunkRun s₂ c (s₂.run (c + p * 4096)).pos =
      .ok (s₂.setSmall c ⟨(s.small c).used - 1, bitmapClear (s.small c).bitmap p⟩) := by
    have hidx : (c + p * 4096 - c) / 4096 = p := by omega
    unfold freeChunkRun
    rw [hsmall₂, hheader₂, hheader, hre.runs.run, hrun₁, h.pos _ hat]
    dsimp only
    rw [hidx, (mem_pages.mp hp).2]
    rfl
  generalize hs₃ : s₂.setSmall c ⟨(s.small c).used - 1, bitmapClear (s.small c).bitmap p⟩ = s₃ at hfreeRun
  have hsmall₃ : s₃.small c = ⟨(s.small c).used - 1, bitmapClear (s.small c).bitmap p⟩ := by
    rw [← hs₃, setSmall_small]
  have hnode₃ : s₃.chunkNode = s₂.chunkNode := by rw [← hs₃]; rfl
  have hfreed : PageFreed s s₃ ls c p := by
    have f := (e₁.frame .small c ls).trans hre.frame
    refine ⟨⟨?_, ?_, ?_, ?_, fun q hq => ?_, ?_, ?_, ?_, ?_, ?_⟩, ?_, by rw [hsmall₃], ?_, ?_⟩
    · exact hs₃ ▸ f.arenas
    · exact hs₃ ▸ f.arenaAddrs
    · exact hs₃ ▸ f.sys
    · exact hs₃ ▸ f.header
    · rw [← hs₃, setSmall_ne _ _ hq]
      exact f.small q hq
    · exact hs₃ ▸ f.medium
    · exact hs₃ ▸ f.key
    · exact hs₃ ▸ f.node
    · exact hs₃ ▸ f.smallPool
    · exact hs₃ ▸ f.mediumPool
    · exact hs₃ ▸ hheader₂
    · exact hs₃ ▸ hre.runs.run.trans hrun₁
    · exact hs₃ ▸ hre.runs.link.trans hlink₁
  refine ⟨s₃, ls', ?_, ⟨?_, fun q hq => ?_, fun r hr => ?_⟩, hperm, hfreed, ?_, ?_, ?_⟩
  · unfold ShmMalloc.releaseRun
    rw [hremove, Exec.ok_bind, hrekey, Exec.ok_bind, hfreeRun, Exec.ok_bind]
    rfl
  · exact p₂.of_nodes (fun q _ => by rw [hnode₃]) (by rw [← hs₃]; rfl) (by rw [← hs₃]; rfl)
  · by_cases hqc : q = c
    · subst hqc
      refine ⟨hplace, by rw [hfreed.header, hheader], ?_, ?_, ?_⟩
      · rw [hfreed.bitmap, pages_clear]
        exact Finset.mem_erase.mpr ⟨hp₀.symm, hfirst⟩
      · rw [hfreed.bitmap, pages_clear, Finset.card_erase_of_mem hp, hsmall₃, hused]
      · have hne : (s.small q).used - 1 ≠ 256 := by omega
        rw [hnode₃, hre.key, e₁.small, e₁.chunkNode, hkey, hsmall₃]
        by_cases hfull : (s.small q).used = 256
        · rw [if_pos hfull, if_neg hne]
        · rw [if_neg hfull, if_neg hfull, if_neg hne]
    · exact (h.chunk q (hperm.mem_iff.mp hq)).frame hfreed.frame hqc
  · rw [hfreed.run]
    rw [RunAt.perm hperm, h.runAt_clear hc hp hfreed.bitmap hfreed.frame.small] at hr
    exact h.pos r hr.1
  · rw [← hs₃]
    exact hre.runs.runNode
  · rw [← hs₃]
    exact hre.runs.runPool
  · rw [← hs₃]
    exact hre.runs.data.trans (.wrote (mem_headerBytes hc))

/-- The run of a page in use. -/
theorem SmallPages.findRun (h : SmallPages s ls) {c p o : Nat} (hc : c ∈ ls)
    (hp : p ∈ pages (s.small c).bitmap) (ho : o < 4096) :
    findRun s c (p * 4096 + o) = .ok (some (c + p * 4096)) := by
  obtain ⟨hlt, hbit⟩ := mem_pages.mp hp
  have hidx : (p * 4096 + o) / 4096 = p := by omega
  unfold ShmMalloc.findRun
  rw [(h.chunk c hc).header]
  dsimp only
  rw [hidx, hbit]
  simp [Nat.not_le.mpr hlt]

/-! ### A page is taken -/

/-- One more page of a chunk is in use. -/
theorem runAt_set {c p : Nat} (hc : c ∈ ls) (hp : p < 256) (hp₀ : p ≠ 0)
    (hs : (s'.small c).bitmap = bitmapSet (s.small c).bitmap p)
    (hother : ∀ q, q ≠ c → s'.small q = s.small q) (r : Nat) :
    RunAt s' ls r ↔ RunAt s ls r ∨ r = c + p * 4096 := by
  constructor
  · rintro ⟨q, hq, x, hx, hx₀, rfl⟩
    by_cases hqc : q = c
    · subst hqc
      rw [hs, pages_set _ hp, Finset.mem_insert] at hx
      rcases hx with rfl | hx
      · exact .inr rfl
      · exact .inl ⟨q, hq, x, hx, hx₀, rfl⟩
    · rw [hother q hqc] at hx
      exact .inl ⟨q, hq, x, hx, hx₀, rfl⟩
  · rintro (⟨q, hq, x, hx, hx₀, rfl⟩ | rfl)
    · refine ⟨q, hq, x, ?_, hx₀, rfl⟩
      by_cases hqc : q = c
      · subst hqc
        rw [hs, pages_set _ hp]
        exact Finset.mem_insert_of_mem hx
      · rwa [hother q hqc]
    · refine ⟨c, hc, p, ?_, hp₀, rfl⟩
      rw [hs, pages_set _ hp]
      exact Finset.mem_insert_self ..

/-- What a new run on the page leaves: all of its slots are free. -/
structure PageTaken (s s' : Shm) (ls : List Nat) (c p k : Nat) : Prop where
  lt : p < 256
  ne : p ≠ 0
  free : p ∉ pages (s.small c).bitmap
  frame : ChunkFrame s s' .small c ls
  header : s'.header = s.header
  bitmap : (s'.small c).bitmap = bitmapSet (s.small c).bitmap p
  run : Run s' (c + p * 4096) (slots (runConfig k))
  conf : (s'.run (c + p * 4096)).confIndex = k
  other : ∀ q, q ≠ c + p * 4096 → s'.run q = s.run q ∧ s'.link q = s.link q

/-- The objects on the page of a new run. -/
theorem startRun_spec (s : Shm) {c p k : Nat} (hk : IsClass k) (hpos : (s.header c).pos = c) :
    ∃ s', startRun s c p k = s' ∧ Run s' (c + p * 4096) (slots (runConfig k)) ∧
      s'.run (c + p * 4096) = ⟨c + p * 4096, k, runConfig k, 4032 / runConfig k, 0, 64⟩ ∧
      (∀ q, q ≠ c + p * 4096 → s'.run q = s.run q ∧ s'.link q = s.link q ∧ s'.runNode q = s.runNode q) ∧
      s'.runNode (c + p * 4096) = zeroTreeNode ∧ s'.runPool = s.runPool ∧
      (s'.arenas = s.arenas ∧ s'.arenaAddrs = s.arenaAddrs ∧ s'.sys = s.sys ∧ s'.header = s.header ∧
        s'.small = s.small ∧ s'.medium = s.medium ∧ s'.chunkNode = s.chunkNode ∧
        s'.chunkSmallPool = s.chunkSmallPool ∧ s'.chunkMediumPool = s.chunkMediumPool) ∧
      (c % 4096 = 0 → SameData (bytes (c + p * 4096) 4096) s.data s'.data) := by
  obtain ⟨link, data, hinit, hrun, hlink, hdata⟩ :=
    newRun_spec (clearPage s (c + p * 4096)) (r := c + p * 4096) hk.1 hk.2
  refine ⟨_, ?_, hrun, setRun_run .., fun q hq => ⟨?_, ?_, if_neg hq⟩, if_pos rfl, rfl,
    ⟨rfl, rfl, rfl, rfl, rfl, rfl, rfl, rfl, rfl⟩, fun hc => ?_⟩
  · rw [← hinit]
    unfold startRun
    dsimp only
    rw [show (clearPage s (c + p * 4096)).header = s.header from rfl, hpos]
  · exact (setRun_ne _ _ hq).trans (if_neg hq)
  · refine (hlink q hq).trans ?_
    funext o
    exact if_neg fun hqo => hq hqo.1
  · have hclear : SameData (bytes (c + p * 4096) 4096) s.data (clearPage s (c + p * 4096)).data :=
      fun _ hy => if_neg hy
    exact hclear.trans (hdata (by omega))

/-- What `new_chunk_run` leaves up to the push of the new run. -/
structure RunStarted (s s₁ : Shm) (c p k : Nat) : Prop where
  lt : p < 256
  ne : p ≠ 0
  free : p ∉ pages (s.small c).bitmap
  run : Run s₁ (c + p * 4096) (slots (runConfig k))
  self : s₁.run (c + p * 4096) = ⟨c + p * 4096, k, runConfig k, 4032 / runConfig k, 0, 64⟩
  other : ∀ q, q ≠ c + p * 4096 →
    s₁.run q = s.run q ∧ s₁.link q = s.link q ∧ s₁.runNode q = s.runNode q
  node : s₁.runNode (c + p * 4096) = zeroTreeNode
  pool : s₁.runPool = s.runPool
  header : s₁.header = s.header
  small : s₁.small c = ⟨(s.small c).used + 1, bitmapSet (s.small c).bitmap p⟩
  chunkNode : s₁.chunkNode = s.chunkNode
  smallPool : s₁.chunkSmallPool = s.chunkSmallPool
  mediumPool : s₁.chunkMediumPool = s.chunkMediumPool
  frame : ∀ l, ChunkFrame s s₁ .small c l
  data : SameData {y | y ∈ bytes c 4096 ∨ y ∈ bytes (c + p * 4096) 4096} s.data s₁.data

/-- A chunk with room has a page for a new run, which then goes into its pool. -/
theorem SmallChunk.start {c k : Nat} (m : SmallChunk s c) (hk : IsClass k)
    (hroom : (s.small c).used < 256) :
    ∃ p s₁, RunStarted s s₁ c p k ∧ newChunkRun s c k =
      pushRun s₁ (c + p * 4096) >>= fun s => rekeySmall s c 0 >>= fun s => .ok (s, c + p * 4096) := by
  obtain ⟨p, hlt, hfree, hsfu⟩ := bitmapSfu_spec (m.used ▸ hroom)
  obtain ⟨s₁, hstart, hrun, hself, hother, hnode, hpool, ⟨ha, ht, hy, hh, hs, hm, hcn, hsp, hmp⟩, hdata⟩ :=
    startRun_spec (s.setSmall c ⟨(s.small c).used + 1, bitmapSet (s.small c).bitmap p⟩) (c := c) (p := p) hk
      (congrArg ChunkHeader.pos m.header)
  refine ⟨p, s₁, ⟨hlt, fun he => hfree (he ▸ m.first), hfree, hrun, hself, hother, hnode, hpool, hh,
    by rw [hs, setSmall_small], hcn, hsp, hmp, fun l => ⟨ha, ht, hy, fun q _ => congrFun hh q, fun q hq => ?_,
      fun q _ => congrFun hm q, fun q _ => congrArg _ (congrFun hcn q), fun q _ => congrFun hcn q,
      fun _ => hsp, fun _ => hmp⟩, ?_⟩, ?_⟩
  · rw [hs, setSmall_ne _ _ hq]
  · exact (SameData.wrote fun y hy => .inl hy).trans ((hdata m.place.aligned).mono fun y hy => .inr hy)
  · rw [newChunkRun_eq, m.header, decide_eq_true rfl, require_true, Exec.ok_bind, decide_eq_true hroom,
      require_true, Exec.ok_bind, hsfu]
    dsimp only
    rw [decide_eq_true hlt, require_true, Exec.ok_bind, hstart]

/-- The page is taken once the run is in its pool. -/
theorem SmallPages.takePage (h : SmallPages s ls) {c p k : Nat} (hc : c ∈ ls)
    (hroom : (s.small c).used < 256) {s₁ s₂ : Shm} (hs : RunStarted s s₁ c p k)
    (hpush : pushRun s₁ (c + p * 4096) = .ok s₂) :
    ∃ s' ls', rekeySmall s₂ c 0 = .ok s' ∧ SmallPages s' ls' ∧ ls'.Perm ls ∧ PageTaken s s' ls c p k ∧
      s'.run = s₁.run ∧ SameRuns (headerBytes ls) s₂ s' := by
  obtain ⟨hplace, hheader, hfirst, hused, hkey⟩ := h.chunk c hc
  obtain ⟨t, pool', hs₂⟩ := pushRun_ok hpush
  have e₂ : RunsOnly s₁ s₂ := hs₂ ▸ .setRunTree ..
  have hrun₂ : s₂.run = s₁.run := by rw [hs₂]; rfl
  have hlink₂ : s₂.link = s₁.link := by rw [hs₂]; rfl
  have p₂ : ChunkPool s₂ .small ls := h.chunks.of_nodes (fun q _ => by rw [e₂.chunkNode, hs.chunkNode])
    (e₂.smallPool.trans hs.smallPool) (e₂.mediumPool.trans hs.mediumPool)
  obtain ⟨s₃, ls', hrekey, p₃, hperm, hre⟩ := rekeySmall_step (m := 0) p₂ hc
    (by rw [e₂.header, hs.header, hheader]) (by decide)
  have hrun₃ := hre.runs.run
  have hlink₃ := hre.runs.link
  have hsmall₃ : s₃.small c = ⟨(s.small c).used + 1, bitmapSet (s.small c).bitmap p⟩ := by
    rw [hre.small, e₂.small, hs.small]
  have hheader₃ : s₃.header = s.header := by rw [hre.header, e₂.header, hs.header]
  have htaken : PageTaken s s₃ ls c p k := by
    refine ⟨hs.lt, hs.ne, hs.free, ((hs.frame ls).trans (e₂.frame .small c ls)).trans hre.frame, hheader₃,
      by rw [hsmall₃], hs.run.congr (by rw [hrun₃, hrun₂]) fun _ _ => by rw [hlink₃, hlink₂], ?_,
      fun q hq => ?_⟩
    · rw [hrun₃, hrun₂, hs.self]
    · obtain ⟨h₁, h₂, -⟩ := hs.other q hq
      rw [hrun₃, hrun₂, hlink₃, hlink₂]
      exact ⟨h₁, h₂⟩
  refine ⟨s₃, ls', hrekey, ⟨p₃, fun q hq => ?_, fun r hr => ?_⟩, hperm, htaken, hrun₃.trans hrun₂, hre.runs⟩
  · by_cases hqc : q = c
    · subst hqc
      refine ⟨hplace, by rw [hheader₃, hheader], ?_, ?_, ?_⟩
      · rw [htaken.bitmap, pages_set _ hs.lt]
        exact Finset.mem_insert_of_mem hfirst
      · rw [htaken.bitmap, pages_set _ hs.lt, Finset.card_insert_of_notMem hs.free, hsmall₃, hused]
      · rw [hre.key, e₂.small, e₂.chunkNode, hs.small, hs.chunkNode, hsmall₃, hkey,
          if_neg (Nat.ne_of_lt hroom)]
        split <;> rfl
    · exact (h.chunk q (hperm.mem_iff.mp hq)).frame htaken.frame hqc
  · by_cases hrc : r = c + p * 4096
    · rw [hrun₃, hrun₂, hrc, hs.self]
    · rw [RunAt.perm hperm, runAt_set hc hs.lt hs.ne htaken.bitmap htaken.frame.small] at hr
      rw [(htaken.other r hrc).1]
      exact h.pos r (hr.resolve_right hrc)

/-! ### A chunk comes or goes -/

/-- A new small chunk has its header page in use only. -/
theorem initChunk_small_spec (p : ChunkPool s .small ls) {c : Nat} (hc : c ∉ ls) (hn : c ≠ 0)
    (hi : pos2index c < 2 ^ 31) :
    ∃ s' ls', initChunk s c c .small = .ok s' ∧ ChunkPool s' .small ls' ∧ ls'.Perm (c :: ls) ∧
      s'.header c = ⟨.small, c⟩ ∧ s'.small c = ⟨1, bitmapSet (fun _ => 0) 0⟩ ∧
      (s'.chunkNode c).v = ⟨pos2index c, 1⟩ ∧ ChunkFrame s s' .small c ls ∧
      SameRuns (headerBytes (c :: ls)) s s' := by
  generalize hs₁ : initChunkSmall (writeHeader s c .small) c = s₁
  have hnode₁ : s₁.chunkNode c = {zeroNode ⟨pos2index c, 0⟩ with s := c} := by
    rw [← hs₁]
    exact writeHeader_node s c .small
  have hsmall₁ : s₁.small c = ⟨1, bitmapSet (fun _ => 0) 0⟩ := by
    rw [← hs₁, initChunkSmall, setSmall_small, writeHeader_small]
    rfl
  have p₁ : ChunkPool s₁ .small ls := by
    rw [← hs₁]
    exact (p.writeHeader .small hc).of_nodes (fun _ _ => rfl) rfl rfl
  have f₁ : ChunkFrame s s₁ .small c ls := by
    have f := writeHeader_frame (s := s) (c := c) .small ls
    rw [← hs₁]
    exact ⟨f.arenas, f.arenaAddrs, f.sys, f.header, fun q hq => (setSmall_ne _ _ hq).trans (f.small q hq),
      f.medium, f.key, f.node, f.smallPool, f.mediumPool⟩
  have r₁ : SameRuns (headerBytes (c :: ls)) s s₁ := by
    have hW := mem_headerBytes (List.mem_cons_self (a := c) (l := ls))
    rw [← hs₁]
    exact (writeHeader_runs s c .small hW).trans ⟨rfl, rfl, rfl, rfl, .wrote hW⟩
  obtain ⟨t, ls', hins, hpool, hperm, hre⟩ := insertChunk_spec p₁ hc hn
    (congrArg Rbtree.Node.s hnode₁) ((congrArg (fun n => n.v.index) hnode₁).trans_lt hi)
    (show 1 < 2 ^ 31 by decide)
  have f₂ : ChunkFrame s₁ (s₁.setPool .small t) .small c (c :: ls) := hre.frame
  have f : ChunkFrame s (s₁.setPool .small t) .small c ls := f₁.trans
    ⟨f₂.arenas, f₂.arenaAddrs, f₂.sys, f₂.header, f₂.small, f₂.medium, f₂.key,
      fun q hq => f₂.node q fun h => hq (by simpa using h), f₂.smallPool, f₂.mediumPool⟩
  refine ⟨_, ls', ?_, hpool, hperm, ?_, by rw [setPool_small, hsmall₁], ?_, f, r₁.trans (hre.runs .small)⟩
  · rw [initChunk_eq, if_pos rfl, hs₁, hins]
  · rw [setPool_header, ← hs₁]
    exact writeHeader_header s c .small
  · rw [setPool_chunkNode, hre.key, hnode₁]
    rfl

theorem IsPlace.index_lt {c : Nat} (h : IsPlace c) : pos2index c < 128 := by
  obtain ⟨i, k, hi, hk, rfl⟩ := h
  rw [pos2index_eq]
  omega

theorem pages_first : pages (bitmapSet (fun _ => 0#64) 0) = {0} := by
  have hzero : pages (fun _ => 0#64) = ∅ := by
    refine Finset.filter_false_of_mem fun p _ => ?_
    simp [bitmapGet]
  rw [pages_set _ (by decide), hzero]
  rfl

theorem SmallChunk.new {c : Nat} (hplace : IsPlace c) (hheader : s.header c = ⟨.small, c⟩)
    (hsmall : s.small c = ⟨1, bitmapSet (fun _ => 0) 0⟩) (hkey : (s.chunkNode c).v = ⟨pos2index c, 1⟩) :
    SmallChunk s c where
  place := hplace
  header := hheader
  first := by
    rw [hsmall]
    exact pages_first ▸ Finset.mem_singleton_self 0
  used := by
    rw [hsmall]
    exact pages_first ▸ rfl
  key := by
    rw [hkey, hsmall]
    rfl

theorem SmallPages.create (h : SmallPages s ls) {c : Nat} (hc : c ∉ ls) (hn : c ≠ 0) (hplace : IsPlace c) :
    ∃ s' ls', initChunk s c c .small = .ok s' ∧ SmallPages s' ls' ∧ ls'.Perm (c :: ls) ∧
      (∀ r, RunAt s' ls' r ↔ RunAt s ls r) ∧ ChunkFrame s s' .small c ls ∧
      SameRuns (headerBytes (c :: ls)) s s' ∧ SmallChunk s' c ∧ pages (s'.small c).bitmap = {0} := by
  obtain ⟨s', ls', hrun, hpool, hperm, hheader, hsmall, hkey, f, e⟩ := initChunk_small_spec h.chunks hc hn
    (hplace.index_lt.trans (by decide))
  have hnew : SmallChunk s' c := .new hplace hheader hsmall hkey
  have hpages : pages (s'.small c).bitmap = {0} := by
    rw [hsmall]
    exact pages_first
  have hstay : ∀ q ∈ ls', (q ∈ ls ∧ q ≠ c) ∨ (SmallChunk s' q ∧ pages (s'.small q).bitmap = {0}) := by
    intro q hq
    rcases List.mem_cons.mp (hperm.mem_iff.mp hq) with rfl | hq
    · exact .inr ⟨hnew, hpages⟩
    · refine .inl ⟨hq, ?_⟩
      rintro rfl
      exact hc hq
  obtain ⟨h', hat⟩ := h.keep f e.run hpool hstay fun q hq hgo => by
    rcases hgo with hgo | rfl
    · exact absurd (hperm.mem_iff.mpr (.tail _ hq)) hgo
    · exact absurd hq hc
  exact ⟨s', ls', hrun, h', hperm, hat, f, e, hnew, hpages⟩

/-- A chunk that counts one page has its header page in use only. -/
theorem SmallChunk.pages_eq {c : Nat} (m : SmallChunk s c) (hused : (s.small c).used = 1) :
    pages (s.small c).bitmap = {0} := by
  have hcard := m.used
  have hfirst := m.first
  rw [hused] at hcard
  obtain ⟨x, hx⟩ := Finset.card_eq_one.mp hcard.symm
  rw [hx] at hfirst ⊢
  rw [Finset.mem_singleton.mp hfirst]

/-- A chunk of which no run is left is deleted. -/
theorem SmallPages.delete (h : SmallPages s ls) {c : Nat} (hc : c ∈ ls) (hused : (s.small c).used = 1) :
    ∃ s', deleteChunk s c = .ok s' ∧ SmallPages s' (ls.erase c) ∧
      (∀ r, RunAt s' (ls.erase c) r ↔ RunAt s ls r) ∧ ChunkFrame s s' .small c ls ∧
      SameRuns (headerBytes ls) s s' := by
  have m := h.chunk c hc
  obtain ⟨t, hrun, hpool, hframe, hruns⟩ := deleteChunk_spec h.chunks hc (congrArg ChunkHeader.type m.header)
  have f := hframe.setHeader {s.header c with type := .empty}
  have e : SameRuns (headerBytes ls) s ((s.setPool .small t).setHeader c {s.header c with type := .empty}) :=
    hruns.trans (.setHeader _ _ (mem_headerBytes hc))
  have hnd := h.chunks.holds.nodup
  obtain ⟨h', hat⟩ := h.keep f e.run (hpool.of_nodes (fun _ _ => rfl) rfl rfl)
    (fun q hq => .inl (hnd.mem_erase_iff.mp hq).symm) fun q hq hgo => by
      by_cases hqc : q = c
      · rw [hqc]
        exact m.pages_eq hused
      · exact absurd (hnd.mem_erase_iff.mpr ⟨hqc, hq⟩) (hgo.resolve_right hqc)
  exact ⟨_, hrun, h', hat, f, e⟩

end

end ShmMalloc
