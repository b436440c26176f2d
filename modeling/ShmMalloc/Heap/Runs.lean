import ShmMalloc.Heap.Realloc
import ShmMalloc.Heap.Refused

/-! Processes on one heap, with the positions that they hold.

A position is live from the request that returns it until it is freed. Callers free and
reallocate live positions only. Whether the blocks of the heap are the live positions is
then a matter of the frees: one that finds a full run with links left from its time in
the pool puts them back into the pool. -/
namespace ShmMalloc
open Library

/-- The live positions, each with the size that was asked for. -/
structure HeapWorld where
  world : World
  live : List (Nat × Nat)

def IsLive (live : List (Nat × Nat)) (pos : Nat) : Prop := pos ∈ live.map Prod.fst

namespace Call

/-- The live positions after a call that returns `ret`. -/
def liveAfter (live : List (Nat × Nat)) (ret : Nat) : Call → List (Nat × Nat)
  | .malloc size => if ret = 0 then live else (ret, size) :: live
  | .free pos => live.filter fun b => b.1 ≠ pos
  | .realloc pos size =>
    if ret = 0 ∨ ret = pos then live else (ret, size) :: live.filter fun b => b.1 ≠ pos
  | .checkSize _ => live
  | .getAddr _ => live

/-- Sizes have 64 bits, and what is freed is live. -/
def LegalFor (live : List (Nat × Nat)) : Call → Prop
  | .malloc size => size < 2 ^ 64
  | .free pos => pos = 0 ∨ IsLive live pos
  | .realloc pos size => size < 2 ^ 64 ∧ (pos = 0 ∨ IsLive live pos)
  | .checkSize _ => True
  | .getAddr _ => True

/-- The position that a call frees. -/
def freed : Call → Nat
  | .malloc _ => 0
  | .free pos => pos
  | .realloc pos _ => pos
  | .checkSize _ => 0
  | .getAddr _ => 0

end Call

namespace HeapWorld

def Legal (w : HeapWorld) : Action → Prop
  | .call pid c visits os shmat => (Action.call pid c visits os shmat).Legal w.world ∧ c.LegalFor w.live
  | a => a.Legal w.world

/-- A fresh context has no blocks. -/
def step (w : HeapWorld) : Action → Exec HeapWorld
  | .init pid shmid shmat => do
    let world ← w.world.init pid shmid shmat
    return ⟨world, if w.world.pids = [] then [] else w.live⟩
  | .exit pid => .ok ⟨w.world.exit pid, w.live⟩
  | .call pid c visits os shmat => do
    let s ← visit (w.world.load (w.world.proc pid) shmat) visits
    let (s, ret) ← c.run s os
    return ⟨w.world.store pid s, c.liveAfter w.live ret⟩

end HeapWorld

def heapMachine : Machine HeapWorld Action Fault where
  start w := w.world.Start ∧ w.live = []
  legal := HeapWorld.Legal
  step := HeapWorld.step

theorem HeapWorld.Legal.world {w : HeapWorld} {a : Action} (h : w.Legal a) : a.Legal w.world := by
  cases a with
  | init pid shmid shmat => exact h
  | exit pid => exact h
  | call pid c visits os shmat => exact h.1

/-- The processes do not know which positions are live. -/
theorem HeapWorld.step_world {w w' : HeapWorld} {a : Action} (h : w.step a = .ok w') :
    a.step w.world = .ok w'.world := by
  cases a with
  | init pid shmid shmat =>
    obtain ⟨world, hinit, hret⟩ := Exec.bind_ok h
    obtain rfl := Except.ok.inj hret
    exact hinit
  | exit pid =>
    obtain rfl := Except.ok.inj h
    rfl
  | call pid c visits os shmat =>
    obtain ⟨s, hvisit, h⟩ := Exec.bind_ok h
    obtain ⟨⟨s', ret⟩, hrun, h⟩ := Exec.bind_ok h
    obtain rfl := Except.ok.inj h
    show (visit _ visits >>= fun s => c.run s os >>= fun r => .ok (w.world.store pid r.1)) = _
    rw [hvisit, Exec.ok_bind, hrun, Exec.ok_bind]

/-- No call frees a block in a full run that has links left. -/
def Unlinks (w : HeapWorld) : Action → Prop
  | .call _ c _ _ _ => c.freed ≠ 0 → Unstale w.world.shm c.freed
  | _ => True

/-- The blocks are the live positions. -/
structure BlocksLive (s : Shm) (ls lm : List Nat) (live : List (Nat × Nat)) : Prop where
  block : ∀ b ∈ live, 0 < b.2 ∧ ∃ n, Block s ls lm (kindOf b.2) b.1 n ∧ (b.2 ≤ n ↔ b.2 ≤ 2 ^ 64 - 2 ^ 20)
  held : ∀ k pos n, Block s ls lm k pos n → IsLive live pos
  nodup : (live.map Prod.fst).Nodup

section
variable {s s' : Shm} {ls lm ls' lm' : List Nat} {pool : Nat → List Nat} {live : List (Nat × Nat)}

/-! ### The heap of a fresh context -/

theorem HeapOk.fresh {m : Nat} (hm : ((freshContext s m).arenas 0).shmid ≠ 0) :
    HeapOk (freshContext s m) [] [] fun _ => [] := by
  have hpool : ∀ type, ChunkPool (freshContext s m) type [] := by
    intro type
    refine ⟨?_, List.Pairwise.nil, fun q hq => absurd hq List.not_mem_nil⟩
    have hinit : (freshContext s m).pool type = Rbtree.init chunkMacros (freshContext s m).chunkNode := by
      unfold Shm.pool
      split <;> rfl
    rw [hinit]
    exact Rbtree.Holds.init _
  have hat : ∀ r, ¬RunAt (freshContext s m) [] r := by
    rintro r ⟨c, hc, -⟩
    exact absurd hc List.not_mem_nil
  have hslots : slotsUsed ((freshContext s m).arenas 0) = {0} := by
    ext k
    rw [mem_slotsUsed, Finset.mem_singleton]
    show k < 8 ∧ (if k = 0 then index2pos 0 1 else 0) ≠ 0 ↔ k = 0
    by_cases hk : k = 0
    · rw [if_pos hk, hk]
      decide
    · rw [if_neg hk]
      exact iff_of_false (fun h => h.2 rfl) hk
  have hzero : ∀ i, i ≠ 0 → (freshContext s m).arenas i = .zero := fun i hi => freshContext_arena s m hi
  refine ⟨⟨⟨⟨hpool .small, fun c hc => absurd hc List.not_mem_nil, fun r hr => absurd hr (hat r), fun k hk => ?_,
    fun k hk r => ?_⟩, hpool .medium, fun c hc => absurd hc List.not_mem_nil⟩, freshContext_ok hm, fun i => ?_,
    fun c => ?_⟩, fun c hc => absurd hc List.not_mem_nil⟩
  · exact ⟨⟨.nil, ⟨⟨0, trivial⟩, rfl, rfl, List.nodup_nil⟩, .nil⟩, by simp⟩
  · exact iff_of_false List.not_mem_nil fun hr => hat r hr.1
  · by_cases hi : i = 0
    · subst hi
      refine ⟨fun k hk => ?_, fun _ => rfl, ?_, fun ht => ?_, fun ht => ?_, fun _ => rfl⟩
      · rw [hslots] at hk
        exact .inl ⟨rfl, Finset.mem_singleton.mp hk⟩
      · rw [hslots]
        rfl
      · rcases ht with ht | ht <;> cases ht
      · cases ht
    · rw [hzero i hi]
      exact .bare hi (.inl rfl) rfl rfl
  · refine iff_of_false ?_ (by simp)
    rintro ⟨i, k, hk, hne, -⟩
    by_cases hi : i = 0
    · subst hi
      rw [hslots] at hk
      exact hne.elim (absurd rfl) fun hk' => hk' (Finset.mem_singleton.mp hk)
    · rw [hzero i hi, slotsUsed_zero rfl] at hk
      cases hk

/-! ### The live positions -/

theorem isLive_iff {pos : Nat} : IsLive live pos ↔ ∃ size, (pos, size) ∈ live := by
  unfold IsLive
  rw [List.mem_map]
  constructor
  · rintro ⟨⟨p, size⟩, hb, rfl⟩
    exact ⟨size, hb⟩
  · rintro ⟨size, hb⟩
    exact ⟨_, hb, rfl⟩

namespace BlocksLive

/-- A live position has its block. -/
theorem at_live (h : BlocksLive s ls lm live) {pos : Nat} (hp : IsLive live pos) : ∃ size n, (pos, size) ∈ live ∧
    0 < size ∧ Block s ls lm (kindOf size) pos n ∧ (size ≤ n ↔ size ≤ 2 ^ 64 - 2 ^ 20) := by
  obtain ⟨size, hb⟩ := isLive_iff.mp hp
  obtain ⟨hs, n, hb', hn⟩ := h.block _ hb
  exact ⟨size, n, hb, hs, hb', hn⟩

theorem nil (hb : ∀ k pos n, ¬Block s ls lm k pos n) : BlocksLive s ls lm [] where
  block _ hb := absurd hb List.not_mem_nil
  held k pos n h := absurd h (hb k pos n)
  nodup := List.nodup_nil

theorem same (h : BlocksLive s ls lm live) (e : ∀ k pos n, Block s' ls' lm' k pos n ↔ Block s ls lm k pos n) :
    BlocksLive s' ls' lm' live where
  block b hb := by
    obtain ⟨hs, n, hb', hn⟩ := h.block b hb
    exact ⟨hs, n, (e _ _ _).mpr hb', hn⟩
  held k pos n hb := h.held k pos n ((e k pos n).mp hb)
  nodup := h.nodup

/-- A new block is live. -/
theorem add (h : BlocksLive s ls lm live) {size pos n : Nat} (hs : 0 < size) (hn : size ≤ n ↔ size ≤ 2 ^ 64 - 2 ^ 20)
    (hnew : ∀ k m, ¬Block s ls lm k pos m)
    (e : ∀ k q m, Block s' ls' lm' k q m ↔ Block s ls lm k q m ∨ k = kindOf size ∧ q = pos ∧ m = n) :
    BlocksLive s' ls' lm' ((pos, size) :: live) where
  block b hb := by
    rcases List.mem_cons.mp hb with rfl | hb
    · exact ⟨hs, n, (e _ _ _).mpr (.inr ⟨rfl, rfl, rfl⟩), hn⟩
    · obtain ⟨hs', m, hb', hm⟩ := h.block b hb
      exact ⟨hs', m, (e _ _ _).mpr (.inl hb'), hm⟩
  held k q m hb := by
    rcases (e k q m).mp hb with hb | ⟨-, rfl, -⟩
    · exact List.mem_cons_of_mem _ (h.held k q m hb)
    · exact List.mem_cons_self
  nodup := List.nodup_cons.mpr ⟨fun hp => by
    obtain ⟨size', m, -, -, hb, -⟩ := h.at_live hp
    exact hnew _ _ hb, h.nodup⟩

/-- A block that is gone is not live. -/
theorem remove (h : BlocksLive s ls lm live) {pos : Nat}
    (e : ∀ k q m, Block s' ls' lm' k q m ↔ Block s ls lm k q m ∧ q ≠ pos) :
    BlocksLive s' ls' lm' (live.filter fun b => b.1 ≠ pos) where
  block b hb := by
    obtain ⟨hb, hne⟩ := List.mem_filter.mp hb
    obtain ⟨hs, n, hb', hn⟩ := h.block b hb
    exact ⟨hs, n, (e _ _ _).mpr ⟨hb', of_decide_eq_true hne⟩, hn⟩
  held k q m hb := by
    obtain ⟨hb, hne⟩ := (e k q m).mp hb
    obtain ⟨size, hl⟩ := isLive_iff.mp (h.held k q m hb)
    exact isLive_iff.mpr ⟨size, List.mem_filter.mpr ⟨hl, decide_eq_true hne⟩⟩
  nodup := h.nodup.sublist (List.filter_sublist.map _)

/-- **Live blocks are apart**, with what is known of each and its capacity. -/
theorem apart {ls lm : List Nat} {pool : Nat → List Nat} (h : BlocksLive s ls lm live) (hok : HeapOk s ls lm pool)
    {Q : Nat → Nat → Nat → Prop}
    (hQ : ∀ pos size, (pos, size) ∈ live → ∃ n, Block s ls lm (kindOf size) pos n ∧ Q pos size n) :
    ∃ capacity : Nat → Nat, (∀ pos size, (pos, size) ∈ live → Q pos size (capacity pos)) ∧
      (∀ p q, IsLive live p → IsLive live q → p ≠ q → Disjoint (bytes p (capacity p)) (bytes q (capacity q))) ∧
      ∀ p, IsLive live p → Disjoint (bytes p (capacity p)) (bytes 0 (2 ^ 20)) ∧
        (∀ c, IsChunk s c → Disjoint (bytes p (capacity p)) (bytes c 4096)) ∧
        ∀ r, RunAt s ls r → Disjoint (bytes p (capacity p)) (bytes r 64) := by
  have hblock : ∀ p, ∃ n, IsLive live p → ∃ size, (p, size) ∈ live ∧ Block s ls lm (kindOf size) p n ∧ Q p size n := by
    intro p
    by_cases hlive : IsLive live p
    · obtain ⟨size, hb⟩ := isLive_iff.mp hlive
      obtain ⟨n, hb', hq⟩ := hQ p size hb
      exact ⟨n, fun _ => ⟨size, hb, hb', hq⟩⟩
    · exact ⟨0, fun hlive' => absurd hlive' hlive⟩
  choose capacity hcap using hblock
  refine ⟨capacity, fun pos size hb => ?_, fun p q hlp hlq hne => ?_, fun p hlp => ?_⟩
  · obtain ⟨size', hb', -, hq⟩ := hcap pos (isLive_iff.mpr ⟨size, hb⟩)
    have hpair : (pos, size') = (pos, size) := List.inj_on_of_nodup_map h.nodup hb' hb rfl
    obtain ⟨-, rfl⟩ := Prod.mk.inj hpair
    exact hq
  · obtain ⟨_, -, hbp, -⟩ := hcap p hlp
    obtain ⟨_, -, hbq, -⟩ := hcap q hlq
    exact hok.disjoint hbp hbq hne
  · obtain ⟨_, -, hbp, -⟩ := hcap p hlp
    exact ⟨hok.disjoint_context hbp, fun c hc => hok.disjoint_header hbp hc, fun r hr => hok.disjoint_run hbp hr⟩

end BlocksLive

/-! ### Calls -/

/-- Nothing small has been asked for. -/
structure NoSmall (ls : List Nat) (live : List (Nat × Nat)) : Prop where
  chunks : ls = []
  sizes : ∀ b ∈ live, 1920 < b.2

/-- A heap whose blocks are the live positions; none is small if `B` holds. -/
def HeapHeld (B : Prop) (s : Shm) (live : List (Nat × Nat)) : Prop :=
  ∃ ls lm pool, HeapOk s ls lm pool ∧ BlocksLive s ls lm live ∧ (B → NoSmall ls live)

theorem kindOf_ne_small {size : Nat} (h : 1920 < size) : kindOf size ≠ .small := fun he =>
  absurd (kindOf_small he) (by omega)

/-- The request for more than a small block. -/
def Call.Big : Call → Prop
  | .malloc size => 1920 < size
  | .free _ => True
  | .realloc _ size => 1920 < size
  | .checkSize _ => True
  | .getAddr _ => True

namespace HeapHeld
variable {B : Prop} {os : Os}

theorem same (h : HeapHeld B s live) (e : SameHeap s s') : HeapHeld B s' live := by
  obtain ⟨ls, lm, pool, h, hl, hB⟩ := h
  exact ⟨ls, lm, pool, h.same e, hl.same (e.blocks h.toChunksOk).blocks, hB⟩

theorem malloc (h : HeapHeld B s live) {size ret : Nat} (hsize : size < 2 ^ 64) (hbig : B → 1920 < size)
    (hrun : shmMalloc s size os = .ok (s', ret)) : HeapHeld B s' (if ret = 0 then live else (ret, size) :: live) := by
  unfold shmMalloc at hrun
  split at hrun
  · obtain ⟨rfl, rfl⟩ := Prod.mk.inj (Except.ok.inj hrun)
    exact h
  next hs =>
  obtain ⟨ls, lm, pool, h, hl, hB⟩ := h
  obtain ⟨rfl, e⟩ | ⟨hne, ls', lm', pool', n, h', ha, hn, hls⟩ := h.malloc (Nat.pos_of_ne_zero hs) hsize hrun
  · exact HeapHeld.same ⟨ls, lm, pool, h, hl, hB⟩ e
  · rw [if_neg hne]
    refine ⟨ls', lm', pool', h', hl.add (Nat.pos_of_ne_zero hs) hn (fun k m hb => ha.fresh h'.toHeapInv hb rfl) ha.blocks,
      fun b => ⟨?_, fun x hx => ?_⟩⟩
    · rw [hls (kindOf_ne_small (hbig b)), (hB b).chunks]
    · rcases List.mem_cons.mp hx with rfl | hx
      · exact hbig b
      · exact (hB b).sizes x hx

theorem free (h : HeapHeld B s live) {pos : Nat} (hp : IsLive live pos) (hu : Unstale s pos)
    (hrun : freeArena s (pos2index pos) (pos2offset pos) = .ok s') :
    HeapHeld B s' (live.filter fun b => b.1 ≠ pos) := by
  obtain ⟨ls, lm, pool, h, hl, hB⟩ := h
  obtain ⟨size, n, hx, -, hb, -⟩ := hl.at_live hp
  obtain ⟨ls', lm', pool', h', hf, hls⟩ := h.free hb hu hrun
  refine ⟨ls', lm', pool', h', hl.remove hf.blocks, fun b => ⟨?_, fun y hy => (hB b).sizes y (List.mem_filter.mp hy).1⟩⟩
  rw [hls (kindOf_ne_small ((hB b).sizes _ hx)), (hB b).chunks]

theorem realloc (h : HeapHeld B s live) {pos size ret : Nat} (hsize : size < 2 ^ 64) (hbig : B → 1920 < size)
    (hp : IsLive live pos) (hu : Unstale s pos) (hrun : shmRealloc s pos size os = .ok (s', ret)) :
    HeapHeld B s' (if ret = 0 ∨ ret = pos then live else (ret, size) :: live.filter fun b => b.1 ≠ pos) := by
  obtain ⟨ls, lm, pool, h, hl, hB⟩ := h
  obtain ⟨size', n, hx, -, hb, -⟩ := hl.at_live hp
  cases h.realloc hb hu hsize hrun with
  | kept e =>
    rw [if_pos (.inr rfl)]
    exact HeapHeld.same ⟨ls, lm, pool, h, hl, hB⟩ e
  | refused e =>
    rw [if_pos (.inl rfl)]
    exact HeapHeld.same ⟨ls, lm, pool, h, hl, hB⟩ e
  | @moved _ m ls' lm' pool' hlt hne hm h' hls hmoved =>
    have hpos : ret ≠ pos := fun he => hmoved.new _ n (he ▸ hb)
    have hmem : ∀ b ∈ live.filter fun b => b.1 ≠ pos, b ∈ live ∧ b.1 ≠ pos := fun b hb =>
      ⟨(List.mem_filter.mp hb).1, of_decide_eq_true (List.mem_filter.mp hb).2⟩
    rw [if_neg fun he => he.elim hne hpos]
    refine ⟨ls', lm', pool', h', ⟨fun b hb => ?_, fun k q x hb => ?_, List.nodup_cons.mpr ⟨fun hr => ?_,
      hl.nodup.sublist (List.filter_sublist.map _)⟩⟩, fun b => ⟨?_, fun y hy => ?_⟩⟩
    · rcases List.mem_cons.mp hb with rfl | hb
      · exact ⟨by show 0 < size; omega, m, (hmoved.blocks _ _ _).mpr (.inr ⟨rfl, rfl, rfl⟩), hm⟩
      · obtain ⟨hb, hne'⟩ := hmem b hb
        obtain ⟨hs, x, hb', hx⟩ := hl.block b hb
        exact ⟨hs, x, (hmoved.blocks _ _ _).mpr (.inl ⟨hb', hne'⟩), hx⟩
    · rcases (hmoved.blocks k q x).mp hb with ⟨hb, hq⟩ | ⟨-, rfl, -⟩
      · obtain ⟨y, hy⟩ := isLive_iff.mp (hl.held k q x hb)
        exact isLive_iff.mpr ⟨y, List.mem_cons_of_mem _ (List.mem_filter.mpr ⟨hy, decide_eq_true hq⟩)⟩
      · exact List.mem_cons_self
    · obtain ⟨y, hy⟩ := isLive_iff.mp hr
      obtain ⟨-, x, hb', -⟩ := hl.block _ (hmem _ hy).1
      exact hmoved.new _ x hb'
    · rw [hls (kindOf_ne_small ((hB b).sizes _ hx)) (kindOf_ne_small (hbig b)), (hB b).chunks]
    · rcases List.mem_cons.mp hy with rfl | hy
      · exact hbig b
      · exact (hB b).sizes y (hmem y hy).1

/-- A call that completes. -/
theorem call (h : HeapHeld B s live) {c : Call} {ret : Nat} (hl : c.LegalFor live) (hbig : B → c.Big)
    (hu : c.freed ≠ 0 → Unstale s c.freed) (hrun : c.run s os = .ok (s', ret)) :
    HeapHeld B s' (c.liveAfter live ret) := by
  -- no block is at the null position
  have hnull : live.filter (fun b => b.1 ≠ 0) = live := by
    obtain ⟨ls, lm, pool, h, hb, -⟩ := h
    refine List.filter_eq_self.mpr fun b hm => decide_eq_true ?_
    obtain ⟨-, n, hb', -⟩ := hb.block b hm
    exact h.pos_ne hb'
  cases c with
  | malloc size => exact h.malloc hl hbig hrun
  | free pos =>
    obtain ⟨s₁, hfree, hret⟩ := Exec.bind_ok hrun
    obtain ⟨rfl, rfl⟩ := Prod.mk.inj (Except.ok.inj hret)
    unfold shmFree at hfree
    split at hfree
    · next hpos =>
      obtain rfl := Except.ok.inj hfree
      subst hpos
      show HeapHeld B s (live.filter fun b => b.1 ≠ 0)
      rwa [hnull]
    · next hpos => exact h.free (hl.resolve_left hpos) (hu hpos) hfree
  | realloc pos size =>
    by_cases hpos : pos = 0
    · subst hpos
      show HeapHeld B s' (if ret = 0 ∨ ret = 0 then live else (ret, size) :: live.filter fun b => b.1 ≠ 0)
      simpa only [hnull, or_self] using h.malloc hl.1 hbig hrun
    · exact h.realloc hl.1 hbig (hl.2.resolve_left hpos) (hu hpos) hrun
  | checkSize pos =>
    have hcheck : shmCheckSize s pos = .ok (s', ret) := hrun
    unfold shmCheckSize at hcheck
    split at hcheck
    · obtain ⟨rfl, rfl⟩ := Prod.mk.inj (Except.ok.inj hcheck)
      exact h
    · exact h.same (checkArena_same hcheck)
  | getAddr pos =>
    obtain ⟨⟨s₁, addr⟩, hget, hret⟩ := Exec.bind_ok hrun
    obtain ⟨rfl, rfl⟩ := Prod.mk.inj (Except.ok.inj hret)
    unfold shmGetAddr at hget
    dsimp only at hget
    split at hget
    · obtain ⟨rfl, rfl⟩ := Prod.mk.inj (Except.ok.inj hget)
      exact h
    · obtain ⟨⟨s₂, base⟩, hlook, hget⟩ := Exec.bind_ok hget
      obtain ⟨rfl, rfl⟩ := Prod.mk.inj (Except.ok.inj hget)
      exact h.same (getOrUpdateArenaAddr_same hlook)

end HeapHeld

/-! ### Runs -/

/-- The heap as it is while there are processes. -/
def HeapLive (B : Prop) (w : HeapWorld) : Prop := w.world.pids ≠ [] → HeapHeld B w.world.shm w.live

/-- What a call of a process runs on. -/
theorem visit_load {w : World} {pid : Nat} {shmat : Nat → Nat → List Attach → Option Nat} {visits : List Nat}
    (h : visit (w.load (w.proc pid) shmat) visits = .ok s) : SameHeap w.shm s := by
  have hload : SameHeap w.shm (w.load (w.proc pid) shmat) := .write w.shm _ _
  exact hload.trans (visit_same h)

/-- The context that a process finds when it starts. -/
theorem HeapLive.context {B : Prop} {w : HeapWorld} (h : HeapLive B w) {shmid : Nat}
    (hm : ((w.world.context shmid).arenas 0).shmid ≠ 0) :
    HeapHeld B (w.world.context shmid) (if w.world.pids = [] then [] else w.live) := by
  unfold World.context at *
  split
  · next hp =>
    rw [if_pos hp] at hm
    have hok := HeapOk.fresh hm
    refine ⟨[], [], _, hok, .nil fun k pos n hb => ?_, fun _ => ⟨rfl, fun b hb => absurd hb List.not_mem_nil⟩⟩
    cases k with
    | small =>
      obtain ⟨r, o, ⟨c, hc, -⟩, -⟩ := hb
      cases hc
    | medium =>
      obtain ⟨c, hc, -⟩ := hb
      cases hc
    | large =>
      obtain ⟨i, hi, -⟩ := hb
      have hi₀ : i ≠ 0 := fun he => by
        rw [(hok.arenas.context i).mpr he] at hi
        cases hi
      rw [freshContext_arena _ _ hi₀] at hi
      cases hi
  · next hp => exact h hp

/-- Every request is for more than a small block. -/
def OnlyBig (_ : HeapWorld) : Action → Prop
  | .call _ c _ _ _ => c.Big
  | _ => True

theorem HeapLive.step {B : Prop} {w w' : HeapWorld} {a : Action} (h : HeapLive B w) (hl : w.Legal a)
    (hbig : B → OnlyBig w a) (ha : Unlinks w a) (hs : w.step a = .ok w') : HeapLive B w' := by
  cases a with
  | init pid shmid shmat =>
    obtain ⟨world, hinit, hret⟩ := Exec.bind_ok hs
    obtain rfl := Except.ok.inj hret
    have hfound : SameHeap (w.world.context shmid) (w.world.found shmid shmat) := .write _ _ _
    rcases World.init_cases hinit with ⟨-, k, rfl⟩ | ⟨addr, s, hne, -, hloop, rfl⟩
    · intro hp
      have hp' : w.world.pids ≠ [] := hp
      have hctx : w.world.context shmid = w.world.shm := if_neg hp'
      show HeapHeld B {w.world.found shmid shmat with sys := _} (if w.world.pids = [] then [] else w.live)
      rw [if_neg hp']
      exact (h hp').same ((hctx ▸ hfound).trans (.write _ _ _))
    · intro _
      have hattach : SameHeap (w.world.found shmid shmat) (attachArena (w.world.found shmid shmat) 0 addr) :=
        .write _ _ _
      exact (h.context hne).same ((hfound.trans hattach).trans (mmapArenas_same hloop))
  | exit pid =>
    obtain rfl := Except.ok.inj hs
    intro hp
    have hw : w.world.pids ≠ [] := fun he => hp (by show (w.world.exit pid).pids = []; rw [World.exit, he]; rfl)
    exact (h hw).same (.write _ _ _)
  | call pid c visits os shmat =>
    obtain ⟨s, hvisit, hs⟩ := Exec.bind_ok hs
    obtain ⟨⟨s', ret⟩, hrun, hs⟩ := Exec.bind_ok hs
    obtain rfl := Except.ok.inj hs
    have e := visit_load hvisit
    exact fun _ => ((h (List.ne_nil_of_mem hl.1.1)).same e).call hl.2 hbig
      (fun hc => (ha hc).same e) hrun

/-- The blocks are the live positions, in every run that frees no block with links left. -/
theorem heapLive_reach {w : HeapWorld} (h : heapMachine.Reach Unlinks w) : HeapLive False w := by
  have hstart : ∀ w, heapMachine.start w → HeapLive False w := fun w hw hp => absurd hw.1.1 hp
  exact h.invariant hstart fun w a w' hi hl ha hs => hi.step hl False.elim ha hs

/-- A block that is not small is not in a run. -/
theorem HeapLive.unlinks {w : HeapWorld} {a : Action} (h : HeapLive True w) (hl : w.Legal a) : Unlinks w a := by
  cases a with
  | init pid shmid shmat => trivial
  | exit pid => trivial
  | call pid c visits os shmat =>
    intro hc
    obtain ⟨ls, lm, pool, h, hb, hB⟩ := h (List.ne_nil_of_mem hl.1.1)
    have hlive : IsLive w.live c.freed := by
      cases c with
      | malloc size => exact absurd rfl hc
      | free pos => exact Or.resolve_left hl.2 hc
      | realloc pos size => exact Or.resolve_left hl.2.2 hc
      | checkSize pos => exact absurd rfl hc
      | getAddr pos => exact absurd rfl hc
    obtain ⟨size, n, hx, -, hb, -⟩ := hb.at_live hlive
    exact (h.unstale_iff hb).mpr fun he => absurd he (kindOf_ne_small ((hB trivial).sizes _ hx))

theorem heapLive_big {w : HeapWorld} (h : heapMachine.Reach OnlyBig w) : HeapLive True w := by
  have hstart : ∀ w, heapMachine.start w → HeapLive True w := fun w hw hp => absurd hw.1.1 hp
  exact h.invariant hstart fun w a w' hi hl ha hs => hi.step hl (fun _ => ha) (hi.unlinks hl) hs

end

/-! ### Runs on the system that serves every attach -/

instance (live : List (Nat × Nat)) (pos : Nat) : Decidable (IsLive live pos) :=
  inferInstanceAs (Decidable (pos ∈ live.map Prod.fst))

instance (live : List (Nat × Nat)) : (c : Call) → Decidable (c.LegalFor live)
  | .malloc size => inferInstanceAs (Decidable (size < 2 ^ 64))
  | .free pos => inferInstanceAs (Decidable (pos = 0 ∨ IsLive live pos))
  | .realloc pos size => inferInstanceAs (Decidable (size < 2 ^ 64 ∧ (pos = 0 ∨ IsLive live pos)))
  | .checkSize _ => inferInstanceAs (Decidable True)
  | .getAddr _ => inferInstanceAs (Decidable True)

instance (w : HeapWorld) : (o : Order) → Decidable (w.Legal o.action)
  | .init pid shmid => inferInstanceAs (Decidable ((Order.init pid shmid).action.Legal w.world))
  | .exit pid => inferInstanceAs (Decidable ((Order.exit pid).action.Legal w.world))
  | .call pid c os =>
    inferInstanceAs (Decidable ((Order.call pid c os).action.Legal w.world ∧ c.LegalFor w.live))

def heapOrderMachine : Machine HeapWorld Order Fault :=
  ⟨heapMachine.start, fun w o => w.Legal o.action, fun w o => w.step o.action⟩

instance (w : HeapWorld) (o : Order) : Decidable (heapOrderMachine.legal w o) :=
  inferInstanceAs (Decidable (w.Legal o.action))

theorem Order.heap_reach {allow : HeapWorld → Action → Prop} {w : HeapWorld}
    (h : heapOrderMachine.Reach (fun w o => allow w o.action) w) : heapMachine.Reach allow w := by
  induction h with
  | start h => exact .start h
  | step _ hl ha hs ih => exact .step ih hl ha hs

instance (s : Shm) (r : Nat) : Decidable (Unlinked s r) := inferInstanceAs (Decidable (_ → _))

instance (s : Shm) (pos : Nat) : Decidable (Unstale s pos) := inferInstanceAs (Decidable (_ → _ → _))

def unlinksTest (w : HeapWorld) : Order → Bool
  | .call _ c _ => decide (c.freed ≠ 0 → Unstale w.world.shm c.freed)
  | _ => true

theorem unlinksTest_unlinks (w : HeapWorld) : (o : Order) → unlinksTest w o = true → Unlinks w o.action
  | .init _ _, _ => trivial
  | .exit _, _ => trivial
  | .call _ c _, h => of_decide_eq_true (p := c.freed ≠ 0 → Unstale w.world.shm c.freed) h

def HeapWorld.start : HeapWorld := ⟨World.start, []⟩

theorem HeapWorld.start_ok : heapOrderMachine.start .start := ⟨⟨rfl, fun _ => rfl⟩, rfl⟩

end ShmMalloc
