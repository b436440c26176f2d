import ShmMalloc.Chunk.MediumSpec
import ShmMalloc.Chunk.SmallSpec
import ShmMalloc.Malloc
import ShmMalloc.Library.Machine

/-! Runs of the calls that write the two pools of chunks.

A chunk goes into its pool with `init_chunk`, gets a new key in place with
`update_chunk_pool` and leaves with `delete_chunk`; between these the rest of the
allocator writes anything but the nodes, the headers and the pools. -/
namespace ShmMalloc
open Library
open Rbtree (Holds Ascending)

/-- The chunks in the pool of each type, beside the shared state. -/
structure PoolWorld where
  shm : Shm
  chunks : ChunkType → List Nat

inductive PoolCall where
  | init (chunk : Nat) (type : ChunkType)
  | update (chunk newMax : Nat)
  | delete (chunk : Nat)
  | rest (s : Shm)

/-- `CHUNK_MEDIUM_LIMIT`. -/
def chunkMediumLimit : Nat := 2 ^ 20 - 4096

/-- The nodes, headers and pools of chunks are the same. -/
structure SamePools (s s' : Shm) : Prop where
  header : s'.header = s.header
  node : s'.chunkNode = s.chunkNode
  small : s'.chunkSmallPool = s.chunkSmallPool
  medium : s'.chunkMediumPool = s.chunkMediumPool

namespace PoolCall

/-- A chunk goes into a pool once until it is deleted, at a position in an arena, and no more
room is told of than a chunk has. -/
def Legal (w : PoolWorld) : PoolCall → Prop
  | .init c type => type ≠ .empty ∧ c ∉ w.chunks .small ∧ c ∉ w.chunks .medium ∧ c ≠ 0 ∧
      pos2index c < 128
  | .update c newMax => (c ∈ w.chunks .small ∨ c ∈ w.chunks .medium) ∧ newMax ≤ chunkMediumLimit
  | .delete c => c ∈ w.chunks .small ∨ c ∈ w.chunks .medium
  | .rest s => SamePools w.shm s

def step (w : PoolWorld) : PoolCall → Exec PoolWorld
  | .init c type => do
    let s ← initChunk w.shm c c type
    return ⟨s, Function.update w.chunks type (c :: w.chunks type)⟩
  | .update c newMax => do
    let s ← updateChunkPool w.shm c newMax
    return {w with shm := s}
  | .delete c => do
    let s ← deleteChunk w.shm c
    let type := (w.shm.header c).type
    return ⟨s, Function.update w.chunks type ((w.chunks type).erase c)⟩
  | .rest s => .ok {w with shm := s}

end PoolCall

def poolMachine : Machine PoolWorld PoolCall Fault where
  start w := w.chunks = (fun _ => []) ∧ w.shm.chunkSmallPool = ⟨0, 0⟩ ∧
    w.shm.chunkMediumPool = ⟨0, 0⟩
  legal w a := a.Legal w
  step w a := a.step w

/-- What the key of a chunk may say. -/
def KeyOk (k : ChunkTreeValue) : Prop := k.index < 128 ∧ k.maxsize ≤ chunkMediumLimit

theorem KeyOk.valid {k : ChunkTreeValue} (h : KeyOk k) : k.Valid := by
  obtain ⟨hi, hm⟩ := h
  unfold chunkMediumLimit at hm
  exact ⟨by omega, by omega⟩

structure PoolsOk (w : PoolWorld) : Prop where
  pool : ∀ type, type ≠ .empty → ∃ l, ChunkPool w.shm type l ∧ l.Perm (w.chunks type)
  type : ∀ type, type ≠ .empty → ∀ c ∈ w.chunks type, (w.shm.header c).type = type
  key : ∀ type, type ≠ .empty → ∀ c ∈ w.chunks type, KeyOk (w.shm.chunkNode c).v

namespace PoolsOk
variable {w : PoolWorld} {s : Shm} {type : ChunkType} {c : Nat} {l l' k : List Nat}

theorem start (h : poolMachine.start w) : PoolsOk w := by
  obtain ⟨hchunks, hsmall, hmedium⟩ := h
  have hnil : ∀ type, w.chunks type = [] := fun type => by rw [hchunks]
  refine ⟨fun type ht => ⟨[], ⟨?_, List.Pairwise.nil, by simp⟩, by rw [hnil]⟩,
    fun type _ c hc => ?_, fun type _ c hc => ?_⟩
  · have hinit : w.shm.pool type = Rbtree.init chunkMacros w.shm.chunkNode := by
      unfold Shm.pool
      rw [hsmall, hmedium, ite_self]
      rfl
    rw [hinit]
    exact Holds.init _
  · rw [hnil] at hc
    exact absurd hc List.not_mem_nil
  · rw [hnil] at hc
    exact absurd hc List.not_mem_nil

/-- A chunk is in one pool at most. -/
theorem apart (h : PoolsOk w) {t t' : ChunkType} (ht : t ≠ .empty) (ht' : t' ≠ .empty) (hne : t' ≠ t)
    (hc : c ∈ w.chunks t) : c ∉ w.chunks t' := fun hc' =>
  hne ((h.type t' ht' c hc').symm.trans (h.type t ht c hc))

/-- What a call on a chunk `c` of one pool keeps. -/
theorem of_frame (h : PoolsOk w) (ht : type ≠ .empty) (f : ChunkFrame w.shm s type c l)
    (hl : ∀ q ∈ l, q ∈ w.chunks type) (p : ChunkPool s type l') (hp : l'.Perm k)
    (hk : ∀ q ∈ k, q = c ∨ q ∈ w.chunks type)
    (hself : c ∈ k → (s.header c).type = type ∧ KeyOk (s.chunkNode c).v)
    (hother : ∀ t, t ≠ .empty → t ≠ type → c ∉ w.chunks t) :
    PoolsOk ⟨s, Function.update w.chunks type k⟩ := by
  -- the chunks after the call, other than `c`, are chunks from before it
  have hmem : ∀ t, t ≠ .empty → ∀ q ∈ Function.update w.chunks type k t,
      (q = c ∧ t = type ∧ c ∈ k) ∨ q ≠ c ∧ q ∈ w.chunks t := by
    intro t ht' q hq
    by_cases hty : t = type
    · subst hty
      rw [Function.update_self] at hq
      by_cases hqc : q = c
      · subst hqc
        exact .inl ⟨rfl, rfl, hq⟩
      · exact .inr ⟨hqc, (hk q hq).resolve_left hqc⟩
    · rw [Function.update_of_ne hty] at hq
      refine .inr ⟨?_, hq⟩
      rintro rfl
      exact hother t ht' hty hq
  refine ⟨fun t ht' => ?_, fun t ht' q hq => ?_, fun t ht' q hq => ?_⟩
  · show ∃ m, ChunkPool s t m ∧ m.Perm (Function.update w.chunks type k t)
    by_cases hty : t = type
    · subst hty
      rw [Function.update_self]
      exact ⟨l', p, hp⟩
    · rw [Function.update_of_ne hty]
      obtain ⟨m, hpool, hperm⟩ := h.pool t ht'
      refine ⟨m, hpool.frame f ?_ fun q hq => ?_, hperm⟩
      · cases type <;> cases t <;> simp_all
      · have hq := hperm.mem_iff.mp hq
        rw [List.mem_cons, not_or]
        refine ⟨?_, fun hql => h.apart ht ht' hty (hl q hql) hq⟩
        rintro rfl
        exact hother t ht' hty hq
  · rcases hmem t ht' q hq with ⟨rfl, rfl, hc⟩ | ⟨hqc, hq⟩
    · exact (hself hc).1
    · rw [f.header q hqc]
      exact h.type t ht' q hq
  · rcases hmem t ht' q hq with ⟨rfl, rfl, hc⟩ | ⟨hqc, hq⟩
    · exact (hself hc).2
    · rw [f.key q hqc]
      exact h.key t ht' q hq

/-- The type of a chunk in a pool. -/
theorem mem_type (h : PoolsOk w) (hc : c ∈ w.chunks .small ∨ c ∈ w.chunks .medium) :
    ∃ type, type ≠ .empty ∧ c ∈ w.chunks type ∧ (w.shm.header c).type = type := by
  rcases hc with hc | hc
  · exact ⟨.small, by decide, hc, h.type _ (by decide) c hc⟩
  · exact ⟨.medium, by decide, hc, h.type _ (by decide) c hc⟩

theorem init (h : PoolsOk w) (hl : (PoolCall.init c type).Legal w) :
    ∃ w', (PoolCall.init c type).step w = .ok w' ∧ PoolsOk w' := by
  obtain ⟨ht, hsmall, hmedium, hn, hi⟩ := hl
  have hnew : ∀ t, t ≠ .empty → c ∉ w.chunks t := by
    intro t ht'
    cases t with
    | empty => exact absurd rfl ht'
    | small => exact hsmall
    | medium => exact hmedium
  obtain ⟨l, hpool, hperm⟩ := h.pool type ht
  have hcl : c ∉ l := fun hm => hnew type ht (hperm.mem_iff.mp hm)
  have hinit : ∃ s' l', initChunk w.shm c c type = .ok s' ∧ ChunkPool s' type l' ∧
      l'.Perm (c :: l) ∧ ChunkFrame w.shm s' type c l ∧ (s'.header c).type = type ∧
      KeyOk (s'.chunkNode c).v := by
    cases type with
    | empty => exact absurd rfl ht
    | small =>
      obtain ⟨s', l', hrun, hpool', hperm', hheader, -, hkey, f, -⟩ :=
        initChunk_small_spec hpool hcl hn (by omega)
      refine ⟨s', l', hrun, hpool', hperm', f, by rw [hheader], ?_⟩
      rw [hkey]
      exact ⟨hi, show 1 ≤ chunkMediumLimit by decide⟩
    | medium =>
      obtain ⟨s', l', hrun, hpool', hperm', m, hmax, -, -, f, -⟩ :=
        initChunk_medium_spec hpool hcl hn (by omega)
      refine ⟨s', l', hrun, hpool', hperm', f, by rw [m.header], ?_⟩
      rw [m.key, hmax]
      exact ⟨hi, Nat.le_refl chunkMediumLimit⟩
  obtain ⟨s', l', hrun, hpool', hperm', f, htype, hkey⟩ := hinit
  refine ⟨_, by rw [PoolCall.step, hrun]; rfl, h.of_frame ht f (fun q hq => hperm.mem_iff.mp hq) hpool'
    (hperm'.trans (hperm.cons c)) (fun q hq => ?_) (fun _ => ⟨htype, hkey⟩) fun t ht' _ => hnew t ht'⟩
  exact List.mem_cons.mp hq

theorem update {newMax : Nat} (h : PoolsOk w) (hl : (PoolCall.update c newMax).Legal w) :
    ∃ w', (PoolCall.update c newMax).step w = .ok w' ∧ PoolsOk w' := by
  obtain ⟨hc, hmax⟩ := hl
  obtain ⟨type, ht, hc, htype⟩ := h.mem_type hc
  obtain ⟨l, hpool, hperm⟩ := h.pool type ht
  have hlimit : newMax < 2 ^ 31 := by
    unfold chunkMediumLimit at hmax
    omega
  obtain ⟨t, l', hrun, hpool', hperm', hre⟩ := updateChunkPool_spec hpool (hperm.mem_iff.mpr hc) htype hlimit
  have hok := h.of_frame ht hre.frame (fun q hq => hperm.mem_iff.mp hq) hpool' (hperm'.trans hperm)
    (fun q hq => .inr hq) (fun _ => ⟨by rw [setPool_header]; exact htype, ?_⟩)
    fun t' ht' hne => h.apart ht ht' hne hc
  · rw [Function.update_eq_self] at hok
    exact ⟨_, by rw [PoolCall.step, hrun]; rfl, hok⟩
  · rw [setPool_chunkNode, hre.key]
    exact ⟨(h.key type ht c hc).1, hmax⟩

theorem delete (h : PoolsOk w) (hl : (PoolCall.delete c).Legal w) :
    ∃ w', (PoolCall.delete c).step w = .ok w' ∧ PoolsOk w' := by
  obtain ⟨type, ht, hc, htype⟩ := h.mem_type hl
  obtain ⟨l, hpool, hperm⟩ := h.pool type ht
  obtain ⟨t, hrun, hpool', hframe, -⟩ := deleteChunk_spec hpool (hperm.mem_iff.mpr hc) htype
  have hnd : (w.chunks type).Nodup := hperm.nodup_iff.mp hpool.holds.nodup
  have hgone : c ∉ (w.chunks type).erase c := fun hm => (hnd.mem_erase_iff.mp hm).1 rfl
  refine ⟨_, by rw [PoolCall.step, hrun]; rfl, ?_⟩
  dsimp only
  rw [htype]
  exact h.of_frame ht (hframe.setHeader _) (fun q hq => hperm.mem_iff.mp hq)
    (hpool'.of_nodes (fun _ _ => rfl) rfl rfl) (hperm.erase c)
    (fun q hq => .inr (List.mem_of_mem_erase hq)) (fun hm => absurd hm hgone)
    fun t' ht' hne => h.apart ht ht' hne hc

theorem rest (h : PoolsOk w) (hs : SamePools w.shm s) : PoolsOk {w with shm := s} := by
  refine ⟨fun t ht => ?_, fun t ht c hc => ?_, fun t ht c hc => ?_⟩
  · obtain ⟨l, hpool, hperm⟩ := h.pool t ht
    exact ⟨l, hpool.of_nodes (fun q _ => by rw [hs.node]) hs.small hs.medium, hperm⟩
  · rw [hs.header]
    exact h.type t ht c hc
  · rw [hs.node]
    exact h.key t ht c hc

/-- Every legal call completes and keeps the pools. -/
theorem step (h : PoolsOk w) {a : PoolCall} (hl : a.Legal w) : ∃ w', a.step w = .ok w' ∧ PoolsOk w' := by
  cases a with
  | init c type => exact h.init hl
  | update c newMax => exact h.update hl
  | delete c => exact h.delete hl
  | rest s => exact ⟨_, rfl, h.rest hl⟩

end PoolsOk

theorem pools_reach {w : PoolWorld} (h : poolMachine.Reach (fun _ _ => True) w) : PoolsOk w := by
  refine h.invariant (fun w hw => .start hw) fun w a w' hi hl _ hs => ?_
  obtain ⟨w₁, hrun, hok⟩ := hi.step hl
  obtain rfl := Except.ok.inj (hs.symm.trans hrun)
  exact hok

/-- **Every pool that these calls reach** is in the order of its keys as numbers, and a search
returns a chunk with enough room exactly when the pool has one; and every next call
completes. -/
theorem pool_search {w : PoolWorld} (h : poolMachine.Reach (fun _ _ => True) w) :
    (∀ type, type ≠ .empty →
      (∃ l, Holds chunkMacros (w.shm.pool type) l ∧ l.Perm (w.chunks type) ∧
        Ascending ChunkTreeValue.Le w.shm.chunkNode l) ∧
      ∀ size ≤ chunkMediumLimit, ∃ o, getAvaliableChunk w.shm type size = .ok o ∧
        (∀ c ∈ o, c ∈ w.chunks type ∧
          (if type = .small then 1 else size) ≤ (w.shm.chunkNode c).v.maxsize) ∧
        (o = none ↔ ∀ c ∈ w.chunks type,
          (w.shm.chunkNode c).v.maxsize < if type = .small then 1 else size)) ∧
    ∀ a : PoolCall, a.Legal w → ∃ w', a.step w = .ok w' := by
  have hok := pools_reach h
  refine ⟨fun type ht => ?_, fun a ha => ?_⟩
  · obtain ⟨l, hpool, hperm⟩ := hok.pool type ht
    refine ⟨⟨l, hpool.holds, hperm, hpool.ascending⟩, fun size hsize => ?_⟩
    have hroom : poolRoom type size = if type = .small then 1 else size := by
      unfold poolRoom
      unfold chunkMediumLimit at hsize
      rw [Nat.mod_eq_of_lt (by omega)]
    obtain ⟨o, hrun, hsome, hnone⟩ := getAvaliableChunk_spec hpool size (by
      rw [hroom]
      unfold chunkMediumLimit at hsize
      split <;> omega)
    rw [hroom] at hsome hnone
    refine ⟨o, hrun, fun c hc => ?_, fun ho c hc => hnone ho c (hperm.mem_iff.mpr hc), fun hall => ?_⟩
    · obtain ⟨hmem, hle⟩ := hsome c hc
      exact ⟨hperm.mem_iff.mp hmem, hle⟩
    · cases o with
      | none => rfl
      | some c =>
        obtain ⟨hmem, hle⟩ := hsome c rfl
        exact absurd hle (Nat.not_le.mpr (hall c (hperm.mem_iff.mp hmem)))
  · obtain ⟨w', hrun, -⟩ := hok.step ha
    exact ⟨w', hrun⟩

/-! Calls alone, whose promises can be tested. -/

namespace PoolCall

def IsCall : PoolCall → Prop
  | .rest _ => False
  | _ => True

instance (w : PoolWorld) : (a : PoolCall) → Decidable (a.IsCall ∧ a.Legal w)
  | .init .. => inferInstanceAs (Decidable (True ∧ _ ∧ _ ∧ _ ∧ _ ∧ _))
  | .update .. => inferInstanceAs (Decidable (True ∧ (_ ∨ _) ∧ _))
  | .delete _ => inferInstanceAs (Decidable (True ∧ (_ ∨ _)))
  | .rest _ => isFalse And.left

end PoolCall

def poolCallMachine : Machine PoolWorld PoolCall Fault :=
  {poolMachine with legal := fun w a => a.IsCall ∧ a.Legal w}

instance (w : PoolWorld) (a : PoolCall) : Decidable (poolCallMachine.legal w a) :=
  inferInstanceAs (Decidable (a.IsCall ∧ a.Legal w))

/-- Small and medium chunks with the same keys, before two of the medium chunks get others and one
is deleted. -/
def poolCalls : List PoolCall := [.init (2 ^ 20) .small, .init (2 ^ 21) .small, .init (3 * 2 ^ 20) .medium,
  .init (4 * 2 ^ 20) .medium, .init (5 * 2 ^ 20) .medium, .update (3 * 2 ^ 20) 8192, .update (5 * 2 ^ 20) 8192,
  .delete (4 * 2 ^ 20)]

/-- The medium chunks left are both too small for three pages. -/
theorem pool_search_test : ∃ w, poolMachine.Reach (fun _ _ => True) w ∧
    w.chunks .small = [2 ^ 21, 2 ^ 20] ∧ w.chunks .medium = [5 * 2 ^ 20, 3 * 2 ^ 20] ∧
    (∃ o, getAvaliableChunk w.shm .small 0 = .ok o ∧
      (o = none ↔ ∀ c ∈ w.chunks .small, (w.shm.chunkNode c).v.maxsize < 1)) ∧
    ∃ o, getAvaliableChunk w.shm .medium 12288 = .ok o ∧
      (o = none ↔ ∀ c ∈ w.chunks .medium, (w.shm.chunkNode c).v.maxsize < 12288) := by
  obtain ⟨w, hw, ht⟩ := Machine.exists_reach (M := poolCallMachine) (fun _ _ => true)
    (fun _ _ _ => trivial) poolCalls (p := fun w =>
      decide (w.chunks .small = [2 ^ 21, 2 ^ 20] ∧ w.chunks .medium = [5 * 2 ^ 20, 3 * 2 ^ 20]))
    (show poolMachine.start ⟨initShm 7, fun _ => []⟩ from ⟨rfl, rfl, rfl⟩) (by decide +kernel)
  obtain ⟨hsmall, hmedium⟩ := of_decide_eq_true ht
  have hreach : poolMachine.Reach (fun _ _ => True) w := hw.weaken fun _ _ => And.right
  obtain ⟨-, hs⟩ := (pool_search hreach).1 .small (by decide)
  obtain ⟨-, hm⟩ := (pool_search hreach).1 .medium (by decide)
  obtain ⟨o, hfind, -, hnone⟩ := hs 0 (Nat.zero_le _)
  obtain ⟨o', hfind', -, hnone'⟩ := hm 12288 (by decide)
  exact ⟨w, hreach, hsmall, hmedium, ⟨o, hfind, hnone⟩, o', hfind', hnone'⟩

end ShmMalloc
