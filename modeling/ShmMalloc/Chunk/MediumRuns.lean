import ShmMalloc.Chunk.MediumSpec
import ShmMalloc.Library.Machine
import ShmMalloc.Malloc

/-! Runs of the calls on medium chunks, and what holds in every state that they reach.

The calls are on any chunk in the pool, with any length and any offset, in any order. -/
namespace ShmMalloc
open Library
open Rbtree (Holds)

structure MediumWorld where
  shm : Shm
  chunks : List Nat

inductive MediumCall where
  | init (chunk : Nat)
  | malloc (chunk len : Nat)
  | free (chunk offset : Nat)
  | delete (chunk : Nat)
  deriving DecidableEq, Repr

namespace MediumCall

/-- A chunk is initialised once until it is deleted, at a position in an arena. -/
def Legal (w : MediumWorld) : MediumCall → Prop
  | .init c => c ∉ w.chunks ∧ c ≠ 0 ∧ pos2index c < 128
  | .malloc c _ => c ∈ w.chunks
  | .free c _ => c ∈ w.chunks
  | .delete c => c ∈ w.chunks

instance (w : MediumWorld) : (a : MediumCall) → Decidable (a.Legal w)
  | .init c => inferInstanceAs (Decidable (c ∉ w.chunks ∧ c ≠ 0 ∧ pos2index c < 128))
  | .malloc c _ => inferInstanceAs (Decidable (c ∈ w.chunks))
  | .free c _ => inferInstanceAs (Decidable (c ∈ w.chunks))
  | .delete c => inferInstanceAs (Decidable (c ∈ w.chunks))

def step (w : MediumWorld) : MediumCall → Exec MediumWorld
  | .init c => do
    let s ← initChunk w.shm c c .medium
    return ⟨s, c :: w.chunks⟩
  | .malloc c len => do
    let (s, _) ← mallocChunkMedium w.shm c len
    return {w with shm := s}
  | .free c offset => do
    let (s, _) ← freeChunkMedium w.shm c offset
    return {w with shm := s}
  | .delete c => do
    let s ← deleteChunk w.shm c
    return ⟨s, w.chunks.erase c⟩

end MediumCall

def mediumMachine : Machine MediumWorld MediumCall Fault where
  start w := w.chunks = [] ∧ w.shm.chunkMediumPool = ⟨0, 0⟩
  legal w a := a.Legal w
  step w a := a.step w

instance (w : MediumWorld) (a : MediumCall) : Decidable (mediumMachine.legal w a) :=
  inferInstanceAs (Decidable (a.Legal w))

/-- The pool holds the chunks, and each has a layout with a property. -/
def MediumInv (P : ChunkMediumDetial → List Nat → Prop) (w : MediumWorld) : Prop :=
  ∃ lm, ChunkPool w.shm .medium lm ∧ lm.Perm w.chunks ∧
    ∀ c ∈ w.chunks, ∃ l, MediumChunk w.shm c l ∧ P (w.shm.medium c) l

theorem MediumInv.start {P : ChunkMediumDetial → List Nat → Prop} {w : MediumWorld}
    (h : mediumMachine.start w) : MediumInv P w := by
  obtain ⟨hc, hp⟩ := h
  have hpool : w.shm.pool .medium = Rbtree.init chunkMacros w.shm.chunkNode := by
    rw [Shm.pool, if_neg (by decide), hp]
    rfl
  refine ⟨[], ⟨hpool ▸ Holds.init _, List.Pairwise.nil, fun q hq => ?_⟩, by rw [hc], fun c hcw => ?_⟩
  · cases hq
  · rw [hc] at hcw
    cases hcw

/-- What a legal call preserves, if it preserves the property of the chunk that it is on. -/
theorem MediumInv.step {P : ChunkMediumDetial → List Nat → Prop} {w w' : MediumWorld} {a : MediumCall}
    (h : MediumInv P w) (hl : a.Legal w) (hs : a.step w = .ok w')
    (hinit : ∀ d, d.maxSize = 255 → unitSize d 1 = 255 → P d [1])
    (hmalloc : ∀ c len n rest d' l', a = .malloc c len → MediumChunk w.shm c (n :: rest) →
      P (w.shm.medium c) (n :: rest) → Taken (w.shm.medium c) (n :: rest) n (mediumPages len) d' l' →
      d'.maxSize = (if (w.shm.medium c).maxSize ≤ unitSize (w.shm.medium c) n then newMaxSize d' l' 0
        else (w.shm.medium c).maxSize) → P d' l')
    (hfree : ∀ d l p d' l' index n, P d l → Released d l p d' l' index n →
      d'.maxSize = (if d.maxSize ≤ n then n else d.maxSize) → P d' l') : MediumInv P w' := by
  obtain ⟨lm, hpool, hperm, hchunks⟩ := h
  have hmem : ∀ {q}, q ∈ lm ↔ q ∈ w.chunks := hperm.mem_iff
  -- a call on one chunk leaves the others as they are
  have hother : ∀ {s' : Shm} {c q : Nat}, ChunkFrame w.shm s' .medium c lm → q ≠ c → q ∈ w.chunks →
      ∃ l, MediumChunk s' q l ∧ P (s'.medium q) l := by
    intro s' c q f hq hqw
    obtain ⟨l, m, hP⟩ := hchunks q hqw
    exact ⟨l, m.frame f hq, by rwa [f.medium q hq]⟩
  cases a with
  | init c =>
    obtain ⟨hc, hn, hi⟩ := hl
    obtain ⟨s', lm', hrun, hpool', hperm', m, hmax, hsize, -, hframe, -⟩ := initChunk_medium_spec hpool
      (fun h => hc (hmem.mp h)) hn (by omega)
    have hs' : (do
        let s ← initChunk w.shm c c .medium
        return ⟨s, c :: w.chunks⟩ : Exec MediumWorld) = .ok w' := hs
    rw [hrun] at hs'
    obtain rfl := Except.ok.inj hs'
    refine ⟨lm', hpool', hperm'.trans (hperm.cons c), fun q hq => ?_⟩
    by_cases e : q = c
    · rw [e]
      exact ⟨[1], m, hinit _ hmax hsize⟩
    · exact hother hframe e ((List.mem_cons.mp hq).resolve_left e)
  | malloc c len =>
    obtain ⟨l, m, hP⟩ := hchunks c hl
    obtain ⟨⟨s', pos⟩, hrun, hret⟩ := Exec.bind_ok hs
    obtain rfl := Except.ok.inj hret
    obtain ⟨n, rest, l', lm', rfl, -, -, -, m', hpool', hperm', hframe, -, htaken, hmax⟩ :=
      mallocChunkMedium_step hpool (hmem.mpr hl) m hrun
    refine ⟨lm', hpool', hperm'.trans hperm, fun q hq => ?_⟩
    by_cases e : q = c
    · rw [e]
      exact ⟨l', m', hmalloc c len n rest _ l' rfl m hP htaken hmax⟩
    · exact hother hframe e hq
  | free c offset =>
    obtain ⟨l, m, hP⟩ := hchunks c hl
    obtain ⟨⟨s', b⟩, hrun, hret⟩ := Exec.bind_ok hs
    obtain rfl := Except.ok.inj hret
    obtain ⟨hnone, -⟩ | ⟨k, -, hu, hpage⟩ := m.free_cases offset
    · rw [hnone] at hrun
      obtain rfl : w.shm = s' := congrArg Prod.fst (Except.ok.inj hrun)
      exact ⟨lm, hpool, hperm, hchunks⟩
    · obtain ⟨s₁, l', lm', index, n, hrun', m', hpool', hperm', hframe, -, hrel, hmax⟩ :=
        freeChunkMedium_step hpool (hmem.mpr hl) m hu
      rw [hpage, hrun'] at hrun
      obtain rfl : s₁ = s' := congrArg Prod.fst (Except.ok.inj hrun)
      refine ⟨lm', hpool', hperm'.trans hperm, fun q hq => ?_⟩
      by_cases e : q = c
      · rw [e]
        exact ⟨l', m', hfree _ l _ _ l' index n hP hrel hmax⟩
      · exact hother hframe e hq
  | delete c =>
    obtain ⟨l, m, hP⟩ := hchunks c hl
    obtain ⟨t, hrun, hpool', hframe, -⟩ := deleteChunk_spec hpool (hmem.mpr hl) (congrArg ChunkHeader.type m.header)
    obtain ⟨s', hrun', hret⟩ := Exec.bind_ok hs
    obtain rfl := Except.ok.inj hret
    rw [hrun] at hrun'
    obtain rfl := Except.ok.inj hrun'
    have hnd := hperm.nodup_iff.mp hpool.holds.nodup
    refine ⟨lm.erase c, hpool'.of_pool rfl, hperm.erase c, fun q hq => ?_⟩
    obtain ⟨hqc, hqw⟩ := hnd.mem_erase_iff.mp hq
    exact hother (hframe.setHeader _) hqc hqw

/-! ### The layout in every state -/

/-- The bitmaps, the tree and `free_size` of a medium chunk say the same about its units. -/
structure Tiling (d : ChunkMediumDetial) (l : List Nat) : Prop where
  starts : ∀ p, bitmapGet d.bitmapUp p = true → 1 ≤ p ∧ p ≤ 255
  tiles : ∀ x, 1 ≤ x → x ≤ 255 → ∃! u : Nat × Nat,
    Segment (bitmapGet d.bitmapUp) 256 u.1 u.2 ∧ u.1 ≤ x ∧ x < u.1 + u.2
  mirror : ∀ p ≤ 255, bitmapGet d.bitmapDown (255 - p) = bitmapGet d.bitmapUp p
  type : ∀ p, bitmapGet d.bitmapType p = true → bitmapGet d.bitmapUp p = true
  tree : Holds mediumMacros d.tree l
  free : ∀ p, p ∈ l ↔ bitmapGet d.bitmapUp p = true ∧ bitmapGet d.bitmapType p = false
  node : ∀ p ∈ l, (d.tree.heap p).s = p ∧ (d.tree.heap p).v.index = p ∧
    Segment (bitmapGet d.bitmapUp) 256 p (d.tree.heap p).v.size
  apart : ∀ p ∈ l, p + (d.tree.heap p).v.size ∉ l
  freeSize : d.freeSize = (l.map fun p => (d.tree.heap p).v.size).sum

theorem Layout.tiling {d : ChunkMediumDetial} {l : List Nat} (h : Layout d l) : Tiling d l where
  starts p hp := by
    have := h.parts.range p hp
    omega
  tiles x h₁ h₂ := by
    obtain ⟨p, n, hs, -, hp, hx⟩ := Segment.cover h.parts.first h₁ (show x < 256 by omega)
    refine ⟨(p, n), ⟨hs, hp, hx⟩, fun ⟨q, m⟩ ⟨ht, hq, hx'⟩ => ?_⟩
    by_cases e : q = p
    · subst e
      rw [hs.unique ht]
    · have := ht.disjoint hs e
      simp only at hq hx'
      omega
  mirror p hp := h.mirror p (by omega)
  type := h.parts.sub
  tree := h.holds
  free := h.parts.mem
  node p hp := ⟨h.own hp, h.index p hp, h.parts.segment p hp⟩
  apart p hp hq := h.apart p _ ⟨hp, hq, rfl⟩
  freeSize := h.freeSize

theorem mediumInv_reach {w : MediumWorld} (h : mediumMachine.Reach (fun _ _ => True) w) :
    MediumInv (fun _ _ => True) w := by
  refine h.invariant (fun s hs => MediumInv.start hs) fun s a s' hs hl _ hstep => ?_
  exact hs.step hl hstep (fun _ _ _ => trivial) (fun _ _ _ _ _ _ _ _ _ _ _ => trivial)
    fun _ _ _ _ _ _ _ _ _ _ => trivial

/-- **In every state** that calls on medium chunks reach, the units of a chunk tile its
pages, and its bitmaps, its free tree and its counter agree on them. -/
theorem medium_tiling {w : MediumWorld} (h : mediumMachine.Reach (fun _ _ => True) w) {c : Nat}
    (hc : c ∈ w.chunks) : ∃ l, Tiling (w.shm.medium c) l := by
  obtain ⟨lm, -, -, hchunks⟩ := mediumInv_reach h
  obtain ⟨l, m, -⟩ := hchunks c hc
  exact ⟨l, m.layout.tiling⟩

/-! One chunk with units of 3, 1 and 251 pages, the first and the last given back. -/

def mediumStart : MediumWorld := ⟨initShm 7, []⟩

def mediumCalls : List MediumCall :=
  [.init (2 ^ 20), .malloc (2 ^ 20) (3 * 4096), .malloc (2 ^ 20) 4096, .malloc (2 ^ 20) (251 * 4096),
    .free (2 ^ 20) 4096, .free (2 ^ 20) (5 * 4096)]

theorem medium_tiling_test : ∃ w, mediumMachine.Reach (fun _ _ => True) w ∧ 2 ^ 20 ∈ w.chunks ∧
    ∃ l, Tiling (w.shm.medium (2 ^ 20)) l := by
  obtain ⟨w, hreach, hw⟩ := Machine.exists_reach (M := mediumMachine) (fun _ _ => true)
    (fun _ _ _ => trivial) (s := mediumStart) mediumCalls
    (p := fun w => decide (2 ^ 20 ∈ w.chunks)) ⟨rfl, rfl⟩ (by decide +kernel)
  have hc := of_decide_eq_true hw
  exact ⟨w, hreach, hc, medium_tiling hreach hc⟩

/-! ### `max_size` -/

def FreeUnit (d : ChunkMediumDetial) (p n : Nat) : Prop :=
  bitmapGet d.bitmapUp p = true ∧ bitmapGet d.bitmapType p = false ∧
    Segment (bitmapGet d.bitmapUp) 256 p n

/-- `max_size` is the length of the largest free unit, and 0 if there is none. -/
def LargestFree (d : ChunkMediumDetial) : Prop :=
  (∀ p n, FreeUnit d p n → n ≤ d.maxSize) ∧ (d.maxSize = 0 ∨ ∃ p, FreeUnit d p d.maxSize)

structure RoomKnown (w : MediumWorld) : Prop where
  maxSize : ∀ c ∈ w.chunks, LargestFree (w.shm.medium c)
  key : ∀ c ∈ w.chunks, (w.shm.chunkNode c).v.maxsize = (w.shm.medium c).maxSize * 4096
  found : ∀ size, 1920 < size → size ≤ 2 ^ 20 - 4096 →
    (∃ c ∈ w.chunks, ∃ p n, FreeUnit (w.shm.medium c) p n ∧ size ≤ n * 4096) →
    ∃ c ∈ w.chunks, getAvaliableChunk w.shm .medium size = .ok (some c)

/-- A refresh of `max_size` by the next allocation is right: when the first unit of the
tree is the largest and not the only one, the last unit is no smaller than the others
and than what is left of the first. -/
def RefreshOk (d : ChunkMediumDetial) (len : Nat) : Prop :=
  ∀ n m, Rbtree.min mediumMacros d.tree = .ok (some n) → Rbtree.max mediumMacros d.tree = .ok (some m) →
    n ≠ m → d.maxSize ≤ unitSize d n →
      unitSize d n - mediumPages len ≤ unitSize d m ∧
      ∀ p, bitmapGet d.bitmapUp p = true → bitmapGet d.bitmapType p = false → p ≠ n →
        unitSize d p ≤ unitSize d m

def Refreshes (w : MediumWorld) : MediumCall → Prop
  | .malloc c len => RefreshOk (w.shm.medium c) len
  | _ => True

/-- The same as `LargestFree`, for the list of the free units. -/
def MaxOk (d : ChunkMediumDetial) (l : List Nat) : Prop :=
  (∀ p ∈ l, unitSize d p ≤ d.maxSize) ∧ (d.maxSize = 0 ∨ ∃ p ∈ l, unitSize d p = d.maxSize)

theorem Layout.freeUnit_iff {d : ChunkMediumDetial} {l : List Nat} (h : Layout d l) (p n : Nat) :
    FreeUnit d p n ↔ p ∈ l ∧ unitSize d p = n := by
  unfold FreeUnit
  constructor
  · rintro ⟨h₁, h₂, h₃⟩
    have hp := (h.parts.mem p).mpr ⟨h₁, h₂⟩
    exact ⟨hp, (h.parts.segment p hp).unique h₃⟩
  · rintro ⟨hp, rfl⟩
    obtain ⟨h₁, h₂⟩ := (h.parts.mem p).mp hp
    exact ⟨h₁, h₂, h.parts.segment p hp⟩

theorem Layout.maxOk_iff {d : ChunkMediumDetial} {l : List Nat} (h : Layout d l) :
    LargestFree d ↔ MaxOk d l := by
  unfold LargestFree MaxOk
  simp only [h.freeUnit_iff]
  constructor
  · rintro ⟨h₁, h₂⟩
    exact ⟨fun p hp => h₁ p _ ⟨hp, rfl⟩, h₂⟩
  · rintro ⟨h₁, h₂⟩
    refine ⟨?_, h₂⟩
    rintro p n ⟨hp, rfl⟩
    exact h₁ p hp

theorem mediumTreeCompare_neg {a b : MediumTreeValue} (ha : a.size ≤ 255) (hb : b.size ≤ 255)
    (h : mediumTreeCompare a b < 0) : a.size = b.size := by
  unfold mediumTreeCompare at h
  simp only at h
  split at h <;> omega

/-- Where what is left of the first unit goes: after units of the same size only. -/
theorem Taken.shape {d d' : ChunkMediumDetial} {n size : Nat} {rest l' : List Nat}
    (ht : Taken d (n :: rest) n size d' l') (h : Layout d (n :: rest)) :
    l' = rest ∧ size = unitSize d n ∨ size < unitSize d n ∧
      unitSize d' (n + size) = unitSize d n - size ∧ ∃ a b, rest = a ++ b ∧
        l' = a ++ (n + size) :: b ∧ ∀ q ∈ a.getLast?, unitSize d q = unitSize d n - size := by
  have hlen := h.unitSize_le (List.mem_cons_self (a := n) (l := rest))
  rcases ht.list with ⟨hl, hs⟩ | ⟨hlt, a, b, hab, hl, hs, hlast⟩
  · rw [List.erase_cons_head] at hl
    exact .inl ⟨hl, hs⟩
  · refine .inr ⟨hlt, hs, ?_⟩
    cases a with
    | nil =>
      obtain rfl : b = n :: rest := hab.symm
      have hgone := ht.gone
      have hne : n + size ≠ n := by
        intro e
        rw [hl, List.nil_append, e, List.erase_cons_head] at hgone
        exact hgone List.mem_cons_self
      refine ⟨[], rest, rfl, ?_, by simp⟩
      rw [hl, List.nil_append, List.erase_cons_tail (by simpa using hne), List.erase_cons_head]
      rfl
    | cons x a =>
      obtain ⟨rfl, rfl⟩ := List.cons.inj hab
      refine ⟨a, b, rfl, ?_, fun q hq => ?_⟩
      · rw [hl, List.cons_append, List.erase_cons_head]
      · have hq' : q ∈ (n :: a).getLast? := by
          obtain ⟨a', rfl⟩ := List.getLast?_eq_some_iff.mp hq
          exact List.getLast?_concat (l := n :: a')
        have hmem : q ∈ n :: (a ++ b) :=
          List.mem_cons_of_mem _ (List.mem_append_left _ (List.mem_of_getLast? hq))
        exact mediumTreeCompare_neg (h.unitSize_le hmem).2 (by show unitSize d n - size ≤ 255; omega)
          (hlast q hq')

/-- After an allocation from several free units the refresh takes the size of the last. -/
theorem Taken.newMaxSize_eq {d d' : ChunkMediumDetial} {n size m : Nat} {rest l' : List Nat}
    (ht : Taken d (n :: rest) n size d' l') (h : Layout d (n :: rest)) (h₀ : 0 < size)
    (hm : rest.getLast? = some m) : newMaxSize d' l' 0 = unitSize d m := by
  have hml : m ∈ n :: rest := List.mem_cons_of_mem _ (List.mem_of_getLast? hm)
  have hn : n ∈ n :: rest := List.mem_cons_self
  have hlast : ∀ {q k}, l'.getLast? = some q → unitSize d' q = k → newMaxSize d' l' 0 = k := by
    intro q k hq hk
    rw [newMaxSize, if_pos rfl, hq, ← hk]
    rfl
  rcases ht.shape h with ⟨rfl, rfl⟩ | ⟨hlt, hleft, a, b, rfl, rfl, hbefore⟩
  · refine hlast hm (ht.sizes m (List.mem_of_getLast? hm) ?_)
    rintro rfl
    exact h.apart n _ ⟨hn, hml, rfl⟩
  · cases b with
    | nil =>
      rw [List.append_nil] at hm
      exact hlast List.getLast?_concat (hleft.trans (hbefore m hm).symm)
    | cons x b =>
      have hm' : (x :: b).getLast? = some m := by rwa [List.getLast?_append_cons] at hm
      refine hlast (by rwa [List.getLast?_append_cons, List.getLast?_cons_cons]) (ht.sizes m ?_ ?_)
      · exact List.mem_append_right _ (List.mem_cons_of_mem _ (List.mem_of_getLast? hm'))
      · rintro rfl
        have hs := h.parts.segment n hn
        have := hs.inside (n + size) (by omega) (by omega)
        rw [((h.parts.mem _).mp hml).1] at this
        cases this

/-- The free units after an allocation: the others, and what is left of the first. -/
theorem Taken.sizes_iff {d d' : ChunkMediumDetial} {n size : Nat} {rest l' : List Nat}
    (ht : Taken d (n :: rest) n size d' l') (h : Layout d (n :: rest)) (k : Nat) :
    (∃ q ∈ l', unitSize d' q = k) ↔
      (∃ q ∈ rest, unitSize d q = k) ∨ size < unitSize d n ∧ unitSize d n - size = k := by
  have hn : n ∈ n :: rest := List.mem_cons_self
  have hne : ∀ q ∈ rest, q ≠ n + size := by
    rintro q hq rfl
    have hq' := List.mem_cons_of_mem n hq
    rcases ht.shape h with ⟨-, hs⟩ | ⟨hlt, -⟩
    · exact h.apart n _ ⟨hn, hq', by rw [hs]⟩
    · have hs := h.parts.segment n hn
      have hpos : n + size ≠ n := fun e => (List.nodup_cons.mp h.parts.nodup).1 (e ▸ hq)
      have := hs.inside (n + size) (by omega) (by omega)
      rw [((h.parts.mem _).mp hq').1] at this
      cases this
  have hold : ∀ q ∈ rest, q ∈ l' ∧ unitSize d' q = unitSize d q := by
    intro q hq
    have hql : q ∈ l' := by
      rcases ht.shape h with ⟨rfl, -⟩ | ⟨-, -, a, b, rfl, rfl, -⟩
      · exact hq
      · exact List.perm_middle.mem_iff.mpr (List.mem_cons_of_mem _ hq)
    exact ⟨hql, ht.sizes q hql (hne q hq)⟩
  constructor
  · rintro ⟨q, hq, rfl⟩
    rcases ht.shape h with ⟨rfl, -⟩ | ⟨hlt, hleft, a, b, rfl, rfl, -⟩
    · exact .inl ⟨q, hq, (hold q hq).2.symm⟩
    · rcases List.mem_cons.mp (List.perm_middle.mem_iff.mp hq) with rfl | hq
      · exact .inr ⟨hlt, hleft.symm⟩
      · exact .inl ⟨q, hq, (hold q hq).2.symm⟩
  · rintro (⟨q, hq, rfl⟩ | ⟨hlt, rfl⟩)
    · exact ⟨q, hold q hq⟩
    · rcases ht.shape h with ⟨-, hs⟩ | ⟨-, hleft, a, b, rfl, rfl, -⟩
      · omega
      · exact ⟨n + size, List.mem_append_right _ List.mem_cons_self, hleft⟩

theorem maxOk_iff_sizes {d : ChunkMediumDetial} {l : List Nat} : MaxOk d l ↔
    (∀ k, (∃ q ∈ l, unitSize d q = k) → k ≤ d.maxSize) ∧
      (d.maxSize = 0 ∨ ∃ q ∈ l, unitSize d q = d.maxSize) := by
  unfold MaxOk
  constructor
  · rintro ⟨h₁, h₂⟩
    refine ⟨?_, h₂⟩
    rintro k ⟨q, hq, rfl⟩
    exact h₁ q hq
  · rintro ⟨h₁, h₂⟩
    exact ⟨fun q hq => h₁ _ ⟨q, hq, rfl⟩, h₂⟩

/-- `RefreshOk` for the list of the free units, where the first and the last one of the tree are
the ends. -/
theorem Layout.refreshOk_iff {d : ChunkMediumDetial} {n len : Nat} {rest : List Nat}
    (h : Layout d (n :: rest)) : RefreshOk d len ↔ ∀ m ∈ rest.getLast?, d.maxSize ≤ unitSize d n →
      unitSize d n - mediumPages len ≤ unitSize d m ∧ ∀ p ∈ rest, unitSize d p ≤ unitSize d m := by
  have hmin : Rbtree.min mediumMacros d.tree = .ok (some n) := Rbtree.endOf_holds h.holds .left
  have hmax : Rbtree.max mediumMacros d.tree = .ok (n :: rest).getLast? :=
    Rbtree.endOf_holds h.holds .right
  have hnot := (List.nodup_cons.mp h.parts.nodup).1
  have hfree : ∀ p, p ∈ rest ↔
      bitmapGet d.bitmapUp p = true ∧ bitmapGet d.bitmapType p = false ∧ p ≠ n := by
    intro p
    have hmem := h.parts.mem p
    rw [List.mem_cons] at hmem
    constructor
    · intro hp
      obtain ⟨hup, htype⟩ := hmem.mp (.inr hp)
      exact ⟨hup, htype, fun e => hnot (e ▸ hp)⟩
    · rintro ⟨hup, htype, hne⟩
      exact (hmem.mpr ⟨hup, htype⟩).resolve_left hne
  rw [List.getLast?_cons] at hmax
  constructor
  · intro hok m hm hge
    rw [Option.mem_def.mp hm] at hmax
    have hmr : m ∈ rest := List.mem_of_getLast? hm
    obtain ⟨hleft, hothers⟩ := hok n m hmin hmax (fun e => hnot (e ▸ hmr)) hge
    refine ⟨hleft, fun p hp => ?_⟩
    obtain ⟨hup, htype, hne⟩ := (hfree p).mp hp
    exact hothers p hup htype hne
  · intro hok n' m h₁ h₂ hne hge
    rw [hmin] at h₁
    rw [hmax] at h₂
    obtain rfl : n = n' := Option.some.inj (Except.ok.inj h₁)
    have hm : rest.getLast?.getD n = m := Option.some.inj (Except.ok.inj h₂)
    cases hlast : rest.getLast? with
    | none =>
      rw [hlast] at hm
      exact absurd hm hne
    | some m' =>
      rw [hlast] at hm
      obtain rfl : m' = m := hm
      obtain ⟨hleft, hothers⟩ := hok m' hlast hge
      exact ⟨hleft, fun p hup htype hp => hothers p ((hfree p).mpr ⟨hup, htype, hp⟩)⟩

section MaxOk
variable {d d' : ChunkMediumDetial} {n len : Nat} {rest l' : List Nat}

/-- What is left of the only unit is the largest one. -/
theorem Taken.maxOk_only (ht : Taken d [n] n (mediumPages len) d' l') (h : Layout d [n])
    (hd : d'.maxSize = newMaxSize d' l' 0) : MaxOk d' l' := by
  rw [newMaxSize, if_pos rfl] at hd
  rcases ht.shape h with ⟨rfl, -⟩ | ⟨-, -, a, b, hab, rfl, -⟩
  · exact ⟨by simp, .inl hd⟩
  · obtain ⟨rfl, rfl⟩ := List.append_eq_nil_iff.mp hab.symm
    have hd' : d'.maxSize = unitSize d' (n + mediumPages len) := hd
    refine ⟨fun q hq => ?_, .inr ⟨_, List.mem_singleton_self _, hd'.symm⟩⟩
    rw [List.mem_singleton.mp hq, hd']

/-- The refresh takes the size of the last unit. -/
theorem Taken.maxOk_refresh {m : Nat} (ht : Taken d (n :: rest) n (mediumPages len) d' l')
    (h : Layout d (n :: rest)) (hm : m ∈ rest) (hd : d'.maxSize = unitSize d m) :
    MaxOk d' l' ↔ unitSize d n - mediumPages len ≤ unitSize d m ∧
      ∀ p ∈ rest, unitSize d p ≤ unitSize d m := by
  have hsizes := ht.sizes_iff h
  rw [maxOk_iff_sizes, hd]
  constructor
  · rintro ⟨hall, -⟩
    refine ⟨?_, fun p hp => hall _ ((hsizes _).mpr (.inl ⟨p, hp, rfl⟩))⟩
    by_cases hlt : mediumPages len < unitSize d n
    · exact hall _ ((hsizes _).mpr (.inr ⟨hlt, rfl⟩))
    · omega
  · rintro ⟨hleft, hothers⟩
    refine ⟨fun k hk => ?_, .inr ((hsizes _).mpr (.inl ⟨m, hm, rfl⟩))⟩
    rcases (hsizes k).mp hk with ⟨q, hq, rfl⟩ | ⟨-, rfl⟩
    · exact hothers q hq
    · exact hleft

/-- Another unit is larger than the one taken from, and stays. -/
theorem Taken.maxOk_stay (ht : Taken d (n :: rest) n (mediumPages len) d' l')
    (h : Layout d (n :: rest)) (hmax : MaxOk d (n :: rest)) (hlt : unitSize d n < d.maxSize)
    (hd : d'.maxSize = d.maxSize) : MaxOk d' l' := by
  have hsizes := ht.sizes_iff h
  obtain ⟨hle, hex⟩ := hmax
  rw [maxOk_iff_sizes, hd]
  refine ⟨fun k hk => ?_, ?_⟩
  · rcases (hsizes k).mp hk with ⟨q, hq, rfl⟩ | ⟨-, rfl⟩
    · exact hle q (List.mem_cons_of_mem n hq)
    · omega
  · rcases hex with h₁ | ⟨q, hq, hk⟩
    · omega
    · refine .inr ((hsizes _).mpr (.inl ⟨q, ?_, hk⟩))
      refine (List.mem_cons.mp hq).resolve_left ?_
      rintro rfl
      omega

/-- The largest free unit after an allocation, exactly. -/
theorem Taken.maxOk_iff (ht : Taken d (n :: rest) n (mediumPages len) d' l')
    (h : Layout d (n :: rest)) (h₀ : 0 < mediumPages len) (hmax : MaxOk d (n :: rest))
    (hd : d'.maxSize = if d.maxSize ≤ unitSize d n then newMaxSize d' l' 0 else d.maxSize) :
    MaxOk d' l' ↔ RefreshOk d len := by
  rw [h.refreshOk_iff]
  by_cases hge : d.maxSize ≤ unitSize d n
  · rw [if_pos hge] at hd
    cases hm : rest.getLast? with
    | none =>
      obtain rfl := List.getLast?_eq_none_iff.mp hm
      exact iff_of_true (ht.maxOk_only h hd) (by simp)
    | some m =>
      rw [ht.newMaxSize_eq h h₀ hm] at hd
      rw [ht.maxOk_refresh h (List.mem_of_getLast? hm) hd]
      simp [hge]
  · rw [if_neg hge] at hd
    exact iff_of_true (ht.maxOk_stay h hmax (by omega) hd) fun _ _ hge' => absurd hge' hge

end MaxOk

theorem Released.maxOk {d d' : ChunkMediumDetial} {l l' : List Nat} {p index n : Nat}
    (hr : Released d l p d' l' index n) (hmax : MaxOk d l)
    (hd : d'.maxSize = if d.maxSize ≤ n then n else d.maxSize) : MaxOk d' l' := by
  obtain ⟨hle, hex⟩ := hmax
  obtain ⟨hnew, hsize⟩ := hr.new
  refine ⟨fun q hq => ?_, ?_⟩
  · rcases hr.kept q hq with rfl | ⟨hql, hk⟩
    · rw [hsize, hd]
      split <;> omega
    · have := hle q hql
      rw [hk, hd]
      split <;> omega
  · by_cases hge : d.maxSize ≤ n
    · rw [hd, if_pos hge]
      exact .inr ⟨index, hnew, hsize⟩
    · rw [hd, if_neg hge]
      rcases hex with h₁ | ⟨q, hq, hk⟩
      · exact .inl h₁
      · rcases hr.lost q hq with ⟨hql, hk'⟩ | hlt
        · exact .inr ⟨q, hql, hk'.trans hk⟩
        · omega

theorem mediumInv_refreshes {w : MediumWorld} (h : mediumMachine.Reach Refreshes w) :
    MediumInv MaxOk w := by
  refine h.invariant (fun s hs => MediumInv.start hs) fun s a s' hs hl ha hstep => ?_
  refine hs.step hl hstep (fun d hd h₁ => ?_) (fun c len n rest d' l' hac m hP ht hd => ?_)
    fun d l p d' l' index n hP hr hd => hr.maxOk hP hd
  · exact ⟨by simp [hd, h₁], .inr ⟨1, by simp, h₁.trans hd.symm⟩⟩
  · subst hac
    exact (ht.maxOk_iff m.layout ht.pos hP hd).mpr ha

theorem MediumInv.roomKnown {w : MediumWorld} (h : MediumInv MaxOk w) : RoomKnown w := by
  obtain ⟨lm, hpool, hperm, hchunks⟩ := h
  have hkey : ∀ c ∈ w.chunks, (w.shm.chunkNode c).v.maxsize = (w.shm.medium c).maxSize * 4096 := by
    intro c hc
    obtain ⟨l, m, -⟩ := hchunks c hc
    exact congrArg ChunkTreeValue.maxsize m.key
  refine ⟨fun c hc => ?_, hkey, ?_⟩
  · obtain ⟨l, m, hP⟩ := hchunks c hc
    exact m.layout.maxOk_iff.mpr hP
  · rintro size h₁ h₂ ⟨c, hc, p, n, hfree, hle⟩
    have hroom : poolRoom .medium size = size := by
      rw [poolRoom, if_neg (by decide), Nat.mod_eq_of_lt (by omega)]
    obtain ⟨o, hrun, hsome, hnone⟩ := getAvaliableChunk_spec hpool size (by omega)
    cases o with
    | some q => exact ⟨q, hperm.mem_iff.mp (hsome q rfl).1, hrun⟩
    | none =>
      -- no key is large enough, but that of `c` is
      have hlt := hnone rfl c (hperm.mem_iff.mpr hc)
      rw [hroom, hkey c hc] at hlt
      obtain ⟨l, m, hP⟩ := hchunks c hc
      have := (m.layout.maxOk_iff.mpr hP).1 p n hfree
      omega

/-- **The room that is known**: as long as every allocation finds the tree in a state in
which the refresh of `max_size` is right, `max_size` and the key of every chunk tell its
largest free unit, so that room that there is gets found; and an allocation for which it
is not right loses room. -/
theorem medium_room_known {w : MediumWorld} (h : mediumMachine.Reach Refreshes w) :
    RoomKnown w ∧ ∀ a w', a.Legal w → a.step w = .ok w' → (RoomKnown w' ↔ Refreshes w a) := by
  have hinv := mediumInv_refreshes h
  refine ⟨hinv.roomKnown, fun a w' hl hs => ⟨fun hknown => ?_, fun ha => ?_⟩⟩
  · cases a with
    | malloc c len =>
      obtain ⟨lm, hpool, hperm, hchunks⟩ := hinv
      obtain ⟨l, m, hP⟩ := hchunks c hl
      obtain ⟨⟨s', pos⟩, hrun, hret⟩ := Exec.bind_ok hs
      obtain rfl := Except.ok.inj hret
      obtain ⟨n, rest, l', lm', rfl, h₀, -, -, m', -, -, -, -, ht, hd⟩ :=
        mallocChunkMedium_step hpool (hperm.mem_iff.mpr hl) m hrun
      exact (ht.maxOk_iff m.layout h₀ hP hd).mp (m'.layout.maxOk_iff.mp (hknown.maxSize c hl))
    | init c => trivial
    | free c offset => trivial
    | delete c => trivial
  · exact (mediumInv_refreshes (.step h hl ha hs)).roomKnown

/-! From the units of `mediumCalls`, of 3, 1 and 251 pages with the second in use, ten
pages are taken from the last one, and the refresh takes the size of the first. -/

theorem medium_room_lost : ∃ w, mediumMachine.Reach (fun _ _ => True) w ∧ ¬RoomKnown w := by
  obtain ⟨w, hreach, hw⟩ := Machine.exists_reach (M := mediumMachine) (fun _ _ => true)
    (fun _ _ _ => trivial) (s := mediumStart) (mediumCalls ++ [.malloc (2 ^ 20) (10 * 4096)])
    (p := fun w => decide (2 ^ 20 ∈ w.chunks) && decide ((w.shm.medium (2 ^ 20)).maxSize = 3) &&
      bitmapGet (w.shm.medium (2 ^ 20)).bitmapUp 15 && !bitmapGet (w.shm.medium (2 ^ 20)).bitmapType 15 &&
      decide (unitSize (w.shm.medium (2 ^ 20)) 15 = 241)) ⟨rfl, rfl⟩ (by decide +kernel)
  simp only [Bool.and_eq_true, decide_eq_true_eq, Bool.not_eq_true'] at hw
  obtain ⟨⟨⟨⟨hc, hmax⟩, hup⟩, htype⟩, hsize⟩ := hw
  refine ⟨w, hreach, fun hknown => ?_⟩
  obtain ⟨lm, -, -, hchunks⟩ := mediumInv_reach hreach
  obtain ⟨l, m, -⟩ := hchunks _ hc
  have hfree : FreeUnit (w.shm.medium (2 ^ 20)) 15 241 :=
    (m.layout.freeUnit_iff 15 241).mpr ⟨(m.layout.parts.mem 15).mpr ⟨hup, htype⟩, hsize⟩
  have := (hknown.maxSize _ hc).1 15 241 hfree
  omega

/-- With one free unit there is nothing to check. -/
def refreshesTest (w : MediumWorld) : MediumCall → Bool
  | .malloc c _ => decide (Rbtree.min mediumMacros (w.shm.medium c).tree =
      Rbtree.max mediumMacros (w.shm.medium c).tree)
  | _ => true

theorem refreshesTest_sound (w : MediumWorld) (a : MediumCall) (h : refreshesTest w a = true) :
    Refreshes w a := by
  cases a with
  | malloc c len =>
    intro n m h₁ h₂ hne
    rw [of_decide_eq_true h, h₂] at h₁
    exact absurd (Option.some.inj (Except.ok.inj h₁)).symm hne
  | _ => trivial

theorem medium_room_known_test : ∃ w, mediumMachine.Reach Refreshes w ∧ 2 ^ 20 ∈ w.chunks ∧ RoomKnown w := by
  obtain ⟨w, hreach, hw⟩ := Machine.exists_reach (M := mediumMachine) _ refreshesTest_sound
    (s := mediumStart) mediumCalls (p := fun w => decide (2 ^ 20 ∈ w.chunks)) ⟨rfl, rfl⟩
    (by decide +kernel)
  exact ⟨w, hreach, of_decide_eq_true hw, (medium_room_known hreach).1⟩

end ShmMalloc
