import ShmMalloc.Chunk.MediumRuns

/-! The units that are live, and what they say about a medium chunk.

A unit is live from the call that hands it out to the one that gives it back. The calls
are watched for this: `LiveWorld` adds the live units of each chunk, by start and
length, and nothing that a call reads. The layout of a chunk depends on them alone. -/
namespace ShmMalloc
open Library
open Rbtree (Holds)

structure LiveWorld where
  world : MediumWorld
  live : Nat → List (Nat × Nat)

def LiveWorld.setLive (w : LiveWorld) (world : MediumWorld) (c : Nat) (l : List (Nat × Nat)) :
    LiveWorld := ⟨world, Function.update w.live c l⟩

namespace MediumCall

/-- The live units of the call's chunk after a call that completes with `world`; `pos` is what
an allocation returns. -/
def liveAfter (l : List (Nat × Nat)) (pos : Nat) : MediumCall → List (Nat × Nat)
  | .init _ => []
  | .malloc c len => ((pos - c) / 4096, mediumPages len) :: l
  | .free _ offset => if offset % 4096 = 0 then l.filter fun u => u.1 ≠ offset / 4096 % 2 ^ 16 else l
  | .delete _ => []

def chunk : MediumCall → Nat
  | .init c | .malloc c _ | .free c _ | .delete c => c

/-- The position that an allocation returns. -/
def position (w : MediumWorld) : MediumCall → Nat
  | .malloc c len =>
    match mallocChunkMedium w.shm c len with
    | .ok (_, pos) => pos
    | .error _ => 0
  | _ => 0

def liveStep (w : LiveWorld) (a : MediumCall) : Exec LiveWorld := do
  let world ← a.step w.world
  return w.setLive world a.chunk (a.liveAfter (w.live a.chunk) (a.position w.world))

end MediumCall

def liveMachine : Machine LiveWorld MediumCall Fault where
  start w := mediumMachine.start w.world ∧ w.live = fun _ => []
  legal w a := a.Legal w.world
  step w a := a.liveStep w

instance (w : LiveWorld) (a : MediumCall) : Decidable (liveMachine.legal w a) :=
  inferInstanceAs (Decidable (a.Legal w.world))

/-- The live units are the units in use. -/
def LiveOk (w : LiveWorld) : Prop :=
  ∀ c ∈ w.world.chunks, ∀ p n, UsedUnit (w.world.shm.medium c) p n ↔ (p, n) ∈ w.live c

/-! ### What a call does to the units in use -/

/-- What a call does to the units in use of its chunk, and that it is about its chunk only. -/
theorem MediumCall.used_step {P : ChunkMediumDetial → List Nat → Prop} {w w' : MediumWorld}
    {a : MediumCall} (h : MediumInv P w) (hl : a.Legal w) (hs : a.step w = .ok w') :
    (∀ c ∈ w'.chunks, c ≠ a.chunk → c ∈ w.chunks ∧ w'.shm.medium c = w.shm.medium c) ∧
    (a.chunk ∈ w'.chunks →
      ∀ l, (a.chunk ∈ w.chunks → ∀ p n, UsedUnit (w.shm.medium a.chunk) p n ↔ (p, n) ∈ l) →
        ∀ p n, UsedUnit (w'.shm.medium a.chunk) p n ↔ (p, n) ∈ a.liveAfter l (a.position w)) := by
  obtain ⟨lm, hpool, hperm, hchunks⟩ := h
  have hmem : ∀ {q}, q ∈ lm ↔ q ∈ w.chunks := hperm.mem_iff
  cases a with
  | init c =>
    obtain ⟨hc, hn, hi⟩ := hl
    obtain ⟨s', lm', hrun, -, -, -, -, -, hnone, hframe, -⟩ := initChunk_medium_spec hpool
      (fun h => hc (hmem.mp h)) hn (by omega)
    have hs' : (do
        let s ← initChunk w.shm c c .medium
        return ⟨s, c :: w.chunks⟩ : Exec MediumWorld) = .ok w' := hs
    rw [hrun] at hs'
    obtain rfl := Except.ok.inj hs'
    refine ⟨fun q hq hqc => ⟨(List.mem_cons.mp hq).resolve_left hqc, hframe.medium q hqc⟩,
      fun _ l _ p n => ?_⟩
    exact iff_of_false (hnone p n) (by simp [liveAfter])
  | malloc c len =>
    obtain ⟨l, m, -⟩ := hchunks c hl
    obtain ⟨⟨s', pos⟩, hrun, hret⟩ := Exec.bind_ok hs
    obtain rfl := Except.ok.inj hret
    obtain ⟨n, rest, l', lm', rfl, -, -, hpos, -, -, -, hframe, -, htaken, -⟩ :=
      mallocChunkMedium_step hpool (hmem.mpr hl) m hrun
    refine ⟨fun q hq hqc => ⟨hq, hframe.medium q hqc⟩, fun _ live hlive p k => ?_⟩
    have hpage : (pos - c) / 4096 = n := by omega
    have hlive := hlive hl
    simp only [chunk] at hlive ⊢
    rw [htaken.used, hlive]
    simp only [liveAfter, position, hrun, hpage, List.mem_cons, Prod.mk.injEq]
    exact or_comm
  | free c offset =>
    obtain ⟨l, m, -⟩ := hchunks c hl
    obtain ⟨⟨s', b⟩, hrun, hret⟩ := Exec.bind_ok hs
    obtain rfl := Except.ok.inj hret
    obtain ⟨hnone, hfree⟩ | ⟨k, halign, hu, hpage⟩ := m.free_cases offset
    · rw [hnone] at hrun
      obtain rfl : w.shm = s' := congrArg Prod.fst (Except.ok.inj hrun)
      refine ⟨fun q hq _ => ⟨hq, rfl⟩, fun _ live hlive p n => ?_⟩
      have hlive := hlive hl
      simp only [chunk] at hlive ⊢
      rw [hlive, liveAfter]
      split
      · next halign =>
        rw [List.mem_filter, ← hlive, decide_eq_true_iff]
        refine ⟨fun hu => ⟨hu, ?_⟩, And.left⟩
        rintro rfl
        exact hfree halign n hu
      · rfl
    · obtain ⟨s₁, l', lm', index, n, hrun', -, -, -, hframe, -, hrel, -⟩ :=
        freeChunkMedium_step hpool (hmem.mpr hl) m hu
      rw [hpage, hrun'] at hrun
      obtain rfl : s₁ = s' := congrArg Prod.fst (Except.ok.inj hrun)
      refine ⟨fun q hq hqc => ⟨hq, hframe.medium q hqc⟩, fun _ live hlive p n => ?_⟩
      have hlive := hlive hl
      simp only [chunk] at hlive ⊢
      rw [hrel.used, hlive, liveAfter, if_pos halign, List.mem_filter, decide_eq_true_iff]
  | delete c =>
    obtain ⟨l, m, -⟩ := hchunks c hl
    obtain ⟨t, hrun, hpool', hframe, -⟩ := deleteChunk_spec hpool (hmem.mpr hl) (congrArg ChunkHeader.type m.header)
    obtain ⟨s', hrun', hret⟩ := Exec.bind_ok hs
    obtain rfl := Except.ok.inj hret
    rw [hrun] at hrun'
    obtain rfl := Except.ok.inj hrun'
    have hnd := hperm.nodup_iff.mp hpool.holds.nodup
    refine ⟨fun q hq hqc => ⟨(hnd.mem_erase_iff.mp hq).2, (hframe.setHeader _).medium q hqc⟩, fun hc => ?_⟩
    exact absurd rfl (hnd.mem_erase_iff.mp hc).1

theorem LiveOk.step {w w' : LiveWorld} {a : MediumCall} (h : LiveOk w)
    (hi : MediumInv (fun _ _ => True) w.world) (hl : a.Legal w.world) (hs : a.liveStep w = .ok w') :
    LiveOk w' := by
  obtain ⟨world, hstep, hret⟩ := Exec.bind_ok hs
  obtain rfl := Except.ok.inj hret
  obtain ⟨hother, hchunk⟩ := a.used_step hi hl hstep
  intro c hc p n
  show _ ↔ (p, n) ∈ Function.update w.live a.chunk _ c
  by_cases e : c = a.chunk
  · subst e
    rw [Function.update_self]
    exact hchunk hc _ (h _) p n
  · obtain ⟨hcw, hsame⟩ := hother c hc e
    rw [Function.update_of_ne e]
    show UsedUnit (world.shm.medium c) p n ↔ _
    rw [hsame]
    exact h c hcw p n

theorem live_reach {w : LiveWorld} (h : liveMachine.Reach (fun _ _ => True) w) :
    mediumMachine.Reach (fun _ _ => True) w.world ∧ LiveOk w := by
  induction h with
  | start h =>
    refine ⟨.start h.1, fun c hc => ?_⟩
    rw [h.1.1] at hc
    cases hc
  | step _ hl _ hs ih =>
    obtain ⟨world, hstep, hret⟩ := Exec.bind_ok hs
    refine ⟨?_, ih.2.step (mediumInv_reach ih.1) hl hs⟩
    obtain rfl := Except.ok.inj hret
    exact ih.1.step hl trivial hstep

/-! ### One layout for one set of live units -/

/-- The same bitmaps, the same nodes in the free tree, by index and size, and the same `free_size`. -/
structure SameLayout (d d' : ChunkMediumDetial) : Prop where
  up : ∀ p, bitmapGet d.bitmapUp p = bitmapGet d'.bitmapUp p
  down : ∀ p < 256, bitmapGet d.bitmapDown p = bitmapGet d'.bitmapDown p
  type : ∀ p, bitmapGet d.bitmapType p = bitmapGet d'.bitmapType p
  tree : ∃ l l', Holds mediumMacros d.tree l ∧ Holds mediumMacros d'.tree l' ∧
    (l.map fun p => ((d.tree.heap p).v.index, (d.tree.heap p).v.size)).Perm
      (l'.map fun p => ((d'.tree.heap p).v.index, (d'.tree.heap p).v.size))
  freeSize : d.freeSize = d'.freeSize

theorem Layout.same {d d' : ChunkMediumDetial} {l l' : List Nat} (h : Layout d l) (h' : Layout d' l')
    (hu : ∀ p n, UsedUnit d p n ↔ UsedUnit d' p n) : SameLayout d d' := by
  obtain ⟨htype, hup⟩ := h.parts.mark_eq h.apart h'.parts h'.apart hu
  have hperm : l.Perm l' := by
    refine (List.perm_ext_iff_of_nodup h.parts.nodup h'.parts.nodup).mpr fun p => ?_
    rw [h.parts.mem, h'.parts.mem, htype, hup]
  have hsize : ∀ p ∈ l, unitSize d p = unitSize d' p := fun p hp => by
    refine (h.parts.segment p hp).unique ?_
    rw [hup]
    exact h'.parts.segment p (hperm.mem_iff.mp hp)
  refine ⟨congrFun hup, fun p hp => ?_, congrFun htype, ⟨l, l', h.holds, h'.holds, ?_⟩, ?_⟩
  · have := h.mirror (255 - p) (by omega)
    have := h'.mirror (255 - p) (by omega)
    rw [show 255 - (255 - p) = p by omega] at *
    simp only [*]
  · have hpair : ∀ p ∈ l, ((d.tree.heap p).v.index, (d.tree.heap p).v.size) =
        ((d'.tree.heap p).v.index, (d'.tree.heap p).v.size) := fun p hp => by
      rw [h.index p hp, h'.index p (hperm.mem_iff.mp hp)]
      exact congrArg (Prod.mk p) (hsize p hp)
    rw [List.map_congr_left hpair]
    exact hperm.map _
  · rw [h.freeSize, h'.freeSize, List.map_congr_left hsize]
    exact (hperm.map _).sum_eq

/-- A chunk is entirely free when no unit of it is in use. -/
theorem Layout.full_iff {d : ChunkMediumDetial} {l : List Nat} (h : Layout d l) :
    d.freeSize = 255 ↔ ∀ p n, ¬UsedUnit d p n := by
  constructor
  · intro hfull p n hu
    have := h.parts.sum_add_le hu.1 hu.2
    have := hu.2.pos
    rw [← h.freeSize] at *
    omega
  · intro hnone
    have hzero : ∀ p, bitmapGet (fun _ => 0#64) p = false := fun p => BitVec.getLsbD_zero
    let d₀ : ChunkMediumDetial := {zeroMedium with
      maxSize := 255
      freeSize := 255
      tree := Rbtree.init mediumMacros zeroMedium.tree.heap}
    obtain ⟨d', -, h', -, hsize, hnone'⟩ :=
      addMediumUnit_first (d := d₀) hzero hzero hzero (Holds.init _) rfl
    have hsame := h.same h' fun p n => iff_of_false (hnone p n) (hnone' p n)
    rw [hsame.freeSize, h'.freeSize, List.map_singleton, List.sum_singleton, hsize]

/-- A call that gives a unit back completes, whatever its offset is. -/
theorem MediumInv.free_ok {P : ChunkMediumDetial → List Nat → Prop} {w : MediumWorld}
    (h : MediumInv P w) {c : Nat} (hc : c ∈ w.chunks) (offset : Nat) :
    ∃ s b, freeChunkMedium w.shm c offset = .ok (s, b) := by
  obtain ⟨lm, hpool, hperm, hchunks⟩ := h
  obtain ⟨l, m, -⟩ := hchunks c hc
  obtain ⟨hnone, -⟩ | ⟨k, -, hu, hpage⟩ := m.free_cases offset
  · exact ⟨_, _, hnone⟩
  · obtain ⟨s₁, l', lm', index, n, hrun, -⟩ := freeChunkMedium_step hpool (hperm.mem_iff.mpr hc) m hu
    rw [hpage]
    exact ⟨_, _, hrun⟩

theorem MediumCall.liveStep_malloc {w : LiveWorld} {c len pos : Nat} {s : Shm}
    (h : mallocChunkMedium w.world.shm c len = .ok (s, pos)) :
    MediumCall.liveStep w (.malloc c len) = .ok (w.setLive {w.world with shm := s} c
      (((pos - c) / 4096, mediumPages len) :: w.live c)) := by
  have hstep : MediumCall.step w.world (.malloc c len) = .ok {w.world with shm := s} := by
    show (mallocChunkMedium w.world.shm c len >>= _) = _
    rw [h]
    rfl
  rw [MediumCall.liveStep, hstep]
  simp only [Exec.ok_bind, Exec.pure_eq, MediumCall.chunk, MediumCall.liveAfter, MediumCall.position, h]

theorem MediumCall.liveStep_free {w : LiveWorld} {c offset : Nat} {s : Shm} {b : Bool}
    (h : freeChunkMedium w.world.shm c offset = .ok (s, b)) (h₀ : offset % 4096 = 0) :
    MediumCall.liveStep w (.free c offset) = .ok (w.setLive {w.world with shm := s} c
      ((w.live c).filter fun u => u.1 ≠ offset / 4096 % 2 ^ 16)) := by
  have hstep : MediumCall.step w.world (.free c offset) = .ok {w.world with shm := s} := by
    show (freeChunkMedium w.world.shm c offset >>= _) = _
    rw [h]
    rfl
  rw [MediumCall.liveStep, hstep]
  simp only [Exec.ok_bind, Exec.pure_eq, MediumCall.chunk, MediumCall.liveAfter, if_pos h₀]

/-- The units of a chunk that start at the listed pages are given back, in this order. -/
def freeUnits (c : Nat) : LiveWorld → List Nat → Exec LiveWorld
  | w, [] => .ok w
  | w, p :: ps => do
    let w ← MediumCall.liveStep w (.free c (p * 4096))
    freeUnits c w ps

theorem freeUnits_ok {w : LiveWorld} (h : liveMachine.Reach (fun _ _ => True) w) {c : Nat}
    (hc : c ∈ w.world.chunks) {ps : List Nat} (hps : ∀ p ∈ ps, p < 256) :
    ∃ w', freeUnits c w ps = .ok w' ∧ liveMachine.Reach (fun _ _ => True) w' ∧
      c ∈ w'.world.chunks ∧ ∀ u, u ∈ w'.live c ↔ u ∈ w.live c ∧ u.1 ∉ ps := by
  induction ps generalizing w with
  | nil => exact ⟨w, rfl, h, hc, by simp⟩
  | cons p ps ih =>
    have hp := hps p List.mem_cons_self
    obtain ⟨s, b, hfree⟩ := (mediumInv_reach (live_reach h).1).free_ok hc (p * 4096)
    have hstep := MediumCall.liveStep_free hfree (by omega)
    have hpage : p * 4096 / 4096 % 2 ^ 16 = p := by omega
    rw [hpage] at hstep
    obtain ⟨w', hrun, hreach, hc', hlive⟩ := ih (w := w.setLive {w.world with shm := s} c
      ((w.live c).filter fun u => u.1 ≠ p)) (h.step (a := MediumCall.free c (p * 4096)) hc trivial hstep) hc
      fun q hq => hps q (List.mem_cons_of_mem _ hq)
    refine ⟨w', by rw [freeUnits, hstep, Exec.ok_bind, hrun], hreach, hc', fun u => ?_⟩
    rw [hlive, LiveWorld.setLive]
    simp only [Function.update_self, List.mem_filter, decide_eq_true_iff, List.mem_cons, not_or]
    exact and_assoc

/-- **The live units of a medium chunk determine its layout**: whatever calls lead to them,
after an allocation and its release, and after releases in any order. -/
theorem medium_layout_live :
    (∀ w w' c c', liveMachine.Reach (fun _ _ => True) w → liveMachine.Reach (fun _ _ => True) w' →
      c ∈ w.world.chunks → c' ∈ w'.world.chunks → (∀ u, u ∈ w.live c ↔ u ∈ w'.live c') →
      SameLayout (w.world.shm.medium c) (w'.world.shm.medium c')) ∧
    (∀ w c len s pos s' b, liveMachine.Reach (fun _ _ => True) w → c ∈ w.world.chunks →
      mallocChunkMedium w.world.shm c len = .ok (s, pos) →
      freeChunkMedium s c (pos - c) = .ok (s', b) →
      SameLayout (w.world.shm.medium c) (s'.medium c)) ∧
    (∀ w c ps ps', liveMachine.Reach (fun _ _ => True) w → c ∈ w.world.chunks →
      (∀ p ∈ ps, ∃ n, (p, n) ∈ w.live c) → ps.Perm ps' →
      ∃ w₁ w₂, freeUnits c w ps = .ok w₁ ∧ freeUnits c w ps' = .ok w₂ ∧
        SameLayout (w₁.world.shm.medium c) (w₂.world.shm.medium c)) := by
  have hsame : ∀ w w' c c', liveMachine.Reach (fun _ _ => True) w →
      liveMachine.Reach (fun _ _ => True) w' → c ∈ w.world.chunks → c' ∈ w'.world.chunks →
      (∀ u, u ∈ w.live c ↔ u ∈ w'.live c') →
      SameLayout (w.world.shm.medium c) (w'.world.shm.medium c') := by
    intro w w' c c' h h' hc hc' hu
    obtain ⟨hr, hlive⟩ := live_reach h
    obtain ⟨hr', hlive'⟩ := live_reach h'
    obtain ⟨-, -, -, hchunks⟩ := mediumInv_reach hr
    obtain ⟨-, -, -, hchunks'⟩ := mediumInv_reach hr'
    obtain ⟨l, m, -⟩ := hchunks c hc
    obtain ⟨l', m', -⟩ := hchunks' c' hc'
    refine m.layout.same m'.layout fun p n => ?_
    rw [hlive c hc, hlive' c' hc', hu]
  refine ⟨hsame, ?_, ?_⟩
  · intro w c len s pos s' b h hc hmalloc hfree
    obtain ⟨hr, hlive⟩ := live_reach h
    obtain ⟨lm, hpool, hperm, hchunks⟩ := mediumInv_reach hr
    obtain ⟨l, m, -⟩ := hchunks c hc
    obtain ⟨n, rest, -, -, rfl, -, -, hpos, -⟩ :=
      mallocChunkMedium_step hpool (hperm.mem_iff.mpr hc) m hmalloc
    obtain ⟨hup, htype⟩ := (m.layout.parts.mem n).mp List.mem_cons_self
    have hn := (m.layout.parts.range n hup).2
    have hreach := h.step (a := MediumCall.malloc c len) hc trivial (MediumCall.liveStep_malloc hmalloc)
    have hreach := hreach.step (a := MediumCall.free c (pos - c)) hc trivial
      (MediumCall.liveStep_free hfree (by omega))
    refine hsame _ _ _ _ h hreach hc hc fun u => ?_
    simp only [LiveWorld.setLive, Function.update_self, List.mem_filter, List.mem_cons,
      decide_eq_true_iff]
    rw [show (pos - c) / 4096 % 2 ^ 16 = n by omega, show (pos - c) / 4096 = n by omega]
    refine ⟨fun hu => ⟨.inr hu, ?_⟩, fun ⟨hu, hne⟩ => hu.resolve_left fun e => hne (by rw [e])⟩
    rintro rfl
    have := ((hlive c hc _ _).mpr hu).1
    rw [htype] at this
    cases this
  · intro w c ps ps' h hc hps hperm
    have hlt : ∀ p ∈ ps, p < 256 := by
      intro p hp
      obtain ⟨n, hn⟩ := hps p hp
      obtain ⟨hr, hlive⟩ := live_reach h
      obtain ⟨-, -, -, hchunks⟩ := mediumInv_reach hr
      obtain ⟨l, m, -⟩ := hchunks c hc
      exact (m.layout.parts.range p ((hlive c hc p n).mpr hn).2.start).2
    obtain ⟨w₁, hrun₁, hreach₁, hc₁, hlive₁⟩ := freeUnits_ok h hc hlt
    obtain ⟨w₂, hrun₂, hreach₂, hc₂, hlive₂⟩ := freeUnits_ok h hc
      fun p hp => hlt p (hperm.mem_iff.mpr hp)
    refine ⟨w₁, w₂, hrun₁, hrun₂, hsame _ _ _ _ hreach₁ hreach₂ hc₁ hc₂ fun u => ?_⟩
    rw [hlive₁, hlive₂, hperm.mem_iff]

/-- Two allocations and a release leave the live units that one allocation leaves. -/
theorem medium_layout_live_test :
    ∃ w w', liveMachine.Reach (fun _ _ => True) w ∧ liveMachine.Reach (fun _ _ => True) w' ∧
      (w.live (2 ^ 20) = [(1, 3)] ∧ w'.live (2 ^ 20) = [(1, 3)]) ∧
      SameLayout (w.world.shm.medium (2 ^ 20)) (w'.world.shm.medium (2 ^ 20)) := by
  obtain ⟨w, hreach, hw⟩ := Machine.exists_reach (M := liveMachine) (fun _ _ => true)
    (fun _ _ _ => trivial) (s := ⟨mediumStart, fun _ => []⟩)
    [.init (2 ^ 20), .malloc (2 ^ 20) (3 * 4096), .malloc (2 ^ 20) 4096, .free (2 ^ 20) (4 * 4096)]
    (p := fun w => decide (2 ^ 20 ∈ w.world.chunks ∧ w.live (2 ^ 20) = [(1, 3)]))
    ⟨⟨rfl, rfl⟩, rfl⟩ (by decide +kernel)
  obtain ⟨w', hreach', hw'⟩ := Machine.exists_reach (M := liveMachine) (fun _ _ => true)
    (fun _ _ _ => trivial) (s := ⟨mediumStart, fun _ => []⟩)
    [.init (2 ^ 20), .malloc (2 ^ 20) (3 * 4096)]
    (p := fun w => decide (2 ^ 20 ∈ w.world.chunks ∧ w.live (2 ^ 20) = [(1, 3)]))
    ⟨⟨rfl, rfl⟩, rfl⟩ (by decide +kernel)
  obtain ⟨hc, hl⟩ := of_decide_eq_true hw
  obtain ⟨hc', hl'⟩ := of_decide_eq_true hw'
  exact ⟨w, w', hreach, hreach', ⟨hl, hl'⟩,
    medium_layout_live.1 w w' _ _ hreach hreach' hc hc' fun u => by rw [hl, hl']⟩

/-! ### What other calls leave of a live unit -/

/-- No page of the unit is written, where the chunk overlaps neither the context nor another
chunk, and its start and length stay. -/
structure UnitKept (chunks : List Nat) (s s' : Shm) (c p n : Nat) : Prop where
  node : ∀ q, p ≤ q → q < p + n → (s'.medium c).tree.heap q = (s.medium c).tree.heap q
  data : ∀ q, p ≤ q → q < p + n → ∀ y ∈ pageBytes c q, y ∉ bytes 0 (2 ^ 20) →
    (∀ c' ∈ chunks, c' ≠ c → y ∉ bytes c' (2 ^ 20)) → s'.data y.1 y.2 = s.data y.1 y.2
  used : UsedUnit (s'.medium c) p n

/-- The call is an allocation, or gives back another unit than the one at page `p` of `c`. -/
def MediumCall.Spares (c p : Nat) : MediumCall → Prop
  | .init _ | .delete _ => False
  | .malloc _ _ => True
  | .free c' offset => c' = c → offset % 4096 = 0 → offset / 4096 % 2 ^ 16 ≠ p

/-- The pages of a unit in use are not nodes of the free tree. -/
theorem Layout.not_mem {d : ChunkMediumDetial} {l : List Nat} (h : Layout d l) {p n q : Nat}
    (hu : UsedUnit d p n) (h₁ : p ≤ q) (h₂ : q < p + n) : q ∉ l := by
  intro hq
  obtain ⟨hup, htype⟩ := (h.parts.mem q).mp hq
  by_cases e : p = q
  · rw [← e, hu.1] at htype
    cases htype
  · have := hu.2.inside q (by omega) h₂
    rw [hup] at this
    cases this

theorem MediumCall.kept {P : ChunkMediumDetial → List Nat → Prop} {w w' : MediumWorld}
    {a : MediumCall} {c p n : Nat} (h : MediumInv P w) (hl : a.Legal w) (hs : a.step w = .ok w')
    (hc : c ∈ w.chunks) (hu : UsedUnit (w.shm.medium c) p n) (ha : a.Spares c p) :
    c ∈ w'.chunks ∧ UnitKept w.chunks w.shm w'.shm c p n := by
  obtain ⟨lm, hpool, hperm, hchunks⟩ := h
  obtain ⟨l, m, -⟩ := hchunks c hc
  have hfirst := (m.layout.parts.range p hu.2.start).1
  have hdata : ∀ {s' : Shm} {c' : Nat} {node : Nat → Prop}, c' ∈ w.chunks →
      SameRuns (mediumBytes lm c' node) w.shm s' → (c' = c → ∀ q, p ≤ q → q < p + n → ¬node q) →
      ∀ q, p ≤ q → q < p + n → ∀ y ∈ pageBytes c q, y ∉ bytes 0 (2 ^ 20) →
        (∀ c' ∈ w.chunks, c' ≠ c → y ∉ bytes c' (2 ^ 20)) → s'.data y.1 y.2 = w.shm.data y.1 y.2 :=
    fun hc' hr hn q h₁ h₂ y hy hctx hother => hr.data y (not_mem_mediumBytes hy (by omega)
      (fun he => hn he q h₁ h₂) hctx (hperm.mem_iff.mpr hc') fun x hx => hother x (hperm.mem_iff.mp hx))
  have hother : ∀ {s' : Shm} {q : Nat} {node : Nat → Prop}, q ∈ w.chunks → ChunkFrame w.shm s' .medium q lm →
      SameRuns (mediumBytes lm q node) w.shm s' → c ≠ q → UnitKept w.chunks w.shm s' c p n := by
    intro s' q node hqw hf hr hq
    have he := hf.medium c hq
    exact ⟨fun _ _ _ => by rw [he], hdata hqw hr fun h => absurd h.symm hq, by rwa [he]⟩
  cases a with
  | init => exact ha.elim
  | delete => exact ha.elim
  | malloc c' len =>
    obtain ⟨⟨s', pos⟩, hrun, hret⟩ := Exec.bind_ok hs
    obtain rfl := Except.ok.inj hret
    obtain ⟨l', m', -⟩ := hchunks c' hl
    obtain ⟨k, rest, l', lm', rfl, -, -, -, -, -, -, hframe, hruns, htaken, -⟩ :=
      mallocChunkMedium_step hpool (hperm.mem_iff.mpr hl) m' hrun
    refine ⟨hc, ?_⟩
    by_cases e : c = c'
    · subst e
      have hnode : ∀ q, p ≤ q → q < p + n → ¬TakenNode (w.shm.medium c) (k :: rest) k (mediumPages len) q := by
        rintro q h₁ h₂ (hq | ⟨hlt, rfl⟩)
        · exact m'.layout.not_mem hu h₁ h₂ hq
        · -- what is left of a split unit is inside that unit
          have hseg := m'.layout.parts.segment k List.mem_cons_self
          have hkp : k ≠ p := by
            rintro rfl
            exact m'.layout.not_mem hu (Nat.le_refl _) (by have := hu.2.pos; omega) List.mem_cons_self
          have := hseg.disjoint hu.2 hkp
          omega
      refine ⟨fun q h₁ h₂ => ?_, hdata hl hruns fun _ => hnode, (htaken.used p n).mpr (.inl hu)⟩
      by_contra hne
      exact hnode q h₁ h₂ (htaken.node hne)
    · exact hother hl hframe hruns e
  | free c' offset =>
    obtain ⟨⟨s', b⟩, hrun, hret⟩ := Exec.bind_ok hs
    obtain rfl := Except.ok.inj hret
    obtain ⟨l', m', -⟩ := hchunks c' hl
    refine ⟨hc, ?_⟩
    obtain ⟨hnone, -⟩ | ⟨k, halign, hk, hpage⟩ := m'.free_cases offset
    · rw [hnone] at hrun
      obtain rfl : w.shm = s' := congrArg Prod.fst (Except.ok.inj hrun)
      exact ⟨fun _ _ _ => rfl, fun _ _ _ _ _ _ _ => rfl, hu⟩
    · obtain ⟨s₁, l₁, lm', index, j, hrun', -, -, -, hframe, hruns, hrel, -⟩ :=
        freeChunkMedium_step hpool (hperm.mem_iff.mpr hl) m' hk
      rw [hpage, hrun'] at hrun
      obtain rfl : s₁ = s' := congrArg Prod.fst (Except.ok.inj hrun)
      by_cases e : c = c'
      · subst e
        have hne := ha rfl halign
        have hnode : ∀ q, p ≤ q → q < p + n → q ∉ offset / 4096 % 2 ^ 16 :: l' := by
          intro q h₁ h₂ hq
          rcases List.mem_cons.mp hq with rfl | hq
          · have := hk.2.disjoint hu.2 hne
            have := hk.2.pos
            omega
          · exact m'.layout.not_mem hu h₁ h₂ hq
        refine ⟨fun q h₁ h₂ => ?_, hdata hl hruns fun _ => hnode, (hrel.used p n).mpr ⟨hu, hne.symm⟩⟩
        have hq := hnode q h₁ h₂
        rw [List.mem_cons, not_or] at hq
        exact hrel.outside q hq.2 hq.1
      · exact hother hl hframe hruns e

/-- **An allocation, or the release of another unit,** writes to no page of a live unit and
leaves its start and length, but `check_chunk_medium` does not return the length. -/
theorem medium_unit_kept {w : LiveWorld} (h : liveMachine.Reach (fun _ _ => True) w) {a : MediumCall}
    {w' : MediumWorld} {c p n : Nat} (hl : a.Legal w.world) (hs : a.step w.world = .ok w')
    (hc : c ∈ w.world.chunks) (hu : (p, n) ∈ w.live c) (ha : a.Spares c p) :
    UnitKept w.world.chunks w.world.shm w'.shm c p n ∧
      ¬checkChunkMedium w'.shm c (p * 4096) = .ok (n * 4096) := by
  obtain ⟨hr, hlive⟩ := live_reach h
  have hu' := (hlive c hc p n).mpr hu
  have hinv := mediumInv_reach hr
  obtain ⟨hc', hkept⟩ := a.kept hinv hl hs hc hu' ha
  refine ⟨hkept, fun hcheck => ?_⟩
  obtain ⟨-, -, -, hchunks⟩ := mediumInv_reach (hr.step hl trivial hs)
  obtain ⟨l, m, -⟩ := hchunks c hc'
  rw [checkChunkMedium_spec m] at hcheck
  have := Except.ok.inj hcheck
  have := hu'.2.pos
  omega

/-- A live unit of 3 pages, and what `check_chunk_medium` says of it after one more allocation. -/
def unitTest (w : LiveWorld) : Bool :=
  2 ^ 20 ∈ w.world.chunks && (1, 3) ∈ w.live (2 ^ 20) &&
    match mallocChunkMedium w.world.shm (2 ^ 20) 4096 with
    | .ok (s, _) => decide (checkChunkMedium s (2 ^ 20) 4096 = .ok 0)
    | .error _ => false

theorem unitTest_reach : ∃ w, liveMachine.Reach (fun _ _ => True) w ∧ unitTest w = true :=
  Machine.exists_reach (M := liveMachine) (fun _ _ => true) (fun _ _ _ => trivial)
    (s := ⟨mediumStart, fun _ => []⟩) [.init (2 ^ 20), .malloc (2 ^ 20) (3 * 4096)]
    ⟨⟨rfl, rfl⟩, rfl⟩ (by decide +kernel)

theorem unitTest_spec {w : LiveWorld} (h : unitTest w = true) : 2 ^ 20 ∈ w.world.chunks ∧
    (1, 3) ∈ w.live (2 ^ 20) ∧ ∃ s, MediumCall.step w.world (.malloc (2 ^ 20) 4096) =
      .ok {w.world with shm := s} ∧ checkChunkMedium s (2 ^ 20) (1 * 4096) = .ok 0 := by
  unfold unitTest at h
  simp only [Bool.and_eq_true, decide_eq_true_iff] at h
  obtain ⟨⟨hc, hu⟩, h⟩ := h
  split at h
  · next s pos hrun =>
    refine ⟨hc, hu, s, ?_, of_decide_eq_true h⟩
    show (mallocChunkMedium w.world.shm (2 ^ 20) 4096 >>= _) = _
    rw [hrun]
    rfl
  · cases h

theorem medium_unit_kept_test : ∃ w s, liveMachine.Reach (fun _ _ => True) w ∧
    MediumCall.step w.world (.malloc (2 ^ 20) 4096) = .ok {w.world with shm := s} ∧
    UnitKept w.world.chunks w.world.shm s (2 ^ 20) 1 3 ∧ ¬checkChunkMedium s (2 ^ 20) (1 * 4096) = .ok (3 * 4096) := by
  obtain ⟨w, hreach, hw⟩ := unitTest_reach
  obtain ⟨hc, hu, s, hstep, -⟩ := unitTest_spec hw
  have hl : (MediumCall.malloc (2 ^ 20) 4096).Legal w.world := hc
  exact ⟨w, s, hreach, hstep, medium_unit_kept hreach hl hstep hc hu trivial⟩

/-- The unit of 3 pages is checked to have 0 bytes. -/
theorem medium_check_lost : ∃ w s, liveMachine.Reach (fun _ _ => True) w ∧ 2 ^ 20 ∈ w.world.chunks ∧
    (1, 3) ∈ w.live (2 ^ 20) ∧
    MediumCall.step w.world (.malloc (2 ^ 20) 4096) = .ok {w.world with shm := s} ∧
    checkChunkMedium s (2 ^ 20) (1 * 4096) = .ok 0 := by
  obtain ⟨w, hreach, hw⟩ := unitTest_reach
  obtain ⟨hc, hu, s, hstep, hcheck⟩ := unitTest_spec hw
  exact ⟨w, s, hreach, hc, hu, hstep, hcheck⟩

end ShmMalloc
