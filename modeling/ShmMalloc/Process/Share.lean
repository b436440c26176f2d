import Mathlib.Algebra.Group.Nat.Defs
import Mathlib.Data.Finset.Card
import Mathlib.Data.Finset.Range
import Mathlib.Logic.Function.Basic
import ShmMalloc.Exec
import ShmMalloc.Library.Machine

/-! `init_shared_context` and `exit_shared_context`, step by step.

A process attaches the segment that the key names, creating one if there is none; it
sets the segment up, under the file lock, if the flag is missing; it counts itself in.
When it exits it counts itself out, and removes the segment if the count it got is 0.
Other processes take steps between any two of these. A removed segment lives on for
the processes that are attached to it, but the key names a new one from then on. -/
namespace ShmMalloc.Share
open Library

/-- The fields of a context segment that matter here; `shmid` is `arenas[0].shmid`. -/
structure Segment where
  initFlag : Bool
  key : Int
  shmid : Nat
  count : Nat
  deriving DecidableEq, Repr

/-- A segment that has just been created. -/
def Segment.zero : Segment := ⟨false, 0, 0, 0⟩

/-- How far a process is, in the segment that it has attached. -/
inductive Phase where
  | outside
  | attached (g : Nat)
  | ready (g : Nat)
  | counted (g : Nat)
  | leaving (g count : Nat)
  deriving DecidableEq, Repr

structure State where
  /-- The key of the path, which all processes get from `shm_get_key`. -/
  key : Int
  /-- The segment that the key names. -/
  named : Option Nat
  segment : Nat → Segment
  phase : Nat → Phase

def State.setPhase (s : State) (p : Nat) (f : Phase) : State :=
  {s with phase := Function.update s.phase p f}

def State.setSegment (s : State) (g : Nat) (x : Segment) : State :=
  {s with segment := Function.update s.segment g x}

/-! ### The steps -/

/-- `shm_mmap(key, SHM_ARENA_UNIT_SIZE, create, &shmid, &err)`; a segment that is created is `m`. -/
def mmapContext (s : State) (p m : Nat) : State :=
  match s.named with
  | some g => s.setPhase p (.attached g)
  | none => {(s.setSegment m .zero).setPhase p (.attached m) with named := some m}

/-- `init_shm_shared_field`, if the flag is missing. -/
def initField (s : State) (p g : Nat) : State :=
  let s := if (s.segment g).initFlag then s else s.setSegment g ⟨true, s.key, g, 0⟩
  s.setPhase p (.ready g)

/-- `atomic_add_and_fetch(&context->count, 1)`. -/
def addCount (s : State) (p g : Nat) : Exec State := do
  require (s.segment g).initFlag
  require ((s.segment g).key = s.key)
  let count := ((s.segment g).count + 1) % 2 ^ 32
  return (s.setSegment g {s.segment g with count := count}).setPhase p (.counted g)

/-- `atomic_sub_and_fetch(&context->count, 1)`. -/
def subCount (s : State) (p g : Nat) : State :=
  let count := ((s.segment g).count + (2 ^ 32 - 1)) % 2 ^ 32
  (s.setSegment g {s.segment g with count := count}).setPhase p (.leaving g count)

/-- `if(count == 0) shm_remove(context->arenas[0].shmid);` -/
def removeContext (s : State) (p g count : Nat) : State :=
  let s := if count = 0 ∧ s.named = some (s.segment g).shmid then {s with named := none} else s
  s.setPhase p .outside

/-- The next step of the process `p`; `m` is the segment that the system creates, if one is. -/
def next (s : State) (p m : Nat) : Exec State :=
  match s.phase p with
  | .outside => .ok (mmapContext s p m)
  | .attached g => .ok (initField s p g)
  | .ready g => addCount s p g
  | .counted g => .ok (subCount s p g)
  | .leaving g count => .ok (removeContext s p g count)

/-- The segment that a process is attached to, from its first step to its last. -/
def Phase.segment : Phase → Option Nat
  | .outside => none
  | .attached g | .ready g | .counted g | .leaving g _ => some g

/-- The segment of a process that has attached and has not counted itself out. -/
def Phase.inside : Phase → Option Nat
  | .outside | .leaving _ _ => none
  | .attached g | .ready g | .counted g => some g

/-- A `pid_t` is not negative and has 32 bits; the system gives out identifiers that are not in use. -/
def Legal (s : State) (a : Nat × Nat) : Prop :=
  a.1 < 2 ^ 31 ∧ (s.phase a.1 = .outside → s.named = none → ∀ q, (s.phase q).segment ≠ some a.2)

def contextMachine : Machine State (Nat × Nat) Fault where
  start s := ∃ key > 0, s = ⟨key, none, fun _ => .zero, fun _ => .outside⟩
  legal := Legal
  step s a := next s a.1 a.2

/-! ### The count -/

/-- The count of each segment is that of the processes counted in and not out. -/
structure Inv (s : State) : Prop where
  count : ∀ g, ∃ t : Finset Nat, (∀ p, p ∈ t ↔ s.phase p = .counted g) ∧ t ⊆ Finset.range (2 ^ 31) ∧
    (s.segment g).count = t.card
  flagged : ∀ g, (s.segment g).initFlag = true → (s.segment g).shmid = g ∧ (s.segment g).key = s.key
  ready : ∀ p g, s.phase p = .ready g ∨ s.phase p = .counted g ∨ (∃ n, s.phase p = .leaving g n) →
    (s.segment g).initFlag = true

@[simp] theorem setPhase_segment (s : State) (p : Nat) (f : Phase) :
    (s.setPhase p f).segment = s.segment := rfl

@[simp] theorem setPhase_named (s : State) (p : Nat) (f : Phase) : (s.setPhase p f).named = s.named := rfl

@[simp] theorem setPhase_key (s : State) (p : Nat) (f : Phase) : (s.setPhase p f).key = s.key := rfl

@[simp] theorem setSegment_key (s : State) (g : Nat) (x : Segment) : (s.setSegment g x).key = s.key := rfl

@[simp] theorem setSegment_phase (s : State) (g : Nat) (x : Segment) :
    (s.setSegment g x).phase = s.phase := rfl

@[simp] theorem setSegment_named (s : State) (g : Nat) (x : Segment) :
    (s.setSegment g x).named = s.named := rfl

theorem setPhase_phase (s : State) (p q : Nat) (f : Phase) :
    (s.setPhase p f).phase q = if q = p then f else s.phase q := Function.update_apply ..

theorem setSegment_segment (s : State) (g k : Nat) (x : Segment) :
    (s.setSegment g x).segment k = if k = g then x else s.segment k := Function.update_apply ..

theorem Inv.start (key : Int) : Inv ⟨key, none, fun _ => .zero, fun _ => .outside⟩ where
  count _ := ⟨∅, by simp, by simp, rfl⟩
  flagged g h := by cases h
  ready p g h := by simp at h

/-- A phase that is not counted changes to one that is not, and what was ready stays ready. -/
theorem Inv.setPhase {s : State} (h : Inv s) {p : Nat} {f : Phase}
    (hp : ∀ g, s.phase p ≠ .counted g) (hf : ∀ g, f ≠ .counted g)
    (hr : ∀ g, f = .ready g ∨ (∃ n, f = .leaving g n) → (s.segment g).initFlag = true) :
    Inv (s.setPhase p f) where
  count g := by
    obtain ⟨t, ht, hsub, hcard⟩ := h.count g
    refine ⟨t, fun q => ?_, hsub, hcard⟩
    rw [ht, setPhase_phase]
    split
    · next he =>
      subst he
      exact iff_of_false (hp g) (hf g)
    · rfl
  flagged := h.flagged
  ready q g hq := by
    rw [setPhase_phase] at hq
    split at hq
    · rcases hq with hq | hq | hq
      · exact hr g (.inl hq)
      · exact absurd hq (hf g)
      · exact hr g (.inr hq)
    · exact h.ready q g hq

/-- A segment that nobody has been counted into gets its fields. -/
theorem Inv.setSegment {s : State} (h : Inv s) {g : Nat} {x : Segment} (hx : x.count = 0)
    (hs : x.initFlag = true → x.shmid = g ∧ x.key = s.key) (hc : ∀ q, s.phase q ≠ .counted g)
    (hr : ∀ q, s.phase q = .ready g ∨ (∃ n, s.phase q = .leaving g n) → x.initFlag = true) :
    Inv (s.setSegment g x) where
  count k := by
    rw [setSegment_segment]
    split
    · next he =>
      subst he
      exact ⟨∅, fun q => iff_of_false (by simp) (hc q), by simp, hx⟩
    · exact h.count k
  flagged k hk := by
    rw [setSegment_segment] at hk ⊢
    split at hk
    · next he =>
      subst he
      rw [if_pos rfl]
      exact hs hk
    · next he =>
      rw [if_neg he]
      exact h.flagged k hk
  ready q k hq := by
    rw [setSegment_segment]
    split
    · next he =>
      subst he
      rcases hq with hq | hq | hq
      · exact hr q (.inl hq)
      · exact absurd hq (hc q)
      · exact hr q (.inr hq)
    · exact h.ready q k hq

/-- A process is counted in or out. -/
theorem Inv.setCount {s : State} (h : Inv s) {p g : Nat} {f : Phase} {t t' : Finset Nat}
    (ht : ∀ q, q ∈ t ↔ s.phase q = .counted g) (hsub : t' ⊆ Finset.range (2 ^ 31))
    (hg : (s.segment g).initFlag = true) (hp : ∀ k, k ≠ g → s.phase p ≠ .counted k)
    (ht' : ∀ q, q ≠ p → (q ∈ t' ↔ q ∈ t)) (hpt : p ∈ t' ↔ f = .counted g)
    (hf : f = .counted g ∨ ∃ n, f = .leaving g n) :
    Inv ((s.setSegment g {s.segment g with count := t'.card}).setPhase p f) where
  count k := by
    by_cases hk : k = g
    · subst hk
      refine ⟨t', fun q => ?_, hsub, by simp [setSegment_segment]⟩
      rw [setPhase_phase]
      split
      · next he => rw [he, hpt]
      · next he => rw [ht' q he, ht q, setSegment_phase]
    · obtain ⟨u, hu, husub, hcard⟩ := h.count k
      refine ⟨u, fun q => ?_, husub, by simpa [setSegment_segment, hk] using hcard⟩
      rw [hu, setPhase_phase, setSegment_phase]
      split
      · next he =>
        subst he
        refine iff_of_false (hp k hk) ?_
        rcases hf with rfl | ⟨n, rfl⟩ <;> simp [Ne.symm hk]
      · rfl
  flagged k hk := by
    by_cases he : k = g
    · subst he
      simpa [setSegment_segment] using h.flagged k hg
    · simp only [setPhase_segment, setSegment_segment, if_neg he] at hk ⊢
      exact h.flagged k hk
  ready q k hq := by
    by_cases he : k = g
    · subst he
      simpa [setSegment_segment] using hg
    · simp only [setPhase_segment, setSegment_segment, if_neg he]
      rw [setPhase_phase, setSegment_phase] at hq
      split at hq
      · rcases hf with rfl | ⟨n, rfl⟩ <;> simp [Ne.symm he] at hq
      · exact h.ready q k hq

theorem Inv.step {s s' : State} {a : Nat × Nat} (h : Inv s) (hl : Legal s a)
    (hs : next s a.1 a.2 = .ok s') : Inv s' := by
  obtain ⟨p, m⟩ := a
  obtain ⟨hpid, hfresh⟩ := hl
  dsimp only at hpid hfresh hs
  unfold next at hs
  split at hs
  · next hp =>
    obtain rfl := Except.ok.inj hs
    unfold mmapContext
    split
    · exact h.setPhase (by simp [hp]) (by simp) (by simp)
    · next hk =>
      have hout : ∀ q, (s.phase q).segment ≠ some m := hfresh hp hk
      have h' : Inv (s.setSegment m .zero) := by
        refine h.setSegment rfl (by simp [Segment.zero]) (fun q hq => ?_) (fun q hq => ?_)
        · exact hout q (by rw [hq]; rfl)
        · rcases hq with hq | ⟨n, hq⟩ <;> exact absurd (by rw [hq]; rfl) (hout q)
      have h'' := h'.setPhase (p := p) (f := .attached m) (by simp [hp]) (by simp) (by simp)
      exact ⟨h''.count, h''.flagged, h''.ready⟩
  · next g hp =>
    obtain rfl := Except.ok.inj hs
    unfold initField
    by_cases hflag : (s.segment g).initFlag = true
    · simp only [hflag, if_true]
      refine h.setPhase (by simp [hp]) (by simp) fun k hk => ?_
      obtain rfl : g = k := by simpa using hk
      exact hflag
    · simp only [hflag]
      have hnone : ∀ q, ¬(s.phase q = .ready g ∨ s.phase q = .counted g ∨ ∃ n, s.phase q = .leaving g n) :=
        fun q hq => hflag (h.ready q g hq)
      have h' : Inv (s.setSegment g ⟨true, s.key, g, 0⟩) :=
        h.setSegment rfl (fun _ => ⟨rfl, rfl⟩) (fun q hq => hnone q (.inr (.inl hq))) fun _ _ => rfl
      refine h'.setPhase (by simp [hp]) (by simp) fun k hk => ?_
      obtain rfl : g = k := by simpa using hk
      simp [setSegment_segment]
  · next g hp =>
    unfold addCount at hs
    obtain ⟨u, hreq, hs⟩ := Exec.bind_ok hs
    obtain ⟨-, -, hs⟩ := Exec.bind_ok hs
    have hflag := require_ok hreq
    obtain ⟨t, ht, hsub, hcard⟩ := h.count g
    have hpt : p ∉ t := fun hm => by
      rw [ht, hp] at hm
      cases hm
    have hsub' : insert p t ⊆ Finset.range (2 ^ 31) :=
      Finset.insert_subset (Finset.mem_range.mpr hpid) hsub
    have hlt := Finset.card_le_card hsub'
    rw [Finset.card_range] at hlt
    have hcount : ((s.segment g).count + 1) % 2 ^ 32 = (insert p t).card := by
      rw [hcard, Finset.card_insert_of_notMem hpt] at *
      omega
    rw [hcount] at hs
    obtain rfl := Except.ok.inj hs
    exact h.setCount ht hsub' hflag (by simp [hp]) (fun q hq => by simp [hq])
      (by simp) (.inl rfl)
  · next g hp =>
    obtain rfl := Except.ok.inj hs
    unfold subCount
    obtain ⟨t, ht, hsub, hcard⟩ := h.count g
    have hpt : p ∈ t := (ht p).mpr hp
    have hpos : 0 < t.card := Finset.card_pos.mpr ⟨p, hpt⟩
    have hlt := Finset.card_le_card hsub
    rw [Finset.card_range] at hlt
    have hcount : ((s.segment g).count + (2 ^ 32 - 1)) % 2 ^ 32 = (t.erase p).card := by
      rw [hcard, Finset.card_erase_of_mem hpt]
      omega
    simp only [hcount]
    exact h.setCount ht ((Finset.erase_subset ..).trans hsub) (h.ready p g (.inr (.inl hp)))
      (fun k hk => by simp [hp, Ne.symm hk]) (fun q hq => by simp [hq]) (by simp) (.inr ⟨_, rfl⟩)
  · next g n hp =>
    obtain rfl := Except.ok.inj hs
    unfold removeContext
    have h' : Inv (s.setPhase p .outside) := h.setPhase (by simp [hp]) (by simp) (by simp)
    split <;> exact ⟨h'.count, h'.flagged, h'.ready⟩

theorem inv_reach {allow : State → Nat × Nat → Prop} {s : State} (h : contextMachine.Reach allow s) :
    Inv s := by
  refine h.invariant (fun s hs => ?_) fun s a s' hi hl _ hs => hi.step hl hs
  obtain ⟨key, -, rfl⟩ := hs
  exact .start key

/-- Nobody is counted in when the count is 0. -/
theorem Inv.not_counted {s : State} (h : Inv s) {g : Nat} :
    (s.segment g).count = 0 ↔ ∀ p, s.phase p ≠ .counted g := by
  obtain ⟨t, ht, -, hcard⟩ := h.count g
  rw [hcard, Finset.card_eq_zero, Finset.eq_empty_iff_forall_notMem]
  exact forall_congr' fun p => not_congr (ht p)

/-- A step is about the phase of the process that takes it. -/
theorem next_phase {s s' : State} {p q m : Nat} (h : next s p m = .ok s') (hq : q ≠ p) :
    s'.phase q = s.phase q := by
  unfold next at h
  split at h
  · obtain rfl := Except.ok.inj h
    unfold mmapContext
    split <;> simp only [setPhase_phase, if_neg hq, setSegment_phase]
  · obtain rfl := Except.ok.inj h
    unfold initField
    split <;> simp only [setPhase_phase, if_neg hq, setSegment_phase]
  · unfold addCount at h
    obtain ⟨-, -, h⟩ := Exec.bind_ok h
    obtain ⟨-, -, h⟩ := Exec.bind_ok h
    obtain rfl := Except.ok.inj h
    simp only [setPhase_phase, if_neg hq, setSegment_phase]
  · obtain rfl := Except.ok.inj h
    simp only [subCount, setPhase_phase, if_neg hq, setSegment_phase]
  · obtain rfl := Except.ok.inj h
    unfold removeContext
    split <;> simp only [setPhase_phase, if_neg hq]

/-! ### The removal -/

/-- No process is inside a segment that is about to be removed. -/
def Deserted (s : State) : Prop := ∀ p g, s.phase p = .leaving g 0 → ∀ q, (s.phase q).inside ≠ some g

/-- What the callers would have to see to: when the last process counts itself out of a segment,
none is between its attach and its increment, and none attaches a segment between that
decrement and the removal. -/
structure Orderly (s : State) (a : Nat × Nat) : Prop where
  leave : ∀ g, s.phase a.1 = .counted g → (s.segment g).count = 1 →
    ∀ q, s.phase q ≠ .attached g ∧ s.phase q ≠ .ready g
  attach : s.phase a.1 = .outside → ∀ g ∈ s.named, ∀ q, s.phase q ≠ .leaving g 0

/-- The one process that is counted in. -/
theorem Inv.counted_unique {s : State} (h : Inv s) {g p q : Nat} (hc : (s.segment g).count = 1)
    (hp : s.phase p = .counted g) (hq : s.phase q = .counted g) : q = p := by
  obtain ⟨t, ht, -, hcard⟩ := h.count g
  exact Finset.card_le_one.mp (hcard ▸ hc).le q ((ht q).mpr hq) p ((ht p).mpr hp)

/-- The decrement of a process that is counted in gives 0 if it is the only one. -/
theorem Inv.last_iff {s : State} (h : Inv s) {g p : Nat} (hp : s.phase p = .counted g) :
    ((s.segment g).count + (2 ^ 32 - 1)) % 2 ^ 32 = 0 ↔ (s.segment g).count = 1 := by
  obtain ⟨t, ht, hsub, hcard⟩ := h.count g
  have hpos : 0 < t.card := Finset.card_pos.mpr ⟨p, (ht p).mpr hp⟩
  have hlt := Finset.card_le_card hsub
  rw [Finset.card_range] at hlt
  omega

theorem Deserted.setPhase {s : State} (h : Deserted s) {p : Nat} {f : Phase}
    (hin : ∀ g, f.inside = some g → ∀ q, q ≠ p → s.phase q ≠ .leaving g 0)
    (hout : ∀ g, f = .leaving g 0 → ∀ q, q ≠ p → (s.phase q).inside ≠ some g) : Deserted (s.setPhase p f) := by
  intro r g hr q
  rw [setPhase_phase] at hr ⊢
  split at hr
  · split
    · rw [hr]
      simp [Phase.inside]
    · next hq => exact hout g hr q hq
  · next hrp =>
    split
    · exact fun hq => hin g hq r hrp hr
    · exact h r g hr q

theorem Deserted.setSegment {s : State} (h : Deserted s) (g : Nat) (x : Segment) : Deserted (s.setSegment g x) := h

/-- A process that stays in its segment. -/
theorem Deserted.stay {s : State} (h : Deserted s) {p g : Nat} {f : Phase} (hp : (s.phase p).inside = some g)
    (hf : f.inside = some g) : Deserted (s.setPhase p f) := by
  refine h.setPhase (fun k hk q _ hq => ?_) fun k hk => ?_
  · obtain rfl : g = k := Option.some.inj (hf.symm.trans hk)
    exact h q g hq p hp
  · rw [hk] at hf
    cases hf

/-- **A step leaves nobody in a segment that is about to be removed** if it meets the condition,
and only then. -/
theorem Deserted.step_iff {s s' : State} {a : Nat × Nat} (h : Deserted s) (hi : Inv s) (hl : Legal s a)
    (hs : next s a.1 a.2 = .ok s') : Deserted s' ↔ Orderly s a := by
  have hother : ∀ {q f}, s.phase q = f → s.phase a.1 ≠ f → s'.phase q = f := fun {q f} hq hne => by
    rw [next_phase hs fun he => hne (he ▸ hq), hq]
  constructor
  · intro h'
    refine ⟨fun g hg hc q => ?_, fun ho g hg q hq => ?_⟩
    · have hlast : s'.phase a.1 = .leaving g 0 := by
        rw [next, hg] at hs
        obtain rfl := Except.ok.inj hs
        rw [subCount, setPhase_phase, if_pos rfl, (hi.last_iff hg).mpr hc]
      have hnone := h' _ g hlast q
      refine ⟨fun hq => hnone ?_, fun hq => hnone ?_⟩
      · rw [hother hq (by simp [hg])]
        rfl
      · rw [hother hq (by simp [hg])]
        rfl
    · have hnew : s'.phase a.1 = .attached g := by
        rw [next, ho] at hs
        obtain rfl := Except.ok.inj hs
        rw [mmapContext, hg, setPhase_phase, if_pos rfl]
      exact h' q g (hother hq (by simp [ho])) a.1 (by rw [hnew]; rfl)
  · rintro ⟨hleave, hattach⟩
    obtain ⟨p, m⟩ := a
    obtain ⟨-, hfresh⟩ := hl
    dsimp only at hs hleave hattach hfresh
    unfold next at hs
    split at hs
    · next hp =>
      obtain rfl := Except.ok.inj hs
      unfold mmapContext
      split
      · next g hg =>
        refine h.setPhase (fun k hk q _ => ?_) fun k hk => by cases hk
        obtain rfl : g = k := Option.some.inj hk
        exact hattach hp g hg q
      · next hnone =>
        -- nobody has the new segment
        refine (h.setSegment m .zero).setPhase (fun k hk q _ hq => ?_) fun k hk => by cases hk
        obtain rfl : m = k := Option.some.inj hk
        refine hfresh hp hnone q ?_
        rw [setSegment_phase] at hq
        rw [hq]
        rfl
    · next g hp =>
      obtain rfl := Except.ok.inj hs
      unfold initField
      split
      · exact h.stay (g := g) (by rw [hp]; rfl) rfl
      · exact (h.setSegment g _).stay (g := g) (by rw [setSegment_phase, hp]; rfl) rfl
    · next g hp =>
      unfold addCount at hs
      obtain ⟨-, -, hs⟩ := Exec.bind_ok hs
      obtain ⟨-, -, hs⟩ := Exec.bind_ok hs
      obtain rfl := Except.ok.inj hs
      exact (h.setSegment g _).stay (g := g) (by rw [setSegment_phase, hp]; rfl) rfl
    · next g hp =>
      obtain rfl := Except.ok.inj hs
      refine (h.setSegment g _).setPhase (fun k hk => by cases hk) fun k hk q hq hin => ?_
      obtain ⟨rfl, hzero⟩ := Phase.leaving.inj hk
      have hone := (hi.last_iff hp).mp hzero
      rw [setSegment_phase] at hin
      cases hph : s.phase q with
      | outside | leaving => simp [hph, Phase.inside] at hin
      | attached k =>
        obtain rfl : k = g := by simpa [hph, Phase.inside] using hin
        exact (hleave k hp hone q).1 hph
      | ready k =>
        obtain rfl : k = g := by simpa [hph, Phase.inside] using hin
        exact (hleave k hp hone q).2 hph
      | counted k =>
        obtain rfl : k = g := by simpa [hph, Phase.inside] using hin
        exact hq (hi.counted_unique hone hp hph)
    · next g n hp =>
      obtain rfl := Except.ok.inj hs
      have hgone : Deserted (s.setPhase p .outside) := h.setPhase (fun k hk => by cases hk) fun k hk => by cases hk
      unfold removeContext
      split <;> exact hgone

/-- The processes inside are in the segment that the key names. -/
def Shared (s : State) : Prop := ∀ p g, (s.phase p).inside = some g → s.named = some g

theorem Shared.setPhase {s : State} (h : Shared s) {p : Nat} {f : Phase}
    (hf : ∀ g, f.inside = some g → s.named = some g) : Shared (s.setPhase p f) := by
  intro q g hq
  rw [setPhase_phase] at hq
  split at hq
  · exact hf g hq
  · exact h q g hq

theorem Shared.setSegment {s : State} (h : Shared s) (g : Nat) (x : Segment) :
    Shared (s.setSegment g x) := h

theorem Shared.step {s s' : State} {a : Nat × Nat} (h : Shared s) (hi : Inv s) (hd : Deserted s)
    (hs : next s a.1 a.2 = .ok s') : Shared s' := by
  obtain ⟨p, m⟩ := a
  dsimp only at hs
  unfold next at hs
  split at hs
  · obtain rfl := Except.ok.inj hs
    unfold mmapContext
    split
    · next k hk =>
      refine h.setPhase fun g hg => ?_
      rw [hk]
      exact hg
    · next hk =>
      -- nobody is inside, since the key names nothing
      intro q g hq
      change (((s.setSegment m .zero).setPhase p (.attached m)).phase q).inside = some g at hq
      rw [setPhase_phase] at hq
      split at hq
      · exact hq
      · have := h q g hq
        rw [hk] at this
        cases this
  · next g hp =>
    obtain rfl := Except.ok.inj hs
    have hk := h p g (by rw [hp]; rfl)
    unfold initField
    split
    · refine h.setPhase fun k hk' => ?_
      obtain rfl : g = k := Option.some.inj hk'
      exact hk
    · refine (h.setSegment g _).setPhase fun k hk' => ?_
      obtain rfl : g = k := Option.some.inj hk'
      exact hk
  · next g hp =>
    unfold addCount at hs
    obtain ⟨-, -, hs⟩ := Exec.bind_ok hs
    obtain ⟨-, -, hs⟩ := Exec.bind_ok hs
    obtain rfl := Except.ok.inj hs
    refine (h.setSegment g _).setPhase fun k hk => ?_
    obtain rfl : g = k := Option.some.inj hk
    exact h p g (by rw [hp]; rfl)
  · obtain rfl := Except.ok.inj hs
    exact (h.setSegment _ _).setPhase fun k hk => by cases hk
  · next g n hp =>
    obtain rfl := Except.ok.inj hs
    unfold removeContext
    split
    · next hc =>
      obtain ⟨rfl, hkey⟩ := hc
      have hflag := hi.ready p g (.inr (.inr ⟨0, hp⟩))
      rw [(hi.flagged g hflag).1] at hkey
      have hnone := hd p g hp
      refine Shared.setPhase (fun q k hq => ?_) fun k hk => by cases hk
      have := h q k hq
      rw [hkey] at this
      exact absurd (this ▸ hq) (hnone q)
    · exact h.setPhase fun k hk => by cases hk

theorem orderly_reach {s : State} (h : contextMachine.Reach Orderly s) : Inv s ∧ Deserted s ∧ Shared s := by
  induction h with
  | start h =>
    obtain ⟨key, -, rfl⟩ := h
    have hd : Deserted ⟨key, none, fun _ => .zero, fun _ => .outside⟩ := fun p g hp => by cases hp
    have hs : Shared ⟨key, none, fun _ => .zero, fun _ => .outside⟩ := fun p g hp => by cases hp
    exact ⟨.start key, hd, hs⟩
  | step _ hl ha hs ih =>
    obtain ⟨hi, hd, hsh⟩ := ih
    exact ⟨hi.step hl hs, (hd.step_iff hi hl hs).mpr ha, hsh.step hi hd hs⟩

/-- **The context segment is removed** while no process is between its attach and its
decrement, and processes that are counted in share a segment, in every run in which no process
is on its way to the increment at a decrement to 0, and none attaches between such a
decrement and the removal. The first step that is otherwise leaves a process in a segment
that is about to be removed. -/
theorem shared_context {s : State} (h : contextMachine.Reach Orderly s) :
    (∀ p g, s.phase p = .leaving g 0 → ∀ q, (s.phase q).inside ≠ some g) ∧
    (∀ p q g k, s.phase p = .counted g → s.phase q = .counted k → g = k) ∧
    ∀ a s', Legal s a → next s a.1 a.2 = .ok s' →
      ((∀ p g, s'.phase p = .leaving g 0 → ∀ q, (s'.phase q).inside ≠ some g) ↔ Orderly s a) := by
  obtain ⟨hi, hd, hsh⟩ := orderly_reach h
  refine ⟨hd, fun p q g k hp hq => ?_, fun a s' hl hs => hd.step_iff hi hl hs⟩
  have hg := hsh p g (by rw [hp]; rfl)
  have hk := hsh q k (by rw [hq]; rfl)
  rw [hg] at hk
  exact Option.some.inj hk

/-! ### Runs of a few processes -/

def initState : State := ⟨5, none, fun _ => .zero, fun _ => .outside⟩

theorem initState_start : contextMachine.start initState := ⟨5, by decide, rfl⟩

/-- Steps of the processes in `l` that pass a test, with identifiers that are not in use. -/
def steps (l : List Nat) (ok : State → Nat × Nat → Bool) : State → List (Nat × Nat) → Option State
  | s, [] => some s
  | s, a :: as =>
    if (a.1 ∈ l ∧ ∀ q ∈ l, (s.phase q).segment ≠ some a.2) ∧ ok s a = true then
      match next s a.1 a.2 with
      | .ok s' => steps l ok s' as
      | .error _ => none
    else none

theorem reach_steps {l : List Nat} (hl : ∀ p ∈ l, p < 2 ^ 31) {allow : State → Nat × Nat → Prop}
    {ok : State → Nat × Nat → Bool}
    (hok : ∀ s a, (∀ q, q ∉ l → s.phase q = .outside) → ok s a = true → allow s a) {s s' : State}
    {as : List (Nat × Nat)} (h : contextMachine.Reach allow s) (ho : ∀ q, q ∉ l → s.phase q = .outside)
    (hs : steps l ok s as = some s') : contextMachine.Reach allow s' := by
  induction as generalizing s with
  | nil =>
    obtain rfl := Option.some.inj hs
    exact h
  | cons a as ih =>
    rw [steps] at hs
    split at hs
    · next hc =>
      obtain ⟨⟨hal, hfresh⟩, hadmit⟩ := hc
      split at hs
      · next s₁ hstep =>
        have hlegal : Legal s a := by
          refine ⟨hl _ hal, fun _ _ q => ?_⟩
          by_cases hq : q ∈ l
          · exact hfresh q hq
          · rw [ho q hq]
            simp [Phase.segment]
        refine ih (h.step hlegal (hok s a ho hadmit) hstep) (fun q hq => ?_) hs
        have hne : q ≠ a.1 := fun he => hq (he.symm ▸ hal)
        rw [next_phase hstep hne, ho q hq]
      · cases hs
    · cases hs

theorem exists_steps {l : List Nat} (hl : ∀ p ∈ l, p < 2 ^ 31) {allow : State → Nat × Nat → Prop}
    (ok : State → Nat × Nat → Bool)
    (hok : ∀ s a, (∀ q, q ∉ l → s.phase q = .outside) → ok s a = true → allow s a) (as : List (Nat × Nat))
    {p : State → Bool} (h : (steps l ok initState as).any p = true) :
    ∃ s, contextMachine.Reach allow s ∧ p s = true := by
  cases hs : steps l ok initState as with
  | none =>
    rw [hs] at h
    cases h
  | some s =>
    rw [hs] at h
    exact ⟨s, reach_steps hl hok (.start initState_start) (fun _ _ => rfl) hs, h⟩

/-- The condition of a step, for processes of a list. -/
def orderlyTest (l : List Nat) (s : State) (a : Nat × Nat) : Bool :=
  match s.phase a.1 with
  | .counted g => (s.segment g).count ≠ 1 || l.all fun q => s.phase q ≠ .attached g && s.phase q ≠ .ready g
  | .outside => s.named.all fun g => l.all fun q => s.phase q ≠ .leaving g 0
  | _ => true

theorem orderlyTest_orderly {l : List Nat} (s : State) (a : Nat × Nat) (ho : ∀ q, q ∉ l → s.phase q = .outside)
    (h : orderlyTest l s a = true) : Orderly s a := by
  refine ⟨fun g hg hc q => ?_, fun hout g hg q => ?_⟩
  · have hall : ∀ q ∈ l, ¬s.phase q = .attached g ∧ ¬s.phase q = .ready g := by
      simpa [orderlyTest, hg, hc] using h
    by_cases hq : q ∈ l
    · exact hall q hq
    · simp [ho q hq]
  · have hall : ∀ q ∈ l, ¬s.phase q = .leaving g 0 := by
      simpa [orderlyTest, hout, Option.mem_def.mp hg] using h
    by_cases hq : q ∈ l
    · exact hall q hq
    · simp [ho q hq]

/-- Two processes start and exit, up to the removal; two start, one of them after the other has exited
and removed its segment. -/
theorem shared_context_test :
    (∃ s, contextMachine.Reach Orderly s ∧ s.phase 0 = .leaving 7 0 ∧ ∀ q, (s.phase q).inside ≠ some 7) ∧
    ∃ s, contextMachine.Reach Orderly s ∧ s.phase 0 = .counted 9 ∧ s.phase 1 = .counted 9 ∧
      ∀ q k, s.phase q = .counted k → 9 = k := by
  obtain ⟨s, hs, h⟩ := exists_steps (l := [0, 1]) (by decide) (orderlyTest [0, 1]) orderlyTest_orderly
    [(0, 7), (1, 8), (1, 8), (0, 8), (0, 8), (1, 8), (1, 8), (1, 8), (0, 8)]
    (p := fun s => s.phase 0 = .leaving 7 0) (by decide)
  obtain ⟨u, hu, h'⟩ := exists_steps (l := [0, 1]) (by decide) (orderlyTest [0, 1]) orderlyTest_orderly
    [(0, 7), (0, 8), (0, 8), (0, 8), (0, 8), (0, 9), (1, 8), (1, 8), (0, 8), (0, 8), (1, 8)]
    (p := fun s => s.phase 0 = .counted 9 ∧ s.phase 1 = .counted 9) (by decide)
  have h := of_decide_eq_true h
  have h' := of_decide_eq_true h'
  exact ⟨⟨s, hs, h, (shared_context hs).1 0 7 h⟩, u, hu, h'.1, h'.2,
    fun q k hq => (shared_context hu).2.1 0 q 9 k h'.1 hq⟩

/-- Process 1 attaches between the decrement of process 0 and its removal; process 2 then
finds no segment, and the two are counted into different ones. -/
theorem context_split :
    (∃ s, contextMachine.Reach (fun _ _ => True) s ∧ s.phase 0 = .leaving 7 0 ∧
      s.phase 1 = .attached 7) ∧
    ∃ s, contextMachine.Reach (fun _ _ => True) s ∧ s.phase 1 = .counted 7 ∧ s.phase 2 = .counted 8 := by
  obtain ⟨s, hs, h⟩ := exists_steps (l := [0, 1, 2]) (by decide)
    (fun _ _ => true) (fun _ _ _ _ => trivial)
    [(0, 7), (0, 8), (0, 8), (0, 8), (1, 8)]
    (p := fun s => s.phase 0 = .leaving 7 0 ∧ s.phase 1 = .attached 7) (by decide)
  obtain ⟨u, hu, h'⟩ := exists_steps (l := [0, 1, 2]) (by decide)
    (fun _ _ => true) (fun _ _ _ _ => trivial)
    [(0, 7), (0, 8), (0, 8), (0, 8), (1, 8), (0, 8), (1, 8), (1, 8), (2, 8), (2, 9), (2, 9)]
    (p := fun s => s.phase 1 = .counted 7 ∧ s.phase 2 = .counted 8) (by decide)
  exact ⟨⟨s, hs, of_decide_eq_true h⟩, u, hu, of_decide_eq_true h'⟩

end ShmMalloc.Share
