import Mathlib.Logic.Function.Iterate
import ShmMalloc.Library.Mutex
import ShmMalloc.Process.Share

/-! `init_shared_context` under the file lock, statement by statement.

A process that creates the context reads the flag and sets the segment up between
`shm_lock_file` and `shm_unlock_file`; its attach, its count and its exit take no lock.
A process that does not create the context takes no lock at all, and counts itself in
as soon as it finds the flag. -/
namespace ShmMalloc.Share
open Library

/-- The segment that a process has attached. -/
def State.context (s : State) (p : Nat) : Nat := (s.phase p).segment.getD 0

/-- What a process does in `shm_init` and when it exits; a segment that is created is `m`. -/
inductive Act where
  | attach (p m : Nat)
  | setUp (p : Nat)
  | count (p : Nat)
  /-- The count of a process that does not create the context. -/
  | join (p : Nat)
  | leave (p : Nat)
  | remove (p : Nat)
  deriving DecidableEq, Repr

def Act.pid : Act → Nat
  | attach p _ => p
  | setUp p => p
  | count p => p
  | join p => p
  | leave p => p
  | remove p => p

def Act.step (s : State) : Act → Exec State
  | attach p m => .ok (mmapContext s p m)
  | setUp p => .ok (initField s p (s.context p))
  | count p => addCount s p (s.context p)
  | join p => addCount s p (s.context p)
  | leave p => .ok (subCount s p (s.context p))
  | remove p =>
    match s.phase p with
    | .leaving g n => .ok (removeContext s p g n)
    | _ => .ok s

/-- The phase of the process is the one before the action. -/
def Act.Due (s : State) : Act → Prop
  | attach p m => s.phase p = .outside ∧ (s.named = none → ∀ q, (s.phase q).segment ≠ some m)
  | setUp p => ∃ g, s.phase p = .attached g
  | count p => ∃ g, s.phase p = .ready g
  | join p => ∃ g, s.phase p = .attached g
  | leave p => ∃ g, s.phase p = .counted g
  | remove p => ∃ g n, s.phase p = .leaving g n

def setUpMachine : Machine State Act Fault where
  start s := ∃ key > 0, s = ⟨key, none, fun _ => .zero, fun _ => .outside⟩
  legal s a := a.pid < 2 ^ 31 ∧ a.Due s
  step := Act.step

/-- Every process creates the context, if there is none. -/
def Creating (_ : State) : Act → Prop
  | .join _ => False
  | _ => True

/-! ### Inside the file lock -/

abbrev SetUpProg := Prog State Fault Nat

def readProg (f : State → Nat) (k : Nat → SetUpProg) : SetUpProg := .step (fun s => .ok (s, f s)) k

/-- The statements of `init_shm_shared_field` that write the fields of the segment here. -/
def fieldWrites (g : Nat) : List (Int → Segment → Segment) :=
  [fun _ _ => .zero, fun _ x => {x with initFlag := true}, fun key x => {x with key := key},
    fun _ x => {x with count := 0}, fun _ x => {x with shmid := g}]

def writeProg (g : Nat) : List (Int → Segment → Segment) → SetUpProg → SetUpProg
  | [], k => k
  | f :: fs, k => .step (fun s => .ok (s.setSegment g (f s.key (s.segment g)), 0)) fun _ => writeProg g fs k

/-- `shm_unlock_file`. -/
def readyProg (p g : Nat) : SetUpProg := .step (fun s => .ok (s.setPhase p (.ready g), 0)) fun _ => .unlock (.ret 0)

/-- `if(context->init_flag != SHM_INIT_FLAG) init_shm_shared_field(context, key, shmid);` -/
def fieldProg (p g : Nat) : SetUpProg :=
  readProg (fun s => (s.segment g).initFlag.toNat) fun flag =>
  if flag = 0 then writeProg g (fieldWrites g) (readyProg p g) else readyProg p g

def setUpProg (p : Nat) : SetUpProg := .lock (readProg (·.context p) (fieldProg p))

theorem writeProg_inside {g : Nat} {k : SetUpProg} (fs : List (Int → Segment → Segment)) (hk : k.Inside) :
    (writeProg g fs k).Inside := by
  induction fs with
  | nil => exact hk
  | cons f fs ih => exact fun _ => ih

theorem readyProg_inside (p g : Nat) : (readyProg p g).Inside := fun _ => ⟨0, rfl⟩

theorem setUpProg_outside (p : Nat) : (setUpProg p).Outside := by
  intro g flag
  dsimp only
  split
  · exact writeProg_inside _ (readyProg_inside p g)
  · exact readyProg_inside p g

@[simp] theorem setSegment_setSegment (s : State) (g : Nat) (x y : Segment) :
    (s.setSegment g x).setSegment g y = s.setSegment g y := by
  simp [State.setSegment]

theorem setUpProg_run {p : Nat} (s : State) : (readProg (·.context p) (fieldProg p)).run s = .ok (initField s p (s.context p)) := by
  show (fieldProg p (s.context p)).run s = _
  cases hflag : (s.segment (s.context p)).initFlag with
  | true => simp [fieldProg, readProg, readyProg, Prog.run, initField, hflag]
  | false => simp [fieldProg, readProg, readyProg, fieldWrites, writeProg, Prog.run, initField, hflag, Segment.zero, setSegment_segment]

/-- Only the set-up takes the file lock. -/
def fileLocking : Locking setUpMachine Nat Nat where
  who := Act.pid
  prog
    | .setUp p => some (setUpProg p)
    | _ => none
  passes _ := True
  -- no statement of a set-up fails
  ends _ s := s
  outside a k h := by
    cases a with
    | setUp p =>
      obtain rfl := Option.some.inj h
      exact setUpProg_outside p
    | _ => cases h
  run a k s h := by
    cases a with
    | setUp p =>
      obtain rfl := Prog.lock.inj (Option.some.inj h)
      exact setUpProg_run s
    | _ => cases h

/-! ### Other processes -/

section
variable {s s' s₀ t : State} {p g : Nat} {b : Act} {f : Phase} {x : Segment}

theorem context_setPhase {q : Nat} (h : p ≠ q) : (s.setPhase p f).context q = s.context q := by
  rw [State.context, setPhase_phase, if_neg h.symm, State.context]

/-- The step of a process and the phase of another one. -/
theorem step_setPhase (h : p ≠ b.pid) : b.step (s.setPhase p f) = (b.step s).map (·.setPhase p f) := by
  cases b with
  | attach q m =>
    have hq : p ≠ q := h
    simp only [Act.step, Except.map, mmapContext, setPhase_named]
    split <;> simp only [State.setPhase, State.setSegment, Function.update_comm hq]
  | setUp q =>
    have hq : p ≠ q := h
    simp only [Act.step, Except.map, context_setPhase hq, initField, setPhase_segment]
    cases (s.segment (s.context q)).initFlag <;>
      simp [State.setPhase, State.setSegment, Function.update_comm hq]
  | count q | join q =>
    have hq : p ≠ q := h
    simp only [Act.step, context_setPhase hq, addCount, setPhase_segment]
    cases (s.segment (s.context q)).initFlag with
    | false => rfl
    | true =>
      rw [require_true, Exec.ok_bind, Exec.ok_bind, setPhase_key]
      cases decide ((s.segment (s.context q)).key = s.key) with
      | false => rfl
      | true =>
        simp only [require_true, Exec.ok_bind, Exec.pure_eq, Except.map, State.setPhase, State.setSegment,
          Function.update_comm hq]
  | leave q =>
    have hq : p ≠ q := h
    simp only [Act.step, Except.map, context_setPhase hq, subCount, setPhase_segment]
    simp only [State.setPhase, State.setSegment, Function.update_comm hq]
  | remove q =>
    have hq : p ≠ q := h
    have hphase : (s.setPhase p f).phase q = s.phase q := Function.update_of_ne hq.symm ..
    simp only [Act.step, hphase]
    split
    · next g n _ =>
      simp only [Except.map, removeContext, setPhase_named, setPhase_segment]
      by_cases hkey : n = 0 ∧ s.named = some (s.segment g).shmid <;>
        simp [hkey, State.setPhase, Function.update_comm hq]
    · rfl

/-- The action does nothing to a segment. -/
def Apart (s : State) (g : Nat) : Act → Prop
  | .attach _ m => s.named = none → g ≠ m
  | a => g ≠ s.context a.pid

theorem step_setSegment (h : Apart s g b) : b.step (s.setSegment g x) = (b.step s).map (·.setSegment g x) := by
  cases b with
  | attach q m =>
    simp only [Act.step, Except.map, mmapContext, setSegment_named]
    split
    · rfl
    · next hk => simp only [State.setPhase, State.setSegment, Function.update_comm (h hk)]
  | setUp q =>
    have hne : g ≠ s.context q := h
    have hx : (s.setSegment g x).segment (s.context q) = s.segment (s.context q) := Function.update_of_ne (Ne.symm hne) ..
    have hc : (s.setSegment g x).context q = s.context q := rfl
    simp only [Act.step, Except.map, hc, initField, hx]
    cases (s.segment (s.context q)).initFlag <;>
      simp [State.setPhase, State.setSegment, Function.update_comm hne]
  | count q | join q =>
    have hne : g ≠ s.context q := h
    have hx : (s.setSegment g x).segment (s.context q) = s.segment (s.context q) := Function.update_of_ne (Ne.symm hne) ..
    have hc : (s.setSegment g x).context q = s.context q := rfl
    simp only [Act.step, hc, addCount, hx]
    cases (s.segment (s.context q)).initFlag with
    | false => rfl
    | true =>
      rw [require_true, Exec.ok_bind, Exec.ok_bind, setSegment_key]
      cases decide ((s.segment (s.context q)).key = s.key) with
      | false => rfl
      | true =>
        simp only [require_true, Exec.ok_bind, Exec.pure_eq, Except.map, State.setPhase, State.setSegment,
          Function.update_comm hne]
  | leave q =>
    have hne : g ≠ s.context q := h
    have hx : (s.setSegment g x).segment (s.context q) = s.segment (s.context q) := Function.update_of_ne (Ne.symm hne) ..
    have hc : (s.setSegment g x).context q = s.context q := rfl
    simp only [Act.step, Except.map, hc, subCount, hx]
    simp only [State.setPhase, State.setSegment, Function.update_comm hne]
  | remove q =>
    have hne : g ≠ s.context q := h
    have hx : (s.setSegment g x).segment (s.context q) = s.segment (s.context q) := Function.update_of_ne (Ne.symm hne) ..
    simp only [Act.step, setSegment_phase]
    split
    · next k n hq =>
      have hk : s.context q = k := by rw [State.context, hq]; rfl
      rw [hk] at hx
      simp only [Except.map, removeContext, setSegment_named, hx]
      by_cases hkey : n = 0 ∧ s.named = some (s.segment k).shmid <;>
        simp [hkey, State.setPhase, State.setSegment]
    · rfl

theorem phase_step (h : p ≠ b.pid) (hs : b.step s = .ok s') : s'.phase p = s.phase p := by
  have he : b.step s = _ := (congrArg b.step (show s = s.setPhase p (s.phase p) by simp [State.setPhase])).trans
    (step_setPhase h)
  rw [hs] at he
  have hs' := Except.ok.inj he
  rw [hs', setPhase_phase, if_pos rfl]

theorem segment_step (h : Apart s g b) (hs : b.step s = .ok s') : s'.segment g = s.segment g := by
  have he : b.step s = _ := (congrArg b.step (show s = s.setSegment g (s.segment g) by simp [State.setSegment])).trans
    (step_setSegment h)
  rw [hs] at he
  have hs' := Except.ok.inj he
  rw [hs', setSegment_segment, if_pos rfl]

/-- What is due does not change with the phase of another process in the same segment. -/
theorem due_setPhase (h : p ≠ b.pid) (hf : f.segment = (s.phase p).segment) : b.Due (s.setPhase p f) ↔ b.Due s := by
  have hq : (s.setPhase p f).phase b.pid = s.phase b.pid := Function.update_of_ne (Ne.symm h) ..
  have hsegment : ∀ q, ((s.setPhase p f).phase q).segment = (s.phase q).segment := fun q => by
    rw [setPhase_phase]
    split
    · next he => rw [hf, he]
    · rfl
  cases b <;> simp only [Act.Due, Act.pid] at hq ⊢ <;> simp only [hq, hsegment, setPhase_named]

/-! ### The set-up that is under way -/

/-- What is left of a set-up that began in `s₀`, and what it has done. -/
inductive Done (s₀ : State) (p g : Nat) : SetUpProg → (State → State) → Prop where
  | first : Done s₀ p g (readProg (·.context p) (fieldProg p)) id
  | found : Done s₀ p g (fieldProg p g) id
  | flagged (h : (s₀.segment g).initFlag = true) : Done s₀ p g (readyProg p g) id
  | writes (h : (s₀.segment g).initFlag = false) (fs : List (Int → Segment → Segment)) (x : Segment)
    (hfs : ∀ f ∈ fs, ∀ key y, y.count = 0 → (f key y).count = 0) (hx : (s₀.segment g).count = 0 → x.count = 0)
    (hlast : fs.foldl (fun y f => f s₀.key y) x = ⟨true, s₀.key, g, 0⟩) :
    Done s₀ p g (writeProg g fs (readyProg p g)) (·.setSegment g x)
  | kept (h : (s₀.segment g).initFlag = true) : Done s₀ p g (.unlock (.ret 0)) (·.setPhase p (.ready g))
  | written (h : (s₀.segment g).initFlag = false) :
    Done s₀ p g (.unlock (.ret 0)) fun s => (s.setSegment g ⟨true, s₀.key, g, 0⟩).setPhase p (.ready g)

/-- A state in which the same set-up does the same. -/
structure Alike (s₀ t : State) (p : Nat) : Prop where
  key : t.key = s₀.key
  phase : t.phase p = s₀.phase p
  flag : (t.segment (s₀.context p)).initFlag = (s₀.segment (s₀.context p)).initFlag
  fresh : (s₀.segment (s₀.context p)).initFlag = false → t.segment (s₀.context p) = s₀.segment (s₀.context p)

theorem setSegment_self (s : State) (g : Nat) : s.setSegment g (s.segment g) = s := by simp [State.setSegment]

theorem mid_done {k : SetUpProg} (h : fileLocking.Mid s₀ (.setUp p) k s) :
    ∃ U, Done s₀ p (s₀.context p) k U ∧ s = U s₀ ∧ ∀ t, Alike s₀ t p → fileLocking.Mid t (.setUp p) k (U t) := by
  induction h with
  | start h =>
    obtain rfl := Prog.lock.inj (Option.some.inj h)
    exact ⟨id, .first, rfl, fun t _ => .start rfl⟩
  | @step f k s s' v _ hf ih =>
    obtain ⟨U, hd, rfl, hmid⟩ := ih
    generalize hk : Prog.step f k = k₁ at hd
    cases hd with
    | first =>
      obtain ⟨rfl, rfl⟩ := Prog.step.inj hk
      obtain ⟨rfl, rfl⟩ := Prod.mk.inj (Except.ok.inj hf)
      refine ⟨id, .found, rfl, fun t ht => ?_⟩
      have hc : t.context p = s₀.context p := by rw [State.context, ht.phase, State.context]
      have hnext := (hmid t ht).step (v := t.context p) rfl
      rw [hc] at hnext
      exact hnext
    | found =>
      obtain ⟨rfl, rfl⟩ := Prog.step.inj hk
      obtain ⟨rfl, rfl⟩ := Prod.mk.inj (Except.ok.inj hf)
      have hnext := fun t ht => (hmid t ht).step (v := (t.segment (s₀.context p)).initFlag.toNat) rfl
      cases hflag : (s₀.segment (s₀.context p)).initFlag with
      | true =>
        refine ⟨id, ?_, rfl, fun t ht => ?_⟩
        · simp only [id, hflag]
          exact .flagged hflag
        · have hgo := hnext t ht
          rw [ht.flag] at hgo
          exact hgo
      | false =>
        refine ⟨(·.setSegment _ (s₀.segment (s₀.context p))), ?_, (setSegment_self ..).symm, fun t ht => ?_⟩
        · simp only [id, hflag]
          exact .writes hflag _ _ (by simp [fieldWrites, Segment.zero]) id rfl
        · have hgo := hnext t ht
          rw [ht.flag] at hgo
          have hself : t.setSegment (s₀.context p) (s₀.segment (s₀.context p)) = t := by
            rw [← ht.fresh hflag, setSegment_self]
          dsimp only
          rw [hself]
          exact hgo
    | flagged h =>
      obtain ⟨rfl, rfl⟩ := Prog.step.inj hk
      obtain ⟨rfl, rfl⟩ := Prod.mk.inj (Except.ok.inj hf)
      exact ⟨_, .kept h, rfl, fun t ht => (hmid t ht).step rfl⟩
    | writes h fs x hfs hx hlast =>
      cases fs with
      | nil =>
        obtain ⟨rfl, rfl⟩ := Prog.step.inj hk
        obtain ⟨rfl, rfl⟩ := Prod.mk.inj (Except.ok.inj hf)
        obtain rfl : x = _ := hlast
        exact ⟨_, .written h, rfl, fun t ht => (hmid t ht).step rfl⟩
      | cons f fs =>
        obtain ⟨rfl, rfl⟩ := Prog.step.inj hk
        obtain ⟨rfl, rfl⟩ := Prod.mk.inj (Except.ok.inj hf)
        have hself : ∀ t : State, (t.setSegment (s₀.context p) x).segment (s₀.context p) = x := fun t => by
          rw [setSegment_segment, if_pos rfl]
        have hfs' : ∀ f' ∈ fs, ∀ key y, y.count = 0 → (f' key y).count = 0 := fun f' hf' =>
          hfs f' (List.mem_cons_of_mem _ hf')
        refine ⟨(·.setSegment _ (f s₀.key x)), .writes h fs _ hfs' (fun h₀ => hfs f List.mem_cons_self _ _ (hx h₀)) hlast,
          ?_, fun t ht => ?_⟩
        · rw [hself, setSegment_setSegment, setSegment_key]
        · have hgo := (hmid t ht).step rfl
          rw [hself, setSegment_setSegment, setSegment_key, ht.key] at hgo
          exact hgo
    | kept h => cases hk
    | written h => cases hk

theorem context_of {g : Nat} (h : (s.phase p).segment = some g) : s.context p = g := by rw [State.context, h]; rfl

/-- The steps of processes that create are those of `contextMachine`. -/
theorem context_reach (h : setUpMachine.Reach Creating s) : contextMachine.Reach (fun _ _ => True) s := by
  induction h with
  | start h => exact .start h
  | @step s s' a _ hl ha hs ih =>
    obtain ⟨hp, hdue⟩ := hl
    have hs' : a.step s = .ok s' := hs
    cases a with
    | attach p m =>
      obtain ⟨hout, hfresh⟩ := hdue
      refine ih.step (a := (p, m)) ⟨hp, fun _ => hfresh⟩ trivial ?_
      show next s p m = _
      simp only [next, hout]
      exact hs'
    | setUp p =>
      obtain ⟨g, hg⟩ := hdue
      refine ih.step (a := (p, 0)) ⟨hp, fun ho => absurd (hg.symm.trans ho) (by simp)⟩ trivial ?_
      show next s p 0 = _
      rw [Act.step, context_of (g := g) (by rw [hg]; rfl)] at hs'
      simp only [next, hg]
      exact hs'
    | count p =>
      obtain ⟨g, hg⟩ := hdue
      refine ih.step (a := (p, 0)) ⟨hp, fun ho => absurd (hg.symm.trans ho) (by simp)⟩ trivial ?_
      show next s p 0 = _
      rw [Act.step, context_of (g := g) (by rw [hg]; rfl)] at hs'
      simp only [next, hg]
      exact hs'
    | join p => exact ha.elim
    | leave p =>
      obtain ⟨g, hg⟩ := hdue
      refine ih.step (a := (p, 0)) ⟨hp, fun ho => absurd (hg.symm.trans ho) (by simp)⟩ trivial ?_
      show next s p 0 = _
      rw [Act.step, context_of (g := g) (by rw [hg]; rfl)] at hs'
      simp only [next, hg]
      exact hs'
    | remove p =>
      obtain ⟨g, n, hg⟩ := hdue
      refine ih.step (a := (p, 0)) ⟨hp, fun ho => absurd (hg.symm.trans ho) (by simp)⟩ trivial ?_
      show next s p 0 = _
      simp only [Act.step, hg] at hs'
      simp only [next, hg]
      exact hs'

/-- While a segment is being set up, only the process that does so is about it. -/
theorem Inv.apart (h : Inv s) (hp : (s.phase p).segment = some g) (hg : (s.segment g).initFlag = false)
    (hprog : fileLocking.prog b = none) (hb : b.Due s) (ha : Creating s b) : Apart s g b := by
  have hready : ∀ q k, (s.phase q = .ready k ∨ s.phase q = .counted k ∨ ∃ n, s.phase q = .leaving k n) →
      g ≠ s.context q := fun q k hq => by
    have hk : s.context q = k := by
      rcases hq with hq | hq | ⟨n, hq⟩ <;> rw [State.context, hq] <;> rfl
    rintro rfl
    exact absurd ((hk ▸ h.ready q k hq).symm.trans hg) (by simp)
  cases b with
  | attach q m => exact fun hk he => hb.2 hk p (he ▸ hp)
  | setUp q => cases hprog
  | join q => exact ha.elim
  | count q =>
    obtain ⟨k, hk⟩ := hb
    exact hready q k (.inl hk)
  | leave q =>
    obtain ⟨k, hk⟩ := hb
    exact hready q k (.inr (.inl hk))
  | remove q =>
    obtain ⟨k, n, hk⟩ := hb
    exact hready q k (.inr (.inr ⟨n, hk⟩))

/-- No step of another process takes the flag away. -/
theorem flag_step (hp : (s.phase p).segment = some g) (hb : b.Due s) (hs : b.step s = .ok s')
    (hg : (s.segment g).initFlag = true) : (s'.segment g).initFlag = true := by
  have hset : ∀ k x, ((s.segment k).initFlag = true → x.initFlag = true) →
      ((s.setSegment k x).segment g).initFlag = true := fun k x hx => by
    rw [setSegment_segment]
    split
    · next he => exact hx (he ▸ hg)
    · exact hg
  cases b with
  | attach q m =>
    have hapart : Apart s g (.attach q m) := fun hk he => hb.2 hk p (he ▸ hp)
    rwa [segment_step hapart hs]
  | setUp q =>
    obtain rfl := Except.ok.inj hs
    show ((if _ then s else _ : State).segment g).initFlag = true
    split
    · exact hg
    · exact hset _ _ fun _ => rfl
  | count q | join q =>
    obtain ⟨-, -, hs⟩ := Exec.bind_ok hs
    obtain ⟨-, -, hs⟩ := Exec.bind_ok hs
    obtain rfl := Except.ok.inj hs
    exact hset _ _ fun h => h
  | leave q =>
    obtain rfl := Except.ok.inj hs
    exact hset _ _ fun h => h
  | remove q =>
    obtain ⟨k, n, hk⟩ := hb
    simp only [Act.step, hk, removeContext] at hs
    obtain rfl := Except.ok.inj hs
    rw [setPhase_segment]
    split <;> exact hg

/-- All processes have the key of the path. -/
theorem key_step (hs : b.step s = .ok s') : s'.key = s.key := by
  cases b with
  | attach q m =>
    obtain rfl := Except.ok.inj hs
    unfold mmapContext
    split <;> rfl
  | setUp q =>
    obtain rfl := Except.ok.inj hs
    unfold initField
    split <;> rfl
  | count q | join q =>
    obtain ⟨-, -, hs⟩ := Exec.bind_ok hs
    obtain ⟨-, -, hs⟩ := Exec.bind_ok hs
    obtain rfl := Except.ok.inj hs
    rfl
  | leave q =>
    obtain rfl := Except.ok.inj hs
    rfl
  | remove q =>
    simp only [Act.step] at hs
    split at hs
    · obtain rfl := Except.ok.inj hs
      unfold removeContext
      split <;> rfl
    · obtain rfl := Except.ok.inj hs
      rfl

theorem Inv.alike (h : Inv s) (hp : (s.phase p).segment = some g) (hne : p ≠ b.pid)
    (hprog : fileLocking.prog b = none) (hb : b.Due s) (ha : Creating s b) (hs : b.step s = .ok s') : Alike s s' p := by
  rw [← context_of hp] at hp
  have hfresh : (s.segment (s.context p)).initFlag = false →
      s'.segment (s.context p) = s.segment (s.context p) := fun hg => segment_step (h.apart hp hg hprog hb ha) hs
  refine ⟨key_step hs, phase_step hne hs, ?_, hfresh⟩
  cases hg : (s.segment (s.context p)).initFlag with
  | false => rw [hfresh hg, hg]
  | true => exact flag_step hp hb hs hg

theorem map_ok {x : Exec State} {F : State → State} (h : x.map F = .ok s') : ∃ s₁, x = .ok s₁ ∧ s' = F s₁ := by
  cases x with
  | error e => cases h
  | ok s₁ => exact ⟨s₁, rfl, (Except.ok.inj h).symm⟩

/-- What another process does during a set-up, it does in the same way before it. -/
theorem Done.before {U : State → State} {k : SetUpProg} (hd : Done s₀ p g k U) (h : Inv s₀)
    (hp : s₀.phase p = .attached g) (hne : p ≠ b.pid) (hprog : fileLocking.prog b = none) (ha : Creating s₀ b)
    (hb : b.Due (U s₀)) (hs : b.step (U s₀) = .ok s') : ∃ s₁, b.Due s₀ ∧ b.step s₀ = .ok s₁ ∧ s' = U s₁ := by
  have hg : (s₀.phase p).segment = some g := by rw [hp]; rfl
  cases hd with
  | first | found | flagged => exact ⟨s', hb, hs, rfl⟩
  | writes hflag fs x _ _ _ =>
    have hb₀ : b.Due s₀ := by cases b <;> exact hb
    have hs₀ := hs
    rw [step_setSegment (h.apart hg hflag hprog hb₀ ha)] at hs₀
    obtain ⟨s₁, hs₁, he⟩ := map_ok hs₀
    exact ⟨s₁, hb₀, hs₁, he⟩
  | kept hflag =>
    rw [step_setPhase hne] at hs
    obtain ⟨s₁, hs₁, he⟩ := map_ok hs
    exact ⟨s₁, (due_setPhase (f := .ready g) hne hg.symm).mp hb, hs₁, he⟩
  | written hflag =>
    have hb₁ : b.Due (s₀.setSegment g ⟨true, s₀.key, g, 0⟩) :=
      (due_setPhase (s := s₀.setSegment g _) (f := .ready g) hne hg.symm).mp hb
    have hb₀ : b.Due s₀ := by cases b <;> exact hb₁
    rw [step_setPhase hne, step_setSegment (h.apart hg hflag hprog hb₀ ha)] at hs
    obtain ⟨s₂, hs₂, he⟩ := map_ok hs
    obtain ⟨s₁, hs₁, rfl⟩ := map_ok hs₂
    exact ⟨s₁, hb₀, hs₁, he⟩

theorem fileLocking_moves : fileLocking.Moves Creating := by
  rintro s₀ a k s b s' hs₀ hla - hmid hprog - hne ⟨hlt, hb⟩ hab hs
  obtain ⟨k₀, hk₀⟩ := hmid.prog
  cases a with
  | setUp p =>
    obtain ⟨hpid, g, hg⟩ := hla
    have hne' : p ≠ b.pid := fun he => hne he.symm
    have hseg : (s₀.phase p).segment = some g := by rw [hg]; rfl
    have hinv := inv_reach (context_reach hs₀)
    obtain ⟨U, hd, rfl, hreplay⟩ := mid_done hmid
    rw [context_of hseg] at hd
    obtain ⟨s₁, hb₀, hs₁, rfl⟩ := hd.before hinv hg hne' hprog hab hb hs
    refine ⟨s₁, ⟨hlt, hb₀⟩, hab, hs₁, ⟨hpid, g, (phase_step hne' hs₁).trans hg⟩, trivial, ?_, fun e he => absurd he (by simp [setUpMachine, Act.step])⟩
    exact hreplay s₁ (hinv.alike hseg hne' hprog hb₀ hab hs₁)
  | _ => cases hk₀

/-! ### Runs -/

abbrev SetUpThreads := Threads State Act Fault Nat Nat

/-- The counts are right, and a process that is about to count itself in finds all fields. -/
structure Right (s : State) : Prop where
  count : ∀ g, ∃ t : Finset Nat, (∀ p, p ∈ t ↔ s.phase p = .counted g) ∧ (s.segment g).count = t.card
  ready : ∀ p g, s.phase p = .ready g →
    (s.segment g).initFlag = true ∧ (s.segment g).shmid = g ∧ (s.segment g).key = s.key

theorem Inv.right (h : Inv s) : Right s where
  count g := by
    obtain ⟨t, ht, -, hcard⟩ := h.count g
    exact ⟨t, ht, hcard⟩
  ready p g hp := ⟨h.ready p g (.inl hp), h.flagged g (h.ready p g (.inl hp))⟩

/-- So it is during a set-up. -/
theorem Done.right {U : State → State} {k : SetUpProg} (hd : Done s₀ p g k U) (h : Inv s₀) (hlt : p < 2 ^ 31)
    (hp : s₀.phase p = .attached g) : Right (U s₀) := by
  have hlast : Inv (initField s₀ p g) := by
    refine h.step (a := (p, 0)) ⟨hlt, fun ho => absurd (hp.symm.trans ho) (by simp)⟩ ?_
    simp only [next, hp]
  cases hd with
  | first | found | flagged => exact h.right
  | kept hflag =>
    simp only [initField, hflag, if_true] at hlast
    exact hlast.right
  | written hflag =>
    simp only [initField, hflag] at hlast
    exact hlast.right
  | writes hflag fs x hfs hx _ =>
    have hnone : ∀ q, s₀.phase q ≠ .ready g ∧ s₀.phase q ≠ .counted g := fun q =>
      ⟨fun hq => absurd ((h.ready q g (.inl hq)).symm.trans hflag) (by simp),
        fun hq => absurd ((h.ready q g (.inr (.inl hq))).symm.trans hflag) (by simp)⟩
    have hzero := h.not_counted.mpr fun q => (hnone q).2
    refine ⟨fun k => ?_, fun q k hq => ?_⟩
    · rw [setSegment_segment]
      split
      · next he =>
        subst he
        exact ⟨∅, fun q => iff_of_false (by simp) (hnone q).2, hx hzero⟩
      · exact h.right.count k
    · have hne : k ≠ g := fun he => (hnone q).1 (he ▸ hq)
      rw [setSegment_segment, if_neg hne]
      exact h.right.ready q k hq

end

/-- **The file lock makes the set-up atomic** for processes that create the context, however their statements
interleave: only its owner sets a segment up; whenever it is free, `contextMachine` reaches the state; and at all
times the counts are right, and no process that is about to count itself in fails its assertions. -/
theorem set_up_serialized {c : SetUpThreads} (h : (fileLocking.machine Creating).Reach (fun _ _ => True) c) :
    (∀ p, c.owner ≠ some p → fileLocking.ThreadOutside p (c.thread p)) ∧
    (c.owner = none → contextMachine.Reach (fun _ _ => True) c.shared) ∧
    (∀ g, ∃ t : Finset Nat, (∀ p, p ∈ t ↔ c.shared.phase p = .counted g) ∧ (c.shared.segment g).count = t.card) ∧
    ∀ p, (Act.count p).Due c.shared → ∃ s, (Act.count p).step c.shared = .ok s := by
  have hser := Locking.serial_reach fileLocking_moves h
  have hright : Right c.shared := by
    cases howner : c.owner with
    | none => exact (inv_reach (context_reach (hser.free howner))).right
    | some p =>
      obtain ⟨s₀, a, hin⟩ := hser.held p howner
      obtain ⟨k₀, hk₀⟩ := hin.locks
      cases a with
      | setUp q =>
        obtain ⟨hlt, g, hg⟩ := hin.legal
        obtain ⟨k, hmid, -⟩ := hin.thread.resolve_right fun ⟨e, _, he⟩ => by cases he
        obtain ⟨U, hd, he, -⟩ := mid_done hmid
        rw [context_of (g := g) (by rw [hg]; rfl)] at hd
        rw [he]
        exact hd.right (inv_reach (context_reach hin.reach)) hlt hg
      | _ => cases hk₀
  refine ⟨hser.outside, fun hfree => context_reach (hser.free hfree), hright.count, fun p hp => ?_⟩
  obtain ⟨g, hg⟩ := hp
  obtain ⟨hflag, -, hkey⟩ := hright.ready p g hg
  rw [Act.step, context_of (g := g) (by rw [hg]; rfl), addCount, hflag, hkey, decide_eq_true rfl]
  exact ⟨_, rfl⟩

/-! Process 0 has created a segment and set its flag and its key when process 1 attaches it. -/

def flaggedThreads : SetUpThreads :=
  let c := (Threads.advance 0)^[6]
    (Threads.setThread ⟨mmapContext initState 0 7, none, fun _ => .idle⟩ 0 (.running (.setUp 0) (setUpProg 0)))
  {c with shared := mmapContext c.shared 1 8}

theorem flaggedThreads_reach (allow : State → Act → Prop) (hattach : ∀ s p m, allow s (.attach p m))
    (hset : ∀ s p, allow s (.setUp p)) : (fileLocking.machine allow).Reach (fun _ _ => True) flaggedThreads := by
  have h₀ : (fileLocking.machine allow).Reach (fun _ _ => True) ⟨initState, none, fun _ => .idle⟩ :=
    .start ⟨⟨5, by decide, rfl⟩, rfl, fun _ => rfl⟩
  have hout : ∀ q : Nat, (initState.phase q).segment ≠ some 7 := fun q => by simp [initState, Phase.segment]
  have h₁ := Locking.reach_alone h₀ (a := Act.attach 0 7)
    ⟨rfl, rfl, .inl rfl, ⟨by decide, rfl, fun _ => hout⟩, hattach _ _ _⟩ rfl
  have h₂ := Locking.reach_enter h₁ (a := Act.setUp 0) rfl rfl
  -- the lock, two reads, and the first three writes
  have h₃ := Locking.reach_next h₂ (p := 0) ⟨rfl, ⟨by decide, 7, rfl⟩, hset _ _⟩
  have h₄ := Locking.reach_next h₃ (p := 0) trivial
  have h₅ := Locking.reach_next h₄ (p := 0) trivial
  have h₆ := Locking.reach_next h₅ (p := 0) trivial
  have h₇ := Locking.reach_next h₆ (p := 0) trivial
  have h₈ := Locking.reach_next h₇ (p := 0) trivial
  exact Locking.reach_alone h₈ (a := Act.attach 1 8)
    ⟨rfl, rfl, .inr trivial, ⟨by decide, rfl, fun h => absurd h (Option.some_ne_none 7)⟩, hattach _ _ _⟩ rfl

/-- Nobody is counted yet. But if process 1 does not create the context, it counts itself in now, and process 0
sets the count back. -/
theorem set_up_serialized_test :
    (∃ c : SetUpThreads, c.owner = some 0 ∧ c.shared.phase 1 = .attached 7 ∧
      ∃ t : Finset Nat, (∀ p, p ∈ t ↔ c.shared.phase p = .counted 7) ∧ (c.shared.segment 7).count = t.card) ∧
    ∃ c : SetUpThreads, (fileLocking.machine fun _ _ => True).Reach (fun _ _ => True) c ∧
      c.shared.phase 0 = .counted 7 ∧ c.shared.phase 1 = .counted 7 ∧ (c.shared.segment 7).count = 1 := by
  refine ⟨⟨flaggedThreads, rfl, rfl, ?_⟩, ?_⟩
  · exact (set_up_serialized (flaggedThreads_reach _ (fun _ _ _ => trivial) fun _ _ => trivial)).2.2.1 7
  · have h₀ := flaggedThreads_reach (fun _ _ => True) (fun _ _ _ => trivial) fun _ _ => trivial
    have h₁ := Locking.reach_alone h₀ (a := Act.join 1)
      ⟨rfl, rfl, .inr trivial, ⟨by decide, 7, rfl⟩, trivial⟩ rfl
    -- the other writes, the unlock and the return
    have h₂ := Locking.reach_next h₁ (p := 0) trivial
    have h₃ := Locking.reach_next h₂ (p := 0) trivial
    have h₄ := Locking.reach_next h₃ (p := 0) trivial
    have h₅ := Locking.reach_next h₄ (p := 0) trivial
    have h₆ := Locking.reach_next h₅ (p := 0) trivial
    exact ⟨_, Locking.reach_alone h₆ (a := Act.count 0) ⟨rfl, rfl, .inr trivial, ⟨by decide, 7, rfl⟩, trivial⟩ rfl,
      rfl, rfl, rfl⟩

end ShmMalloc.Share
