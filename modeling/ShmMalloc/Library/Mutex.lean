import Mathlib.Logic.Function.Basic
import ShmMalloc.Library.Machine

/-! Calls under one mutex, statement by statement.

The calls of a machine are atomic. Here a call is a program that takes a mutex, does its
steps and releases the mutex, and other processes take steps between any two of these. A
step that fails stops its process where it is, with the mutex, until the system ends the
process; the mutex stays taken. Some actions take no mutex;
one of these may happen while a process is inside, if it could as well have happened
before that process took the mutex. -/
namespace ShmMalloc.Library

/-- What a call does, and what it returns. `V` is what its local variables hold. -/
inductive Prog (S E V : Type) where
  | ret (r : V)
  | lock (k : Prog S E V)
  | step (f : S → Except E (S × V)) (k : V → Prog S E V)
  | unlock (k : Prog S E V)

namespace Prog
variable {S E V : Type}

/-- Steps up to the release of the mutex, and none after it. -/
def Inside : Prog S E V → Prop
  | ret _ => False
  | lock _ => False
  | step _ k => ∀ v, (k v).Inside
  | unlock k => ∃ r, k = ret r

/-- What has not taken the mutex yet, or has released it. -/
def Outside : Prog S E V → Prop
  | ret _ => True
  | lock k => k.Inside
  | step _ _ => False
  | unlock _ => False

/-- The program without anything in between. -/
def run : Prog S E V → S → Except E S
  | ret _, s => .ok s
  | lock k, s => k.run s
  | step f k, s =>
    match f s with
    | .ok (s, v) => (k v).run s
    | .error e => .error e
  | unlock k, s => k.run s

/-- Each step does after a change what it does before it. -/
def Passed (g : S → S) (J : S → Prop) : Prog S E V → Prop
  | ret _ => True
  | lock k => k.Passed g J
  | step f k => (∀ s s' v, J s → f s = .ok (s', v) → f (g s) = .ok (g s', v) ∧ J s') ∧
      (∀ s e, J s → f s = .error e → f (g s) = .error e) ∧ ∀ v, (k v).Passed g J
  | unlock k => k.Passed g J

end Prog

namespace Prog
variable {S E V : Type} {g : S → S} {J : S → Prop}

/-- A program does after a change what it does before it. -/
theorem Passed.run {k : Prog S E V} (h : k.Passed g J) {s : S} (hJ : J s) :
    (∀ s', k.run s = .ok s' → k.run (g s) = .ok (g s')) ∧ ∀ e, k.run s = .error e → k.run (g s) = .error e := by
  induction k generalizing s with
  | ret r => exact ⟨fun s' hs => congrArg (Except.ok ∘ g) (Except.ok.inj hs), fun e hs => absurd hs (by simp [Prog.run])⟩
  | lock k ih => exact ih h hJ
  | unlock k ih => exact ih h hJ
  | step f k ih =>
    obtain ⟨hok, herr, hk⟩ := h
    cases hf : f s with
    | error e =>
      have hg := herr s e hJ hf
      simp only [Prog.run, hf, hg]
      exact ⟨fun s' hs => absurd hs (by simp), fun e hs => hs⟩
    | ok r =>
      obtain ⟨s₁, v⟩ := r
      obtain ⟨hg, hJ'⟩ := hok s s₁ v hJ hf
      simp only [Prog.run, hf, hg]
      exact ih v (hk v) hJ'

end Prog

/-- What a process does. -/
inductive Thread (S A E V : Type) where
  | idle
  | running (a : A) (k : Prog S E V)
  | failed (a : A) (e : E)

/-- Processes on a shared state with a mutex. -/
structure Threads (S A E V P : Type) where
  shared : S
  owner : Option P
  thread : P → Thread S A E V

/-- What happens next. -/
inductive Turn (A P : Type) where
  /-- A call begins. -/
  | enter (a : A)
  /-- The next statement of a process. -/
  | next (p : P)
  /-- An action that takes no mutex. -/
  | alone (a : A)
  /-- The system ends a process that has failed. -/
  | stop (p : P)

/-- The programs of the calls of a machine. -/
structure Locking {S A E : Type} (M : Machine S A E) (V P : Type) where
  who : A → P
  /-- `none` for an action that takes no mutex. -/
  prog : A → Option (Prog S E V)
  /-- The actions that may happen while a process is inside. -/
  passes : A → Prop
  /-- What the system leaves when it ends a process. -/
  ends : P → S → S
  outside : ∀ a k, prog a = some k → k.Outside
  run : ∀ a k s, prog a = some (.lock k) → k.run s = M.step s a

namespace Threads
variable {S A E V P : Type} [DecidableEq P]

def setThread (c : Threads S A E V P) (p : P) (t : Thread S A E V) : Threads S A E V P :=
  {c with thread := Function.update c.thread p t}

/-- The next statement of a process. -/
def advance (p : P) (c : Threads S A E V P) : Threads S A E V P :=
  match c.thread p with
  | .running _ (.ret _) => c.setThread p .idle
  | .running a (.lock k) => {c.setThread p (.running a k) with owner := some p}
  | .running a (.step f k) =>
    match f c.shared with
    | .ok (s, v) => {c.setThread p (.running a (k v)) with shared := s}
    | .error e => c.setThread p (.failed a e)
  | .running a (.unlock k) => {c.setThread p (.running a k) with owner := none}
  | _ => c

@[simp] theorem setThread_shared (c : Threads S A E V P) (p : P) (t : Thread S A E V) :
    (c.setThread p t).shared = c.shared := rfl

@[simp] theorem setThread_owner (c : Threads S A E V P) (p : P) (t : Thread S A E V) :
    (c.setThread p t).owner = c.owner := rfl

@[simp] theorem setThread_self (c : Threads S A E V P) (p : P) (t : Thread S A E V) :
    (c.setThread p t).thread p = t := Function.update_self ..

theorem setThread_ne (c : Threads S A E V P) {p q : P} (t : Thread S A E V) (h : q ≠ p) :
    (c.setThread p t).thread q = c.thread q := Function.update_of_ne h ..

section
variable {c : Threads S A E V P} {p : P} {a : A} {k : Prog S E V}

theorem advance_ret {r : V} (h : c.thread p = .running a (.ret r)) : c.advance p = c.setThread p .idle := by
  simp only [advance, h]

theorem advance_lock (h : c.thread p = .running a (.lock k)) :
    c.advance p = {c.setThread p (.running a k) with owner := some p} := by
  simp only [advance, h]

theorem advance_unlock (h : c.thread p = .running a (.unlock k)) :
    c.advance p = {c.setThread p (.running a k) with owner := none} := by
  simp only [advance, h]

theorem advance_ok {f : S → Except E (S × V)} {k : V → Prog S E V} {s : S} {v : V}
    (h : c.thread p = .running a (.step f k)) (hf : f c.shared = .ok (s, v)) :
    c.advance p = {c.setThread p (.running a (k v)) with shared := s} := by
  simp only [advance, h, hf]

theorem advance_error {f : S → Except E (S × V)} {k : V → Prog S E V} {e : E}
    (h : c.thread p = .running a (.step f k)) (hf : f c.shared = .error e) :
    c.advance p = c.setThread p (.failed a e) := by
  simp only [advance, h, hf]

end

end Threads

namespace Locking
variable {S A E V P : Type} {M : Machine S A E}

/-! ### Between the statements of a call -/

/-- Where a call is that took the mutex in the state `s₀`. -/
inductive Mid (L : Locking M V P) (s₀ : S) (a : A) : Prog S E V → S → Prop where
  | start {k : Prog S E V} (h : L.prog a = some (.lock k)) : Mid L s₀ a k s₀
  | step {f : S → Except E (S × V)} {k : V → Prog S E V} {s s' : S} {v : V} (h : Mid L s₀ a (.step f k) s)
      (hf : f s = .ok (s', v)) : Mid L s₀ a (k v) s'

section
variable {L : Locking M V P} {s₀ s : S} {a : A} {k : Prog S E V}

theorem Mid.inside (h : L.Mid s₀ a k s) : k.Inside := by
  induction h with
  | start h => exact L.outside _ _ h
  | step _ _ ih => exact ih _

theorem Mid.prog (h : L.Mid s₀ a k s) : ∃ k, L.prog a = some (.lock k) := by
  induction h with
  | start h => exact ⟨_, h⟩
  | step _ _ ih => exact ih

/-- What is left of a call completes it as the atomic call. -/
theorem Mid.run (h : L.Mid s₀ a k s) : k.run s = M.step s₀ a := by
  induction h with
  | start h => exact L.run _ _ _ h
  | step _ hf ih => rw [← ih, Prog.run, hf]

/-- A change that every step lets pass might have come before the call. -/
theorem Mid.passed {g : S → S} {J : S → Prop} (hg : ∀ k, L.prog a = some (.lock k) → k.Passed g J) (h : L.Mid s₀ a k s)
    (h₀ : J s₀) : J s ∧ L.Mid (g s₀) a k (g s) ∧ k.Passed g J := by
  induction h with
  | start h => exact ⟨h₀, .start h, hg _ h⟩
  | step _ hf ih =>
    obtain ⟨hJ, hmid, hk⟩ := ih
    obtain ⟨hf', hJ'⟩ := hk.1 _ _ _ hJ hf
    exact ⟨hJ', .step hmid hf', hk.2.2 _⟩

end

/-! ### Turns -/

variable (L : Locking M V P) (allow : S → A → Prop)

/-- A call is legal when it gets the mutex; a process that finds the mutex taken waits. -/
def Legal (c : Threads S A E V P) : Turn A P → Prop
  | .enter a => (L.prog a).isSome ∧ c.thread (L.who a) = .idle
  | .next p =>
    match c.thread p with
    | .running a (.lock _) => c.owner = none ∧ M.legal c.shared a ∧ allow c.shared a
    | .running _ _ => True
    | _ => False
  | .alone a => L.prog a = none ∧ c.thread (L.who a) = .idle ∧ (c.owner = none ∨ L.passes a) ∧
      M.legal c.shared a ∧ allow c.shared a
  | .stop p => ∃ a e, c.thread p = .failed a e

/-- What may happen while a process is inside could have happened before. -/
def Moves : Prop :=
  ∀ s₀ a k s b s', M.Reach allow s₀ → M.legal s₀ a → allow s₀ a → L.Mid s₀ a k s → L.prog b = none → L.passes b →
    L.who b ≠ L.who a → M.legal s b → allow s b → M.step s b = .ok s' →
    ∃ s₁, M.legal s₀ b ∧ allow s₀ b ∧ M.step s₀ b = .ok s₁ ∧ M.legal s₁ a ∧ allow s₁ a ∧ L.Mid s₁ a k s' ∧
      ∀ e, M.step s₀ a = .error e → M.step s₁ a = .error e

/-- A process that is not between the lock and the unlock of a call. -/
def ThreadOutside (p : P) (t : Thread S A E V) : Prop :=
  t = .idle ∨ ∃ a k, t = .running a k ∧ L.who a = p ∧ k.Outside ∧ ∀ k', k = .lock k' → L.prog a = some k

/-- A process that has the mutex, in a call of a state that atomic calls reach. -/
structure ThreadInside (p : P) (s : S) (t : Thread S A E V) (s₀ : S) (a : A) : Prop where
  reach : M.Reach allow s₀
  legal : M.legal s₀ a
  allowed : allow s₀ a
  who : L.who a = p
  locks : ∃ k, L.prog a = some (.lock k)
  thread : (∃ k, L.Mid s₀ a k s ∧ t = .running a k) ∨ ∃ e, t = .failed a e ∧ M.step s₀ a = .error e

theorem ThreadInside.not_idle {L : Locking M V P} {allow : S → A → Prop} {p : P} {s s₀ : S} {t : Thread S A E V} {a : A}
    (h : L.ThreadInside allow p s t s₀ a) : t ≠ .idle := by
  rintro rfl
  obtain ⟨k, -, ht⟩ | ⟨e, ht, -⟩ := h.thread <;> cases ht

/-- Only the owner of the mutex is inside. -/
structure Serial (c : Threads S A E V P) : Prop where
  outside : ∀ p, c.owner ≠ some p → L.ThreadOutside p (c.thread p)
  free : c.owner = none → M.Reach allow c.shared
  held : ∀ p, c.owner = some p → ∃ s₀ a, L.ThreadInside allow p c.shared (c.thread p) s₀ a

/-- An action without the mutex comes after what is done, and before a call that is not. -/
theorem Serial.alone {L : Locking M V P} {allow : S → A → Prop} {a : A} {c : Threads S A E V P}
    (h : L.Serial allow c) (hmoves : L.Moves allow) {s : S} (hl : L.Legal allow c (.alone a))
    (hs : M.step c.shared a = .ok s) : L.Serial allow {c with shared := s} := by
  obtain ⟨hprog, hi, hwhen, hlegal, hallow⟩ := hl
  refine ⟨h.outside, fun hfree => (h.free hfree).step hlegal hallow hs, fun p hp => ?_⟩
  obtain ⟨s₀, b, hin⟩ := h.held p hp
  have hne : L.who a ≠ L.who b := fun he => hin.not_idle (by rwa [he, hin.who] at hi)
  obtain ⟨k, hmid, hrun⟩ | hfailed := hin.thread
  · have hpasses := hwhen.resolve_left fun he => absurd (hp.symm.trans he) (by simp)
    obtain ⟨s₁, hl₁, ha₁, hs₁, hlb, hab, hmid', -⟩ :=
      hmoves s₀ b k c.shared a s hin.reach hin.legal hin.allowed hmid hprog hpasses hne hlegal hallow hs
    exact ⟨s₁, b, hin.reach.step hl₁ ha₁ hs₁, hlb, hab, hin.who, hin.locks, .inl ⟨k, hmid', hrun⟩⟩
  · exact ⟨s₀, b, hin.reach, hin.legal, hin.allowed, hin.who, hin.locks, .inr hfailed⟩

variable [DecidableEq P]

def turn (c : Threads S A E V P) : Turn A P → Except E (Threads S A E V P)
  | .enter a =>
    match L.prog a with
    | some k => .ok (c.setThread (L.who a) (.running a k))
    | none => .ok c
  | .next p => .ok (c.advance p)
  | .alone a =>
    match M.step c.shared a with
    | .ok s => .ok {c with shared := s}
    | .error e => .error e
  | .stop p => .ok {c with shared := L.ends p c.shared}

def machine : Machine (Threads S A E V P) (Turn A P) E where
  start c := M.start c.shared ∧ c.owner = none ∧ ∀ p, c.thread p = .idle
  legal := L.Legal allow
  step := L.turn

variable {L allow} {a : A} {k : Prog S E V} {c c' : Threads S A E V P} {p : P}

theorem Serial.start (h : (L.machine allow).start c) : L.Serial allow c :=
  ⟨fun p _ => .inl (h.2.2 p), fun _ => .start h.1, fun p hp => absurd (h.2.1.symm.trans hp) (by simp)⟩

theorem Serial.enter (h : L.Serial allow c) (hk : L.prog a = some k) (hi : c.thread (L.who a) = .idle) :
    L.Serial allow (c.setThread (L.who a) (.running a k)) := by
  refine ⟨fun q hq => ?_, h.free, fun q hq => ?_⟩
  · by_cases he : q = L.who a
    · subst he
      rw [c.setThread_self]
      exact .inr ⟨a, k, rfl, rfl, L.outside _ _ hk, fun k' he => hk⟩
    · rw [c.setThread_ne _ he]
      exact h.outside q hq
  · have hne : q ≠ L.who a := by
      rintro rfl
      obtain ⟨s₀, b, hin⟩ := h.held _ hq
      exact hin.not_idle hi
    rw [c.setThread_ne _ hne]
    exact h.held q hq

/-- A process outside returns, or takes the mutex. -/
theorem Serial.next_outside (h : L.Serial allow c) (hp : c.owner ≠ some p) (hl : L.Legal allow c (.next p)) :
    L.Serial allow (c.advance p) := by
  rcases h.outside p hp with hi | ⟨a, k, hrun, hwho, hk, hprog⟩
  · simp only [Legal, hi] at hl
  cases k with
  | step f k => exact hk.elim
  | unlock k => exact hk.elim
  | ret r =>
    rw [c.advance_ret hrun]
    refine ⟨fun q hq => ?_, h.free, fun q hq => ?_⟩
    · by_cases he : q = p
      · subst he
        exact .inl (c.setThread_self ..)
      · rw [c.setThread_ne _ he]
        exact h.outside q hq
    · have hne : q ≠ p := fun he => hp (he ▸ hq)
      rw [c.setThread_ne _ hne]
      exact h.held q hq
  | lock k =>
    simp only [Legal, hrun] at hl
    obtain ⟨hfree, hlegal, hallow⟩ := hl
    rw [c.advance_lock hrun]
    refine ⟨fun q hq => ?_, fun he => absurd he (by simp), fun q hq => ?_⟩
    · have hne : q ≠ p := fun he => hq (he ▸ rfl)
      show L.ThreadOutside q ((c.setThread p _).thread q)
      rw [c.setThread_ne _ hne]
      exact h.outside q (by simp [hfree])
    · obtain rfl : p = q := Option.some.inj hq
      exact ⟨c.shared, a, h.free hfree, hlegal, hallow, hwho,
        ⟨k, hprog k rfl⟩, .inl ⟨k, .start (hprog k rfl), c.setThread_self ..⟩⟩

/-- The owner goes on, fails, or completes its call as the atomic call. -/
theorem Serial.next_inside (h : L.Serial allow c) (hp : c.owner = some p) (hl : L.Legal allow c (.next p)) :
    L.Serial allow (c.advance p) := by
  have hother : ∀ q, q ≠ p → L.ThreadOutside q (c.thread q) := fun q hq =>
    h.outside q fun he => hq (Option.some.inj (he.symm.trans hp))
  obtain ⟨s₀, a, hin⟩ := h.held p hp
  obtain ⟨k, hmid, hrun⟩ | ⟨e, hf, -⟩ := hin.thread
  swap
  · simp only [Legal, hf] at hl
  have hk := hmid.inside
  cases k with
  | ret r => exact hk.elim
  | lock k => exact hk.elim
  | step f k =>
    cases hf : f c.shared with
    | error e =>
      rw [c.advance_error hrun hf]
      refine ⟨fun q hq => ?_, fun he => absurd (hp.symm.trans he) (by simp), fun q hq => ?_⟩
      · have hne : q ≠ p := fun he => hq (he ▸ hp)
        show L.ThreadOutside q ((c.setThread p _).thread q)
        rw [c.setThread_ne _ hne]
        exact hother q hne
      · obtain rfl : p = q := Option.some.inj (hp.symm.trans hq)
        refine ⟨s₀, a, hin.reach, hin.legal, hin.allowed, hin.who, hin.locks, .inr ⟨e, c.setThread_self .., ?_⟩⟩
        rw [← hmid.run, Prog.run, hf]
    | ok r =>
      obtain ⟨s, v⟩ := r
      rw [c.advance_ok hrun hf]
      refine ⟨fun q hq => ?_, fun he => absurd (hp.symm.trans he) (by simp), fun q hq => ?_⟩
      · have hne : q ≠ p := fun he => hq (he ▸ hp)
        show L.ThreadOutside q ((c.setThread p _).thread q)
        rw [c.setThread_ne _ hne]
        exact hother q hne
      · obtain rfl : p = q := Option.some.inj (hp.symm.trans hq)
        exact ⟨s₀, a, hin.reach, hin.legal, hin.allowed, hin.who, hin.locks, .inl ⟨k v, hmid.step hf, c.setThread_self ..⟩⟩
  | unlock k =>
    obtain ⟨r, rfl⟩ := hk
    rw [c.advance_unlock hrun]
    refine ⟨fun q _ => ?_, fun _ => hin.reach.step hin.legal hin.allowed hmid.run.symm, fun q hq => absurd hq (by simp)⟩
    show L.ThreadOutside q ((c.setThread p _).thread q)
    by_cases he : q = p
    · subst he
      rw [c.setThread_self]
      exact .inr ⟨a, .ret r, rfl, hin.who, trivial, fun k' he => absurd he (by simp)⟩
    · rw [c.setThread_ne _ he]
      exact hother q he

/-- A process that fails keeps the mutex. -/
theorem Serial.failed_owner (h : L.Serial allow c) {e : E} (hf : c.thread p = .failed a e) : c.owner = some p := by
  by_contra hne
  rcases h.outside p hne with hi | ⟨b, k, hrun, -⟩
  · exact absurd (hf.symm.trans hi) (by simp)
  · exact absurd (hf.symm.trans hrun) (by simp)

theorem Serial.stop (h : L.Serial allow c) {e : E} (hf : c.thread p = .failed a e) :
    L.Serial allow {c with shared := L.ends p c.shared} := by
  have hp := h.failed_owner hf
  refine ⟨h.outside, fun he => absurd (hp.symm.trans he) (by simp), fun q hq => ?_⟩
  obtain rfl : p = q := Option.some.inj (hp.symm.trans hq)
  obtain ⟨s₀, b, hin⟩ := h.held p hp
  obtain ⟨k, -, hrun⟩ | hfailed := hin.thread
  · exact absurd (hf.symm.trans hrun) (by simp)
  · exact ⟨s₀, b, hin.reach, hin.legal, hin.allowed, hin.who, hin.locks, .inr hfailed⟩

/-- **Calls take effect one after the other**, in the order in which they take the mutex. -/
theorem serial_reach (hmoves : L.Moves allow) (h : (L.machine allow).Reach (fun _ _ => True) c) :
    L.Serial allow c := by
  refine h.invariant (fun c => .start) fun c t c' hc hl _ hs => ?_
  cases t with
  | enter a =>
    obtain ⟨hprog, hi⟩ : (L.prog a).isSome ∧ c.thread (L.who a) = .idle := hl
    obtain ⟨k, hk⟩ := Option.isSome_iff_exists.mp hprog
    have hs' : L.turn c (.enter a) = .ok c' := hs
    simp only [turn, hk] at hs'
    obtain rfl := Except.ok.inj hs'
    exact hc.enter hk hi
  | next p =>
    obtain rfl := Except.ok.inj hs
    by_cases hp : c.owner = some p
    · exact hc.next_inside hp hl
    · exact hc.next_outside hp hl
  | alone a =>
    have hs' : L.turn c (.alone a) = .ok c' := hs
    simp only [turn] at hs'
    cases hstep : M.step c.shared a with
    | error e =>
      rw [hstep] at hs'
      cases hs'
    | ok s =>
      rw [hstep] at hs'
      obtain rfl := Except.ok.inj hs'
      exact hc.alone hmoves hl hstep
  | stop p =>
    obtain ⟨a, e, hf⟩ : ∃ a e, c.thread p = .failed a e := hl
    obtain rfl := Except.ok.inj hs
    exact hc.stop hf

/-! ### The owner -/

variable (allow) in
/-- **The owner, left alone, completes its call** as the atomic call, or fails in it as that does. -/
theorem Mid.completes {s₀ : S} (hmid : L.Mid s₀ a k c.shared) (hrun : c.thread p = .running a k) :
    (∀ s, M.step s₀ a = .ok s →
      (L.machine allow).Leads (· = .next p) c ({c with shared := s, owner := none}.setThread p .idle)) ∧
    ∀ e, M.step s₀ a = .error e →
      ∃ s, (L.machine allow).Leads (· = .next p) c ({c with shared := s}.setThread p (.failed a e)) := by
  have hgo : ∀ {c : Threads S A E V P} {k : Prog S E V}, c.thread p = .running a k → (∀ k', k ≠ .lock k') →
      (L.machine allow).Leads (· = .next p) c (c.advance p) := fun {c k} hrun hk => by
    refine .single ⟨_, rfl, ?_, rfl⟩
    show L.Legal allow c (.next p)
    simp only [Legal, hrun]
  induction k generalizing c with
  | ret r => exact hmid.inside.elim
  | lock k => exact hmid.inside.elim
  | unlock k =>
    obtain ⟨r, rfl⟩ := hmid.inside
    have hstep := hmid.run
    refine ⟨fun s hs => ?_, fun e he => absurd (hstep.trans he) (by simp [Prog.run])⟩
    obtain rfl : c.shared = s := Except.ok.inj (hstep.trans hs)
    refine (hgo hrun fun k' => by simp).trans ?_
    have hnext := c.advance_unlock hrun
    have hret : (c.advance p).thread p = .running a (.ret r) := by
      rw [hnext]
      exact c.setThread_self ..
    have hlast := hgo hret fun k' => by simp
    have hidle : (c.advance p).advance p = {c with owner := none}.setThread p .idle := by
      rw [Threads.advance_ret hret, hnext]
      simp only [Threads.setThread, Function.update_idem]
    rw [hidle] at hlast
    exact hlast
  | step f k ih =>
    have hfirst := hgo hrun fun k' => by simp
    cases hf : f c.shared with
    | error e =>
      have hstep := hmid.run
      rw [Prog.run, hf] at hstep
      rw [c.advance_error hrun hf] at hfirst
      refine ⟨fun s hs => absurd (hstep.trans hs) (by simp), fun e' he => ⟨c.shared, ?_⟩⟩
      obtain rfl := Except.error.inj (hstep.trans he)
      exact hfirst
    | ok r =>
      obtain ⟨s₁, v⟩ := r
      rw [c.advance_ok hrun hf] at hfirst
      obtain ⟨hok, herr⟩ := ih v (c := {c.setThread p (.running a (k v)) with shared := s₁}) (hmid.step hf)
        (c.setThread_self ..)
      refine ⟨fun s hs => ?_, fun e he => ?_⟩
      · have hrest := hok s hs
        simp only [Threads.setThread, Function.update_idem] at hrest
        exact hfirst.trans hrest
      · obtain ⟨s, hrest⟩ := herr e he
        simp only [Threads.setThread, Function.update_idem] at hrest
        exact ⟨s, hfirst.trans hrest⟩

/-! ### After a failure -/

section
variable {e : E} {R : S → Prop}

end

/-! ### Atomic calls, one statement after the other -/

theorem reach_enter (h : (L.machine allow).Reach (fun _ _ => True) c) (hk : L.prog a = some k)
    (hi : c.thread (L.who a) = .idle) :
    (L.machine allow).Reach (fun _ _ => True) (c.setThread (L.who a) (.running a k)) := by
  refine h.step (a := .enter a) ⟨by rw [hk]; rfl, hi⟩ trivial ?_
  show L.turn c (.enter a) = _
  simp only [turn, hk]

theorem reach_next (h : (L.machine allow).Reach (fun _ _ => True) c) (hl : L.Legal allow c (.next p)) :
    (L.machine allow).Reach (fun _ _ => True) (c.advance p) := h.step (a := .next p) hl trivial rfl

theorem reach_alone (h : (L.machine allow).Reach (fun _ _ => True) c) (hl : L.Legal allow c (.alone a)) {s : S}
    (hs : M.step c.shared a = .ok s) : (L.machine allow).Reach (fun _ _ => True) {c with shared := s} := by
  refine h.step (a := .alone a) hl trivial ?_
  show L.turn c (.alone a) = _
  simp only [turn, hs]

/-- The actions that take the mutex, or need none. -/
def Takes (L : Locking M V P) (a : A) : Prop := L.prog a = none ∨ ∃ k, L.prog a = some (.lock k)

/-- A call that takes the free mutex. -/
theorem begins {s : S} (h : (L.machine allow).Reach (fun _ _ => True) ⟨s, none, fun _ => .idle⟩) (hl : M.legal s a)
    (ha : allow s a) (hk : L.prog a = some (.lock k)) :
    (L.machine allow).Reach (fun _ _ => True)
      (Threads.setThread ⟨s, some (L.who a), fun _ => .idle⟩ (L.who a) (.running a k)) := by
  have hwait : (L.machine allow).Reach (fun _ _ => True)
      (Threads.setThread ⟨s, none, fun _ => .idle⟩ (L.who a) (.running a (.lock k))) := reach_enter h hk rfl
  have hthread := (⟨s, none, fun _ => .idle⟩ : Threads S A E V P).setThread_self (L.who a) (.running a (.lock k))
  have hlocked := reach_next hwait (p := L.who a) (by simp only [Legal, hthread]; exact ⟨rfl, hl, ha⟩)
  rw [Threads.advance_lock hthread] at hlocked
  simp only [Threads.setThread, Function.update_idem] at hlocked ⊢
  exact hlocked

/-- What atomic calls reach is reached, with the mutex free. -/
theorem reach_of_atomic {s : S} (h : M.Reach (fun s a => allow s a ∧ L.Takes a) s) :
    (L.machine allow).Reach (fun _ _ => True) ⟨s, none, fun _ => .idle⟩ := by
  induction h with
  | start h => exact .start ⟨h, rfl, fun _ => rfl⟩
  | @step s s' a _ hl ha hs ih =>
    obtain ⟨ha, hprog | ⟨k, hk⟩⟩ := ha
    · exact reach_alone ih ⟨hprog, rfl, .inl rfl, hl, ha⟩ hs
    · have hin := begins ih hl ha hk
      have hmid : L.Mid s a k (Threads.setThread (⟨s, some (L.who a), fun _ => .idle⟩ : Threads S A E V P) (L.who a)
        (.running a k)).shared := .start hk
      have hidle := hin.leads ((hmid.completes allow (Threads.setThread_self ..)).1 s' hs)
      simp only [Threads.setThread, Function.update_idem] at hidle
      rwa [Function.update_eq_self_iff.mpr rfl] at hidle

end Locking

end ShmMalloc.Library
