import ShmMalloc.Process.Lookup

/-! Tables that follow the arenas, whatever others write there and whichever attaches fail.

The four functions that write a process's table are steps of their own here, and between
two of them the shared state becomes anything. A failed attach is harmless in
`new_arena`, which enters nothing then; a lookup and `shm_init` enter the identifier
all the same. -/
namespace ShmMalloc
open Library

/-- What is done to the tables, with the system's answer to each attach. -/
inductive TableCall where
  | init (pid shmid : Nat) (answers : Nat → Option Nat)
  | exit (pid : Nat)
  | lookup (pid index : Nat) (answer : Option Nat)
  | create (pid : Nat) (type : ArenaType) (size : Nat) (os : Os) (answer : Option Nat)
  | delete (pid index : Nat)
  | rest (s : Shm)

/-- A process for which every attach is answered alike. -/
def World.answered (w : World) (pid : Nat) (answer : Option Nat) : Shm :=
  w.load (w.proc pid) fun _ _ _ => answer

/-- An arena whose segment is to be attached. -/
def InUse (s : Shm) (i : Nat) : Bool := isArenaValid s i && (s.arenas i).shmid ≠ 0

namespace TableCall

def Legal (w : World) : TableCall → Prop
  | .init pid _ _ => pid ∉ w.pids
  | .exit pid => pid ∈ w.pids
  | .lookup pid _ _ => pid ∈ w.pids
  | .create pid _ _ _ _ => pid ∈ w.pids
  | .delete pid _ => pid ∈ w.pids
  | .rest _ => True

def step (w : World) : TableCall → Exec World
  | .init pid shmid answers => w.init pid shmid fun _ k _ => answers k
  | .exit pid => .ok (w.exit pid)
  | .lookup pid index answer => do
    let (s, _) ← getOrUpdateArenaAddr (w.answered pid answer) index
    return w.store pid s
  | .create pid type size os answer => do
    let (s, _) ← newArena (w.answered pid answer) type size os
    return w.store pid s
  | .delete pid index => do
    let s ← deleteArena (w.answered pid none) index
    return w.store pid s
  | .rest s => .ok {w with shm := s}

/-- The attaches that `mmap_arena` makes succeed: in `shm_init`, once the context is attached, one
for each arena in use; in a lookup the one for an arena that has come up since. -/
def Maps (w : World) : TableCall → Prop
  | .init _ shmid answers =>
    ((w.context shmid).arenas 0).shmid ≠ 0 → (answers 0).isSome →
      ∀ k < (List.range' 1 127).countP (InUse (w.context shmid)), (answers (k + 1)).isSome
  | .lookup pid index answer =>
    ((w.proc pid).arenaAddrs index).shmid ≠ (w.shm.arenas index).shmid → InUse w.shm index = true →
      answer.isSome
  | _ => True

end TableCall

def tableMachine : Machine World TableCall Fault where
  start w := w.pids = []
  legal w a := a.Legal w
  step w a := a.step w

/-- An entry has an address exactly when it names a segment. -/
def TableExact (t : Nat → ShmArenaAddr) : Prop := ∀ i, (t i).addr = none ↔ (t i).shmid = 0

namespace TableExact
variable {t : Nat → ShmArenaAddr} {i : Nat}

theorem zero : TableExact fun _ => ⟨none, 0⟩ := fun _ => iff_of_true rfl rfl

/-- One entry is written. -/
theorem set_iff (h : TableExact t) (a : ShmArenaAddr) :
    (TableExact fun k => if k = i then a else t k) ↔ (a.addr = none ↔ a.shmid = 0) := by
  constructor
  · intro hs
    have hi := hs i
    dsimp only at hi
    rwa [if_pos rfl] at hi
  · intro ha k
    dsimp only
    split
    · exact ha
    · exact h k

theorem clear (h : TableExact t) (i : Nat) : TableExact fun k => if k = i then ⟨none, 0⟩ else t k :=
  h.set_iff _ |>.mpr (iff_of_true rfl rfl)

end TableExact

/-! ### Steps -/

section
variable {s s' : Shm} {index : Nat}

/-- The address that an attach of the arena would get. -/
theorem mmap_answer (y : Sysv) (shmid : Nat) :
    (y.mmap shmid).2 = if shmid = 0 then none else y.shmat shmid y.attaches y.attached := by
  unfold Sysv.mmap
  split
  · rfl
  · cases y.shmat shmid y.attaches y.attached <;> rfl

theorem TableExact.drop (h : TableExact s.arenaAddrs) (index : Nat) :
    ∃ u, dropArenaAddr s index = .ok u ∧ u.arenas = s.arenas ∧ u.sys.shmat = s.sys.shmat ∧
      u.arenaAddrs = fun k => if k = index then ⟨none, 0⟩ else s.arenaAddrs k := by
  unfold dropArenaAddr
  by_cases hm : (s.arenaAddrs index).shmid = 0
  · have haddr := (h index).mpr hm
    rw [if_neg (not_not.mpr hm)]
    refine ⟨s, rfl, rfl, rfl, funext fun k => ?_⟩
    split
    · rename_i hk
      rw [hk]
      exact congrArg₂ ShmArenaAddr.mk haddr hm
    · rfl
  · rw [if_pos hm]
    cases haddr : (s.arenaAddrs index).addr with
    | none => exact absurd ((h index).mp haddr) hm
    | some addr => exact ⟨_, rfl, rfl, rfl, rfl⟩

/-- A lookup leaves the table in order exactly when an attach that it needs succeeds. -/
theorem TableExact.lookup (h : TableExact s.arenaAddrs) {answer r : Option Nat}
    (hat : s.sys.shmat = fun _ _ _ => answer) (hrun : getOrUpdateArenaAddr s index = .ok (s', r)) :
    TableExact s'.arenaAddrs ↔
      ((s.arenaAddrs index).shmid ≠ (s.arenas index).shmid → InUse s index = true → answer.isSome) := by
  unfold getOrUpdateArenaAddr at hrun
  by_cases hcur : (s.arenaAddrs index).shmid = (s.arenas index).shmid
  · rw [if_neg (not_not.mpr hcur)] at hrun
    obtain ⟨rfl, -⟩ := Prod.mk.inj (Except.ok.inj hrun)
    exact iff_of_true h fun hne => absurd hcur hne
  · obtain ⟨u, hdrop, harenas, hshmat, htable⟩ := h.drop index
    have hu : TableExact u.arenaAddrs := htable ▸ h.clear index
    rw [if_pos hcur, hdrop, Exec.ok_bind] at hrun
    have hvalid : isArenaValid u index = isArenaValid s index := by
      unfold isArenaValid
      rw [harenas]
    unfold InUse
    rw [← hvalid]
    cases hv : isArenaValid u index with
    | false =>
      rw [hv] at hrun
      obtain ⟨rfl, -⟩ := Prod.mk.inj (Except.ok.inj hrun)
      exact iff_of_true hu fun _ hin => by cases hin
    | true =>
      rw [hv] at hrun
      obtain ⟨⟨v, addr⟩, hmap, hrun⟩ := Exec.bind_ok hrun
      obtain ⟨rfl, -⟩ := Prod.mk.inj (Except.ok.inj hrun)
      obtain ⟨-, y, hy, rfl⟩ := mmapArena_ok hmap
      have haddr : addr = if (s.arenas index).shmid = 0 then none else answer := by
        have hans := mmap_answer u.sys (u.arenas index).shmid
        rwa [hy, hshmat, hat, harenas] at hans
      show (TableExact fun k => if k = index then ⟨addr, (u.arenas index).shmid⟩ else u.arenaAddrs k) ↔ _
      rw [hu.set_iff, haddr, harenas]
      by_cases hm : (s.arenas index).shmid = 0
      · simp [hm]
      · simp [hm, hcur, Option.isSome_iff_ne_none]

/-- `new_arena` enters an address or nothing. -/
theorem TableExact.create (h : TableExact s.arenaAddrs) {type : ArenaType} {size : Nat} {os : Os}
    {r : Option Nat} (hrun : newArena s type size os = .ok (s', r)) : TableExact s'.arenaAddrs := by
  unfold newArena at hrun
  obtain ⟨_, -, hrun⟩ := Exec.bind_ok hrun
  have hsame : ∀ i m, (mmapNewArena s i m).1.arenaAddrs = s.arenaAddrs := fun _ _ => rfl
  cases hf : findEmptyArena s 127 1 with
  | none =>
    rw [hf] at hrun
    obtain ⟨rfl, -⟩ := Prod.mk.inj (Except.ok.inj hrun)
    exact h
  | some index =>
    rw [hf] at hrun
    cases os with
    | keyFails =>
      obtain ⟨rfl, -⟩ := Prod.mk.inj (Except.ok.inj hrun)
      exact h
    | shmgetFails =>
      obtain ⟨rfl, -⟩ := Prod.mk.inj (Except.ok.inj hrun)
      exact h
    | removeFails shmid =>
      obtain ⟨rfl, -⟩ := Prod.mk.inj (Except.ok.inj hrun)
      rwa [hsame]
    | created shmid =>
      have hentry := hsame index shmid
      have hmap : ∀ addr, (mmapNewArena s index shmid).2.2 = some addr →
          (mmapNewArena s index shmid).2.1 ≠ 0 := fun addr ha => (Sysv.mmap_some (Prod.ext rfl ha)).1
      dsimp only at hrun
      generalize mmapNewArena s index shmid = x at hrun hentry hmap
      obtain ⟨u, m, addr⟩ := x
      cases addr with
      | none =>
        obtain ⟨rfl, -⟩ := Prod.mk.inj (Except.ok.inj hrun)
        exact hentry ▸ h
      | some addr =>
        obtain ⟨rfl, -⟩ := Prod.mk.inj (Except.ok.inj hrun)
        have hu : TableExact u.arenaAddrs := hentry ▸ h
        exact (hu.set_iff _).mpr (iff_of_false (by simp) (hmap addr rfl))

theorem TableExact.delete (h : TableExact s.arenaAddrs) (hrun : deleteArena s index = .ok s') :
    TableExact s'.arenaAddrs := by
  unfold deleteArena at hrun
  split at hrun
  · cases hrun
  · obtain rfl := Except.ok.inj hrun
    exact h.clear index

/-! ### The loop of `shm_init` -/

theorem mmapArenas_kept {n i j : Nat} (hrun : mmapArenas n s i = .ok s') (hj : j < i) :
    s'.arenaAddrs j = s.arenaAddrs j := by
  induction n generalizing s i with
  | zero =>
    obtain rfl := Except.ok.inj hrun
    rfl
  | succ n ih =>
    rw [mmapArenas] at hrun
    split at hrun
    · obtain ⟨⟨u, addr⟩, hmap, hrun⟩ := Exec.bind_ok hrun
      obtain ⟨-, y, -, rfl⟩ := mmapArena_ok hmap
      rw [ih hrun (by omega)]
      exact if_neg (by omega)
    · exact ih hrun (by omega)

/-- The loop leaves the table in order exactly when it gets an address for every arena in use. -/
theorem TableExact.mmapArenas (h : TableExact s.arenaAddrs) {answers : Nat → Option Nat}
    (hat : s.sys.shmat = fun _ k _ => answers k) {n i : Nat} (hrun : mmapArenas n s i = .ok s') :
    TableExact s'.arenaAddrs ↔
      ∀ k < (List.range' i n).countP (InUse s), (answers (s.sys.attaches + k)).isSome := by
  induction n generalizing s i with
  | zero =>
    obtain rfl := Except.ok.inj hrun
    exact iff_of_true h fun k hk => absurd hk (Nat.not_lt_zero k)
  | succ n ih =>
    rw [ShmMalloc.mmapArenas] at hrun
    rw [List.range'_succ, List.countP_cons]
    unfold InUse
    cases hv : isArenaValid s i with
    | false =>
      rw [hv] at hrun
      exact ih h hat hrun
    | true =>
      rw [hv] at hrun
      obtain ⟨⟨u, addr⟩, hmap, hrun⟩ := Exec.bind_ok hrun
      obtain ⟨-, y, hy, rfl⟩ := mmapArena_ok hmap
      dsimp only at hrun
      have hans := mmap_answer s.sys (s.arenas i).shmid
      rw [hy, hat] at hans
      dsimp only at hans
      by_cases hm : (s.arenas i).shmid = 0
      · -- without a segment there is nothing to attach
        rw [if_pos hm] at hans
        obtain rfl : addr = none := hans
        obtain ⟨-, k, rfl⟩ := Sysv.mmap_none hy
        have hk : k = s.sys.attaches := by
          rw [Sysv.mmap, if_pos hm] at hy
          exact (congrArg (fun x => x.1.attaches) hy).symm
        have hset := (h.set_iff (i := i) ⟨none, (s.arenas i).shmid⟩).mpr (iff_of_true rfl hm)
        have hrest := (ih · · hrun) hset hat
        have hcount : (if (true && decide ((s.arenas i).shmid ≠ 0)) = true then 1 else 0) = 0 := by
          rw [decide_eq_false (not_not.mpr hm)]
          rfl
        rw [hcount, hrest, hk]
        rfl
      · rw [if_neg hm] at hans
        have hcount : (if (true && decide ((s.arenas i).shmid ≠ 0)) = true then 1 else 0) = 1 := by
          rw [decide_eq_true hm]
          rfl
        rw [hcount, Nat.forall_lt_succ_left]
        cases addr with
        | none =>
          -- the loop does not come back to this entry
          have hentry : s'.arenaAddrs i = ⟨none, (s.arenas i).shmid⟩ :=
            (mmapArenas_kept hrun (Nat.lt_succ_self i)).trans (if_pos rfl)
          refine iff_of_false (fun hex => hm ?_) fun hall => ?_
          · have hi := hex i
            rw [hentry] at hi
            exact hi.mp rfl
          · rw [Nat.add_zero, ← hans] at hall
            cases hall.1
        | some addr =>
          obtain ⟨-, -, rfl⟩ := Sysv.mmap_some hy
          have hset := (h.set_iff (i := i) ⟨some addr, (s.arenas i).shmid⟩).mpr (iff_of_false (by simp) hm)
          have hrest := (ih · · hrun) hset hat
          rw [hrest, Nat.add_zero s.sys.attaches, ← hans]
          simp only [Option.isSome_some, true_and]
          refine forall₂_congr fun k _ => ?_
          rw [show s.sys.attaches + (k + 1) = s.sys.attaches + 1 + k by omega]
          rfl

end

/-! ### Runs -/

/-- The tables of all processes are in order. -/
def TablesExact (w : World) : Prop := ∀ pid ∈ w.pids, TableExact (w.proc pid).arenaAddrs

namespace TablesExact
variable {w w' : World}

theorem store_iff (h : TablesExact w) {pid : Nat} (s : Shm) :
    TablesExact (w.store pid s) ↔ TableExact s.arenaAddrs := by
  have hself : ((w.store pid s).proc pid).arenaAddrs = s.arenaAddrs := by
    show (Function.update w.proc pid _ pid).arenaAddrs = _
    rw [Function.update_self]
  constructor
  · intro hw
    rw [← hself]
    refine hw pid ?_
    unfold World.store
    dsimp only
    split
    · assumption
    · exact List.mem_cons_self ..
  · intro hs q hq
    by_cases hqp : q = pid
    · rw [hqp, hself]
      exact hs
    · have hother : (w.store pid s).proc q = w.proc q := Function.update_of_ne hqp ..
      rw [hother]
      exact h q (World.mem_store hqp hq)

theorem exit (h : TablesExact w) (pid : Nat) : TablesExact (w.exit pid) := by
  intro q hq
  obtain ⟨hq, hqp⟩ := List.mem_filter.mp hq
  have hother : (w.exit pid).proc q = w.proc q :=
    Function.update_of_ne (of_decide_eq_true hqp) ..
  rw [hother]
  exact h q hq

theorem init (h : TablesExact w) {pid shmid : Nat} {answers : Nat → Option Nat}
    (hs : w.init pid shmid (fun _ k _ => answers k) = .ok w') :
    TablesExact w' ↔ (TableCall.init pid shmid answers).Maps w := by
  rcases World.init_cases hs with ⟨hfail, k, rfl⟩ | ⟨addr, s, hne, hans, hloop, rfl⟩
  · refine iff_of_true h fun hne hsome => ?_
    rw [hfail.resolve_left hne] at hsome
    cases hsome
  · rw [h.store_iff]
    have hstart : TableExact (attachArena (w.found shmid fun _ k _ => answers k) 0 addr).arenaAddrs :=
      (TableExact.zero.set_iff _).mpr (iff_of_false (by simp) hne)
    rw [hstart.mmapArenas rfl hloop]
    have hcount : InUse (attachArena (w.found shmid fun _ k _ => answers k) 0 addr) =
        InUse (w.context shmid) := rfl
    rw [hcount]
    constructor
    · intro hall _ _ k hk
      rw [Nat.add_comm]
      exact hall k hk
    · intro hmaps k hk
      have hget := hmaps hne (by rw [hans]; rfl) k hk
      rwa [Nat.add_comm] at hget

/-- A step leaves the tables in order exactly when the attaches that it asks for succeed. -/
theorem step (h : TablesExact w) {a : TableCall} (hl : a.Legal w) (hs : a.step w = .ok w') :
    TablesExact w' ↔ a.Maps w := by
  cases a with
  | init pid shmid answers => exact h.init hs
  | exit pid =>
    obtain rfl := Except.ok.inj hs
    exact iff_of_true (h.exit pid) trivial
  | lookup pid index answer =>
    obtain ⟨⟨s, r⟩, hrun, hs⟩ := Exec.bind_ok hs
    obtain rfl := Except.ok.inj hs
    rw [h.store_iff]
    have ht : TableExact (w.answered pid answer).arenaAddrs := h pid hl
    exact ht.lookup rfl hrun
  | create pid type size os answer =>
    obtain ⟨⟨s, r⟩, hrun, hs⟩ := Exec.bind_ok hs
    obtain rfl := Except.ok.inj hs
    rw [h.store_iff]
    have ht : TableExact (w.answered pid answer).arenaAddrs := h pid hl
    exact iff_of_true (ht.create hrun) trivial
  | delete pid index =>
    obtain ⟨s, hrun, hs⟩ := Exec.bind_ok hs
    obtain rfl := Except.ok.inj hs
    rw [h.store_iff]
    have ht : TableExact (w.answered pid none).arenaAddrs := h pid hl
    exact iff_of_true (ht.delete hrun) trivial
  | rest s =>
    obtain rfl := Except.ok.inj hs
    exact iff_of_true h trivial

end TablesExact

theorem tablesExact_reach {w : World} (h : tableMachine.Reach TableCall.Maps w) : TablesExact w := by
  have hstart : ∀ w, tableMachine.start w → TablesExact w := by
    intro w hw pid hp
    rw [show w.pids = [] from hw] at hp
    exact absurd hp List.not_mem_nil
  exact h.invariant hstart fun w a w' hi hl ha hs => (hi.step hl hs).mpr ha

/-- **In every run whose attaches by `mmap_arena` succeed**, whatever others do to the arenas, every
entry of every process has an address exactly when it names a segment, and the assertion of the lookup
holds; and from there a step keeps the tables so exactly when its attaches succeed. -/
theorem entries_exact {w : World} (h : tableMachine.Reach TableCall.Maps w) :
    (∀ pid ∈ w.pids, TableExact (w.proc pid).arenaAddrs ∧
      ∀ index answer, ∃ s, dropArenaAddr (w.answered pid answer) index = .ok s) ∧
    ∀ (a : TableCall) w', a.Legal w → a.step w = .ok w' → (TablesExact w' ↔ a.Maps w) := by
  have hw := tablesExact_reach h
  refine ⟨fun pid hp => ⟨hw pid hp, fun index answer => ?_⟩, fun a w' hl hs => hw.step hl hs⟩
  have ht : TableExact (w.answered pid answer).arenaAddrs := hw pid hp
  obtain ⟨s, hs, -⟩ := ht.drop index
  exact ⟨s, hs⟩

/-! ### Runs that can be run -/

instance (w : World) : (a : TableCall) → Decidable (a.Legal w)
  | .init pid _ _ => inferInstanceAs (Decidable (pid ∉ w.pids))
  | .exit pid => inferInstanceAs (Decidable (pid ∈ w.pids))
  | .lookup pid _ _ => inferInstanceAs (Decidable (pid ∈ w.pids))
  | .create pid _ _ _ _ => inferInstanceAs (Decidable (pid ∈ w.pids))
  | .delete pid _ => inferInstanceAs (Decidable (pid ∈ w.pids))
  | .rest _ => .isTrue trivial

instance (w : World) (a : TableCall) : Decidable (tableMachine.legal w a) :=
  inferInstanceAs (Decidable (a.Legal w))

instance (w : World) : (a : TableCall) → Decidable (a.Maps w)
  | .init _ shmid answers => inferInstanceAs (Decidable (((w.context shmid).arenas 0).shmid ≠ 0 →
      (answers 0).isSome → ∀ k < (List.range' 1 127).countP (InUse (w.context shmid)),
        (answers (k + 1)).isSome))
  | .exit _ => .isTrue trivial
  | .lookup pid index answer => inferInstanceAs (Decidable
      (((w.proc pid).arenaAddrs index).shmid ≠ (w.shm.arenas index).shmid → InUse w.shm index = true →
        answer.isSome))
  | .create _ _ _ _ _ => .isTrue trivial
  | .delete _ _ => .isTrue trivial
  | .rest _ => .isTrue trivial

/-- Process 2 looks up an arena of process 1, with this answer, before 1 deletes it. -/
def lookedUp (answer : Option Nat) : List TableCall :=
  [.init 1 10 some, .init 2 20 some, .create 1 .large (2 ^ 20) (.created 11) (some 5),
    .lookup 2 1 answer, .delete 1 1]

theorem lookedUp_reach {allow : World → TableCall → Prop} (ok : World → TableCall → Bool)
    (hok : ∀ w a, ok w a = true → allow w a) (answer : Option Nat)
    (h : ((tableMachine.run ok World.start (lookedUp answer)).any fun w => decide (2 ∈ w.pids ∧
      (w.proc 2).arenaAddrs 1 = ⟨answer, 11⟩ ∧ (w.shm.arenas 1).shmid = 0)) = true) :
    ∃ w, tableMachine.Reach allow w ∧ 2 ∈ w.pids ∧ (w.proc 2).arenaAddrs 1 = ⟨answer, 11⟩ ∧
      (w.shm.arenas 1).shmid = 0 := by
  obtain ⟨w, hw, ht⟩ := Machine.exists_reach ok hok _ (show tableMachine.start World.start from rfl) h
  exact ⟨w, hw, of_decide_eq_true ht⟩

theorem entries_exact_lookup : ∃ w, tableMachine.Reach TableCall.Maps w ∧
    (w.proc 2).arenaAddrs 1 = ⟨some 6, 11⟩ ∧ (w.shm.arenas 1).shmid = 0 ∧
    TableExact (w.proc 2).arenaAddrs ∧ ∃ s, dropArenaAddr (w.answered 2 none) 1 = .ok s := by
  obtain ⟨w, hw, hp, hentry, hgone⟩ := lookedUp_reach (fun w a => decide (a.Maps w))
    (fun _ _ => of_decide_eq_true) (some 6) (by decide +kernel)
  obtain ⟨htable, hdrop⟩ := (entries_exact hw).1 2 hp
  exact ⟨w, hw, hentry, hgone, htable, hdrop 1 none⟩

/-- The attach of process 2 fails, and it keeps the identifier without an address; its next lookup
finds the arena gone, and fails the assertion. -/
theorem lookup_fails : ∃ w, tableMachine.Reach (fun _ _ => True) w ∧ 2 ∈ w.pids ∧
    (w.proc 2).arenaAddrs 1 = ⟨none, 11⟩ ∧ ¬TableExact (w.proc 2).arenaAddrs ∧
    getOrUpdateArenaAddr (w.answered 2 none) 1 = .error .assertion := by
  obtain ⟨w, hw, hp, hentry, hgone⟩ : ∃ w, tableMachine.Reach (fun _ _ => True) w ∧ _ :=
    lookedUp_reach (fun _ _ => true) (fun _ _ _ => trivial) none (by decide +kernel)
  refine ⟨w, hw, hp, hentry, fun hex => ?_, ?_⟩
  · have hi := hex 1
    rw [hentry] at hi
    exact absurd (hi.mp rfl) (by decide)
  · have hentry' : (w.answered 2 none).arenaAddrs 1 = ⟨none, 11⟩ := hentry
    have hgone' : ((w.answered 2 none).arenas 1).shmid = 0 := hgone
    unfold getOrUpdateArenaAddr dropArenaAddr
    rw [hentry', hgone']
    rfl

end ShmMalloc
