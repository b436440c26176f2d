import ShmMalloc.Process.Tables

/-! Every process's table, over the runs of all of them.

A process that runs an operation has `TableOk` throughout it; between operations the
table of each process is as it left it, whatever the others have done to the arenas. So
what a lookup returns depends on the arena entry and on the attaches of its own process
only. -/
namespace ShmMalloc
open Library

/-- The shared arenas and the keys, between two operations. -/
structure World.SegmentsOk (w : World) : Prop where
  key : ∀ i shmid, w.shm.sys.key i = some shmid → shmid ≠ 0
  arenas : w.pids ≠ [] → ArenasOk w.shm.arenas

/-- Everybody's table beside them. -/
structure TablesOk (w : World) : Prop extends w.SegmentsOk where
  entries : ∀ pid ∈ w.pids, Entries (w.proc pid).arenaAddrs (w.proc pid).attached
  context : ∀ pid ∈ w.pids, ((w.proc pid).arenaAddrs 0).shmid = (w.shm.arenas 0).shmid

/-- What the process has to attach, the system attaches. -/
def Served (arenas : Nat → ShmArena) (p : Proc) (shmat : Nat → Nat → List Attach → Option Nat) : Prop :=
  ∀ i ≠ 0, (arenas i).shmid ≠ 0 → (p.arenaAddrs i).shmid ≠ (arenas i).shmid →
    ∀ k l, (shmat (arenas i).shmid k l).isSome

/-- The lookups that an action needs are served. -/
def Action.Served (w : World) : Action → Prop
  | .init _ shmid shmat => ShmMalloc.Served (w.context shmid).arenas .none shmat
  | .exit _ => True
  | .call pid _ _ _ shmat => ShmMalloc.Served w.shm.arenas (w.proc pid) shmat

/-! ### An operation -/

theorem World.mem_store {w : World} {pid q : Nat} {s : Shm} (hne : q ≠ pid)
    (hq : q ∈ (w.store pid s).pids) : q ∈ w.pids := by
  unfold World.store at hq
  dsimp only at hq
  split at hq
  · exact hq
  · exact (List.mem_cons.mp hq).resolve_left hne

theorem World.SegmentsOk.load {w : World} (h : w.SegmentsOk) (hp : w.pids ≠ []) (p : Proc)
    (shmat : Nat → Nat → List Attach → Option Nat) : ShmMalloc.SegmentsOk (w.load p shmat) := ⟨h.arenas hp, h.key⟩

theorem World.SegmentsOk.store {w : World} {s : Shm} (hs : ShmMalloc.SegmentsOk s) (pid : Nat) :
    (w.store pid s).SegmentsOk := ⟨hs.key, fun _ => hs.arenas⟩

theorem TablesOk.load {w : World} (h : TablesOk w) {pid : Nat} (hp : pid ∈ w.pids)
    {shmat : Nat → Nat → List Attach → Option Nat} (hf : FreshAddrs shmat)
    (hs : Served w.shm.arenas (w.proc pid) shmat) : TableOk (w.load (w.proc pid) shmat) where
  toSegmentsOk := h.toSegmentsOk.load (List.ne_nil_of_mem hp) _ _
  entries := h.entries pid hp
  context := h.context pid hp
  fresh := hf
  served i hne hdiff := by
    refine hs i ?_ hne hdiff
    rintro rfl
    exact hdiff (h.context pid hp)

/-- A process stores what it has left. -/
theorem TablesOk.store {w : World} (h : TablesOk w) {s : Shm} (hs : TableOk s) (pid : Nat)
    (hc : w.pids ≠ [] → (s.arenas 0).shmid = (w.shm.arenas 0).shmid) : TablesOk (w.store pid s) where
  toSegmentsOk := .store hs.toSegmentsOk pid
  entries q hq := by
    show Entries (Function.update w.proc pid _ q).arenaAddrs (Function.update w.proc pid _ q).attached
    by_cases he : q = pid
    · rw [he, Function.update_self]
      exact hs.entries
    · rw [Function.update_of_ne he]
      exact h.entries q (World.mem_store he hq)
  context q hq := by
    show ((Function.update w.proc pid _ q).arenaAddrs 0).shmid = (s.arenas 0).shmid
    by_cases he : q = pid
    · rw [he, Function.update_self]
      exact hs.context
    · rw [Function.update_of_ne he, hc (List.ne_nil_of_mem (World.mem_store he hq))]
      exact h.context q (World.mem_store he hq)

/-! ### A start -/

theorem freshContext_sys (s : Shm) (shmid : Nat) : (freshContext s shmid).sys = (s.sys.shmget 0 shmid).1 := rfl

theorem freshContext_arena (s : Shm) (shmid : Nat) {i : Nat} (hi : i ≠ 0) :
    (freshContext s shmid).arenas i = .zero := if_neg hi

theorem freshContext_ok {s : Shm} {shmid : Nat} (hm : (s.sys.shmget 0 shmid).2 ≠ 0) :
    ArenasOk (freshContext s shmid).arenas where
  empty i := by
    by_cases hi : i = 0
    · subst hi
      exact iff_of_false (show ArenaType.context ≠ .empty by decide) hm
    · rw [freshContext_arena s shmid hi]
      exact iff_of_true rfl rfl
  bound i hi := by
    rw [freshContext_arena s shmid (by omega)]
    rfl
  context i := by
    by_cases hi : i = 0
    · subst hi
      exact iff_of_true rfl rfl
    · rw [freshContext_arena s shmid hi]
      exact iff_of_false (by decide) hi
  index i hi := by
    by_cases hz : i = 0
    · subst hz
      rfl
    · rw [freshContext_arena s shmid hz] at hi
      exact absurd rfl hi

/-- The loop of `shm_init` makes lookups. -/
theorem mmapArenas_calm {n i : Nat} {s s' : Shm} (hz : ∀ j, i ≤ j → s.arenaAddrs j = ⟨none, 0⟩)
    (ha : ∀ j, (s.arenas j).type = .empty ↔ (s.arenas j).shmid = 0)
    (h : mmapArenas n s i = .ok s') : Calm s s' := by
  induction n generalizing s i with
  | zero =>
    obtain rfl := Except.ok.inj h
    exact .refl _
  | succ n ih =>
    rw [mmapArenas] at h
    split at h
    · next hvalid =>
      obtain ⟨-, hne⟩ : i < 128 ∧ (s.arenas i).type ≠ .empty := by
        simpa [isArenaValid] using hvalid
      have hi := hz i (Nat.le_refl i)
      obtain ⟨⟨s₁, addr⟩, hmap, h⟩ := Exec.bind_ok h
      have hlook : getOrUpdateArenaAddr s i = .ok (s₁.setArenaAddr i ⟨addr, (s₁.arenas i).shmid⟩, addr) := by
        have hdiff : (s.arenaAddrs i).shmid ≠ (s.arenas i).shmid := by
          rw [hi]
          exact fun he => hne ((ha i).mpr he.symm)
        unfold getOrUpdateArenaAddr dropArenaAddr
        rw [if_pos hdiff, if_neg (by rw [hi]; simp), Exec.ok_bind, if_pos hvalid, hmap]
        rfl
      obtain ⟨-, y, -, hs₁⟩ := mmapArena_ok hmap
      refine ((Calm.refl s).look hlook).trans (ih ?_ ?_ h)
      · intro j hj
        rw [hs₁]
        exact (if_neg (by omega)).trans (hz j (by omega))
      · rw [hs₁]
        exact ha
    · exact ih (fun j hj => hz j (by omega)) ha h

/-- The shared state as a process finds it that has nothing attached. -/
def World.found (w : World) (shmid : Nat) (shmat : Nat → Nat → List Attach → Option Nat) : Shm :=
  {w with shm := w.context shmid}.load .none shmat

/-- What `shm_init` does. -/
theorem World.init_cases {w w' : World} {pid shmid : Nat}
    {shmat : Nat → Nat → List Attach → Option Nat} (h : w.init pid shmid shmat = .ok w') :
    ((((w.context shmid).arenas 0).shmid = 0 ∨ shmat ((w.context shmid).arenas 0).shmid 0 [] = none) ∧
      ∃ k, w' = {w with shm := {w.found shmid shmat with
        sys := {(w.found shmid shmat).sys with attaches := k}}}) ∨
    ∃ addr s, ((w.context shmid).arenas 0).shmid ≠ 0 ∧
      shmat ((w.context shmid).arenas 0).shmid 0 [] = some addr ∧
      mmapArenas 127 (attachArena (w.found shmid shmat) 0 addr) 1 = .ok s ∧ w' = w.store pid s := by
  have heq : w.init pid shmid shmat = (match (w.found shmid shmat).sys.mmap
      ((w.found shmid shmat).arenas 0).shmid with
    | (y, none) => .ok {w with shm := {w.found shmid shmat with sys := y}}
    | (y, some addr) =>
      mmapArenas 127 ({w.found shmid shmat with sys := y}.setArenaAddr 0
        ⟨some addr, ((w.found shmid shmat).arenas 0).shmid⟩) 1 >>= fun s => .ok (w.store pid s)) := by
    unfold World.init World.found
    generalize {w with shm := w.context shmid}.load .none shmat = s
    dsimp only
    generalize s.sys.mmap (s.arenas 0).shmid = m
    rcases m with ⟨y, _ | addr⟩ <;> rfl
  rw [heq] at h
  rcases hmap : (w.found shmid shmat).sys.mmap ((w.found shmid shmat).arenas 0).shmid with ⟨y, _ | addr⟩
  · obtain ⟨hfail, k, rfl⟩ := Sysv.mmap_none hmap
    rw [hmap] at h
    exact .inl ⟨hfail, k, (Except.ok.inj h).symm⟩
  · obtain ⟨hne, hans, rfl⟩ := Sysv.mmap_some hmap
    rw [hmap] at h
    obtain ⟨s, hloop, h⟩ := Exec.bind_ok h
    exact .inr ⟨addr, s, hne, hans, hloop, (Except.ok.inj h).symm⟩

theorem World.SegmentsOk.found_key {w : World} (h : w.SegmentsOk) {shmid : Nat} (hm : shmid ≠ 0) {i m : Nat}
    (hk : (w.context shmid).sys.key i = some m) : m ≠ 0 := by
  unfold World.context at hk
  split at hk
  · rw [freshContext_sys] at hk
    rcases Sysv.shmget_key hk with hk | ⟨-, rfl, -⟩
    · exact h.key i m hk
    · exact hm
  · exact h.key i m hk

theorem World.SegmentsOk.found_arenas {w : World} (h : w.SegmentsOk) {shmid : Nat}
    (hne : ((w.context shmid).arenas 0).shmid ≠ 0) : ArenasOk (w.context shmid).arenas := by
  unfold World.context at hne ⊢
  split at hne
  · next hp =>
    rw [if_pos hp]
    exact freshContext_ok hne
  · next hp =>
    rw [if_neg hp]
    exact h.arenas hp

/-- A process that starts has attached the context. -/
theorem World.SegmentsOk.started {w : World} (h : w.SegmentsOk) {shmid : Nat} (hm : shmid ≠ 0)
    (hne : ((w.context shmid).arenas 0).shmid ≠ 0) (addr : Nat) (shmat : Nat → Nat → List Attach → Option Nat) :
    ShmMalloc.SegmentsOk (attachArena (w.found shmid shmat) 0 addr) :=
  ⟨h.found_arenas hne, fun _ _ => h.found_key hm⟩

/-- A process that starts has not attached the context. -/
theorem World.SegmentsOk.refused {w : World} (h : w.SegmentsOk) {shmid : Nat} (hm : shmid ≠ 0) (k : Nat)
    (shmat : Nat → Nat → List Attach → Option Nat) : World.SegmentsOk {w with shm := {w.found shmid shmat with
      sys := {(w.found shmid shmat).sys with attaches := k}}} where
  key _ _ := h.found_key hm
  arenas hp := by
    show ArenasOk (w.context shmid).arenas
    rw [World.context, if_neg hp]
    exact h.arenas hp

/-- A process that starts has a table. -/
theorem TablesOk.started {w : World} (h : TablesOk w) {shmid addr : Nat}
    {shmat : Nat → Nat → List Attach → Option Nat} (hm : shmid ≠ 0) (hf : FreshAddrs shmat)
    (hs : Served (w.context shmid).arenas .none shmat) (hne : ((w.context shmid).arenas 0).shmid ≠ 0) :
    TableOk (attachArena (w.found shmid shmat) 0 addr) where
  toSegmentsOk := h.toSegmentsOk.started hm hne addr shmat
  entries := Entries.nil.attach (a := ⟨addr, _, _⟩) 0 hne fun b hb => by cases hb
  context := rfl
  fresh := hf
  served i hpos hdiff := by
    refine hs i ?_ hpos fun hz => ?_
    · rintro rfl
      exact hdiff rfl
    · exact hpos hz.symm

theorem World.SegmentsOk.started_calm {w : World} (h : w.SegmentsOk) {shmid addr : Nat}
    {shmat : Nat → Nat → List Attach → Option Nat} (hne : ((w.context shmid).arenas 0).shmid ≠ 0) {s : Shm}
    (hloop : mmapArenas 127 (attachArena (w.found shmid shmat) 0 addr) 1 = .ok s) :
    Calm (attachArena (w.found shmid shmat) 0 addr) s :=
  mmapArenas_calm (fun j hj => if_neg (by omega)) (h.found_arenas hne).empty hloop

/-! ### Runs -/

theorem World.SegmentsOk.start {w : World} (h : w.Start) : w.SegmentsOk where
  key i m hk := by
    rw [h.2] at hk
    cases hk
  arenas hp := absurd h.1 hp

theorem World.SegmentsOk.exit {w : World} (h : w.SegmentsOk) (pid : Nat) : (w.exit pid).SegmentsOk where
  key i m hk := by
    unfold World.exit at hk
    dsimp only at hk
    split at hk
    · replace hk : Function.update w.shm.sys.key 0 none i = some m := hk
      by_cases hi : i = 0
      · rw [hi, Function.update_self] at hk
        cases hk
      · rw [Function.update_of_ne hi] at hk
        exact h.key i m hk
    · exact h.key i m hk
  arenas hp := h.arenas fun hnil => hp (by unfold World.exit; rw [hnil]; rfl)

theorem TablesOk.start {w : World} (h : w.Start) : TablesOk w where
  toSegmentsOk := .start h
  entries pid hp := by
    rw [h.1] at hp
    cases hp
  context pid hp := by
    rw [h.1] at hp
    cases hp

theorem TablesOk.exit {w : World} (h : TablesOk w) (pid : Nat) : TablesOk (w.exit pid) where
  toSegmentsOk := h.toSegmentsOk.exit pid
  entries q hq := by
    obtain ⟨hq, hne⟩ := List.mem_filter.mp hq
    show Entries (Function.update w.proc pid _ q).arenaAddrs (Function.update w.proc pid _ q).attached
    rw [Function.update_of_ne (of_decide_eq_true hne)]
    exact h.entries q hq
  context q hq := by
    obtain ⟨hq, hne⟩ := List.mem_filter.mp hq
    show ((Function.update w.proc pid _ q).arenaAddrs 0).shmid = _
    rw [Function.update_of_ne (of_decide_eq_true hne)]
    exact h.context q hq

/-- A call runs on the shared state and its process's table. -/
theorem Action.call_effect {w w' : World} {pid : Nat} {c : Call} {visits : List Nat} {os : Os}
    {shmat : Nat → Nat → List Attach → Option Nat}
    (h : (Action.call pid c visits os shmat).step w = .ok w') :
    ∃ s, Effect os (w.load (w.proc pid) shmat) s ∧ w' = w.store pid s := by
  obtain ⟨s₁, hvisit, h⟩ := Exec.bind_ok h
  obtain ⟨⟨s, ret⟩, hrun, h⟩ := Exec.bind_ok h
  exact ⟨s, .after (visit_calm hvisit) (Call.effect hrun), (Except.ok.inj h).symm⟩

theorem World.SegmentsOk.step {w w' : World} {a : Action} (h : w.SegmentsOk) (hl : a.Legal w)
    (hrun : a.step w = .ok w') : w'.SegmentsOk := by
  cases a with
  | init pid shmid shmat =>
    obtain ⟨hpid, hm, hf⟩ := hl
    rcases World.init_cases hrun with ⟨-, k, rfl⟩ | ⟨addr, s, hne, -, hloop, rfl⟩
    · exact h.refused hm.pos k shmat
    · exact .store ((h.started hm.pos hne addr shmat).calm (h.started_calm hne hloop)) pid
  | exit pid =>
    obtain rfl := Except.ok.inj hrun
    exact h.exit pid
  | call pid c visits os shmat =>
    obtain ⟨hpid, hnew, hf⟩ := hl
    obtain ⟨s, heffect, rfl⟩ := Action.call_effect hrun
    have hload := h.load (List.ne_nil_of_mem hpid) (w.proc pid) shmat
    exact .store (hload.effect (fun m hm => (hnew m hm).pos) heffect) pid

/-- Whatever the system attaches. -/
theorem World.SegmentsOk.reach {w : World} (h : worldMachine.Reach (fun _ _ => True) w) : w.SegmentsOk :=
  h.invariant (fun _ => .start) fun _ _ _ hw hl _ hrun => hw.step hl hrun

theorem TablesOk.step {w w' : World} {a : Action} (h : TablesOk w) (hl : a.Legal w)
    (hs : a.Served w) (hrun : a.step w = .ok w') : TablesOk w' := by
  cases a with
  | init pid shmid shmat =>
    obtain ⟨hpid, hm, hf⟩ := hl
    rcases World.init_cases hrun with ⟨-, k, rfl⟩ | ⟨addr, s, hne, -, hloop, rfl⟩
    · refine ⟨h.toSegmentsOk.refused hm.pos k shmat, h.entries, fun q hq => ?_⟩
      show _ = ((w.context shmid).arenas 0).shmid
      rw [World.context, if_neg (List.ne_nil_of_mem hq)]
      exact h.context q hq
    · have hstart : TableOk (attachArena (w.found shmid shmat) 0 addr) := h.started hm.pos hf hs hne
      have hcalm := h.started_calm hne hloop
      refine h.store (hstart.calm hcalm) pid fun hp => ?_
      rw [hcalm.shmid]
      show ((w.context shmid).arenas 0).shmid = _
      rw [World.context, if_neg hp]
  | exit pid =>
    obtain rfl := Except.ok.inj hrun
    exact h.exit pid
  | call pid c visits os shmat =>
    obtain ⟨hpid, hnew, hf⟩ := hl
    obtain ⟨s, heffect, rfl⟩ := Action.call_effect hrun
    have hload := h.load hpid hf hs
    have hos : ∀ shmid, os.shmid = some shmid → shmid ≠ 0 := fun m hm => (hnew m hm).pos
    exact h.store (hload.effect hos heffect) pid fun _ => hload.effect_context hos heffect

/-! ### What a lookup returns -/

/-- Every `shmat` succeeds. -/
def Attaching (shmat : Nat → Nat → List Attach → Option Nat) : Prop :=
  ∀ m k l, m ≠ 0 → (shmat m k l).isSome

def Action.Attaching : Action → Prop
  | .init _ _ shmat => ShmMalloc.Attaching shmat
  | .exit _ => True
  | .call _ _ _ _ shmat => ShmMalloc.Attaching shmat

theorem Attaching.served {shmat : Nat → Nat → List Attach → Option Nat} (h : Attaching shmat)
    (arenas : Nat → ShmArena) (p : Proc) : Served arenas p shmat :=
  fun _ _ hne _ k l => h _ k l hne

theorem TablesOk.reach {w : World} (h : worldMachine.Reach (fun _ a => a.Attaching) w) : TablesOk w := by
  refine h.invariant (fun _ => .start) fun w a w' hw hl ha hrun => hw.step hl ?_ hrun
  cases a with
  | init => exact Attaching.served ha _ _
  | exit => trivial
  | call => exact Attaching.served ha _ _

/-- No identifier has been given to a new segment while the process is attached to the old one. -/
def Held (y : Sysv) : Prop := ∀ a ∈ y.attached, y.segment a.shmid = a.segment

/-- The segment that an identifier names is attached at an address, and nothing else is. -/
structure AttachedAt (y : Sysv) (shmid addr : Nat) : Prop where
  mem : ⟨addr, shmid, y.segment shmid⟩ ∈ y.attached
  only : ∀ a ∈ y.attached, a.addr = addr → a.segment = y.segment shmid

/-- **A lookup is coherent.** In every run of any processes in which each `shmat` succeeds,
wherever a process looks up an arena in an operation: it gets the address at which it has
attached the segment of that arena, and `NULL` for an empty entry. -/
theorem lookup_coherent {w : World} {pid : Nat} {c : Call} {visits : List Nat} {os : Os}
    {shmat : Nat → Nat → List Attach → Option Nat} {s s' : Shm} {index : Nat} {r : Option Nat}
    (hw : worldMachine.Reach (fun _ a => a.Attaching) w)
    (hl : (Action.call pid c visits os shmat).Legal w) (hat : Attaching shmat)
    (hs : Passes os (w.load (w.proc pid) shmat) s) (hheld : Held s.sys)
    (hrun : getOrUpdateArenaAddr s index = .ok (s', r)) :
    if (s.arenas index).type = .empty then r = none
    else ∃ addr, r = some addr ∧ AttachedAt s'.sys (s.arenas index).shmid addr := by
  obtain ⟨hpid, hnew, hf⟩ := hl
  have hload := (TablesOk.reach hw).load hpid hf (hat.served _ _)
  have hok := hload.passes (fun m hm => (hnew m hm).pos) hs
  cases lookup_cases hok hrun with
  | current hsame =>
    by_cases he : (s.arenas index).type = .empty
    · rw [if_pos he, hok.entries.shmid_zero (hsame.trans ((hok.arenas.empty index).mp he))]
    · rw [if_neg he]
      have hpos : (s.arenaAddrs index).shmid ≠ 0 := by
        rw [hsame]
        exact fun hz => he ((hok.arenas.empty index).mpr hz)
      obtain ⟨a, ha, hentry⟩ := hok.entries.shmid_pos hpos
      have hid : (s.arenas index).shmid = a.shmid := by rw [← hsame, hentry]
      refine ⟨a.addr, by rw [hentry], ?_, fun b hb hadr => ?_⟩
      · rw [hid, hheld a ha]
        exact ha
      · rw [hok.entries.eq_of_addr hb ha hadr, hid, hheld a ha]
  | gone hne hz => rw [if_pos ((hok.arenas.empty index).mpr hz)]
  | @attached addr hne hpos _ _ hfree =>
    rw [if_neg fun he => hpos ((hok.arenas.empty index).mp he)]
    refine ⟨addr, rfl, ?_, fun b hb hadr => ?_⟩
    · rw [← detachArena_arenas s index]
      exact .head _
    · rcases List.mem_cons.mp hb with rfl | hb
      · rw [← detachArena_arenas s index]
        rfl
      · exact absurd hadr (hfree b hb)

/-! ### Runs that can be run -/

/-- A system that gives every attach the address after the highest one in use. -/
def servingShmat (_ _ : Nat) (l : List Attach) : Option Nat := some ((l.map Attach.addr).foldr max 0 + 1)

theorem servingShmat_fresh : FreshAddrs servingShmat := by
  intro m k l addr h a ha hadr
  obtain rfl := Option.some.inj h
  have hle : ∀ {l : List Nat} {n}, n ∈ l → n ≤ l.foldr max 0 := by
    intro l n hn
    induction l with
    | nil => cases hn
    | cons x l ih =>
      rcases List.mem_cons.mp hn with rfl | hn
      · exact Nat.le_max_left ..
      · exact (ih hn).trans (Nat.le_max_right ..)
  have := hle (List.mem_map_of_mem (f := Attach.addr) ha)
  omega

theorem servingShmat_attaching : Attaching servingShmat := fun _ _ _ _ => rfl

/-- An action on that system. -/
inductive Order where
  | init (pid shmid : Nat)
  | exit (pid : Nat)
  | call (pid : Nat) (c : Call) (os : Os)

def Order.action : Order → Action
  | .init pid shmid => .init pid shmid servingShmat
  | .exit pid => .exit pid
  | .call pid c os => .call pid c [] os servingShmat

theorem Order.attaching : (o : Order) → o.action.Attaching
  | .init _ _ => servingShmat_attaching
  | .exit _ => trivial
  | .call _ _ _ => servingShmat_attaching

instance (w : World) (shmid : Nat) : Decidable (NewId w shmid) :=
  decidable_of_iff (shmid ≠ 0 ∧ (∀ i < 128, w.shm.sys.key i ≠ some shmid) ∧
    ∀ pid ∈ w.pids, ∀ a ∈ (w.proc pid).attached, a.shmid ≠ shmid)
    ⟨fun h => ⟨h.1, h.2.1, h.2.2⟩, fun h => ⟨h.1, h.2, h.3⟩⟩

instance (w : World) : (o : Order) → Decidable (o.action.Legal w)
  | .init pid shmid => decidable_of_iff (pid ∉ w.pids ∧ NewId w shmid)
      ⟨fun h => ⟨h.1, h.2, servingShmat_fresh⟩, fun h => ⟨h.1, h.2.1⟩⟩
  | .exit pid => inferInstanceAs (Decidable (pid ∈ w.pids))
  | .call pid _ os => decidable_of_iff (pid ∈ w.pids ∧ ∀ shmid ∈ os.shmid, NewId w shmid)
      ⟨fun h => ⟨h.1, h.2, servingShmat_fresh⟩, fun h => ⟨h.1, h.2.1⟩⟩

def orderMachine : Machine World Order Fault :=
  ⟨World.Start, fun w o => o.action.Legal w, fun w o => o.action.step w⟩

instance (w : World) (o : Order) : Decidable (orderMachine.legal w o) :=
  inferInstanceAs (Decidable (o.action.Legal w))

theorem Order.reach {allow : World → Action → Prop} {w : World}
    (h : orderMachine.Reach (fun w o => allow w o.action) w) : worldMachine.Reach allow w := by
  induction h with
  | start h => exact .start h
  | step _ hl ha hs ih => exact .step ih hl ha hs

def World.start : World := ⟨{initShm 1 with sys := {(initShm 1).sys with attached := []}}, [], fun _ => .none⟩

/-- Two processes: 2 has attached the arena of 1 before 1 replaces it. -/
def replaced : List Order :=
  [.init 1 10, .init 2 20, .call 1 (.malloc (2 ^ 20)) (.created 11),
    .call 2 (.getAddr (1 <<< 32)) .keyFails, .call 1 (.free (1 <<< 32)) .keyFails,
    .call 1 (.malloc (2 ^ 20)) (.created 12)]

instance (y : Sysv) : Decidable (Held y) := inferInstanceAs (Decidable (∀ a ∈ y.attached, _))

/-- The entry of process 2 names segment 11 at the index where segment 12 is. -/
def staleTest (w : World) : Bool :=
  decide ((Order.call 2 (.getAddr 0) .keyFails).action.Legal w ∧ ((w.proc 2).arenaAddrs 1).shmid = 11 ∧
    (w.shm.arenas 1).shmid = 12 ∧ Held (w.load (w.proc 2) servingShmat).sys) &&
  match getOrUpdateArenaAddr (w.load (w.proc 2) servingShmat) 1 with
  | .ok (_, r) => decide (r = some 2)
  | .error _ => false

theorem exists_stale : ∃ w, worldMachine.Reach (fun _ a => a.Attaching) w ∧ staleTest w = true := by
  have hrun : (orderMachine.run (fun _ _ => true) World.start replaced).any staleTest = true := by
    decide +kernel
  obtain ⟨w, hw, ht⟩ := Machine.exists_reach (M := orderMachine) _ (fun _ o _ => o.attaching) _
    ⟨rfl, fun _ => rfl⟩ hrun
  exact ⟨w, Order.reach hw, ht⟩

theorem lookup_coherent_test : ∃ w s', worldMachine.Reach (fun _ a => a.Attaching) w ∧
    ((w.proc 2).arenaAddrs 1).shmid = 11 ∧ (w.shm.arenas 1).shmid = 12 ∧
    getOrUpdateArenaAddr (w.load (w.proc 2) servingShmat) 1 = .ok (s', some 2) ∧
    if (w.shm.arenas 1).type = .empty then some 2 = none
    else ∃ addr, some 2 = some addr ∧ AttachedAt s'.sys (w.shm.arenas 1).shmid addr := by
  obtain ⟨w, hw, ht⟩ := exists_stale
  rw [staleTest, Bool.and_eq_true, decide_eq_true_iff] at ht
  obtain ⟨⟨hl, hstale, hnow, hheld⟩, ht⟩ := ht
  split at ht
  · next s' r hrun =>
    obtain rfl := of_decide_eq_true ht
    exact ⟨w, s', hw, hstale, hnow, hrun,
      lookup_coherent (s := w.load (w.proc 2) servingShmat) hw hl servingShmat_attaching (.refl _)
        hheld hrun⟩
  · cases ht

end ShmMalloc
