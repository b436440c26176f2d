import ShmMalloc.Process.Ids

/-! What a process has attached, against its table.

A lookup detaches what it drops, and so does the deletion of an arena. `new_arena` does
not: it writes the entry of its index as if it were clear. It is not where another
process has deleted the arena that this one still has in its table; the attach of that
arena then stays for as long as the process. -/
namespace ShmMalloc
open Library

/-- The attaches of a process are those that its table names, each once. -/
structure Exact (t : Nat → ShmArenaAddr) (l : List Attach) (segment : Nat → Nat) : Prop where
  entered : ∀ a ∈ l, a.shmid ≠ 0 ∧ ∃ i < 128, t i = ⟨some a.addr, a.shmid⟩
  own : ∀ i j, (t i).shmid ≠ 0 → (t i).shmid = (t j).shmid → i = j
  held : ∀ a ∈ l, segment a.shmid = a.segment

theorem Exact.nil (segment : Nat → Nat) : Exact (fun _ => ⟨none, 0⟩) [] segment where
  entered _ ha := by cases ha
  own _ _ hi := absurd rfl hi
  held _ ha := by cases ha

/-- The segment that `new_arena` creates is not attached, or it is entered where the table
has nothing. -/
def EnteredClear (os : Os) (s : Shm) : Prop :=
  ∀ shmid index, os.shmid = some shmid → findEmptyArena s 127 1 = some index →
    (∀ k l, s.sys.shmat (s.sys.shmget index shmid).2 k l = none) ∨
      os = .created shmid ∧ (s.arenaAddrs index).shmid = 0

section
variable {U : Nat → Nat → Prop} {s s' : Shm}

/-! ### Lookups -/

theorem Exact.detach (hT : TableOk s) (h : Exact s.arenaAddrs s.sys.attached s.sys.segment) (index : Nat) :
    Exact (detachArena s index).arenaAddrs (detachArena s index).sys.attached
      (detachArena s index).sys.segment := by
  have hentry := detachArena_at hT.entries index
  refine ⟨fun a ha => ?_, fun i j hi he => ?_, fun a ha => ?_⟩
  · obtain ⟨hpos, i, hi, hent⟩ := h.entered a (detachArena_attached ha)
    refine ⟨hpos, i, hi, ?_⟩
    rw [hentry, if_neg, hent]
    rintro rfl
    rcases detachArena_cases hT.entries i with ⟨hz, -⟩ | ⟨b, -, hb, -, hd⟩
    · rw [hz] at hent
      cases hent
    · rw [hd] at ha
      have hadr := of_decide_eq_true (List.mem_filter.mp ha).2
      rw [hb] at hent
      exact hadr (Option.some.inj (congrArg ShmArenaAddr.addr hent)).symm
  · rw [hentry] at hi
    rw [hentry, hentry] at he
    by_cases h₁ : i = index <;> by_cases h₂ : j = index
    · rw [h₁, h₂]
    · rw [if_pos h₁] at hi
      exact absurd rfl hi
    · rw [if_neg h₁] at hi he
      rw [if_pos h₂] at he
      exact absurd he hi
    · rw [if_neg h₁] at hi he
      rw [if_neg h₂] at he
      exact h.own i j hi he
  · rw [detachArena_segment]
    exact h.held a (detachArena_attached ha)

/-- An attach is entered where the table has nothing. -/
theorem Exact.attach {t : Nat → ShmArenaAddr} {l : List Attach} {segment : Nat → Nat} (h : Exact t l segment)
    {a : Attach} {n : Nat} (hlt : n < 128) (hz : t n = ⟨none, 0⟩) (hpos : a.shmid ≠ 0)
    (hnew : ∀ i, (t i).shmid ≠ a.shmid) (hseg : segment a.shmid = a.segment) :
    Exact (fun i => if i = n then ⟨some a.addr, a.shmid⟩ else t i) (a :: l) segment := by
  refine ⟨fun b hb => ?_, fun i j hi he => ?_, fun b hb => ?_⟩
  · rcases List.mem_cons.mp hb with rfl | hb
    · exact ⟨hpos, n, hlt, if_pos rfl⟩
    · obtain ⟨hb₀, i, hi, hent⟩ := h.entered b hb
      refine ⟨hb₀, i, hi, ?_⟩
      rw [if_neg, hent]
      rintro rfl
      rw [hz] at hent
      cases hent
  · by_cases h₁ : i = n <;> by_cases h₂ : j = n
    · rw [h₁, h₂]
    · rw [if_pos h₁, if_neg h₂] at he
      exact absurd he.symm (hnew j)
    · rw [if_neg h₁, if_pos h₂] at he
      exact absurd he (hnew i)
    · rw [if_neg h₁] at hi he
      rw [if_neg h₂] at he
      exact h.own i j hi he
  · rcases List.mem_cons.mp hb with rfl | hb
    · exact hseg
    · exact h.held b hb

theorem Exact.look (h : Exact s.arenaAddrs s.sys.attached s.sys.segment) (hT : TableOk s)
    (hA : Apart U s) {index : Nat} {r : Option Nat} (hl : Lookup s index s' r) :
    Exact s'.arenaAddrs s'.sys.attached s'.sys.segment := by
  cases hl with
  | current => exact h
  | gone => exact h.detach hT index
  | @attached addr hne hpos htype hlt hf =>
    have hd := h.detach hT index
    have hentry := detachArena_at hT.entries index
    have harena : (detachArena s index).arenas = s.arenas := detachArena_arenas s index
    refine hd.attach (a := ⟨addr, ((detachArena s index).arenas index).shmid, _⟩) hlt ?_ ?_ ?_ rfl
    · rw [hentry]
      exact if_pos rfl
    · rw [harena]
      exact hpos
    · intro i he
      rw [harena] at he
      rw [hentry] at he
      by_cases hi : i = index
      · rw [if_pos hi] at he
        exact hpos he.symm
      · rw [if_neg hi] at he
        exact hi (hA.entry i index hpos he)

theorem Exact.calm (h : Exact s.arenaAddrs s.sys.attached s.sys.segment) (hT : TableOk s)
    (hA : Apart U s) (hc : Calm s s') : Exact s'.arenaAddrs s'.sys.attached s'.sys.segment := by
  induction hc with
  | refl => exact h
  | quiet _ q ih => rw [q.arenaAddrs, q.sys]; exact ih
  | look hc e ih => exact ih.look (hT.calm hc) (hA.calm hT hc) (lookup_cases (hT.calm hc) e)

theorem findEmptyArena_congr (h : ∀ i, (s'.arenas i).type = (s.arenas i).type) (n i : Nat) :
    findEmptyArena s' n i = findEmptyArena s n i := by
  induction n generalizing i with
  | zero => rfl
  | succ n ih => rw [findEmptyArena, findEmptyArena, h, ih]

theorem EnteredClear.calm {os : Os} (h : EnteredClear os s) (hT : TableOk s) (hc : Calm s s') :
    EnteredClear os s' := by
  have hentries : s'.sys.key = s.sys.key ∧ s'.sys.shmat = s.sys.shmat ∧
      ∀ i, (s.arenas i).shmid = 0 → (s.arenaAddrs i).shmid = 0 → (s'.arenaAddrs i).shmid = 0 := by
    induction hc with
    | refl => exact ⟨rfl, rfl, fun _ _ h => h⟩
    | quiet _ q ih => rw [q.sys, q.arenaAddrs]; exact ih
    | look hc e ih =>
      have hl := lookup_cases (hT.calm hc) e
      obtain ⟨-, hk, ht⟩ := hl.entries (hT.calm hc)
      refine ⟨hk.trans ih.1, ?_, fun i hi hz => ?_⟩
      · rw [← ih.2.1]
        cases hl with
        | current => rfl
        | gone => exact detachArena_shmat ..
        | attached => exact detachArena_shmat ..
      · rcases ht i with ht | ht | ht
        · exact ht
        · rw [ht, ih.2.2 i hi hz]
        · rw [ht, hc.shmid, hi]
  intro m index hm hf
  rw [findEmptyArena_congr hc.type] at hf
  have hshmget : (s'.sys.shmget index m).2 = (s.sys.shmget index m).2 := by
    unfold Sysv.shmget
    rw [hentries.1]
    split <;> rfl
  rw [hshmget, hentries.2.1]
  refine (h m index hm hf).imp_right fun ⟨hos, hz⟩ => ⟨hos, hentries.2.2 index ?_ hz⟩
  exact (hT.arenas.empty index).mp (findEmptyArena_some hf).2.2

/-! ### A new arena -/

theorem Sysv.shmget_segment {y : Sysv} {index m m' : Nat} (hne : m' ≠ m) :
    (y.shmget index m).1.segment m' = y.segment m' := by
  obtain ⟨m₀, -, h⟩ | ⟨-, h⟩ := y.shmget_cases index m
  · rw [h]
  · rw [h]
    exact Function.update_of_ne hne ..

/-- The attaches of a table that does not have the new identifier. -/
theorem Exact.segment {t : Nat → ShmArenaAddr} {l : List Attach} {y : Sysv} (h : Exact t l y.segment)
    {n m : Nat} (hm : ∀ i, (t i).shmid ≠ m) : Exact t l (y.shmget n m).1.segment where
  entered := h.entered
  own := h.own
  held a ha := by
    obtain ⟨-, i, -, hi⟩ := h.entered a ha
    rw [Sysv.shmget_segment, h.held a ha]
    rintro rfl
    exact hm i (by rw [hi])

theorem Exact.newArena (h : Exact s.arenaAddrs s.sys.attached s.sys.segment) (hT : TableOk s)
    (hA : Apart U s) {os : Os} (hos : ∀ m, os.shmid = some m → NewAt U s m) (hc : EnteredClear os s)
    (hn : NewArena os s s') : Exact s'.arenaAddrs s'.sys.attached s'.sys.segment := by
  cases hn with
  | refused => exact h
  | @segment index m k hm hf =>
    have := h.segment (y := s.sys) (n := index) (hos m hm).unused.entry
    rwa [← s.sys.shmget_attached index m] at this
  | @leaked index m addr hm hf ha =>
    obtain ⟨k, ha⟩ := ha
    rcases hc m index (by rw [hm]; rfl) hf with hnone | ⟨hos, -⟩
    · rw [hnone] at ha
      cases ha
    · rw [hm] at hos
      cases hos
  | @entered index m addr size type hm ht hf hpos ha =>
    obtain ⟨k, ha⟩ := ha
    obtain ⟨hge, hlt, -⟩ := findEmptyArena_some hf
    have hnew := hos m (by rw [hm]; rfl)
    rcases hc m index (by rw [hm]; rfl) hf with hnone | ⟨-, hz⟩
    · rw [hnone] at ha
      cases ha
    · have hseg := h.segment (y := s.sys) (n := index) hnew.unused.entry
      rw [enterArena_attached, attachNew_attached, enterArena_segment, attachNew_segment]
      exact hseg.attach (a := ⟨addr, _, _⟩) (by omega) (hT.entries.shmid_zero hz) hpos
        (hA.shmget_unused (n := index) (by omega) (by omega) hnew).1.entry rfl

/-- Every other identifier names what it did. -/
theorem NewArena.kept {os : Os} {m : Nat} (hne : os.shmid ≠ some m) (hn : NewArena os s s') :
    s'.sys.segment m = s.sys.segment m := by
  have hdiff : ∀ m', os.shmid = some m' → m ≠ m' := by
    rintro m' hm rfl
    exact hne hm
  cases hn with
  | refused => rfl
  | segment k hm => exact Sysv.shmget_segment (hdiff _ hm)
  | leaked hm => exact Sysv.shmget_segment (hdiff _ (by rw [hm]; rfl))
  | entered hm => exact Sysv.shmget_segment (hdiff _ (by rw [hm]; rfl))

theorem Calm.segment (hT : TableOk s) (hc : Calm s s') : s'.sys.segment = s.sys.segment := by
  induction hc with
  | refl => rfl
  | quiet _ q ih => rw [q.sys, ih]
  | look hc e ih =>
    rw [← ih]
    cases lookup_cases (hT.calm hc) e with
    | current => rfl
    | gone => exact detachArena_segment ..
    | attached => exact detachArena_segment ..

theorem Passes.kept (hT : TableOk s) {os : Os} {m : Nat} (hpos : ∀ m, os.shmid = some m → m ≠ 0)
    (hne : os.shmid ≠ some m) (hp : Passes os s s') : s'.sys.segment m = s.sys.segment m := by
  obtain ⟨s₁, s₂, hc, hn, hc'⟩ := hp
  rcases hn with rfl | hn
  · rw [hc'.segment (hT.calm hc), hc.segment hT]
  · rw [hc'.segment ((hT.calm hc).newArena hpos hn.newArena), hn.newArena.kept hne, hc.segment hT]

theorem Exact.passes (h : Exact s.arenaAddrs s.sys.attached s.sys.segment) (hT : TableOk s)
    (hA : Apart U s) {os : Os} (hos : ∀ m, os.shmid = some m → NewAt U s m) (he : EnteredClear os s)
    (hp : Passes os s s') : Exact s'.arenaAddrs s'.sys.attached s'.sys.segment := by
  obtain ⟨s₁, s₂, hc, hn, hc'⟩ := hp
  have hos₁ : ∀ m, os.shmid = some m → NewAt U s₁ m := fun m hm => (hos m hm).calm hT hc
  have h₁ := h.calm hT hA hc
  have hT₁ := hT.calm hc
  have hA₁ := hA.calm hT hc
  rcases hn with rfl | hn
  · exact h₁.calm hT₁ hA₁ hc'
  · exact (h₁.newArena hT₁ hA₁ hos₁ (he.calm hT hc) hn.newArena).calm
      (hT₁.newArena (fun m hm => (hos m hm).unused.pos) hn.newArena) (hA₁.newArena hos₁ hn.newArena) hc'

/-- An operation that enters its new arena where the table has nothing. -/
theorem Exact.effect (h : Exact s.arenaAddrs s.sys.attached s.sys.segment) (hT : TableOk s)
    (hA : Apart U s) {os : Os} (hos : ∀ m, os.shmid = some m → NewAt U s m) (hc : EnteredClear os s)
    (he : Effect os s s') : Exact s'.arenaAddrs s'.sys.attached s'.sys.segment := by
  obtain ⟨u, hp, rfl | hd⟩ := he
  · exact h.passes hT hA hos hc hp
  · have hTu := hT.passes (fun m hm => (hos m hm).unused.pos) hp
    obtain ⟨index, hi, -, -, rfl⟩ := hTu.deletes hd
    have hu := h.passes hT hA hos hc hp
    exact Exact.detach (s := u.zeroArena index) (hTu.zeroArena hi) hu index

theorem Effect.kept (hT : TableOk s) {os : Os} {m : Nat} (hpos : ∀ m, os.shmid = some m → m ≠ 0)
    (hne : os.shmid ≠ some m) (he : Effect os s s') : s'.sys.segment m = s.sys.segment m := by
  obtain ⟨u, hp, rfl | hd⟩ := he
  · exact hp.kept hT hpos hne
  · obtain ⟨index, hi, -, -, rfl⟩ := (hT.passes hpos hp).deletes hd
    rw [detachArena_segment]
    show u.sys.segment m = _
    exact hp.kept hT hpos hne

end

/-! ### Runs -/

/-- Everybody's attaches. -/
def ExactAll (w : World) : Prop :=
  ∀ pid ∈ w.pids, Exact (w.proc pid).arenaAddrs (w.proc pid).attached w.shm.sys.segment

/-- The attaches that an action needs succeed, its new segment gets an identifier that no
arena has, and `new_arena` does not overwrite an entry, nor leave its segment attached
without one. -/
def Action.Clean (w : World) (a : Action) : Prop :=
  a.Served w ∧ a.Fresh w ∧
    match a with
    | .call pid _ _ os shmat => EnteredClear os (w.load (w.proc pid) shmat)
    | _ => True

theorem ExactAll.store {w : World} {pid : Nat} {s : Shm} (h : ExactAll w)
    (hs : Exact s.arenaAddrs s.sys.attached s.sys.segment)
    (hk : ∀ i m, w.others pid i m → s.sys.segment m = w.shm.sys.segment m) : ExactAll (w.store pid s) := by
  intro q hq
  have heq : (w.store pid s).proc q = Function.update w.proc pid ⟨s.arenaAddrs, s.sys.attached⟩ q := rfl
  rw [heq]
  by_cases hne : q = pid
  · rw [hne, Function.update_self]
    exact hs
  · rw [Function.update_of_ne hne]
    have hq := World.mem_store hne hq
    refine ⟨(h q hq).entered, (h q hq).own, fun a ha => ?_⟩
    obtain ⟨-, i, -, hi⟩ := (h q hq).entered a ha
    rw [← (h q hq).held a ha]
    exact hk i a.shmid ⟨q, hq, hne, by rw [hi]⟩

/-- The tables of all processes, the identifiers in them, and the attaches. -/
structure ProcsOk (w : World) : Prop where
  tables : TablesOk w
  ids : IdsOk w
  exact : ExactAll w

theorem ProcsOk.step {w w' : World} {a : Action} (h : ProcsOk w) (hl : a.Legal w) (hc : a.Clean w)
    (hrun : a.step w = .ok w') : ProcsOk w' := by
  obtain ⟨hT, hI, hE⟩ := h
  obtain ⟨hs, hf, hclear⟩ := hc
  refine ⟨hT.step hl hs hrun, hI.step hT hl hs hf hrun, ?_⟩
  cases a with
  | init pid shmid shmat =>
    obtain ⟨hpid, hm, hfresh⟩ := hl
    have hseg : w.pids ≠ [] → (w.found shmid shmat).sys.segment = w.shm.sys.segment := fun hp => by
      show (w.context shmid).sys.segment = _
      rw [World.context, if_neg hp]
    rcases World.init_cases hrun with ⟨-, k, rfl⟩ | ⟨addr, s, hne, -, hloop, rfl⟩
    · intro q hq
      have hp := List.ne_nil_of_mem hq
      rw [show ({w with shm := {w.found shmid shmat with
          sys := {(w.found shmid shmat).sys with attaches := k}}} : World).shm.sys.segment =
        w.shm.sys.segment from hseg hp]
      exact hE q hq
    · have hT₀ : TableOk (attachArena (w.found shmid shmat) 0 addr) := hT.started hm.pos hfresh hs hne
      have hA₀ : Apart (w.others pid) (attachArena (w.found shmid shmat) 0 addr) := hI.started hT hm
      have hcalm := hT.started_calm hne hloop
      have hE₀ := (Exact.nil (w.found shmid shmat).sys.segment).attach (n := 0)
        (a := ⟨addr, ((w.context shmid).arenas 0).shmid, (w.found shmid shmat).sys.segment _⟩)
        (by omega) rfl hne (fun i => hne.symm) rfl
      refine hE.store (Exact.calm hE₀ hT₀ hA₀ hcalm) fun i m hu => ?_
      obtain ⟨q, hq, -⟩ := hu
      rw [hcalm.segment hT₀]
      exact congrFun (hseg (List.ne_nil_of_mem hq)) m
  | exit pid =>
    obtain rfl := Except.ok.inj hrun
    intro q hq
    obtain ⟨hq, hne⟩ := List.mem_filter.mp hq
    have heq : (w.exit pid).proc q = Function.update w.proc pid .none q := rfl
    have hseg : (w.exit pid).shm.sys.segment = w.shm.sys.segment := by
      unfold World.exit
      dsimp only
      split <;> rfl
    rw [heq, Function.update_of_ne (of_decide_eq_true hne), hseg]
    exact hE q hq
  | call pid c visits os shmat =>
    obtain ⟨hpid, hnew, hfresh⟩ := hl
    obtain ⟨s, heffect, rfl⟩ := Action.call_effect hrun
    have hload := hT.load hpid hfresh hs
    have hos : ∀ m, os.shmid = some m → NewAt (w.others pid) (w.load (w.proc pid) shmat) m :=
      fun m hm => (hnew m hm).newAt hT hpid (hf m hm)
    exact hE.store (Exact.effect (hE pid hpid) hload (hI.load hpid) hos hclear heffect)
      fun i m hu => heffect.kept hload (fun m hm => (hnew m hm).pos) fun hm => (hos m hm).unused.other i hu

theorem ProcsOk.start {w : World} (h : w.Start) : ProcsOk w := by
  refine ⟨.start h, .start h, fun q hq => ?_⟩
  rw [h.1] at hq
  cases hq

/-- What is attached is what the table names, each segment once. -/
structure AttachedExactly (p : Proc) (segment : Nat → Nat) : Prop where
  iff : ∀ m, (∃ a ∈ p.attached, a.shmid = m) ↔ m ≠ 0 ∧ ∃ i < 128, (p.arenaAddrs i).shmid = m
  once : (p.attached.map Attach.shmid).Nodup
  named : ∀ a ∈ p.attached, segment a.shmid = a.segment

/-- **The attaches of every process are those that its table names**, in every run whose
steps are clean. -/
theorem attached_exactly {w : World} (h : worldMachine.Reach Action.Clean w) {pid : Nat}
    (hp : pid ∈ w.pids) : AttachedExactly (w.proc pid) w.shm.sys.segment := by
  have hok : ProcsOk w := h.invariant (fun _ => .start) fun _ _ _ hw hl hc hrun => hw.step hl hc hrun
  have hE := hok.exact pid hp
  have hT := hok.tables.entries pid hp
  refine ⟨fun m => ⟨?_, ?_⟩, ?_, hE.held⟩
  · rintro ⟨a, ha, rfl⟩
    obtain ⟨hpos, i, hlt, hi⟩ := hE.entered a ha
    exact ⟨hpos, i, hlt, by rw [hi]⟩
  · rintro ⟨hpos, i, -, rfl⟩
    obtain ⟨a, ha, hi⟩ := hT.shmid_pos hpos
    exact ⟨a, ha, by rw [hi]⟩
  · refine List.Nodup.map_on (fun a ha b hb he => ?_) (List.Nodup.of_map _ hT.nodup)
    obtain ⟨hpos, i, -, hi⟩ := hE.entered a ha
    obtain ⟨-, j, -, hj⟩ := hE.entered b hb
    have hij : i = j := hE.own i j (by rw [hi]; exact hpos) (by rw [hi, hj]; exact he)
    rw [hij, hj] at hi
    exact hT.eq_of_addr ha hb (Option.some.inj (congrArg ShmArenaAddr.addr hi)).symm

/-! ### Runs of two processes -/

/-- The new segment has a new identifier, and an index where the table has nothing. -/
def cleanTest (w : World) : Order → Bool
  | .call pid _ (.created shmid) =>
    decide (∀ i : Nat, i < 128 → (w.shm.arenas i).shmid ≠ shmid) &&
      match findEmptyArena w.shm 127 1 with
      | some index => ((w.proc pid).arenaAddrs index).shmid = 0
      | none => true
  | .call _ _ (.removeFails _) => false
  | _ => true

theorem Order.served (w : World) : (o : Order) → o.action.Served w
  | .init _ _ => servingShmat_attaching.served _ _
  | .exit _ => trivial
  | .call _ _ _ => servingShmat_attaching.served _ _

theorem cleanTest_clean (w : World) (o : Order) (h : cleanTest w o = true) : o.action.Clean w := by
  refine ⟨o.served w, ?_⟩
  cases o with
  | init => exact ⟨trivial, trivial⟩
  | exit => exact ⟨trivial, trivial⟩
  | call pid c os =>
    cases os with
    | keyFails => exact ⟨fun m hm => (by cases hm), fun m index hm => (by cases hm)⟩
    | shmgetFails => exact ⟨fun m hm => (by cases hm), fun m index hm => (by cases hm)⟩
    | removeFails => cases h
    | created m =>
      rw [cleanTest, Bool.and_eq_true, decide_eq_true_iff] at h
      obtain ⟨hfresh, hclear⟩ := h
      refine ⟨fun m' hm => Option.some.inj hm ▸ hfresh, fun m' index hm hf => .inr ⟨?_, ?_⟩⟩
      · rw [← Option.some.inj hm]
      · replace hf : findEmptyArena w.shm 127 1 = some index := by
          rw [← hf]
          exact (findEmptyArena_congr (fun _ => rfl) 127 1).symm
        rw [hf] at hclear
        exact of_decide_eq_true hclear

/-- Process 2 drops its entry before it creates an arena at the same index. -/
def dropped : List Order :=
  [.init 1 10, .init 2 20, .call 1 (.malloc (2 ^ 20)) (.created 11),
    .call 2 (.getAddr (1 <<< 32)) .keyFails, .call 1 (.free (1 <<< 32)) .keyFails,
    .call 2 (.getAddr (1 <<< 32)) .keyFails, .call 2 (.malloc (2 ^ 20)) (.created 12)]

theorem attached_exactly_test : ∃ w, worldMachine.Reach Action.Clean w ∧ 2 ∈ w.pids ∧
    AttachedExactly (w.proc 2) w.shm.sys.segment := by
  have hrun : (orderMachine.run cleanTest World.start dropped).any (fun w => 2 ∈ w.pids) = true := by
    decide +kernel
  obtain ⟨w, hw, hp⟩ := Machine.exists_reach (M := orderMachine) _ cleanTest_clean _
    ⟨rfl, fun _ => rfl⟩ hrun
  have hp := of_decide_eq_true hp
  exact ⟨w, Order.reach hw, hp, attached_exactly (Order.reach hw) hp⟩

/-- Process 2 creates an arena at the index of an arena that 1 has deleted and 2 has attached. -/
def overwritten : List Order :=
  [.init 1 10, .init 2 20, .call 1 (.malloc (2 ^ 20)) (.created 11),
    .call 2 (.getAddr (1 <<< 32)) .keyFails, .call 1 (.free (1 <<< 32)) .keyFails,
    .call 2 (.malloc (2 ^ 20)) (.created 12)]

/-- Every call to the system succeeds, and process 2 has something attached that its table
does not name. -/
theorem attach_lost : ∃ w, worldMachine.Reach (fun _ a => a.Attaching) w ∧ 2 ∈ w.pids ∧
    ∃ a ∈ (w.proc 2).attached, ∀ i < 128, ((w.proc 2).arenaAddrs i).shmid ≠ a.shmid := by
  have hrun : (orderMachine.run (fun _ _ => true) World.start overwritten).any (fun w =>
      decide (2 ∈ w.pids ∧ ∃ a ∈ (w.proc 2).attached, ∀ i < 128,
        ((w.proc 2).arenaAddrs i).shmid ≠ a.shmid)) = true := by
    decide +kernel
  obtain ⟨w, hw, hlost⟩ := Machine.exists_reach (M := orderMachine) _ (fun _ o _ => o.attaching) _
    ⟨rfl, fun _ => rfl⟩ hrun
  exact ⟨w, Order.reach hw, of_decide_eq_true hlost⟩

end ShmMalloc
