import ShmMalloc.Client.Model

/-! Addresses stay valid.

The entry that a lookup leaves in the table of its process names the arena's segment. As
long as the arena is there nothing that a process does changes its entry: a lookup of
the arena finds it up to date, and entries are written and dropped at other indices
only. The address of a live block is therefore mapped until the block is freed. -/
namespace ShmMalloc
open Library

section Effect
variable {s s' : Shm} {os : Os} {i : Nat}

/-- A lookup leaves an entry that is up to date. -/
theorem Calm.entry (hT : TableOk s) (hc : Calm s s') (h : (s.arenaAddrs i).shmid = (s.arenas i).shmid) :
    s'.arenaAddrs i = s.arenaAddrs i := by
  induction hc with
  | refl => rfl
  | quiet _ q ih => rw [q.arenaAddrs, ih]
  | @look s₁ s₂ index r hc e ih =>
    have hT₁ := hT.calm hc
    have hcur : (s₁.arenaAddrs i).shmid = (s₁.arenas i).shmid := by rw [ih, h, hc.shmid]
    have hd := detachArena_at hT₁.entries index i
    rw [← ih]
    cases lookup_cases hT₁ e with
    | current => rfl
    | gone hne =>
      rw [hd, if_neg]
      rintro rfl
      exact hne hcur
    | attached hne =>
      have hi : i ≠ index := by
        rintro rfl
        exact hne hcur
      show (if i = index then _ else (detachArena s₁ index).arenaAddrs i) = _
      rw [if_neg hi, hd, if_neg hi]

/-- A new arena is entered where there was none. -/
theorem NewArena.entry (hn : NewArena os s s') (hi : (s.arenas i).type ≠ .empty) : s'.arenaAddrs i = s.arenaAddrs i := by
  cases hn with
  | refused => rfl
  | segment => rfl
  | leaked => rfl
  | entered _ _ hf =>
    rw [enterArena_arenaAddrs]
    refine if_neg ?_
    rintro rfl
    exact hi (findEmptyArena_some hf).2.2

theorem Passes.entry (hT : TableOk s) (hos : ∀ m, os.shmid = some m → m ≠ 0) (hp : Passes os s s')
    (hi : (s.arenas i).type ≠ .empty) (h : (s.arenaAddrs i).shmid = (s.arenas i).shmid) :
    s'.arenaAddrs i = s.arenaAddrs i := by
  obtain ⟨s₁, s₂, hc, hn, hc'⟩ := hp
  have h₁ := hc.entry hT h
  have hi₁ : (s₁.arenas i).type ≠ .empty := by rwa [hc.type]
  have hcur : (s₁.arenaAddrs i).shmid = (s₁.arenas i).shmid := by rw [h₁, h, hc.shmid]
  rcases hn with rfl | hn
  · rw [hc'.entry (hT.calm hc) hcur, h₁]
  · have hn := hn.newArena
    have hentry := hn.entry hi₁
    have hT₂ := (hT.calm hc).newArena hos hn
    rw [hc'.entry hT₂ (by rw [hentry, hcur, hn.arena hi₁]), hentry, h₁]

/-- An arena that is deleted is empty. -/
theorem TableOk.deletes_ne (hT : TableOk s) (hd : Deletes s s') (hi : (s'.arenas i).type ≠ .empty) :
    s'.arenas i = s.arenas i ∧ s'.arenaAddrs i = s.arenaAddrs i := by
  obtain ⟨index, h₀, -, -, rfl⟩ := hT.deletes hd
  have hne : i ≠ index := by
    rintro rfl
    rw [detachArena_arenas, (SetAt.zeroArena s i).self] at hi
    exact hi rfl
  have hT' := hT.zeroArena h₀
  rw [detachArena_arenas, detachArena_at hT'.entries index i, if_neg hne]
  exact ⟨(SetAt.zeroArena s index).other hne, rfl⟩

/-- An arena that is there before and after an operation is the same, and so is its entry. -/
theorem Effect.entry (hT : TableOk s) (hos : ∀ m, os.shmid = some m → m ≠ 0) (he : Effect os s s')
    (hi : (s.arenas i).type ≠ .empty) (hi' : (s'.arenas i).type ≠ .empty) :
    (s'.arenas i).shmid = (s.arenas i).shmid ∧
      ((s.arenaAddrs i).shmid = (s.arenas i).shmid → s'.arenaAddrs i = s.arenaAddrs i) := by
  obtain ⟨u, hp, hd⟩ := he
  have harena := (hp.arena hi).2
  rcases hd with rfl | hd
  · exact ⟨harena, fun h => hp.entry hT hos hi h⟩
  · obtain ⟨h₁, h₂⟩ := (hT.passes hos hp).deletes_ne hd hi'
    exact ⟨by rw [h₁, harena], fun h => by rw [h₂, hp.entry hT hos hi h]⟩

/-- A lookup of an arena in use. -/
theorem Lookup.entry {r : Option Nat} (hT : TableOk s) (hl : Lookup s i s' r) (hi : (s.arenas i).type ≠ .empty) :
    ∃ addr, r = some addr ∧ s'.arenaAddrs i = ⟨some addr, (s.arenas i).shmid⟩ := by
  have hm : (s.arenas i).shmid ≠ 0 := fun h => hi ((hT.arenas.empty i).mpr h)
  cases hl with
  | current h =>
    obtain ⟨a, -, ha⟩ := hT.entries.shmid_pos (h ▸ hm)
    rw [← h, ha]
    exact ⟨a.addr, rfl, rfl⟩
  | gone _ he => exact absurd he hm
  | @attached addr =>
    refine ⟨addr, rfl, ?_⟩
    show (if i = i then _ else _) = _
    rw [if_pos rfl, detachArena_arenas]

end Effect

/-! ### Processes -/

/-- The table of the process has the arena at an address. -/
structure World.HasEntry (w : World) (pid i addr : Nat) : Prop where
  mem : pid ∈ w.pids
  inUse : (w.shm.arenas i).type ≠ .empty
  entry : (w.proc pid).arenaAddrs i = ⟨some addr, (w.shm.arenas i).shmid⟩

section World
variable {w w' : World} {pid i addr : Nat}

/-- What is attached at the address is the segment of the arena. -/
theorem AliveOk.mapped (hw : AliveOk w) (h : w.HasEntry pid i addr) : w.mapped pid addr = some i := by
  have hA := hw.tables.arenas (List.ne_nil_of_mem h.mem)
  have hE := hw.tables.entries pid h.mem
  have hm : (w.shm.arenas i).shmid ≠ 0 := fun he => h.inUse ((hA.empty i).mpr he)
  have hlt : i < 128 := by
    by_contra hge
    exact h.inUse (hA.bound i (by omega))
  obtain ⟨a, ha, heq⟩ := hE.shmid_pos (by rw [h.entry]; exact hm)
  rw [h.entry] at heq
  obtain ⟨rfl, hshmid⟩ : addr = a.addr ∧ (w.shm.arenas i).shmid = a.shmid := by simpa using heq
  have hfind : (w.proc pid).attached.find? (fun b => b.addr = a.addr) = some a := by
    cases hf : (w.proc pid).attached.find? fun b => b.addr = a.addr with
    | none => exact absurd (decide_eq_true rfl) (List.find?_eq_none.mp hf a ha)
    | some b =>
      have hb := List.find?_some hf
      rw [hE.eq_of_addr (List.mem_of_find?_eq_some hf) ha (by simpa using hb)]
  rw [World.mapped, hfind, Option.bind_some]
  have hown : ∀ j, (w.shm.arenas j).shmid = a.shmid → j = i := fun j hj =>
    (hw.ids.apart (List.ne_nil_of_mem h.mem)).arena j i (fun he => hm (hshmid.trans (hj.symm.trans he)))
      (hj.trans hshmid.symm)
  have hseg := hw.held pid h.mem a ha
  cases hf : (List.range 128).find? fun i =>
      a.shmid ≠ 0 ∧ (w.shm.arenas i).shmid = a.shmid ∧ w.shm.sys.segment a.shmid = a.segment with
  | none =>
    have := List.find?_eq_none.mp hf i (List.mem_range.mpr hlt)
    exact absurd (decide_eq_true ⟨hshmid ▸ hm, hshmid, hseg⟩) this
  | some j =>
    have hj := List.find?_some hf
    rw [hown j (of_decide_eq_true hj).2.1]

/-- An action leaves the entries of the arenas that it leaves. -/
theorem World.HasEntry.step {a : Action} (h : w.HasEntry pid i addr) (hw : AliveOk w) (hl : a.Legal w) (hg : a.Granted w)
    (hrun : a.step w = .ok w') (hp : pid ∈ w'.pids) (hi : (w'.shm.arenas i).type ≠ .empty) : w'.HasEntry pid i addr := by
  have hne := List.ne_nil_of_mem h.mem
  cases a with
  | init q shmid shmat =>
    have hcontext : w.context shmid = w.shm := if_neg hne
    have hq : pid ≠ q := fun he => hl.1 (he ▸ h.mem)
    rcases World.init_cases hrun with ⟨-, k, rfl⟩ | ⟨addr', s, hm, -, hloop, rfl⟩
    · refine ⟨h.mem, hi, ?_⟩
      show (w.proc pid).arenaAddrs i = ⟨some addr, ((w.context shmid).arenas i).shmid⟩
      rw [hcontext, h.entry]
    · have hcalm := hw.tables.started_calm hm hloop
      refine ⟨hp, hi, ?_⟩
      show (Function.update w.proc q _ pid).arenaAddrs i = ⟨some addr, (s.arenas i).shmid⟩
      rw [Function.update_of_ne hq, hcalm.shmid, h.entry]
      show _ = (⟨some addr, ((w.context shmid).arenas i).shmid⟩ : ShmArenaAddr)
      rw [hcontext]
  | exit q =>
    obtain rfl := Except.ok.inj hrun
    have hq : pid ≠ q := fun he => by simp [World.exit, he] at hp
    refine ⟨hp, hi, ?_⟩
    show (Function.update w.proc q _ pid).arenaAddrs i = _
    rw [Function.update_of_ne hq]
    exact h.entry
  | call q c visits os shmat =>
    have hserved := hw.served hl hg
    obtain ⟨hq, hm, hf⟩ := hl
    obtain ⟨s, he, rfl⟩ := Action.call_effect hrun
    have hT := hw.tables.load hq hf hserved
    obtain ⟨hshmid, hkept⟩ := he.entry hT (fun m hos => (hm m hos).pos) h.inUse hi
    refine ⟨hp, hi, ?_⟩
    by_cases hqp : pid = q
    · subst hqp
      have hentry : (w.load (w.proc pid) shmat).arenaAddrs i = ⟨some addr, (w.shm.arenas i).shmid⟩ := h.entry
      show (Function.update w.proc pid _ pid).arenaAddrs i = ⟨some addr, (s.arenas i).shmid⟩
      rw [Function.update_self, hshmid]
      show s.arenaAddrs i = _
      rw [hkept (by rw [hentry]; rfl), hentry]
      rfl
    · show (Function.update w.proc q _ pid).arenaAddrs i = ⟨some addr, (s.arenas i).shmid⟩
      rw [Function.update_of_ne hqp, hshmid]
      exact h.entry

end World

end ShmMalloc
