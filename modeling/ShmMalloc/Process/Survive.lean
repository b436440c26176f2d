import ShmMalloc.Process.Exact

/-! Whether the segments of the arenas outlive the processes.

`new_arena` marks its segment for removal while only its own process has it attached.
Other processes attach it when they look it up, and a process that starts attaches all
there are; so an arena lasts as long as one of those does. When the last of them exits
the segment goes, and the arena table still has its identifier. -/
namespace ShmMalloc
open Library

/-- A process has attached the segment that the identifier names. -/
def World.Attached (w : World) (pid shmid : Nat) : Prop :=
  pid ∈ w.pids ∧ ∃ a ∈ (w.proc pid).attached, a.shmid = shmid ∧ a.segment = w.shm.sys.segment shmid

/-- The identifier names a segment: it is not marked for removal, or it is attached. -/
def World.Exists (w : World) (shmid : Nat) : Prop :=
  (∃ i < 128, w.shm.sys.key i = some shmid) ∨ ∃ pid, w.Attached pid shmid

/-- The attach of a segment that exists, or is created, succeeds. -/
def Action.Granted (w : World) : Action → Prop
  | .init _ shmid shmat => ∀ m, w.Exists m ∨ m = shmid → ∀ k l, (shmat m k l).isSome
  | .exit _ => True
  | .call _ _ _ os shmat => ∀ m, w.Exists m ∨ os.shmid = some m → ∀ k l, (shmat m k l).isSome

/-- A process that exits leaves each arena attached by another one, or is the last. -/
def Action.Keeping (w : World) : Action → Prop
  | .exit pid => (∀ q ∈ w.pids, q = pid) ∨
    ∀ i < 128, (w.shm.arenas i).type ≠ .empty → ∃ q ≠ pid, w.Attached q (w.shm.arenas i).shmid
  | _ => True

/-! ### In an operation -/

/-- Every arena is attached by the process or, as `V` tells, by others. -/
def AliveAt (V : Nat → Prop) (s : Shm) : Prop :=
  ∀ i, (s.arenas i).shmid ≠ 0 →
    V (s.arenas i).shmid ∨ ∃ a ∈ s.sys.attached, a.shmid = (s.arenas i).shmid

section
variable {U : Nat → Nat → Prop} {V : Nat → Prop} {s s' : Shm}

/-- What is detached with a stale entry is not the segment of any arena. -/
theorem AliveAt.detach (h : AliveAt V s) (hT : TableOk s) (hA : Apart U s) {index : Nat}
    (hstale : (s.arenaAddrs index).shmid ≠ (s.arenas index).shmid) : AliveAt V (detachArena s index) := by
  intro i hi
  rw [detachArena_arenas] at hi ⊢
  refine (h i hi).imp_right fun ⟨a, ha, hm⟩ => ⟨a, ?_, hm⟩
  rcases detachArena_cases hT.entries index with ⟨-, hd⟩ | ⟨b, hb, hentry, -, hd⟩
  · rwa [hd]
  · rw [hd]
    refine List.mem_filter.mpr ⟨ha, decide_eq_true fun hadr => hstale ?_⟩
    have hab : a = b := hT.entries.eq_of_addr ha hb hadr
    have hown : (s.arenaAddrs index).shmid = (s.arenas i).shmid := by rw [hentry, ← hab, hm]
    obtain rfl := hA.entry index i hi hown
    exact hown

theorem AliveAt.look (h : AliveAt V s) (hT : TableOk s) (hA : Apart U s) {index : Nat} {r : Option Nat}
    (hl : Lookup s index s' r) : AliveAt V s' := by
  cases hl with
  | current => exact h
  | gone hne => exact h.detach hT hA hne
  | attached hne =>
    intro i hi
    exact (h.detach hT hA hne i hi).imp_right fun ⟨a, ha, hm⟩ => ⟨a, .tail _ ha, hm⟩

theorem AliveAt.calm (h : AliveAt V s) (hT : TableOk s) (hA : Apart U s) (hc : Calm s s') :
    AliveAt V s' := by
  induction hc with
  | refl => exact h
  | quiet _ q ih =>
    intro i
    rw [q.shmid, q.sys]
    exact ih i
  | look hc e ih => exact ih.look (hT.calm hc) (hA.calm hT hc) (lookup_cases (hT.calm hc) e)

theorem AliveAt.newArena (h : AliveAt V s) {os : Os} (hn : NewArena os s s') : AliveAt V s' := by
  cases hn with
  | refused => exact h
  | @segment index m k =>
    intro i hi
    obtain hv | ⟨a, ha, hm⟩ := h i hi
    · exact .inl hv
    · exact .inr ⟨a, (s.sys.shmget_attached index m).symm ▸ ha, hm⟩
  | leaked =>
    intro i hi
    obtain hv | ⟨a, ha, hm⟩ := h i hi
    · exact .inl hv
    · exact .inr ⟨a, by rw [attachNew_attached]; exact .tail _ ha, hm⟩
  | @entered index m addr size type =>
    intro i hi
    rw [enterArena_arenas] at hi ⊢
    rw [enterArena_attached, attachNew_attached]
    by_cases he : i = index
    · rw [if_pos he]
      exact .inr ⟨_, .head _, rfl⟩
    · rw [if_neg he] at hi ⊢
      exact (h i hi).imp_right fun ⟨a, ha, hm⟩ => ⟨a, .tail _ ha, hm⟩

theorem AliveAt.passes (h : AliveAt V s) (hT : TableOk s) (hA : Apart U s) {os : Os}
    (hos : ∀ m, os.shmid = some m → NewAt U s m) (hp : Passes os s s') : AliveAt V s' := by
  obtain ⟨s₁, s₂, hc, hn, hc'⟩ := hp
  have hos₁ : ∀ m, os.shmid = some m → NewAt U s₁ m := fun m hm => (hos m hm).calm hT hc
  rcases hn with rfl | hn
  · exact (h.calm hT hA hc).calm (hT.calm hc) (hA.calm hT hc) hc'
  · exact ((h.calm hT hA hc).newArena hn.newArena).calm
      ((hT.calm hc).newArena (fun m hm => (hos m hm).unused.pos) hn.newArena)
      ((hA.calm hT hc).newArena hos₁ hn.newArena) hc'

theorem AliveAt.effect (h : AliveAt V s) (hT : TableOk s) (hA : Apart U s) {os : Os}
    (hos : ∀ m, os.shmid = some m → NewAt U s m) (he : Effect os s s') : AliveAt V s' := by
  obtain ⟨u, hp, rfl | hd⟩ := he
  · exact h.passes hT hA hos hp
  · have hTu := hT.passes (fun m hm => (hos m hm).unused.pos) hp
    obtain ⟨index, hi, -, -, rfl⟩ := hTu.deletes hd
    have hu : AliveAt V (u.zeroArena index) := by
      intro i hne
      have heq : (u.zeroArena index).arenas i = if i = index then .zero else u.arenas i := rfl
      rw [heq] at hne ⊢
      by_cases hii : i = index
      · rw [if_pos hii] at hne
        exact absurd rfl hne
      · rw [if_neg hii] at hne ⊢
        exact h.passes hT hA hos hp i hne
    by_cases hz : (u.arenaAddrs index).shmid = 0
    · have hent : (u.zeroArena index).arenaAddrs index = ⟨none, 0⟩ := hTu.entries.shmid_zero hz
      rwa [detachArena, hent]
    · refine hu.detach (hTu.zeroArena hi) ((hA.passes hT hos hp).zeroArena index) ?_
      show (u.arenaAddrs index).shmid ≠ (if index = index then ShmArena.zero else u.arenas index).shmid
      rw [if_pos rfl]
      exact hz

/-! ### What an attach names -/

/-- A lookup attaches the segments of arenas only. -/
theorem Calm.attached (hT : TableOk s) (hc : Calm s s') {a : Attach} (ha : a ∈ s'.sys.attached) :
    a ∈ s.sys.attached ∨ s.sys.segment a.shmid = a.segment ∧ ∃ i, (s.arenas i).shmid = a.shmid := by
  induction hc with
  | refl => exact .inl ha
  | quiet _ q ih => exact ih (q.sys ▸ ha)
  | look hc e ih =>
    cases lookup_cases (hT.calm hc) e with
    | current => exact ih ha
    | gone => exact ih (detachArena_attached ha)
    | @attached addr _ _ _ _ _ =>
      rcases List.mem_cons.mp ha with rfl | ha
      · refine .inr ⟨?_, _, (hc.shmid _).symm.trans (by rw [detachArena_arenas])⟩
        rw [← hc.segment hT, ← detachArena_segment]
      · exact ih (detachArena_attached ha)

theorem NewArena.attached {os : Os} (hn : NewArena os s s') {a : Attach} (ha : a ∈ s'.sys.attached) :
    a ∈ s.sys.attached ∨ s'.sys.segment a.shmid = a.segment := by
  cases hn with
  | refused => exact .inl ha
  | @segment index m => exact .inl (s.sys.shmget_attached index m ▸ ha)
  | leaked =>
    rw [attachNew_attached] at ha
    rcases List.mem_cons.mp ha with rfl | ha
    · exact .inr rfl
    · exact .inl ha
  | entered =>
    rw [enterArena_attached, attachNew_attached] at ha
    rcases List.mem_cons.mp ha with rfl | ha
    · exact .inr rfl
    · exact .inl ha

theorem Held.calm (h : Held s.sys) (hT : TableOk s) (hc : Calm s s') : Held s'.sys := by
  intro a ha
  rw [hc.segment hT]
  exact (hc.attached hT ha).elim (h a) And.left

theorem Held.passes (h : Held s.sys) (hT : TableOk s) {os : Os} (hos : ∀ m, os.shmid = some m → NewAt U s m)
    (hnew : ∀ m, os.shmid = some m → ∀ a ∈ s.sys.attached, a.shmid ≠ m) (hp : Passes os s s') :
    Held s'.sys := by
  obtain ⟨s₁, s₂, hc, hn, hc'⟩ := hp
  rcases hn with rfl | hn
  · exact (h.calm hT hc).calm (hT.calm hc) hc'
  · refine calm (fun a ha => ?_)
      ((hT.calm hc).newArena (fun m hm => (hos m hm).unused.pos) hn.newArena) hc'
    rcases hn.newArena.attached ha with ha | ha
    · rw [hn.newArena.kept fun hm => ?_]
      · exact h.calm hT hc a ha
      · rcases hc.attached hT ha with ha | ⟨-, i, hi⟩
        · exact hnew _ hm a ha rfl
        · exact (hos _ hm).unused.arena i hi
    · exact ha

theorem Held.effect (h : Held s.sys) (hT : TableOk s) {os : Os} (hos : ∀ m, os.shmid = some m → NewAt U s m)
    (hnew : ∀ m, os.shmid = some m → ∀ a ∈ s.sys.attached, a.shmid ≠ m) (he : Effect os s s') :
    Held s'.sys := by
  obtain ⟨u, hp, rfl | hd⟩ := he
  · exact h.passes hT hos hnew hp
  · obtain ⟨index, -, -, -, rfl⟩ := (hT.passes (fun m hm => (hos m hm).unused.pos) hp).deletes hd
    intro a ha
    have hu : a ∈ (u.zeroArena index).sys.attached := detachArena_attached ha
    rw [detachArena_segment]
    exact h.passes hT hos hnew hp a hu

end

/-! ### Runs -/

/-- The tables of all processes, and every arena attached by one of them. -/
structure AliveOk (w : World) : Prop where
  tables : TablesOk w
  ids : IdsOk w
  held : ∀ pid ∈ w.pids, ∀ a ∈ (w.proc pid).attached, w.shm.sys.segment a.shmid = a.segment
  alive : w.pids ≠ [] → ∀ i, (w.shm.arenas i).shmid ≠ 0 →
    ∃ pid ∈ w.pids, ∃ a ∈ (w.proc pid).attached, a.shmid = (w.shm.arenas i).shmid

section
variable {w w' : World} {pid : Nat}

/-- What the processes other than one have attached. -/
def World.AttachedElse (w : World) (pid m : Nat) : Prop :=
  ∃ q ∈ w.pids, q ≠ pid ∧ ∃ a ∈ (w.proc q).attached, a.shmid = m

theorem AliveOk.exists (h : AliveOk w) (hp : w.pids ≠ []) {i : Nat} (hi : (w.shm.arenas i).shmid ≠ 0) :
    ∃ q, w.Attached q (w.shm.arenas i).shmid := by
  obtain ⟨q, hq, a, ha, hm⟩ := h.alive hp i hi
  exact ⟨q, hq, a, ha, hm, by rw [← hm, h.held q hq a ha]⟩

/-- The lookups of an action are served, since the segments exist. -/
theorem AliveOk.served (h : AliveOk w) {a : Action} (hl : a.Legal w) (hg : a.Granted w) : a.Served w := by
  cases a with
  | init pid shmid shmat =>
    intro i hi hne _ k l
    by_cases hp : w.pids = []
    · rw [World.context, if_pos hp, freshContext_arena _ _ hi] at hne
      exact absurd rfl hne
    · rw [World.context, if_neg hp] at hne ⊢
      exact hg _ (.inl (.inr (h.exists hp hne))) k l
  | exit => trivial
  | call pid c visits os shmat =>
    intro i hi hne _ k l
    exact hg _ (.inl (.inr (h.exists (List.ne_nil_of_mem hl.1) hne))) k l

/-- A new identifier is not that of an arena, since the arenas are attached. -/
theorem AliveOk.fresh (h : AliveOk w) {a : Action} (hl : a.Legal w) : a.Fresh w := by
  cases a with
  | init => trivial
  | exit => trivial
  | call pid c visits os shmat =>
    intro m hm i _ he
    have hnew := hl.2.1 m hm
    obtain ⟨q, hq, b, hb, hid⟩ := h.alive (List.ne_nil_of_mem hl.1) i (he ▸ hnew.pos)
    exact hnew.attached q hq b hb (hid.trans he)

theorem AliveOk.store (h : AliveOk w) {s : Shm} (hT : TablesOk (w.store pid s)) (hI : IdsOk (w.store pid s))
    (hs : AliveAt (w.AttachedElse pid) s) (hheld : Held s.sys)
    (hk : ∀ q ∈ w.pids, ∀ a ∈ (w.proc q).attached, s.sys.segment a.shmid = w.shm.sys.segment a.shmid) :
    AliveOk (w.store pid s) := by
  have heq : ∀ q, (w.store pid s).proc q = Function.update w.proc pid ⟨s.arenaAddrs, s.sys.attached⟩ q :=
    fun _ => rfl
  have hmem : ∀ q, q ∈ (w.store pid s).pids ↔ q = pid ∨ q ∈ w.pids := by
    intro q
    unfold World.store
    dsimp only
    split
    · next hp => exact ⟨.inr, fun hq => hq.elim (fun e => e ▸ hp) id⟩
    · exact List.mem_cons
  refine ⟨hT, hI, fun q hq a ha => ?_, fun _ i hi => ?_⟩
  · rw [heq] at ha
    by_cases hne : q = pid
    · rw [hne, Function.update_self] at ha
      exact hheld a ha
    · rw [Function.update_of_ne hne] at ha
      have hq := World.mem_store hne hq
      exact (hk q hq a ha).trans (h.held q hq a ha)
  · rcases hs i hi with ⟨q, hq, hne, a, ha, hm⟩ | ⟨a, ha, hm⟩
    · refine ⟨q, (hmem q).mpr (.inr hq), a, ?_, hm⟩
      rwa [heq, Function.update_of_ne hne]
    · refine ⟨pid, (hmem pid).mpr (.inl rfl), a, ?_, hm⟩
      rwa [heq, Function.update_self]

theorem AliveOk.exit (h : AliveOk w) (hk : (Action.exit pid).Keeping w) : AliveOk (w.exit pid) := by
  have heq : ∀ q, (w.exit pid).proc q = Function.update w.proc pid .none q := fun _ => rfl
  have hseg : (w.exit pid).shm.sys.segment = w.shm.sys.segment := by
    unfold World.exit
    dsimp only
    split <;> rfl
  refine ⟨h.tables.exit pid, h.ids.exit pid, fun q hq a ha => ?_, fun hp i hi => ?_⟩
  · obtain ⟨hq, hne⟩ := List.mem_filter.mp hq
    rw [heq, Function.update_of_ne (of_decide_eq_true hne)] at ha
    rw [hseg]
    exact h.held q hq a ha
  · obtain ⟨q₀, hq₀⟩ := List.exists_mem_of_ne_nil _ hp
    obtain ⟨hq₀, hne₀⟩ := List.mem_filter.mp hq₀
    rcases hk with hlast | hother
    · exact absurd (hlast q₀ hq₀) (of_decide_eq_true hne₀)
    · have hok := h.tables.arenas (List.ne_nil_of_mem hq₀)
      have hne : (w.shm.arenas i).type ≠ .empty := fun he => hi ((hok.empty i).mp he)
      have hlt : i < 128 := by
        by_contra hge
        exact hne (hok.bound i (by omega))
      obtain ⟨q, hne, hq, a, ha, hm, -⟩ := hother i hlt hne
      refine ⟨q, List.mem_filter.mpr ⟨hq, decide_eq_true hne⟩, a, ?_, hm⟩
      rwa [heq, Function.update_of_ne hne]

theorem AliveOk.step {a : Action} (h : AliveOk w) (hl : a.Legal w) (hg : a.Granted w) (hk : a.Keeping w)
    (hrun : a.step w = .ok w') : AliveOk w' := by
  have hs := h.served hl hg
  have hf := h.fresh hl
  have hT' := h.tables.step hl hs hrun
  have hI' := h.ids.step h.tables hl hs hf hrun
  cases a with
  | init pid shmid shmat =>
    obtain ⟨hpid, hm, hfresh⟩ := hl
    have hcontext : w.pids ≠ [] → w.context shmid = w.shm := fun hp => if_neg hp
    rcases World.init_cases hrun with ⟨-, k, rfl⟩ | ⟨addr, s, hne, -, hloop, rfl⟩
    · refine ⟨hT', hI', fun q hq a ha => ?_, fun hp i hi => ?_⟩
      · show (w.context shmid).sys.segment a.shmid = _
        rw [hcontext (List.ne_nil_of_mem hq)]
        exact h.held q hq a ha
      · replace hi : ((w.context shmid).arenas i).shmid ≠ 0 := hi
        show ∃ q ∈ w.pids, ∃ a ∈ (w.proc q).attached, a.shmid = ((w.context shmid).arenas i).shmid
        rw [hcontext hp] at hi ⊢
        exact h.alive hp i hi
    · have hT₀ : TableOk (attachArena (w.found shmid shmat) 0 addr) :=
        h.tables.started hm.pos hfresh hs hne
      have hA₀ : Apart (w.others pid) (attachArena (w.found shmid shmat) 0 addr) :=
        h.ids.started h.tables hm
      have hcalm := h.tables.started_calm hne hloop
      have halive : AliveAt (w.AttachedElse pid) (attachArena (w.found shmid shmat) 0 addr) := by
        intro i hi
        by_cases hz : i = 0
        · rw [hz]
          exact .inr ⟨_, .head _, rfl⟩
        · replace hi : ((w.context shmid).arenas i).shmid ≠ 0 := hi
          by_cases hp : w.pids = []
          · rw [World.context, if_pos hp, freshContext_arena _ _ hz] at hi
            exact absurd rfl hi
          · show w.AttachedElse pid ((w.context shmid).arenas i).shmid ∨ _
            rw [hcontext hp] at hi ⊢
            obtain ⟨q, hq, a, ha, he⟩ := h.alive hp i hi
            exact .inl ⟨q, hq, fun hqp => hpid (hqp ▸ hq), a, ha, he⟩
      have hheld : Held (attachArena (w.found shmid shmat) 0 addr).sys := by
        intro a ha
        rcases List.mem_cons.mp ha with rfl | ha
        · rfl
        · cases ha
      refine h.store hT' hI' (halive.calm hT₀ hA₀ hcalm) (hheld.calm hT₀ hcalm) fun q hq a ha => ?_
      rw [hcalm.segment hT₀]
      show (w.context shmid).sys.segment a.shmid = _
      rw [hcontext (List.ne_nil_of_mem hq)]
  | exit pid =>
    obtain rfl := Except.ok.inj hrun
    exact h.exit hk
  | call pid c visits os shmat =>
    obtain ⟨hpid, hnew, hfresh⟩ := hl
    obtain ⟨s, heffect, rfl⟩ := Action.call_effect hrun
    have hT := h.tables.load hpid hfresh hs
    have hA : Apart (w.others pid) (w.load (w.proc pid) shmat) := h.ids.load hpid
    have hos : ∀ m, os.shmid = some m → NewAt (w.others pid) (w.load (w.proc pid) shmat) m :=
      fun m hm => (hnew m hm).newAt h.tables hpid (hf m hm)
    have halive : AliveAt (w.AttachedElse pid) (w.load (w.proc pid) shmat) := by
      intro i hi
      obtain ⟨q, hq, a, ha, he⟩ := h.alive (List.ne_nil_of_mem hpid) i hi
      by_cases hqp : q = pid
      · exact .inr ⟨a, hqp ▸ ha, he⟩
      · exact .inl ⟨q, hq, hqp, a, ha, he⟩
    have hheld : Held (w.load (w.proc pid) shmat).sys := fun a ha => h.held pid hpid a ha
    refine h.store hT' hI' (halive.effect hT hA hos heffect)
      (hheld.effect hT hos (fun m hm => (hnew m hm).attached pid hpid) heffect) fun q hq a ha => ?_
    exact heffect.kept hT (fun m hm => (hnew m hm).pos) fun hm => (hnew _ hm).attached q hq a ha rfl

theorem AliveOk.start (h : w.Start) : AliveOk w where
  tables := .start h
  ids := .start h
  held pid hp := by
    rw [h.1] at hp
    cases hp
  alive hp := absurd h.1 hp

/-- **The arenas survive**, in every run in which each process that exits leaves them attached:
every arena's segment exists, and every process gets an address for every position in it. -/
theorem arena_survives (h : worldMachine.Reach (fun w a => a.Granted w ∧ a.Keeping w) w) (hp : pid ∈ w.pids)
    {pos : Nat} (hpos : (w.shm.arenas (pos2index pos)).type ≠ .empty) :
    w.Exists (w.shm.arenas (pos2index pos)).shmid ∧
      ∀ shmat, FreshAddrs shmat → (∀ m, w.Exists m → ∀ k l, (shmat m k l).isSome) →
        ∃ s' addr, shmGetAddr (w.load (w.proc pid) shmat) pos = .ok (s', some addr) := by
  have hok : AliveOk w := h.invariant (fun _ => .start) fun _ _ _ hw hl hk hrun => hw.step hl hk.1 hk.2 hrun
  have hpids := List.ne_nil_of_mem hp
  have hempty := (hok.tables.arenas hpids).empty
  refine ⟨.inr (hok.exists hpids fun hz => hpos ((hempty _).mpr hz)), fun shmat hfresh hgrant => ?_⟩
  have hT : TableOk (w.load (w.proc pid) shmat) := hok.tables.load hp hfresh fun i _ hne _ =>
    hgrant _ (.inr (hok.exists hpids hne))
  obtain ⟨s', r, hrun, hsome⟩ := hT.lookup_total (pos2index pos)
  obtain ⟨base, rfl⟩ := Option.isSome_iff_exists.mp (hsome.mpr hpos)
  refine ⟨s', base + pos2offset pos, ?_⟩
  have hlt : pos2index pos < 128 := by
    by_contra hge
    exact hpos ((hok.tables.arenas hpids).bound _ (by omega))
  unfold shmGetAddr
  dsimp only
  rw [if_neg (by omega), hrun]
  rfl

end

instance (w : World) (pid shmid : Nat) : Decidable (w.Attached pid shmid) :=
  inferInstanceAs (Decidable (_ ∧ _))

theorem World.exists_iff (w : World) (shmid : Nat) : w.Exists shmid ↔
    (∃ i < 128, w.shm.sys.key i = some shmid) ∨ ∃ pid ∈ w.pids, w.Attached pid shmid :=
  or_congr_right ⟨fun ⟨pid, h⟩ => ⟨pid, h.1, h⟩, fun ⟨pid, _, h⟩ => ⟨pid, h⟩⟩

instance (w : World) (shmid : Nat) : Decidable (w.Exists shmid) :=
  decidable_of_iff _ (w.exists_iff shmid).symm

theorem Order.granted (w : World) : (o : Order) → o.action.Granted w
  | .init _ _ => fun _ _ _ _ => rfl
  | .exit _ => trivial
  | .call _ _ _ => fun _ _ _ _ => rfl

def keepingTest (w : World) : Order → Bool
  | .exit pid => decide (∀ i : Nat, i < 128 → (w.shm.arenas i).type ≠ .empty →
      ∃ q ∈ w.pids, q ≠ pid ∧ w.Attached q (w.shm.arenas i).shmid)
  | _ => true

theorem keepingTest_keeping (w : World) (o : Order) (h : keepingTest w o = true) :
    o.action.Granted w ∧ o.action.Keeping w := by
  refine ⟨o.granted w, ?_⟩
  cases o with
  | init => trivial
  | call => trivial
  | exit pid =>
    refine .inr fun i hi hne => ?_
    obtain ⟨q, -, hq⟩ := of_decide_eq_true h i hi hne
    exact ⟨q, hq⟩

/-- Process 2 looks up the arena that 1 has created, and 1 exits. -/
def handedOver : List Order :=
  [.init 1 10, .init 2 20, .call 1 (.malloc (2 ^ 20)) (.created 11),
    .call 2 (.getAddr (1 <<< 32)) .keyFails, .exit 1]

theorem arena_survives_test : ∃ w, worldMachine.Reach (fun w a => a.Granted w ∧ a.Keeping w) w ∧
    w.pids = [2] ∧ (w.shm.arenas 1).type = .large ∧ w.Exists (w.shm.arenas 1).shmid := by
  have hrun : (orderMachine.run keepingTest World.start handedOver).any
      (fun w => decide (w.pids = [2] ∧ (w.shm.arenas 1).type = .large)) = true := by
    decide +kernel
  obtain ⟨w, hw, hp⟩ := Machine.exists_reach (M := orderMachine) _ keepingTest_keeping _
    ⟨rfl, fun _ => rfl⟩ hrun
  obtain ⟨hpids, htype⟩ := of_decide_eq_true hp
  have hmem : 2 ∈ w.pids := by rw [hpids]; exact .head _
  have hlarge : (w.shm.arenas (pos2index (1 <<< 32))).type ≠ .empty := by
    rw [show pos2index (1 <<< 32) = 1 by decide, htype]
    decide
  exact ⟨w, Order.reach hw, hpids, htype, (arena_survives (Order.reach hw) hmem hlarge).1⟩

/-- Process 1 exits before 2 has looked up the arena that 1 has created. -/
def abandoned : List Order :=
  [.init 1 10, .init 2 20, .call 1 (.malloc (2 ^ 20)) (.created 11), .exit 1]

/-- The system attaches nothing but the context. -/
def onlyShmat (shmid m k : Nat) (l : List Attach) : Option Nat :=
  if m = shmid then servingShmat m k l else none

/-- Only the context is there for process 2. -/
def lostTest (w : World) : Bool :=
  decide (w.pids = [2] ∧ (w.shm.arenas 1).type = .large ∧ ¬w.Exists (w.shm.arenas 1).shmid ∧
    (∀ i : Nat, i < 128 → ∀ m ∈ w.shm.sys.key i, m = 10) ∧ ∀ a ∈ (w.proc 2).attached, a.shmid = 10) &&
  match shmGetAddr (w.load (w.proc 2) (onlyShmat 10)) (1 <<< 32) with
  | .ok (_, r) => decide (r = none)
  | .error _ => false

/-- Process 2 remains, the arena's segment is gone, and a position in it has no address. -/
theorem arena_lost : ∃ w, worldMachine.Reach (fun w a => a.Granted w) w ∧ w.pids = [2] ∧
    (w.shm.arenas 1).type = .large ∧ ¬w.Exists (w.shm.arenas 1).shmid ∧
    ∃ shmat, FreshAddrs shmat ∧ (∀ m, w.Exists m → ∀ k l, (shmat m k l).isSome) ∧
      ∃ s', shmGetAddr (w.load (w.proc 2) shmat) (1 <<< 32) = .ok (s', none) := by
  have hrun : (orderMachine.run (fun _ _ => true) World.start abandoned).any lostTest = true := by
    decide +kernel
  obtain ⟨w, hw, ht⟩ := Machine.exists_reach (M := orderMachine) _ (fun w o _ => o.granted w) _
    ⟨rfl, fun _ => rfl⟩ hrun
  rw [lostTest, Bool.and_eq_true, decide_eq_true_iff] at ht
  obtain ⟨⟨hpids, htype, hgone, hkey, hattached⟩, ht⟩ := ht
  refine ⟨w, Order.reach hw, hpids, htype, hgone, onlyShmat 10, fun m k l addr h a ha => ?_,
    fun m hm k l => ?_, ?_⟩
  · unfold onlyShmat at h
    split at h
    · exact servingShmat_fresh m k l addr h a ha
    · cases h
  · have hm : m = 10 := by
      rcases hm with ⟨i, hi, hk⟩ | ⟨pid, hp, a, ha, rfl, -⟩
      · exact hkey i hi m hk
      · rw [hpids, List.mem_singleton] at hp
        rw [hp] at ha
        exact hattached a ha
    rw [onlyShmat, if_pos hm]
    rfl
  · split at ht
    · next s' r hget =>
      obtain rfl := of_decide_eq_true ht
      exact ⟨s', hget⟩
    · cases ht

end ShmMalloc
