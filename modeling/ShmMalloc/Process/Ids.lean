import ShmMalloc.Process.Lookup

/-! Which identifiers are in use.

An arena entry keeps its identifier for as long as the arena is there, and a process's
table may keep it longer. While every segment that an arena names is attached by
somebody, the system gives none of these identifiers to a new segment: no two arenas then
have the same one, and a table entry for an arena is at the index of that arena. -/
namespace ShmMalloc

/-- Neither an arena nor a table has the identifier; `U` are the entries of the processes
that do not run. -/
structure Unused (U : Nat → Nat → Prop) (s : Shm) (shmid : Nat) : Prop where
  pos : shmid ≠ 0
  arena : ∀ i, (s.arenas i).shmid ≠ shmid
  entry : ∀ i, (s.arenaAddrs i).shmid ≠ shmid
  other : ∀ i, ¬U i shmid

/-- No identifier stands for two things. -/
structure Apart (U : Nat → Nat → Prop) (s : Shm) : Prop where
  arena : ∀ i j, (s.arenas i).shmid ≠ 0 → (s.arenas i).shmid = (s.arenas j).shmid → i = j
  entry : ∀ i j, (s.arenas j).shmid ≠ 0 → (s.arenaAddrs i).shmid = (s.arenas j).shmid → i = j
  other : ∀ i j, (s.arenas j).shmid ≠ 0 → U i (s.arenas j).shmid → i = j
  /-- A segment whose removal failed, or whose attach. -/
  key : ∀ i < 128, ∀ shmid, i ≠ 0 → s.sys.key i = some shmid → Unused U s shmid
  key_own : ∀ i < 128, ∀ j < 128, ∀ shmid, s.sys.key i = some shmid → s.sys.key j = some shmid → i = j

/-- An identifier that the system may give to a new segment. -/
structure NewAt (U : Nat → Nat → Prop) (s : Shm) (shmid : Nat) : Prop where
  unused : Unused U s shmid
  key : ∀ i < 128, s.sys.key i ≠ some shmid

theorem Sysv.shmget_own {y : Sysv} {index m : Nat} (hown : ∀ i < 128, ∀ j < 128, ∀ m,
      y.key i = some m → y.key j = some m → i = j) (hm : ∀ i < 128, y.key i ≠ some m) :
    ∀ i < 128, ∀ j < 128, ∀ m', (y.shmget index m).1.key i = some m' →
      (y.shmget index m).1.key j = some m' → i = j := by
  intro i hi j hj m' hki hkj
  rcases Sysv.shmget_key hki with h₁ | ⟨h₁, e₁, -⟩ <;> rcases Sysv.shmget_key hkj with h₂ | ⟨h₂, e₂, -⟩
  · exact hown i hi j hj m' h₁ h₂
  · exact absurd (e₂ ▸ h₁) (hm i hi)
  · exact absurd (e₁ ▸ h₂) (hm j hj)
  · rw [h₁, h₂]

/-- The identifier of the context, against those of the other keys. -/
theorem Sysv.shmget_other {y : Sysv} {index m : Nat} (hlt : index < 128) (hown : ∀ i < 128, ∀ j < 128, ∀ m,
      y.key i = some m → y.key j = some m → i = j) (hm : ∀ i < 128, y.key i ≠ some m) {i m' : Nat}
    (hi : i < 128) (hne : i ≠ index) (hk : (y.shmget index m).1.key i = some m') :
    y.key i = some m' ∧ m' ≠ (y.shmget index m).2 := by
  obtain ⟨m₀, h₀, hs⟩ | ⟨-, hs⟩ := y.shmget_cases index m
  · rw [hs] at hk ⊢
    refine ⟨hk, ?_⟩
    rintro rfl
    exact hne (hown i hi index hlt _ hk h₀)
  · rcases Sysv.shmget_key hk with hold | ⟨he, -⟩
    · rw [hs]
      refine ⟨hold, ?_⟩
      rintro rfl
      exact hm i hi hold
    · exact absurd he hne

section
variable {U : Nat → Nat → Prop} {s s' : Shm}

/-! ### Lookups -/

theorem Unused.shrink {m : Nat} (h : Unused U s m) (ha : ∀ i, (s'.arenas i).shmid = (s.arenas i).shmid)
    (ht : ∀ i, (s'.arenaAddrs i).shmid = 0 ∨ (s'.arenaAddrs i).shmid = (s.arenaAddrs i).shmid ∨
      (s'.arenaAddrs i).shmid = (s.arenas i).shmid) : Unused U s' m where
  pos := h.pos
  arena i := by rw [ha]; exact h.arena i
  entry i hi := by
    rcases ht i with ht | ht | ht
    · exact h.pos (hi ▸ ht)
    · exact h.entry i (ht ▸ hi)
    · exact h.arena i (ht ▸ hi)
  other := h.other

/-- Entries may be cleared, and filled for the arenas that there are. -/
theorem Apart.shrink (h : Apart U s) (ha : ∀ i, (s'.arenas i).shmid = (s.arenas i).shmid)
    (ht : ∀ i, (s'.arenaAddrs i).shmid = 0 ∨ (s'.arenaAddrs i).shmid = (s.arenaAddrs i).shmid ∨
      (s'.arenaAddrs i).shmid = (s.arenas i).shmid) (hk : s'.sys.key = s.sys.key) : Apart U s' where
  arena i j := by
    rw [ha, ha]
    exact h.arena i j
  entry i j hj he := by
    rw [ha] at hj he
    rcases ht i with ht | ht | ht
    · exact absurd (he.symm.trans ht) hj
    · exact h.entry i j hj (ht ▸ he)
    · rw [ht] at he
      exact h.arena i j (he ▸ hj) he
  other i j := by
    rw [ha]
    exact h.other i j
  key i hi m hz hm := (h.key i hi m hz (hk ▸ hm)).shrink ha ht
  key_own i hi j hj m hm hm' := h.key_own i hi j hj m (hk ▸ hm) (hk ▸ hm')

theorem detachArena_shmid (hT : TableOk s) (index i : Nat) :
    ((detachArena s index).arenaAddrs i).shmid = 0 ∨
      ((detachArena s index).arenaAddrs i).shmid = (s.arenaAddrs i).shmid ∨
      ((detachArena s index).arenaAddrs i).shmid = (s.arenas i).shmid := by
  rw [detachArena_entry hT.entries]
  by_cases hi : i = index
  · exact .inl (congrArg ShmArenaAddr.shmid (if_pos hi))
  · exact .inr (.inl (congrArg ShmArenaAddr.shmid (if_neg hi)))

/-- The entries that a lookup leaves. -/
theorem Lookup.entries {index : Nat} {r : Option Nat} (hT : TableOk s) (h : Lookup s index s' r) :
    (∀ i, (s'.arenas i).shmid = (s.arenas i).shmid) ∧ s'.sys.key = s.sys.key ∧
      ∀ i, (s'.arenaAddrs i).shmid = 0 ∨ (s'.arenaAddrs i).shmid = (s.arenaAddrs i).shmid ∨
        (s'.arenaAddrs i).shmid = (s.arenas i).shmid := by
  cases h with
  | current => exact ⟨fun _ => rfl, rfl, fun i => .inr (.inl rfl)⟩
  | gone =>
    exact ⟨fun i => by rw [detachArena_arenas], detachArena_key s index, detachArena_shmid hT index⟩
  | @attached addr =>
    refine ⟨fun i => congrArg (fun a => (a i).shmid) (detachArena_arenas s index),
      detachArena_key s index, fun i => ?_⟩
    have hentry : (attachArena (detachArena s index) index addr).arenaAddrs i =
        if i = index then ⟨some addr, ((detachArena s index).arenas index).shmid⟩
        else (detachArena s index).arenaAddrs i := rfl
    rw [hentry, detachArena_arenas, detachArena_entry hT.entries]
    by_cases hi : i = index
    · rw [if_pos hi, hi]
      exact .inr (.inr rfl)
    · simp only [if_neg hi, true_or, or_true]

theorem Quiet.entries (q : Quiet s s') : (∀ i, (s'.arenas i).shmid = (s.arenas i).shmid) ∧
    s'.sys.key = s.sys.key ∧ ∀ i, (s'.arenaAddrs i).shmid = 0 ∨
      (s'.arenaAddrs i).shmid = (s.arenaAddrs i).shmid ∨ (s'.arenaAddrs i).shmid = (s.arenas i).shmid :=
  ⟨q.shmid, by rw [q.sys], fun i => .inr (.inl (by rw [q.arenaAddrs]))⟩

theorem Apart.calm (h : Apart U s) (hT : TableOk s) (hc : Calm s s') : Apart U s' := by
  induction hc with
  | refl => exact h
  | quiet _ q ih => exact ih.shrink q.entries.1 q.entries.2.2 q.entries.2.1
  | look hc e ih =>
    obtain ⟨ha, hk, ht⟩ := (lookup_cases (hT.calm hc) e).entries (hT.calm hc)
    exact ih.shrink ha ht hk

theorem NewAt.calm {m : Nat} (h : NewAt U s m) (hT : TableOk s) (hc : Calm s s') : NewAt U s' m := by
  induction hc with
  | refl => exact h
  | quiet _ q ih => exact ⟨ih.unused.shrink q.entries.1 q.entries.2.2, q.entries.2.1 ▸ ih.key⟩
  | look hc e ih =>
    obtain ⟨ha, hk, ht⟩ := (lookup_cases (hT.calm hc) e).entries (hT.calm hc)
    exact ⟨ih.unused.shrink ha ht, hk ▸ ih.key⟩

/-! ### A new arena -/

/-- The identifier of the new segment, whether it is created or found. -/
theorem Apart.shmget_unused (h : Apart U s) {n m : Nat} (hz : n ≠ 0) (hlt : n < 128)
    (hn : NewAt U s m) : Unused U s (s.sys.shmget n m).2 ∧
      ∀ i < 128, i ≠ n → (s.sys.shmget n m).1.key i ≠ some (s.sys.shmget n m).2 := by
  obtain ⟨m', hk, hs⟩ | ⟨-, hs⟩ := s.sys.shmget_cases n m
  · rw [hs]
    exact ⟨h.key n hlt m' hz hk, fun i hi hne hki => hne (h.key_own i hi n hlt m' hki hk)⟩
  · rw [hs]
    refine ⟨hn.unused, fun i hi hne hki => hn.key i hi ?_⟩
    exact (Function.update_of_ne hne ..).symm.trans hki

/-- A segment is found or created, and that is all. -/
theorem Apart.segment (h : Apart U s) {index m : Nat} (hn : NewAt U s m)
    (ha : s'.arenas = s.arenas) (ht : s'.arenaAddrs = s.arenaAddrs)
    (hk : s'.sys.key = (s.sys.shmget index m).1.key) : Apart U s' where
  arena := ha ▸ h.arena
  entry := by rw [ha, ht]; exact h.entry
  other := ha ▸ h.other
  key i hi m' hz hm := by
    rw [hk] at hm
    have hsame : ∀ {m}, Unused U s m → Unused U s' m := fun hu =>
      ⟨hu.pos, ha ▸ hu.arena, ht ▸ hu.entry, hu.other⟩
    rcases Sysv.shmget_key hm with hm | ⟨-, rfl, -⟩
    · exact hsame (h.key i hi m' hz hm)
    · exact hsame hn.unused
  key_own := by
    rw [hk]
    exact Sysv.shmget_own h.key_own hn.key

/-- The new segment is entered, and its key is gone. -/
theorem Apart.enter (h : Apart U s) {type : ArenaType} {size index m addr : Nat} (hu : Unused U s m)
    (hk : ∀ i < 128, i ≠ index → s.sys.key i ≠ some m) :
    Apart U (enterArena s type size index m addr) where
  arena i j hi he := by
    rw [enterArena_arenas] at hi
    rw [enterArena_arenas, enterArena_arenas] at he
    by_cases h₁ : i = index <;> by_cases h₂ : j = index
    · rw [h₁, h₂]
    · rw [if_pos h₁, if_neg h₂] at he
      exact absurd he.symm (hu.arena j)
    · rw [if_neg h₁, if_pos h₂] at he
      exact absurd he (hu.arena i)
    · rw [if_neg h₁] at hi
      rw [if_neg h₁, if_neg h₂] at he
      exact h.arena i j hi he
  entry i j hj he := by
    rw [enterArena_arenas] at hj he
    rw [enterArena_arenaAddrs] at he
    by_cases h₁ : i = index <;> by_cases h₂ : j = index
    · rw [h₁, h₂]
    · rw [if_pos h₁, if_neg h₂] at he
      exact absurd he.symm (hu.arena j)
    · rw [if_neg h₁, if_pos h₂] at he
      exact absurd he (hu.entry i)
    · rw [if_neg h₂] at hj
      rw [if_neg h₁, if_neg h₂] at he
      exact h.entry i j hj he
  other i j hj he := by
    rw [enterArena_arenas] at hj he
    by_cases h₂ : j = index
    · rw [if_pos h₂] at he
      exact absurd he (hu.other i)
    · rw [if_neg h₂] at hj he
      exact h.other i j hj he
  key i hi m' hz hm := by
    obtain ⟨hm, hne⟩ := enterArena_key _ _ _ _ _ _ hm
    have hdiff : m ≠ m' := by
      rintro rfl
      exact hk i hi hne hm
    obtain ⟨hpos, harena, hentry, hother⟩ := h.key i hi m' hz hm
    refine ⟨hpos, fun j => ?_, fun j => ?_, hother⟩
    · rw [enterArena_arenas]
      split
      · exact hdiff
      · exact harena j
    · rw [enterArena_arenaAddrs]
      split
      · exact hdiff
      · exact hentry j
  key_own i hi j hj m' hm hm' :=
    h.key_own i hi j hj m' (enterArena_key _ _ _ _ _ _ hm).1 (enterArena_key _ _ _ _ _ _ hm').1

theorem Apart.newArena (h : Apart U s) {os : Os} (hos : ∀ m, os.shmid = some m → NewAt U s m)
    (hn : NewArena os s s') : Apart U s' := by
  cases hn with
  | refused => exact h
  | segment k hm => exact h.segment (hos _ hm) rfl rfl rfl
  | leaked hm => exact h.segment (hos _ (by rw [hm]; rfl)) rfl rfl rfl
  | @entered index m addr size type hm ht hf _ _ =>
    obtain ⟨hge, hlt, -⟩ := findEmptyArena_some hf
    have hnew := hos m (by rw [hm]; rfl)
    obtain ⟨hu, hkey⟩ := h.shmget_unused (n := index) (by omega) (by omega) hnew
    have hp : Apart U (attachNew s index m addr) := h.segment hnew rfl rfl rfl
    exact hp.enter ⟨hu.pos, hu.arena, hu.entry, hu.other⟩ hkey

theorem Apart.passes (h : Apart U s) (hT : TableOk s) {os : Os} (hos : ∀ m, os.shmid = some m → NewAt U s m)
    (hp : Passes os s s') : Apart U s' := by
  obtain ⟨s₁, s₂, hc, hn, hc'⟩ := hp
  have h₁ := h.calm hT hc
  have hos₁ : ∀ m, os.shmid = some m → NewAt U s₁ m := fun m hm => (hos m hm).calm hT hc
  rcases hn with rfl | hn
  · exact h₁.calm (hT.calm hc) hc'
  · exact (h₁.newArena hos₁ hn.newArena).calm
      ((hT.calm hc).newArena (fun m hm => (hos m hm).unused.pos) hn.newArena) hc'

/-! ### The end of an arena -/

theorem Apart.zeroArena (h : Apart U s) (index : Nat) : Apart U (s.zeroArena index) := by
  have harena : ∀ {i}, ((s.zeroArena index).arenas i).shmid ≠ 0 →
      i ≠ index ∧ ((s.zeroArena index).arenas i).shmid = (s.arenas i).shmid := by
    intro i hi
    have heq : (s.zeroArena index).arenas i = if i = index then .zero else s.arenas i := rfl
    rw [heq] at hi ⊢
    by_cases he : i = index
    · rw [if_pos he] at hi
      exact absurd rfl hi
    · exact ⟨he, by rw [if_neg he]⟩
  refine ⟨fun i j hi he => ?_, fun i j hj he => ?_, fun i j hj he => ?_, fun i hi m hz hm => ?_,
    h.key_own⟩
  · have hj := he ▸ hi
    rw [(harena hi).2, (harena hj).2] at he
    exact h.arena i j ((harena hi).2 ▸ hi) he
  · rw [(harena hj).2] at he
    exact h.entry i j ((harena hj).2 ▸ hj) he
  · rw [(harena hj).2] at he
    exact h.other i j ((harena hj).2 ▸ hj) he
  · obtain ⟨hpos, ha, he, ho⟩ := h.key i hi m hz hm
    refine ⟨hpos, fun j hj => ?_, he, ho⟩
    have hne : ((s.zeroArena index).arenas j).shmid ≠ 0 := by rwa [hj]
    exact ha j ((harena hne).2 ▸ hj)

theorem Apart.detach (h : Apart U s) (hT : TableOk s) (index : Nat) : Apart U (detachArena s index) :=
  h.shrink (fun i => by rw [detachArena_arenas]) (detachArena_shmid hT index) (detachArena_key s index)

theorem Apart.effect (h : Apart U s) (hT : TableOk s) {os : Os}
    (hos : ∀ m, os.shmid = some m → NewAt U s m) (he : Effect os s s') : Apart U s' := by
  obtain ⟨u, hp, rfl | hd⟩ := he
  · exact h.passes hT hos hp
  · have hTu := hT.passes (fun m hm => (hos m hm).unused.pos) hp
    obtain ⟨index, hi, -, -, rfl⟩ := hTu.deletes hd
    exact ((h.passes hT hos hp).zeroArena index).detach (hTu.zeroArena hi) index

end

/-! ### Between operations -/

/-- The table entries of the other processes. -/
def World.others (w : World) (pid i m : Nat) : Prop :=
  ∃ q ∈ w.pids, q ≠ pid ∧ ((w.proc q).arenaAddrs i).shmid = m

def World.entries (w : World) (i m : Nat) : Prop :=
  ∃ q ∈ w.pids, ((w.proc q).arenaAddrs i).shmid = m

/-- No identifier stands for two things, in the arenas and in everybody's table. -/
structure IdsOk (w : World) : Prop where
  key_own : ∀ i < 128, ∀ j < 128, ∀ shmid, w.shm.sys.key i = some shmid →
    w.shm.sys.key j = some shmid → i = j
  apart : w.pids ≠ [] → Apart w.entries (w.load .none fun _ _ _ => none)

/-- No arena has the identifier of a segment that is to be created. -/
def Action.Fresh (w : World) : Action → Prop
  | .init _ _ _ => True
  | .exit _ => True
  | .call _ _ _ os _ => ∀ shmid, os.shmid = some shmid → ∀ i < 128, (w.shm.arenas i).shmid ≠ shmid

section World
variable {w w' : World} {pid shmid : Nat} {shmat : Nat → Nat → List Attach → Option Nat}

theorem IdsOk.load (h : IdsOk w) (hp : pid ∈ w.pids) :
    Apart (w.others pid) (w.load (w.proc pid) shmat) := by
  have ha := h.apart (List.ne_nil_of_mem hp)
  have hother : ∀ {i m}, w.others pid i m → w.entries i m := fun ⟨q, hq, _, he⟩ => ⟨q, hq, he⟩
  refine ⟨ha.arena, fun i j hj he => ha.other i j hj ⟨pid, hp, he⟩,
    fun i j hj he => ha.other i j hj (hother he), fun i hi m hz hm => ?_, ha.key_own⟩
  obtain ⟨hpos, harena, -, hu⟩ := ha.key i hi m hz hm
  exact ⟨hpos, harena, fun j he => hu j ⟨pid, hp, he⟩, fun j he => hu j (hother he)⟩

theorem IdsOk.store {s : Shm} (h : Apart (w.others pid) s) : IdsOk (w.store pid s) := by
  have hentry : ∀ {i m}, (w.store pid s).entries i m → (s.arenaAddrs i).shmid = m ∨ w.others pid i m := by
    rintro i m ⟨q, hq, he⟩
    have heq : (w.store pid s).proc q = Function.update w.proc pid ⟨s.arenaAddrs, s.sys.attached⟩ q := rfl
    rw [heq] at he
    by_cases hne : q = pid
    · rw [hne, Function.update_self] at he
      exact .inl he
    · rw [Function.update_of_ne hne] at he
      exact .inr ⟨q, World.mem_store hne hq, hne, he⟩
  refine ⟨h.key_own, fun _ => ⟨h.arena, fun i j hj he => absurd he.symm hj,
    fun i j hj he => ?_, fun i hi m hz hm => ?_, h.key_own⟩⟩
  · rcases hentry he with he | he
    · exact h.entry i j hj he
    · exact h.other i j hj he
  · obtain ⟨hpos, harena, hown, hu⟩ := h.key i hi m hz hm
    refine ⟨hpos, harena, fun j he => hpos he.symm, fun j he => ?_⟩
    rcases hentry he with he | he
    · exact hown j he
    · exact hu j he

/-- The system's identifier for a new segment. -/
theorem NewId.newAt (hT : TablesOk w) (hn : NewId w shmid) (hp : pid ∈ w.pids)
    (ha : ∀ i < 128, (w.shm.arenas i).shmid ≠ shmid) :
    NewAt (w.others pid) (w.load (w.proc pid) shmat) shmid := by
  have harenas := hT.arenas (List.ne_nil_of_mem hp)
  have hall : ∀ i, (w.shm.arenas i).shmid ≠ shmid := by
    intro i
    by_cases hlt : i < 128
    · exact ha i hlt
    · rw [(harenas.empty i).mp (harenas.bound i (by omega))]
      exact hn.pos.symm
  have hentry : ∀ q ∈ w.pids, ∀ i, ((w.proc q).arenaAddrs i).shmid ≠ shmid := by
    intro q hq i he
    obtain ⟨a, ha, hentry⟩ := (hT.entries q hq).shmid_pos (he ▸ hn.pos)
    refine hn.attached q hq a ha ?_
    rw [← he, hentry]
  exact ⟨⟨hn.pos, hall, hentry pid hp, fun i ⟨q, hq, _, he⟩ => hentry q hq i he⟩, hn.key⟩

theorem IdsOk.start (h : w.Start) : IdsOk w where
  key_own i _ j _ m hm := by
    rw [h.2] at hm
    cases hm
  apart hp := absurd h.1 hp

theorem IdsOk.exit (h : IdsOk w) (pid : Nat) : IdsOk (w.exit pid) := by
  have hkey : ∀ {i m}, (w.exit pid).shm.sys.key i = some m → w.shm.sys.key i = some m := by
    intro i m hm
    unfold World.exit at hm
    dsimp only at hm
    split at hm
    · replace hm : Function.update w.shm.sys.key 0 none i = some m := hm
      by_cases hi : i = 0
      · rw [hi, Function.update_self] at hm
        cases hm
      · rwa [Function.update_of_ne hi] at hm
    · exact hm
  refine ⟨fun i hi j hj m hm hm' => h.key_own i hi j hj m (hkey hm) (hkey hm'), fun hp => ?_⟩
  have hne : w.pids ≠ [] := fun hnil => hp (by unfold World.exit; rw [hnil]; rfl)
  have ha := h.apart hne
  have hentry : ∀ {i m}, (w.exit pid).entries i m → w.entries i m := by
    rintro i m ⟨q, hq, he⟩
    obtain ⟨hq, hqp⟩ := List.mem_filter.mp hq
    refine ⟨q, hq, ?_⟩
    have heq : (w.exit pid).proc q = Function.update w.proc pid .none q := rfl
    rwa [heq, Function.update_of_ne (of_decide_eq_true hqp)] at he
  refine ⟨ha.arena, fun i j hj he => absurd he.symm hj, fun i j hj he => ha.other i j hj (hentry he),
    fun i hi m hz hm => ?_, fun i hi j hj m hm hm' => ha.key_own i hi j hj m (hkey hm) (hkey hm')⟩
  obtain ⟨hpos, harena, -, hu⟩ := ha.key i hi m hz (hkey hm)
  exact ⟨hpos, harena, fun j he => hpos he.symm, fun j he => hu j (hentry he)⟩

/-- A process that has attached the context, and nothing else. -/
theorem IdsOk.started (h : IdsOk w) (hT : TablesOk w) (hn : NewId w shmid) {addr : Nat} :
    Apart (w.others pid) (attachArena (w.found shmid shmat) 0 addr) := by
  have hentry : ∀ i, ((attachArena (w.found shmid shmat) 0 addr).arenaAddrs i).shmid =
      if i = 0 then ((w.context shmid).arenas 0).shmid else 0 := by
    intro i
    show (if i = 0 then _ else _ : ShmArenaAddr).shmid = _
    split <;> rfl
  by_cases hp : w.pids = []
  · have hcontext : w.context shmid = freshContext w.shm shmid := if_pos hp
    have harena : ∀ i, ((attachArena (w.found shmid shmat) 0 addr).arenas i).shmid =
        if i = 0 then ((w.context shmid).arenas 0).shmid else 0 := by
      intro i
      show ((w.context shmid).arenas i).shmid = _
      by_cases hi : i = 0
      · rw [if_pos hi, hi]
      · rw [if_neg hi, hcontext, freshContext_arena _ _ hi]
        rfl
    have hkey : (attachArena (w.found shmid shmat) 0 addr).sys.key = (w.shm.sys.shmget 0 shmid).1.key := by
      show (w.context shmid).sys.key = _
      rw [hcontext]
      rfl
    have hzero : ∀ i : Nat, (if i = 0 then ((w.context shmid).arenas 0).shmid else 0) ≠ 0 → i = 0 :=
      fun i hi => by_contra fun hz => hi (if_neg hz)
    have hnone : ∀ {i m}, ¬w.others pid i m := by
      rintro i m ⟨q, hq, -⟩
      rw [hp] at hq
      cases hq
    refine ⟨fun i j hi he => ?_, fun i j hj he => ?_, fun i j hj he => absurd he hnone,
      fun i hi m hz hm => ?_, ?_⟩
    · rw [harena] at hi he
      rw [harena] at he
      rw [hzero i hi, hzero j (he ▸ hi)]
    · rw [harena] at hj he
      rw [hentry] at he
      rw [hzero j hj, hzero i (he ▸ hj)]
    · rw [hkey] at hm
      obtain ⟨hold, hdiff⟩ := Sysv.shmget_other (by omega) h.key_own hn.key hi hz hm
      have hpos := hT.key i m hold
      have hctx : ((w.context shmid).arenas 0).shmid = (w.shm.sys.shmget 0 shmid).2 := by
        rw [hcontext]
        rfl
      refine ⟨hpos, fun j => ?_, fun j => ?_, fun j => hnone⟩
      · rw [harena]
        split
        · rw [hctx]
          exact hdiff.symm
        · exact hpos.symm
      · rw [hentry]
        split
        · rw [hctx]
          exact hdiff.symm
        · exact hpos.symm
    · rw [hkey]
      exact Sysv.shmget_own h.key_own hn.key
  · have hcontext : w.context shmid = w.shm := if_neg hp
    have ha := h.apart hp
    have hother : ∀ {i m}, w.others pid i m → w.entries i m := fun ⟨q, hq, _, he⟩ => ⟨q, hq, he⟩
    have hload : Apart (w.others pid) (w.load .none fun _ _ _ => none) :=
      ⟨ha.arena, ha.entry, fun i j hj he => ha.other i j hj (hother he), fun i hi m hz hm =>
        ⟨(ha.key i hi m hz hm).pos, (ha.key i hi m hz hm).arena, (ha.key i hi m hz hm).entry,
          fun j he => (ha.key i hi m hz hm).other j (hother he)⟩, ha.key_own⟩
    refine hload.shrink (fun i => ?_) (fun i => ?_) ?_
    · show ((w.context shmid).arenas i).shmid = _
      rw [hcontext]
      rfl
    · rw [hentry]
      split
      · next hi =>
        rw [hcontext, hi]
        exact .inr (.inr rfl)
      · exact .inl rfl
    · show (w.context shmid).sys.key = _
      rw [hcontext]
      rfl

theorem IdsOk.step {a : Action} (h : IdsOk w) (hT : TablesOk w) (hl : a.Legal w) (hs : a.Served w)
    (hf : a.Fresh w) (hrun : a.step w = .ok w') : IdsOk w' := by
  cases a with
  | init pid shmid shmat =>
    obtain ⟨hpid, hm, hfresh⟩ := hl
    rcases World.init_cases hrun with ⟨-, k, rfl⟩ | ⟨addr, s, hne, -, hloop, rfl⟩
    · by_cases hp : w.pids = []
      · refine ⟨?_, fun hne => absurd hp hne⟩
        have hkey : (w.found shmid shmat).sys.key = (w.shm.sys.shmget 0 shmid).1.key := by
          show (w.context shmid).sys.key = _
          rw [World.context, if_pos hp]
          rfl
        show ∀ i < 128, ∀ j < 128, ∀ m, (w.found shmid shmat).sys.key i = some m →
          (w.found shmid shmat).sys.key j = some m → i = j
        rw [hkey]
        exact Sysv.shmget_own h.key_own hm.key
      · have hcontext : w.context shmid = w.shm := if_neg hp
        have harenas : (w.found shmid shmat).arenas = w.shm.arenas := by rw [← hcontext]; rfl
        have hkey : (w.found shmid shmat).sys.key = w.shm.sys.key := by rw [← hcontext]; rfl
        have ha := h.apart hp
        refine ⟨fun i hi j hj m => hkey ▸ h.key_own i hi j hj m, fun _ => ?_⟩
        refine ⟨fun i j => harenas ▸ ha.arena i j, fun i j => harenas ▸ ha.entry i j,
          fun i j => harenas ▸ ha.other i j, fun i hi m hz hk => ?_,
          fun i hi j hj m => hkey ▸ ha.key_own i hi j hj m⟩
        obtain ⟨hpos, harena, hown, hother⟩ := ha.key i hi m hz (hkey ▸ hk)
        exact ⟨hpos, fun j => harenas ▸ harena j, hown, hother⟩
    · have hT₀ : TableOk (attachArena (w.found shmid shmat) 0 addr) := hT.started hm.pos hfresh hs hne
      exact .store ((h.started hT hm).calm hT₀ (hT.started_calm hne hloop))
  | exit pid =>
    obtain rfl := Except.ok.inj hrun
    exact h.exit pid
  | call pid c visits os shmat =>
    obtain ⟨hpid, hnew, hfresh⟩ := hl
    obtain ⟨s, heffect, rfl⟩ := Action.call_effect hrun
    exact .store ((h.load hpid).effect (hT.load hpid hfresh hs)
      (fun m hm => (hnew m hm).newAt hT hpid (hf m hm)) heffect)

end World

end ShmMalloc
