import ShmMalloc.System.Calls

/-! The error paths: what a process holds of the system, and what it returns.

The system may fail any call, at any time, and says so in any `errno`. It gives out
descriptors that are not in use, and interrupts the wait for the file lock finitely
often. A descriptor is used while it is open, the fields of the context are set under the
file lock, and the call that fails decides the result, unless it is one that no error path
is for: `close`, or a call for the mutex of the context. -/
namespace ShmMalloc.System
open Library

/-- What a process holds, and the calls that failed, the last one first. -/
structure Held where
  fds : List Int
  /-- The descriptor with the file lock. -/
  lock : Option Int
  attached : List Int
  /-- The flag of the context is known to be set. -/
  flag : Bool
  /-- Interruptions that are still to come. -/
  interrupts : Nat
  failed : List Request

structure State where
  errno : Nat
  held : Held

/-- Whether the call has failed. A file that is missing is created, and an interrupted wait goes on. -/
def Fails (r : Answer) : Request → Prop
  | .access _ => r.value ≠ 0 ∧ r.errno ≠ 0 ∧ r.errno ≠ ENOENT
  | .create _ => r.value < 0
  | .openFile _ => r.value < 0
  | .write _ _ size => r.value ≠ size
  | .fsync _ => r.value ≠ 0
  | .chmod _ => r.value ≠ 0
  | .ftok _ _ => r.value ≤ 0
  | .setlkw _ => r.value ≠ 0 ∧ r.errno ≠ EINTR
  | .shmget _ _ _ => r.value ≤ 0
  | .shmat _ => r.value = 0 ∨ r.value = -1
  | .rmid _ => r.value ≠ 0
  | .alloc _ => r.value = 0
  | .atexit => r.value ≠ 0
  | .close _ => r.value ≠ 0
  | .mutexattrInit => r.value ≠ 0
  | .mutexattrSetpshared => r.value ≠ 0
  | .mutexattrSettype => r.value ≠ 0
  | .mutexInit => r.value ≠ 0
  | .mutexattrDestroy => r.value ≠ 0
  | .mutexLock => r.value ≠ 0
  | .mutexUnlock => r.value ≠ 0
  -- what is in memory is read and written
  | .errno => False
  | .initFlag => False
  | .contextKey => False
  | .arena _ => False
  | .setFields _ => False
  | .setArena _ => False
  | .addCount => False
  | .subCount => False
  | .contextShmid => False

instance (r : Answer) (c : Request) : Decidable (Fails r c) := by
  cases c <;> dsimp only [Fails] <;> infer_instance

/-- A failure of the call does not change what `shm_init` returns. -/
def Request.ignored : Request → Bool
  | .close _ => true
  | .mutexattrInit => true
  | .mutexattrSetpshared => true
  | .mutexattrSettype => true
  | .mutexInit => true
  | .mutexattrDestroy => true
  | .mutexLock => true
  | .mutexUnlock => true
  | _ => false

/-- What a call changes of what the process holds. -/
def Held.after (h : Held) (r : Answer) : Request → Held
  | .create _ => if 0 ≤ r.value then {h with fds := r.value :: h.fds} else h
  | .openFile _ => if 0 ≤ r.value then {h with fds := r.value :: h.fds} else h
  | .close fd => {h with fds := h.fds.erase fd, lock := if h.lock = some fd then none else h.lock}
  | .setlkw fd =>
    if r.value = 0 then {h with lock := some fd}
    else if r.errno = EINTR then {h with interrupts := h.interrupts - 1} else h
  | .shmat _ => if r.value = 0 ∨ r.value = -1 then h else {h with attached := r.value :: h.attached}
  | .initFlag => if r.value = shmInitFlag then {h with flag := true} else h
  | .setFields _ => {h with flag := true}
  | _ => h

def Held.fail (h : Held) (c : Request) : Held := {h with failed := c :: h.failed}

/-- Descriptors are open when they are used, and the fields are set once, under the file lock. -/
def Held.accepts (h : Held) : Request → Prop
  | .write fd _ _ => fd ∈ h.fds
  | .fsync fd => fd ∈ h.fds
  | .close fd => fd ∈ h.fds
  | .setlkw fd => fd ∈ h.fds
  | .setFields _ => h.lock ≠ none ∧ h.flag = false
  | .setArena _ => h.lock ≠ none
  | .shmget key _ _ => 0 < key
  | .shmat shmid => 0 < shmid
  | _ => True

def State.answers (s : State) (c : Request) (r : Answer) : Prop :=
  match c with
  | .errno => r.errno = s.errno
  | .create _ => r.value ∉ s.held.fds
  | .openFile _ => r.value ∉ s.held.fds
  | .setlkw _ => r.value ≠ 0 → r.errno = EINTR → 0 < s.held.interrupts
  | .initFlag => s.held.flag = true → r.value = shmInitFlag
  | _ => True

def system : Service Request Answer State where
  accepts s c := s.held.accepts c
  answers := State.answers
  next s c r := ⟨r.errno, if Fails r c ∧ c.ignored = false then (s.held.after r c).fail c else s.held.after r c⟩

/-- The calls that wait for the file lock. -/
def Request.locks : Request → Bool
  | .openFile _ => true
  | .setlkw _ => true
  | _ => false

section
variable {n : Nat} {h : Held} {bad : Fault → State → Prop} {c : Request} {post : Answer → State → Prop}

/-- A call, which completes or fails. -/
theorem call_wp (ha : h.accepts c) (hok : ∀ r, State.answers ⟨n, h⟩ c r → ¬Fails r c → post r ⟨r.errno, h.after r c⟩)
    (hfail : ∀ r, State.answers ⟨n, h⟩ c r → Fails r c → post r ⟨r.errno, (h.after r c).fail c⟩)
    (hn : c.ignored = false := by rfl) : (call c).Wp system post bad ⟨n, h⟩ := by
  refine ⟨ha, fun r hr => ?_⟩
  show post r ⟨r.errno, if Fails r c ∧ c.ignored = false then _ else _⟩
  split
  · next hf => exact hfail r hr hf.1
  · next hf => exact hok r hr fun hfails => hf ⟨hfails, hn⟩

/-- A call that may fail or not. -/
theorem ignored_wp (ha : h.accepts c) (hi : c.ignored = true)
    (hpost : ∀ r, State.answers ⟨n, h⟩ c r → post r ⟨r.errno, h.after r c⟩) :
    (call c).Wp system post bad ⟨n, h⟩ := by
  refine ⟨ha, fun r hr => ?_⟩
  show post r ⟨r.errno, if Fails r c ∧ c.ignored = false then _ else _⟩
  rw [if_neg (by simp [hi])]
  exact hpost r hr

theorem errnoOr_wp {d : Nat} {post : Nat → State → Prop} (hd : d ≠ 0)
    (hpost : ∀ e, (n ≠ 0 → e = n) → (n = 0 → e = d) → e ≠ 0 → post e ⟨n, h⟩) :
    (errnoOr d).Wp system post bad ⟨n, h⟩ := by
  rw [errnoOr, Script.wp_bind]
  refine call_wp trivial (fun r hr _ => ?_) fun r _ hf => hf.elim
  obtain rfl : r.errno = n := hr
  show post (if r.errno ≠ 0 then r.errno else d) ⟨r.errno, h⟩
  split
  · next he => exact hpost _ (fun _ => rfl) (fun h₀ => absurd h₀ he) he
  · next he => exact hpost _ (fun h₀ => absurd h₀ he) (fun _ => rfl) hd

/-- The result of a function that leaves what is held as it was: 0, or the error of the call that failed. -/
def Result (h : Held) (result : Nat) (h' : Held) : Prop :=
  (result = 0 ∧ h' = h) ∨ ∃ c, result ≠ 0 ∧ c.locks = false ∧ h' = h.fail c

/-- An open descriptor is closed. -/
theorem close_wp {fd : Int} {post : Answer → State → Prop} (hl : h.lock = none)
    (hpost : ∀ r e, post r ⟨e, h⟩) : (call (.close fd)).Wp system post bad ⟨n, {h with fds := fd :: h.fds}⟩ := by
  refine ignored_wp List.mem_cons_self rfl fun r _ => ?_
  have hclose : Held.after {h with fds := fd :: h.fds} r (.close fd) = h := by
    simp [Held.after, hl]
    rw [← hl]
  rw [hclose]
  exact hpost _ _

/-- The file is closed again on every path. -/
theorem writeFile_wp {filename buff : String} {size : Nat} {post : Nat → State → Prop} (hl : h.lock = none)
    (hpost : ∀ result e h', Result h result h' → post result ⟨e, h'⟩) :
    (writeFile filename buff size).Wp system post bad ⟨n, h⟩ := by
  rw [writeFile, Script.wp_bind]
  refine call_wp trivial (fun fd _ (hok : ¬fd.value < 0) => ?_) fun fd _ (hneg : fd.value < 0) => ?_
  · rw [if_neg hok, Script.wp_bind]
    have hopen : h.after fd (.create filename) = {h with fds := fd.value :: h.fds} := if_pos (Int.not_lt.mp hok)
    rw [hopen]
    refine call_wp List.mem_cons_self (fun m _ (hfull : ¬m.value ≠ size) => ?_) fun m _ (hshort : m.value ≠ size) => ?_
    · rw [if_neg hfull, Script.wp_bind]
      refine call_wp List.mem_cons_self (fun r _ (hsync : ¬r.value ≠ 0) => ?_) fun r _ (hsync : r.value ≠ 0) => ?_
      · rw [if_neg hsync, Script.wp_bind]
        exact close_wp hl fun _ e => hpost 0 e h (.inl ⟨rfl, rfl⟩)
      · rw [if_pos hsync, Script.wp_bind]
        refine errnoOr_wp (by decide) fun e _ _ he => ?_
        rw [Script.wp_bind]
        exact close_wp (h := h.fail (.fsync fd.value)) hl fun _ e' => hpost e e' _ (.inr ⟨_, he, rfl, rfl⟩)
    · rw [if_pos hshort, Script.wp_bind]
      refine errnoOr_wp (by decide) fun e _ _ he => ?_
      rw [Script.wp_bind]
      exact close_wp (h := h.fail (.write fd.value buff size)) hl fun _ e' => hpost e e' _ (.inr ⟨_, he, rfl, rfl⟩)
  · rw [if_pos hneg]
    refine errnoOr_wp (by decide) fun e _ _ he => ?_
    have hopen : h.after fd (.create filename) = h := if_neg (Int.not_le.mpr hneg)
    rw [hopen]
    exact hpost e _ _ (.inr ⟨_, he, rfl, rfl⟩)

theorem createKeyFile_wp {filename : String} {post : Nat → State → Prop} (hl : h.lock = none)
    (hpost : ∀ result e h', Result h result h' → post result ⟨e, h'⟩) :
    (createKeyFile filename).Wp system post bad ⟨n, h⟩ := by
  rw [createKeyFile, Script.wp_bind]
  refine call_wp trivial (fun r _ hok => ?_) fun r _ hfails => ?_
  · split
    · next hmissing =>
      rw [Script.wp_bind]
      refine errnoOr_wp (by decide) fun e he he₀ _ => ?_
      have hnoent : e = ENOENT := by
        by_contra hne
        by_cases hzero : r.errno = 0
        · exact hne (he₀ hzero)
        · exact hok ⟨hmissing, hzero, fun hr => hne ((he hzero).trans hr)⟩
      rw [if_neg (not_not.mpr hnoent), Script.wp_bind]
      refine writeFile_wp hl fun result e h' hres => ?_
      rcases hres with ⟨rfl, rfl⟩ | ⟨c, hne, hc, rfl⟩
      · rw [if_neg (not_not.mpr rfl), Script.wp_bind]
        refine call_wp trivial (fun m _ (hok : ¬m.value ≠ 0) => ?_) fun m _ (hne : m.value ≠ 0) => ?_
        · rw [if_neg hok]
          exact hpost 0 _ _ (.inl ⟨rfl, rfl⟩)
        · rw [if_pos hne]
          exact errnoOr_wp (by decide) fun e _ _ he => hpost e _ _ (.inr ⟨.chmod filename, he, rfl, rfl⟩)
      · rw [if_pos hne]
        exact hpost result e _ (.inr ⟨c, hne, hc, rfl⟩)
    · exact hpost 0 _ _ (.inl ⟨rfl, rfl⟩)
  · obtain ⟨hne, hzero, hnoent⟩ := hfails
    rw [if_pos hne, Script.wp_bind]
    refine errnoOr_wp (by decide) fun e he _ he' => ?_
    rw [if_pos (he hzero ▸ hnoent)]
    exact hpost e _ _ (.inr ⟨.access filename, he', rfl, rfl⟩)

/-- A key that is not positive is of no use. -/
theorem shmGetKey_wp {filename : String} {projId : Nat} {post : Nat × Int → State → Prop} (hl : h.lock = none)
    (hok : ∀ e key, 0 < key → post (0, key) ⟨e, h⟩)
    (hfail : ∀ c result key e, c.locks = false → (result ≠ 0 ∨ key ≤ 0) → post (result, key) ⟨e, h.fail c⟩) :
    (shmGetKey filename projId).Wp system post bad ⟨n, h⟩ := by
  rw [shmGetKey, Script.wp_bind]
  refine createKeyFile_wp hl fun result e h' hres => ?_
  rcases hres with ⟨rfl, rfl⟩ | ⟨c, hne, hc, rfl⟩
  · rw [if_neg (not_not.mpr rfl), Script.wp_bind]
    refine call_wp trivial (fun key _ (hpos : ¬key.value ≤ 0) => ?_) fun key _ (hle : key.value ≤ 0) => ?_
    · have hpos' : 0 < key.value := Int.not_le.mp hpos
      rw [if_neg (by omega)]
      exact hok _ _ hpos'
    · split
      · rw [Script.wp_bind]
        exact errnoOr_wp (by decide) fun e _ _ he => hfail (.ftok filename projId) e _ _ rfl (.inl he)
      · exact hfail (.ftok filename projId) 0 _ _ rfl (.inr hle)
  · rw [if_pos hne]
    exact hfail c _ _ _ hc (.inl hne)

/-- With a key that is good or an identifier that is good. -/
theorem shmMmap_wp {key id : Int} {size : Nat} {create : Bool} {post : Option Int × Int × Nat → State → Prop}
    (hok : ∀ a shmid e, a ≠ 0 → 0 < shmid → (key ≤ 0 → shmid = id) →
      post (some a, shmid, 0) ⟨e, {h with attached := a :: h.attached}⟩)
    (hbad : ∀ err e, err ≠ 0 → key ≤ 0 → id ≤ 0 → post (none, id, err) ⟨e, h⟩)
    (hfail : ∀ c err e, c.locks = false → (key ≤ 0 → c = .shmat id ∧ 0 < id) → err ≠ 0 →
      post (none, id, err) ⟨e, h.fail c⟩) :
    (shmMmap key size create id).Wp system post bad ⟨n, h⟩ := by
  have hattach : ∀ (shmid : Int) (n : Nat), 0 < shmid → (key ≤ 0 → shmid = id) →
      (call (.shmat shmid) >>= fun addr => if addr.value = 0 ∨ addr.value = -1 then
        errnoOr EPERM >>= fun errNo => pure (none, id, errNo) else pure (some addr.value, shmid, 0)).Wp system post bad
        ⟨n, h⟩ := fun shmid n hpos hid => by
    rw [Script.wp_bind]
    refine call_wp hpos (fun a _ (hgood : ¬(a.value = 0 ∨ a.value = -1)) => ?_)
      fun a _ (hnull : a.value = 0 ∨ a.value = -1) => ?_
    · have hatt : h.after a (.shmat shmid) = {h with attached := a.value :: h.attached} := if_neg hgood
      rw [if_neg hgood, hatt]
      exact hok _ _ _ (fun h₀ => hgood (.inl h₀)) hpos hid
    · have hatt : h.after a (.shmat shmid) = h := if_pos hnull
      rw [if_pos hnull, hatt, Script.wp_bind]
      exact errnoOr_wp (by decide) fun e _ _ he => hfail (.shmat shmid) e _ rfl
        (fun hk => hid hk ▸ ⟨rfl, hpos⟩) he
  rw [shmMmap]
  split
  · next hkey =>
    have hrequest : ∃ size' create', (if create = true then Request.shmget key size true else .shmget key 0 false) =
        .shmget key size' create' := by
      cases create with
      | true => exact ⟨size, true, rfl⟩
      | false => exact ⟨0, false, rfl⟩
    obtain ⟨size', create', hrequest⟩ := hrequest
    rw [hrequest, Script.wp_bind]
    refine call_wp hkey (fun r _ (hpos : ¬r.value ≤ 0) => ?_) fun r _ (hle : r.value ≤ 0) => ?_
    · rw [Script.wp_bind, Script.wp_pure]
      beta_reduce
      rw [if_neg hpos]
      exact hattach _ _ (Int.not_le.mp hpos) fun hk => absurd hkey (Int.not_lt.mpr hk)
    · rw [Script.wp_bind, Script.wp_pure]
      beta_reduce
      rw [if_pos hle, Script.wp_bind]
      exact errnoOr_wp (by decide) fun e _ _ he => hfail (.shmget key size' create') e _ rfl
        (fun hk => absurd hkey (Int.not_lt.mpr hk)) he
  · next hkey =>
    have hkey' : key ≤ 0 := Int.not_lt.mp hkey
    rw [Script.wp_bind, Script.wp_pure]
    beta_reduce
    split
    · next hid =>
      rw [Script.wp_bind]
      exact errnoOr_wp (by decide) fun e _ _ he => hbad e _ he hkey' hid
    · next hid => exact hattach _ _ (Int.not_le.mp hid) fun _ => rfl

/-! ### The file lock -/

/-- The wait ends with the lock or an error, if the interruptions end. -/
theorem doLockFile_wp {fd : Int} {fuel : Nat} {post : Nat → State → Prop} (hfd : fd ∈ h.fds) (hlt : h.interrupts < fuel)
    (hok : ∀ i e, post 0 ⟨e, {h with lock := some fd, interrupts := i}⟩)
    (hfail : ∀ i err e, err ≠ 0 → post err ⟨e, {h with interrupts := i}.fail (.setlkw fd)⟩) :
    (doLockFile fd fuel).Wp system post bad ⟨n, h⟩ := by
  induction fuel generalizing n h with
  | zero => exact absurd hlt (Nat.not_lt_zero _)
  | succ fuel ih =>
    rw [doLockFile, Script.wp_bind]
    refine call_wp hfd (fun r hr hok' => ?_) fun r _ (hfails : r.value ≠ 0 ∧ r.errno ≠ EINTR) => ?_
    · have hok' : ¬(r.value ≠ 0 ∧ r.errno ≠ EINTR) := hok'
      split
      · next hne =>
        have hintr : r.errno = EINTR := by
          by_contra hne'
          exact hok' ⟨hne, hne'⟩
        have hpos : 0 < h.interrupts := hr hne hintr
        have hwait : h.after r (.setlkw fd) = {h with interrupts := h.interrupts - 1} :=
          (if_neg hne).trans (if_pos hintr)
        rw [hwait, Script.wp_bind]
        refine errnoOr_wp (by decide) fun e he _ _ => ?_
        beta_reduce
        rw [if_pos ((he (by rw [hintr]; decide)).trans hintr)]
        exact ih (h := {h with interrupts := h.interrupts - 1}) hfd (show h.interrupts - 1 < fuel by omega) hok hfail
      · next hzero =>
        have hzero' : r.value = 0 := not_not.mp hzero
        have hlock : h.after r (.setlkw fd) = {h with lock := some fd} := if_pos hzero'
        rw [hlock, Script.wp_bind, Script.wp_pure]
        beta_reduce
        rw [if_neg (by decide)]
        exact hok h.interrupts _
    · obtain ⟨hne, hintr⟩ := hfails
      have hsame : h.after r (.setlkw fd) = h := (if_neg hne).trans (if_neg hintr)
      rw [if_pos hne, hsame, Script.wp_bind]
      refine errnoOr_wp (by decide) fun e he he₀ hpos => ?_
      have hne' : e ≠ EINTR := by
        by_cases hzero : r.errno = 0
        · rw [he₀ hzero]
          decide
        · rw [he hzero]
          exact hintr
      beta_reduce
      rw [if_neg hne']
      exact hfail h.interrupts e _ hpos

theorem shmLockFile_wp {filename : String} {fuel : Nat} {post : Int → State → Prop} (hl : h.lock = none)
    (hlt : h.interrupts < fuel)
    (hok : ∀ fd i e, 0 ≤ fd → post fd ⟨e, {h with fds := fd :: h.fds, lock := some fd, interrupts := i}⟩)
    (hfail : ∀ c i e, c.locks = true → post (-1) ⟨e, {h with interrupts := i}.fail c⟩) :
    (shmLockFile filename fuel).Wp system post bad ⟨n, h⟩ := by
  rw [shmLockFile, Script.wp_bind]
  refine call_wp trivial (fun fd _ (hpos : ¬fd.value < 0) => ?_) fun fd _ (hneg : fd.value < 0) => ?_
  · have hopen : h.after fd (.openFile filename) = {h with fds := fd.value :: h.fds} := if_pos (Int.not_lt.mp hpos)
    rw [if_neg hpos, hopen, Script.wp_bind]
    refine doLockFile_wp (h := {h with fds := fd.value :: h.fds}) List.mem_cons_self hlt (fun i e => ?_)
      fun i err e hne => ?_
    · rw [if_neg (not_not.mpr rfl)]
      exact hok _ i e (Int.not_lt.mp hpos)
    · rw [if_pos hne, Script.wp_bind]
      exact close_wp (h := Held.fail {h with interrupts := i} (.setlkw fd.value)) hl fun _ e => hfail _ i e rfl
  · have hopen : h.after fd (.openFile filename) = h := if_neg (Int.not_le.mpr hneg)
    rw [if_pos hneg, hopen, Script.wp_bind]
    exact errnoOr_wp (by decide) fun e _ _ _ => hfail (.openFile filename) h.interrupts _ rfl

/-! ### The context -/

theorem shmLockInit_wp {post : Int → State → Prop} (hpost : ∀ r e, post r ⟨e, h⟩) :
    shmLockInit.Wp system post bad ⟨n, h⟩ := by
  have hnext : ∀ {c : Request} {n : Nat} {post : Answer → State → Prop}, h.accepts c → (∀ r, h.after r c = h) →
      c.ignored = true → (∀ r e, post r ⟨e, h⟩) → (call c).Wp system post bad ⟨n, h⟩ :=
    fun ha hafter hi hpost => ignored_wp ha hi fun r _ => by rw [hafter]; exact hpost _ _
  rw [shmLockInit, Script.wp_bind]
  refine hnext trivial (fun _ => rfl) rfl fun r e => ?_
  split
  · exact hpost _ _
  rw [Script.wp_bind]
  refine hnext trivial (fun _ => rfl) rfl fun r e => ?_
  split
  · exact hpost _ _
  rw [Script.wp_bind]
  refine hnext trivial (fun _ => rfl) rfl fun r e => ?_
  split
  · exact hpost _ _
  rw [Script.wp_bind]
  refine hnext trivial (fun _ => rfl) rfl fun r e => ?_
  split
  · exact hpost _ _
  rw [Script.wp_bind]
  exact hnext trivial (fun _ => rfl) rfl fun r e => hpost _ _

/-- A request that changes nothing that is held. -/
theorem ask_wp (ha : h.accepts c) (hafter : ∀ r, h.after r c = h) (hno : ∀ r, ¬Fails r c)
    (hpost : ∀ r, State.answers ⟨n, h⟩ c r → post r ⟨r.errno, h⟩) : (call c).Wp system post bad ⟨n, h⟩ :=
  ⟨ha, fun r hr => by
    show post r ⟨r.errno, if Fails r c ∧ c.ignored = false then _ else _⟩
    rw [if_neg fun hf => hno r hf.1, hafter]
    exact hpost r hr⟩

theorem initShmSharedField_wp {key shmid : Int} {post : Unit → State → Prop} (hl : h.lock ≠ none) (hflag : h.flag = false)
    (hpost : ∀ e, post () ⟨e, {h with flag := true}⟩) : (initShmSharedField key shmid).Wp system post bad ⟨n, h⟩ := by
  rw [initShmSharedField, Script.wp_bind]
  refine call_wp ⟨hl, hflag⟩ (fun r _ _ => ?_) fun r _ hf => hf.elim
  rw [Script.wp_bind]
  refine shmLockInit_wp (h := {h with flag := true}) fun r e => ?_
  rw [Script.wp_bind]
  exact ask_wp hl (fun _ => rfl) (fun _ hf => hf) fun r _ => hpost _

/-- The fields are set under the lock, if they are not. -/
theorem setUpContext_wp {path : String} {key shmid : Int} {fuel : Nat} {post : Bool → State → Prop} (hl : h.lock = none)
    (hlt : h.interrupts < fuel) (hok : ∀ i e, post true ⟨e, {h with flag := true, interrupts := i}⟩)
    (hfail : ∀ c i e, c.locks = true → post false ⟨e, {h with interrupts := i}.fail c⟩) :
    (setUpContext path key shmid fuel).Wp system post bad ⟨n, h⟩ := by
  rw [setUpContext, Script.wp_bind]
  refine shmLockFile_wp hl hlt (fun fd i e hfd => ?_) fun c i e hc => ?_
  · rw [if_neg (Int.not_lt.mpr hfd), Script.wp_bind]
    have hclose : ∀ e, (shmUnlockFile fd).Wp system (fun _ s => (pure true : Sys Bool).Wp system post bad s) bad
        ⟨e, {h with fds := fd :: h.fds, lock := some fd, flag := true, interrupts := i}⟩ := fun e => by
      rw [shmUnlockFile, Script.wp_bind]
      refine ignored_wp List.mem_cons_self rfl fun r _ => ?_
      have hnone : Held.after {h with fds := fd :: h.fds, lock := some fd, flag := true, interrupts := i} r (.close fd) =
          {h with flag := true, interrupts := i} := by
        simp [Held.after, hl]
      rw [hnone]
      exact hok i _
    refine call_wp trivial (fun flag hans _ => ?_) fun r _ hf => hf.elim
    have hans : h.flag = true → flag.value = shmInitFlag := hans
    split
    · next hne =>
      have hflag : h.flag = false := by
        by_contra ht
        exact hne (hans (by simpa using ht))
      have hsame : Held.after {h with fds := fd :: h.fds, lock := some fd, interrupts := i} flag .initFlag = _ := if_neg hne
      rw [hsame, Script.wp_bind]
      refine initShmSharedField_wp (by simp) hflag fun e => ?_
      rw [Script.wp_bind]
      exact hclose e
    · next heq =>
      have hset : Held.after {h with fds := fd :: h.fds, lock := some fd, interrupts := i} flag .initFlag = _ :=
        if_pos (not_not.mp heq)
      rw [hset, Script.wp_bind]
      exact hclose _
  · rw [if_pos (by decide)]
    exact hfail c i e hc

/-- What a process has when it has not got the context. -/
inductive NoContext (h : Held) : Held → Prop where
  | plain (c : Request) (i : Nat) (hc : c.locks = false) : NoContext h ({h with interrupts := i}.fail c)
  /-- The segment stays attached. -/
  | lock (a : Int) (c : Request) (i : Nat) (hc : c.locks = true) :
    NoContext h ({h with attached := a :: h.attached, interrupts := i}.fail c)

theorem assert_wp {b : Bool} {post : Unit → State → Prop} {s : State} (hpost : b = true → post () s) (hbad : bad .assertion s) :
    (assert b).Wp system post bad s := by
  cases b with
  | true => exact hpost rfl
  | false => exact hbad

/-- The assertions and the count, once the segment is attached and set up. -/
theorem countContext_wp {key a : Int} {f : Bool} {i : Nat} {post : Option Int → State → Prop}
    (hok : ∀ e, post (some a) ⟨e, {h with attached := a :: h.attached, flag := true, interrupts := i}⟩)
    (hbad : ∀ f' e, (f = true → f' = true) →
      bad .assertion ⟨e, {h with attached := a :: h.attached, flag := f', interrupts := i}⟩) :
    (call .initFlag >>= fun flag => assert (flag.value = shmInitFlag) >>= fun _ => call .contextKey >>= fun contextKey =>
      assert (key = contextKey.value) >>= fun _ => call .addCount >>= fun _ =>
      (pure (some a) : Sys (Option Int))).Wp system post bad
      ⟨n, {h with attached := a :: h.attached, flag := f, interrupts := i}⟩ := by
  rw [Script.wp_bind]
  refine call_wp trivial (fun flag _ _ => ?_) fun r _ hf => hf.elim
  rw [Script.wp_bind]
  by_cases hflag : flag.value = shmInitFlag
  · have hset : Held.after {h with attached := a :: h.attached, flag := f, interrupts := i} flag .initFlag = _ :=
      if_pos hflag
    rw [hset]
    refine assert_wp (fun _ => ?_) (hbad true _ fun _ => rfl)
    rw [Script.wp_bind]
    refine ask_wp trivial (fun _ => rfl) (fun _ hf => hf) fun r _ => ?_
    rw [Script.wp_bind]
    refine assert_wp (fun _ => ?_) (hbad true _ fun _ => rfl)
    rw [Script.wp_bind]
    exact ask_wp trivial (fun _ => rfl) (fun _ hf => hf) fun r _ => hok _
  · have hsame : Held.after {h with attached := a :: h.attached, flag := f, interrupts := i} flag .initFlag = _ :=
      if_neg hflag
    rw [hsame]
    exact assert_wp (fun ht => absurd (of_decide_eq_true ht) hflag) (hbad f _ id)

theorem initSharedContext_wp {path : String} {create : Bool} {fuel : Nat} {post : Option Int → State → Prop}
    (hl : h.lock = none) (hlt : h.interrupts < fuel)
    (hok : ∀ a i e, a ≠ 0 → post (some a) ⟨e, {h with attached := a :: h.attached, flag := true, interrupts := i}⟩)
    (hfail : ∀ h' e, NoContext h h' → post none ⟨e, h'⟩)
    (hbad : ∀ a i f e, (create = true → f = true) →
      bad .assertion ⟨e, {h with attached := a :: h.attached, flag := f, interrupts := i}⟩) :
    (initSharedContext path create fuel).Wp system post bad ⟨n, h⟩ := by
  have hnone : ∀ c e, c.locks = false → post none ⟨e, h.fail c⟩ := fun c e hc => hfail _ e (.plain c h.interrupts hc)
  rw [initSharedContext, Script.wp_bind]
  refine shmGetKey_wp hl (fun e key hkey => ?_) fun c result key e hc hne => ?_
  · dsimp only
    rw [if_neg (not_not.mpr rfl), Script.wp_bind]
    refine shmMmap_wp (fun a shmid e ha hpos _ => ?_) (fun err e _ hle _ => absurd hkey (Int.not_lt.mpr hle))
      fun c err e hc _ _ => hnone c e hc
    dsimp only
    cases create with
    | true =>
      rw [if_pos rfl, Script.wp_bind]
      refine setUpContext_wp hl hlt (fun i e => ?_) fun c i e hc => ?_
      · rw [if_pos rfl]
        exact countContext_wp (fun e => hok a i e ha) fun f e hf => hbad a i f e fun _ => hf rfl
      · rw [if_neg (by decide)]
        exact hfail _ e (.lock a c i hc)
    | false =>
      rw [if_neg (by decide), Script.wp_bind, Script.wp_pure, if_pos rfl]
      exact countContext_wp (f := h.flag) (i := h.interrupts) (fun e => hok a _ e ha) fun f e _ => hbad a _ f e fun hc => absurd hc (by decide)
  · dsimp only
    split
    · exact hnone c e hc
    · next hzero =>
      have hle : key ≤ 0 := hne.resolve_left hzero
      -- without a key, the identifier that is asked for is the 0 it starts with
      rw [Script.wp_bind]
      refine shmMmap_wp (fun a shmid e _ hpos hid => ?_) (fun err e _ _ _ => hnone c e hc) fun c' err e _ hid _ => ?_
      · rw [hid hle] at hpos
        exact absurd hpos (Int.lt_irrefl 0)
      · exact absurd (hid hle).2 (Int.lt_irrefl 0)

/-! ### `shm_init` -/

/-- What the loop over the arenas may leave. -/
structure Attached (h h' : Held) : Prop where
  fds : h'.fds = h.fds
  lock : h'.lock = h.lock
  flag : h'.flag = h.flag
  attached : ∃ as, h'.attached = as ++ h.attached
  /-- Only an attach may have failed. -/
  failed : ∀ c ∈ h'.failed, c ∈ h.failed ∨ ∃ shmid, c = .shmat shmid

theorem Attached.refl (h : Held) : Attached h h := ⟨rfl, rfl, rfl, ⟨[], rfl⟩, fun _ hc => .inl hc⟩

theorem Attached.trans {h₁ h₂ h₃ : Held} (h : Attached h₁ h₂) (h' : Attached h₂ h₃) : Attached h₁ h₃ where
  fds := h'.fds.trans h.fds
  lock := h'.lock.trans h.lock
  flag := h'.flag.trans h.flag
  attached := by
    obtain ⟨as, ha⟩ := h.attached
    obtain ⟨bs, hb⟩ := h'.attached
    exact ⟨bs ++ as, by rw [hb, ha, List.append_assoc]⟩
  failed c hc := (h'.failed c hc).elim (h.failed c) .inr

theorem Attached.fail (h : Held) (shmid : Int) : Attached h (h.fail (.shmat shmid)) where
  fds := rfl
  lock := rfl
  flag := rfl
  attached := ⟨[], rfl⟩
  failed c hc := by
    rcases List.mem_cons.mp hc with rfl | hc
    · exact .inr ⟨shmid, rfl⟩
    · exact .inl hc

theorem attachArenas_wp {k i : Nat} {post : Unit → State → Prop} (hpost : ∀ h' e, Attached h h' → post () ⟨e, h'⟩) :
    (attachArenas k i).Wp system post bad ⟨n, h⟩ := by
  induction k generalizing n h i with
  | zero => exact hpost h n (.refl h)
  | succ k ih =>
    have hrest : ∀ h' e, Attached h h' → (attachArenas k (i + 1)).Wp system post bad ⟨e, h'⟩ :=
      fun h' e hh => ih fun h'' e' hh' => hpost h'' e' (hh.trans hh')
    rw [attachArenas, Script.wp_bind]
    refine ask_wp trivial (fun _ => rfl) (fun _ hf => hf) fun arena _ => ?_
    split
    · rw [Script.wp_bind]
      refine shmMmap_wp (fun a shmid e _ _ _ => ?_) (fun err e _ _ _ => hrest h e (.refl h)) fun c err e _ hc _ => ?_
      · exact hrest _ e ⟨rfl, rfl, rfl, ⟨[a], rfl⟩, fun _ hc => .inl hc⟩
      · rw [(hc (Int.le_refl 0)).1]
        exact hrest _ e (.fail h _)
    · exact hrest h _ (.refl h)

/-- What a process has when `shm_init` returns. -/
structure InitReturns (h : Held) (r : Int) (h' : Held) : Prop where
  fds : h'.fds = h.fds
  lock : h'.lock = none
  ok : r = 0 → h'.flag = true ∧ (∃ a as, h'.attached = as ++ a :: h.attached) ∧
    ∀ c ∈ h'.failed, ∃ shmid, c = .shmat shmid
  failed : r ≠ 0 → ∃ c, h'.failed = [c] ∧ (r = -1 ∨ r = -ENOMEM ∧ ∃ size, c = .alloc size) ∧
    if c.locks then ∃ a, h'.attached = a :: h.attached else h'.attached = h.attached

/-- What a process has when an assertion of `shm_init` fails. One that creates the context finds its flag. -/
structure InitAborts (h : Held) (create : Bool) (h' : Held) : Prop where
  fds : h'.fds = h.fds
  lock : h'.lock = none
  attached : ∃ a, h'.attached = a :: h.attached
  flag : create = true → h'.flag = true
  failed : h'.failed = []

theorem Held.fail_failed {h : Held} (hf : h.failed = []) (c : Request) : (h.fail c).failed = [c] := by
  rw [Held.fail, hf]

theorem shmInit_wp {path : String} {create : Bool} {fuel : Nat} (hl : h.lock = none) (hf : h.failed = [])
    (hlt : h.interrupts < fuel) : (shmInit path create fuel).Wp system (fun r s => InitReturns h r s.held)
      (fun e s => e = .assertion ∧ InitAborts h create s.held) ⟨n, h⟩ := by
  rw [shmInit, Script.wp_bind]
  refine call_wp trivial (fun copy _ (hcopy : ¬copy.value = 0) => ?_) fun copy _ (hnull : copy.value = 0) => ?_
  · rw [if_neg hcopy, Script.wp_bind]
    refine call_wp trivial (fun r _ (hok : ¬r.value ≠ 0) => ?_) fun r _ (hne : r.value ≠ 0) => ?_
    · rw [if_neg hok, Script.wp_bind]
      refine initSharedContext_wp hl hlt (fun a i e ha => ?_) (fun h' e hno => ?_) fun a i f e hflag => ?_
      · rw [Script.wp_bind]
        refine ignored_wp trivial rfl fun r _ => ?_
        rw [Script.wp_bind]
        refine attachArenas_wp fun h' e hh => ?_
        rw [Script.wp_bind]
        refine ignored_wp trivial rfl fun r _ => ?_
        obtain ⟨as, has⟩ := hh.attached
        exact {
          fds := hh.fds
          lock := hh.lock.trans hl
          ok := fun _ => ⟨hh.flag, ⟨a, as, has⟩, fun c hc => (hh.failed c hc).resolve_left fun h₀ =>
            absurd (hf ▸ h₀ : c ∈ []) List.not_mem_nil⟩
          failed := fun h₀ => absurd rfl h₀
        }
      · cases hno with
        | plain c i hc => exact {
            fds := rfl
            lock := hl
            ok := fun h₀ => absurd h₀ (by decide)
            failed := fun _ => ⟨c, Held.fail_failed hf c, .inl rfl, by rw [if_neg (by simp [hc])]; rfl⟩
          }
        | lock a c i hc => exact {
            fds := rfl
            lock := hl
            ok := fun h₀ => absurd h₀ (by decide)
            failed := fun _ => ⟨c, Held.fail_failed hf c, .inl rfl, by rw [if_pos hc]; exact ⟨a, rfl⟩⟩
          }
      · exact ⟨rfl, rfl, hl, ⟨a, rfl⟩, hflag, hf⟩
    · rw [if_pos hne]
      exact {
        fds := rfl
        lock := hl
        ok := fun h₀ => absurd h₀ (by decide)
        failed := fun _ => ⟨_, Held.fail_failed hf _, .inl rfl, rfl⟩
      }
  · rw [if_pos hnull]
    exact {
      fds := rfl
      lock := hl
      ok := fun h₀ => absurd h₀ (by decide)
      failed := fun _ => ⟨_, Held.fail_failed hf _, .inr ⟨rfl, _, rfl⟩, rfl⟩
    }

/-- A call that failed is remembered. -/
theorem run_failed {α : Type} {p q : Sys α} {s t : State} (hr : Script.Run system p s q t) : ∀ c ∈ s.held.failed, c ∈ t.held.failed := by
  induction hr with
  | refl => exact fun _ hc => hc
  | @step c k s₁ r _ _ ih =>
    intro c₀ hc
    have hsame : (s₁.held.after r c).failed = s₁.held.failed := by
      unfold Held.after
      repeat' split
      all_goals rfl
    show c₀ ∈ Held.failed (if Fails r c ∧ c.ignored = false then _ else _)
    split
    · exact List.mem_cons_of_mem _ (hsame ▸ ih c₀ hc)
    · exact hsame ▸ ih c₀ hc

/-- Whatever calls fail, a descriptor is used only while it is open, and the fields of the context are set at most
once and under the file lock. No descriptor and no lock is left; the result is 0 unless a call failed other than
the attach of an arena and those that are ignored, and then nothing stays attached, except for the context when
the lock was what failed. -/
theorem shmInit_paths {path : String} {create : Bool} {fuel : Nat} {p : Sys Int} {s : State} (hl : h.lock = none)
    (hf : h.failed = []) (hlt : h.interrupts < fuel) (hr : Script.Run system (shmInit path create fuel) ⟨n, h⟩ p s) :
    (∀ c k, p = .ask c k → s.held.accepts c) ∧ (∀ r, p = .ret r → InitReturns h r s.held) ∧
      (∀ e, p = .fail e → e = .assertion ∧ InitAborts h create s.held) ∧
      ∀ c k s₁ r, Script.Run system (shmInit path create fuel) ⟨n, h⟩ (.ask c k) s₁ → State.answers s₁ c r →
        Script.Run system (k r) (system.next s₁ c r) p s → Fails r c → c ∈ s.held.failed ∨ c.ignored = true := by
  have hwp := (shmInit_wp (n := n) hl hf hlt).run hr
  refine ⟨fun c k hp => ?_, fun r hp => ?_, fun e hp => ?_, fun c k s₁ r _ _ hrest hfails => ?_⟩
  · rw [hp] at hwp
    exact hwp.1
  · rw [hp] at hwp
    exact hwp
  · rw [hp] at hwp
    exact hwp
  · cases hi : c.ignored with
    | true => exact .inr rfl
    | false =>
      refine .inl (run_failed hrest c ?_)
      show c ∈ Held.failed (if Fails r c ∧ c.ignored = false then _ else _)
      rw [if_pos ⟨hfails, hi⟩]
      exact List.mem_cons_self

/-- A process without anything, which a signal is to interrupt once. -/
def Held.start : Held := ⟨[], none, [], false, 1, []⟩

/-- The wait for the file lock is interrupted, and fails then. -/
theorem shmInit_lock_run : Script.Run system (shmInit "shm" true 2) ⟨0, .start⟩ (.ret (-1))
    ⟨35, ⟨[], none, [64], false, 0, [.setlkw 3]⟩⟩ := by
  refine .head ⟨32, 0⟩ trivial ?_
  refine .head ⟨0, 0⟩ trivial ?_
  refine .head ⟨0, 0⟩ trivial ?_
  refine .head ⟨7, 0⟩ trivial ?_
  refine .head ⟨5, 0⟩ trivial ?_
  refine .head ⟨64, 0⟩ trivial ?_
  refine .head ⟨3, 0⟩ (by exact List.not_mem_nil) ?_
  refine .head ⟨-1, EINTR⟩ (fun _ _ => Nat.one_pos) ?_
  refine .head ⟨0, EINTR⟩ rfl ?_
  refine .head ⟨-1, 35⟩ (fun _ h => absurd h (by decide)) ?_
  refine .head ⟨0, 35⟩ rfl ?_
  refine .head ⟨0, 35⟩ trivial ?_
  exact .refl _ _

theorem shmInit_paths_lock : ∃ s, Script.Run system (shmInit "shm" true 2) ⟨0, .start⟩ (.ret (-1)) s ∧
    InitReturns .start (-1) s.held ∧ s.held.attached = [64] :=
  ⟨_, shmInit_lock_run, (shmInit_paths rfl rfl (by decide) shmInit_lock_run).2.1 _ rfl, rfl⟩

end

end ShmMalloc.System
