import ShmMalloc.Process.Lookup
import ShmMalloc.System.Calls

/-! The system calls of `new_arena` on the segments of the system.

The system that answers here has the segments, the keys and the attaches of `Sysv`, and
may fail any call. What `new_arena` then makes of its calls is what the arena model says
for one of the outcomes that it is given, and each outcome is that of some run. -/
namespace ShmMalloc.System
open Library

/-- The keys that `ftok` gives for the path. -/
structure Keys where
  key : Nat → Int
  index : Int → Nat
  pos (i : Nat) : 0 < key i
  index_key (i : Nat) : index (key i) = i

/-- The context segment, if its fields are set; of `shm` the part that is shared counts. -/
structure Fields where
  set : Bool
  key : Int
  count : Int
  shm : Shm

/-- The segments as the process sees them. -/
structure Ipc where
  sys : Sysv
  fields : Fields
  errno : Nat

end ShmMalloc.System

namespace ShmMalloc.Sysv

/-- `shmctl` with `IPC_RMID`: no key names the segment any more. -/
def rmid (y : Sysv) (shmid : Nat) : Sysv := {y with key := fun i => if y.key i = some shmid then none else y.key i}

/-- The identifiers in use, and those that the system may give to a new segment. -/
structure Names (y : Sysv) (fresh : Nat → Prop) : Prop where
  pos : ∀ m, fresh m → 0 < m
  key_pos : ∀ i m, y.key i = some m → 0 < m
  key : ∀ m, fresh m → ∀ i, y.key i ≠ some m
  own : ∀ i j m, y.key i = some m → y.key j = some m → i = j
  spare : ∃ m, fresh m
  addr : ∀ m k l, y.shmat m k l ≠ some 0

variable {y : Sysv} {fresh : Nat → Prop}

theorem Names.shmget_pos (h : y.Names fresh) (index : Nat) {m : Nat} (hm : fresh m) : 0 < (y.shmget index m).2 := by
  obtain ⟨m', hk, hs⟩ | ⟨-, hs⟩ := y.shmget_cases index m
  · rw [hs]
    exact h.key_pos index m' hk
  · rw [hs]
    exact h.pos m hm

/-- A segment that is there is found again. -/
theorem shmget_again (y : Sysv) (index m : Nat) :
    (y.shmget index (y.shmget index m).2).1 = (y.shmget index m).1 := by
  obtain ⟨m', hk, hs⟩ | ⟨-, hs⟩ := y.shmget_cases index m
  · rw [hs, shmget, hk]
  · rw [hs]
    show (y.shmget index m).1 = _
    rw [hs]

theorem mmap_addr (y : Sysv) {shmid : Nat} (h : shmid ≠ 0) : (y.mmap shmid).2 = y.shmat shmid y.attaches y.attached := by
  rw [mmap, if_neg h]
  cases y.shmat shmid y.attaches y.attached <;> rfl

/-- The key of the index alone names what `shmget` answers with. -/
theorem Names.shmget_key (h : y.Names fresh) {index m : Nat} (hm : fresh m) (i : Nat) :
    (y.shmget index m).1.key i = some (y.shmget index m).2 ↔ i = index := by
  obtain ⟨m', hk, hs⟩ | ⟨-, hs⟩ := y.shmget_cases index m
  · rw [hs]
    exact ⟨fun hi => h.own i index m' hi hk, fun hi => hi ▸ hk⟩
  · rw [hs]
    show Function.update y.key index (some m) i = some m ↔ _
    by_cases hi : i = index
    · rw [hi, Function.update_self]
      exact ⟨fun _ => rfl, fun _ => rfl⟩
    · rw [Function.update_of_ne hi]
      exact ⟨fun hk => absurd hk (h.key m hm i), fun h₀ => absurd h₀ hi⟩

theorem Names.mmap_key (h : y.Names fresh) {index m addr : Nat} (hm : fresh m) {y' : Sysv}
    (hmap : (y.shmget index m).1.mmap (y.shmget index m).2 = (y', some addr)) (i : Nat) :
    y'.key i = some (y.shmget index m).2 ↔ i = index := by
  obtain ⟨-, -, hy'⟩ := mmap_some hmap
  rw [hy']
  exact h.shmget_key hm i

theorem rmid_eq_remove {shmid index : Nat} (h : ∀ i, y.key i = some shmid ↔ i = index) :
    y.rmid shmid = y.remove index := by
  have hkey : (fun i => if y.key i = some shmid then none else y.key i) = Function.update y.key index none := by
    funext i
    by_cases hi : i = index
    · rw [hi, Function.update_self, if_pos ((h index).mpr rfl)]
    · rw [Function.update_of_ne hi, if_neg fun hk => hi ((h i).mp hk)]
  rw [rmid, hkey, remove]

end ShmMalloc.Sysv

namespace ShmMalloc.System
open Library

def Ipc.answers (K : Keys) (fresh : Nat → Prop) (s : Ipc) (c : Request) (r : Answer) : Prop :=
  match c with
  | .errno => r.errno = s.errno
  | .ftok _ index => r.value = -1 ∨ r.value = K.key index
  | .shmget key _ create => r.value ≤ 0 ∨ (create = true ∨ s.sys.key (K.index key) ≠ none) ∧
    ∃ m, fresh m ∧ r.value = (s.sys.shmget (K.index key) m).2
  | .shmat shmid => r.value = (s.sys.shmat shmid.toNat s.sys.attaches s.sys.attached).elim (-1 : Int) fun addr => addr
  | .initFlag => r.value = if s.fields.set then shmInitFlag else 0
  | .contextKey => r.value = s.fields.key
  | .arena index => r.value = if isArenaValid s.fields.shm index then ((s.fields.shm.arenas index).shmid : Int) else 0
  | .subCount => r.value = s.fields.count - 1
  | .contextShmid => r.value = (s.fields.shm.arenas 0).shmid
  | _ => True

/-- The segments after a call. -/
def Sysv.after (K : Keys) (y : Sysv) (r : Answer) : Request → Sysv
  | .shmget key _ _ => if 0 < r.value then (y.shmget (K.index key) r.value.toNat).1 else y
  | .shmat shmid => (y.mmap shmid.toNat).1
  | .rmid shmid => if r.value = 0 then y.rmid shmid.toNat else y
  | _ => y

/-- The context after a request. Without its key, the segment is left to the processes that have it attached. -/
def Fields.after (f : Fields) (y : Sysv) (r : Answer) : Request → Fields
  | .rmid shmid => if r.value = 0 ∧ y.key 0 = some shmid.toNat then {f with set := false} else f
  | .setFields key => ⟨true, key, 0, {initShm 0 with arenas := fun _ => .zero}⟩
  | .setArena shmid => {f with
      shm := f.shm.setArena 0 ⟨.context, shmid.toNat, 0, 2 ^ 23, 1, fun k => if k = 0 then index2pos 0 1 else 0⟩}
  | .addCount => {f with count := f.count + 1}
  | .subCount => {f with count := f.count - 1}
  | _ => f

def sysv (K : Keys) (fresh : Nat → Prop) : Service Request Answer Ipc where
  accepts _ _ := True
  answers := Ipc.answers K fresh
  next s c r := ⟨Sysv.after K s.sys r c, s.fields.after s.sys r c, r.errno⟩

section
variable {K : Keys} {fresh : Nat → Prop} {y : Sysv} {f : Fields} {n : Nat} {bad : Fault → Ipc → Prop}

/-! ### What a run may do -/

theorem errnoOr_sysv {d : Nat} {post : Nat → Ipc → Prop} (hd : d ≠ 0) (hpost : ∀ e e', e ≠ 0 → post e ⟨y, f, e'⟩) :
    (errnoOr d).Wp (sysv K fresh) post bad ⟨y, f, n⟩ := by
  refine ⟨trivial, fun r _ => ?_⟩
  show post (if r.errno ≠ 0 then r.errno else d) ⟨y, f, r.errno⟩
  split
  · next he => exact hpost _ _ he
  · exact hpost _ _ hd

theorem writeFile_sysv {filename buff : String} {size : Nat} {post : Nat → Ipc → Prop}
    (hpost : ∀ result e, post result ⟨y, f, e⟩) : (writeFile filename buff size).Wp (sysv K fresh) post bad ⟨y, f, n⟩ := by
  have hclose : ∀ {fd : Int} {result e : Nat},
      (call (.close fd) >>= fun _ => (pure result : Sys Nat)).Wp (sysv K fresh) post bad ⟨y, f, e⟩ :=
    ⟨trivial, fun _ _ => hpost _ _⟩
  rw [writeFile, Script.wp_bind]
  refine ⟨trivial, fun fd _ => ?_⟩
  show Script.Wp _ _ _ (if fd.value < 0 then _ else _) _
  split
  · exact errnoOr_sysv (by decide) fun _ _ _ => hpost _ _
  rw [Script.wp_bind]
  refine ⟨trivial, fun m _ => ?_⟩
  show Script.Wp _ _ _ (if m.value ≠ size then _ else _) _
  split
  · rw [Script.wp_bind]
    exact errnoOr_sysv (by decide) fun _ _ _ => hclose
  rw [Script.wp_bind]
  refine ⟨trivial, fun r _ => ?_⟩
  show Script.Wp _ _ _ (if r.value ≠ 0 then _ else _) _
  split
  · rw [Script.wp_bind]
    exact errnoOr_sysv (by decide) fun _ _ _ => hclose
  · exact hclose

theorem createKeyFile_sysv {filename : String} {post : Nat → Ipc → Prop} (hpost : ∀ result e, post result ⟨y, f, e⟩) :
    (createKeyFile filename).Wp (sysv K fresh) post bad ⟨y, f, n⟩ := by
  rw [createKeyFile, Script.wp_bind]
  refine ⟨trivial, fun r _ => ?_⟩
  show Script.Wp _ _ _ (if r.value ≠ 0 then _ else _) _
  split
  · rw [Script.wp_bind]
    refine errnoOr_sysv (by decide) fun result e _ => ?_
    split
    · exact hpost _ _
    rw [Script.wp_bind]
    refine writeFile_sysv fun result e => ?_
    split
    · exact hpost _ _
    rw [Script.wp_bind]
    refine ⟨trivial, fun m _ => ?_⟩
    show Script.Wp _ _ _ (if m.value ≠ 0 then _ else _) _
    split
    · exact errnoOr_sysv (by decide) fun _ _ _ => hpost _ _
    · exact hpost _ _
  · exact hpost _ _

/-- The key that the path has for the index, or no segment is touched. -/
theorem shmGetKey_sysv {filename : String} {index : Nat} {post : Nat × Int → Ipc → Prop}
    (hok : ∀ e, post (0, K.key index) ⟨y, f, e⟩) (hfail : ∀ result key e, result ≠ 0 → post (result, key) ⟨y, f, e⟩) :
    (shmGetKey filename index).Wp (sysv K fresh) post bad ⟨y, f, n⟩ := by
  rw [shmGetKey, Script.wp_bind]
  refine createKeyFile_sysv fun result e => ?_
  split
  · next hne => exact hfail _ _ _ hne
  rw [Script.wp_bind]
  refine ⟨trivial, fun key (hkey : key.value = -1 ∨ key.value = K.key index) => ?_⟩
  show Script.Wp _ _ _ (if key.value = -1 then _ else _) _
  split
  · rw [Script.wp_bind]
    exact errnoOr_sysv (by decide) fun e _ he => hfail _ _ _ he
  · next hne =>
    rw [hkey.resolve_left hne]
    exact hok _

/-- The part of `shm_mmap` that attaches a segment. -/
theorem attach_sysv {shmid : Nat} {id : Int} {post : Option Int × Int × Nat → Ipc → Prop} (hne : shmid ≠ 0)
    (haddr : ∀ k l, y.shmat shmid k l ≠ some 0)
    (hnone : ∀ err e, (y.mmap shmid).2 = none → post (none, id, err) ⟨(y.mmap shmid).1, f, e⟩)
    (hok : ∀ addr e, (y.mmap shmid).2 = some addr → post (some addr, shmid, 0) ⟨(y.mmap shmid).1, f, e⟩) :
    (call (.shmat shmid) >>= fun addr => if addr.value = 0 ∨ addr.value = -1 then
      errnoOr EPERM >>= fun errNo => pure (none, id, errNo) else pure (some addr.value, (shmid : Int), 0)).Wp
      (sysv K fresh) post bad ⟨y, f, n⟩ := by
  rw [Script.wp_bind]
  refine ⟨trivial, fun a ha => ?_⟩
  have ha : a.value = (y.shmat shmid y.attaches y.attached).elim (-1 : Int) fun addr => addr := ha
  rw [← y.mmap_addr hne] at ha
  have hnext : (sysv K fresh).next ⟨y, f, n⟩ (.shmat shmid) a = ⟨(y.mmap shmid).1, f, a.errno⟩ := rfl
  rw [hnext]
  show Script.Wp _ _ _ (if a.value = 0 ∨ a.value = -1 then _ else _) _
  cases hmap : (y.mmap shmid).2 with
  | none =>
    have ha : a.value = -1 := by rw [ha, hmap]; rfl
    rw [if_pos (.inr ha), Script.wp_bind]
    exact errnoOr_sysv (by decide) fun err e _ => hnone err e hmap
  | some addr =>
    have ha : a.value = addr := by rw [ha, hmap]; rfl
    have hpos : addr ≠ 0 := fun h₀ => haddr _ _ (by rw [← h₀, ← hmap, y.mmap_addr hne])
    rw [if_neg (by omega), ha]
    exact hok addr _ hmap

/-- The segment that the key names, attached. -/
theorem shmMmap_sysv (hy : y.Names fresh) {index size : Nat} {create : Bool} {post : Option Int × Int × Nat → Ipc → Prop}
    (hfail : ∀ err e, post (none, 0, err) ⟨y, f, e⟩)
    (hnone : ∀ m err e, fresh m → (create = true ∨ y.key index ≠ none) →
      ((y.shmget index m).1.mmap (y.shmget index m).2).2 = none →
      post (none, 0, err) ⟨((y.shmget index m).1.mmap (y.shmget index m).2).1, f, e⟩)
    (hok : ∀ m addr e, fresh m → (create = true ∨ y.key index ≠ none) →
      ((y.shmget index m).1.mmap (y.shmget index m).2).2 = some addr →
      post (some addr, (y.shmget index m).2, 0) ⟨((y.shmget index m).1.mmap (y.shmget index m).2).1, f, e⟩) :
    (shmMmap (K.key index) size create 0).Wp (sysv K fresh) post bad ⟨y, f, n⟩ := by
  have hrequest : ∃ size', (if create = true then Request.shmget (K.key index) size true else
      .shmget (K.key index) 0 false) = .shmget (K.key index) size' create := by
    cases create with
    | true => exact ⟨size, rfl⟩
    | false => exact ⟨0, rfl⟩
  obtain ⟨size', hrequest⟩ := hrequest
  rw [shmMmap, if_pos (K.pos index), hrequest, Script.wp_bind]
  refine ⟨trivial, fun r hr => ?_⟩
  have hr : r.value ≤ 0 ∨ (create = true ∨ y.key (K.index (K.key index)) ≠ none) ∧
      ∃ m, fresh m ∧ r.value = (y.shmget (K.index (K.key index)) m).2 := hr
  rw [K.index_key] at hr
  have hnext : (sysv K fresh).next ⟨y, f, n⟩ (.shmget (K.key index) size' create) r =
      ⟨if 0 < r.value then (y.shmget (K.index (K.key index)) r.value.toNat).1 else y, f, r.errno⟩ := rfl
  rw [hnext]
  show Script.Wp _ _ _ (if r.value ≤ 0 then _ else _) _
  rw [K.index_key]
  by_cases hle : r.value ≤ 0
  · rw [if_pos hle, if_neg (Int.not_lt.mpr hle), Script.wp_bind]
    exact errnoOr_sysv (by decide) fun err e _ => hfail err e
  · obtain ⟨hcreate, m, hm, hval⟩ := hr.resolve_left hle
    rw [if_neg hle, if_pos (Int.not_le.mp hle), hval, Int.toNat_natCast, y.shmget_again]
    refine attach_sysv (Nat.ne_of_gt (hy.shmget_pos index hm)) (fun k l => ?_) (fun err e => hnone m err e hm hcreate)
      fun addr e => hok m addr e hm hcreate
    rw [Sysv.shmget_shmat]
    exact hy.addr _ _ _

theorem shmRemove_sysv {shmid : Nat} {post : Nat → Ipc → Prop}
    (hok : ∀ e, post 0 ⟨y.rmid shmid, if y.key 0 = some shmid then {f with set := false} else f, e⟩)
    (hfail : ∀ err e, err ≠ 0 → post err ⟨y, f, e⟩) : (shmRemove shmid).Wp (sysv K fresh) post bad ⟨y, f, n⟩ := by
  rw [shmRemove, Script.wp_bind]
  refine ⟨trivial, fun r _ => ?_⟩
  show Script.Wp _ _ _ (if r.value ≠ 0 then _ else _) (⟨if r.value = 0 then y.rmid shmid else y,
    if r.value = 0 ∧ y.key 0 = some shmid then {f with set := false} else f, r.errno⟩ : Ipc)
  by_cases hzero : r.value = 0
  · rw [if_neg (not_not.mpr hzero), if_pos hzero]
    simp only [hzero, true_and]
    exact hok _
  · rw [if_pos hzero, if_neg hzero, if_neg fun h₀ => hzero h₀.1]
    exact errnoOr_sysv (by decide) hfail

end

end ShmMalloc.System

namespace ShmMalloc

/-- What an outcome makes of the segments, and the identifier and the address that it leaves. -/
def Os.segment (y : Sysv) (index : Nat) : Os → Sysv × Option (Int × Int)
  | .keyFails => (y, none)
  | .shmgetFails => (y, none)
  | .removeFails m => (((y.shmget index m).1.mmap (y.shmget index m).2).1, none)
  | .created m =>
    match (y.shmget index m).1.mmap (y.shmget index m).2 with
    | (y', none) => (y', none)
    | (y', some addr) => (y'.remove index, some ((y.shmget index m).2, addr))

/-- The identifier and the address of an arena. -/
def Shm.segment (s : Shm) (index : Nat) : Option (Int × Int) :=
  (s.arenaAddrs index).addr.map fun addr => (((s.arenas index).shmid : Int), (addr : Int))

theorem mmapNewArena_eq {s : Shm} {index m : Nat} {y : Sysv} {r : Option Nat}
    (h : (s.sys.shmget index m).1.mmap (s.sys.shmget index m).2 = (y, r)) :
    mmapNewArena s index m = ({s with sys := y}, (s.sys.shmget index m).2, r) := by
  show ({s with sys := ((s.sys.shmget index m).1.mmap (s.sys.shmget index m).2).1}, (s.sys.shmget index m).2,
    ((s.sys.shmget index m).1.mmap (s.sys.shmget index m).2).2) = _
  rw [h]

theorem newArena_segment {s : Shm} (type : ArenaType) {size index : Nat} (os : Os) (hsize : size % 2 ^ 20 = 0)
    (hindex : findEmptyArena s 127 1 = some index) : ∃ s' found, newArena s type size os = .ok (s', found) ∧
      os.segment s.sys index = (s'.sys, found.bind s'.segment) := by
  have hreq : require (size % 2 ^ 20 = 0) = .ok () := by rw [decide_eq_true hsize]; rfl
  simp only [newArena, hreq, hindex, Exec.ok_bind]
  cases os with
  | keyFails => exact ⟨s, none, rfl, rfl⟩
  | shmgetFails => exact ⟨s, none, rfl, rfl⟩
  | removeFails m => exact ⟨_, none, rfl, rfl⟩
  | created m =>
    rcases hmap : (s.sys.shmget index m).1.mmap (s.sys.shmget index m).2 with ⟨y, _ | addr⟩
    · simp only [mmapNewArena_eq hmap]
      exact ⟨_, none, rfl, by rw [Os.segment, hmap]; rfl⟩
    · simp only [mmapNewArena_eq hmap]
      refine ⟨_, some index, rfl, ?_⟩
      rw [Os.segment, hmap]
      simp [Shm.segment, enterArena, Shm.setArena, Shm.setArenaAddr, clearArena]

end ShmMalloc

namespace ShmMalloc.System
open Library

section
variable {K : Keys} {fresh : Nat → Prop} {y : Sysv} {f : Fields} {n : Nat}

/-- Every run of the calls is one of the outcomes. -/
theorem newArenaSegment_sysv (hy : y.Names fresh) {path : String} {index size : Nat} (hindex : index ≠ 0) :
    (newArenaSegment path index size).Wp (sysv K fresh) (fun r s => s.fields = f ∧
      ∃ os : Os, (∀ m, os.shmid = some m → fresh m) ∧ os.segment y index = (s.sys, r)) (fun _ _ => False)
      ⟨y, f, n⟩ := by
  obtain ⟨m₀, hm₀⟩ := hy.spare
  rw [newArenaSegment, Script.wp_bind]
  refine shmGetKey_sysv (fun e => ?_) fun result key e hne => ?_
  · dsimp only
    rw [if_neg (not_not.mpr rfl), Script.wp_bind]
    refine shmMmap_sysv hy (fun err e => ?_) (fun m err e hm _ hnone => ?_) fun m addr e hm _ hsome => ?_
    · exact ⟨rfl, .shmgetFails, fun _ h₀ => absurd h₀ (by simp [Os.shmid]), rfl⟩
    · refine ⟨rfl, .created m, fun m' h₀ => Option.some.inj h₀ ▸ hm, ?_⟩
      rcases hmap : (y.shmget index m).1.mmap (y.shmget index m).2 with ⟨y', r⟩
      obtain rfl : r = none := by rw [← hnone, hmap]
      rw [Os.segment, hmap]
    · dsimp only
      rw [Script.wp_bind]
      rcases hmap : (y.shmget index m).1.mmap (y.shmget index m).2 with ⟨y', r⟩
      obtain rfl : r = some addr := by rw [← hsome, hmap]
      refine shmRemove_sysv (fun e => ?_) fun err e hne => ?_
      · have hother : y'.key 0 ≠ some (y.shmget index m).2 := fun h₀ => hindex ((hy.mmap_key hm hmap 0).mp h₀).symm
        refine ⟨if_neg hother, .created m, fun m' h₀ => Option.some.inj h₀ ▸ hm, ?_⟩
        rw [Os.segment, hmap, Sysv.rmid_eq_remove (hy.mmap_key hm hmap)]
      · rw [if_pos hne]
        refine ⟨rfl, .removeFails m, fun m' h₀ => Option.some.inj h₀ ▸ hm, ?_⟩
        rw [Os.segment, hmap]
  · dsimp only
    rw [if_pos hne]
    exact ⟨rfl, .keyFails, fun _ h₀ => absurd h₀ (by simp [Os.shmid]), rfl⟩

/-! ### What some run does -/

theorem shmGetKey_run (path : String) (index : Nat) :
    Script.Run (sysv K fresh) (shmGetKey path index) ⟨y, f, n⟩ (.ret (0, K.key index)) ⟨y, f, 0⟩ := by
  have hne : K.key index ≠ -1 := by
    have := K.pos index
    omega
  refine .head ⟨0, 0⟩ trivial (.head ⟨K.key index, 0⟩ (.inr rfl) ?_)
  show Script.Run _ (if K.key index = -1 then _ else _) _ _ _
  rw [if_neg hne]
  exact .refl _ _

theorem attach_run {shmid : Nat} {id : Int} (hne : shmid ≠ 0) (haddr : ∀ k l, y.shmat shmid k l ≠ some 0) :
    Script.Run (sysv K fresh) (call (.shmat shmid) >>= fun addr => if addr.value = 0 ∨ addr.value = -1 then
      errnoOr EPERM >>= fun errNo => pure (none, id, errNo) else pure (some addr.value, (shmid : Int), 0)) ⟨y, f, n⟩
      (.ret ((y.mmap shmid).2.elim (none, id, EPERM) fun addr => (some (addr : Int), (shmid : Int), 0)))
      ⟨(y.mmap shmid).1, f, 0⟩ := by
  have hanswer : ∀ v, (v = (y.mmap shmid).2.elim (-1 : Int) fun addr => addr) →
      Ipc.answers K fresh ⟨y, f, n⟩ (.shmat shmid) ⟨v, 0⟩ := fun v hv => by
    rw [y.mmap_addr hne] at hv
    exact hv
  cases hmap : (y.mmap shmid).2 with
  | none =>
    refine .head ⟨-1, 0⟩ (hanswer _ (by rw [hmap]; rfl)) ?_
    exact .head ⟨0, 0⟩ rfl (.refl _ _)
  | some addr =>
    have hpos : addr ≠ 0 := fun h₀ => haddr _ _ (by rw [← h₀, ← hmap, y.mmap_addr hne])
    refine .head ⟨addr, 0⟩ (hanswer _ (by rw [hmap]; rfl)) ?_
    show Script.Run _ (if (addr : Int) = 0 ∨ (addr : Int) = -1 then _ else _) _ _ _
    rw [if_neg (by omega)]
    exact .refl _ _

theorem shmMmap_run (hy : y.Names fresh) {index m size : Nat} (hm : fresh m) {y' : Sysv} {r : Option Nat}
    (hmap : (y.shmget index m).1.mmap (y.shmget index m).2 = (y', r)) :
    Script.Run (sysv K fresh) (shmMmap (K.key index) size true 0) ⟨y, f, n⟩
      (.ret (r.elim (none, 0, EPERM) fun addr => (some (addr : Int), ((y.shmget index m).2 : Int), 0))) ⟨y', f, 0⟩ := by
  have hpos : (0 : Int) < (y.shmget index m).2 := Int.natCast_pos.mpr (hy.shmget_pos index hm)
  obtain ⟨rfl, rfl⟩ := Prod.mk.inj hmap.symm
  rw [shmMmap, if_pos (K.pos index), if_pos rfl]
  refine .head ⟨(y.shmget index m).2, 0⟩ (.inr ⟨.inl rfl, m, hm, by rw [K.index_key]⟩) ?_
  show Script.Run _ (if ((y.shmget index m).2 : Int) ≤ 0 then _ else _)
    (⟨if (0 : Int) < (y.shmget index m).2 then (y.shmget (K.index (K.key index)) ((y.shmget index m).2 : Int).toNat).1
      else y, f, 0⟩ : Ipc) _ _
  rw [if_neg (Int.not_le.mpr hpos), if_pos hpos, K.index_key, Int.toNat_natCast, y.shmget_again]
  refine attach_run (Nat.ne_of_gt (hy.shmget_pos index hm)) fun k l => ?_
  rw [Sysv.shmget_shmat]
  exact hy.addr _ _ _

/-- Each outcome is that of a run. -/
theorem newArenaSegment_run (hy : y.Names fresh) (path : String) {index : Nat} (size : Nat) (hindex : index ≠ 0) {os : Os}
    (hos : ∀ m, os.shmid = some m → fresh m) : ∃ e, Script.Run (sysv K fresh) (newArenaSegment path index size) ⟨y, f, n⟩
      (.ret (os.segment y index).2) ⟨(os.segment y index).1, f, e⟩ := by
  rw [newArenaSegment]
  cases os with
  | keyFails => exact ⟨0, .head ⟨0, 0⟩ trivial (.head ⟨-1, 0⟩ (.inl rfl) (.head ⟨0, 0⟩ rfl (.refl _ _)))⟩
  | shmgetFails =>
    refine ⟨0, .bind (shmGetKey_run path index) ?_⟩
    dsimp only
    rw [if_neg (not_not.mpr rfl), shmMmap, if_pos (K.pos index)]
    refine .head ⟨-1, 0⟩ (.inl (by decide)) ?_
    exact .head ⟨0, 0⟩ rfl (.refl _ _)
  | removeFails m =>
    have hm : fresh m := hos m rfl
    refine ⟨0, .bind (shmGetKey_run path index) ?_⟩
    dsimp only
    rw [if_neg (not_not.mpr rfl)]
    rcases hmap : (y.shmget index m).1.mmap (y.shmget index m).2 with ⟨y', _ | addr⟩
    · rw [Os.segment, hmap]
      exact .bind (shmMmap_run hy hm hmap) (.refl _ _)
    · rw [Os.segment, hmap]
      refine .bind (shmMmap_run hy hm hmap) ?_
      refine .head ⟨-1, 0⟩ trivial ?_
      exact .head ⟨0, 0⟩ rfl (.refl _ _)
  | created m =>
    have hm : fresh m := hos m rfl
    refine ⟨0, .bind (shmGetKey_run path index) ?_⟩
    dsimp only
    rw [if_neg (not_not.mpr rfl)]
    rcases hmap : (y.shmget index m).1.mmap (y.shmget index m).2 with ⟨y', _ | addr⟩
    · rw [Os.segment, hmap]
      exact .bind (shmMmap_run hy hm hmap) (.refl _ _)
    · have hremove : y'.rmid (y.shmget index m).2 = y'.remove index :=
        Sysv.rmid_eq_remove (hy.mmap_key hm hmap)
      rw [Os.segment, hmap]
      dsimp only
      rw [← hremove]
      refine .bind (shmMmap_run hy hm hmap) ?_
      have hother : y'.key 0 ≠ some (y.shmget index m).2 := fun h₀ => hindex ((hy.mmap_key hm hmap 0).mp h₀).symm
      have hfields : Fields.after f y' ⟨0, 0⟩ (.rmid (y.shmget index m).2) = f := if_neg fun h₀ => hother h₀.2
      refine .head ⟨0, 0⟩ trivial ?_
      show Script.Run _ _ (⟨_, Fields.after f y' ⟨0, 0⟩ (.rmid (y.shmget index m).2), 0⟩ : Ipc) _ _
      rw [hfields]
      exact .refl _ _

/-- The system calls of `new_arena` do to the segments, and return, what the arena model says for one of the
outcomes that it is given; and each outcome is that of some run. -/
theorem newArena_calls {s : Shm} (hy : s.sys.Names fresh) (path : String) (type : ArenaType) {index size : Nat}
    (hsize : size % 2 ^ 20 = 0) (hindex : findEmptyArena s 127 1 = some index) (r : Option (Int × Int)) (y : Sysv) :
    (∃ e, Script.Run (sysv K fresh) (newArenaSegment path index size) ⟨s.sys, f, n⟩ (.ret r) ⟨y, f, e⟩) ↔
      ∃ os s' found, (∀ m, os.shmid = some m → fresh m) ∧ newArena s type size os = .ok (s', found) ∧
        s'.sys = y ∧ r = found.bind s'.segment := by
  have hne : index ≠ 0 := by
    have := (findEmptyArena_some hindex).1
    omega
  constructor
  · rintro ⟨e, hrun⟩
    obtain ⟨-, os, hos, hseg⟩ := (newArenaSegment_sysv hy hne).run hrun
    obtain ⟨s', found, hnew, hseg'⟩ := newArena_segment type os hsize hindex
    obtain ⟨hsys, hr⟩ := Prod.mk.inj (hseg'.symm.trans hseg)
    exact ⟨os, s', found, hos, hnew, hsys, hr.symm⟩
  · rintro ⟨os, s', found, hos, hnew, rfl, rfl⟩
    obtain ⟨s'', found', hnew', hseg⟩ := newArena_segment type os hsize hindex
    obtain ⟨rfl, rfl⟩ := Prod.mk.inj (Except.ok.inj (hnew'.symm.trans hnew))
    obtain ⟨e, hrun⟩ := newArenaSegment_run (n := n) (K := K) hy path size hne hos
    rw [hseg] at hrun
    exact ⟨e, hrun⟩

/-- Keys that say their index. -/
def indexKeys : Keys := ⟨fun i => i + 1, fun k => (k - 1).toNat, fun i => by omega, fun i => by omega⟩

/-- A context alone, on a system that gives every attach the same address. -/
def oneArena : Shm := {initShm 1 with sys := {(initShm 1).sys with shmat := fun _ _ _ => some 64}}

theorem newArena_calls_test : ∃ e y, Script.Run (sysv indexKeys (· = 9)) (newArenaSegment "shm" 1 (2 ^ 23))
    ⟨oneArena.sys, ⟨true, 1, 1, oneArena⟩, 0⟩ (.ret (some (9, 64))) ⟨y, ⟨true, 1, 1, oneArena⟩, e⟩ := by
  have hy : oneArena.sys.Names (· = 9) := {
    pos := fun m hm => hm ▸ by decide
    key_pos := fun i m hk => by cases hk
    key := fun m _ i hk => by cases hk
    own := fun i j m hi => by cases hi
    spare := ⟨9, rfl⟩
    addr := fun _ _ _ h₀ => by cases h₀
  }
  have hnew : newArena oneArena .chunk (2 ^ 23) (.created 9) =
      .ok (enterArena (mmapNewArena oneArena 1 9).1 .chunk (2 ^ 23) 1 9 64, some 1) := rfl
  obtain ⟨e, hrun⟩ := (newArena_calls (K := indexKeys) (f := ⟨true, 1, 1, oneArena⟩) (n := 0) hy "shm" .chunk
    (show 2 ^ 23 % 2 ^ 20 = 0 from rfl) (show findEmptyArena oneArena 127 1 = some 1 from rfl) (some (9, 64)) _).mpr
    ⟨.created 9, _, _, fun m hm => (Option.some.inj hm).symm, hnew, rfl, rfl⟩
  exact ⟨e, _, hrun⟩

end

end ShmMalloc.System
