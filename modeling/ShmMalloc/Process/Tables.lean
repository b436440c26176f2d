import Mathlib.Data.List.Nodup
import ShmMalloc.Process.Effect

/-! A process's table of arena addresses, beside the shared arenas.

An entry in use names an attach of the process, and an attach whose entry is dropped is
detached. Nothing ties an entry to the arena at its index: another process may have
deleted that arena, and created a new one there. It is the lookup that compares the
two. -/
namespace ShmMalloc

/-! ### Entries and attaches -/

/-- Every entry in use names an attach of its own. -/
structure Entries (t : Nat → ShmArenaAddr) (l : List Attach) : Prop where
  entry : ∀ i, t i = ⟨none, 0⟩ ∨ ∃ a ∈ l, t i = ⟨some a.addr, a.shmid⟩ ∧ a.shmid ≠ 0
  own : ∀ i j addr, (t i).addr = some addr → (t j).addr = some addr → i = j
  nodup : (l.map Attach.addr).Nodup

namespace Entries
variable {t : Nat → ShmArenaAddr} {l : List Attach}

theorem shmid_zero (h : Entries t l) {i : Nat} (ht : (t i).shmid = 0) : t i = ⟨none, 0⟩ := by
  rcases h.entry i with he | ⟨a, -, he, hne⟩
  · exact he
  · rw [he] at ht
    exact absurd ht hne

theorem shmid_pos (h : Entries t l) {i : Nat} (ht : (t i).shmid ≠ 0) :
    ∃ a ∈ l, t i = ⟨some a.addr, a.shmid⟩ := by
  rcases h.entry i with he | ⟨a, ha, he, -⟩
  · rw [he] at ht
    exact absurd rfl ht
  · exact ⟨a, ha, he⟩

theorem eq_of_addr (h : Entries t l) {a b : Attach} (ha : a ∈ l) (hb : b ∈ l)
    (he : a.addr = b.addr) : a = b := List.inj_on_of_nodup_map h.nodup ha hb he

theorem nil : Entries (fun _ => ⟨none, 0⟩) [] where
  entry _ := .inl rfl
  own i j addr h := by cases h
  nodup := .nil

/-- The attach of an entry goes with it. -/
theorem detach (h : Entries t l) {i addr : Nat} (hi : (t i).addr = some addr) :
    Entries (fun k => if k = i then ⟨none, 0⟩ else t k) (l.filter fun a => a.addr ≠ addr) where
  entry k := by
    by_cases hk : k = i
    · exact .inl (if_pos hk)
    · rw [if_neg hk]
      rcases h.entry k with he | ⟨a, ha, he, hne⟩
      · exact .inl he
      · refine .inr ⟨a, List.mem_filter.mpr ⟨ha, decide_eq_true fun hadr => ?_⟩, he, hne⟩
        exact hk (h.own k i addr (by rw [he, hadr]) hi)
  own j k b hj hk := by
    split at hj
    · cases hj
    split at hk
    · cases hk
    exact h.own j k b hj hk
  nodup := h.nodup.sublist (List.filter_sublist.map _)

/-- A new attach is entered, in the place of whatever was there. -/
theorem attach (h : Entries t l) {a : Attach} (i : Nat) (hm : a.shmid ≠ 0)
    (hfree : ∀ b ∈ l, b.addr ≠ a.addr) :
    Entries (fun k => if k = i then ⟨some a.addr, a.shmid⟩ else t k) (a :: l) where
  entry k := by
    by_cases hk : k = i
    · exact .inr ⟨a, .head _, if_pos hk, hm⟩
    · rw [if_neg hk]
      rcases h.entry k with he | ⟨b, hb, he, hne⟩
      · exact .inl he
      · exact .inr ⟨b, .tail _ hb, he, hne⟩
  own j k b hj hk := by
    have hold : ∀ k, (t k).addr ≠ some a.addr := fun k hk => by
      rcases h.entry k with he | ⟨c, hc, he, -⟩
      · rw [he] at hk
        cases hk
      · rw [he] at hk
        exact hfree c hc (Option.some.inj hk)
    by_cases hji : j = i <;> by_cases hki : k = i
    · rw [hji, hki]
    · rw [if_pos hji] at hj
      rw [if_neg hki] at hk
      exact absurd (hk.trans hj.symm) (hold k)
    · rw [if_neg hji] at hj
      rw [if_pos hki] at hk
      exact absurd (hj.trans hk.symm) (hold j)
    · rw [if_neg hji] at hj
      rw [if_neg hki] at hk
      exact h.own j k b hj hk
  nodup := List.nodup_cons.mpr ⟨fun hmem => by
    obtain ⟨b, hb, he⟩ := List.mem_map.mp hmem
    exact hfree b hb he, h.nodup⟩

/-- An attach that is not entered. -/
theorem leak (h : Entries t l) {a : Attach} (hfree : ∀ b ∈ l, b.addr ≠ a.addr) :
    Entries t (a :: l) where
  entry k := by
    rcases h.entry k with he | ⟨b, hb, he, hne⟩
    · exact .inl he
    · exact .inr ⟨b, .tail _ hb, he, hne⟩
  own := h.own
  nodup := List.nodup_cons.mpr ⟨fun hmem => by
    obtain ⟨b, hb, he⟩ := List.mem_map.mp hmem
    exact hfree b hb he, h.nodup⟩

end Entries

/-! ### What a lookup does -/

/-- An attach that succeeds. -/
def Sysv.attach (y : Sysv) (shmid addr : Nat) : Sysv :=
  {y with attached := ⟨addr, shmid, y.segment shmid⟩ :: y.attached, attaches := y.attaches + 1}

theorem Sysv.mmap_some {y y' : Sysv} {shmid addr : Nat} (h : y.mmap shmid = (y', some addr)) :
    shmid ≠ 0 ∧ y.shmat shmid y.attaches y.attached = some addr ∧ y' = y.attach shmid addr := by
  unfold Sysv.mmap at h
  split at h
  · cases h
  · next hne =>
    split at h
    · cases h
    · next a ha =>
      obtain ⟨rfl, hadr⟩ := Prod.mk.inj h
      obtain rfl := Option.some.inj hadr
      exact ⟨hne, ha, rfl⟩

theorem Sysv.mmap_none {y y' : Sysv} {shmid : Nat} (h : y.mmap shmid = (y', none)) :
    (shmid = 0 ∨ y.shmat shmid y.attaches y.attached = none) ∧ ∃ k, y' = {y with attaches := k} := by
  unfold Sysv.mmap at h
  split at h
  · next hzero => exact ⟨.inl hzero, y.attaches, (Prod.mk.inj h).1.symm⟩
  · split at h
    · next hnone => exact ⟨.inr hnone, y.attaches + 1, (Prod.mk.inj h).1.symm⟩
    · cases h

/-- The entry of an arena is cleared, and its attach goes. -/
def detachArena (s : Shm) (index : Nat) : Shm :=
  match (s.arenaAddrs index).addr with
  | none => s
  | some addr => {s with sys := s.sys.munmap addr}.setArenaAddr index ⟨none, 0⟩

/-- The segment of an arena is attached and entered. -/
def attachArena (s : Shm) (index addr : Nat) : Shm :=
  {s with sys := s.sys.attach (s.arenas index).shmid addr}.setArenaAddr index
    ⟨some addr, (s.arenas index).shmid⟩

theorem detachArena_cases {s : Shm} (h : Entries s.arenaAddrs s.sys.attached) (index : Nat) :
    s.arenaAddrs index = ⟨none, 0⟩ ∧ detachArena s index = s ∨
      ∃ a ∈ s.sys.attached, s.arenaAddrs index = ⟨some a.addr, a.shmid⟩ ∧ a.shmid ≠ 0 ∧
        detachArena s index = {s with sys := s.sys.munmap a.addr}.setArenaAddr index ⟨none, 0⟩ := by
  rcases h.entry index with he | ⟨a, ha, he, hne⟩
  · exact .inl ⟨he, by rw [detachArena, he]⟩
  · exact .inr ⟨a, ha, he, hne, by rw [detachArena, he]⟩

theorem dropArenaAddr_eq {s : Shm} (h : Entries s.arenaAddrs s.sys.attached) (index : Nat) :
    dropArenaAddr s index = .ok (detachArena s index) := by
  unfold dropArenaAddr
  rcases detachArena_cases h index with ⟨he, hd⟩ | ⟨a, -, he, hne, hd⟩
  · rw [he, hd]
    rfl
  · rw [he, hd]
    exact if_pos hne

@[simp] theorem detachArena_arenas (s : Shm) (index : Nat) : (detachArena s index).arenas = s.arenas := by
  unfold detachArena
  split <;> rfl

/-- The arena entries as the operations keep them. -/
structure ArenasOk (arenas : Nat → ShmArena) : Prop where
  empty : ∀ i, (arenas i).type = .empty ↔ (arenas i).shmid = 0
  bound : ∀ i, 128 ≤ i → (arenas i).type = .empty
  context : ∀ i, (arenas i).type = .context ↔ i = 0
  index : ∀ i, (arenas i).type ≠ .empty → (arenas i).index = i

/-- The arenas and the keys, whatever is in the tables. -/
structure SegmentsOk (s : Shm) : Prop where
  arenas : ArenasOk s.arenas
  key : ∀ i shmid, s.sys.key i = some shmid → shmid ≠ 0

/-- The state in which a process looks up an arena. -/
structure TableOk (s : Shm) : Prop extends SegmentsOk s where
  entries : Entries s.arenaAddrs s.sys.attached
  context : (s.arenaAddrs 0).shmid = (s.arenas 0).shmid
  fresh : FreshAddrs s.sys.shmat
  /-- A segment that has to be attached is. -/
  served : ∀ i, (s.arenas i).shmid ≠ 0 → (s.arenaAddrs i).shmid ≠ (s.arenas i).shmid →
    ∀ k l, (s.sys.shmat (s.arenas i).shmid k l).isSome

/-- What `get_or_update_arena_addr` does to an entry. -/
inductive Lookup (s : Shm) (index : Nat) : Shm → Option Nat → Prop where
  | current (h : (s.arenaAddrs index).shmid = (s.arenas index).shmid) :
    Lookup s index s (s.arenaAddrs index).addr
  | gone (h : (s.arenaAddrs index).shmid ≠ (s.arenas index).shmid) (he : (s.arenas index).shmid = 0) :
    Lookup s index (detachArena s index) none
  | attached {addr : Nat} (h : (s.arenaAddrs index).shmid ≠ (s.arenas index).shmid)
    (he : (s.arenas index).shmid ≠ 0) (ht : (s.arenas index).type ≠ .context) (hi : index < 128)
    (hf : ∀ a ∈ (detachArena s index).sys.attached, a.addr ≠ addr) :
    Lookup s index (attachArena (detachArena s index) index addr) (some addr)

theorem Entries.detachArena {s : Shm} (h : Entries s.arenaAddrs s.sys.attached) (index : Nat) :
    Entries (detachArena s index).arenaAddrs (detachArena s index).sys.attached := by
  rcases detachArena_cases h index with ⟨-, hd⟩ | ⟨a, -, he, -, hd⟩
  · rwa [hd]
  · rw [hd]
    exact h.detach (by rw [he])

theorem detachArena_entry {s : Shm} (h : Entries s.arenaAddrs s.sys.attached) (index : Nat) :
    (detachArena s index).arenaAddrs =
      fun i => if i = index then ⟨none, 0⟩ else s.arenaAddrs i := by
  rcases detachArena_cases h index with ⟨he, hd⟩ | ⟨a, -, -, -, hd⟩
  · rw [hd]
    funext i
    split
    · next hi => rw [hi, he]
    · rfl
  · rw [hd]
    rfl

theorem detachArena_at {s : Shm} (h : Entries s.arenaAddrs s.sys.attached) (index i : Nat) :
    (detachArena s index).arenaAddrs i = if i = index then ⟨none, 0⟩ else s.arenaAddrs i := by
  rw [detachArena_entry h]

theorem detachArena_attached {s : Shm} {index : Nat} {a : Attach}
    (h : a ∈ (detachArena s index).sys.attached) : a ∈ s.sys.attached := by
  unfold ShmMalloc.detachArena at h
  split at h
  · exact h
  · exact (List.mem_filter.mp h).1

theorem detachArena_shmat (s : Shm) (index : Nat) : (detachArena s index).sys.shmat = s.sys.shmat := by
  unfold ShmMalloc.detachArena
  split <;> rfl

@[simp] theorem detachArena_key (s : Shm) (index : Nat) : (detachArena s index).sys.key = s.sys.key := by
  unfold ShmMalloc.detachArena
  split <;> rfl

@[simp] theorem detachArena_segment (s : Shm) (index : Nat) :
    (detachArena s index).sys.segment = s.sys.segment := by
  unfold ShmMalloc.detachArena
  split <;> rfl

theorem mmapArena_ok {s s' : Shm} {index : Nat} {r : Option Nat} (h : mmapArena s index = .ok (s', r)) :
    (s.arenas index).type ≠ .context ∧ ∃ y, s.sys.mmap (s.arenas index).shmid = (y, r) ∧
      s' = {s with sys := y} := by
  obtain ⟨u, hreq, h⟩ := Exec.bind_ok h
  have htype := require_ok hreq
  rw [Bool.and_eq_true, decide_eq_true_iff, decide_eq_true_iff] at htype
  rcases hm : s.sys.mmap (s.arenas index).shmid with ⟨y, o⟩
  rw [hm] at h
  obtain ⟨rfl, rfl⟩ := Prod.mk.inj (Except.ok.inj h)
  exact ⟨htype.2, y, rfl, rfl⟩

theorem Sysv.mmap_fields (y : Sysv) (shmid : Nat) : ∃ l k, (y.mmap shmid).1 = {y with attached := l, attaches := k} := by
  rcases h : y.mmap shmid with ⟨y', _ | addr⟩
  · obtain ⟨-, k, rfl⟩ := mmap_none h
    exact ⟨y.attached, k, rfl⟩
  · obtain ⟨-, -, rfl⟩ := mmap_some h
    exact ⟨_, _, rfl⟩

theorem mmapArena_fields {s s' : Shm} {index : Nat} {r : Option Nat} (h : mmapArena s index = .ok (s', r)) :
    (∃ l k, s'.sys = {s.sys with attached := l, attaches := k}) ∧ s'.arenaAddrs = s.arenaAddrs := by
  obtain ⟨-, y, hy, rfl⟩ := mmapArena_ok h
  obtain ⟨l, k, hfields⟩ := s.sys.mmap_fields (s.arenas index).shmid
  refine ⟨⟨l, k, ?_⟩, rfl⟩
  rw [← hfields, hy]

theorem dropArenaAddr_fields {s s' : Shm} {index : Nat} (h : dropArenaAddr s index = .ok s') :
    (∃ l k, s'.sys = {s.sys with attached := l, attaches := k}) ∧ ∀ j ≠ index, s'.arenaAddrs j = s.arenaAddrs j := by
  unfold dropArenaAddr at h
  split at h
  · split at h
    · cases h
    · obtain rfl := Except.ok.inj h
      exact ⟨⟨_, _, rfl⟩, fun j hj => if_neg hj⟩
  · obtain rfl := Except.ok.inj h
    exact ⟨⟨_, _, rfl⟩, fun _ _ => rfl⟩

/-- A lookup changes what the process has attached, and its entry. -/
theorem getOrUpdateArenaAddr_fields {s s' : Shm} {index : Nat} {r : Option Nat}
    (h : getOrUpdateArenaAddr s index = .ok (s', r)) :
    (∃ l k, s'.sys = {s.sys with attached := l, attaches := k}) ∧ ∀ j ≠ index, s'.arenaAddrs j = s.arenaAddrs j := by
  unfold getOrUpdateArenaAddr at h
  split at h
  · obtain ⟨s₁, hdrop, h⟩ := Exec.bind_ok h
    obtain ⟨⟨l, k, hsys⟩, haddrs⟩ := dropArenaAddr_fields hdrop
    split at h
    · obtain ⟨⟨s₂, addr⟩, hmap, h⟩ := Exec.bind_ok h
      obtain ⟨⟨l', k', hsys'⟩, haddrs'⟩ := mmapArena_fields hmap
      obtain ⟨rfl, rfl⟩ := Prod.mk.inj (Except.ok.inj h)
      refine ⟨⟨l', k', ?_⟩, fun j hj => (if_neg hj).trans ?_⟩
      · show s₂.sys = _
        rw [hsys', hsys]
      · rw [haddrs', haddrs j hj]
    · obtain ⟨rfl, rfl⟩ := Prod.mk.inj (Except.ok.inj h)
      exact ⟨⟨l, k, hsys⟩, haddrs⟩
  · obtain ⟨rfl, rfl⟩ := Prod.mk.inj (Except.ok.inj h)
    exact ⟨⟨_, _, rfl⟩, fun _ _ => rfl⟩

theorem getOrUpdateArenaAddr_key {s s' : Shm} {index : Nat} {r : Option Nat}
    (h : getOrUpdateArenaAddr s index = .ok (s', r)) : s'.sys.key = s.sys.key := by
  obtain ⟨⟨l, k, hsys⟩, -⟩ := getOrUpdateArenaAddr_fields h
  rw [hsys]

theorem Calm.key {s s' : Shm} (h : Calm s s') : s'.sys.key = s.sys.key := by
  induction h with
  | refl => rfl
  | quiet _ q ih => rw [q.sys, ih]
  | look _ e ih => rw [getOrUpdateArenaAddr_key e, ih]

theorem deleteArena_key {s s' : Shm} {index : Nat} (h : deleteArena s index = .ok s') : s'.sys.key = s.sys.key := by
  unfold deleteArena at h
  split at h
  · cases h
  · obtain rfl := Except.ok.inj h
    rfl

theorem mmapArena_granted {s : Shm} {index addr : Nat} (hne : (s.arenas index).type ≠ .empty)
    (hc : (s.arenas index).type ≠ .context) (hm : (s.arenas index).shmid ≠ 0)
    (ha : s.sys.shmat (s.arenas index).shmid s.sys.attaches s.sys.attached = some addr) :
    mmapArena s index = .ok ({s with sys := s.sys.attach (s.arenas index).shmid addr}, some addr) := by
  unfold mmapArena Sysv.mmap
  dsimp only
  rw [decide_eq_true hne, decide_eq_true hc, if_neg hm, ha]
  rfl

theorem lookup_cases {s s' : Shm} {index : Nat} {r : Option Nat} (h : TableOk s)
    (hrun : getOrUpdateArenaAddr s index = .ok (s', r)) : Lookup s index s' r := by
  unfold getOrUpdateArenaAddr at hrun
  by_cases hsame : (s.arenaAddrs index).shmid = (s.arenas index).shmid
  · rw [if_neg (not_not.mpr hsame)] at hrun
    obtain ⟨rfl, rfl⟩ := Prod.mk.inj (Except.ok.inj hrun)
    exact .current hsame
  rw [if_pos hsame, dropArenaAddr_eq h.entries, Exec.ok_bind] at hrun
  split at hrun
  · next hvalid =>
    obtain ⟨hlt, hne⟩ : index < 128 ∧ (s.arenas index).type ≠ .empty := by
      simpa [isArenaValid] using hvalid
    have hpos : (s.arenas index).shmid ≠ 0 := fun hz => hne ((h.arenas.empty index).mpr hz)
    obtain ⟨⟨s₁, o⟩, hrun₁, hrun⟩ := Exec.bind_ok hrun
    obtain ⟨rfl, rfl⟩ := Prod.mk.inj (Except.ok.inj hrun)
    obtain ⟨htype, y, hmap, rfl⟩ := mmapArena_ok hrun₁
    rw [detachArena_arenas] at htype hmap
    have hserved := h.served index hpos hsame
    rw [← detachArena_shmat s index] at hserved
    cases o with
    | none =>
      obtain ⟨hz | hz, -⟩ := Sysv.mmap_none hmap
      · exact absurd hz hpos
      · have := hserved (detachArena s index).sys.attaches (detachArena s index).sys.attached
        rw [hz] at this
        cases this
    | some addr =>
      obtain ⟨-, hat, rfl⟩ := Sysv.mmap_some hmap
      rw [detachArena_shmat] at hat
      have hattach := Lookup.attached hsame hpos htype hlt (h.fresh _ _ _ _ hat)
      simpa only [attachArena, detachArena_arenas] using hattach
  · next hvalid =>
    obtain ⟨rfl, rfl⟩ := Prod.mk.inj (Except.ok.inj hrun)
    have haddr : ((detachArena s index).arenaAddrs index).addr = none := by
      rw [detachArena_entry h.entries]
      simp only [if_true]
    rw [haddr]
    refine .gone hsame ((h.arenas.empty index).mp ?_)
    by_cases hlt : index < 128
    · simpa [isArenaValid, hlt] using hvalid
    · exact h.arenas.bound index (by omega)

/-- Every lookup completes, with an address for an arena in use. -/
theorem TableOk.lookup_total {s : Shm} (h : TableOk s) (index : Nat) :
    ∃ s' r, getOrUpdateArenaAddr s index = .ok (s', r) ∧
      (r.isSome ↔ (s.arenas index).type ≠ .empty) := by
  unfold getOrUpdateArenaAddr
  by_cases hsame : (s.arenaAddrs index).shmid = (s.arenas index).shmid
  · rw [if_neg (not_not.mpr hsame)]
    refine ⟨_, _, rfl, ?_⟩
    rw [Ne, h.arenas.empty, ← hsame]
    rcases h.entries.entry index with he | ⟨a, -, he, hne⟩ <;> rw [he]
    · simp
    · simpa using hne
  rw [if_pos hsame, dropArenaAddr_eq h.entries, Exec.ok_bind]
  by_cases hvalid : isArenaValid (detachArena s index) index = true
  · obtain ⟨hlt, hne⟩ : index < 128 ∧ (s.arenas index).type ≠ .empty := by
      simpa [isArenaValid] using hvalid
    have hpos : (s.arenas index).shmid ≠ 0 := fun hz => hne ((h.arenas.empty index).mpr hz)
    have htype : (s.arenas index).type ≠ .context := fun hc => by
      rw [(h.arenas.context index).mp hc] at hsame
      exact hsame h.context
    obtain ⟨addr, haddr⟩ := Option.isSome_iff_exists.mp (h.served index hpos hsame
      (detachArena s index).sys.attaches (detachArena s index).sys.attached)
    have harena := congrFun (detachArena_arenas s index) index
    have hmap := mmapArena_granted (s := detachArena s index) (harena ▸ hne) (harena ▸ htype)
      (harena ▸ hpos) (by rw [harena, detachArena_shmat]; exact haddr)
    rw [if_pos hvalid, hmap, Exec.ok_bind]
    exact ⟨_, _, rfl, iff_of_true rfl hne⟩
  · rw [if_neg hvalid]
    refine ⟨_, _, rfl, ?_⟩
    rw [detachArena_at h.entries, if_pos rfl]
    refine iff_of_false (by simp) fun hne => hvalid ?_
    have hlt : index < 128 := by
      by_contra hge
      exact hne (h.arenas.bound index (by omega))
    simpa [isArenaValid] using ⟨hlt, hne⟩

/-! ### What the operations keep -/

theorem ArenasOk.of_quiet {s s' : Shm} (h : ArenasOk s.arenas) (q : Quiet s s') :
    ArenasOk s'.arenas where
  empty i := by rw [q.type, q.shmid, h.empty]
  bound i hi := by rw [q.type, h.bound i hi]
  context i := by rw [q.type, h.context]
  index i hi := by
    rw [q.type] at hi
    rw [q.index, h.index i hi]

theorem ArenasOk.zero {arenas : Nat → ShmArena} (h : ArenasOk arenas) {index : Nat} (hi : index ≠ 0) :
    ArenasOk fun i => if i = index then .zero else arenas i where
  empty i := by
    split
    · exact iff_of_true rfl rfl
    · exact h.empty i
  bound i hlt := by
    split
    · rfl
    · exact h.bound i hlt
  context i := by
    split
    · next he => exact iff_of_false (by decide) (he ▸ hi)
    · exact h.context i
  index i hne := by
    split at hne
    · exact absurd rfl hne
    · next he =>
      rw [if_neg he]
      exact h.index i hne

theorem ArenasOk.enter {arenas : Nat → ShmArena} (h : ArenasOk arenas) {index : Nat} {a : ShmArena}
    (hi : index ≠ 0) (hlt : index < 128) (ht : a.type = .chunk ∨ a.type = .large) (hm : a.shmid ≠ 0)
    (ha : a.index = index) : ArenasOk fun i => if i = index then a else arenas i where
  empty i := by
    split
    · refine iff_of_false (fun he => ?_) hm
      rw [he] at ht
      simp at ht
    · exact h.empty i
  bound i hge := by
    rw [if_neg (by omega)]
    exact h.bound i hge
  context i := by
    split
    · next he =>
      refine iff_of_false (fun hc => ?_) (he ▸ hi)
      rw [hc] at ht
      simp at ht
    · exact h.context i
  index i hne := by
    split at hne
    · next he => rw [if_pos he, ha, he]
    · next he =>
      rw [if_neg he]
      exact h.index i hne

theorem Sysv.shmget_cases (y : Sysv) (index shmid : Nat) :
    (∃ m, y.key index = some m ∧ y.shmget index shmid = (y, m)) ∨
      y.key index = none ∧ y.shmget index shmid =
        ({y with
          segment := Function.update y.segment shmid y.created
          created := y.created + 1
          key := Function.update y.key index (some shmid)}, shmid) := by
  unfold Sysv.shmget
  cases hk : y.key index with
  | some m => exact .inl ⟨m, rfl, rfl⟩
  | none => exact .inr ⟨rfl, rfl⟩

@[simp] theorem Sysv.shmget_attached (y : Sysv) (index shmid : Nat) :
    (y.shmget index shmid).1.attached = y.attached := by
  obtain ⟨m, -, h⟩ | ⟨-, h⟩ := y.shmget_cases index shmid <;> rw [h]

@[simp] theorem Sysv.shmget_shmat (y : Sysv) (index shmid : Nat) :
    (y.shmget index shmid).1.shmat = y.shmat := by
  obtain ⟨m, -, h⟩ | ⟨-, h⟩ := y.shmget_cases index shmid <;> rw [h]

theorem Sysv.shmget_key {y : Sysv} {index shmid i m : Nat}
    (h : (y.shmget index shmid).1.key i = some m) :
    y.key i = some m ∨ i = index ∧ m = shmid ∧ y.key index = none := by
  obtain ⟨m', -, hs⟩ | ⟨hnone, hs⟩ := y.shmget_cases index shmid
  · rw [hs] at h
    exact .inl h
  · rw [hs] at h
    replace h : Function.update y.key index (some shmid) i = some m := h
    by_cases hi : i = index
    · rw [hi, Function.update_self] at h
      exact .inr ⟨hi, (Option.some.inj h).symm, hnone⟩
    · rw [Function.update_of_ne hi] at h
      exact .inl h

/-- The state of `new_arena` with its segment attached. -/
def attachNew (s : Shm) (index shmid addr : Nat) : Shm :=
  {s with sys := (s.sys.shmget index shmid).1.attach (s.sys.shmget index shmid).2 addr}

section
variable (s : Shm) (type : ArenaType) (size index shmid addr : Nat)

@[simp] theorem attachNew_arenas : (attachNew s index shmid addr).arenas = s.arenas := rfl

@[simp] theorem attachNew_arenaAddrs : (attachNew s index shmid addr).arenaAddrs = s.arenaAddrs := rfl

@[simp] theorem attachNew_attached : (attachNew s index shmid addr).sys.attached =
    ⟨addr, (s.sys.shmget index shmid).2, (s.sys.shmget index shmid).1.segment
      (s.sys.shmget index shmid).2⟩ :: s.sys.attached := by
  rw [← Sysv.shmget_attached s.sys index shmid]
  rfl

@[simp] theorem attachNew_shmat : (attachNew s index shmid addr).sys.shmat = s.sys.shmat :=
  Sysv.shmget_shmat s.sys index shmid

@[simp] theorem attachNew_key :
    (attachNew s index shmid addr).sys.key = (s.sys.shmget index shmid).1.key := rfl

@[simp] theorem attachNew_segment :
    (attachNew s index shmid addr).sys.segment = (s.sys.shmget index shmid).1.segment := rfl

theorem enterArena_arenaAddrs (i : Nat) : (enterArena s type size index shmid addr).arenaAddrs i =
    if i = index then ⟨some addr, shmid⟩ else s.arenaAddrs i := rfl

@[simp] theorem enterArena_attached :
    (enterArena s type size index shmid addr).sys.attached = s.sys.attached := rfl

@[simp] theorem enterArena_shmat : (enterArena s type size index shmid addr).sys.shmat = s.sys.shmat := rfl

@[simp] theorem enterArena_segment :
    (enterArena s type size index shmid addr).sys.segment = s.sys.segment := rfl

theorem enterArena_key {i m : Nat}
    (h : (enterArena s type size index shmid addr).sys.key i = some m) : s.sys.key i = some m ∧ i ≠ index := by
  replace h : Function.update s.sys.key index none i = some m := h
  by_cases hi : i = index
  · rw [hi, Function.update_self] at h
    cases h
  · rw [Function.update_of_ne hi] at h
    exact ⟨h, hi⟩

end

/-- What `new_arena` does to the arenas, to the table and to the system. -/
inductive NewArena (os : Os) (s : Shm) : Shm → Prop where
  | refused : NewArena os s s
  | segment {index shmid : Nat} (k : Nat) (hos : os.shmid = some shmid)
    (hf : findEmptyArena s 127 1 = some index) :
    NewArena os s {s with sys := {(s.sys.shmget index shmid).1 with attaches := k}}
  | leaked {index shmid addr : Nat} (hos : os = .removeFails shmid)
    (hf : findEmptyArena s 127 1 = some index)
    (ha : ∃ k, s.sys.shmat (s.sys.shmget index shmid).2 k s.sys.attached = some addr) :
    NewArena os s (attachNew s index shmid addr)
  | entered {index shmid addr size : Nat} {type : ArenaType} (hos : os = .created shmid)
    (ht : type = .chunk ∨ type = .large) (hf : findEmptyArena s 127 1 = some index)
    (hm : (s.sys.shmget index shmid).2 ≠ 0)
    (ha : ∃ k, s.sys.shmat (s.sys.shmget index shmid).2 k s.sys.attached = some addr) :
    NewArena os s (enterArena (attachNew s index shmid addr) type size index
      (s.sys.shmget index shmid).2 addr)

theorem mmapNewArena_cases (s : Shm) (index shmid : Nat) :
    ((mmapNewArena s index shmid).2.2 = none ∧ ∃ k, (mmapNewArena s index shmid).1 =
      {s with sys := {(s.sys.shmget index shmid).1 with attaches := k}}) ∨
    ∃ addr, (mmapNewArena s index shmid).2.2 = some addr ∧ (s.sys.shmget index shmid).2 ≠ 0 ∧
      (∃ k, s.sys.shmat (s.sys.shmget index shmid).2 k s.sys.attached = some addr) ∧
      (mmapNewArena s index shmid).1 = attachNew s index shmid addr := by
  have hsys : (mmapNewArena s index shmid).1 =
      {s with sys := ((s.sys.shmget index shmid).1.mmap (s.sys.shmget index shmid).2).1} := rfl
  have haddr : (mmapNewArena s index shmid).2.2 =
      ((s.sys.shmget index shmid).1.mmap (s.sys.shmget index shmid).2).2 := rfl
  rw [hsys, haddr]
  rcases hm : (s.sys.shmget index shmid).1.mmap (s.sys.shmget index shmid).2 with ⟨y, _ | addr⟩
  · obtain ⟨-, k, rfl⟩ := Sysv.mmap_none hm
    exact .inl ⟨rfl, k, rfl⟩
  · obtain ⟨hne, hat, rfl⟩ := Sysv.mmap_some hm
    rw [Sysv.shmget_shmat, Sysv.shmget_attached] at hat
    exact .inr ⟨addr, rfl, hne, ⟨_, hat⟩, rfl⟩

theorem Creates.newArena {os : Os} {s s' : Shm} (h : Creates os s s') : NewArena os s s' := by
  obtain ⟨type, size, r, ht, h⟩ := h
  obtain ⟨-, ⟨-, rfl, -⟩ | ⟨index, hf, hcase⟩⟩ := newArena_cases h
  · exact .refused
  rcases hcase with ⟨-, rfl, -⟩ | ⟨shmid, hos, rfl, -⟩ | ⟨shmid, hos, hnone, rfl, -⟩ |
    ⟨shmid, addr, hos, hsome, rfl, -⟩
  · exact .refused
  · obtain ⟨-, k, hs⟩ | ⟨addr, -, -, ha, hs⟩ := mmapNewArena_cases s index shmid
    · rw [hs]
      exact .segment k (by rw [hos]; rfl) hf
    · rw [hs]
      exact .leaked hos hf ha
  · obtain ⟨-, k, hs⟩ | ⟨addr, hsome, -⟩ := mmapNewArena_cases s index shmid
    · rw [hs]
      exact .segment k (by rw [hos]; rfl) hf
    · rw [hnone] at hsome
      cases hsome
  · obtain ⟨hnone, -⟩ | ⟨addr', hsome', hm, ha, hs⟩ := mmapNewArena_cases s index shmid
    · rw [hnone] at hsome
      cases hsome
    · obtain rfl := Option.some.inj (hsome'.symm.trans hsome)
      rw [hs]
      exact .entered hos ht hf hm ha

/-- An arena in use stays as it is. -/
theorem NewArena.arena {os : Os} {s s' : Shm} (hn : NewArena os s s') {i : Nat}
    (hi : (s.arenas i).type ≠ .empty) : s'.arenas i = s.arenas i := by
  cases hn with
  | refused => rfl
  | segment => rfl
  | leaked => rfl
  | entered _ _ hf =>
    rw [enterArena_arenas]
    refine if_neg ?_
    rintro rfl
    exact hi (findEmptyArena_some hf).2.2

theorem Calm.shmid {s s' : Shm} (h : Calm s s') (i : Nat) :
    (s'.arenas i).shmid = (s.arenas i).shmid := by
  induction h with
  | refl => rfl
  | quiet _ q ih => exact (q.shmid i).trans ih
  | look _ e ih => rw [getOrUpdateArenaAddr_arenas e, ih]

theorem Passes.arena {os : Os} {s s' : Shm} (hp : Passes os s s') {i : Nat}
    (hi : (s.arenas i).type ≠ .empty) :
    (s'.arenas i).type = (s.arenas i).type ∧ (s'.arenas i).shmid = (s.arenas i).shmid := by
  obtain ⟨s₁, s₂, hc, hn, hc'⟩ := hp
  have hi₁ : (s₁.arenas i).type ≠ .empty := by rwa [hc.type]
  have h₂ : s₂.arenas i = s₁.arenas i := by
    rcases hn with rfl | hn
    · rfl
    · exact hn.newArena.arena hi₁
  rw [hc'.type, hc'.shmid, h₂, hc.type, hc.shmid]
  exact ⟨rfl, rfl⟩

namespace SegmentsOk
variable {s s' : Shm} {os : Os}

theorem calm (h : SegmentsOk s) (hc : Calm s s') : SegmentsOk s' where
  arenas := by
    induction hc with
    | refl => exact h.arenas
    | quiet _ q ih => exact ih.of_quiet q
    | look _ e ih => rwa [getOrUpdateArenaAddr_arenas e]
  key := by
    rw [hc.key]
    exact h.key

theorem shmget_key (h : SegmentsOk s) {index shmid : Nat} (hm : shmid ≠ 0) {i m : Nat}
    (hk : (s.sys.shmget index shmid).1.key i = some m) : m ≠ 0 := by
  rcases Sysv.shmget_key hk with hk | ⟨-, rfl, -⟩
  · exact h.key i m hk
  · exact hm

theorem newArena (h : SegmentsOk s) (hos : ∀ shmid, os.shmid = some shmid → shmid ≠ 0) (hn : NewArena os s s') :
    SegmentsOk s' := by
  cases hn with
  | refused => exact h
  | segment k hshmid => exact ⟨h.arenas, fun i m => h.shmget_key (hos _ hshmid)⟩
  | leaked hshmid => exact ⟨h.arenas, fun i m => h.shmget_key (hos _ (by rw [hshmid]; rfl))⟩
  | entered hshmid ht hf hm =>
    obtain ⟨hge, hlt, -⟩ := findEmptyArena_some hf
    refine ⟨h.arenas.enter (by omega) (by omega) ht hm rfl, fun i m hk => ?_⟩
    exact h.shmget_key (hos _ (by rw [hshmid]; rfl)) (enterArena_key _ _ _ _ _ _ hk).1

theorem passes (h : SegmentsOk s) (hos : ∀ shmid, os.shmid = some shmid → shmid ≠ 0) (hp : Passes os s s') :
    SegmentsOk s' := by
  obtain ⟨s₁, s₂, hc, hn, hc'⟩ := hp
  refine calm ?_ hc'
  rcases hn with rfl | hn
  · exact h.calm hc
  · exact (h.calm hc).newArena hos hn.newArena

/-- An arena is deleted through the process's entry for it. -/
theorem deletes (h : SegmentsOk s) (hd : Deletes s s') : ∃ index, index ≠ 0 ∧ index < 128 ∧
    (s.arenaAddrs index).addr ≠ none ∧ s' = detachArena (s.zeroArena index) index := by
  obtain ⟨index, hlt, hne, hc, hd⟩ := hd
  rw [h.arenas.index index hne, or_self] at hd
  refine ⟨index, fun hz => hc ((h.arenas.context index).mpr hz), hlt, ?_⟩
  unfold deleteArena at hd
  unfold ShmMalloc.detachArena
  split at hd
  · cases hd
  · next addr ha =>
    obtain rfl := Except.ok.inj hd
    refine ⟨by rw [ha]; simp, ?_⟩
    have ha' : ((s.zeroArena index).arenaAddrs index).addr = some addr := ha
    rw [ha']
    rfl

theorem delete (h : SegmentsOk s) (hd : Deletes s s') : SegmentsOk s' := by
  obtain ⟨index, hi, -, -, rfl⟩ := h.deletes hd
  refine ⟨?_, fun i m hk => ?_⟩
  · rw [detachArena_arenas]
    exact h.arenas.zero hi
  · rw [detachArena_key] at hk
    exact h.key i m hk

theorem effect (h : SegmentsOk s) (hos : ∀ shmid, os.shmid = some shmid → shmid ≠ 0) (he : Effect os s s') :
    SegmentsOk s' := by
  obtain ⟨u, hp, rfl | hd⟩ := he
  · exact h.passes hos hp
  · exact (h.passes hos hp).delete hd

/-- The context stays. -/
theorem effect_context (h : SegmentsOk s) (hos : ∀ shmid, os.shmid = some shmid → shmid ≠ 0)
    (he : Effect os s s') : (s'.arenas 0).shmid = (s.arenas 0).shmid := by
  obtain ⟨u, hp, hu⟩ := he
  have hne : (s.arenas 0).type ≠ .empty := by
    rw [(h.arenas.context 0).mpr rfl]
    decide
  rw [← (hp.arena hne).2]
  rcases hu with rfl | hd
  · rfl
  · obtain ⟨index, hi, -, -, rfl⟩ := (h.passes hos hp).deletes hd
    rw [detachArena_arenas]
    exact congrArg ShmArena.shmid (if_neg (Ne.symm hi))

end SegmentsOk

namespace TableOk
variable {s s' : Shm}

theorem quiet (h : TableOk s) (q : Quiet s s') : TableOk s' where
  toSegmentsOk := h.toSegmentsOk.calm q.calm
  entries := by rw [q.arenaAddrs, q.sys]; exact h.entries
  context := by rw [q.arenaAddrs, q.shmid, h.context]
  fresh := by rw [q.sys]; exact h.fresh
  served i := by
    rw [q.arenaAddrs, q.sys, q.shmid]
    exact h.served i

theorem detach (h : TableOk s) {index : Nat} (hi : index ≠ 0)
    (hserved : (s.arenas index).shmid ≠ 0 → ∀ k l, (s.sys.shmat (s.arenas index).shmid k l).isSome) :
    TableOk (detachArena s index) where
  arenas := by rw [detachArena_arenas]; exact h.arenas
  entries := h.entries.detachArena index
  context := by
    rw [detachArena_entry h.entries, detachArena_arenas]
    simp only [if_neg (Ne.symm hi)]
    exact h.context
  key := by
    unfold ShmMalloc.detachArena
    split <;> exact h.key
  fresh := by rw [detachArena_shmat]; exact h.fresh
  served i hne hdiff := by
    rw [detachArena_arenas] at hne hdiff ⊢
    rw [detachArena_entry h.entries] at hdiff
    rw [detachArena_shmat]
    by_cases he : i = index
    · rw [he] at hne ⊢
      exact hserved hne
    · simp only [if_neg he] at hdiff
      exact h.served i hne hdiff

theorem attach (h : TableOk s) {index addr : Nat} (hi : index ≠ 0) (hm : (s.arenas index).shmid ≠ 0)
    (hf : ∀ a ∈ s.sys.attached, a.addr ≠ addr) : TableOk (attachArena s index addr) where
  arenas := h.arenas
  entries := h.entries.attach (a := ⟨addr, (s.arenas index).shmid, _⟩) index hm hf
  context := by
    show (if 0 = index then _ else s.arenaAddrs 0).shmid = _
    rw [if_neg (Ne.symm hi)]
    exact h.context
  key := h.key
  fresh := h.fresh
  served i hne hdiff := by
    refine h.served i hne fun heq => hdiff ?_
    show (if i = index then _ else s.arenaAddrs i).shmid = _
    split
    · next he => rw [he]; rfl
    · exact heq

theorem look (h : TableOk s) {index : Nat} {r : Option Nat}
    (hrun : getOrUpdateArenaAddr s index = .ok (s', r)) : TableOk s' := by
  have hzero : ∀ {i}, (s.arenaAddrs i).shmid ≠ (s.arenas i).shmid → i ≠ 0 := by
    rintro i hne rfl
    exact hne h.context
  cases lookup_cases h hrun with
  | current => exact h
  | gone hne he => exact h.detach (hzero hne) fun hpos => absurd he hpos
  | attached hne he _ _ hf =>
    refine (h.detach (hzero hne) fun hpos => h.served index hpos hne).attach (hzero hne) ?_ hf
    rwa [detachArena_arenas]

theorem calm (h : TableOk s) (hc : Calm s s') : TableOk s' := by
  induction hc with
  | refl => exact h
  | quiet _ q ih => exact ih.quiet q
  | look _ e ih => exact ih.look e

theorem newArena (h : TableOk s) {os : Os} (hos : ∀ shmid, os.shmid = some shmid → shmid ≠ 0)
    (hn : NewArena os s s') : TableOk s' := by
  cases hn with
  | refused => exact h
  | segment k hshmid hf =>
    exact ⟨h.toSegmentsOk.newArena hos (.segment k hshmid hf), by simpa using h.entries, h.context,
      by simpa using h.fresh, by simpa using h.served⟩
  | @leaked index shmid addr hshmid hf ha =>
    refine ⟨h.toSegmentsOk.newArena hos (.leaked hshmid hf ha), ?_, h.context, by simpa using h.fresh,
      by simpa using h.served⟩
    obtain ⟨k, ha⟩ := ha
    simpa using h.entries.leak (a := ⟨addr, _, _⟩) (h.fresh _ _ _ _ ha)
  | @entered index shmid addr size type hshmid ht hf hm ha =>
    obtain ⟨hge, hlt, -⟩ := findEmptyArena_some hf
    have hi : index ≠ 0 := by omega
    have hseg : SegmentsOk (enterArena (attachNew s index shmid addr) type size index (s.sys.shmget index shmid).2 addr) :=
      h.toSegmentsOk.newArena hos (.entered hshmid ht hf hm ha)
    obtain ⟨k, ha⟩ := ha
    refine ⟨hseg, ?_, ?_, by simpa using h.fresh, ?_⟩
    · rw [enterArena_attached, attachNew_attached]
      exact h.entries.attach (a := ⟨addr, _, _⟩) index hm (h.fresh _ _ _ _ ha)
    · rw [enterArena_arenas, enterArena_arenaAddrs, if_neg (Ne.symm hi), if_neg (Ne.symm hi)]
      exact h.context
    · intro i hne hdiff
      rw [enterArena_shmat, attachNew_shmat]
      rw [enterArena_arenas] at hne hdiff ⊢
      rw [enterArena_arenaAddrs] at hdiff
      by_cases he : i = index
      · rw [if_pos he, if_pos he] at hdiff
        exact absurd rfl hdiff
      · rw [if_neg he] at hne ⊢
        rw [if_neg he, if_neg he] at hdiff
        exact h.served i hne hdiff

theorem passes (h : TableOk s) {os : Os} (hos : ∀ shmid, os.shmid = some shmid → shmid ≠ 0)
    (hp : Passes os s s') : TableOk s' := by
  obtain ⟨s₁, s₂, hc, hn, hc'⟩ := hp
  refine calm ?_ hc'
  rcases hn with rfl | hn
  · exact h.calm hc
  · exact (h.calm hc).newArena hos hn.newArena

theorem zeroArena (h : TableOk s) {index : Nat} (hi : index ≠ 0) :
    TableOk (s.zeroArena index) where
  arenas := h.arenas.zero hi
  entries := h.entries
  context := by
    show _ = (if 0 = index then ShmArena.zero else s.arenas 0).shmid
    rw [if_neg (Ne.symm hi)]
    exact h.context
  key := h.key
  fresh := h.fresh
  served i := by
    show (if i = index then ShmArena.zero else s.arenas i).shmid ≠ 0 →
      _ ≠ (if i = index then ShmArena.zero else s.arenas i).shmid → ∀ k l,
        (s.sys.shmat (if i = index then ShmArena.zero else s.arenas i).shmid k l).isSome
    split
    · exact fun hne => absurd rfl hne
    · exact h.served i

theorem delete (h : TableOk s) (hd : Deletes s s') : TableOk s' := by
  obtain ⟨index, hi, -, -, rfl⟩ := h.deletes hd
  refine (h.zeroArena hi).detach hi fun hne => absurd ?_ hne
  show (if index = index then ShmArena.zero else s.arenas index).shmid = 0
  rw [if_pos rfl]
  rfl

theorem effect (h : TableOk s) {os : Os} (hos : ∀ shmid, os.shmid = some shmid → shmid ≠ 0)
    (he : Effect os s s') : TableOk s' := by
  obtain ⟨u, hp, rfl | hd⟩ := he
  · exact h.passes hos hp
  · exact (h.passes hos hp).delete hd

end TableOk

end ShmMalloc
