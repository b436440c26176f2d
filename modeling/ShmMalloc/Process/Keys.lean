import ShmMalloc.Process.Lookup

/-! The keys of the path, over whole runs.

The key of the context names its segment as long as there are processes. An operation
has a key name a segment only from its creation to its removal, in `new_arena`, unless
the removal fails. -/
namespace ShmMalloc
open Library

/-- The keys after an operation: those of the arenas may have changed, by the segment that was created. -/
def KeysFrom (os : Os) (key key' : Nat → Option Nat) : Prop :=
  key' = key ∨ ∃ i ≠ 0, i < 128 ∧ ((∃ m, os.shmid = some m ∧ key' = Function.update key i (some m)) ∨
    key' = Function.update key i none)

section
variable {s s' : Shm} {os : Os}

theorem Sysv.shmget_update (y : Sysv) (index m : Nat) : (y.shmget index m).1.key = y.key ∨
    (y.shmget index m).1.key = Function.update y.key index (some m) := by
  obtain ⟨m', -, h⟩ | ⟨-, h⟩ := y.shmget_cases index m <;> rw [h]
  · exact .inl rfl
  · exact .inr rfl

theorem NewArena.key (h : NewArena os s s') : KeysFrom os s.sys.key s'.sys.key := by
  have hshmget : ∀ {index m}, os.shmid = some m → findEmptyArena s 127 1 = some index →
      KeysFrom os s.sys.key (s.sys.shmget index m).1.key := fun {index m} hos hf => by
    obtain ⟨hlo, hhi, -⟩ := findEmptyArena_some hf
    rcases s.sys.shmget_update index m with h | h
    · exact .inl h
    · exact .inr ⟨index, by omega, by omega, .inl ⟨m, hos, h⟩⟩
  cases h with
  | refused => exact .inl rfl
  | segment k hos hf => exact hshmget hos hf
  | leaked hos hf _ => exact hshmget (by rw [hos]; rfl) hf
  | @entered index shmid _ _ _ _ _ hf =>
    obtain ⟨hlo, hhi, -⟩ := findEmptyArena_some hf
    refine .inr ⟨index, by omega, by omega, .inr ?_⟩
    show Function.update (s.sys.shmget index shmid).1.key index none = _
    rcases s.sys.shmget_update index shmid with h | h <;> rw [h]
    exact Function.update_idem ..

theorem Effect.key (h : Effect os s s') : KeysFrom os s.sys.key s'.sys.key := by
  obtain ⟨u, ⟨s₁, s₂, hc, hn, hc'⟩, hu⟩ := h
  have hkey : s'.sys.key = s₂.sys.key := by
    rcases hu with rfl | ⟨i, -, -, -, hd | hd⟩
    · exact hc'.key
    · rw [← hc'.key]
      exact deleteArena_key hd
    · rw [← hc'.key]
      exact deleteArena_key hd
  rw [hkey, ← hc.key]
  rcases hn with rfl | hn
  · exact .inl rfl
  · exact hn.newArena.key

end

structure KeysOk (key : Nat → Option Nat) : Prop where
  own : ∀ i j m, key i = some m → key j = some m → i = j
  bound : ∀ i, 128 ≤ i → key i = none

namespace KeysOk
variable {key key' : Nat → Option Nat}

theorem some (h : KeysOk key) {i m : Nat} (hi : i < 128) (hm : ∀ j < 128, key j ≠ some m) :
    KeysOk (Function.update key i (some m)) where
  own a b n ha hb := by
    have hnew : ∀ {a}, a ≠ i → Function.update key i (Option.some m) a = Option.some n → n ≠ m := fun {a} ha hk hn => by
      rw [Function.update_of_ne ha, hn] at hk
      by_cases hb : a < 128
      · exact hm a hb hk
      · rw [h.bound a (by omega)] at hk
        cases hk
    by_cases hai : a = i <;> by_cases hbi : b = i
    · exact hai.trans hbi.symm
    · rw [hai, Function.update_self] at ha
      exact absurd (Option.some.inj ha).symm (hnew hbi hb)
    · rw [hbi, Function.update_self] at hb
      exact absurd (Option.some.inj hb).symm (hnew hai ha)
    · rw [Function.update_of_ne hai] at ha
      rw [Function.update_of_ne hbi] at hb
      exact h.own a b n ha hb
  bound a ha := by
    rw [Function.update_of_ne (by omega)]
    exact h.bound a ha

theorem none (h : KeysOk key) (i : Nat) : KeysOk (Function.update key i none) where
  own a b n ha hb := by
    have hold : ∀ {a}, Function.update key i Option.none a = Option.some n → key a = Option.some n := fun {a} ha => by
      by_cases hai : a = i
      · rw [hai, Function.update_self] at ha
        cases ha
      · rwa [Function.update_of_ne hai] at ha
    exact h.own a b n (hold ha) (hold hb)
  bound a ha := by
    by_cases hai : a = i
    · rw [hai, Function.update_self]
    · rw [Function.update_of_ne hai]
      exact h.bound a ha

theorem shmget {y : Sysv} (h : KeysOk y.key) {index m : Nat} (hi : index < 128) (hm : ∀ j < 128, y.key j ≠ Option.some m) :
    KeysOk (y.shmget index m).1.key := by
  rcases y.shmget_update index m with hk | hk <;> rw [hk]
  · exact h
  · exact h.some hi hm

theorem after (h : KeysOk key) {os : Os} (hos : ∀ m, os.shmid = Option.some m → ∀ j < 128, key j ≠ Option.some m)
    (hk : KeysFrom os key key') : KeysOk key' := by
  obtain rfl | ⟨i, -, hi, ⟨m, hm, rfl⟩ | rfl⟩ := hk
  · exact h
  · exact h.some hi (hos m hm)
  · exact h.none i

end KeysOk

/-- The key of the context names its segment. -/
structure Named (w : World) : Prop where
  keys : KeysOk w.shm.sys.key
  context : w.pids ≠ [] → w.shm.sys.key 0 = some (w.shm.arenas 0).shmid
  nodup : w.pids.Nodup

theorem mmapArenas_keeps {n i : Nat} {s s' : Shm} (h : mmapArenas n s i = .ok s') :
    s'.arenas = s.arenas ∧ s'.sys.key = s.sys.key := by
  induction n generalizing s i with
  | zero =>
    obtain rfl := Except.ok.inj h
    exact ⟨rfl, rfl⟩
  | succ n ih =>
    rw [mmapArenas] at h
    split at h
    · obtain ⟨⟨s₁, addr⟩, hmap, h⟩ := Exec.bind_ok h
      obtain ⟨-, y, hsys, rfl⟩ := mmapArena_ok hmap
      obtain ⟨harenas, hkey⟩ := ih h
      have hmapped : y.key = s.sys.key := by
        obtain ⟨⟨l, k, hfields⟩, -⟩ := mmapArena_fields hmap
        change y = _ at hfields
        rw [hfields]
      exact ⟨harenas, hkey.trans hmapped⟩
    · exact ih h

theorem Sysv.shmget_names (y : Sysv) (index m : Nat) : (y.shmget index m).1.key index = some (y.shmget index m).2 := by
  obtain ⟨m', hk, h⟩ | ⟨-, h⟩ := y.shmget_cases index m <;> rw [h]
  · exact hk
  · exact Function.update_self ..

theorem World.store_pids {w : World} {pid : Nat} {s : Shm} (h : w.pids.Nodup) : (w.store pid s).pids.Nodup := by
  show (if pid ∈ w.pids then w.pids else pid :: w.pids).Nodup
  split
  · exact h
  · next hp => exact List.nodup_cons.mpr ⟨hp, h⟩

namespace Named
variable {w w' : World} {shmid : Nat}

/-- What a process that starts finds. -/
theorem found (h : Named w) (hm : NewId w shmid) : KeysOk (w.context shmid).sys.key ∧
    (w.context shmid).sys.key 0 = some ((w.context shmid).arenas 0).shmid := by
  unfold World.context
  split
  · exact ⟨h.keys.shmget (by omega) hm.key, w.shm.sys.shmget_names 0 shmid⟩
  · next hp => exact ⟨h.keys, h.context hp⟩

theorem exit (h : Named w) (pid : Nat) : Named (w.exit pid) := by
  unfold World.exit
  dsimp only
  by_cases hp : w.pids.filter (· ≠ pid) = []
  · rw [if_pos hp]
    exact ⟨h.keys.none 0, fun hne => absurd hp hne, h.nodup.filter _⟩
  · rw [if_neg hp]
    exact ⟨h.keys, fun _ => h.context fun hnil => hp (by rw [hnil]; rfl), h.nodup.filter _⟩

theorem step {a : Action} (h : Named w) (hw : w.SegmentsOk) (hl : a.Legal w) (hrun : a.step w = .ok w') :
    Named w' := by
  cases a with
  | init pid shmid shmat =>
    obtain ⟨hpid, hm, -⟩ := hl
    obtain ⟨hkeys, hcontext⟩ := h.found hm
    rcases World.init_cases hrun with ⟨-, k, rfl⟩ | ⟨addr, s, -, -, hloop, rfl⟩
    · exact ⟨hkeys, fun _ => hcontext, h.nodup⟩
    · obtain ⟨harenas, hkey⟩ := mmapArenas_keeps hloop
      refine ⟨?_, fun _ => ?_, World.store_pids h.nodup⟩
      · show KeysOk s.sys.key
        rw [hkey]
        exact hkeys
      · show s.sys.key 0 = some (s.arenas 0).shmid
        rw [hkey, harenas]
        exact hcontext
  | exit pid =>
    obtain rfl := Except.ok.inj hrun
    exact h.exit pid
  | call pid c visits os shmat =>
    obtain ⟨hpid, hnew, hf⟩ := hl
    obtain ⟨s, heffect, rfl⟩ := Action.call_effect hrun
    have hload := hw.load (List.ne_nil_of_mem hpid) (w.proc pid) shmat
    have hkey : KeysFrom os w.shm.sys.key s.sys.key := heffect.key
    refine ⟨h.keys.after (fun m hm => (hnew m hm).key) hkey, fun _ => ?_, World.store_pids h.nodup⟩
    have hzero : s.sys.key 0 = w.shm.sys.key 0 := by
      obtain hk | ⟨i, hi, -, ⟨m, -, hk⟩ | hk⟩ := hkey <;> rw [hk]
      · exact Function.update_of_ne hi.symm ..
      · exact Function.update_of_ne hi.symm ..
    show s.sys.key 0 = some (s.arenas 0).shmid
    rw [hzero, hload.effect_context (fun m hm => (hnew m hm).pos) heffect]
    exact h.context (List.ne_nil_of_mem hpid)

theorem start (h : w.Start) : Named w where
  keys := ⟨fun i j m hi => absurd ((h.2 i).symm.trans hi) (by simp), fun i _ => h.2 i⟩
  context hp := absurd h.1 hp
  nodup := by
    rw [h.1]
    exact .nil

/-- Whatever the system attaches. -/
theorem reach (h : worldMachine.Reach (fun _ _ => True) w) : Named w := by
  induction h with
  | start h => exact .start h
  | step hw hl _ hrun ih => exact ih.step (.reach hw) hl hrun

end Named

end ShmMalloc
