import ShmMalloc.Chunk.SmallSpec
import ShmMalloc.Library.Machine
import ShmMalloc.Malloc

/-! Runs of `malloc_run` and `free_run` on one run, with slots of any size.

A slot is live from the call that returns it to the one that gives it back, and its
owner may write anything to it: also the word that links it while it is free. -/
namespace ShmMalloc
open Library

/-- What `new_chunk_run` writes to the page of a new run. -/
def initRun (s : Shm) (run conf elemsize : Nat) : Shm :=
  let total := (4096 - 64) / elemsize
  let s := (clearPage s run).setRun run ⟨run, conf, elemsize, total, 0, 64⟩
  initRunList run elemsize total (total - 1) s 1 64

theorem startRun_eq {s : Shm} {c p k : Nat} (h : (s.header c).pos = c) :
    startRun s c p k = initRun s (c + p * 4096) k (runConfig k) := by
  unfold startRun initRun
  dsimp only
  rw [show (clearPage s (c + p * 4096)).header = s.header from rfl, h]

structure RunWorld where
  shm : Shm
  live : List Nat

inductive RunCall where
  | malloc
  | free (offset : Nat)
  | write (offset word : Nat)

namespace RunCall

def Legal (r : Nat) (w : RunWorld) : RunCall → Prop
  | .malloc => (w.shm.run r).used < (w.shm.run r).total
  | .free o => o ∈ w.live
  | .write o _ => o ∈ w.live

instance (r : Nat) (w : RunWorld) : (a : RunCall) → Decidable (a.Legal r w)
  | .malloc => inferInstanceAs (Decidable (_ < _))
  | .free _ => inferInstanceAs (Decidable (_ ∈ _))
  | .write _ _ => inferInstanceAs (Decidable (_ ∈ _))

def step (r : Nat) (w : RunWorld) : RunCall → Exec RunWorld
  | .malloc => do
    let (s, o) ← mallocRun w.shm r
    return ⟨s, o :: w.live⟩
  | .free o => do
    let s ← freeRun w.shm r o
    return ⟨s, w.live.erase o⟩
  | .write o word => .ok {w with shm := w.shm.setLink r o word}

end RunCall

def runMachine (r e : Nat) : Machine RunWorld RunCall Fault where
  start w := (∃ s conf, w.shm = initRun s r conf e) ∧ w.live = []
  legal w a := a.Legal r w
  step w a := a.step r w

instance (r e : Nat) (w : RunWorld) (a : RunCall) : Decidable ((runMachine r e).legal w a) :=
  inferInstanceAs (Decidable (a.Legal r w))

/-- The slots are free or live. -/
structure RunSplit (r e : Nat) (w : RunWorld) (f : List Nat) : Prop where
  list : SlotList w.shm r e f
  nodup : w.live.Nodup
  slot : ∀ o ∈ w.live, o ∈ slots e
  free : ∀ o ∈ slots e, o ∈ f ↔ o ∉ w.live

namespace RunSplit
variable {r e : Nat} {w : RunWorld} {f : List Nat}

theorem start (h : (runMachine r e).start w) (h₀ : 0 < e) (hle : e ≤ 4032) :
    RunSplit r e w (slots e) := by
  obtain ⟨⟨s, conf, hs⟩, hlive⟩ := h
  obtain ⟨link, data, hinit, hlist, -⟩ := newRun_list (clearPage s r) (r := r) (k := conf) h₀ hle
  have hshm : w.shm = _ := hs.trans hinit
  refine ⟨by rw [hshm]; exact hlist, by rw [hlive]; exact List.nodup_nil, ?_, ?_⟩
  · rw [hlive]
    exact fun o ho => absurd ho List.not_mem_nil
  · rw [hlive]
    exact fun o ho => iff_of_true ho List.not_mem_nil

/-- The header counts the live slots. -/
theorem used (h : RunSplit r e w f) (h₀ : 0 < e) : (w.shm.run r).used = w.live.length := by
  have hperm : (f ++ w.live).Perm (slots e) := by
    refine (List.perm_ext_iff_of_nodup ?_ (nodup_slots h₀)).mpr fun o => ?_
    · refine List.nodup_append.mpr ⟨h.list.nodup, h.nodup, fun o ho x hx he => ?_⟩
      exact (h.free o (h.list.slot o ho)).mp ho (he ▸ hx)
    · rw [List.mem_append]
      refine ⟨fun ho => ho.elim (h.list.slot o) (h.slot o), fun ho => ?_⟩
      by_cases hl : o ∈ w.live
      · exact .inr hl
      · exact .inl ((h.free o ho).mpr hl)
  have hlen := hperm.length_eq
  have hused := h.list.used
  rw [List.length_append, length_slots, ← h.list.total] at hlen
  omega

/-- A slot that is taken was free, and only the header of the run is written. -/
theorem malloc (h : RunSplit r e w f) (hroom : (w.shm.run r).used < (w.shm.run r).total) :
    ∃ hd o f', mallocRun w.shm r = .ok (w.shm.setRun r hd, o) ∧ o ∈ slots e ∧ o ∉ w.live ∧
      RunSplit r e ⟨w.shm.setRun r hd, o :: w.live⟩ f' := by
  obtain ⟨o, f', rfl⟩ := List.exists_cons_of_ne_nil (h.list.full_iff.mp hroom)
  obtain ⟨hd, hrun, hlist, -⟩ := mallocRun_list h.list
  have hslot := h.list.slot o List.mem_cons_self
  have hnew := (h.free o hslot).mp List.mem_cons_self
  have hof := (List.nodup_cons.mp h.list.nodup).1
  refine ⟨hd, o, f', hrun, hslot, hnew, hlist, List.nodup_cons.mpr ⟨hnew, h.nodup⟩, fun x hx => ?_,
    fun x hx => ?_⟩
  · rcases List.mem_cons.mp hx with rfl | hx
    · exact hslot
    · exact h.slot x hx
  · have hfree := h.free x hx
    rw [List.mem_cons] at hfree ⊢
    by_cases hxo : x = o
    · subst hxo
      exact iff_of_false hof fun hno => hno (.inl rfl)
    · rw [or_iff_right hxo] at hfree ⊢
      exact hfree

/-- A slot that is given back is linked by its own word. -/
theorem release (h : RunSplit r e w f) {o : Nat} (ho : o ∈ w.live) :
    ∃ hd, freeRun w.shm r o = .ok ((w.shm.setLink r o (w.shm.run r).free).setRun r hd) ∧
      RunSplit r e ⟨(w.shm.setLink r o (w.shm.run r).free).setRun r hd, w.live.erase o⟩ (o :: f) := by
  have hslot := h.slot o ho
  have hof : o ∉ f := fun hf => (h.free o hslot).mp hf ho
  obtain ⟨hd, hrun, hlist, -⟩ := freeRun_list h.list hslot hof
  refine ⟨hd, hrun, hlist, h.nodup.erase o, fun x hx => h.slot x (List.mem_of_mem_erase hx), fun x hx => ?_⟩
  rw [h.nodup.mem_erase_iff, List.mem_cons, h.free x hx]
  tauto

theorem write (h : RunSplit r e w f) {o : Nat} (ho : o ∈ w.live) (word : Nat) :
    RunSplit r e {w with shm := w.shm.setLink r o word} f := by
  refine ⟨h.list.congr rfl fun x hx => if_neg ?_, h.nodup, h.slot, h.free⟩
  rintro ⟨-, rfl⟩
  exact (h.free x (h.list.slot x hx)).mp hx ho

theorem step (h : RunSplit r e w f) {a : RunCall} {w' : RunWorld} (hl : a.Legal r w)
    (hs : a.step r w = .ok w') : ∃ f', RunSplit r e w' f' := by
  cases a with
  | malloc =>
    obtain ⟨hd, o, f', hrun, -, -, hsplit⟩ := h.malloc hl
    rw [RunCall.step, hrun] at hs
    obtain rfl := Except.ok.inj hs
    exact ⟨f', hsplit⟩
  | free o =>
    obtain ⟨hd, hrun, hsplit⟩ := h.release hl
    rw [RunCall.step, hrun] at hs
    obtain rfl := Except.ok.inj hs
    exact ⟨_, hsplit⟩
  | write o word =>
    obtain rfl := Except.ok.inj hs
    exact ⟨f, h.write hl word⟩

end RunSplit

/-- What holds of a run between two calls, and of the next one. -/
structure RunExact (r e : Nat) (w : RunWorld) : Prop where
  total : (w.shm.run r).total = 4032 / e
  used : (w.shm.run r).used = w.live.length ∧ w.live.length ≤ (w.shm.run r).total
  /-- The list from `free` on: the slots that are not live, each once. -/
  list : ∃ f, Chain runListNull (w.shm.link r) (w.shm.run r).free f ∧ f.Nodup ∧
    f.length = (w.shm.run r).total - (w.shm.run r).used ∧
    ∀ o, o ∈ f ↔ (∃ i < (w.shm.run r).total, o = 64 + i * e) ∧ o ∉ w.live
  live : w.live.Nodup ∧ ∀ o ∈ w.live, ∃ i < (w.shm.run r).total, o = 64 + i * e
  inside : ∀ i < (w.shm.run r).total, 64 + i * e + e ≤ 4096
  malloc : (w.shm.run r).used < (w.shm.run r).total → ∃ s o, mallocRun w.shm r = .ok (s, o) ∧
    (∃ i < (w.shm.run r).total, o = 64 + i * e) ∧ o ∉ w.live ∧
    s.link = w.shm.link ∧ SameData (bytes r 64) w.shm.data s.data
  /-- Four bytes of the slot that is given back are written, and no byte of a live one. -/
  free : ∀ o ∈ w.live, ∃ s, freeRun w.shm r o = .ok s ∧
    SameData {y | y ∈ bytes r 64 ∨ y ∈ bytes (r + o) 4} w.shm.data s.data ∧
    (∀ q x, s.link q x ≠ w.shm.link q x → q = r ∧ x = o) ∧
    ∀ x ∈ w.live, x ≠ o → o + 4 ≤ x ∨ x + e ≤ o

theorem RunSplit.exact {r e : Nat} {w : RunWorld} {f : List Nat} (h : RunSplit r e w f)
    (hlo : 4 ≤ e) : RunExact r e w := by
  have htotal := h.list.total
  have hused := h.used (by omega)
  have hcount := h.list.used
  have hslots : ∀ o, o ∈ slots e ↔ ∃ i < (w.shm.run r).total, o = 64 + i * e := fun o => by
    rw [htotal]
    exact mem_slots
  refine ⟨htotal, ⟨hused, by omega⟩, ⟨f, h.list.chain, h.list.nodup, by omega, fun o => ?_⟩,
    ⟨h.nodup, fun o ho => (hslots o).mp (h.slot o ho)⟩, fun i hi => ?_, fun hroom => ?_, fun o ho => ?_⟩
  · rw [← hslots]
    exact ⟨fun ho => ⟨h.list.slot o ho, (h.free o (h.list.slot o ho)).mp ho⟩,
      fun ho => (h.free o ho.1).mpr ho.2⟩
  · exact (slot_bounds ((hslots _).mpr ⟨i, hi, rfl⟩)).2
  · obtain ⟨hd, o, f', hrun, hslot, hnew, -⟩ := h.malloc hroom
    exact ⟨_, o, hrun, (hslots o).mp hslot, hnew, rfl, .wrote fun _ hy => hy⟩
  · obtain ⟨hd, hrun, -⟩ := h.release ho
    refine ⟨_, hrun, (SameData.wrote fun _ hy => .inr hy).trans (.wrote fun _ hy => .inl hy),
      fun q x hne => ?_, fun x hx hxo => ?_⟩
    · by_contra hno
      exact hne (if_neg hno)
    · have := slot_disjoint (h.slot o ho) (h.slot x hx) hxo.symm
      omega

theorem runSplit_reach {r e : Nat} (hlo : 4 ≤ e) (hhi : e ≤ 4032) {w : RunWorld}
    (h : (runMachine r e).Reach (fun _ _ => True) w) : ∃ f, RunSplit r e w f := by
  have hstart : ∀ w, (runMachine r e).start w → ∃ f, RunSplit r e w f :=
    fun w hw => ⟨_, .start hw (by omega) hhi⟩
  refine h.invariant hstart fun w a w' hi hl _ hs => ?_
  obtain ⟨f, hf⟩ := hi
  exact hf.step hl hs

/-- **In every sequence of calls on one run** the list from `free` on goes once through the slots
that are not live and ends in the null offset, a slot that is taken was not live, and no
live slot is written. -/
theorem run_exact {r e : Nat} (hlo : 4 ≤ e) (hhi : e ≤ 4032) {w : RunWorld}
    (h : (runMachine r e).Reach (fun _ _ => True) w) : RunExact r e w := by
  obtain ⟨f, hf⟩ := runSplit_reach hlo hhi h
  exact hf.exact hlo

/-- Three slots of 1280 bytes: all are taken, and the first and the last given back. -/
def runCalls : List RunCall := [.malloc, .malloc, .malloc, .free 64, .write 1344 5, .free 2624]

theorem run_exact_three : ∃ w, (runMachine 4096 1280).Reach (fun _ _ => True) w ∧
    w.live = [1344] ∧ RunExact 4096 1280 w := by
  have hstart : (runMachine 4096 1280).start ⟨initRun (initShm 7) 4096 13 1280, []⟩ :=
    ⟨⟨_, 13, rfl⟩, rfl⟩
  have hrun : (((runMachine 4096 1280).run (fun _ _ => true)
      ⟨initRun (initShm 7) 4096 13 1280, []⟩ runCalls).any fun w => decide (w.live = [1344])) = true := by
    decide +kernel
  obtain ⟨w, hreach, hw⟩ : ∃ w, (runMachine 4096 1280).Reach (fun _ _ => True) w ∧ _ :=
    Machine.exists_reach _ (fun _ _ _ => trivial) _ hstart hrun
  exact ⟨w, hreach, of_decide_eq_true hw, run_exact (by decide) (by decide) hreach⟩

end ShmMalloc
