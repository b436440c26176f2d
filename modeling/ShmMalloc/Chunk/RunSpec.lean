import ShmMalloc.Chunk.SmallModel
import ShmMalloc.Library.FreeList

/-! A run: its slots and its list of free slots. -/
namespace ShmMalloc
open Library

/-- The offsets of the slots in the page of a run. -/
def slots (elemsize : Nat) : List Nat := (List.range (4032 / elemsize)).map fun j => 64 + j * elemsize

theorem mem_slots {e o : Nat} : o ∈ slots e ↔ ∃ j < 4032 / e, o = 64 + j * e := by
  simp [slots, eq_comm]

theorem length_slots (e : Nat) : (slots e).length = 4032 / e := by simp [slots]

theorem slot_bounds {e o : Nat} (h : o ∈ slots e) : 64 ≤ o ∧ o + e ≤ 4096 := by
  obtain ⟨j, hj, rfl⟩ := mem_slots.mp h
  have h₁ : (j + 1) * e ≤ 4032 / e * e := Nat.mul_le_mul_right e hj
  have h₂ := Nat.div_mul_le_self 4032 e
  rw [Nat.add_mul] at h₁
  omega

/-- Slots do not overlap. -/
theorem slot_disjoint {e o o' : Nat} (h : o ∈ slots e) (h' : o' ∈ slots e) (hne : o ≠ o') :
    o + e ≤ o' ∨ o' + e ≤ o := by
  obtain ⟨i, -, rfl⟩ := mem_slots.mp h
  obtain ⟨j, -, rfl⟩ := mem_slots.mp h'
  rcases Nat.lt_trichotomy i j with hlt | rfl | hlt
  · have := Nat.mul_le_mul_right e (show i + 1 ≤ j from hlt)
    rw [Nat.add_mul] at this
    omega
  · exact absurd rfl hne
  · have := Nat.mul_le_mul_right e (show j + 1 ≤ i from hlt)
    rw [Nat.add_mul] at this
    omega

theorem nodup_slots {e : Nat} (he : 0 < e) : (slots e).Nodup := by
  refine List.Nodup.map_on ?_ List.nodup_range
  intro i _ j _ hij
  exact Nat.eq_of_mul_eq_mul_right he (by omega)

theorem slot_ne_null {e o : Nat} (h : o ∈ slots e) : o ≠ runListNull := by
  have := slot_bounds h
  unfold runListNull
  omega

/-- The list of free slots of a run whose slots have the size `e`, in its order. -/
structure SlotList (s : Shm) (r e : Nat) (f : List Nat) : Prop where
  elemsize : (s.run r).elemsize = e
  total : (s.run r).total = 4032 / e
  chain : Chain runListNull (s.link r) (s.run r).free f
  nodup : f.Nodup
  slot : ∀ o ∈ f, o ∈ slots e
  used : (s.run r).used + f.length = (s.run r).total

namespace SlotList
variable {s s' : Shm} {r e : Nat} {f : List Nat}

/-- The list depends on the header of the run and on the links of the free slots. -/
theorem congr (h : SlotList s r e f) (hr : s'.run r = s.run r)
    (hl : ∀ o ∈ f, s'.link r o = s.link r o) : SlotList s' r e f := by
  obtain ⟨h₁, h₂, h₃, h₄, h₅, h₆⟩ := h
  exact ⟨by rw [hr, h₁], by rw [hr, h₂], by rw [hr]; exact h₃.congr hl, h₄, h₅, by rw [hr, h₆]⟩

theorem full_iff (h : SlotList s r e f) : (s.run r).used < (s.run r).total ↔ f ≠ [] := by
  have := h.used
  rw [← List.length_pos_iff]
  omega

/-- With a slot in use the list is not complete. -/
theorem used_pos (h : SlotList s r e f) {o : Nat} (ho : o ∈ slots e) (hf : o ∉ f) :
    0 < (s.run r).used := by
  by_contra hn
  refine hf (mem_of_length_le h.nodup h.slot ?_ ho)
  have := h.used
  have := h.total
  rw [length_slots]
  omega

end SlotList

theorem runConfig_bounds {k : Nat} (h₁ : 1 ≤ k) (h₂ : k ≤ 14) :
    8 ≤ runConfig k ∧ runConfig k ≤ 1920 := by
  have h : ∀ k < 15, 1 ≤ k → 8 ≤ runConfig k ∧ runConfig k ≤ 1920 := by decide
  exact h k (by omega) h₁

/-- The run at `r`, with its free slots `f` in the order of its list. -/
structure Run (s : Shm) (r : Nat) (f : List Nat) : Prop where
  pos : (s.run r).pos = r
  conf : 1 ≤ (s.run r).confIndex ∧ (s.run r).confIndex ≤ 14
  elemsize : (s.run r).elemsize = runConfig (s.run r).confIndex
  total : (s.run r).total = 4032 / (s.run r).elemsize
  chain : Chain runListNull (s.link r) (s.run r).free f
  nodup : f.Nodup
  slot : ∀ o ∈ f, o ∈ slots (s.run r).elemsize
  used : (s.run r).used + f.length = (s.run r).total

/-- A slot of a run that is handed out. -/
def UsedSlot (s : Shm) (r o : Nat) : Prop := ∃ f, Run s r f ∧ o ∈ slots (s.run r).elemsize ∧ o ∉ f

namespace Run
variable {s s' : Shm} {r : Nat} {f : List Nat}

theorem bounds (h : Run s r f) : 8 ≤ (s.run r).elemsize ∧ (s.run r).elemsize ≤ 1920 := by
  rw [h.elemsize]
  exact runConfig_bounds h.conf.1 h.conf.2

theorem slotList (h : Run s r f) : SlotList s r (s.run r).elemsize f :=
  ⟨rfl, h.total, h.chain, h.nodup, h.slot, h.used⟩

theorem of_slotList (h : SlotList s r (runConfig (s.run r).confIndex) f) (hp : (s.run r).pos = r)
    (hc : 1 ≤ (s.run r).confIndex ∧ (s.run r).confIndex ≤ 14) : Run s r f :=
  ⟨hp, hc, h.elemsize, by rw [h.elemsize, h.total], h.chain, h.nodup, by rw [h.elemsize]; exact h.slot,
    h.used⟩

theorem unique (h : Run s r f) {g : List Nat} (h' : Run s r g) : f = g := h.chain.unique h'.chain

theorem usedSlot_iff (h : Run s r f) (o : Nat) :
    UsedSlot s r o ↔ o ∈ slots (s.run r).elemsize ∧ o ∉ f := by
  constructor
  · rintro ⟨g, hg, ho, hog⟩
    rw [h.unique hg]
    exact ⟨ho, hog⟩
  · rintro ⟨ho, hof⟩
    exact ⟨f, h, ho, hof⟩

/-- A run depends on its header and on its links. -/
theorem congr (h : Run s r f) (e : s'.run r = s.run r) (el : ∀ o ∈ f, s'.link r o = s.link r o) :
    Run s' r f := by
  obtain ⟨h₁, h₂, h₃, h₄, h₅, h₆, h₇, h₈⟩ := h
  exact ⟨by rw [e, h₁], by rwa [e], by rw [e, h₃], by rw [e, h₄], by rw [e]; exact h₅.congr el, h₆,
    by rwa [e], by rw [e, h₈]⟩

theorem full_iff (h : Run s r f) : (s.run r).used < (s.run r).total ↔ f ≠ [] := h.slotList.full_iff

/-- With a slot in use the list is not complete. -/
theorem used_pos (h : Run s r f) {o : Nat} (ho : UsedSlot s r o) : 0 < (s.run r).used := by
  obtain ⟨hs, hf⟩ := (h.usedSlot_iff o).mp ho
  exact h.slotList.used_pos hs hf

end Run

theorem UsedSlot.congr {s s' : Shm} {r : Nat} (e : s'.run r = s.run r)
    (el : ∀ o, s'.link r o = s.link r o) (o : Nat) : UsedSlot s' r o ↔ UsedSlot s r o := by
  unfold UsedSlot
  rw [e]
  constructor
  · rintro ⟨f, h, ho⟩
    exact ⟨f, h.congr e.symm fun o _ => (el o).symm, ho⟩
  · rintro ⟨f, h, ho⟩
    exact ⟨f, h.congr e fun o _ => el o, ho⟩

/-! ### Allocation and release -/

@[simp] theorem setRun_run (s : Shm) (r : Nat) (h : RunHeader) : (s.setRun r h).run r = h := if_pos rfl

theorem setRun_ne (s : Shm) {r q : Nat} (h : RunHeader) (hq : q ≠ r) :
    (s.setRun r h).run q = s.run q := if_neg hq

@[simp] theorem setRun_link (s : Shm) (r : Nat) (h : RunHeader) : (s.setRun r h).link = s.link := rfl

theorem setLink_link (s : Shm) (r o w : Nat) :
    (s.setLink r o w).link r = Function.update (s.link r) o w := by
  funext p
  show (if r = r ∧ p = o then w else s.link r p) = _
  by_cases h : p = o
  · simp [h]
  · simp [h]

theorem setLink_ne (s : Shm) {r q : Nat} (o w : Nat) (hq : q ≠ r) :
    (s.setLink r o w).link q = s.link q := by
  funext p
  exact if_neg fun h => hq h.1

/-- `malloc_run` takes the first free slot. -/
theorem mallocRun_list {s : Shm} {r e o : Nat} {f : List Nat} (h : SlotList s r e (o :: f)) :
    ∃ hd, mallocRun s r = .ok (s.setRun r hd, o) ∧ SlotList (s.setRun r hd) r e f ∧
      hd = {s.run r with free := hd.free, used := (s.run r).used + 1} := by
  have hfree : (s.run r).free = o := h.chain.1
  have hne : o ≠ runListNull := h.chain.2.1
  have hlt : (s.run r).used < (s.run r).total := h.full_iff.mpr (List.cons_ne_nil o f)
  have hused := h.used
  rw [List.length_cons] at hused
  refine ⟨{s.run r with free := s.link r o, used := (s.run r).used + 1}, ?_,
    ⟨?_, ?_, ?_, (List.nodup_cons.mp h.nodup).2, fun p hp => h.slot p (List.mem_cons_of_mem o hp), ?_⟩, rfl⟩
  · unfold mallocRun
    simp only [hfree, decide_eq_true hne, decide_eq_true hlt, require_true, Exec.ok_bind, Exec.pure_eq]
  · rw [setRun_run]
    exact h.elemsize
  · rw [setRun_run]
    exact h.total
  · rw [setRun_run]
    exact h.chain.2.2
  · rw [setRun_run]
    show (s.run r).used + 1 + f.length = (s.run r).total
    omega

/-- `free_run` makes the slot the first free one. -/
theorem freeRun_list {s : Shm} {r e o : Nat} {f : List Nat} (h : SlotList s r e f) (ho : o ∈ slots e)
    (hof : o ∉ f) :
    ∃ hd, freeRun s r o = .ok ((s.setLink r o (s.run r).free).setRun r hd) ∧
      SlotList ((s.setLink r o (s.run r).free).setRun r hd) r e (o :: f) ∧
      hd = {s.run r with free := o, used := (s.run r).used - 1} := by
  have hpos := h.used_pos ho hof
  have hused := h.used
  refine ⟨_, ?_, ⟨?_, ?_, ?_, List.nodup_cons.mpr ⟨hof, h.nodup⟩, fun p hp => ?_, ?_⟩, rfl⟩
  · unfold freeRun
    simp only [decide_eq_true hpos, require_true, Exec.ok_bind, Exec.pure_eq]
  · rw [setRun_run]
    exact h.elemsize
  · rw [setRun_run]
    exact h.total
  · rw [setRun_run, setRun_link, setLink_link]
    exact h.chain.push hof (slot_ne_null ho)
  · rcases List.mem_cons.mp hp with rfl | hp
    · exact ho
    · exact h.slot p hp
  · rw [setRun_run, List.length_cons]
    show (s.run r).used - 1 + (f.length + 1) = (s.run r).total
    omega

theorem mallocRun_spec {s : Shm} {r o : Nat} {f : List Nat} (h : Run s r (o :: f)) :
    ∃ hd, mallocRun s r = .ok (s.setRun r hd, o) ∧ Run (s.setRun r hd) r f ∧
      hd = {s.run r with free := hd.free, used := (s.run r).used + 1} := by
  obtain ⟨hd, hrun, hlist, hhd⟩ := mallocRun_list h.slotList
  have hconf : hd.confIndex = (s.run r).confIndex := by rw [hhd]
  refine ⟨hd, hrun, .of_slotList ?_ ?_ ?_, hhd⟩
  · rw [setRun_run, hconf, ← h.elemsize]
    exact hlist
  · rw [setRun_run, hhd]
    exact h.pos
  · rw [setRun_run, hconf]
    exact h.conf

theorem freeRun_spec {s : Shm} {r o : Nat} {f : List Nat} (h : Run s r f) (ho : UsedSlot s r o) :
    ∃ hd, freeRun s r o = .ok ((s.setLink r o (s.run r).free).setRun r hd) ∧
      Run ((s.setLink r o (s.run r).free).setRun r hd) r (o :: f) ∧
      hd = {s.run r with free := o, used := (s.run r).used - 1} := by
  obtain ⟨hs, hof⟩ := (h.usedSlot_iff o).mp ho
  obtain ⟨hd, hrun, hlist, hhd⟩ := freeRun_list h.slotList hs hof
  have hconf : hd.confIndex = (s.run r).confIndex := by rw [hhd]
  refine ⟨hd, hrun, .of_slotList ?_ ?_ ?_, hhd⟩
  · rw [setRun_run, hconf, ← h.elemsize]
    exact hlist
  · rw [setRun_run, hhd]
    exact h.pos
  · rw [setRun_run, hconf]
    exact h.conf

/-! ### A new run -/

/-- The loop over the slots links each to the next, from slot `j` on. -/
theorem initRunList_spec (run e total n : Nat) (s : Shm) (j : Nat) (he : 0 < e)
    (hle : 64 + (j + n) * e < runListNull) :
    ∃ link data, initRunList run e total n s (j + 1) (64 + j * e) = {s with link := link, data := data} ∧
      Chain runListNull (link run) (64 + j * e) ((List.range' j (n + 1)).map fun i => 64 + i * e) ∧
      (∀ o < 64 + j * e, link run o = s.link run o) ∧ (∀ q, q ≠ run → link q = s.link q) ∧
      ∀ W, (∀ i ≤ j + n, ∀ y ∈ bytes (run + (64 + i * e)) 4, y ∈ W) → SameData W s.data data := by
  induction n generalizing s j with
  | zero =>
    refine ⟨_, _, rfl, ⟨rfl, Nat.ne_of_lt hle, ?_⟩, fun o ho => ?_, fun q hq => setLink_ne s _ _ hq,
      fun W hW => .wrote (hW j (by omega))⟩
    · exact if_pos ⟨rfl, rfl⟩
    · exact if_neg fun h => Nat.ne_of_lt ho h.2
  | succ n ih =>
    have hblock : 64 + j * e + e = 64 + (j + 1) * e := by
      rw [Nat.add_mul, Nat.one_mul, Nat.add_assoc]
    obtain ⟨link, data, hrun, hchain, hbelow, hother, hdata⟩ := ih
      (s.setLink run (64 + j * e) ((j + 1) * e + 64)) (j + 1)
      (by rwa [show j + 1 + n = j + (n + 1) by omega])
    have hnext : link run (64 + j * e) = 64 + (j + 1) * e := by
      rw [hbelow _ (by omega), setLink_link, Function.update_self, Nat.add_comm]
    refine ⟨link, data, ?_, ?_, fun o ho => ?_, fun q hq => ?_, fun W hW => ?_⟩
    · rw [initRunList, hblock, hrun]
      rfl
    · rw [List.range'_succ, List.map_cons]
      refine ⟨rfl, ?_, by rw [hnext]; exact hchain⟩
      have := Nat.mul_le_mul_right e (show j ≤ j + (n + 1) by omega)
      omega
    · rw [hbelow o (by omega), setLink_link, Function.update_of_ne (by omega)]
    · rw [hother q hq]
      exact setLink_ne s _ _ hq
    · exact (SameData.wrote (hW j (by omega))).trans (hdata W fun i hi => hW i (by omega))

/-- The list of a new run goes through all of its slots, whatever their size. -/
theorem newRun_list (s : Shm) {r k e : Nat} (he : 0 < e) (hle : e ≤ 4032) :
    ∃ link data, initRunList r e (4032 / e) (4032 / e - 1) (s.setRun r ⟨r, k, e, 4032 / e, 0, 64⟩) 1 64 =
        {s.setRun r ⟨r, k, e, 4032 / e, 0, 64⟩ with link := link, data := data} ∧
      SlotList {s.setRun r ⟨r, k, e, 4032 / e, 0, 64⟩ with link := link, data := data} r e (slots e) ∧
      (∀ q, q ≠ r → link q = s.link q) ∧
      ∀ W, (∀ y ∈ bytes r 64, y ∈ W) → (∀ o ∈ slots e, ∀ y ∈ bytes (r + o) 4, y ∈ W) → SameData W s.data data := by
  have hpos : 0 < 4032 / e := Nat.div_pos hle he
  have hfit : (4032 / e - 1) * e ≤ 4032 := by
    have h₁ := Nat.mul_le_mul_right e (Nat.sub_le (4032 / e) 1)
    have h₂ := Nat.div_mul_le_self 4032 e
    omega
  obtain ⟨link, data, hrun, hchain, -, hother, hdata⟩ := initRunList_spec r e (4032 / e) (4032 / e - 1)
    (s.setRun r ⟨r, k, e, 4032 / e, 0, 64⟩) 0 he (by rw [Nat.zero_add]; unfold runListNull; omega)
  rw [Nat.zero_add, Nat.zero_mul, Nat.add_zero] at hrun
  rw [Nat.zero_mul, Nat.add_zero] at hchain
  rw [Nat.sub_add_cancel hpos, ← List.range_eq_range'] at hchain
  have hself : ({s.setRun r ⟨r, k, e, 4032 / e, 0, 64⟩ with link := link, data := data} : Shm).run r =
      ⟨r, k, e, 4032 / e, 0, 64⟩ := setRun_run ..
  refine ⟨link, data, hrun, ⟨?_, ?_, ?_, nodup_slots he, fun o ho => ho, ?_⟩, hother, fun W hr hW => ?_⟩
  · rw [hself]
  · rw [hself]
  · rw [hself]
    exact hchain
  · rw [hself, length_slots]
    exact Nat.zero_add _
  · refine (SameData.wrote hr).trans (hdata W fun i hi => hW (64 + i * e) (mem_slots.mpr ⟨i, ?_, rfl⟩))
    omega

/-- A new run of a class. -/
theorem newRun_spec (s : Shm) {r k : Nat} (h₁ : 1 ≤ k) (h₂ : k ≤ 14) :
    ∃ link data, initRunList r (runConfig k) (4032 / runConfig k) (4032 / runConfig k - 1)
        (s.setRun r ⟨r, k, runConfig k, 4032 / runConfig k, 0, 64⟩) 1 64 =
        {s.setRun r ⟨r, k, runConfig k, 4032 / runConfig k, 0, 64⟩ with link := link, data := data} ∧
      Run {s.setRun r ⟨r, k, runConfig k, 4032 / runConfig k, 0, 64⟩ with link := link, data := data} r
        (slots (runConfig k)) ∧ (∀ q, q ≠ r → link q = s.link q) ∧
      (r % 4096 = 0 → SameData (bytes r 4096) s.data data) := by
  obtain ⟨hlo, hhi⟩ := runConfig_bounds h₁ h₂
  obtain ⟨link, data, hrun, hlist, hother, hdata⟩ :=
    newRun_list s (r := r) (k := k) (e := runConfig k) (by omega) (by omega)
  have hself : ({s.setRun r ⟨r, k, runConfig k, 4032 / runConfig k, 0, 64⟩ with link := link, data := data} :
      Shm).run r = ⟨r, k, runConfig k, 4032 / runConfig k, 0, 64⟩ := setRun_run ..
  refine ⟨link, data, hrun, .of_slotList ?_ ?_ ?_, hother, fun hr => hdata _ ?_ fun o ho => ?_⟩
  · rw [hself]
    exact hlist
  · rw [hself]
  · rw [hself]
    exact ⟨h₁, h₂⟩
  · rw [← Nat.add_zero r]
    exact bytes_page hr (by omega)
  · have := (slot_bounds ho).2
    exact bytes_page hr (by omega)

end ShmMalloc
