import ShmMalloc.Chunk.MediumModel
import ShmMalloc.Library.Segments
import ShmMalloc.Rbtree.Delete
import ShmMalloc.Rbtree.Insert

/-! The units of a medium chunk as segments of its pages.

`Layout` is what the three bitmaps and the free tree say together: the set bits cut
pages 1 to 255 into units, and the tree holds the free ones. Taking a unit keeps the
layout directly. Giving one back goes through states in which the unit is neither in
the tree nor marked, and in which it grows by its free neighbours: `Pending`. -/
namespace ShmMalloc
open Library
open Rbtree (Holds Keeps)

def unitSize (d : ChunkMediumDetial) (p : Nat) : Nat := (d.tree.heap p).v.size

/-- `bitmap_down` is `bitmap_up` counted from the other end. -/
def Mirror (d : ChunkMediumDetial) : Prop :=
  ∀ p < 256, bitmapGet d.bitmapDown (255 - p) = bitmapGet d.bitmapUp p

theorem Mirror.congr {d d' : ChunkMediumDetial} (h : Mirror d) (hu : d'.bitmapUp = d.bitmapUp)
    (hd : d'.bitmapDown = d.bitmapDown) : Mirror d' := by
  unfold Mirror
  rw [hd, hu]
  exact h

structure Layout (d : ChunkMediumDetial) (l : List Nat) : Prop where
  parts : Partition 1 256 (bitmapGet d.bitmapUp) (bitmapGet d.bitmapType) l (unitSize d)
  apart : ∀ p q, ¬Adjacent l (unitSize d) p q
  mirror : Mirror d
  holds : Holds mediumMacros d.tree l
  index : ∀ p ∈ l, (d.tree.heap p).v.index = p
  freeSize : d.freeSize = (l.map (unitSize d)).sum

/-- A unit of `n` pages from page `p` on is in use. -/
def UsedUnit (d : ChunkMediumDetial) (p n : Nat) : Prop :=
  bitmapGet d.bitmapType p = true ∧ Segment (bitmapGet d.bitmapUp) 256 p n

theorem Layout.usedUnit {d : ChunkMediumDetial} {l : List Nat} {p : Nat} (h : Layout d l)
    (hp : bitmapGet d.bitmapType p = true) : ∃ n, UsedUnit d p n := by
  have hmark := h.parts.sub p hp
  obtain ⟨n, hn⟩ := Segment.of_mark hmark (h.parts.range p hmark).2
  exact ⟨n, hp, hn⟩

/-! ### The marks -/

def ChunkMediumDetial.mark (d : ChunkMediumDetial) (p : Nat) : ChunkMediumDetial :=
  {d with bitmapUp := bitmapSet d.bitmapUp p, bitmapDown := bitmapSet d.bitmapDown (255 - p)}

def ChunkMediumDetial.unmark (d : ChunkMediumDetial) (p : Nat) : ChunkMediumDetial :=
  {d with bitmapUp := bitmapClear d.bitmapUp p, bitmapDown := bitmapClear d.bitmapDown (255 - p)}

@[simp] theorem unmark_bitmapType (d : ChunkMediumDetial) (p : Nat) :
    (d.unmark p).bitmapType = d.bitmapType := rfl

section Marks
variable {d : ChunkMediumDetial} {p : Nat}

theorem setMediumUnit_ok (h : Mirror d) (hp : p < 256) (hu : bitmapGet d.bitmapUp p = false) :
    setMediumUnit d p = .ok (d.mark p) := by
  unfold setMediumUnit
  simp only [hu, h p hp, Bool.not_false, require_true, Exec.ok_bind, Exec.pure_eq]
  rfl

theorem clearMediumUnit_ok (h : Mirror d) (hp : p < 256) (hu : bitmapGet d.bitmapUp p = true) :
    clearMediumUnit d p = .ok (d.unmark p) := by
  unfold clearMediumUnit
  simp only [hu, h p hp, require_true, Exec.ok_bind, Exec.pure_eq]
  rfl

theorem getMediumUnit_ok (h : Mirror d) (hp : p < 256) :
    getMediumUnit d p = .ok (bitmapGet d.bitmapUp p) := by
  unfold getMediumUnit
  simp only [h p hp, beq_self_eq_true, require_true, Exec.ok_bind, Exec.pure_eq]

theorem Mirror.mark (h : Mirror d) (hp : p < 256) : Mirror (d.mark p) := by
  intro q hq
  show bitmapGet (bitmapSet _ _) _ = bitmapGet (bitmapSet _ _) _
  rw [bitmapGet_set, bitmapGet_set, h q hq]
  congr 1
  exact decide_eq_decide.mpr (by omega)

theorem Mirror.unmark (h : Mirror d) (hp : p < 256) : Mirror (d.unmark p) := by
  intro q hq
  show bitmapGet (bitmapClear _ _) _ = bitmapGet (bitmapClear _ _) _
  rw [bitmapGet_clear, bitmapGet_clear, h q hq]
  congr 2
  exact decide_eq_decide.mpr (by omega)

theorem findNextMediumUnit_first (d : ChunkMediumDetial) (hp : p < 256) :
    ∃ r, findNextMediumUnit d p = .ok r ∧ FirstIn (bitmapGet d.bitmapUp) p 256 256 r :=
  bitmapFfsp_first d.bitmapUp hp (by omega)

theorem findPrevMediumUnit_last (h : Mirror d) (hp : p < 256) :
    ∃ r, findPrevMediumUnit d p = .ok r ∧ LastIn (bitmapGet d.bitmapUp) p 256 r := by
  obtain ⟨q, hrun, hfirst⟩ := bitmapFfsp_first d.bitmapDown (n := 255 - p) (b := 256) (by omega)
    (by omega)
  exact ⟨if q ≠ 256 then 255 - q else 256, by rw [findPrevMediumUnit, hrun]; rfl, hfirst.reflect hp h⟩

end Marks

/-- **On mirrored bitmaps** the two searches find the nearest marks on either side of a page, the
one at the page included, and a mark that is set or cleared leaves the bitmaps mirrored. -/
theorem medium_marks {d : ChunkMediumDetial} (h : Mirror d) {p : Nat} (hp : p < 256) :
    (∃ r, findNextMediumUnit d p = .ok r ∧ FirstIn (bitmapGet d.bitmapUp) p 256 256 r) ∧
    (∃ r, findPrevMediumUnit d p = .ok r ∧ LastIn (bitmapGet d.bitmapUp) p 256 r) ∧
    (bitmapGet d.bitmapUp p = false → ∃ d', setMediumUnit d p = .ok d' ∧ Mirror d' ∧
      bitmapGet d'.bitmapUp = Function.update (bitmapGet d.bitmapUp) p true) ∧
    (bitmapGet d.bitmapUp p = true → ∃ d', clearMediumUnit d p = .ok d' ∧ Mirror d' ∧
      bitmapGet d'.bitmapUp = Function.update (bitmapGet d.bitmapUp) p false) ∧
    (bitmapGet d.bitmapUp p = true → setMediumUnit d p = .error .assertion) ∧
    (bitmapGet d.bitmapUp p = false → clearMediumUnit d p = .error .assertion) := by
  refine ⟨findNextMediumUnit_first d hp, findPrevMediumUnit_last h hp, fun hu => ?_, fun hu => ?_,
    fun hu => ?_, fun hu => ?_⟩
  · exact ⟨_, setMediumUnit_ok h hp hu, h.mark hp, bitmapGet_set_eq ..⟩
  · exact ⟨_, clearMediumUnit_ok h hp hu, h.unmark hp, bitmapGet_clear_eq ..⟩
  · rw [setMediumUnit, hu]
    rfl
  · rw [clearMediumUnit, hu]
    rfl

/-- Marks at pages 1, 63, 64 and 255, and the same counted from the other end. -/
def markedChunk : ChunkMediumDetial :=
  (((zeroMedium.mark 1).mark 63).mark 64).mark 255

theorem medium_marks_test : findNextMediumUnit markedChunk 65 = .ok 255 ∧
    findPrevMediumUnit markedChunk 254 = .ok 64 ∧
    (∃ r, findPrevMediumUnit markedChunk 0 = .ok r ∧ LastIn (bitmapGet markedChunk.bitmapUp) 0 256 r) ∧
    ∃ d', setMediumUnit markedChunk 0 = .ok d' ∧ Mirror d' := by
  have h₀ : Mirror zeroMedium := fun p _ => BitVec.getLsbD_zero.trans BitVec.getLsbD_zero.symm
  have hm : Mirror markedChunk := (((h₀.mark (p := 1) (by decide)).mark (p := 63) (by decide)).mark
    (p := 64) (by decide)).mark (p := 255) (by decide)
  obtain ⟨-, hprev, hset, -⟩ := medium_marks hm (p := 0) (by decide)
  obtain ⟨d', hrun, hm', -⟩ := hset (by decide)
  exact ⟨by decide, by decide, hprev, d', hrun, hm'⟩

theorem addMediumUnit_ok {d : ChunkMediumDetial} {l : List Nat} {index : Nat} (size : Nat)
    (hm : Mirror d) (h : Holds mediumMacros d.tree l) (hi₀ : index ≠ 0) (hi : index < 256)
    (hu : bitmapGet d.bitmapUp index = false) (hn : index ∉ l) :
    ∃ t a b, addMediumUnit d size index = .ok ((d.setTree t).mark index) ∧ l = a ++ b ∧
      Holds mediumMacros t (a ++ index :: b) ∧ (t.heap index).v = ⟨size, index⟩ ∧
      (∀ q, q ≠ index → (t.heap q).v = (d.tree.heap q).v) ∧
      (∀ q, q ∉ index :: l → t.heap q = d.tree.heap q) ∧
      (∀ q ∈ a.getLast?, mediumTreeCompare (d.tree.heap q).v ⟨size, index⟩ < 0) := by
  have hcell : (d.tree.modify index (setUnit size index)).heap index =
      setUnit size index (d.tree.heap index) := Rbtree.modify_heap_self ..
  obtain ⟨t, a, b, hrun, hab, hholds, hk, ha, -⟩ := Rbtree.insert_holds
    (h.modify hn (setUnit size index)) hn hi₀ (by rw [hcell]; rfl)
  have hother : ∀ q, q ≠ index →
      (d.tree.modify index (setUnit size index)).heap q = d.tree.heap q := fun q hq =>
    Rbtree.modify_heap_ne hq
  refine ⟨t, a, b, ?_, hab, hholds, ?_, fun q hq => ?_, fun q hq => ?_, fun q hq => ?_⟩
  · unfold addMediumUnit
    rw [hrun, Exec.ok_bind]
    exact setMediumUnit_ok hm hi hu
  · rw [hk.key, hcell]
    rfl
  · rw [hk.key, hother q hq]
  · rw [hk.outside q hq, hother q fun e => hq (e ▸ List.mem_cons_self)]
  · have := ha q hq
    have hne : q ≠ index := by
      rintro rfl
      exact hn (by rw [hab]; exact List.mem_append_left _ (List.mem_of_getLast? hq))
    rw [hother q hne, hcell] at this
    exact this

/-! ### Taking a unit -/

namespace Layout
variable {d : ChunkMediumDetial} {l : List Nat}

theorem own (h : Layout d l) {p : Nat} (hp : p ∈ l) : (d.tree.heap p).s = p := h.holds.own hp

theorem freeSize_le (h : Layout d l) : d.freeSize ≤ 255 := by
  rw [h.freeSize]
  exact h.parts.sum_le

/-- The layout does not depend on the nodes outside the tree, nor on `max_size`. -/
theorem congr {d' : ChunkMediumDetial} (h : Layout d l) (hu : d'.bitmapUp = d.bitmapUp)
    (hd : d'.bitmapDown = d.bitmapDown) (ht : d'.bitmapType = d.bitmapType)
    (hr : d'.tree.root = d.tree.root) (hn : d'.tree.size = d.tree.size)
    (hf : d'.freeSize = d.freeSize) (e : ∀ q ∈ l, d'.tree.heap q = d.tree.heap q) :
    Layout d' l where
  parts := by
    rw [hu, ht]
    exact h.parts.congr (List.Perm.refl l) fun q hq => by rw [unitSize, e q hq, unitSize]
  apart p q ha := h.apart p q (ha.mono (fun _ hr => hr) fun r hr => by rw [unitSize, e r hr, unitSize])
  mirror := h.mirror.congr hu hd
  holds := h.holds.congr e hr hn
  index p hp := by rw [e p hp, h.index p hp]
  freeSize := by
    rw [hf, h.freeSize, List.map_congr_left fun q hq => by rw [unitSize, ← e q hq, ← unitSize]]

end Layout

/-- What `malloc_chunk_medium` does to the units: `size` pages of the free unit `n` are
used, and what is left of it comes after the units that compare less. -/
structure Taken (d : ChunkMediumDetial) (l : List Nat) (n size : Nat) (d' : ChunkMediumDetial)
    (l' : List Nat) : Prop where
  pos : 0 < size
  layout : Layout d' l'
  gone : n ∉ l'
  used : ∀ q m, UsedUnit d' q m ↔ UsedUnit d q m ∨ q = n ∧ m = size
  outside : ∀ q, q ∉ l → (size < unitSize d n → q ≠ n + size) → d'.tree.heap q = d.tree.heap q
  list : l' = l.erase n ∧ size = unitSize d n ∨ size < unitSize d n ∧ ∃ a b, l = a ++ b ∧
    l' = (a ++ (n + size) :: b).erase n ∧ unitSize d' (n + size) = unitSize d n - size ∧
    ∀ q ∈ a.getLast?, mediumTreeCompare (d.tree.heap q).v ⟨unitSize d n - size, n + size⟩ < 0
  sizes : ∀ q ∈ l', q ≠ n + size → unitSize d' q = unitSize d q

/-- The nodes that may be written: those of the tree, and that of what is left. -/
def TakenNode (d : ChunkMediumDetial) (l : List Nat) (n size q : Nat) : Prop :=
  q ∈ l ∨ size < unitSize d n ∧ q = n + size

theorem Taken.node {d d' : ChunkMediumDetial} {l l' : List Nat} {n size q : Nat} (h : Taken d l n size d' l')
    (hq : d'.tree.heap q ≠ d.tree.heap q) : TakenNode d l n size q := by
  by_contra hno
  unfold TakenNode at hno
  rw [not_or] at hno
  exact hq (h.outside q hno.1 fun hlt he => hno.2 ⟨hlt, he⟩)

/-- The units in use after one more of `size` pages at `n`, if the others keep their ends. -/
theorem usedUnit_take {d d' : ChunkMediumDetial} {n size : Nat}
    (ht : bitmapGet d'.bitmapType = Function.update (bitmapGet d.bitmapType) n true)
    (hsub : ∀ p, bitmapGet d.bitmapType p = true → bitmapGet d.bitmapUp p = true ∧ p < 256)
    (hfree : bitmapGet d.bitmapType n = false)
    (hn : Segment (bitmapGet d'.bitmapUp) 256 n size)
    (hother : ∀ q m, q ≠ n → Segment (bitmapGet d.bitmapUp) 256 q m →
      Segment (bitmapGet d'.bitmapUp) 256 q m) (q m : Nat) :
    UsedUnit d' q m ↔ UsedUnit d q m ∨ q = n ∧ m = size := by
  unfold UsedUnit
  rw [ht]
  by_cases e : q = n
  · subst e
    rw [Function.update_self, hfree]
    constructor
    · rintro ⟨-, hs⟩
      exact .inr ⟨rfl, hs.unique hn⟩
    · rintro (⟨h, -⟩ | ⟨-, rfl⟩)
      · cases h
      · exact ⟨rfl, hn⟩
  · rw [Function.update_of_ne e]
    constructor
    · rintro ⟨hq, hs⟩
      obtain ⟨hup, hlt⟩ := hsub q hq
      obtain ⟨k, hk⟩ := Segment.of_mark hup hlt
      rw [hs.unique (hother q k e hk)]
      exact .inl ⟨hq, hk⟩
    · rintro (⟨hq, hs⟩ | ⟨h, -⟩)
      · exact ⟨hq, hother q m e hs⟩
      · exact absurd h e

/-- Neither clearing the node of the unit nor the new `max_size` matters to the units. -/
theorem Taken.clear {d d' d'' : ChunkMediumDetial} {l l' : List Nat} {n size : Nat}
    (h : Taken d l n size d' l') (hn : n ∈ l) (h₀ : 0 < size) (hu : d''.bitmapUp = d'.bitmapUp)
    (hd : d''.bitmapDown = d'.bitmapDown) (ht : d''.bitmapType = d'.bitmapType)
    (hf : d''.freeSize = d'.freeSize) (htree : d''.tree = d'.tree.modify n (setUnit 0 0)) :
    Taken d l n size d'' l' := by
  have hkeep : ∀ q, q ≠ n → d''.tree.heap q = d'.tree.heap q := fun q hq => by
    rw [htree, Rbtree.modify_heap_ne hq]
  have hne : ∀ q ∈ l', q ≠ n := by
    rintro q hq rfl
    exact h.gone hq
  have hsize : ∀ q, q ≠ n → unitSize d'' q = unitSize d' q := fun q hq => by
    rw [unitSize, hkeep q hq, unitSize]
  refine ⟨h₀, h.layout.congr hu hd ht ?_ ?_ hf fun q hq => hkeep q (hne q hq), h.gone, fun q m => ?_,
    fun q hq hq' => ?_, ?_, fun q hq hq' => ?_⟩
  · rw [htree]
    rfl
  · rw [htree]
    rfl
  · rw [← h.used, UsedUnit, UsedUnit, hu, ht]
  · rw [hkeep q (by rintro rfl; exact hq hn), h.outside q hq hq']
  · rw [hsize (n + size) (by omega)]
    exact h.list
  · rw [hsize q (hne q hq), h.sizes q hq hq']

section Take
variable {d : ChunkMediumDetial} {l : List Nat} {n size : Nat}

theorem Layout.used_up (h : Layout d l) (p : Nat) (hp : bitmapGet d.bitmapType p = true) :
    bitmapGet d.bitmapUp p = true ∧ p < 256 := by
  have hup := h.parts.sub p hp
  exact ⟨hup, (h.parts.range p hup).2⟩

/-- No unit begins inside a free one. -/
theorem Layout.inside (h : Layout d l) (hn : n ∈ l) (h₀ : 0 < size) (hlt : size < unitSize d n) :
    bitmapGet d.bitmapUp (n + size) = false ∧ n + size ∉ l := by
  have hnew : bitmapGet d.bitmapUp (n + size) = false :=
    (h.parts.segment n hn).inside _ (by omega) (by omega)
  refine ⟨hnew, fun hm => ?_⟩
  have := ((h.parts.mem _).mp hm).1
  rw [hnew] at this
  cases this

/-- The free pages after `size` of them have gone from the unit `n`. -/
theorem Layout.freeSize_sub (h : Layout d l) (hn : n ∈ l) (hle : size ≤ unitSize d n) :
    (d.freeSize + 2 ^ 16 - size) % 2 ^ 16 =
      (unitSize d n - size) + ((l.erase n).map (unitSize d)).sum := by
  have hsum := List.sum_map_erase (unitSize d) hn
  rw [← h.freeSize] at hsum
  have hmax := h.freeSize_le
  omega

/-- The rest of a unit that is split goes into the tree as a unit of its own. -/
theorem Layout.split_run (h : Layout d l) (hn : n ∈ l) (h₀ : 0 < size) (hlt : size < unitSize d n) :
    ∃ t a b, splitMediumUnit d n size = .ok ((d.setTree t).mark (n + size)) ∧ l = a ++ b ∧
      Holds mediumMacros t (a ++ (n + size) :: b) ∧
      (t.heap (n + size)).v = ⟨unitSize d n - size, n + size⟩ ∧
      (∀ q, q ≠ n + size → (t.heap q).v = (d.tree.heap q).v) ∧
      (∀ q, q ∉ (n + size) :: l → t.heap q = d.tree.heap q) ∧
      (∀ q ∈ a.getLast?,
        mediumTreeCompare (d.tree.heap q).v ⟨unitSize d n - size, n + size⟩ < 0) := by
  have hend := (h.parts.segment n hn).le
  have hsize : (d.tree.heap n).v.size = unitSize d n := rfl
  have hindex := h.index n hn
  obtain ⟨hnew, hout⟩ := h.inside hn h₀ hlt
  obtain ⟨t, a, b, hadd, hrest⟩ := addMediumUnit_ok (unitSize d n - size) h.mirror h.holds
    (by omega) (by omega) hnew hout
  refine ⟨t, a, b, ?_, hrest⟩
  unfold splitMediumUnit
  simp only [hsize, hindex]
  rw [if_pos hlt, decide_eq_true (by omega), require_true, Exec.ok_bind, hadd]

/-- A unit that is larger than what is asked for. -/
theorem Layout.take_split (h : Layout d l) (hn : n ∈ l) (h₀ : 0 < size) (hlt : size < unitSize d n) :
    ∃ d₁ t l', splitMediumUnit d n size = .ok d₁ ∧ Rbtree.delete mediumMacros d₁.tree n = .ok t ∧
      d₁.maxSize = d.maxSize ∧ Taken d l n size {d₁.setTree t with
        bitmapType := bitmapSet d₁.bitmapType n,
        freeSize := (d₁.freeSize + 2 ^ 16 - size) % 2 ^ 16} l' := by
  have hseg := h.parts.segment n hn
  obtain ⟨-, hnotin⟩ := h.inside hn h₀ hlt
  have hfresh : ∀ q ∈ l, q ≠ n + size := by
    rintro q hq rfl
    exact hnotin hq
  obtain ⟨t₁, a, b, hsplit, hab, hholds₁, hv, hother, hout, hbefore⟩ := h.split_run hn h₀ hlt
  have hn₁ : n ∈ a ++ (n + size) :: b := by
    rw [hab] at hn
    exact List.perm_middle.mem_iff.mpr (List.mem_cons_of_mem _ hn)
  obtain ⟨t, hdel, hholds, hk⟩ := Rbtree.delete_holds hholds₁ hn₁
  have hne : n + size ≠ n := by omega
  have herase : ((n + size) :: l).erase n = (n + size) :: l.erase n :=
    List.erase_cons_tail (by simpa using hne)
  have hperm : ((a ++ (n + size) :: b).erase n).Perm ((n + size) :: l.erase n) := by
    have hmid : (a ++ (n + size) :: b).Perm ((n + size) :: l) := by
      rw [hab]
      exact List.perm_middle
    rw [← herase]
    exact hmid.erase n
  have hsizes : ∀ q, q ≠ n + size → (t.heap q).v = (d.tree.heap q).v := fun q hq => by
    rw [hk.key, hother q hq]
  have hold : ∀ q ∈ l.erase n, (t.heap q).v.size = unitSize d q := fun q hq => by
    rw [hsizes q (hfresh q (List.mem_of_mem_erase hq))]
    rfl
  have hlen : ∀ q ∈ (n + size) :: l.erase n, (t.heap q).v.size = Function.update
      (Function.update (unitSize d) n size) (n + size) (unitSize d n - size) q := by
    intro q hq
    rcases List.mem_cons.mp hq with rfl | hq
    · rw [hk.key, hv, Function.update_self]
    · obtain ⟨hqn, hql⟩ := h.parts.nodup.mem_erase_iff.mp hq
      rw [hold q hq, Function.update_of_ne (hfresh q hql), Function.update_of_ne hqn]
  have hparts := (h.parts.split hn h₀ hlt).take (List.mem_cons_of_mem _ hn)
  rw [herase] at hparts
  refine ⟨(d.setTree t₁).mark (n + size), t, _, hsplit, hdel, rfl, ⟨h₀, ⟨?_, fun p q ha => ?_, ?_,
    hholds, fun p hp => ?_, ?_⟩, ?_, usedUnit_take ?_ h.used_up ((h.parts.mem n).mp hn).2 ?_ ?_,
    fun q hq hq' => ?_, .inr ⟨hlt, a, b, hab, rfl, ?_, hbefore⟩, fun q _ hq' => ?_⟩⟩
  · show Partition 1 256 (bitmapGet (bitmapSet _ _)) (bitmapGet (bitmapSet _ _)) _ _
    rw [bitmapGet_set_eq, bitmapGet_set_eq]
    exact hparts.congr hperm hlen
  · have ha' := ha.mono (l := (n + size) :: l.erase n) (fun r hr => hperm.mem_iff.mp hr)
      fun r hr => hlen r (hperm.mem_iff.mp hr)
    obtain ⟨r, hr⟩ := h.parts.split_adjacent hn h₀ hlt ha'
    exact h.apart r q hr
  · have hend := hseg.le
    exact (Mirror.mark (d := d.setTree t₁) h.mirror (p := n + size) (by omega)).congr rfl rfl
  · show (t.heap p).v.index = p
    rcases List.mem_cons.mp (hperm.mem_iff.mp hp) with rfl | hp
    · rw [hk.key, hv]
    · have hpl := List.mem_of_mem_erase hp
      rw [hsizes p (hfresh p hpl), h.index p hpl]
  · show (d.freeSize + 2 ^ 16 - size) % 2 ^ 16 = List.sum (List.map (fun q => (t.heap q).v.size) _)
    rw [(hperm.map _).sum_eq, List.map_cons, List.sum_cons, List.map_congr_left hold, hk.key, hv]
    exact h.freeSize_sub hn hlt.le
  · intro hm
    rcases List.mem_cons.mp (hperm.mem_iff.mp hm) with e | hm
    · exact hne e.symm
    · exact h.parts.nodup.not_mem_erase hm
  · exact bitmapGet_set_eq ..
  · show Segment (bitmapGet (bitmapSet _ _)) 256 n size
    rw [bitmapGet_set_eq]
    exact hseg.split_left h₀ hlt
  · intro q m hq hs
    show Segment (bitmapGet (bitmapSet _ _)) 256 q m
    rw [bitmapGet_set_eq]
    exact hseg.split_other hs hq hlt
  · have hq' := hq' hlt
    rw [← hout q (by simp [hq, hq'])]
    exact hk.outside q (by rw [List.perm_middle.mem_iff, ← hab]; simp [hq, hq'])
  · show (t.heap (n + size)).v.size = _
    rw [hk.key, hv]
  · exact congrArg MediumTreeValue.size (hsizes q hq')

/-- A unit that fits exactly. -/
theorem Layout.take_fit (h : Layout d l) (hn : n ∈ l) (hsize : size = unitSize d n) :
    ∃ t, splitMediumUnit d n size = .ok d ∧ Rbtree.delete mediumMacros d.tree n = .ok t ∧
      Taken d l n size {d.setTree t with
        bitmapType := bitmapSet d.bitmapType n,
        freeSize := (d.freeSize + 2 ^ 16 - size) % 2 ^ 16} (l.erase n) := by
  have hseg := h.parts.segment n hn
  obtain ⟨t, hdel, hholds, hk⟩ := Rbtree.delete_holds h.holds hn
  have hv : ∀ q, (t.heap q).v.size = unitSize d q := fun q => by rw [hk.key]; rfl
  refine ⟨t, if_neg (by rw [hsize]; exact Nat.lt_irrefl _), hdel, ⟨by rw [hsize]; exact hseg.pos,
    ⟨?_, fun p q ha => ?_, h.mirror.congr rfl rfl, hholds, fun p hp => ?_, ?_⟩,
    h.parts.nodup.not_mem_erase,
    usedUnit_take (bitmapGet_set_eq ..) h.used_up ((h.parts.mem n).mp hn).2 ?_ fun _ _ _ hs => hs,
    fun q hq _ => hk.outside q hq, .inl ⟨rfl, hsize⟩, fun q _ _ => hv q⟩⟩
  · show Partition 1 256 _ (bitmapGet (bitmapSet _ _)) _ _
    rw [bitmapGet_set_eq]
    exact (h.parts.take hn).congr (List.Perm.refl _) fun q _ => hv q
  · exact h.apart p q (ha.mono (fun r hr => List.mem_of_mem_erase hr) fun r _ => hv r)
  · exact (congrArg MediumTreeValue.index (hk.key p)).trans (h.index p (List.mem_of_mem_erase hp))
  · show (d.freeSize + 2 ^ 16 - size) % 2 ^ 16 = List.sum (List.map (fun q => (t.heap q).v.size) _)
    rw [List.map_congr_left (g := unitSize d) fun q _ => hv q, h.freeSize_sub hn hsize.le, hsize,
      Nat.sub_self, Nat.zero_add]
  · rw [hsize]
    exact hseg

theorem Layout.take (h : Layout d l) (hn : n ∈ l) (h₀ : 0 < size) (hle : size ≤ unitSize d n) :
    ∃ d₁ t l', splitMediumUnit d n size = .ok d₁ ∧ Rbtree.delete mediumMacros d₁.tree n = .ok t ∧
      d₁.maxSize = d.maxSize ∧ Taken d l n size {d₁.setTree t with
        bitmapType := bitmapSet d₁.bitmapType n,
        freeSize := (d₁.freeSize + 2 ^ 16 - size) % 2 ^ 16} l' := by
  rcases hle.lt_or_eq with hlt | heq
  · exact h.take_split hn h₀ hlt
  · obtain ⟨t, hsplit, hdel, htaken⟩ := h.take_fit hn heq
    exact ⟨d, t, _, hsplit, hdel, rfl, htaken⟩

end Take

end ShmMalloc
