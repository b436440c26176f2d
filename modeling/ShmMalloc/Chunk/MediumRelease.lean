import ShmMalloc.Chunk.MediumLayout

/-! Giving back a unit of a medium chunk: `free_chunk_medium` up to the new free unit.

The unit's bits go first, then those of a free neighbour on either side, and the bits of
the merged unit are set last. In between the chunk is `Pending`. -/
namespace ShmMalloc
open Library
open Rbtree (Holds Keeps)

/-! ### Neighbours -/

section Neighbours
variable {d : ChunkMediumDetial} {mark : Nat → Bool} {p n : Nat}

/-- Without its own mark, the next mark is the end of the unit. -/
theorem findNextMediumUnit_ok (hup : bitmapGet d.bitmapUp = Function.update mark p false)
    (hs : Segment mark 256 p n) : findNextMediumUnit d p = .ok (p + n) := by
  have hle := hs.le
  have hpos := hs.pos
  obtain ⟨r, hrun, hfirst⟩ := findNextMediumUnit_first d (p := p) (by omega)
  rw [hup] at hfirst
  have hend : p + n < 256 → mark (p + n) = true := fun hlt => hs.stop.resolve_left (by omega)
  obtain rfl : r = p + n := by
    rcases hfirst with ⟨h₁, h₂, h₃, h₄⟩ | ⟨h₁, h₂⟩
    · have hne : r ≠ p := by
        rintro rfl
        rw [Function.update_self] at h₃
        cases h₃
      rw [Function.update_of_ne hne] at h₃
      by_contra hne'
      rcases Nat.lt_or_gt_of_ne hne' with hlt | hlt
      · rw [hs.inside r (by omega) hlt] at h₃
        cases h₃
      · have := h₄ (p + n) (by omega) hlt
        rw [Function.update_of_ne (by omega), hend (by omega)] at this
        cases this
    · by_contra hne
      have := h₂ (p + n) (by omega) (by omega)
      rw [Function.update_of_ne (by omega), hend (by omega)] at this
      cases this
  exact hrun

/-- The previous mark, if there is one, starts the unit before. -/
theorem findPrevMediumUnit_ok (hm : Mirror d)
    (hup : bitmapGet d.bitmapUp = Function.update mark p false) (hs : Segment mark 256 p n) :
    ∃ r, findPrevMediumUnit d p = .ok r ∧
      (r = 256 ∧ (∀ j < p, mark j = false) ∨ r < p ∧ Segment mark 256 r (p - r)) := by
  have hle := hs.le
  have hpos := hs.pos
  obtain ⟨r, hrun, hlast⟩ := findPrevMediumUnit_last hm (p := p) (by omega)
  rw [hup] at hlast
  refine ⟨r, hrun, ?_⟩
  have hbefore : ∀ j < p, Function.update mark p false j = mark j :=
    fun j hj => Function.update_of_ne (by omega) ..
  rcases hlast with ⟨h₁, h₂, h₃⟩ | ⟨h₁, h₂⟩
  · have hne : r ≠ p := by
      rintro rfl
      rw [Function.update_self] at h₂
      cases h₂
    have hlt : r < p := by omega
    rw [hbefore r hlt] at h₂
    refine .inr ⟨hlt, h₂, by omega, by omega, fun j hj₁ hj₂ => ?_, .inr ?_⟩
    · rw [← hbefore j (by omega)]
      exact h₃ j hj₁ (by omega)
    · rw [show r + (p - r) = p by omega]
      exact hs.start
  · refine .inl ⟨h₁, fun j hj => ?_⟩
    rw [← hbefore j hj]
    exact h₂ j (by omega)

end Neighbours

/-! ### Merging -/

theorem mergeMediumUnit_used {d : ChunkMediumDetial} {q : Nat}
    (h : q = 256 ∨ bitmapGet d.bitmapType q = true) (unit : MediumTreeValue) (index : Nat) :
    mergeMediumUnit d q unit index = .ok (d, unit) := by
  unfold mergeMediumUnit
  rw [if_neg (by rcases h with h | h <;> simp [h])]
  rfl

theorem mergeMediumUnit_free {d : ChunkMediumDetial} {l : List Nat} {q size p index : Nat}
    (hm : Mirror d) (h : Holds mediumMacros d.tree l) (hq : q ∈ l) (hlt : q < 256)
    (hup : bitmapGet d.bitmapUp q = true) (hfree : bitmapGet d.bitmapType q = false)
    (hsize : unitSize d q ≠ 0) (hsum : size + unitSize d q < 2 ^ 16) :
    ∃ t, mergeMediumUnit d q ⟨size, p⟩ index =
        .ok (clearMediumNode ((d.setTree t).unmark q) q, ⟨size + unitSize d q, index⟩) ∧
      Holds mediumMacros t (l.erase q) ∧ Keeps l d.tree t := by
  obtain ⟨t, hdel, hholds, hk⟩ := Rbtree.delete_holds h hq
  refine ⟨t, ?_, hholds, hk⟩
  have hown := h.own hq
  have hmod : (size + unitSize d q) % 2 ^ 16 = size + unitSize d q := Nat.mod_eq_of_lt hsum
  unfold unitSize at hsize hmod ⊢
  unfold mergeMediumUnit
  rw [if_pos (by simp [hfree]; omega)]
  simp only [hown, decide_true, decide_eq_true hsize, Bool.and_self, require_true, Exec.ok_bind, hdel,
    hmod]
  rw [clearMediumUnit_ok (d := d.setTree t) hm hlt hup]
  rfl

/-- While the unit of `m` pages at `p₀` of a chunk in state `d₀` is given back: it has
grown to `n` pages at `p`, and is not in the tree or marked yet. -/
structure Pending (d₀ : ChunkMediumDetial) (l₀ : List Nat) (p₀ m : Nat) (d : ChunkMediumDetial)
    (l : List Nat) (mark : Nat → Bool) (p n : Nat) : Prop where
  parts : Partition 1 256 mark (bitmapGet d.bitmapType) (p :: l) (Function.update (unitSize d) p n)
  up : bitmapGet d.bitmapUp = Function.update mark p false
  mirror : Mirror d
  holds : Holds mediumMacros d.tree l
  type : bitmapGet d.bitmapType = Function.update (bitmapGet d₀.bitmapType) p₀ false
  freeSize : d.freeSize = d₀.freeSize
  maxSize : d.maxSize = d₀.maxSize
  sum : (l.map (unitSize d)).sum + n = (l₀.map (unitSize d₀)).sum + m
  kept : ∀ q ∈ l, q ∈ l₀ ∧ (d.tree.heap q).v = (d₀.tree.heap q).v
  lost : ∀ q ∈ l₀, q ∈ l ∨ unitSize d₀ q < n
  used : ∀ q k, UsedUnit d₀ q k → q ≠ p₀ → Segment mark 256 q k
  place : p = p₀ ∨ p ∈ l₀
  outside : ∀ q, q ∉ l₀ → d.tree.heap q = d₀.tree.heap q

theorem Layout.pending {d : ChunkMediumDetial} {l : List Nat} {p m : Nat} (h : Layout d l)
    (hu : UsedUnit d p m) :
    Pending d l p m {d.unmark p with bitmapType := bitmapClear d.bitmapType p} l
      (bitmapGet d.bitmapUp) p m where
  parts := by
    show Partition 1 256 _ (bitmapGet (bitmapClear _ _)) _ _
    rw [bitmapGet_clear_eq]
    exact h.parts.release hu.1 hu.2
  up := bitmapGet_clear_eq ..
  mirror := h.mirror.unmark (h.parts.range p hu.2.start).2
  holds := h.holds
  type := bitmapGet_clear_eq ..
  freeSize := rfl
  maxSize := rfl
  sum := rfl
  kept q hq := ⟨hq, rfl⟩
  lost q hq := .inl hq
  used q k hq _ := hq.2
  place := .inl rfl
  outside _ _ := rfl

namespace Pending
variable {d₀ d : ChunkMediumDetial} {l₀ l : List Nat} {p₀ m p n : Nat} {mark : Nat → Bool}

theorem segment (P : Pending d₀ l₀ p₀ m d l mark p n) : Segment mark 256 p n := by
  have := P.parts.segment p List.mem_cons_self
  rwa [Function.update_self] at this

theorem not_mem (P : Pending d₀ l₀ p₀ m d l mark p n) : p ∉ l :=
  (List.nodup_cons.mp P.parts.nodup).1

theorem nodup (P : Pending d₀ l₀ p₀ m d l mark p n) : l.Nodup :=
  (List.nodup_cons.mp P.parts.nodup).2

theorem len (P : Pending d₀ l₀ p₀ m d l mark p n) {q : Nat} (hq : q ∈ l) :
    Function.update (unitSize d) p n q = unitSize d q := by
  refine Function.update_of_ne ?_ ..
  rintro rfl
  exact P.not_mem hq

/-- A free neighbour `q` is taken out; `p'` is the start of the two together. -/
theorem absorb (P : Pending d₀ l₀ p₀ m d l mark p n) {q p' : Nat} {mark' : Nat → Bool} (hq : q ∈ l)
    (hparts : Partition 1 256 mark' (bitmapGet d.bitmapType) (p' :: l.erase q)
      (Function.update (unitSize d) p' (n + unitSize d q)))
    (hup : Function.update (Function.update mark p false) q false = Function.update mark' p' false)
    (hused : ∀ r k, r ≠ p → r ≠ q → Segment mark 256 r k → Segment mark' 256 r k)
    (hplace : p' = p ∨ p' = q) :
    ∃ d', mergeMediumUnit d q ⟨n, p⟩ p' = .ok (d', ⟨n + unitSize d q, p'⟩) ∧
      Pending d₀ l₀ p₀ m d' (l.erase q) mark' p' (n + unitSize d q) := by
  have hqseg := P.parts.segment q (List.mem_cons_of_mem p hq)
  rw [P.len hq] at hqseg
  obtain ⟨hqmark, hqfree⟩ := (P.parts.mem q).mp (List.mem_cons_of_mem p hq)
  have hqp : q ≠ p := by
    rintro rfl
    exact P.not_mem hq
  have hlt := (P.parts.range q hqmark).2
  have hle := (hparts.segment p' List.mem_cons_self).le
  rw [Function.update_self] at hle
  have hqup : bitmapGet d.bitmapUp q = true := by rw [P.up, Function.update_of_ne hqp, hqmark]
  obtain ⟨t, hrun, hholds, hk⟩ := mergeMediumUnit_free (p := p) P.mirror
    P.holds hq hlt hqup hqfree (by have := hqseg.pos; omega) (show n + unitSize d q < 2 ^ 16 by omega)
  have hkeep : ∀ r, r ≠ q → (clearMediumNode ((d.setTree t).unmark q) q).tree.heap r = t.heap r :=
    fun r hr => Rbtree.modify_heap_ne hr
  have hv : ∀ r ∈ l.erase q, ((clearMediumNode ((d.setTree t).unmark q) q).tree.heap r).v =
      (d.tree.heap r).v := by
    intro r hr
    rw [hkeep r (P.nodup.mem_erase_iff.mp hr).1, hk.key]
  have hsize : ∀ r ∈ l.erase q, unitSize (clearMediumNode ((d.setTree t).unmark q) q) r =
      unitSize d r := fun r hr => congrArg MediumTreeValue.size (hv r hr)
  refine ⟨_, hrun, ⟨?_, ?_, ?_, ?_, P.type, P.freeSize, P.maxSize, ?_, fun r hr => ?_, fun r hr => ?_,
    fun r k hr hne => ?_, ?_, fun r hr => ?_⟩⟩
  · refine hparts.congr (List.Perm.refl _) fun r hr => ?_
    by_cases e : r = p'
    · rw [e, Function.update_self, Function.update_self]
    · rw [Function.update_of_ne e, Function.update_of_ne e]
      exact hsize r ((List.mem_cons.mp hr).resolve_left e)
  · show bitmapGet (bitmapClear _ _) = _
    rw [bitmapGet_clear_eq]
    show Function.update (bitmapGet d.bitmapUp) q false = _
    rw [P.up, hup]
  · exact Mirror.unmark (d := d.setTree t) P.mirror hlt
  · refine hholds.congr (fun r hr => hkeep r (P.nodup.mem_erase_iff.mp hr).1) rfl rfl
  · have := List.sum_map_erase (unitSize d) hq
    have hsum := P.sum
    rw [List.map_congr_left (l := l.erase q) (g := unitSize d) hsize]
    omega
  · obtain ⟨h₁, h₂⟩ := P.kept r (List.mem_of_mem_erase hr)
    exact ⟨h₁, (hv r hr).trans h₂⟩
  · by_cases e : r = q
    · have : unitSize d₀ q = unitSize d q := congrArg MediumTreeValue.size (P.kept q hq).2.symm
      have := P.segment.pos
      subst e
      exact .inr (by omega)
    · rcases P.lost r hr with h | h
      · exact .inl (P.nodup.mem_erase_iff.mpr ⟨e, h⟩)
      · exact .inr (by omega)
  · have htype : bitmapGet d.bitmapType r = true := by
      rw [P.type, Function.update_of_ne hne]
      exact hr.1
    have hnot : r ∉ p :: l := fun hm => by
      rw [((P.parts.mem r).mp hm).2] at htype
      cases htype
    rw [List.mem_cons, not_or] at hnot
    refine hused r k hnot.1 ?_ (P.used r k hr hne)
    rintro rfl
    exact hnot.2 hq
  · rcases hplace with rfl | rfl
    · exact P.place
    · exact .inr (P.kept _ hq).1
  · have hrl : r ∉ l := fun h => hr (P.kept r h).1
    rw [hkeep r (by rintro rfl; exact hrl hq), hk.outside r hrl, P.outside r hr]

/-- The units that stay have kept their sizes. -/
theorem sizes_eq {d' : ChunkMediumDetial} {l' : List Nat} {mark' : Nat → Bool} {p' n' : Nat}
    (P : Pending d₀ l₀ p₀ m d l mark p n) (P' : Pending d₀ l₀ p₀ m d' l' mark' p' n')
    (hsub : ∀ x ∈ l', x ∈ l) : ∀ x ∈ p' :: l',
      Function.update (unitSize d') p' n' x = Function.update (unitSize d) p' n' x := by
  intro x hx
  by_cases e : x = p'
  · rw [e, Function.update_self, Function.update_self]
  · rw [Function.update_of_ne e, Function.update_of_ne e]
    have hx' : x ∈ l' := (List.mem_cons.mp hx).resolve_left e
    have h₁ := (P'.kept x hx').2
    have h₂ := (P.kept x (hsub x hx')).2
    exact congrArg MediumTreeValue.size (h₁.trans h₂.symm)

/-- A unit that is not free is in use. -/
theorem type_of_mark (P : Pending d₀ l₀ p₀ m d l mark p n) {q : Nat} (hq : mark q = true)
    (hp : q ≠ p) (hl : q ∉ l) : bitmapGet d.bitmapType q = true := by
  by_contra hfree
  have hmem := (P.parts.mem q).mpr ⟨hq, Bool.eq_false_iff.mpr hfree⟩
  exact (List.mem_cons.mp hmem).elim hp hl

/-- The next unit is merged if it is free; then only the unit before can be free. -/
theorem next (P : Pending d₀ l₀ p₀ m d l mark p n)
    (ha : ∀ r s, Adjacent (p :: l) (Function.update (unitSize d) p n) r s → r = p ∨ s = p) :
    ∃ d' l' mark' n', mergeMediumUnit d (p + n) ⟨n, p⟩ p = .ok (d', ⟨n', p⟩) ∧
      Pending d₀ l₀ p₀ m d' l' mark' p n' ∧
      ∀ r s, Adjacent (p :: l') (Function.update (unitSize d') p n') r s → s = p := by
  have hs := P.segment
  have hle := hs.le
  have hpos := hs.pos
  have hlenp : Function.update (unitSize d) p n p = n := Function.update_self ..
  have hne : p + n ≠ p := by omega
  by_cases hq : p + n ∈ l
  · have hadj : Adjacent (p :: l) (Function.update (unitSize d) p n) p (p + n) :=
      ⟨List.mem_cons_self, List.mem_cons_of_mem _ hq, by rw [hlenp]⟩
    have herase : (p :: l).erase (p + n) = p :: l.erase (p + n) :=
      List.erase_cons_tail (by simpa using Ne.symm hne)
    have hjoin := P.parts.join hadj
    rw [herase, hlenp, P.len hq, Function.update_idem] at hjoin
    obtain ⟨d', hrun, P'⟩ := P.absorb hq hjoin (Function.update_comm hne.symm ..)
      (fun r k h₁ h₂ hr => hs.join_other hr h₁ h₂) (.inl rfl)
    refine ⟨d', _, _, _, hrun, P', fun r s hrs => ?_⟩
    have hrs' : Adjacent ((p :: l).erase (p + n)) (Function.update (Function.update (unitSize d) p n) p
        (Function.update (unitSize d) p n p + Function.update (unitSize d) p n (p + n))) r s := by
      rw [herase, hlenp, P.len hq, Function.update_idem]
      exact hrs.mono (fun x hx => hx) (P.sizes_eq P' fun x => List.mem_of_mem_erase)
    rcases P.parts.join_adjacent hadj hrs' with ⟨h₁, -, h₂⟩ | ⟨-, h₂⟩
    · exact (ha r s h₂).resolve_left h₁
    · exact (ha _ s h₂).resolve_left hne
  · refine ⟨d, l, mark, n, mergeMediumUnit_used ?_ _ _, P, fun r s hrs => ?_⟩
    · exact hs.stop.imp id fun h => P.type_of_mark h hne hq
    · rcases ha r s hrs with rfl | rfl
      · have := hrs.eq
        rw [hlenp] at this
        have hmem := hrs.right
        rw [← this, List.mem_cons] at hmem
        exact hmem.elim (fun e => by omega) fun h => absurd h hq
      · rfl

/-- The previous unit, if it is free, takes in the one that is given back. -/
theorem prev_free (P : Pending d₀ l₀ p₀ m d l mark p n) {q : Nat}
    (ha : ∀ r s, Adjacent (p :: l) (Function.update (unitSize d) p n) r s → s = p)
    (hql : q ∈ l) (hlt : q < p) (hqp : Segment mark 256 q (p - q)) :
    ∃ d' n', mergeMediumUnit d q ⟨n, p⟩ q = .ok (d', ⟨n', q⟩) ∧ ∃ l' mark',
      Pending d₀ l₀ p₀ m d' l' mark' q n' ∧
      ∀ r s, ¬Adjacent (q :: l') (Function.update (unitSize d') q n') r s := by
  have hs := P.segment
  have hlenp : Function.update (unitSize d) p n p = n := Function.update_self ..
  have hqmem : q ∈ p :: l := List.mem_cons_of_mem p hql
  have hqseg := P.parts.segment q hqmem
  rw [P.len hql] at hqseg
  have hlen : q + unitSize d q = p := by
    have := hqseg.unique hqp
    omega
  have hadj : Adjacent (p :: l) (Function.update (unitSize d) p n) q p :=
    ⟨hqmem, List.mem_cons_self, by rw [P.len hql, hlen]⟩
  have hjoin := P.parts.join hadj
  rw [List.erase_cons_head, hlenp, P.len hql] at hjoin
  have hlen' : ∀ x ∈ q :: l.erase q, Function.update (unitSize d) q (n + unitSize d q) x =
      Function.update (Function.update (unitSize d) p n) q (unitSize d q + n) x := by
    intro x hx
    by_cases e : x = q
    · rw [e, Function.update_self, Function.update_self, Nat.add_comm]
    · rw [Function.update_of_ne e, Function.update_of_ne e,
        P.len (List.mem_of_mem_erase ((List.mem_cons.mp hx).resolve_left e))]
  have hperm : (q :: l.erase q).Perm l := (List.perm_cons_erase hql).symm
  obtain ⟨d', hrun, P'⟩ := P.absorb hql
    (hjoin.congr hperm fun x hx => hlen' x (hperm.mem_iff.mpr hx)) rfl
    (fun r k h₁ h₂ hr => by
      have := hqseg.join_other hr h₂ (by rw [hlen]; exact h₁)
      rwa [hlen] at this) (.inr rfl)
  refine ⟨d', _, hrun, _, _, P', fun r s hrs => ?_⟩
  have hrs' : Adjacent ((p :: l).erase p) (Function.update (Function.update (unitSize d) p n) q
      (Function.update (unitSize d) p n q + Function.update (unitSize d) p n p)) r s := by
    rw [List.erase_cons_head, hlenp, P.len hql]
    refine hrs.mono (fun x hx => hperm.mem_iff.mp hx) fun x hx => ?_
    rw [← hlen' x hx]
    exact P.sizes_eq P' (fun x => List.mem_of_mem_erase) x hx
  rcases P.parts.join_adjacent hadj hrs' with ⟨-, h₁, h₂⟩ | ⟨-, h₂⟩
  · exact h₁ (ha r s h₂)
  · have := h₂.eq
    rw [hlenp] at this
    have := hs.pos
    have := ha p s h₂
    omega

/-- No free unit ends at `p` if the one before it is not free. -/
theorem prev_used (P : Pending d₀ l₀ p₀ m d l mark p n) {q r : Nat} (hql : q ∉ l)
    (hq : q = 256 ∧ (∀ k < p, mark k = false) ∨ q < p ∧ Segment mark 256 q (p - q)) :
    ¬Adjacent (p :: l) (Function.update (unitSize d) p n) r p := by
  intro hrp
  have hrseg := P.parts.segment r hrp.left
  have hend := hrp.eq
  have hpos := hrseg.pos
  have hr : r ∈ l := (List.mem_cons.mp hrp.left).resolve_left fun e => by omega
  rcases hq with ⟨-, hnone⟩ | ⟨hlt, hseg⟩
  · have := hnone r (by omega)
    rw [hrseg.start] at this
    cases this
  · by_cases e : r = q
    · exact hql (e ▸ hr)
    · have := hrseg.disjoint hseg e
      omega

/-- The previous unit is merged if it is free; then no free units are next to each other. -/
theorem prev (P : Pending d₀ l₀ p₀ m d l mark p n)
    (ha : ∀ r s, Adjacent (p :: l) (Function.update (unitSize d) p n) r s → s = p) :
    ∃ q d' l' mark' p' n', findPrevMediumUnit d p = .ok q ∧
      mergeMediumUnit d q ⟨n, p⟩ q = .ok (d', ⟨n', p'⟩) ∧
      Pending d₀ l₀ p₀ m d' l' mark' p' n' ∧
      ∀ r s, ¬Adjacent (p' :: l') (Function.update (unitSize d') p' n') r s := by
  obtain ⟨q, hfind, hq⟩ := findPrevMediumUnit_ok P.mirror P.up P.segment
  by_cases hql : q ∈ l
  · have hrange := P.parts.range q ((P.parts.mem q).mp (List.mem_cons_of_mem p hql)).1
    obtain ⟨hlt, hqp⟩ := hq.resolve_left fun h => by omega
    obtain ⟨d', n', hrun, l', mark', P', hnone⟩ := P.prev_free ha hql hlt hqp
    exact ⟨q, d', l', mark', q, n', hfind, hrun, P', hnone⟩
  · have hused : mergeMediumUnit d q ⟨n, p⟩ q = .ok (d, ⟨n, p⟩) := by
      refine mergeMediumUnit_used ?_ _ _
      exact hq.imp And.left fun h => P.type_of_mark h.2.start h.1.ne hql
    refine ⟨q, d, l, mark, p, n, hfind, hused, P, fun r s hrs => ?_⟩
    obtain rfl : p = s := (ha r s hrs).symm
    exact P.prev_used hql hq hrs

end Pending

/-- What `free_chunk_medium` does to the units: the unit at `p` is not used any more,
and it is part of the free unit of `n` pages at `index`. -/
structure Released (d : ChunkMediumDetial) (l : List Nat) (p : Nat) (d' : ChunkMediumDetial)
    (l' : List Nat) (index n : Nat) : Prop where
  layout : Layout d' l'
  used : ∀ q m, UsedUnit d' q m ↔ UsedUnit d q m ∧ q ≠ p
  outside : ∀ q, q ∉ l → q ≠ p → d'.tree.heap q = d.tree.heap q
  new : index ∈ l' ∧ unitSize d' index = n
  kept : ∀ q ∈ l', q = index ∨ q ∈ l ∧ unitSize d' q = unitSize d q
  lost : ∀ q ∈ l, q ∈ l' ∧ unitSize d' q = unitSize d q ∨ unitSize d q < n

theorem Released.setMax {d d' : ChunkMediumDetial} {l l' : List Nat} {p index n : Nat}
    (h : Released d l p d' l' index n) (k : Nat) :
    Released d l p {d' with maxSize := k} l' index n :=
  ⟨h.layout.congr rfl rfl rfl rfl rfl rfl fun _ _ => rfl, h.used, h.outside, h.new, h.kept, h.lost⟩

/-- The merged unit goes into the tree, and its bits are set. -/
theorem Pending.finish {d₀ d : ChunkMediumDetial} {l₀ l : List Nat} {p₀ m p n : Nat}
    {mark : Nat → Bool} (P : Pending d₀ l₀ p₀ m d l mark p n) (h₀ : Layout d₀ l₀)
    (hu : UsedUnit d₀ p₀ m)
    (ha : ∀ r s, ¬Adjacent (p :: l) (Function.update (unitSize d) p n) r s) :
    ∃ d' l', addMediumUnit d n p = .ok d' ∧ d'.maxSize = d₀.maxSize ∧
      Released d₀ l₀ p₀ {d' with freeSize := (d'.freeSize + m) % 2 ^ 16} l' p n := by
  have hs := P.segment
  have hrange := P.parts.range p hs.start
  obtain ⟨t, a, b, hrun, rfl, hholds, hv, hother, hout, -⟩ := addMediumUnit_ok n P.mirror P.holds
    (by omega) hrange.2 (by rw [P.up, Function.update_self]) P.not_mem
  have hperm : (a ++ p :: b).Perm (p :: (a ++ b)) := List.perm_middle
  have hsizes : ∀ q, (t.heap q).v.size = Function.update (unitSize d) p n q := by
    intro q
    by_cases e : q = p
    · rw [e, hv, Function.update_self]
    · rw [hother q e, Function.update_of_ne e]
      rfl
  have hup : bitmapGet (bitmapSet d.bitmapUp p) = mark := by
    rw [bitmapGet_set_eq, P.up, Function.update_idem, ← hs.start, Function.update_eq_self]
  have hsum := P.sum
  have hfit := h₀.parts.sum_add_le hu.1 hu.2
  have hnew : p ∈ a ++ p :: b := List.mem_append_right _ List.mem_cons_self
  have hkept : ∀ q ∈ a ++ p :: b, q = p ∨ q ∈ l₀ ∧ (t.heap q).v = (d₀.tree.heap q).v := by
    intro q hq
    by_cases e : q = p
    · exact .inl e
    · obtain ⟨h₁, h₂⟩ := P.kept q ((List.mem_cons.mp (hperm.mem_iff.mp hq)).resolve_left e)
      exact .inr ⟨h₁, (hother q e).trans h₂⟩
  refine ⟨_, a ++ p :: b, hrun, P.maxSize, ⟨⟨?_, fun r s hrs => ?_, ?_, hholds, fun q hq => ?_, ?_⟩,
    fun q k => ?_, fun q hq hne => ?_, ⟨hnew, congrArg MediumTreeValue.size hv⟩, fun q hq => ?_,
    fun q hq => ?_⟩⟩
  · show Partition 1 256 (bitmapGet (bitmapSet d.bitmapUp p)) _ _ _
    rw [hup]
    exact P.parts.congr hperm fun q _ => hsizes q
  · exact ha r s (hrs.mono (fun q hq => hperm.mem_iff.mp hq) fun q _ => hsizes q)
  · exact Mirror.mark (d := d.setTree t) P.mirror hrange.2
  · show (t.heap q).v.index = q
    rcases hkept q hq with rfl | ⟨h₁, h₂⟩
    · rw [hv]
    · rw [h₂, h₀.index q h₁]
  · show (d.freeSize + m) % 2 ^ 16 = List.sum (List.map (fun q => (t.heap q).v.size) _)
    rw [(hperm.map _).sum_eq, List.map_congr_left fun q _ => hsizes q, List.map_cons, List.sum_cons,
      Function.update_self, P.freeSize, h₀.freeSize,
      List.map_congr_left (g := unitSize d) fun q hq => P.len hq]
    omega
  · unfold UsedUnit
    show bitmapGet d.bitmapType q = true ∧ Segment (bitmapGet (bitmapSet d.bitmapUp p)) 256 q k ↔ _
    rw [hup, P.type]
    by_cases e : q = p₀
    · rw [e, Function.update_self]
      simp
    · rw [Function.update_of_ne e]
      refine ⟨fun ⟨hq, hk⟩ => ⟨⟨hq, ?_⟩, e⟩, fun ⟨hq, _⟩ => ⟨hq.1, P.used q k hq e⟩⟩
      have hmark := h₀.parts.sub q hq
      obtain ⟨k', hk'⟩ := Segment.of_mark hmark (h₀.parts.range q hmark).2
      rwa [hk.unique (P.used q k' ⟨hq, hk'⟩ e)]
  · have hqp : q ≠ p := by
      rintro rfl
      rcases P.place with h | h
      · exact hne h
      · exact hq h
    have hqab : q ∉ a ++ b := fun h => hq (P.kept q h).1
    show t.heap q = _
    rw [hout q (by rw [List.mem_cons, not_or]; exact ⟨hqp, hqab⟩), P.outside q hq]
  · rcases hkept q hq with e | ⟨h₁, h₂⟩
    · exact .inl e
    · exact .inr ⟨h₁, congrArg MediumTreeValue.size h₂⟩
  · rcases P.lost q hq with h | h
    · have hne : q ≠ p := by
        rintro rfl
        exact P.not_mem h
      exact .inl ⟨hperm.mem_iff.mpr (List.mem_cons_of_mem _ h),
        congrArg MediumTreeValue.size ((hother q hne).trans (P.kept q h).2)⟩
    · exact .inr h

/-- What the two searches load when a unit is given back: the one for the next unit leaves its
bitmap when the unit is the last one, the one for the previous unit when it is the first. -/
theorem Layout.release_loads {d : ChunkMediumDetial} {l : List Nat} {p m : Nat} (h : Layout d l)
    (hu : UsedUnit d p m) :
    (∃ words r, bitmapFfspLoads (d.unmark p).bitmapUp p 256 = .ok (words, r) ∧
      ((∀ i ∈ words, i < bits2groups 256) ↔ p + m < 256)) ∧
    ∃ words r, bitmapFfspLoads (d.unmark p).bitmapDown (255 - p) 256 = .ok (words, r) ∧
      ((∀ i ∈ words, i < bits2groups 256) ↔ 1 < p) := by
  have hp := h.parts.range p hu.2.start
  have hup : bitmapGet (d.unmark p).bitmapUp = Function.update (bitmapGet d.bitmapUp) p false :=
    bitmapGet_clear_eq ..
  refine ⟨⟨_, _, bitmapFfspLoads_run _ hp.2, ?_⟩, ⟨_, _, bitmapFfspLoads_run _ (by omega), ?_⟩⟩
  · rw [ffspLoop_masked _ hp.2 (by omega), hup]
    constructor
    · rintro ⟨j, h₁, h₂, hset⟩
      have h₂ : j < 256 := h₂
      by_contra hend
      have hne : j ≠ p := by
        rintro rfl
        rw [Function.update_self] at hset
        cases hset
      rw [Function.update_of_ne hne, hu.2.inside j (by omega) (by omega)] at hset
      cases hset
    · intro hlt
      have hpos := hu.2.pos
      refine ⟨p + m, by omega, hlt, ?_⟩
      rw [Function.update_of_ne (by omega)]
      exact hu.2.stop.resolve_left (by omega)
  · have hm := h.mirror.unmark hp.2
    rw [ffspLoop_masked _ (by omega) (by omega)]
    constructor
    · rintro ⟨j, h₁, h₂, hset⟩
      have h₂ : j < 256 := h₂
      have hj := hm (255 - j) (by omega)
      rw [show 255 - (255 - j) = j by omega, hset, hup] at hj
      have hne : 255 - j ≠ p := by
        intro e
        rw [e, Function.update_self] at hj
        cases hj
      rw [Function.update_of_ne hne] at hj
      have := h.parts.range _ hj.symm
      omega
    · intro hlt
      refine ⟨254, by omega, by decide, ?_⟩
      rw [hm 1 (by decide), hup, Function.update_of_ne (by omega)]
      exact h.parts.first

/-- The calls of `free_chunk_medium` on the units, for a unit in use. -/
theorem Layout.release {d : ChunkMediumDetial} {l : List Nat} {p m : Nat} (h : Layout d l)
    (hu : UsedUnit d p m) :
    ∃ d₁ u₁ prev d₂ u₂ d₃ l',
      clearMediumUnit d p = .ok (d.unmark p) ∧
      findNextMediumUnit {d.unmark p with bitmapType := bitmapClear d.bitmapType p} p = .ok (p + m) ∧
      mergeMediumUnit {d.unmark p with bitmapType := bitmapClear d.bitmapType p} (p + m) ⟨m, p⟩ p =
        .ok (d₁, u₁) ∧
      findPrevMediumUnit d₁ p = .ok prev ∧
      mergeMediumUnit d₁ prev u₁ prev = .ok (d₂, u₂) ∧
      addMediumUnit d₂ u₂.size u₂.index = .ok d₃ ∧ d₃.maxSize = d.maxSize ∧
      Released d l p {d₃ with freeSize := (d₃.freeSize + m) % 2 ^ 16} l' u₂.index u₂.size := by
  have P := h.pending hu
  have hadj : ∀ r s, Adjacent (p :: l) (Function.update (unitSize d) p m) r s → r = p ∨ s = p :=
    fun r s => Partition.release_adjacent h.apart
  obtain ⟨d₁, l₁, mark₁, n₁, hmerge₁, P₁, ha₁⟩ := P.next hadj
  obtain ⟨prev, d₂, l₂, mark₂, p₂, n₂, hprev, hmerge₂, P₂, ha₂⟩ := P₁.prev ha₁
  obtain ⟨d₃, l', hadd, hmax, hrel⟩ := P₂.finish h hu ha₂
  exact ⟨d₁, _, prev, d₂, _, d₃, l', clearMediumUnit_ok h.mirror (h.parts.range p hu.2.start).2 hu.2.start,
    findNextMediumUnit_ok P.up hu.2, hmerge₁, hprev, hmerge₂, hadd, hmax, hrel⟩

end ShmMalloc
