import ShmMalloc.Rbtree.FixDelete
import ShmMalloc.Rbtree.Search

/-! Deletion: the unlinking, and the whole call. -/
namespace ShmMalloc.Rbtree
open Library

variable {P K : Type} [DecidableEq P] {R : Macros P K}

/-! ### Unlinking -/

/-- A node with an empty side gives its place to its other subtree. -/
theorem deleteUnlink_rep {s : State P K} {d : Side} {c : Color} {y : P} {w : Tree P Color}
    {ctx : Context P Color} {e : Node P K} (h : Rep R s (Context.plug ctx (.join d c .nil y w)))
    (hes : e.s = R.null) (hec : e.color = .black) :
    ∃ s' x, deleteUnlink R s
        (if w.root R.null = R.null then .enode e else .node (w.root R.null)) y = (s', x) ∧
      Rep R s' (Context.plug ctx w) ∧ Points R x ctx w ∧ s'.size = s.size ∧
      s'.heap y = s.heap y ∧ Keeps (Context.plug ctx w).inorder s s' := by
  obtain ⟨hl, hroot, hnd⟩ := h
  obtain ⟨hl, hctx⟩ := linked_plug.mp hl
  obtain ⟨hy, -, hw⟩ := linked_join.mp hl
  rw [Tree.root_join] at hctx
  simp only [Context.nodup_plug, Tree.nodup_join, Tree.mem_inorder_join, Tree.inorder] at hnd
  have e₁ : (s.heap y).p = Context.parent R.null ctx := hy.parent
  have e₂ : (s.heap y).s = y := hy.own
  have hwm := Tree.root_mem R.null (t := w)
  let par := Context.parent R.null ctx
  let s₁ := setParent R s (w.root R.null) par
  let s' := relink s₁ (checkNode R par) y (w.root R.null)
  have hrun : ∃ x, deleteUnlink R s
      (if w.root R.null = R.null then .enode e else .node (w.root R.null)) y = (s', x) ∧
      Points R x ctx w := by
    cases w with
    | nil =>
      refine ⟨.enode (e.setP par), ?_, _, rfl, rfl, hec, hes⟩
      rw [Tree.root_nil, if_pos rfl]
      simp only [deleteUnlink, NodeRef.setP, NodeRef.read, e₁, e₂, s_setP, hes]
      simp only [s', s₁, setParent, Tree.root_nil, checkNode_null, par]
    | node cw wl q wr =>
      have hq := hw.1.ne
      have hqs : (s.heap q).s = q := hw.1.own
      have hqy : y ≠ q := fun he => hnd.1.2.2.2.1 (by simp [he, Tree.inorder])
      refine ⟨.node q, ?_, rfl⟩
      rw [Tree.root, if_neg hq]
      simp only [deleteUnlink, NodeRef.setP, NodeRef.read, modify_heap_ne hqy, modify_setP_s, e₁, e₂,
        hqs]
      simp only [s', s₁, setParent, Tree.root, checkNode_some hq, par]
  have hout : ∀ r, r ∉ Context.handles ctx → ¬(r = w.root R.null ∧ w.root R.null ≠ R.null) →
      s'.heap r = s.heap r := by
    intro r hr hrw
    rw [relink_heap, if_neg fun h => hr (checkNode_parent h), setParent_heap, if_neg hrw]
  have hk : Keeps (Context.plug ctx w).inorder s s' := by
    refine ((Keeps.refl _ s).setParent fun hne => ?_).relink fun q hq => ?_
    · exact (Context.mem_plug _ _ _).mpr (.inl (hwm hne))
    · exact (Context.mem_plug _ _ _).mpr (.inr (checkNode_parent hq))
  obtain ⟨x, hrun, hx⟩ := hrun
  refine ⟨s', x, hrun, ⟨linked_plug.mpr ⟨?_, ?_⟩, ?_, ?_⟩, hx, by simp [s', s₁], ?_, hk⟩
  · refine hw.reparent (by grind) (fun r hr hne => hout r (by grind) (by grind))
      (fun r hr hown => (hk.own r).trans hown) fun hne => ?_
    have hcell : s'.heap (w.root R.null) = (s.heap (w.root R.null)).setP par := by
      have hn := mt hw.root_eq_null.mp hne
      have := hwm hn
      rw [relink_heap, if_neg fun h => by have := checkNode_parent h; grind, setParent_heap,
        if_pos ⟨rfl, hn⟩]
    rw [hcell]
    exact ⟨rfl, rfl, fun d => child_setP ..⟩
  · refine relink_context hctx (by grind) (by grind) hy.ne fun r hr => ?_
    have : s₁.heap r = s.heap r := by
      rw [setParent_heap, if_neg]
      rintro ⟨rfl, hn⟩
      have := hwm hn
      grind
    rw [relink_heap, relink_heap, this]
  · have hctx₁ : LinkedContext view R.null s₁.heap R.null ctx y := by
      refine hctx.congr fun r hr => ?_
      rw [setParent_heap, if_neg]
      rintro ⟨rfl, hn⟩
      have := hwm hn
      grind
    exact relink_root hctx₁ (setParent_root.trans hroot)
  · simp only [Context.nodup_plug]
    grind
  · exact hout y (by grind) (by grind)

theorem NodeRef.setP_writes (s : State P K) (x : NodeRef P K) (y : P) :
    (∀ p, x ≠ .node p → (x.setP s y).1.heap p = s.heap p) ∧
      (∀ p, ((x.setP s y).1.heap p).setP y = (s.heap p).setP y) ∧
      (x.setP s y).1.root = s.root ∧ (x.setP s y).1.size = s.size ∧
      ∀ L : List P, (∀ p, x = .node p → p ∈ L) → Keeps L s (x.setP s y).1 := by
  cases x with
  | enode n => exact ⟨fun _ _ => rfl, fun _ => rfl, rfl, rfl, fun L _ => .refl L s⟩
  | node p =>
    refine ⟨fun r hr => modify_heap_ne fun he => hr (by rw [he]), fun r => ?_, rfl, rfl,
      fun L hL => (Keeps.refl L s).setP (hL p rfl) y⟩
    show (((s.modify p (Node.setP y)).heap r).setP y) = _
    by_cases hr : r = p
    · subst hr
      rw [modify_heap_self]
      rfl
    · rw [modify_heap_ne hr]

/-- What the replacement of `z` by `y` wrote, cell by cell. -/
structure Replaced (R : Macros P K) (s s' : State P K) (ctx : Context P Color) (c : Color)
    (l r : Tree P Color) (y z : P) : Prop where
  self : s'.heap y = ((((s.heap y).setColor c).setP (Context.parent R.null ctx)).setChild .left
    (l.root R.null)).setChild .right (r.root R.null)
  left : l.root R.null ≠ R.null → s'.heap (l.root R.null) = (s.heap (l.root R.null)).setP y
  right : r.root R.null ≠ R.null → s'.heap (r.root R.null) = (s.heap (r.root R.null)).setP y
  inside : ∀ p, p ∈ l.inorder ∨ p ∈ r.inorder → p ≠ l.root R.null → p ≠ r.root R.null →
    s'.heap p = s.heap p
  outside : ∀ p ∈ Context.handles ctx, s'.heap p =
    (relink s (checkNode R (Context.parent R.null ctx)) z y).heap p
  root : s'.root = (relink s (checkNode R (Context.parent R.null ctx)) z y).root
  size : s'.size = s.size
  keeps : Keeps (y :: (Context.plug ctx (.node c l z r)).inorder) s s'

/-- The writes of `deleteReplace` after the one at `x`; the node `z` has the colour `c`, the parent
`par` and the children `l` and `r`. -/
def moveUp (R : Macros P K) (s : State P K) (c : Color) (par l r y z : P) : State P K :=
  let s := relink (s.modify y (Node.setColor c)) (checkNode R par) z y
  let s := (s.modify y (Node.setP par)).modify z (Node.setP R.null)
  let s := setParent R s l y
  let s := (s.modify y (Node.setChild .left l)).modify z (Node.setChild .left R.null)
  let s := setParent R s r y
  (s.modify y (Node.setChild .right r)).modify z (Node.setChild .right R.null)

section MoveUp
variable {s : State P K} {c : Color} {par l r y z p : P}

theorem moveUp_other (hy : p ≠ y) (hz : p ≠ z) :
    (moveUp R s c par l r y z).heap p =
      (setParent R (setParent R (relink s (checkNode R par) z y) l y) r y).heap p := by
  have hmodify : ∀ (t : State P K) f g, ((t.modify y f).modify z g).heap p = t.heap p :=
    fun t f g => (modify_heap_ne hz).trans (modify_heap_ne hy)
  unfold moveUp
  dsimp only
  rw [hmodify]
  refine setParent_heap_congr ?_
  rw [hmodify]
  refine setParent_heap_congr ?_
  rw [hmodify, relink_heap, relink_heap, modify_heap_ne hy]

theorem moveUp_self (hz : y ≠ z) (hl : y ≠ l) (hr : y ≠ r) (hp : checkNode R par ≠ some y) :
    (moveUp R s c par l r y z).heap y =
      ((((s.heap y).setColor c).setP par).setChild .left l).setChild .right r := by
  have hl : ¬(y = l ∧ l ≠ R.null) := fun h => hl h.1
  have hr : ¬(y = r ∧ r ≠ R.null) := fun h => hr h.1
  unfold moveUp
  rw [modify_heap_ne hz, modify_heap_self, setParent_heap, if_neg hr,
    modify_heap_ne hz, modify_heap_self, setParent_heap, if_neg hl,
    modify_heap_ne hz, modify_heap_self, relink_heap, if_neg hp, modify_heap_self]

theorem moveUp_root : (moveUp R s c par l r y z).root = (relink s (checkNode R par) z y).root := by
  simp only [moveUp, modify_root, setParent_root]
  cases checkNode R par <;> rfl

theorem moveUp_size : (moveUp R s c par l r y z).size = s.size := by simp [moveUp]

theorem moveUp_keeps {L : List P} {s₀ : State P K} (k : Keeps L s₀ s) (hy : y ∈ L) (hz : z ∈ L)
    (hp : ∀ q, checkNode R par = some q → q ∈ L) (hl : l ≠ R.null → l ∈ L)
    (hr : r ≠ R.null → r ∈ L) : Keeps L s₀ (moveUp R s c par l r y z) := by
  have k₀ : Keeps L s₀ (relink (s.modify y (Node.setColor c)) (checkNode R par) z y) :=
    (k.setColor hy c).relink hp
  have k₁ := (k₀.setP hy par).setP hz R.null
  have k₂ := ((k₁.setParent hl (p := y)).setChild hy .left l).setChild hz .left R.null
  exact ((k₂.setParent hr (p := y)).setChild hy .right r).setChild hz .right R.null

/-- Nothing that `deleteReplace` reads at `z` has changed by the time it is read. -/
theorem deleteReplace_eq {s₁ : State P K} {x x₁ : NodeRef P K}
    (h : (if (s.heap y).p = z then x.setP s y else (s, x)) = (s₁, x₁)) (hys : (s.heap y).s = y)
    (hzs : (s.heap z).s = z) (hy : s₁.heap y = s.heap y) (hz : s₁.heap z = s.heap z) (hzy : z ≠ y)
    (hl : z ≠ (s.heap z).left) (hr : z ≠ (s.heap z).right) (hp : checkNode R (s.heap z).p ≠ some z) :
    deleteReplace R s x y z =
      (moveUp R s₁ (s.heap z).color (s.heap z).p (s.heap z).left (s.heap z).right y z, x₁) := by
  have hrel : ∀ t : State P K, (relink t (checkNode R (s.heap z).p) z y).heap z = t.heap z :=
    fun t => by rw [relink_heap, if_neg hp]
  have hset : ∀ (t : State P K) q, z ≠ q → (setParent R t q y).heap z = t.heap z :=
    fun t q hq => by rw [setParent_heap, if_neg fun h => hq h.1]
  unfold deleteReplace
  simp only [hzs, hys, h]
  simp only [modify_setChild_s, modify_setP_s, setParent_s, relink_s, hy, hys, hrel, hset _ _ hl,
    hset _ _ hr, modify_heap_self, modify_heap_ne hzy, hz, hzs, s_setColor, Node.setP, Node.setChild]
  rfl

end MoveUp

/-- `x->p = y->s`, the first write of `deleteReplace`, if it is made. -/
theorem NodeRef.setP_if (R : Macros P K) {s : State P K} {x : NodeRef P K} {y z r : P} {L : List P}
    (hx : (s.heap y).p = z → ∀ q, x = .node q → q = r ∧ q ≠ R.null) (hr : r ≠ R.null → r ∈ L) :
    ∃ s₁, (if (s.heap y).p = z then x.setP s y else (s, x)) =
        (s₁, if (s.heap y).p = z then (x.setP s y).2 else x) ∧
      (∀ p, ¬(p = r ∧ r ≠ R.null) → s₁.heap p = s.heap p) ∧
      (∀ p, (s₁.heap p).setP y = (s.heap p).setP y) ∧
      s₁.root = s.root ∧ s₁.size = s.size ∧ Keeps L s s₁ := by
  by_cases hp : (s.heap y).p = z
  · obtain ⟨hout, hsetP, hroot, hsize, hk⟩ := NodeRef.setP_writes s x y
    refine ⟨_, by rw [if_pos hp, if_pos hp], fun p hpr => hout p fun hxp => ?_, hsetP, hroot, hsize,
      hk L fun q hq => ?_⟩
    · obtain ⟨rfl, hn⟩ := hx hp p hxp
      exact hpr ⟨rfl, hn⟩
    · obtain ⟨rfl, hn⟩ := hx hp q hq
      exact hr hn
  · exact ⟨s, by rw [if_neg hp, if_neg hp], fun _ _ => rfl, fun _ => rfl, rfl, rfl, .refl L s⟩

theorem deleteReplace_writes {s : State P K} {c : Color} {y z : P} {l r : Tree P Color}
    {ctx : Context P Color} {x : NodeRef P K} (h : Rep R s (Context.plug ctx (.node c l z r)))
    (hy : y ∉ (Context.plug ctx (.node c l z r)).inorder) (hyn : y ≠ R.null) (hys : (s.heap y).s = y)
    (hx : (s.heap y).p = z → ∀ q, x = .node q → q = r.root R.null ∧ q ≠ R.null) :
    ∃ s', deleteReplace R s x y z =
        (s', if (s.heap y).p = z then (x.setP s y).2 else x) ∧
      Replaced R s s' ctx c l r y z := by
  obtain ⟨hl, -, hnd⟩ := h
  obtain ⟨⟨hz, hl, hr⟩, hctx⟩ := linked_plug.mp hl
  have hlm := Tree.root_mem R.null (t := l)
  have hrm := Tree.root_mem R.null (t := r)
  have mem : ∀ q, q ∈ y :: (Context.plug ctx (.node c l z r)).inorder ↔
      q = y ∨ q ∈ l.inorder ∨ q = z ∨ q ∈ r.inorder ∨ q ∈ Context.handles ctx := by
    intro q
    rw [List.mem_cons, Context.mem_plug, Tree.node_eq_join, Tree.mem_inorder_join, or_assoc, or_assoc]
  have my := (mem y).mpr (.inl rfl)
  have mz := (mem z).mpr (.inr (.inr (.inl rfl)))
  rw [Context.mem_plug] at hy
  rw [Context.nodup_plug] at hnd
  rw [Tree.node_eq_join] at hy hnd
  simp only [Tree.nodup_join, Tree.mem_inorder_join] at hy hnd
  have e₁ : (s.heap z).color = c := hz.tag
  let par := Context.parent R.null ctx
  have e₂ : (s.heap z).p = par := hz.parent
  have e₃ : (s.heap z).left = l.root R.null := hz.near
  have e₄ : (s.heap z).right = r.root R.null := hz.far
  have hpar : ∀ p, p ∉ Context.handles ctx → checkNode R par ≠ some p :=
    fun p hp he => hp (checkNode_parent he)
  have hzn : z ≠ R.null := hz.ne
  have hzl : z ≠ l.root R.null := by grind
  have hzr : z ≠ r.root R.null := by grind
  have hyl : y ≠ l.root R.null := by grind
  have hyr : y ≠ r.root R.null := by grind
  obtain ⟨s₁, hs₁, hout, hsetP, hroot, hsize, hk⟩ :=
    NodeRef.setP_if R hx fun hn => (mem _).mpr (by simp [hrm hn])
  have hy₁ : s₁.heap y = s.heap y := hout y (by grind)
  have hrun := deleteReplace_eq hs₁ hys hz.own hy₁ (hout z (by grind)) (by grind)
    (by rwa [e₃]) (by rwa [e₄]) (by rw [e₂]; exact hpar z (by grind))
  rw [e₁, e₂, e₃, e₄] at hrun
  have hcell : ∀ p, p ∉ Context.handles ctx →
      (relink s₁ (checkNode R par) z y).heap p = s₁.heap p :=
    fun p hp => by rw [relink_heap, if_neg (hpar p hp)]
  refine ⟨_, hrun, ?_, fun hn => ?_, fun hn => ?_, fun p hp hpl hpr => ?_, fun p hp => ?_, ?_, ?_,
    moveUp_keeps hk my mz (fun q hq => (mem q).mpr (by simp [checkNode_parent hq]))
      (fun hn => (mem _).mpr (by simp [hlm hn])) fun hn => (mem _).mpr (by simp [hrm hn])⟩
  · rw [moveUp_self (by grind) hyl hyr (hpar y (by grind)), hy₁]
  · have hm := hlm hn
    rw [moveUp_other hyl.symm hzl.symm, setParent_heap, if_neg (by grind), setParent_heap,
      if_pos ⟨rfl, hn⟩, hcell _ (by grind), hsetP]
  · have hm := hrm hn
    rw [moveUp_other hyr.symm hzr.symm, setParent_heap, if_pos ⟨rfl, hn⟩, setParent_heap,
      if_neg (by grind), hcell _ (by grind), hsetP]
  · rw [moveUp_other (by grind) (by grind), setParent_heap, if_neg fun h => hpr h.1, setParent_heap,
      if_neg fun h => hpl h.1, hcell p (by grind), hout p fun h => hpr h.1]
  · rw [moveUp_other (by grind) (by grind), setParent_heap, if_neg (by grind), setParent_heap,
      if_neg (by grind), relink_heap, relink_heap, hout p (by grind)]
  · rw [moveUp_root]
    cases checkNode R par with
    | none => rfl
    | some p => exact hroot
  · rw [moveUp_size, hsize]

/-- A detached node takes the place of a node of the tree. -/
theorem Replaced.rep {s s' : State P K} {c : Color} {y z : P} {l r : Tree P Color}
    {ctx : Context P Color} (w : Replaced R s s' ctx c l r y z)
    (h : Rep R s (Context.plug ctx (.node c l z r)))
    (hy : y ∉ (Context.plug ctx (.node c l z r)).inorder) (hyn : y ≠ R.null)
    (hys : (s.heap y).s = y) : Rep R s' (Context.plug ctx (.node c l y r)) := by
  obtain ⟨hl, hroot, hnd⟩ := h
  obtain ⟨⟨hz, hl, hr⟩, hctx⟩ := linked_plug.mp hl
  have hlm := Tree.root_mem R.null (t := l)
  have hrm := Tree.root_mem R.null (t := r)
  rw [Context.mem_plug] at hy
  rw [Context.nodup_plug] at hnd
  rw [Tree.node_eq_join] at hy hnd
  simp only [Tree.nodup_join, Tree.mem_inorder_join] at hy hnd
  refine ⟨linked_plug.mpr ⟨⟨⟨hyn, ?_, ?_, ?_, ?_, ?_⟩, ?_, ?_⟩, ?_⟩, ?_, ?_⟩
  · simpa [w.self] using hys
  · simp [w.self]
  · simp [w.self]
  · simp [w.self, Node.setChild, Node.child]
  · simp [w.self, Node.setChild, Node.child, Side.other]
  · refine hl.reparent (by grind) (fun p hp hne => w.inside p (.inl hp) hne fun he => ?_)
      (fun p hp hown => (w.keeps.own p).trans hown) fun hne => ?_
    · have := hrm (by rw [← he]; exact hl.root_ne hp)
      grind
    · rw [w.left (mt hl.root_eq_null.mp hne)]
      exact ⟨rfl, rfl, fun d => child_setP ..⟩
  · refine hr.reparent (by grind) (fun p hp hne => w.inside p (.inr hp) (fun he => ?_) hne)
      (fun p hp hown => (w.keeps.own p).trans hown) fun hne => ?_
    · have := hlm (by rw [← he]; exact hr.root_ne hp)
      grind
    · rw [w.right (mt hr.root_eq_null.mp hne)]
      exact ⟨rfl, rfl, fun d => child_setP ..⟩
  · exact relink_context hctx (by grind) (by grind [Tree.root]) hz.ne w.outside
  · rw [w.root]
    exact relink_root (u := .node c l y r) hctx hroot
  · rw [Context.nodup_plug, Tree.node_eq_join, Tree.nodup_join]
    simp only [Tree.mem_inorder_join]
    grind

/-! ### The call -/

/-- `rbtree_delete` up to the repair: the tree, the pointer and the colour that decide on it. -/
def deleteStart (R : Macros P K) (s : State P K) (node : P) :
    Exec (State P K × NodeRef P K × Color) := do
  let s := {s with size := s.size - 1}
  let (y, px) ← deleteFind R s node
  let x : NodeRef P K := if px = R.null then .enode (enode R (s.heap node)) else .node px
  let (s, x) := deleteUnlink R s x y
  let color := (s.heap y).color
  let (s, x) := if y ≠ node then deleteReplace R s x y node else (s, x)
  return (s, x, color)

/-- `rbtree_delete`, with the states that the iterations of its loop start from. -/
def deleteTurns (R : Macros P K) (s : State P K) (node : P) :
    Exec (List (State P K × NodeRef P K) × State P K) := do
  let (s', x, color) ← deleteStart R s node
  if color = .black then (deleteLoop R).run .fuel (s.size + 1) (s', x) else return ([], s')

theorem delete_eq (s : State P K) (node : P) :
    delete R s node = deleteStart R s node >>= fun y =>
      if y.2.2 = .black then fixDelete R (s.size + 1) y.1 y.2.1 else .ok y.1 := by
  unfold deleteStart delete
  dsimp only
  cases deleteFind R {s with size := s.size - 1} node with
  | error e => rfl
  | ok y => rfl

theorem deleteTurns_snd (s : State P K) (node : P) :
    (deleteTurns R s node).map Prod.snd = delete R s node := by
  rw [delete_eq, deleteTurns]
  cases deleteStart R s node with
  | error e => rfl
  | ok y =>
    obtain ⟨s', x, c⟩ := y
    cases c with
    | red => rfl
    | black => exact (fixDelete_eq ..).symm

/-- What `deleteStart` leaves: a tree with a hole for `w`, at which `x` points, and which takes
`w` as it is, or is one black short, as the colour of the node that was unlinked tells. -/
structure Unlinked (R : Macros P K) (l : List P) (s s' : State P K) (x : NodeRef P K) (a : Color)
    (ctx : Context P Color) (w : Tree P Color) : Prop where
  rep : Rep R s' (Context.plug ctx w)
  points : Points R x ctx w
  balanced : ∃ k n, Balanced w k n ∧ (a = .red → k = .black ∧ Accepts ctx true n) ∧
    (a = .black → ∃ b, Accepts ctx b (n + 1))
  size : s'.size = (Context.plug ctx w).size
  keeps : Keeps l s s'

/-- A node with an empty side is unlinked itself. -/
theorem deleteStart_near {s : State P K} {d : Side} {c : Color} {z : P} {w : Tree P Color}
    {ctx : Context P Color} {m : Nat} (h : Rep R s (Context.plug ctx (.join d c .nil z w)))
    (hb : Balanced (Context.plug ctx (.join d c .nil z w)) .black m)
    (hsize : s.size = (Context.plug ctx (.join d c .nil z w)).size)
    (hfind : deleteFind R {s with size := s.size - 1} z = .ok (z, w.root R.null)) :
    ∃ s' x, deleteStart R s z = .ok (s', x, c) ∧
      Unlinked R (Context.plug ctx (.join d c .nil z w)).inorder s s' x c ctx w := by
  have hcolor : (s.heap z).color = c := h.isNode.tag
  let s₀ : State P K := {s with size := s.size - 1}
  have h₀ : Rep R s₀ (Context.plug ctx (.join d c .nil z w)) := ⟨h.linked, h.root, h.nodup⟩
  obtain ⟨s₁, x, hunlink, h₁, hx, hsize₁, hz, hk⟩ :=
    deleteUnlink_rep (e := enode R (s.heap z)) h₀ rfl rfl
  obtain ⟨b, k, n, hctx, ht, hk'⟩ := Accepts.of_plug hb
  obtain ⟨k', n', hw, hred, hblack⟩ := hctx.unlink ht hk'
  refine ⟨s₁, x, ?_, h₁, hx, ⟨k', n', hw, hred, fun hc => ⟨b, hblack hc⟩⟩, ?_,
    Keeps.mono ⟨hk.outside, hk.own, hk.key⟩ fun q hq => ?_⟩
  · have hc₁ : (s₁.heap z).color = c := by rw [hz]; exact hcolor
    have hn : ¬z ≠ z := not_not.mpr rfl
    unfold deleteStart
    simp only [hfind, Exec.ok_bind]
    rw [show deleteUnlink R {s with size := s.size - 1} _ z = (s₁, x) from hunlink]
    simp only [hn, if_false, hc₁, Exec.pure_eq]
  · have : s₁.size = s.size - 1 := hsize₁
    rw [this, hsize, Context.size_plug, Context.size_plug]
    cases d <;> simp only [Tree.join, Tree.size] <;> omega
  · rw [Context.mem_plug] at hq ⊢
    rw [Tree.mem_inorder_join]
    tauto

/-- The pointer to the successor's child, after the successor has moved up. -/
theorem Points.moved {s : State P K} {x : NodeRef P K} {ctx ctxr : Context P Color} {d : Side}
    {c : Color} {t l : Tree P Color} {p y z : P} (hx : Points R x (ctxr ++ ⟨d, c, z, l⟩ :: ctx) t)
    (hp : p = Context.parent z ctxr) (hz : z ∉ Context.handles ctxr) :
    Points R (if p = z then (x.setP s y).2 else x) (ctxr ++ ⟨d, c, y, l⟩ :: ctx) t := by
  subst hp
  cases t with
  | nil =>
    obtain ⟨n, rfl, hn, hc, hs⟩ := hx
    rw [Context.parent_append] at hn
    cases ctxr with
    | nil => exact ⟨n.setP y, if_pos rfl, rfl, hc, hs⟩
    | cons f rest =>
      have hne : f.handle ≠ z := by
        rintro rfl
        exact hz ((Context.mem_handles_cons _ _ _).mpr (.inl rfl))
      exact ⟨n, if_neg hne, hn, hc, hs⟩
  | node k tl q tr =>
    obtain rfl : x = .node q := hx
    show (if _ then _ else _) = _
    split <;> rfl

omit [DecidableEq P] in
/-- Where the successor hangs on the replaced node itself, the pointer is to a child of that. -/
theorem Points.child {h : P → Node P K} {x : NodeRef P K} {ctx ctxr : Context P Color}
    {t : Tree P Color} {par z : P} (hx : Points R x ctx t) (hp : Context.parent z ctxr = z)
    (hz : z ∉ Context.handles ctxr) (hl : Linked view R.null h par (Context.plug ctxr t)) :
    ∀ q, x = .node q → q = (Context.plug ctxr t).root R.null ∧ q ≠ R.null := by
  rintro q rfl
  cases ctxr with
  | cons f rest => exact absurd ((Context.mem_handles_cons _ _ _).mpr (.inl hp.symm)) hz
  | nil =>
    cases t with
    | nil =>
      obtain ⟨n, hn, -⟩ := hx
      cases hn
    | node k tl r tr =>
      obtain rfl : q = r := by
        cases hx
        rfl
      exact ⟨rfl, hl.1.ne⟩

/-- A node with two children is replaced by its successor, the first node on its right. -/
theorem deleteStart_far {s : State P K} {cz cy : Color} {y z : P} {l yr : Tree P Color}
    {ctx ctxr : Context P Color} {m : Nat}
    (h : Rep R s (Context.plug ctx (.node cz l z (Context.plug ctxr (.node cy .nil y yr)))))
    (hb : Balanced (Context.plug ctx (.node cz l z (Context.plug ctxr (.node cy .nil y yr)))) .black m)
    (hsize : s.size = (Context.plug ctx (.node cz l z (Context.plug ctxr (.node cy .nil y yr)))).size)
    (hfind : deleteFind R {s with size := s.size - 1} z = .ok (y, yr.root R.null)) :
    ∃ s' x, deleteStart R s z = .ok (s', x, cy) ∧
      Unlinked R (Context.plug ctx (.node cz l z (Context.plug ctxr (.node cy .nil y yr)))).inorder s s' x
        cy (ctxr ++ ⟨.right, cz, y, l⟩ :: ctx) yr := by
  let before : Context P Color := ctxr ++ ⟨.right, cz, z, l⟩ :: ctx
  let after : Context P Color := ctxr ++ ⟨.right, cz, y, l⟩ :: ctx
  have hbefore : ∀ t, Context.plug before t = Context.plug ctx (.node cz l z (Context.plug ctxr t)) :=
    fun t => by rw [Context.plug_append]; rfl
  have hafter : ∀ t, Context.plug after t = Context.plug ctx (.node cz l y (Context.plug ctxr t)) :=
    fun t => by rw [Context.plug_append]; rfl
  rw [← hbefore] at h hb hsize ⊢
  have hnd := h.nodup
  rw [hbefore, Context.nodup_plug, Tree.node_eq_join, Tree.nodup_join] at hnd
  simp only [Tree.mem_inorder_join, Context.mem_plug, Context.nodup_plug, Tree.inorder,
    List.nil_append, List.mem_cons] at hnd
  have hzr : z ∉ Context.handles ctxr := fun hm => hnd.1.2.2.2.1 (.inr hm)
  have hyz : y ≠ z := fun he => hnd.1.2.2.2.1 (.inl (.inl he.symm))
  have hycolor : (s.heap y).color = cy := (Rep.isNode (d := .left) h).tag
  have hyp : (s.heap y).p = Context.parent z ctxr :=
    (Rep.isNode (d := .left) h).parent.trans (Context.parent_append ..)
  have hyn : y ≠ R.null := (Rep.isNode (d := .left) h).ne
  have hys : (s.heap y).s = y := (Rep.isNode (d := .left) h).own
  let s₀ : State P K := {s with size := s.size - 1}
  have h₀ : Rep R s₀ (Context.plug before (.join .left cy .nil y yr)) := ⟨h.linked, h.root, h.nodup⟩
  obtain ⟨s₁, x, hunlink, h₁, hx, hsize₁, hy, hk₁⟩ :=
    deleteUnlink_rep (e := enode R (s.heap z)) h₀ rfl rfl
  have hy : s₁.heap y = s.heap y := hy
  -- `y` in the place of `z`
  rw [hbefore] at h₁ hk₁
  have hyout : y ∉ (Context.plug ctx (.node cz l z (Context.plug ctxr yr))).inorder := by
    rw [Context.mem_plug, Tree.node_eq_join, Tree.mem_inorder_join, Context.mem_plug]
    grind
  obtain ⟨s₂, hreplace, w⟩ := deleteReplace_writes (x := x) h₁ hyout hyn (by rw [hy]; exact hys)
    fun hp => by
      rw [hy, hyp] at hp
      exact hx.child hp hzr (linked_plug.mp h₁.linked).1.2.2
  have h₂ := w.rep h₁ hyout hyn (by rw [hy]; exact hys)
  have hx₂ := hx.moved (s := s₁) (y := y) (hy ▸ hyp : (s₁.heap y).p = _) hzr
  rw [← hafter] at h₂
  obtain ⟨b, k, n, hctx, ht, hk'⟩ := Accepts.of_plug hb
  obtain ⟨k', n', hw, hred, hblack⟩ := hctx.unlink (d := .left) ht hk'
  refine ⟨s₂, _, ?_, h₂, hx₂, ⟨k', n', hw, fun hc => (hred hc).imp_right Accepts.rename,
    fun hc => ⟨b, (hblack hc).rename⟩⟩, ?_, ?_⟩
  · have hc₁ : (s₁.heap y).color = cy := by rw [hy]; exact hycolor
    unfold deleteStart
    simp only [hfind, Exec.ok_bind]
    rw [show deleteUnlink R {s with size := s.size - 1} _ y = (s₁, x) from hunlink]
    simp only [hyz, ne_eq, not_false_eq_true, if_true, hreplace, hc₁, Exec.pure_eq]
  · have : s₁.size = s.size - 1 := hsize₁
    rw [w.size, this, hsize, hbefore]
    show _ = (Context.plug after yr).size
    rw [hafter]
    simp only [Context.size_plug, Tree.size]
    omega
  · have mem : ∀ q, q ∈ (Context.plug before (.node cy .nil y yr)).inorder ↔ q ∈ l.inorder ∨ q = z ∨
        (q = y ∨ q ∈ yr.inorder) ∨ q ∈ Context.handles ctxr ∨ q ∈ Context.handles ctx := by
      intro q
      rw [hbefore, Context.mem_plug, Tree.node_eq_join, Tree.mem_inorder_join, Context.mem_plug,
        Tree.inorder, Tree.inorder, List.nil_append, List.mem_cons, or_assoc, or_assoc, or_assoc]
    have k₁ : Keeps (Context.plug before (.node cy .nil y yr)).inorder s s₁ :=
      Keeps.mono ⟨hk₁.outside, hk₁.own, hk₁.key⟩ fun q hq => (mem q).mpr (by
        rw [Context.mem_plug, Tree.node_eq_join, Tree.mem_inorder_join, Context.mem_plug] at hq
        rcases hq with (hq | hq | hq | hq) | hq <;> simp [hq])
    refine k₁.trans (w.keeps.mono fun q hq => (mem q).mpr ?_)
    rw [List.mem_cons, Context.mem_plug, Tree.node_eq_join, Tree.mem_inorder_join,
      Context.mem_plug] at hq
    rcases hq with hq | (hq | hq | hq | hq) | hq <;> simp [hq]

/-- Every node of a tree can be unlinked, and what is left of it to repair is less deep than
the tree was. -/
theorem deleteStart_ok {s : State P K} {t : Tree P Color} {m : Nat} {z : P} (hrep : Rep R s t)
    (hbal : Balanced t .black m) (hsize : s.size = t.size) (hz : z ∈ t.inorder) :
    ∃ s' x a ctx w, deleteStart R s z = .ok (s', x, a) ∧ Unlinked R t.inorder s s' x a ctx w ∧
      (Context.plug ctx w).inorder = t.inorder.erase z ∧ ctx.length < t.height := by
  obtain ⟨ctx, c, lt, rt, rfl⟩ := Tree.focus hz
  rw [Context.erase_plug hrep.nodup]
  have hn := Rep.isNode (d := .left) hrep
  have e₁ : (s.heap z).left = lt.root R.null := hn.near
  have e₂ : (s.heap z).right = rt.root R.null := hn.far
  obtain ⟨-, hl, hr⟩ := (linked_plug.mp hrep.linked).1
  have hlt₀ : ctx.length < (Context.plug ctx (.node c lt z rt)).height := by
    have := Context.length_le_size ctx (.node c lt z rt)
    rw [Library.Tree.height] at this
    omega
  by_cases hlt : lt = .nil
  · subst hlt
    obtain ⟨s', x, hrun, hun⟩ := deleteStart_near (d := .left) hrep hbal hsize
      ((if_pos e₁).trans (by rw [e₂]))
    refine ⟨s', x, c, ctx, rt, hrun, hun, ?_, hlt₀⟩
    rw [Context.inorder_plug]
    simp [Tree.inorder]
  · have hl₀ : ¬(s.heap z).left = R.null := by
      rw [e₁]
      exact mt hl.root_eq_null.mp hlt
    by_cases hrt : rt = .nil
    · subst hrt
      obtain ⟨s', x, hrun, hun⟩ := deleteStart_near (d := .right) hrep hbal hsize
        ((if_neg hl₀).trans ((if_pos e₂).trans (by rw [e₁])))
      refine ⟨s', x, c, ctx, lt, hrun, hun, ?_, hlt₀⟩
      rw [Context.inorder_plug]
      simp [Tree.inorder]
    · obtain ⟨ctxr, cy, y, yr, rfl, hside, hmin⟩ := endNode_run (d := .left)
        hr hrt (show rt.height ≤ s.size - 1 + 1 by
          have := Tree.height_le_size rt
          rw [hsize, Context.size_plug, Tree.size]
          omega)
      obtain ⟨s', x, hrun, hun⟩ := deleteStart_far hrep hbal hsize (by
        have e₃ : (s.heap y).right = yr.root R.null := (linked_plug.mp hr).1.1.far
        have hr₀ : ¬(s.heap z).right = R.null := by
          rw [e₂]
          exact mt hr.root_eq_null.mp hrt
        refine (if_neg hl₀).trans ((if_neg hr₀).trans ?_)
        show (minNode R s.heap (s.size - 1 + 1) (s.heap z).right >>= _) = _
        rw [e₂, minNode, hmin, Exec.ok_bind, e₃, Exec.pure_eq])
      refine ⟨s', x, cy, _, yr, hrun, hun, ?_, ?_⟩
      · have hplug : Context.plug (ctxr ++ ⟨.right, c, y, lt⟩ :: ctx) yr =
            Context.plug ctx (.node c lt y (Context.plug ctxr yr)) := by
          rw [Context.plug_append]
          rfl
        rw [hplug, Context.inorder_plug, Tree.inorder, Context.inorder_plug, Context.inorder_plug]
        simp [Tree.inorder, Tree.join, Context.before_of_left hside]
      · have h₁ := Context.length_le_size ctx (.node c lt z (Context.plug ctxr (.join .left cy .nil y yr)))
        have h₂ := Context.length_le_size ctxr (.join .left cy .nil y yr)
        rw [Library.Tree.height] at h₁
        simp only [Tree.join, Library.Tree.height, List.length_append, List.length_cons] at *
        omega

/-- The repair after an unlinking: what its loop does, and the tree that it leaves. -/
theorem Unlinked.repair {l : List P} {s s' : State P K} {x : NodeRef P K} {a : Color}
    {ctx : Context P Color} {w : Tree P Color} (h : Unlinked R l s s' x a ctx w) (fuel : Nat)
    (hfuel : ctx.length < fuel) :
    ∃ ys s'', (if a = .black then (deleteLoop R).run .fuel fuel (s', x) else .ok ([], s')) =
        .ok (ys, s'') ∧ ys.length ≤ ctx.length ∧ (∀ y ∈ ys, DeleteSafe R y.1 y.2) ∧
      Holds R s'' (Context.plug ctx w).inorder ∧ Keeps (Context.plug ctx w).inorder s' s'' := by
  obtain ⟨k, n, hw, hred, hblack⟩ := h.balanced
  cases a with
  | red =>
    obtain ⟨rfl, hctx⟩ := hred rfl
    obtain ⟨m, hm⟩ := hctx.plug hw (by simp)
    exact ⟨[], s', if_neg (by decide), Nat.zero_le _, by simp, ⟨_, m, h.rep, hm, h.size, rfl⟩, .refl _ s'⟩
  | black =>
    have hbal : Balanced w .black n ∨ w.color = .red ∧ Balanced (w.paint .black) .black (n + 1) := by
      cases hw with
      | nil => exact .inl .nil
      | red hl hr => exact .inr ⟨rfl, .black hl hr⟩
      | black hl hr => exact .inl (.black hl hr)
    obtain ⟨ys, s'', hrun, hlen, hsafe, t', m, hm, hre⟩ :=
      deleteLoop_run ⟨h.rep, h.points, hbal, hblack rfl⟩ hfuel
    refine ⟨ys, s'', (if_pos rfl).trans hrun, hlen, hsafe, ⟨t', m, hre.rep, hm, ?_, hre.inorder⟩, hre.keeps⟩
    rw [hre.size, h.size, ← Tree.size_inorder, ← Tree.size_inorder, hre.inorder]

/-- A deletion takes out the given node and leaves a red-black tree of the others, after as many
iterations of its loop as the tree is high. -/
theorem deleteTurns_holds {s : State P K} {t : Tree P Color} {m : Nat} {z : P} (hrep : Rep R s t)
    (hbal : Balanced t .black m) (hsize : s.size = t.size) (hz : z ∈ t.inorder) :
    ∃ ys s', deleteTurns R s z = .ok (ys, s') ∧ ys.length ≤ t.height ∧
      (∀ y ∈ ys, DeleteSafe R y.1 y.2) ∧ Holds R s' (t.inorder.erase z) ∧ Keeps t.inorder s s' := by
  obtain ⟨s', x, a, ctx, w, hrun, hun, hin, hdepth⟩ := deleteStart_ok hrep hbal hsize hz
  obtain ⟨ys, s'', hrepair, hlen, hsafe, hholds, hk⟩ := hun.repair (s.size + 1) (by
    have := Tree.height_le_size t
    omega)
  rw [hin] at hholds hk
  refine ⟨ys, s'', ?_, by omega, hsafe, hholds, hun.keeps.trans (hk.mono fun q hq => List.mem_of_mem_erase hq)⟩
  rw [deleteTurns, hrun]
  exact hrepair

/-- **Deletion** takes out the given node and leaves a red-black tree of the others, in
the order they were in. -/
theorem delete_holds {s : State P K} {l : List P} {z : P} (h : Holds R s l) (hz : z ∈ l) :
    ∃ s', delete R s z = .ok s' ∧ Holds R s' (l.erase z) ∧ Keeps l s s' := by
  obtain ⟨t, m, hrep, hbal, hsize, rfl⟩ := h
  obtain ⟨ys, s', hrun, -, -, hholds, hk⟩ := deleteTurns_holds hrep hbal hsize hz
  exact ⟨s', by rw [← deleteTurns_snd, hrun]; rfl, hholds, hk⟩

end ShmMalloc.Rbtree
