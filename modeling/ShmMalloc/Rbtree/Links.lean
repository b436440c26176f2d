import ShmMalloc.Rbtree.Model

/-! The heap of a red-black tree as a tree, and what a rotation does to it. -/
namespace ShmMalloc.Rbtree
open Library

variable {P K : Type}

/-- How a node of `rbtree.h` is read as a node of a linked tree: its colour is the
tag, and it holds its own handle in `s`. -/
def view : View (Node P K) P Color where
  child := Node.child
  parent := Node.p
  tag := Node.color
  own := fun p n => n.s = p

@[simp] theorem view_child : (view : View (Node P K) P Color).child = Node.child := rfl

@[simp] theorem view_parent : (view : View (Node P K) P Color).parent = Node.p := rfl

@[simp] theorem view_tag : (view : View (Node P K) P Color).tag = Node.color := rfl

@[simp] theorem view_own (p : P) (n : Node P K) :
    (view : View (Node P K) P Color).own p n ↔ n.s = p := Iff.rfl

section NodeFields
variable (n : Node P K) (d e : Side) (q : P) (c : Color)

@[simp] theorem child_setChild_same : (n.setChild d q).child d = q := by cases d <;> rfl

@[simp] theorem child_setChild_other : (n.setChild d.other q).child d = n.child d := by cases d <;> rfl

@[simp] theorem child_other_setChild : (n.setChild d q).child d.other = n.child d.other := by
  cases d <;> rfl

@[simp] theorem child_setP : (n.setP q).child d = n.child d := by cases d <;> rfl

@[simp] theorem child_setColor : (n.setColor c).child d = n.child d := by cases d <;> rfl

@[simp] theorem p_setChild : (n.setChild d q).p = n.p := by cases d <;> rfl

@[simp] theorem p_setP : (n.setP q).p = q := rfl

@[simp] theorem p_setColor : (n.setColor c).p = n.p := rfl

@[simp] theorem s_setChild : (n.setChild d q).s = n.s := by cases d <;> rfl

@[simp] theorem s_setP : (n.setP q).s = n.s := rfl

@[simp] theorem s_setColor : (n.setColor c).s = n.s := rfl

@[simp] theorem v_setChild : (n.setChild d q).v = n.v := by cases d <;> rfl

@[simp] theorem v_setP : (n.setP q).v = n.v := rfl

@[simp] theorem v_setColor : (n.setColor c).v = n.v := rfl

@[simp] theorem color_setChild : (n.setChild d q).color = n.color := by cases d <;> rfl

@[simp] theorem color_setP : (n.setP q).color = n.color := rfl

@[simp] theorem color_setColor : (n.setColor c).color = c := rfl

variable [DecidableEq P]

/-- The link to `old` is on side `d` when it is on that side only. -/
theorem replaceChild_eq {old new : P} (h : n.child d = old) (ho : n.child d.other ≠ old) :
    replaceChild old new n = n.setChild d new := by
  cases d with
  | left => exact if_pos h
  | right => exact if_neg ho

end NodeFields

section StateFields
variable [DecidableEq P]
variable (s : State P K) (p q : P) (f : Node P K → Node P K)

theorem modify_heap : (s.modify p f).heap q = if q = p then f (s.heap p) else s.heap q := rfl

@[simp] theorem modify_heap_self : (s.modify p f).heap p = f (s.heap p) := if_pos rfl

theorem modify_heap_ne {s : State P K} {p q : P} {f : Node P K → Node P K} (h : q ≠ p) :
    (s.modify p f).heap q = s.heap q := if_neg h

@[simp] theorem modify_root : (s.modify p f).root = s.root := rfl

@[simp] theorem modify_size : (s.modify p f).size = s.size := rfl

end StateFields

@[simp] theorem setRoot_heap (s : State P K) (p : P) : (s.setRoot p).heap = s.heap := rfl

@[simp] theorem setRoot_root (s : State P K) (p : P) : (s.setRoot p).root = p := rfl

@[simp] theorem setRoot_size (s : State P K) (p : P) : (s.setRoot p).size = s.size := rfl

variable (R : Macros P K)

/-- The state spells out the tree. -/
structure Rep (s : State P K) (t : Tree P Color) : Prop where
  linked : Linked view R.null s.heap R.null t
  root : s.root = t.root R.null
  nodup : t.inorder.Nodup

variable {R} in
/-- The cell of a node of the tree. -/
theorem Rep.isNode {s : State P K} {d : Side} {c : Color} {t u : Tree P Color} {p : P}
    {ctx : Context P Color} (h : Rep R s (Context.plug ctx (.join d c t p u))) :
    IsNode view R.null s.heap (Context.parent R.null ctx) p c d (t.root R.null) (u.root R.null) :=
  (linked_join.mp (linked_plug.mp h.linked).1).1

variable {R} in
/-- The two children of a node are different nodes. -/
theorem Rep.far_ne {s : State P K} {d : Side} {c : Color} {t u : Tree P Color} {p : P}
    {ctx : Context P Color} (h : Rep R s (Context.plug ctx (.join d c t p u)))
    (hne : t.root R.null ≠ R.null) : u.root R.null ≠ t.root R.null := by
  have hnd := h.nodup
  simp only [Context.nodup_plug, Tree.nodup_join] at hnd
  intro he
  have hu := Tree.root_mem _ (t := u) (by rw [he]; exact hne)
  rw [he] at hu
  exact hnd.1.2.2.2.2 _ (Tree.root_mem _ hne) hu

/-- Only links and colours of the listed nodes differ. -/
structure Keeps (l : List P) (s s' : State P K) : Prop where
  outside : ∀ q, q ∉ l → s'.heap q = s.heap q
  own : ∀ q, (s'.heap q).s = (s.heap q).s
  key : ∀ q, (s'.heap q).v = (s.heap q).v

variable {R}

theorem Keeps.refl (l : List P) (s : State P K) : Keeps l s s :=
  ⟨fun _ _ => rfl, fun _ => rfl, fun _ => rfl⟩

theorem Keeps.trans {l : List P} {s s' s'' : State P K} (a : Keeps l s s') (b : Keeps l s' s'') :
    Keeps l s s'' :=
  ⟨fun q hq => (b.outside q hq).trans (a.outside q hq),
    fun q => (b.own q).trans (a.own q), fun q => (b.key q).trans (a.key q)⟩

theorem Keeps.mono {l l' : List P} {s s' : State P K} (k : Keeps l s s') (h : ∀ q ∈ l, q ∈ l') :
    Keeps l' s s' :=
  ⟨fun q hq => k.outside q fun hq' => hq (h q hq'), k.own, k.key⟩

theorem Keeps.setRoot {l : List P} {s s' : State P K} (k : Keeps l s s') (p : P) :
    Keeps l s (s'.setRoot p) := ⟨k.outside, k.own, k.key⟩

variable [DecidableEq P]

theorem Keeps.modify {l : List P} {s s' : State P K} (k : Keeps l s s') {p : P}
    {f : Node P K → Node P K} (hp : p ∈ l) (hs : ∀ n, (f n).s = n.s) (hv : ∀ n, (f n).v = n.v) :
    Keeps l s (s'.modify p f) := by
  refine ⟨fun q hq => ?_, fun q => ?_, fun q => ?_⟩
  · rw [modify_heap_ne (by rintro rfl; exact hq hp)]
    exact k.outside q hq
  · rw [modify_heap]
    split
    · rename_i h
      rw [hs, h]
      exact k.own _
    · exact k.own q
  · rw [modify_heap]
    split
    · rename_i h
      rw [hv, h]
      exact k.key _
    · exact k.key q

section
variable {l : List P} {s s' : State P K} {p : P}

theorem Keeps.setChild (k : Keeps l s s') (hp : p ∈ l) (d : Side) (q : P) :
    Keeps l s (s'.modify p (Node.setChild d q)) :=
  k.modify hp (fun n => s_setChild n d q) (fun n => v_setChild n d q)

theorem Keeps.setP (k : Keeps l s s') (hp : p ∈ l) (q : P) :
    Keeps l s (s'.modify p (Node.setP q)) := k.modify hp (fun _ => rfl) (fun _ => rfl)

theorem Keeps.setColor (k : Keeps l s s') (hp : p ∈ l) (c : Color) :
    Keeps l s (s'.modify p (Node.setColor c)) := k.modify hp (fun _ => rfl) (fun _ => rfl)

end

theorem getNode_ok {p : P} (h : p ≠ R.null) : getNode R p = .ok p := if_neg h

theorem checkNode_some {p : P} (h : p ≠ R.null) : checkNode R p = some p := if_neg h

@[simp] theorem checkNode_null : checkNode R R.null = none := if_pos rfl

theorem getNode_ne {p q : P} (h : getNode R p = .ok q) : q = p ∧ p ≠ R.null := by
  unfold getNode at h
  split at h
  · cases h
  · next hp => exact ⟨(Except.ok.inj h).symm, hp⟩

theorem checkNode_elim {p q : P} (h : (checkNode R p).elim (.error .null) .ok = (.ok q : Exec P)) :
    q = p ∧ p ≠ R.null := by
  unfold checkNode at h
  split at h
  · cases h
  · next hp => exact ⟨(Except.ok.inj h).symm, hp⟩

/-- The side of `p` on which the test `p->left == q` finds `q`. -/
def sideOf (s : State P K) (p q : P) : Side := if (s.heap p).left = q then .left else .right

theorem sideOf_eq {s : State P K} {p q : P} {d : Side} (hnear : (s.heap p).child d = q)
    (hfar : (s.heap p).child d.other ≠ q) : sideOf s p q = d := by
  cases d with
  | left => exact if_pos hnear
  | right => exact if_neg hfar

section Writes
variable (s : State P K) (p q r : P) (d : Side) (c : Color) (o : Option P)

@[simp] theorem replaceChild_s (n : Node P K) : (replaceChild p q n).s = n.s := by
  unfold replaceChild
  split <;> simp

@[simp] theorem replaceChild_v (n : Node P K) : (replaceChild p q n).v = n.v := by
  unfold replaceChild
  split <;> simp

@[simp] theorem replaceChild_p (n : Node P K) : (replaceChild p q n).p = n.p := by
  unfold replaceChild
  split <;> simp

@[simp] theorem replaceChild_color (n : Node P K) : (replaceChild p q n).color = n.color := by
  unfold replaceChild
  split <;> simp

/-- A field that a write does not touch reads as before. -/
theorem modify_field {α : Type} (f : Node P K → Node P K) (g : Node P K → α)
    (h : ∀ n, g (f n) = g n) : g ((s.modify p f).heap r) = g (s.heap r) := by
  rw [modify_heap]
  split
  · rename_i e
    rw [h, e]
  · rfl

@[simp] theorem modify_setChild_s : ((s.modify p (Node.setChild d q)).heap r).s = (s.heap r).s :=
  modify_field s p r _ Node.s (by simp)

@[simp] theorem modify_setP_s : ((s.modify p (Node.setP q)).heap r).s = (s.heap r).s :=
  modify_field s p r _ Node.s (by simp)

@[simp] theorem modify_setColor_s : ((s.modify p (Node.setColor c)).heap r).s = (s.heap r).s :=
  modify_field s p r _ Node.s (by simp)

@[simp] theorem setParent_s : ((setParent R s q p).heap r).s = (s.heap r).s := by
  unfold setParent
  cases checkNode R q <;> simp

@[simp] theorem relink_s : ((relink s o p q).heap r).s = (s.heap r).s := by
  cases o
  · rfl
  · exact modify_field s _ r _ Node.s (by simp)

@[simp] theorem modify_setChild_p : ((s.modify p (Node.setChild d q)).heap r).p = (s.heap r).p :=
  modify_field s p r _ Node.p (by simp)

@[simp] theorem modify_setColor_p : ((s.modify p (Node.setColor c)).heap r).p = (s.heap r).p :=
  modify_field s p r _ Node.p (by simp)

@[simp] theorem modify_setP_child (e : Side) :
    ((s.modify p (Node.setP q)).heap r).child e = (s.heap r).child e :=
  modify_field s p r _ (Node.child e) (by simp)

@[simp] theorem modify_setColor_child (e : Side) :
    ((s.modify p (Node.setColor c)).heap r).child e = (s.heap r).child e :=
  modify_field s p r _ (Node.child e) (by simp)

@[simp] theorem modify_setP_color : ((s.modify p (Node.setP q)).heap r).color = (s.heap r).color :=
  modify_field s p r _ Node.color (by simp)

@[simp] theorem modify_setChild_color :
    ((s.modify p (Node.setChild d q)).heap r).color = (s.heap r).color :=
  modify_field s p r _ Node.color (by simp)

end Writes

theorem setParent_heap {s : State P K} {q p : P} (r : P) :
    (setParent R s q p).heap r = if r = q ∧ q ≠ R.null then (s.heap q).setP p else s.heap r := by
  unfold setParent checkNode
  by_cases hq : q = R.null
  · simp [hq]
  · simp [hq, modify_heap]

theorem setParent_heap_congr {s s' : State P K} {q p r : P} (h : s.heap r = s'.heap r) :
    (setParent R s q p).heap r = (setParent R s' q p).heap r := by
  rw [setParent_heap, setParent_heap, h]
  split
  · next hr => rw [← hr.1, h]
  · rfl

theorem relink_heap {s : State P K} {o : Option P} {p q : P} (r : P) :
    (relink s o p q).heap r = if o = some r then replaceChild p q (s.heap r) else s.heap r := by
  cases o with
  | none => rfl
  | some t =>
    simp only [relink, modify_heap, Option.some.injEq, eq_comm (a := t)]
    split
    · rename_i h
      rw [h]
    · rfl

/-- The parent of a hole, when there is one, is a handle of the context. -/
theorem checkNode_parent {ctx : Context P Color} {r : P}
    (h : checkNode R (Context.parent R.null ctx) = some r) : r ∈ Context.handles ctx := by
  cases ctx with
  | nil => simp at h
  | cons f rest =>
    unfold checkNode at h
    split at h
    · cases h
    · cases h
      exact (Context.mem_handles_cons _ _ _).mpr (.inl rfl)

/-- The parent of a hole knows its own handle. -/
theorem checkNode_parent_s {h : P → Node P K} {ctx : Context P Color} {q : P}
    (l : LinkedContext view R.null h R.null ctx q) :
    (checkNode R (Context.parent R.null ctx)).elim R.null (fun p => (h p).s) =
      Context.parent R.null ctx := by
  cases ctx with
  | nil => simp
  | cons f rest =>
    rw [Context.parent_cons, checkNode_some l.1.ne]
    exact l.1.own

/-- Relinking the hole of a context, where the rest of the context is as it was. -/
theorem relink_context {s s' : State P K} {ctx : Context P Color} {q q' : P}
    (l : LinkedContext view R.null s.heap R.null ctx q) (nd : (Context.handles ctx).Nodup)
    (hq : q ∉ Context.handles ctx) (hn : q ≠ R.null)
    (e : ∀ p ∈ Context.handles ctx,
      s'.heap p = (relink s (checkNode R (Context.parent R.null ctx)) q q').heap p) :
    LinkedContext view R.null s'.heap R.null ctx q' := by
  refine l.setHole nd (fun p hp hne => ?_) (fun p hp hown => ?_) (fun f rest hf => ?_)
  · rw [e p hp, relink_heap, if_neg]
    intro h
    unfold checkNode at h
    split at h
    · cases h
    · exact hne (Option.some.inj h).symm
  · show (s'.heap p).s = p
    rw [e p hp, relink_s]
    exact hown
  · subst hf
    have hne := l.1.ne
    have hfar : (s.heap f.handle).child f.side.other ≠ q := by
      intro h
      have h' : f.sibling.root R.null = q := l.1.far.symm.trans h
      have := Tree.root_mem _ (h' ▸ hn : f.sibling.root R.null ≠ R.null)
      rw [h'] at this
      exact hq ((Context.mem_handles_cons _ _ _).mpr (.inr (.inl this)))
    have hcell : s'.heap f.handle = (s.heap f.handle).setChild f.side q' := by
      rw [e _ ((Context.mem_handles_cons _ _ _).mpr (.inl rfl)), relink_heap,
        Context.parent_cons, checkNode_some hne, if_pos rfl]
      exact replaceChild_eq _ _ l.1.near hfar
    rw [hcell]
    exact ⟨color_setChild .., p_setChild .., child_setChild_same .., child_other_setChild ..⟩

theorem relink_root {s : State P K} {ctx : Context P Color} {q : P} {t u : Tree P Color}
    (l : LinkedContext view R.null s.heap R.null ctx q) (hr : s.root = (Context.plug ctx t).root R.null)
    {n : P} :
    (relink s (checkNode R (Context.parent R.null ctx)) n (u.root R.null)).root =
      (Context.plug ctx u).root R.null := by
  cases ctx with
  | nil =>
    rw [Context.parent_nil, checkNode_null]
    rfl
  | cons f rest =>
    rw [Context.parent_cons, checkNode_some l.1.ne]
    exact hr.trans (root_plug_congr (by simp) _ _)

@[simp] theorem relink_size {s : State P K} {o : Option P} {p q : P} :
    (relink s o p q).size = s.size := by cases o <;> rfl

@[simp] theorem setParent_size {s : State P K} {q p : P} : (setParent R s q p).size = s.size := by
  unfold setParent
  cases checkNode R q <;> rfl

@[simp] theorem setParent_root {s : State P K} {q p : P} : (setParent R s q p).root = s.root := by
  unfold setParent
  cases checkNode R q <;> rfl

theorem Keeps.setParent {l : List P} {s s' : State P K} (k : Keeps l s s') {q p : P}
    (hq : q ≠ R.null → q ∈ l) : Keeps l s (setParent R s' q p) := by
  unfold Rbtree.setParent
  by_cases h : q = R.null
  · rw [h, checkNode_null]
    exact k
  · rw [checkNode_some h]
    exact k.modify (hq h) (by simp) (by simp)

theorem Keeps.relink {l : List P} {s s' : State P K} (k : Keeps l s s') {p : Option P} {old new : P}
    (hp : ∀ q, p = some q → q ∈ l) : Keeps l s (relink s' p old new) := by
  cases p with
  | none => exact k.setRoot _
  | some q =>
    refine k.modify (hp q rfl) (fun n => ?_) (fun n => ?_)
    all_goals
      unfold replaceChild
      split <;> simp

/-! ### Rotations -/

/-- What a rotation at `n` wrote, cell by cell: `x` comes up from the other side, and `b`, the
subtree between the two, changes its parent. -/
structure Rotated (R : Macros P K) (s s' : State P K) (d : Side) (n x : P) (b : Tree P Color)
    (ctx : Context P Color) (l : List P) : Prop where
  node : s'.heap n = ((s.heap n).setChild d.other (b.root R.null)).setP x
  top : s'.heap x = ((s.heap x).setChild d n).setP (Context.parent R.null ctx)
  between : b.root R.null ≠ R.null → s'.heap (b.root R.null) = (s.heap (b.root R.null)).setP n
  inside : ∀ r, r ∉ Context.handles ctx → r ≠ n → r ≠ x →
    ¬(r = b.root R.null ∧ b.root R.null ≠ R.null) → s'.heap r = s.heap r
  outside : ∀ r ∈ Context.handles ctx, s'.heap r =
    (relink s (checkNode R (Context.parent R.null ctx)) n x).heap r
  root : s'.root = (relink s (checkNode R (Context.parent R.null ctx)) n x).root
  size : s'.size = s.size
  keeps : Keeps l s s'

theorem rotate_writes {d : Side} {c cx : Color} {a b e : Tree P Color} {n x : P}
    {ctx : Context P Color} {s : State P K}
    (h : Rep R s (Context.plug ctx (.join d c a n (.join d cx b x e)))) :
    ∃ s', rotate R d s n = .ok s' ∧ Rotated R s s' d n x b ctx
      (Context.plug ctx (.join d c a n (.join d cx b x e))).inorder := by
  obtain ⟨hl, hroot, hnd⟩ := h
  obtain ⟨hl, hctx⟩ := linked_plug.mp hl
  obtain ⟨hn, ha, hl⟩ := linked_join.mp hl
  obtain ⟨hx, hb, he⟩ := linked_join.mp hl
  rw [Tree.root_join] at hn hctx
  simp only [Context.nodup_plug, Tree.nodup_join, Tree.mem_inorder_join, not_or] at hnd
  have hbm := Tree.root_mem R.null (t := b)
  have e1 : (s.heap n).child d.other = x := hn.far
  have e2 : (s.heap x).child d = b.root R.null := hx.near
  have e3 : (s.heap n).s = n := hn.own
  have e4 : (s.heap x).s = x := hx.own
  have e5 : (s.heap n).p = Context.parent R.null ctx := hn.parent
  have hxn : x ≠ n := by grind
  let par := Context.parent R.null ctx
  let s₁ := (setParent R (s.modify n (Node.setChild d.other (b.root R.null))) (b.root R.null) n)
  let s₂ := (s₁.modify n (Node.setP x)).modify x (Node.setChild d n)
  let s' := (relink s₂ (checkNode R par) n x).modify x (Node.setP par)
  have hrun : rotate R d s n = .ok s' := by
    unfold rotate
    simp only [e1, e2, e3, e4, e5, getNode_ok hx.ne, Exec.ok_bind, Exec.pure_eq, modify_setChild_s,
      modify_setP_s, setParent_s, relink_s, modify_heap_self, child_setChild_same, s_setChild,
      s_setP, checkNode_parent_s hctx]
    rfl
  have hoff : ∀ r, r ∉ Context.handles ctx → r ≠ x → s'.heap r = s₂.heap r := by
    intro r hr hrx
    rw [modify_heap_ne hrx, relink_heap, if_neg (fun h => hr (checkNode_parent h))]
  have hfar : ∀ r, r ≠ n → r ≠ x → ¬(r = b.root R.null ∧ b.root R.null ≠ R.null) →
      s₂.heap r = s.heap r := by
    intro r hrn hrx hrb
    rw [modify_heap_ne hrx, modify_heap_ne hrn, setParent_heap, if_neg hrb, modify_heap_ne hrn]
  refine ⟨s', hrun, ?_, ?_, fun hne => ?_,
    fun r hr hrn hrx hrb => (hoff r hr hrx).trans (hfar r hrn hrx hrb), fun r hr => ?_, ?_,
    by simp [s', s₂, s₁], ?_⟩
  · rw [hoff n (by grind) hxn.symm, modify_heap_ne hxn.symm, modify_heap_self, setParent_heap,
      if_neg (by grind), modify_heap_self]
  · rw [modify_heap_self, relink_heap, if_neg (fun h => by have := checkNode_parent h; grind),
      modify_heap_self, modify_heap_ne hxn, setParent_heap, if_neg (by grind), modify_heap_ne hxn]
  · have := hbm hne
    rw [hoff _ (by grind) (by grind), modify_heap_ne (by grind), modify_heap_ne (by grind),
      setParent_heap, if_pos ⟨rfl, hne⟩, modify_heap_ne (by grind)]
  · rw [modify_heap_ne (by grind), relink_heap, relink_heap, hfar r (by grind) (by grind) (by grind)]
  · show (relink s₂ (checkNode R par) n x).root = (relink s (checkNode R par) n x).root
    cases checkNode R par with
    | none => rfl
    | some p => exact setParent_root
  · have mem : ∀ q, q ∈ (Context.plug ctx (.join d c a n (.join d cx b x e))).inorder ↔ _ :=
      fun q => Context.mem_plug q ctx _
    simp only [Tree.mem_inorder_join] at mem
    have mn := (mem n).mpr (by simp)
    have mx := (mem x).mpr (by simp)
    have k₁ := ((Keeps.refl _ s).setChild mn d.other (b.root R.null)).setParent (R := R) (p := n)
      fun h => (mem _).mpr (.inl (.inr (.inr (.inl (hbm h)))))
    have k₂ := (k₁.setP mn x).setChild mx d n
    exact (k₂.relink fun q hq => (mem q).mpr (.inr (checkNode_parent hq))).setP mx par

theorem rotate_rep {d : Side} {c cx : Color} {a b e : Tree P Color} {n x : P} {ctx : Context P Color}
    {s : State P K} (h : Rep R s (Context.plug ctx (.join d c a n (.join d cx b x e)))) :
    ∃ s', rotate R d s n = .ok s' ∧
      Rep R s' (Context.plug ctx (.join d cx (.join d c a n b) x e)) ∧
      s'.size = s.size ∧ Keeps (Context.plug ctx (.join d c a n (.join d cx b x e))).inorder s s' := by
  obtain ⟨s', hrun, w⟩ := rotate_writes h
  refine ⟨s', hrun, ?_, w.size, w.keeps⟩
  obtain ⟨hl, hroot, hnd⟩ := h
  obtain ⟨hl, hctx⟩ := linked_plug.mp hl
  obtain ⟨hn, ha, hl⟩ := linked_join.mp hl
  obtain ⟨hx, hb, he⟩ := linked_join.mp hl
  rw [Tree.root_join] at hn hctx
  simp only [Context.nodup_plug, Tree.nodup_join, Tree.mem_inorder_join, not_or] at hnd
  have hbm := Tree.root_mem R.null (t := b)
  refine ⟨linked_plug.mpr ⟨linked_join.mpr ⟨?_, linked_join.mpr ⟨?_, ?_, ?_⟩, ?_⟩, ?_⟩, ?_, ?_⟩
  · rw [Tree.root_join]
    refine ⟨hx.ne, ?_, ?_, ?_, ?_, ?_⟩
    all_goals rw [w.top]
    · simpa using hx.own
    · simpa using hx.tag
    · rfl
    · simp
    · simpa using hx.far
  · refine ⟨hn.ne, ?_, ?_, ?_, ?_, ?_⟩
    all_goals rw [w.node]
    · simpa using hn.own
    · simpa using hn.tag
    · rfl
    · simpa using hn.near
    · simp
  · exact ha.congr fun r hr => w.inside r (by grind) (by grind) (by grind) (by grind)
  · refine hb.reparent (by grind)
      (fun r hr hne => w.inside r (by grind) (by grind) (by grind) fun h => hne h.1)
      (fun r hr hown => (w.keeps.own r).trans hown) (fun hne => ?_)
    simp [w.between (mt hb.root_eq_null.mp hne)]
  · exact he.congr fun r hr => w.inside r (by grind) (by grind) (by grind) (by grind)
  · rw [Tree.root_join]
    exact relink_context hctx (by grind) (by grind) hn.ne w.outside
  · rw [w.root]
    have := relink_root (u := .join d cx (.join d c a n b) x e) (n := n) hctx hroot
    rwa [Tree.root_join] at this
  · simp only [Context.nodup_plug, Tree.nodup_join, Tree.mem_inorder_join, not_or]
    grind

/-! ### Colours -/

theorem setColor_rep {d : Side} {c c' : Color} {t u : Tree P Color} {p : P} {ctx : Context P Color}
    {s : State P K} (h : Rep R s (Context.plug ctx (.join d c t p u))) :
    Rep R (s.modify p (Node.setColor c')) (Context.plug ctx (.join d c' t p u)) := by
  obtain ⟨hl, hroot, hnd⟩ := h
  obtain ⟨hl, hctx⟩ := linked_plug.mp hl
  obtain ⟨hn, ht, hu⟩ := linked_join.mp hl
  simp only [Context.nodup_plug, Tree.nodup_join, Tree.mem_inorder_join] at hnd
  have hne : ∀ r, r ≠ p → (s.modify p (Node.setColor c')).heap r = s.heap r :=
    fun r hr => modify_heap_ne hr
  refine ⟨linked_plug.mpr ⟨linked_join.mpr ⟨?_, ht.congr fun r hr => hne r (by grind),
    hu.congr fun r hr => hne r (by grind)⟩, ?_⟩, ?_, ?_⟩
  · refine ⟨hn.ne, ?_, ?_, ?_, ?_, ?_⟩
    all_goals rw [modify_heap_self]
    · exact hn.own
    · rfl
    · exact hn.parent
    · simpa using hn.near
    · simpa using hn.far
  · rw [Tree.root_join] at hctx ⊢
    exact hctx.congr fun r hr => hne r (by grind)
  · rw [modify_root, hroot]
    cases ctx with
    | nil => simp
    | cons => exact root_plug_congr (by simp) _ _
  · simp only [Context.nodup_plug, Tree.nodup_join, Tree.mem_inorder_join]
    exact hnd

/-! ### Reshaping -/

variable (R) in
/-- From a state that spells out `t` to one that spells out `t'`, on the same nodes in
the same order. -/
structure Reshape (s : State P K) (t : Tree P Color) (s' : State P K) (t' : Tree P Color) : Prop where
  rep : Rep R s' t'
  inorder : t'.inorder = t.inorder
  size : s'.size = s.size
  keeps : Keeps t.inorder s s'

omit [DecidableEq P] in
theorem Reshape.refl {s : State P K} {t : Tree P Color} (h : Rep R s t) : Reshape R s t s t :=
  ⟨h, rfl, rfl, .refl _ _⟩

omit [DecidableEq P] in
theorem Reshape.trans {s s' s'' : State P K} {t t' t'' : Tree P Color} (a : Reshape R s t s' t')
    (b : Reshape R s' t' s'' t'') : Reshape R s t s'' t'' :=
  ⟨b.rep, b.inorder.trans a.inorder, b.size.trans a.size, a.keeps.trans (a.inorder ▸ b.keeps)⟩

theorem rotate_reshape {d : Side} {c cx : Color} {a b e : Tree P Color} {n x : P}
    {ctx : Context P Color} {s : State P K}
    (h : Rep R s (Context.plug ctx (.join d c a n (.join d cx b x e)))) :
    ∃ s', rotate R d s n = .ok s' ∧ Reshape R s (Context.plug ctx (.join d c a n (.join d cx b x e)))
      s' (Context.plug ctx (.join d cx (.join d c a n b) x e)) := by
  obtain ⟨s', hrun, hrep, hsize, hk⟩ := rotate_rep h
  refine ⟨s', hrun, hrep, ?_, hsize, hk⟩
  rw [Context.inorder_plug, Context.inorder_plug]
  cases d <;> simp [Tree.join, Tree.inorder]

/-- The rotation the other way, on the same side of the page. -/
theorem rotate_other_reshape {d : Side} {c cx : Color} {a b e : Tree P Color} {n x : P}
    {ctx : Context P Color} {s : State P K}
    (h : Rep R s (Context.plug ctx (.join d c (.join d cx a x b) n e))) :
    ∃ s', rotate R d.other s n = .ok s' ∧
      Reshape R s (Context.plug ctx (.join d c (.join d cx a x b) n e))
        s' (Context.plug ctx (.join d cx a x (.join d c b n e))) := by
  simp only [← Tree.join_other d] at h ⊢
  exact rotate_reshape h

theorem setColor_reshape {d : Side} {c : Color} (c' : Color) {t u : Tree P Color} {p : P}
    {ctx : Context P Color} {s : State P K} (h : Rep R s (Context.plug ctx (.join d c t p u))) :
    Reshape R s (Context.plug ctx (.join d c t p u)) (s.modify p (Node.setColor c'))
      (Context.plug ctx (.join d c' t p u)) := by
  refine ⟨setColor_rep h, ?_, rfl, (Keeps.refl _ s).setColor ?_ c'⟩
  · rw [Context.inorder_plug, Context.inorder_plug]
    cases d <;> rfl
  · rw [Context.mem_plug, Tree.mem_inorder_join]
    tauto

/-! ### Trees as lists -/

/-- The tree is a red-black tree that holds these nodes in this order. -/
def Holds (R : Macros P K) (s : State P K) (l : List P) : Prop :=
  ∃ t m, Rep R s t ∧ Balanced t .black m ∧ s.size = t.size ∧ t.inorder = l

theorem Rep.modify {s : State P K} {t : Tree P Color} {p : P} (h : Rep R s t) (hp : p ∉ t.inorder)
    (f : Node P K → Node P K) : Rep R (s.modify p f) t :=
  ⟨h.linked.congr fun _ hq => modify_heap_ne (by rintro rfl; exact hp hq), h.root, h.nodup⟩

namespace Holds
variable {s s' : State P K} {l : List P}

omit [DecidableEq P] in
theorem init (h : P → Node P K) : Holds R (Rbtree.init R h) [] :=
  ⟨.nil, 0, ⟨trivial, rfl, List.nodup_nil⟩, .nil, rfl, rfl⟩

omit [DecidableEq P] in
/-- A tree does not depend on the cells outside it. -/
theorem congr (h : Holds R s l) (e : ∀ q ∈ l, s'.heap q = s.heap q) (hr : s'.root = s.root)
    (hn : s'.size = s.size) : Holds R s' l := by
  obtain ⟨t, m, hrep, hbal, hsize, rfl⟩ := h
  exact ⟨t, m, ⟨hrep.linked.congr e, hr.trans hrep.root, hrep.nodup⟩, hbal, hn.trans hsize, rfl⟩

theorem modify {p : P} (h : Holds R s l) (hp : p ∉ l) (f : Node P K → Node P K) :
    Holds R (s.modify p f) l := by
  refine h.congr (fun q hq => modify_heap_ne ?_) rfl rfl
  rintro rfl
  exact hp hq

omit [DecidableEq P] in
theorem nodup (h : Holds R s l) : l.Nodup := by
  obtain ⟨t, m, hrep, -, -, rfl⟩ := h
  exact hrep.nodup

omit [DecidableEq P] in
theorem size (h : Holds R s l) : s.size = l.length := by
  obtain ⟨t, m, -, -, hsize, rfl⟩ := h
  rw [hsize, Tree.size_inorder]

omit [DecidableEq P] in
theorem own (h : Holds R s l) {q : P} (hq : q ∈ l) : (s.heap q).s = q := by
  obtain ⟨t, m, hrep, -, -, rfl⟩ := h
  exact hrep.linked.own hq

omit [DecidableEq P] in
theorem ne_null (h : Holds R s l) {q : P} (hq : q ∈ l) : q ≠ R.null := by
  obtain ⟨t, m, hrep, -, -, rfl⟩ := h
  exact hrep.linked.root_ne hq

end Holds

end ShmMalloc.Rbtree
