import ShmMalloc.Library.Loop
import ShmMalloc.Rbtree.Links

/-! `rbtree_fix_delete`: its turns, and its loop.

A turn ends the loop with a balanced tree, or takes the missing black a level up; `Short` is
what holds between turns. -/
namespace ShmMalloc.Rbtree
open Library

variable {P K : Type} [DecidableEq P] {R : Macros P K}

theorem isBlack_root {h : P → Node P K} {par : P} {t : Tree P Color}
    (l : Linked view R.null h par t) :
    isBlack h (checkNode R (t.root R.null)) = true ↔ t.color = .black := by
  cases t with
  | nil => simp [isBlack, Tree.color]
  | node c lt q rt =>
    have ht : (h q).color = c := l.1.tag
    rw [Tree.root, checkNode_some l.1.ne]
    simp [isBlack, ht, Tree.color]

section Turn
variable {d : Side} {s : State P K} {c : Color} {p q : P} {t wl wr : Tree P Color}
  {ctx : Context P Color}

/-- Both nephews black: the sibling turns red and the missing black is looked for above. -/
theorem fixDeleteRest_recolor
    (h : Rep R s (Context.plug ctx (.join d c t p (.join d .black wl q wr))))
    (hl : wl.color = .black) (hr : wr.color = .black) :
    ∃ s', fixDeleteRest R d s p q = .ok (s', true) ∧
      Reshape R s (Context.plug ctx (.join d c t p (.join d .black wl q wr))) s'
        (Context.plug ctx (.join d c t p (.join d .red wl q wr))) := by
  rw [← Context.plug_far] at h
  have hq := (linked_join.mp (linked_plug.mp h.linked).1)
  have e₁ : (s.heap q).child d = wl.root R.null := hq.1.near
  have e₂ : (s.heap q).child d.other = wr.root R.null := hq.1.far
  have hre := setColor_reshape .red h
  rw [Context.plug_far, Context.plug_far] at hre
  refine ⟨_, ?_, hre⟩
  unfold fixDeleteRest
  simp only [e₁, e₂, (isBlack_root hq.2.1).mpr hl, (isBlack_root hq.2.2).mpr hr, Bool.and_self,
    if_true, Exec.pure_eq]

/-- The far nephew red: one rotation supplies the missing black. -/
theorem fixDeleteRest_far {z : P} {a b : Tree P Color}
    (h : Rep R s (Context.plug ctx (.join d c t p (.join d .black wl q (.join d .red a z b))))) :
    ∃ s', fixDeleteRest R d s p q = .ok (s', false) ∧ Reshape R s
      (Context.plug ctx (.join d c t p (.join d .black wl q (.join d .red a z b)))) s'
      (Context.plug ctx (.join d c (.join d .black t p wl) q (.join d .black a z b))) := by
  have hp : (s.heap p).color = c := h.isNode.tag
  have h₀ := h
  rw [← Context.plug_far] at h
  have hq := linked_join.mp (linked_plug.mp h.linked).1
  have e₁ : (s.heap q).child d = wl.root R.null := hq.1.near
  have e₂ : (s.heap q).child d.other = z := by
    have := hq.1.far
    rwa [Tree.root_join] at this
  have hz := hq.2.2
  have hzn := (linked_join.mp hz).1.ne
  have hb : ¬isBlack s.heap (checkNode R z) = true := by
    have := (isBlack_root hz).not
    rw [Tree.root_join, Tree.color_join] at this
    exact this.mpr (by decide)
  have h₁ := setColor_reshape c h
  rw [Context.plug_far, Context.plug_far] at h₁
  have h₂ := h₁.trans (setColor_reshape .black h₁.rep)
  have h₂' := h₂.rep
  rw [← Context.plug_far, ← Context.plug_far] at h₂'
  have h₃ := setColor_reshape .black h₂'
  rw [Context.plug_far, Context.plug_far, Context.plug_far, Context.plug_far] at h₃
  obtain ⟨s', hrot, h₄⟩ := rotate_reshape h₃.rep
  refine ⟨s', ?_, (h₂.trans h₃).trans h₄⟩
  unfold fixDeleteRest
  simp only [e₁, e₂, checkNode_some hzn] at hb ⊢
  simp only [hb, hp, Bool.and_false, Bool.false_eq_true, if_false,
    Option.elim_some, Exec.ok_bind, Exec.pure_eq, hrot]

/-- Only the near nephew red: a rotation at the sibling makes it the far one. -/
theorem fixDeleteRest_near {z : P} {a b : Tree P Color}
    (h : Rep R s (Context.plug ctx (.join d c t p (.join d .black (.join d .red a z b) q wr))))
    (hr : wr.color = .black) :
    ∃ s', fixDeleteRest R d s p q = .ok (s', false) ∧ Reshape R s
      (Context.plug ctx (.join d c t p (.join d .black (.join d .red a z b) q wr))) s'
      (Context.plug ctx (.join d c (.join d .black t p a) z (.join d .black b q wr))) := by
  have hp : (s.heap p).color = c := h.isNode.tag
  -- the subtree of the sibling
  let far : Context P Color := ⟨d.other, c, p, t⟩ :: ctx
  have hfar : ∀ w, Context.plug far w = Context.plug ctx (.join d c t p w) :=
    Context.plug_far ctx d c t p
  rw [← hfar] at h
  have hq := linked_join.mp (linked_plug.mp h.linked).1
  have e₁ : (s.heap q).child d = z := by
    have := hq.1.near
    rwa [Tree.root_join] at this
  have e₂ : (s.heap q).child d.other = wr.root R.null := hq.1.far
  have hzn := (linked_join.mp hq.2.1).1.ne
  have hz : ¬isBlack s.heap (checkNode R z) = true := by
    have := (isBlack_root hq.2.1).not
    rw [Tree.root_join, Tree.color_join] at this
    exact this.mpr (by decide)
  have hb : isBlack s.heap (checkNode R (wr.root R.null)) = true := (isBlack_root hq.2.2).mpr hr
  -- the rotation at the sibling
  have h₁ : Reshape R s (Context.plug far (.join d .black (.join d .red a z b) q wr)) _
      (Context.plug far (.join d .black (.join d .black a z b) q wr)) :=
    setColor_reshape .black (show Rep R _ (Context.plug (⟨d, .black, q, wr⟩ :: far) _) from h)
  have h₂ := h₁.trans (setColor_reshape .red h₁.rep)
  obtain ⟨s₃, hrot₃, h₃⟩ := rotate_other_reshape h₂.rep
  have h₃ := h₂.trans h₃
  have e₄ : (s₃.heap z).child d.other = q := by
    have := h₃.rep.isNode.far
    rwa [Tree.root_join] at this
  have hqn : q ≠ R.null := by
    have := h₃.rep
    rw [← Context.plug_far] at this
    exact this.isNode.ne
  have h₃p := h₃.rep
  rw [hfar] at h₃p
  have hp₃ : (s₃.heap p).color = c := h₃p.isNode.tag
  have e₃ : (s₃.heap p).child d.other = z := by
    have := h₃p.isNode.far
    rwa [Tree.root_join] at this
  -- the rotation at the parent
  have h₄ := h₃.trans (setColor_reshape c h₃.rep)
  rw [hfar, hfar] at h₄
  have h₅ := h₄.trans (setColor_reshape .black h₄.rep)
  have h₅' := h₅.rep
  rw [← Context.plug_far, ← Context.plug_far] at h₅'
  have h₆ := setColor_reshape .black h₅'
  rw [Context.plug_far, Context.plug_far, Context.plug_far, Context.plug_far] at h₆
  obtain ⟨s', hrot, h₇⟩ := rotate_reshape h₆.rep
  refine ⟨s', ?_, (h₅.trans h₆).trans h₇⟩
  unfold fixDeleteRest
  simp only [e₁, e₂, checkNode_some hzn] at hz hb ⊢
  simp only [hz, hb, Bool.and_true, Bool.false_eq_true, if_false, if_true, Option.elim_some,
    Exec.ok_bind, Exec.pure_eq, hrot₃, e₃, e₄, getNode_ok hzn, getNode_ok hqn, hp₃, hrot]

/-- What a turn from a black sibling does: the two sides of `p` get the same black
height, or the sibling turns red and `p` is short of a black. The subtree `t` is
passed down unchanged. -/
theorem fixDeleteRest_turn {n : Nat} {k₁ k₂ : Color}
    (h : Rep R s (Context.plug ctx (.join d c t p (.join d .black wl q wr))))
    (ht : Balanced t .black n) (hl : Balanced wl k₁ n) (hr : Balanced wr k₂ n) :
    ∃ s' again mid, fixDeleteRest R d s p q = .ok (s', again) ∧
      Reshape R s (Context.plug ctx (.join d c t p (.join d .black wl q wr))) s'
        (Context.plug (mid ++ ctx) t) ∧
      (again = true → ∃ w, mid = [⟨d, c, p, w⟩] ∧ Balanced w .red n) ∧
      (again = false → Balanced (Context.plug mid t) c (if c = .red then n + 1 else n + 2)) := by
  have build : ∀ {u v : Tree P Color} {z : P}, Balanced u .black (n + 1) →
      Balanced v .black (n + 1) →
      Balanced (Tree.join d c u z v) c (if c = .red then n + 1 else n + 2) := by
    intro u v z hu hv
    cases c with
    | red => exact .join_red hu hv
    | black => exact .join_black hu hv
  cases k₂ with
  | red =>
    obtain ⟨a, z, b, rfl⟩ := hr.exists_join_of_red d
    obtain ⟨-, ha, hb⟩ := hr.of_join_red
    obtain ⟨s', hrun, hre⟩ := fixDeleteRest_far h
    exact ⟨s', false, [⟨d, .black, p, wl⟩, ⟨d, c, q, .join d .black a z b⟩], hrun, hre, by simp,
      fun _ => build (.join_black ht hl) (.join_black ha hb)⟩
  | black =>
    cases k₁ with
    | red =>
      obtain ⟨a, z, b, rfl⟩ := hl.exists_join_of_red d
      obtain ⟨-, ha, hb⟩ := hl.of_join_red
      obtain ⟨s', hrun, hre⟩ := fixDeleteRest_near h hr.color_eq
      exact ⟨s', false, [⟨d, .black, p, a⟩, ⟨d, c, z, .join d .black b q wr⟩], hrun, hre, by simp,
        fun _ => build (.join_black ht ha) (.join_black hb hr)⟩
    | black =>
      obtain ⟨s', hrun, hre⟩ := fixDeleteRest_recolor h hl.color_eq hr.color_eq
      exact ⟨s', true, [⟨d, c, p, .join d .red wl q wr⟩], hrun, hre,
        fun _ => ⟨_, rfl, .join_red hl hr⟩, by simp⟩

/-- A red sibling is turned up first; the turn goes on below it, at a red `p`. -/
theorem fixDeleteSide_red (h : Rep R s (Context.plug ctx (.join d .black t p (.join d .red wl q wr))))
    (hwl : wl ≠ .nil) :
    ∃ s₁, fixDeleteSide R d s p = fixDeleteRest R d s₁ p (wl.root R.null) ∧
      Reshape R s (Context.plug ctx (.join d .black t p (.join d .red wl q wr))) s₁
        (Context.plug (⟨d, .black, q, wr⟩ :: ctx) (.join d .red t p wl)) := by
  have e₁ : (s.heap p).child d.other = q := by
    have := h.isNode.far
    rwa [Tree.root_join] at this
  rw [← Context.plug_far] at h
  have hq : (s.heap q).color = .red := h.isNode.tag
  have hqn := h.isNode.ne
  have h₁ := setColor_reshape .black h
  rw [Context.plug_far, Context.plug_far] at h₁
  have h₂ := h₁.trans (setColor_reshape .red h₁.rep)
  obtain ⟨s₁, hrot, h₃⟩ := rotate_reshape h₂.rep
  have h₃ : Reshape R s _ s₁ (Context.plug (⟨d, .black, q, wr⟩ :: ctx) (.join d .red t p wl)) :=
    h₂.trans h₃
  have e₂ : (s₁.heap p).child d.other = wl.root R.null := h₃.rep.isNode.far
  have hl := (linked_join.mp (linked_plug.mp h₃.rep.linked).1).2.2
  refine ⟨s₁, ?_, h₃⟩
  unfold fixDeleteSide
  simp only [e₁, getNode_ok hqn, Exec.ok_bind, hq, if_true, hrot, e₂,
    getNode_ok (mt hl.root_eq_null.mp hwl)]

theorem fixDeleteSide_black
    (h : Rep R s (Context.plug ctx (.join d c t p (.join d .black wl q wr)))) :
    fixDeleteSide R d s p = fixDeleteRest R d s p q := by
  have e₁ : (s.heap p).child d.other = q := by
    have := h.isNode.far
    rwa [Tree.root_join] at this
  rw [← Context.plug_far] at h
  have hq : (s.heap q).color = .black := h.isNode.tag
  unfold fixDeleteSide
  simp only [e₁, getNode_ok h.isNode.ne, Exec.ok_bind, hq, reduceCtorEq, if_false]

end Turn

/-! ### The loop -/

/-- The pointer `x` is to the root of the subtree `t` in the hole, or to the sentinel
standing for an empty one. -/
def Points (R : Macros P K) (x : NodeRef P K) (ctx : Context P Color) : Tree P Color → Prop
  | .nil => ∃ n, x = .enode n ∧ n.p = Context.parent R.null ctx ∧ n.color = .black ∧ n.s = R.null
  | .node _ _ p _ => x = .node p

omit [DecidableEq P] in
theorem Points.read {s : State P K} {x : NodeRef P K} {ctx : Context P Color} {t : Tree P Color}
    (hx : Points R x ctx t) (h : Rep R s (Context.plug ctx t)) :
    (x.read s.heap).p = Context.parent R.null ctx ∧ (x.read s.heap).color = t.color ∧
      (x.read s.heap).s = t.root R.null := by
  cases t with
  | nil =>
    obtain ⟨n, rfl, hp, hc, hs⟩ := hx
    exact ⟨hp, hc, hs⟩
  | node c l p r =>
    obtain rfl := hx
    have hn := (linked_plug.mp h.linked).1.1
    exact ⟨hn.parent, hn.tag, hn.own⟩

/-- `node->color = RB_BLACK`, wherever the subtree of the node has got to. -/
theorem Points.paint_black {s : State P K} {x : NodeRef P K} {ctx ctx' : Context P Color}
    {t : Tree P Color} (hx : Points R x ctx t) (h : Rep R s (Context.plug ctx' t)) :
    Reshape R s (Context.plug ctx' t) (x.setColor s .black)
      (Context.plug ctx' (t.paint .black)) := by
  cases t with
  | nil =>
    obtain ⟨n, rfl, -⟩ := hx
    exact .refl h
  | node c l p r =>
    obtain rfl := hx
    exact setColor_reshape (d := .left) _ h

/-- The loop of `rbtree_fix_delete`, with the colouring after it. -/
def deleteLoop (R : Macros P K) : Loop (State P K × NodeRef P K) (State P K) Fault where
  test x := (x.2.read x.1.heap).p ≠ R.null ∧ (x.2.read x.1.heap).color = .black
  body x := do
    let p ← getNode R (x.2.read x.1.heap).p
    let (s, again) ← fixDeleteSide R (sideOf x.1 p (x.2.read x.1.heap).s) x.1 p
    return if again then .inl (s, .node p) else .inr (x.2.setColor s .black)
  exit x := x.2.setColor x.1 .black

theorem fixDelete_eq (fuel : Nat) (s : State P K) (x : NodeRef P K) :
    fixDelete R fuel s x = ((deleteLoop R).run .fuel fuel (s, x)).map Prod.snd := by
  induction fuel generalizing s x with
  | zero => rfl
  | succ fuel ih =>
    rw [fixDelete, Loop.run_snd]
    by_cases h : (x.read s.heap).p ≠ R.null ∧ (x.read s.heap).color = .black
    · rw [if_pos h, if_pos (show (deleteLoop R).test (s, x) = true from decide_eq_true h)]
      have hbody : (deleteLoop R).body (s, x) = getNode R (x.read s.heap).p >>= fun p =>
          fixDeleteSide R (sideOf s p (x.read s.heap).s) s p >>= fun y =>
            pure (if y.2 then .inl (y.1, .node p) else .inr (x.setColor y.1 .black)) := rfl
      rw [hbody]
      cases getNode R (x.read s.heap).p with
      | error e => rfl
      | ok p =>
        have hside : ∀ f : State P K × Bool → Exec (State P K),
            (if (s.heap p).left = (x.read s.heap).s then fixDeleteSide R .left s p >>= f
              else fixDeleteSide R .right s p >>= f) =
            fixDeleteSide R (sideOf s p (x.read s.heap).s) s p >>= f := by
          intro f
          unfold sideOf
          split <;> rfl
        simp only [Exec.ok_bind]
        refine (hside _).trans ?_
        cases fixDeleteSide R (sideOf s p (x.read s.heap).s) s p with
        | error e => rfl
        | ok y =>
          obtain ⟨s', again⟩ := y
          cases again with
          | false => rfl
          | true => exact ih s' (.node p)
    · rw [if_neg h, if_neg (show ¬(deleteLoop R).test (s, x) = true from by simpa [deleteLoop] using h)]
      rfl

omit [DecidableEq P] in
/-- The child of `p` that the loop stands at is found on its side, and there is one on the other. -/
theorem Points.side {s : State P K} {x : NodeRef P K} {d : Side} {c : Color} {p : P}
    {u t : Tree P Color} {ctx : Context P Color} (hx : Points R x (⟨d, c, p, u⟩ :: ctx) t)
    (h : Rep R s (Context.plug (⟨d, c, p, u⟩ :: ctx) t)) (hu : u ≠ .nil) :
    (s.heap p).child d = (x.read s.heap).s ∧ (s.heap p).child d.other ≠ (x.read s.heap).s ∧
      (s.heap p).child d.other ≠ R.null := by
  obtain ⟨-, -, hs⟩ := hx.read h
  rw [Context.plug_near] at h
  have hn := h.isNode
  have hun := mt (linked_join.mp (linked_plug.mp h.linked).1).2.2.root_eq_null.mp hu
  have hnear : (s.heap p).child d = t.root R.null := hn.near
  have hfar : (s.heap p).child d.other = u.root R.null := hn.far
  rw [hs, hnear, hfar]
  rw [← Tree.join_other] at h
  exact ⟨rfl, (h.far_ne hun).symm, hun⟩

/-- Between turns: the subtree at `x` is one black short of what its hole takes, or its root
is red and turns black. -/
structure Short (R : Macros P K) (s : State P K) (x : NodeRef P K) (ctx : Context P Color)
    (t : Tree P Color) (n : Nat) : Prop where
  rep : Rep R s (Context.plug ctx t)
  points : Points R x ctx t
  balanced : Balanced t .black n ∨ t.color = .red ∧ Balanced (t.paint .black) .black (n + 1)
  accepts : ∃ b, Accepts ctx b (n + 1)

/-- The loop is over at the root and at a red node, which turns black. -/
theorem Short.done {s : State P K} {x : NodeRef P K} {ctx : Context P Color} {t : Tree P Color}
    {n : Nat} (h : Short R s x ctx t n) (hd : ctx = [] ∨ t.color = .red) :
    ∃ t' m, Balanced t' .black m ∧ Reshape R s (Context.plug ctx t) (x.setColor s .black) t' := by
  have hre := h.points.paint_black h.rep
  obtain hb | ⟨-, hb⟩ := h.balanced
  · obtain rfl : ctx = [] := hd.resolve_right (by rw [hb.color_eq]; decide)
    rw [hb.paint_of_black] at hre
    exact ⟨_, _, hb, hre⟩
  · obtain ⟨b, hctx⟩ := h.accepts
    obtain ⟨m, hm⟩ := hctx.plug hb (by simp)
    exact ⟨_, m, hm, hre⟩

/-- A turn at a black sibling. -/
theorem Short.rest {s : State P K} {x : NodeRef P K} {d : Side} {c : Color} {p q : P}
    {t wl wr : Tree P Color} {ctx ctx₀ : Context P Color} {k₁ k₂ : Color} {n : Nat}
    (h : Rep R s (Context.plug ctx (.join d c t p (.join d .black wl q wr))))
    (hx : Points R x ctx₀ t) (ht : Balanced t .black n) (hl : Balanced wl k₁ n)
    (hr : Balanced wr k₂ n) (hred : c = .red → Accepts ctx true (n + 1))
    (hblack : c = .black → ∃ b, Accepts ctx b (n + 2)) :
    ∃ s' again, fixDeleteRest R d s p q = .ok (s', again) ∧
      (again = true → ∃ t' n', Short R s' (.node p) ctx t' n' ∧ t'.color = c ∧
        Reshape R s (Context.plug ctx (.join d c t p (.join d .black wl q wr))) s' (Context.plug ctx t')) ∧
      (again = false → ∃ t' m, Balanced t' .black m ∧
        Reshape R s (Context.plug ctx (.join d c t p (.join d .black wl q wr)))
          (x.setColor s' .black) t') := by
  obtain ⟨s₁, again, mid, hrun, hre, hagain, hover⟩ := fixDeleteRest_turn h ht hl hr
  refine ⟨s₁, again, hrun, fun ha => ?_, fun ha => ?_⟩
  · obtain ⟨w, rfl, hw⟩ := hagain ha
    have hre : Reshape R s _ s₁ (Context.plug ctx (.join d c t p w)) := hre
    have hxp : Points R (.node p) ctx (.join d c t p w) := by cases d <;> exact rfl
    cases c with
    | red =>
      refine ⟨_, n, ⟨hre.rep, hxp, .inr ⟨by simp, ?_⟩, true, hred rfl⟩, by simp, hre⟩
      rw [Tree.paint_join]
      exact .join_black ht hw
    | black => exact ⟨_, n + 1, ⟨hre.rep, hxp, .inl (.join_black ht hw), hblack rfl⟩, by simp, hre⟩
  · have hre' := hre.trans (hx.paint_black hre.rep)
    rw [ht.paint_of_black] at hre'
    have hm : ∃ m, Balanced (Context.plug ctx (Context.plug mid t)) .black m := by
      cases c with
      | red => exact (hred rfl).plug (hover ha) (by simp)
      | black =>
        obtain ⟨b, hctx⟩ := hblack rfl
        exact hctx.plug (hover ha) (by simp)
    obtain ⟨m, hm⟩ := hm
    rw [← Context.plug_append] at hm
    exact ⟨_, m, hm, hre'⟩

/-- Each turn ends the loop, or takes the missing black a level up, or comes to a red node. -/
theorem Short.turn {s : State P K} {x : NodeRef P K} {d : Side} {c : Color} {p : P}
    {u t : Tree P Color} {ctx : Context P Color} {n : Nat}
    (h : Short R s x (⟨d, c, p, u⟩ :: ctx) t n) (ht : t.color = .black) :
    u ≠ .nil ∧ ∃ s' again, fixDeleteSide R d s p = .ok (s', again) ∧
      (again = true → ∃ ctx' t' n', Short R s' (.node p) ctx' t' n' ∧
        (t'.color = .black → ctx'.length ≤ ctx.length) ∧
        Reshape R s (Context.plug (⟨d, c, p, u⟩ :: ctx) t) s' (Context.plug ctx' t')) ∧
      (again = false → ∃ t' m, Balanced t' .black m ∧
        Reshape R s (Context.plug (⟨d, c, p, u⟩ :: ctx) t) (x.setColor s' .black) t') := by
  obtain ⟨hrep, hx, hbal, b, hctx⟩ := h
  have hbal := hbal.resolve_right fun hr => by
    rw [hr.1] at ht
    cases ht
  obtain ⟨ku, hu, hred, hblack⟩ := hctx.sibling
  obtain ⟨wl, q, wr, rfl⟩ := hu.exists_join d
  refine ⟨Tree.join_ne_nil _ _ _ _ _, ?_⟩
  rw [Context.plug_near] at hrep ⊢
  cases ku with
  | black =>
    obtain ⟨-, m, k₁, k₂, hm, hl, hr⟩ := hu.of_join_black
    obtain rfl : n = m := by omega
    obtain ⟨s', again, hrun, hagain, hover⟩ := Short.rest hrep hx hbal hl hr
      (fun hc => (hred hc).2) hblack
    refine ⟨s', again, by rw [fixDeleteSide_black hrep, hrun], fun ha => ?_, hover⟩
    obtain ⟨t', n', hshort, -, hre⟩ := hagain ha
    exact ⟨ctx, t', n', hshort, fun _ => Nat.le_refl _, hre⟩
  | red =>
    -- the parent is black, and red above a black sibling after the first rotation
    obtain rfl : c = .black := by
      cases c with
      | red => cases (hred rfl).1
      | black => rfl
    obtain ⟨-, hl, hr⟩ := hu.of_join_red
    obtain ⟨b', hrest⟩ := hblack rfl
    obtain ⟨wl₁, q₁, wr₁, rfl⟩ := hl.exists_join d
    obtain ⟨-, m, k₁, k₂, hm, hl₁, hr₁⟩ := hl.of_join_black
    obtain rfl : n = m := by omega
    obtain ⟨s₁, hside, hre₁⟩ := fixDeleteSide_red hrep (Tree.join_ne_nil _ _ _ _ _)
    rw [Tree.root_join] at hside
    obtain ⟨s', again, hrun, hagain, hover⟩ := Short.rest (x := x) hre₁.rep hx hbal hl₁ hr₁
      (fun _ => .black hr hrest) (by simp)
    refine ⟨s', again, by rw [hside, hrun], fun ha => ?_, fun ha => ?_⟩
    · obtain ⟨t', n', hshort, hcolor, hre⟩ := hagain ha
      refine ⟨_, t', n', hshort, fun hb => ?_, hre₁.trans hre⟩
      rw [hcolor] at hb
      cases hb
    · obtain ⟨t', m', hm', hre⟩ := hover ha
      exact ⟨t', m', hm', hre₁.trans hre⟩

/-! ### What an iteration dereferences -/

/-- The nephews that a turn at the black sibling `w` recolours or rotates about are there. -/
def Nephews (R : Macros P K) (d : Side) (s : State P K) (p w : P) : Prop :=
  let near := (s.heap w).child d
  let far := (s.heap w).child d.other
  (isBlack s.heap (checkNode R near) = true ∧ isBlack s.heap (checkNode R far) = true) ∨
  (isBlack s.heap (checkNode R far) = false ∧ far ≠ R.null) ∨
  (isBlack s.heap (checkNode R far) = true ∧ near ≠ R.null ∧
    ∃ s', rotate R d.other ((s.modify near (Node.setColor .black)).modify w (Node.setColor .red)) w = .ok s' ∧
      (s'.heap p).child d.other ≠ R.null ∧ (s'.heap ((s'.heap p).child d.other)).child d.other ≠ R.null)

/-- The sibling of the child of `p` on side `d` is there, before and after the rotation that a red
one takes, and so are its children as far as they matter. -/
def Siblings (R : Macros P K) (d : Side) (s : State P K) (p : P) : Prop :=
  let w := (s.heap p).child d.other
  w ≠ R.null ∧
  ((s.heap w).color = .black → Nephews R d s p w) ∧
  ((s.heap w).color = .red →
    ∃ s', rotate R d ((s.modify w (Node.setColor .black)).modify p (Node.setColor .red)) p = .ok s' ∧
      (s'.heap p).child d.other ≠ R.null ∧ Nephews R d s' p ((s'.heap p).child d.other))

theorem fixDeleteRest_nephews {d : Side} {s : State P K} {p w : P} {y : State P K × Bool}
    (h : fixDeleteRest R d s p w = .ok y) : Nephews R d s p w := by
  unfold fixDeleteRest at h
  dsimp only at h
  split at h
  · next hboth => exact .inl (by simpa using hboth)
  · next hboth =>
    by_cases hfar : isBlack s.heap (checkNode R ((s.heap w).child d.other)) = true
    · rw [if_pos hfar] at h
      obtain ⟨near, hnear, h⟩ := Exec.bind_ok h
      obtain ⟨s', hrot, h⟩ := Exec.bind_ok h
      obtain ⟨w', hw', h⟩ := Exec.bind_ok h
      obtain ⟨far', hfar', -⟩ := Exec.bind_ok h
      obtain ⟨rfl, hwn⟩ := getNode_ne hw'
      obtain ⟨-, hfn⟩ := getNode_ne hfar'
      obtain ⟨rfl, hn⟩ := checkNode_elim hnear
      exact .inr (.inr ⟨hfar, hn, s', hrot, hwn, hfn⟩)
    · refine .inr (.inl ⟨eq_false_of_ne_true hfar, fun hn => hfar ?_⟩)
      rw [hn, checkNode_null]
      rfl

theorem fixDeleteSide_siblings {d : Side} {s : State P K} {p : P} {y : State P K × Bool}
    (h : fixDeleteSide R d s p = .ok y) : Siblings R d s p := by
  unfold fixDeleteSide at h
  obtain ⟨w, hw, h⟩ := Exec.bind_ok h
  obtain ⟨rfl, hwn⟩ := getNode_ne hw
  split at h
  · next hred =>
    obtain ⟨s', hrot, h⟩ := Exec.bind_ok h
    obtain ⟨w', hw', h⟩ := Exec.bind_ok h
    obtain ⟨rfl, hwn'⟩ := getNode_ne hw'
    refine ⟨hwn, fun hb => ?_, fun _ => ⟨s', hrot, hwn', fixDeleteRest_nephews h⟩⟩
    rw [hred] at hb
    cases hb
  · next hred => exact ⟨hwn, fun _ => fixDeleteRest_nephews h, fun hr => absurd hr hred⟩

/-- What an iteration of `rbtree_fix_delete` can rely on: the node hangs on the side of its parent
that the test finds, and only there, and its sibling and the nephews that matter exist. -/
structure DeleteSafe (R : Macros P K) (s : State P K) (x : NodeRef P K) : Prop where
  parent : (x.read s.heap).p ≠ R.null
  near : (s.heap (x.read s.heap).p).child (sideOf s (x.read s.heap).p (x.read s.heap).s) =
    (x.read s.heap).s
  far : (s.heap (x.read s.heap).p).child (sideOf s (x.read s.heap).p (x.read s.heap).s).other ≠
    (x.read s.heap).s
  siblings : Siblings R (sideOf s (x.read s.heap).p (x.read s.heap).s) s (x.read s.heap).p

/-! ### The run -/

/-- The test of the loop, between turns. -/
theorem Short.test_iff {s : State P K} {x : NodeRef P K} {ctx : Context P Color} {t : Tree P Color}
    {n : Nat} (h : Short R s x ctx t n) :
    (deleteLoop R).test (s, x) = true ↔ ctx ≠ [] ∧ t.color = .black := by
  obtain ⟨hp, hc, -⟩ := h.points.read h.rep
  have hparent : Context.parent R.null ctx ≠ R.null ↔ ctx ≠ [] := by
    cases ctx with
    | nil => simp
    | cons f ctx => exact iff_of_true (linked_plug.mp h.rep.linked).2.1.ne (by simp)
  rw [deleteLoop, decide_eq_true_iff, hp, hc, hparent]

/-- The loop ends after as many iterations as its node is deep, each of which can rely on what
it dereferences, and the tree is balanced then. -/
theorem deleteLoop_run {fuel : Nat} {s : State P K} {x : NodeRef P K} {ctx : Context P Color}
    {t : Tree P Color} {n : Nat} (h : Short R s x ctx t n) (hfuel : ctx.length < fuel) :
    ∃ ys s', (deleteLoop R).run .fuel fuel (s, x) = .ok (ys, s') ∧ ys.length ≤ ctx.length ∧
      (∀ y ∈ ys, DeleteSafe R y.1 y.2) ∧
      ∃ t' m, Balanced t' .black m ∧ Reshape R s (Context.plug ctx t) s' t' := by
  refine Loop.run_ok (fun k y => ∃ ctx' t' n', Short R y.1 y.2 ctx' t' n' ∧
    (t'.color = .black → ctx'.length ≤ k) ∧ Reshape R s (Context.plug ctx t) y.1 (Context.plug ctx' t'))
    _ _ ?_ ?_ ⟨ctx, t, n, h, fun _ => Nat.le_refl _, .refl h.rep⟩ hfuel
  · rintro k ⟨s₁, x₁⟩ ⟨ctx', t', n', hshort, hlen, hre⟩ htest
    obtain ⟨hne, hblack⟩ := hshort.test_iff.mp htest
    obtain ⟨⟨d, c, p, u⟩, rest, rfl⟩ := List.exists_cons_of_ne_nil hne
    have hlen := hlen hblack
    rw [List.length_cons] at hlen
    obtain ⟨hu, s₂, again, hrun, hagain, hover⟩ := hshort.turn hblack
    obtain ⟨hnear, hfar, -⟩ := hshort.points.side hshort.rep hu
    have hp : (x₁.read s₁.heap).p = p := (hshort.points.read hshort.rep).1
    have hpn : p ≠ R.null := (linked_plug.mp hshort.rep.linked).2.1.ne
    have hside := sideOf_eq hnear hfar
    have hbody : (deleteLoop R).body (s₁, x₁) =
        .ok (if again then .inl (s₂, .node p) else .inr (x₁.setColor s₂ .black)) := by
      show (getNode R (x₁.read s₁.heap).p >>= _) = _
      rw [hp, getNode_ok hpn, Exec.ok_bind]
      show (fixDeleteSide R (sideOf s₁ p (x₁.read s₁.heap).s) s₁ p >>= _) = _
      rw [hside, hrun]
      rfl
    refine ⟨⟨by rwa [hp], by rw [hp, hside]; exact hnear, by rw [hp, hside]; exact hfar,
      by rw [hp, hside]; exact fixDeleteSide_siblings hrun⟩, rest.length, hlen, ?_⟩
    rw [hbody]
    cases again with
    | true =>
      obtain ⟨ctx'', t'', n'', hshort', hlen', hre'⟩ := hagain rfl
      exact .inl ⟨_, rfl, ctx'', t'', n'', hshort', hlen', hre.trans hre'⟩
    | false =>
      obtain ⟨t'', m, hm, hre'⟩ := hover rfl
      exact .inr ⟨_, rfl, t'', m, hm, hre.trans hre'⟩
  · rintro k ⟨s₁, x₁⟩ ⟨ctx', t', n', hshort, -, hre⟩ htest
    have hd : ctx' = [] ∨ t'.color = .red := by
      have := hshort.test_iff.not.mp (by rw [htest]; decide)
      cases hc : t'.color with
      | red => exact .inr rfl
      | black => exact .inl (by tauto)
    obtain ⟨t'', m, hm, hre'⟩ := hshort.done hd
    exact ⟨t'', m, hm, hre.trans hre'⟩

end ShmMalloc.Rbtree
