import ShmMalloc.Library.Loop
import ShmMalloc.Rbtree.Links

/-! `rbtree_fix_insert`: its turns, and its loop.

A turn ends the loop with a balanced tree, or takes the red pair two levels up; `Rising` is
what holds between turns. -/
namespace ShmMalloc.Rbtree
open Library

variable {P K : Type} [DecidableEq P] {R : Macros P K}

/-- A child that is not red: none, or a black one. -/
theorem checkNode_filter_none {h : P → Node P K} {par : P} {t : Tree P Color}
    (l : Linked view R.null h par t) (hc : t.color = .black) :
    (checkNode R (t.root R.null)).filter (fun u => (h u).color = .red) = none := by
  cases t with
  | nil => simp
  | node c lt q rt =>
    obtain rfl : c = .black := hc
    have ht : (h q).color = .black := l.1.tag
    rw [Tree.root, checkNode_some l.1.ne]
    simp [ht]

theorem checkNode_filter_some {h : P → Node P K} {par q : P} {lt rt : Tree P Color} {d : Side}
    (l : Linked view R.null h par (.join d .red lt q rt)) :
    (checkNode R q).filter (fun u => (h u).color = .red) = some q := by
  have n := (linked_join.mp l).1
  have ht : (h q).color = .red := n.tag
  rw [checkNode_some n.ne]
  simp [ht]

section Turn
variable {d : Side} {s : State P K} {x p pp : P} {t₁ t₂ u v : Tree P Color} {ctx : Context P Color}

/-- A red uncle: the two reds go up a level. -/
theorem fixInsertSide_recolor {e k : Side} {q : P} {v₁ v₂ t : Tree P Color}
    (h : Rep R s (Context.plug ctx (.join d .black (.join e .red t p u) pp (.join k .red v₁ q v₂)))) :
    ∃ s', fixInsertSide R d s x p pp = .ok (s', pp) ∧ Reshape R s
      (Context.plug ctx (.join d .black (.join e .red t p u) pp (.join k .red v₁ q v₂))) s'
      (Context.plug ctx (.join d .red (.join e .black t p u) pp (.join k .black v₁ q v₂))) := by
  have hq : (s.heap pp).child d.other = q := by
    have := h.isNode.far
    rwa [Tree.root_join] at this
  have hred := checkNode_filter_some (linked_join.mp (linked_plug.mp h.linked).1).2.2
  have h₁ := setColor_reshape .black (by rwa [← Context.plug_far] at h)
  rw [Context.plug_far, Context.plug_far, ← Context.plug_near ctx d .black _ pp (.join k .black _ _ _)] at h₁
  have h₂ := h₁.trans (setColor_reshape .black h₁.rep)
  rw [Context.plug_near] at h₂
  have h₃ := h₂.trans (setColor_reshape .red h₂.rep)
  refine ⟨_, ?_, h₃⟩
  unfold fixInsertSide
  rw [hq, hred]

/-- A black uncle and the node on the outer side: one rotation ends the repair. -/
theorem fixInsertSide_outer
    (h : Rep R s (Context.plug ctx (.join d .black (.join d .red (.join d .red t₁ x t₂) p u) pp v)))
    (hv : v.color = .black) :
    ∃ s', fixInsertSide R d s x p pp = .ok (s', x) ∧ Reshape R s
      (Context.plug ctx (.join d .black (.join d .red (.join d .red t₁ x t₂) p u) pp v)) s'
      (Context.plug ctx (.join d .black (.join d .red t₁ x t₂) p (.join d .red u pp v))) := by
  have hq : (s.heap pp).child d.other = v.root R.null := h.isNode.far
  have hblack := checkNode_filter_none (linked_join.mp (linked_plug.mp h.linked).1).2.2 hv
  rw [← Context.plug_near] at h
  have hx : (s.heap x).s = x := by
    rw [← Context.plug_near] at h
    exact h.isNode.own
  have hside : ¬(s.heap x).s = (s.heap p).child d.other := by
    have hne := h.far_ne (by
      rw [← Context.plug_near] at h
      rw [Tree.root_join]
      exact h.isNode.ne)
    have hu : (s.heap p).child d.other = u.root R.null := h.isNode.far
    rw [hx, hu]
    rw [Tree.root_join] at hne
    exact hne.symm
  have h₁ := setColor_reshape .black h
  rw [Context.plug_near, Context.plug_near] at h₁
  have h₂ := h₁.trans (setColor_reshape .red h₁.rep)
  obtain ⟨s', hrot, h₃⟩ := rotate_other_reshape h₂.rep
  refine ⟨s', ?_, h₂.trans h₃⟩
  unfold fixInsertSide
  rw [hq, hblack, if_neg hside]
  simp only [Exec.pure_eq, Exec.ok_bind, hrot]

/-- A black uncle and the node on the inner side: two rotations end the repair. -/
theorem fixInsertSide_inner
    (h : Rep R s (Context.plug ctx (.join d .black (.join d .red u p (.join d .red t₁ x t₂)) pp v)))
    (hv : v.color = .black) :
    ∃ s', fixInsertSide R d s x p pp = .ok (s', p) ∧ Reshape R s
      (Context.plug ctx (.join d .black (.join d .red u p (.join d .red t₁ x t₂)) pp v)) s'
      (Context.plug ctx (.join d .black (.join d .red u p t₁) x (.join d .red t₂ pp v))) := by
  have hq : (s.heap pp).child d.other = v.root R.null := h.isNode.far
  have hblack := checkNode_filter_none (linked_join.mp (linked_plug.mp h.linked).1).2.2 hv
  rw [← Context.plug_near] at h
  have hside : (s.heap x).s = (s.heap p).child d.other := by
    have hfar := h.isNode.far
    rw [Tree.root_join] at hfar
    rw [← Context.plug_far] at h
    exact h.isNode.own.trans hfar.symm
  obtain ⟨s₁, hrot₁, h₁⟩ := rotate_reshape h
  have h₂ := h₁.trans (setColor_reshape .black h₁.rep)
  rw [Context.plug_near, Context.plug_near] at h₂
  have h₃ := h₂.trans (setColor_reshape .red h₂.rep)
  obtain ⟨s', hrot, h₄⟩ := rotate_other_reshape h₃.rep
  refine ⟨s', ?_, h₃.trans h₄⟩
  unfold fixInsertSide
  rw [hq, hblack, if_pos hside]
  simp only [Exec.pure_eq, Exec.ok_bind, hrot₁, hrot]

end Turn

/-! ### The loop -/

/-- The loop of `rbtree_fix_insert`, with the colouring after it. -/
def insertLoop (R : Macros P K) : Loop (State P K × P) (State P K) Fault where
  test x := ((checkNode R (x.1.heap x.2).p).filter (fun p => (x.1.heap p).color = .red)).isSome
  body x := do
    let p := (x.1.heap x.2).p
    let pp ← getNode R (x.1.heap p).p
    let y ← fixInsertSide R (sideOf x.1 pp (x.1.heap p).s) x.1 x.2 p pp
    return .inl y
  exit x := if (x.1.heap x.2).p = R.null then x.1.modify x.2 (Node.setColor .black) else x.1

theorem fixInsert_eq (fuel : Nat) (s : State P K) (x : P) :
    fixInsert R fuel s x = ((insertLoop R).run .fuel fuel (s, x)).map Prod.snd := by
  induction fuel generalizing s x with
  | zero => rfl
  | succ fuel ih =>
    rw [fixInsert, Loop.run_snd]
    have htest : (insertLoop R).test (s, x) =
      ((checkNode R (s.heap x).p).filter (fun p => (s.heap p).color = .red)).isSome := rfl
    cases hred : (checkNode R (s.heap x).p).filter (fun p => (s.heap p).color = .red) with
    | none =>
      rw [htest, hred]
      rfl
    | some p =>
      obtain ⟨hp, -⟩ := Option.filter_eq_some_iff.mp hred
      obtain rfl : p = (s.heap x).p := by
        unfold checkNode at hp
        split at hp
        · cases hp
        · exact (Option.some.inj hp).symm
      rw [htest, hred, Option.isSome_some, if_pos rfl]
      show (getNode R (s.heap (s.heap x).p).p >>= _) =
        (getNode R (s.heap (s.heap x).p).p >>= _) >>= _
      cases getNode R (s.heap (s.heap x).p).p with
      | error e => rfl
      | ok pp =>
        have hside : ∀ f : State P K × P → Exec (State P K),
            (if (s.heap (s.heap x).p).s = (s.heap pp).left then
              fixInsertSide R .left s x (s.heap x).p pp >>= f
              else fixInsertSide R .right s x (s.heap x).p pp >>= f) =
            fixInsertSide R (sideOf s pp (s.heap (s.heap x).p).s) s x (s.heap x).p pp >>= f := by
          intro f
          unfold sideOf
          simp only [eq_comm]
          split <;> rfl
        simp only [Exec.ok_bind]
        refine (hside _).trans ?_
        cases fixInsertSide R (sideOf s pp (s.heap (s.heap x).p).s) s x (s.heap x).p pp with
        | error e => rfl
        | ok y => exact ih y.1 y.2

/-- Between turns: the node is red, and balanced but for what the hole it fills refuses. -/
structure Rising (R : Macros P K) (s : State P K) (x : P) (ctx : Context P Color)
    (t : Tree P Color) (b : Bool) (n : Nat) : Prop where
  rep : Rep R s (Context.plug ctx t)
  top : ∃ e l r, t = .join e .red l x r
  balanced : Balanced t .red n
  accepts : Accepts ctx b n

/-- What an iteration of `rbtree_fix_insert` can rely on: its red parent and its grandparent exist,
and the parent hangs on the side that the test finds. -/
structure InsertSafe (R : Macros P K) (s : State P K) (x : P) : Prop where
  parent : (s.heap x).p ≠ R.null
  red : (s.heap (s.heap x).p).color = .red
  grandparent : (s.heap (s.heap x).p).p ≠ R.null
  near : (s.heap (s.heap (s.heap x).p).p).child
    (sideOf s (s.heap (s.heap x).p).p (s.heap (s.heap x).p).s) = (s.heap x).p

theorem InsertSafe.test {s : State P K} {x : P} (h : InsertSafe R s x) :
    (insertLoop R).test (s, x) = true := by
  show ((checkNode R (s.heap x).p).filter _).isSome = true
  rw [checkNode_some h.parent]
  simp [h.red]

section Loop
variable {s : State P K} {x : P} {ctx : Context P Color} {t : Tree P Color} {n : Nat}

/-- The loop is over at the root, which turns black, and under a black node. -/
theorem Rising.done {b : Bool} (h : Rising R s x ctx t b n) (hd : ctx = [] ∨ b = true) :
    (insertLoop R).test (s, x) = false ∧ ∃ t' m, Balanced t' .black m ∧
      Reshape R s (Context.plug ctx t) ((insertLoop R).exit (s, x)) t' := by
  obtain ⟨hrep, ⟨e, l, r, rfl⟩, hbal, hacc⟩ := h
  cases ctx with
  | nil =>
    have hp : (s.heap x).p = R.null := hrep.isNode.parent
    obtain ⟨_, hl, hr⟩ := hbal.of_join_red
    refine ⟨?_, .join e .black l x r, _, .join_black hl hr, ?_⟩
    · show ((checkNode R (s.heap x).p).filter _).isSome = false
      rw [hp, checkNode_null]
      rfl
    · show Reshape R s _ (if (s.heap x).p = R.null then _ else s) _
      rw [if_pos hp]
      exact setColor_reshape _ hrep
  | cons f ctx =>
    obtain ⟨d, c, p, u⟩ := f
    obtain rfl : b = true := hd.resolve_left (by simp)
    have hp : (s.heap x).p = p := hrep.isNode.parent
    obtain ⟨m, hm⟩ := hacc.plug hbal fun _ => rfl
    have hrep' := hrep
    rw [Context.plug_near] at hrep'
    have hpn : p ≠ R.null := hrep'.isNode.ne
    obtain rfl : c = .black := by
      cases hacc
      rfl
    have hc : (s.heap p).color = .black := hrep'.isNode.tag
    refine ⟨?_, _, m, hm, ?_⟩
    · show ((checkNode R (s.heap x).p).filter _).isSome = false
      rw [hp, checkNode_some hpn]
      simp [hc]
    · show Reshape R s _ (if (s.heap x).p = R.null then _ else s) _
      rw [hp, if_neg hpn]
      exact .refl hrep

/-- A turn takes the red pair two levels up, or leaves the node under a black one. -/
theorem Rising.turn {e d : Side} {p pp : P} {u v : Tree P Color}
    (h : Rising R s x (⟨e, .red, p, u⟩ :: ⟨d, .black, pp, v⟩ :: ctx) t false n) :
    ∃ s' x' ctx' t' b' n', fixInsertSide R d s x p pp = .ok (s', x') ∧ Rising R s' x' ctx' t' b' n' ∧
      (b' = false → ctx' = ctx) ∧
      Reshape R s (Context.plug (⟨e, .red, p, u⟩ :: ⟨d, .black, pp, v⟩ :: ctx) t) s'
        (Context.plug ctx' t') := by
  obtain ⟨hrep, ⟨e', l, r, rfl⟩, hbal, hacc⟩ := h
  obtain ⟨-, hu, d', pp', v', rest, k, b, hctx, hv, hrest⟩ := hacc.refusing
  obtain ⟨⟨rfl, -, rfl, rfl⟩, rfl⟩ : (d = d' ∧ Color.black = .black ∧ pp = pp' ∧ v = v') ∧ ctx = rest := by
    simpa using hctx
  obtain ⟨t₁, t₂, hjoin⟩ := Tree.exists_join d e' Color.red l x r
  rw [hjoin] at hrep hbal ⊢
  obtain ⟨_, h₁, h₂⟩ := hbal.of_join_red
  cases k with
  | red =>
    -- the red pair goes up
    obtain ⟨v₁, q, v₂, rfl⟩ := hv.exists_join_of_red .left
    obtain ⟨_, hv₁, hv₂⟩ := hv.of_join_red
    rw [Context.plug_near, Context.plug_near] at hrep ⊢
    obtain ⟨s₁, hrun, hre⟩ := fixInsertSide_recolor (x := x) hrep
    exact ⟨s₁, pp, ctx, _, b, _, hrun, ⟨hre.rep, ⟨_, _, _, rfl⟩,
      .join_red (.join_black hbal hu) (.join_black hv₁ hv₂), hrest⟩, fun _ => rfl, hre⟩
  | black =>
    -- a rotation ends the loop
    rcases Side.eq_or_other d e with rfl | rfl
    · rw [Context.plug_near, Context.plug_near] at hrep ⊢
      obtain ⟨s₁, hrun, hre⟩ := fixInsertSide_outer hrep hv.color_eq
      rw [← Context.plug_near ctx e .black (.join e .red t₁ x t₂) p] at hre
      exact ⟨s₁, x, _, _, true, n, hrun, ⟨hre.rep, ⟨_, _, _, rfl⟩, hbal,
        .black (.join_red hu hv) hrest⟩, by simp, hre⟩
    · have hin : Context.plug (⟨d.other, .red, p, u⟩ :: ⟨d, .black, pp, v⟩ :: ctx)
          (.join d .red t₁ x t₂) = Context.plug ctx
          (.join d .black (.join d .red u p (.join d .red t₁ x t₂)) pp v) := by
        rw [Context.plug_far, Context.plug_near]
      rw [hin] at hrep ⊢
      obtain ⟨s₁, hrun, hre⟩ := fixInsertSide_inner hrep hv.color_eq
      rw [← Context.plug_near ctx d .black (.join d .red u p t₁) x] at hre
      exact ⟨s₁, p, _, _, true, n, hrun, ⟨hre.rep, ⟨_, _, _, rfl⟩, .join_red hu h₁,
        .black (.join_red h₂ hv) hrest⟩, by simp, hre⟩

/-- Where the loop goes on there are a red parent, on one side of the grandparent, and a turn. -/
theorem Rising.body {e d : Side} {p pp : P} {u v : Tree P Color}
    (h : Rising R s x (⟨e, .red, p, u⟩ :: ⟨d, .black, pp, v⟩ :: ctx) t false n) :
    InsertSafe R s x ∧ (insertLoop R).body (s, x) =
      fixInsertSide R d s x p pp >>= fun y => .ok (.inl y) := by
  obtain ⟨hrep, ⟨e', l, r, rfl⟩, -, -⟩ := h
  have hp : (s.heap x).p = p := hrep.isNode.parent
  rw [Context.plug_near] at hrep
  have hc : (s.heap p).color = .red := hrep.isNode.tag
  have hpp : (s.heap p).p = pp := hrep.isNode.parent
  have hps : (s.heap p).s = p := hrep.isNode.own
  have hpn : p ≠ R.null := hrep.isNode.ne
  rw [Context.plug_near] at hrep
  have hppn : pp ≠ R.null := hrep.isNode.ne
  have hnear : (s.heap pp).child d = p := by
    have := hrep.isNode.near
    rwa [Tree.root_join] at this
  have hfar : (s.heap pp).child d.other ≠ p := by
    have hv : (s.heap pp).child d.other = v.root R.null := hrep.isNode.far
    have := hrep.far_ne (by rwa [Tree.root_join])
    rwa [Tree.root_join, ← hv] at this
  have hside := sideOf_eq hnear hfar
  refine ⟨⟨by rwa [hp], by rwa [hp], by rwa [hp, hpp], by rw [hp, hpp, hps, hside]; exact hnear⟩, ?_⟩
  show (getNode R (s.heap (s.heap x).p).p >>= _) = _
  rw [hp, hpp, getNode_ok hppn, Exec.ok_bind, hps, hside]
  rfl

/-- The loop ends after half as many iterations as its node is deep, each of which can rely on
what it dereferences, and the tree is balanced then. -/
theorem insertLoop_run (fuel : Nat) {b : Bool} (h : Rising R s x ctx t b n)
    (hfuel : ctx.length / 2 < fuel) :
    ∃ ys s', (insertLoop R).run .fuel fuel (s, x) = .ok (ys, s') ∧ ys.length ≤ ctx.length / 2 ∧
      (∀ y ∈ ys, InsertSafe R y.1 y.2) ∧
      ∃ t' m, Balanced t' .black m ∧ Reshape R s (Context.plug ctx t) s' t' := by
  refine Loop.run_ok (fun k y => ∃ ctx' t' b' n', Rising R y.1 y.2 ctx' t' b' n' ∧
    (b' = false → ctx'.length / 2 ≤ k) ∧ Reshape R s (Context.plug ctx t) y.1 (Context.plug ctx' t'))
    _ _ ?_ ?_ ⟨ctx, t, b, n, h, fun _ => Nat.le_refl _, .refl h.rep⟩ hfuel
  · rintro k ⟨s₁, x₁⟩ ⟨ctx', t', b', n', hrise, hlen, hre⟩ htest
    have hd : ¬(ctx' = [] ∨ b' = true) := fun hd => by
      rw [(hrise.done hd).1] at htest
      cases htest
    obtain ⟨hne, hb⟩ := not_or.mp hd
    obtain rfl : b' = false := by simpa using hb
    obtain ⟨⟨e, c, p, u⟩, rest, rfl⟩ := List.exists_cons_of_ne_nil hne
    obtain ⟨rfl, -, d, pp, v, rest, -, -, rfl, -⟩ := hrise.accepts.refusing
    have hlen := hlen rfl
    simp only [List.length_cons] at hlen
    obtain ⟨hsafe, hbody⟩ := hrise.body
    obtain ⟨s₂, x₂, ctx'', t'', b'', n'', hrun, hrise', hctx, hre'⟩ := hrise.turn
    refine ⟨hsafe, rest.length / 2, by omega, .inl ⟨(s₂, x₂), by rw [hbody, hrun]; rfl, ctx'', t'', b'',
      n'', hrise', fun hb => ?_, hre.trans hre'⟩⟩
    rw [hctx hb]
  · rintro k ⟨s₁, x₁⟩ ⟨ctx', t', b', n', hrise, -, hre⟩ htest
    have hd : ctx' = [] ∨ b' = true := by
      by_contra hd
      obtain ⟨hne, hb⟩ := not_or.mp hd
      obtain rfl : b' = false := by simpa using hb
      obtain ⟨⟨e, c, p, u⟩, rest, rfl⟩ := List.exists_cons_of_ne_nil hne
      obtain ⟨rfl, -, d, pp, v, rest, -, -, rfl, -⟩ := hrise.accepts.refusing
      obtain ⟨hsafe, -⟩ := hrise.body
      rw [hsafe.test] at htest
      cases htest
    obtain ⟨-, t'', m, hm, hre'⟩ := hrise.done hd
    exact ⟨t'', m, hm, hre.trans hre'⟩

end Loop

end ShmMalloc.Rbtree
