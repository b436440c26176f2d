import ShmMalloc.Rbtree.Search
import ShmMalloc.Rbtree.Runs

/-! Stepping through a tree: `rbtree_next`, `rbtree_prev`, and the loop over all
nodes of the header's test.

A step from a node whose subtree fills a hole goes to the near end of what the
listing has beyond the hole. The two directions are one proof with a `Side`. -/
namespace ShmMalloc.Rbtree
open Library

variable {P K : Type} {R : Macros P K}

/-- The handles beyond the hole on side `d`, in order. -/
def beyond : Side → Context P Color → List P
  | .left, ctx => Context.before ctx
  | .right, ctx => Context.after ctx

/-- Two stretches of a listing, the first the nearer one to where side `d` is left for. -/
def following : Side → List P → List P → List P
  | .left, near, far => far ++ near
  | .right, near, far => near ++ far

theorem listEnd_following (d : Side) (near far : List P) :
    listEnd d.other (following d near far) =
      (listEnd d.other near).or (listEnd d.other far) := by
  cases d with
  | left => exact List.getLast?_append
  | right => exact List.head?_append

/-- A hole on the side that is stepped to has nothing new beyond it. -/
theorem beyond_same {f : Frame P Color} {ctx : Context P Color} {d : Side} (h : f.side = d) :
    beyond d (f :: ctx) = beyond d ctx := by
  subst h
  cases hs : f.side <;> simp [beyond, Context.before, Context.after, hs]

/-- A hole on the other side has its parent next to it. -/
theorem listEnd_beyond_other {f : Frame P Color} {ctx : Context P Color} {d : Side}
    (h : f.side = d.other) : listEnd d.other (beyond d (f :: ctx)) = some f.handle := by
  cases d with
  | left => simp [beyond, listEnd, Context.before, show f.side = .right from h, Side.other]
  | right => simp [beyond, listEnd, Context.after, show f.side = .left from h, Side.other]

variable [DecidableEq P]

/-- The climb from a hole stops at the nearest node beyond it. -/
theorem climb_run {h : P → Node P K} {d : Side} {ctx : Context P Color} {t : Tree P Color}
    {fuel : Nat} (l : Linked view R.null h R.null (Context.plug ctx t))
    (nd : (Context.plug ctx t).inorder.Nodup) (ht : t ≠ .nil) (hf : ctx.length < fuel) :
    climb R d h fuel (t.root R.null) = .ok (listEnd d.other (beyond d ctx)) := by
  induction ctx generalizing t fuel with
  | nil =>
    obtain ⟨fuel, rfl⟩ : ∃ k, fuel = k + 1 := ⟨fuel - 1, by omega⟩
    cases t with
    | nil => exact absurd rfl ht
    | node c lt p rt =>
      have hp : (h p).p = R.null := l.1.parent
      rw [Tree.root, climb, if_pos hp]
      cases d <;> rfl
  | cons f ctx ih =>
    obtain ⟨fuel, rfl⟩ : ∃ k, fuel = k + 1 := ⟨fuel - 1, by omega⟩
    obtain ⟨ht', hctx⟩ := linked_plug.mp l
    obtain ⟨n, hsib, -⟩ := hctx
    have hroot : t.root R.null ≠ R.null := mt ht'.root_eq_null.mp ht
    have hmem := Tree.root_mem R.null hroot
    have hp : (h (t.root R.null)).p = f.handle := by
      cases t with
      | nil => exact absurd rfl ht
      | node => exact ht'.1.parent
    have hs : (h (t.root R.null)).s = t.root R.null := ht'.own hmem
    rw [climb, hp, hs, if_neg n.ne]
    rcases Side.eq_or_other d f.side with hd | hd
    · -- the hole is on the side that is stepped to, so the parent is passed
      have hnear : (h f.handle).child d = t.root R.null := by
        rw [← hd]
        exact n.near
      have hrest := ih l nd (Tree.join_ne_nil _ _ _ _ _) (show ctx.length < fuel by
        rw [List.length_cons] at hf
        omega)
      rw [Frame.fill, Tree.root_join] at hrest
      rw [if_pos hnear.symm, hrest, beyond_same hd]
    · have hfar : (h f.handle).child d = f.sibling.root R.null := by
        have := n.far
        rwa [hd, Side.other_other] at this
      have hne : t.root R.null ≠ f.sibling.root R.null := by
        intro he
        rw [he] at hroot hmem
        have hsibling := Tree.root_mem R.null hroot
        exact ((Context.nodup_plug _ _).mp nd).2.2 _ hmem
          ((Context.mem_handles_cons _ _ _).mpr (.inr (.inl hsibling)))
      rw [if_neg (by rwa [hfar]), listEnd_beyond_other hd]

/-- A step from a node goes to the near end of what lies beyond the node. -/
theorem step_run {s : State P K} {d : Side} {ctx : Context P Color} {c : Color} {p : P}
    {t u : Tree P Color} (hrep : Rep R s (Context.plug ctx (.join d c t p u)))
    (hsize : s.size = (Context.plug ctx (.join d c t p u)).size) :
    step R d s p = .ok (listEnd d.other (following d t.inorder (beyond d ctx))) := by
  have hnode := hrep.isNode
  have hheight := Context.length_le_size ctx (.join d c t p u)
  have hle := Tree.height_le_size (Context.plug ctx (.join d c t p u))
  have hnear : (s.heap p).child d = t.root R.null := hnode.near
  obtain ⟨-, ht, -⟩ := linked_join.mp (linked_plug.mp hrep.linked).1
  have hjoin : 0 < (Tree.join d c t p u).height ∧ t.height < (Tree.join d c t p u).height := by
    cases d <;> simp only [Tree.join, Library.Tree.height] <;> omega
  rw [step, listEnd_following]
  by_cases hn : t = .nil
  · subst hn
    rw [if_neg (by simpa using hnear)]
    have hclimb := climb_run (d := d) hrep.linked hrep.nodup (Tree.join_ne_nil _ _ _ _ _)
      (show ctx.length < s.size + 1 by omega)
    rw [Tree.root_join] at hclimb
    rw [hclimb]
    cases d <;> rfl
  · rw [if_pos (by rw [hnear]; exact mt ht.root_eq_null.mp hn), hnear]
    obtain ⟨ctx', c', q, v, rfl, hside, hrun⟩ := endNode_run (d := d.other) ht hn
      (show t.height ≤ s.size + 1 by omega)
    rw [hrun, listEnd_plug hside]
    rfl

/-- `rbtree_next` and `rbtree_prev` go to the neighbours in the listing. -/
theorem step_holds {s : State P K} {l a b : List P} {p : P} (h : Holds R s l)
    (hl : l = a ++ p :: b) : next R s p = .ok b.head? ∧ prev R s p = .ok a.getLast? := by
  obtain ⟨t, m, hrep, hbal, hsize, rfl⟩ := h
  obtain ⟨ctx, c, lt, rt, rfl⟩ := Tree.focus (t := t) (p := p) (by rw [hl]; simp)
  have hin : (Context.before ctx ++ lt.inorder) ++ p :: (rt.inorder ++ Context.after ctx) =
      a ++ p :: b := by
    rw [← hl, Context.inorder_plug, Tree.inorder]
    simp
  have hnd := hrep.nodup
  rw [hl] at hnd
  have hpa : p ∉ a := fun hp => (List.nodup_append.mp hnd).2.2 p hp p (List.mem_cons_self ..) rfl
  have hpb : p ∉ b := (List.nodup_cons.mp (List.nodup_append.mp hnd).2.1).1
  obtain ⟨rfl, -, rfl⟩ := (List.append_cons_inj_of_notMem hpa hpb).mp hin.symm
  exact ⟨step_run (d := .right) hrep hsize, step_run (d := .left) hrep hsize⟩

/-- Stepping goes from `a` to `b` one way when it goes from `b` to `a` the other. -/
theorem next_iff_prev {s : State P K} {l : List P} (h : Holds R s l) {a b : P} (ha : a ∈ l)
    (hb : b ∈ l) : next R s a = .ok (some b) ↔ prev R s b = .ok (some a) := by
  have hnd : l.Nodup := h.nodup
  constructor
  · intro hnext
    obtain ⟨x, y, hl⟩ := List.append_of_mem ha
    rw [(step_holds h hl).1] at hnext
    obtain ⟨z, rfl⟩ := List.head?_eq_some_iff.mp (Except.ok.inj hnext)
    have hl' : l = (x ++ [a]) ++ b :: z := by simp [hl]
    rw [(step_holds h hl').2, List.getLast?_append]
    rfl
  · intro hprev
    obtain ⟨x, y, hl⟩ := List.append_of_mem hb
    rw [(step_holds h hl).2] at hprev
    obtain ⟨z, rfl⟩ := List.getLast?_eq_some_iff.mp (Except.ok.inj hprev)
    have hl' : l = z ++ a :: (b :: y) := by simp [hl]
    rw [(step_holds h hl').1]
    rfl

/-! ### The loop over a tree -/

variable (R)

/-- `while(node != NULL) { …; node = rbtree_next(root, node); }`, or the same with
`rbtree_prev`: the nodes it passes. -/
def visit (d : Side) (s : State P K) : Nat → Option P → Exec (List P)
  | _, none => .ok []
  | 0, some _ => .error .fuel
  | fuel + 1, some p => do
    let q ← step R d s p
    let ps ← visit d s fuel q
    return p :: ps

variable {R}

theorem visit_next {s : State P K} {l a b : List P} {fuel : Nat} (h : Holds R s l)
    (hl : l = a ++ b) (hf : b.length ≤ fuel) : visit R .right s fuel b.head? = .ok b := by
  induction b generalizing a fuel with
  | nil => cases fuel <;> rfl
  | cons p b ih =>
    obtain ⟨fuel, rfl⟩ : ∃ k, fuel = k + 1 := ⟨fuel - 1, by rw [List.length_cons] at hf; omega⟩
    have hstep : step R .right s p = .ok b.head? := (step_holds h hl).1
    have hrest : visit R .right s fuel b.head? = .ok b := ih (a := a ++ [p]) (by simp [hl]) (by simpa using hf)
    rw [List.head?_cons, visit, hstep]
    show (visit R .right s fuel b.head? >>= fun ps => .ok (p :: ps)) = _
    rw [hrest]
    rfl

theorem visit_prev {s : State P K} {l a b : List P} {fuel : Nat} (h : Holds R s l)
    (hl : l = a.reverse ++ b) (hf : a.length ≤ fuel) :
    visit R .left s fuel a.reverse.getLast? = .ok a := by
  induction a generalizing b fuel with
  | nil => cases fuel <;> rfl
  | cons p a ih =>
    obtain ⟨fuel, rfl⟩ : ∃ k, fuel = k + 1 := ⟨fuel - 1, by rw [List.length_cons] at hf; omega⟩
    have hl' : l = a.reverse ++ p :: b := by simp [hl]
    have hstep : step R .left s p = .ok a.reverse.getLast? := (step_holds h hl').2
    have hrest : visit R .left s fuel a.reverse.getLast? = .ok a := ih (b := p :: b) hl' (by simpa using hf)
    rw [List.reverse_cons, List.getLast?_concat, visit, hstep]
    show (visit R .left s fuel a.reverse.getLast? >>= fun ps => .ok (p :: ps)) = _
    rw [hrest]
    rfl

/-- The loop from `rbtree_min` lists the tree, and the one from `rbtree_max` lists it in reverse. -/
theorem visit_holds {s : State P K} {l : List P} {fuel : Nat} (h : Holds R s l)
    (hf : l.length ≤ fuel) :
    (min R s >>= visit R .right s fuel) = .ok l ∧
      (max R s >>= visit R .left s fuel) = .ok l.reverse := by
  constructor
  · rw [min, endOf_holds h]
    exact visit_next (a := []) h rfl hf
  · rw [max, endOf_holds h]
    have hlast : visit R .left s fuel l.reverse.reverse.getLast? = .ok l.reverse :=
      visit_prev (b := []) h (by simp) (by simpa using hf)
    rwa [List.reverse_reverse] at hlast

/-- **After every sequence of insertions and deletions** stepping from `rbtree_min` to the
end passes every node once, in order, stepping back from `rbtree_max` passes them in
the reverse order, and the two steps undo each other. -/
theorem run_visit (h : P → Node P K) {ops : List (Op P K)} (hops : Legal R [] ops) :
    ∃ s t, run R (init R h) ops = .ok s ∧ Rep R s t ∧ t.inorder.Nodup ∧
      t.inorder.Perm (live [] ops) ∧
      (∀ fuel, s.size ≤ fuel →
        (min R s >>= visit R .right s fuel) = .ok t.inorder ∧
        (max R s >>= visit R .left s fuel) = .ok t.inorder.reverse) ∧
      ∀ a ∈ t.inorder, ∀ b ∈ t.inorder,
        next R s a = .ok (some b) ↔ prev R s b = .ok (some a) := by
  obtain ⟨s, k, hrun, hholds, hperm⟩ := run_holds (Holds.init h) (List.Perm.refl []) hops
  obtain ⟨t, m, hrep, hbal, hsize, rfl⟩ := id hholds
  refine ⟨s, t, hrun, hrep, hrep.nodup, hperm, fun fuel hf => ?_, fun a ha b hb => ?_⟩
  · exact visit_holds hholds (by rw [Tree.size_inorder]; omega)
  · exact next_iff_prev hholds ha hb

theorem run_visit_test : Legal testMacros [] testOps ∧
    ∃ (s : State Nat Int) (t : Tree Nat Color),
      run testMacros (init testMacros (testNode · 0)) testOps = .ok s ∧ s.size = 2 ∧
      (min testMacros s >>= visit testMacros .right s 2) = .ok t.inorder ∧
      (max testMacros s >>= visit testMacros .left s 2) = .ok t.inorder.reverse := by
  obtain ⟨s, t, hrun, -, -, -, hvisit, -⟩ := run_visit (testNode · 0) testOps_legal
  have hsize : (run testMacros (init testMacros (testNode · 0)) testOps).map State.size = .ok 2 := by
    decide
  rw [hrun] at hsize
  have hsize : s.size = 2 := Except.ok.inj hsize
  obtain ⟨hnext, hprev⟩ := hvisit 2 (Nat.le_of_eq hsize)
  exact ⟨testOps_legal, s, t, hrun, hsize, hnext, hprev⟩

end ShmMalloc.Rbtree
