import ShmMalloc.Rbtree.FixInsert
import ShmMalloc.Rbtree.Search
import Mathlib.Data.List.Pairwise

/-! Insertion: the descent, the new leaf and the whole call. -/
namespace ShmMalloc.Rbtree
open Library

variable {P K : Type} [DecidableEq P] {R : Macros P K}

/-- A path that turns right at the nodes whose key is smaller than `v`. -/
def Path (R : Macros P K) (h : P → Node P K) (v : K) (ctx : Context P Color) : Prop :=
  ∀ f ∈ ctx, f.side = .right ↔ R.compare (h f.handle).v v < 0

omit [DecidableEq P] in
/-- The neighbours of the hole at the end of such a path lie on the path. -/
theorem Path.neighbours {h : P → Node P K} {v : K} {ctx : Context P Color} (hp : Path R h v ctx) :
    (∀ q ∈ (Context.before ctx).getLast?, R.compare (h q).v v < 0) ∧
      (∀ q ∈ (Context.after ctx).head?, ¬R.compare (h q).v v < 0) := by
  induction ctx with
  | nil => simp [Context.before, Context.after]
  | cons f rest ih =>
    obtain ⟨hb, ha⟩ := ih fun g hg => hp g (List.mem_cons_of_mem _ hg)
    have hf := hp f (List.mem_cons_self ..)
    cases hs : f.side with
    | left =>
      simp only [Context.before, Context.after, hs, List.append_nil, List.cons_append,
        List.head?_cons, Option.mem_some_iff, forall_eq']
      refine ⟨hb, fun hlt => ?_⟩
      rw [hf.mpr hlt] at hs
      cases hs
    | right =>
      simp only [Context.before, Context.after, hs, List.nil_append, List.getLast?_append,
        List.getLast?_singleton, Option.some_or, Option.mem_some_iff, forall_eq']
      exact ⟨hf.mp hs, ha⟩

theorem descend_path {h : P → Node P K} {v : K} {par : P} {t : Tree P Color} {fuel : Nat}
    {last : Option P} (l : Linked view R.null h par t) (hf : t.height < fuel) :
    ∃ ctx, t = Context.plug ctx .nil ∧ Path R h v ctx ∧
      descend R h v fuel (t.root R.null) last =
        .ok (ctx.head?.elim last fun f => some f.handle) := by
  induction t generalizing par fuel last with
  | nil =>
    obtain ⟨fuel, rfl⟩ : ∃ k, fuel = k + 1 := ⟨fuel - 1, by omega⟩
    exact ⟨[], rfl, by simp [Path], by simp [descend]⟩
  | node c lt p rt ihl ihr =>
    obtain ⟨fuel, rfl⟩ : ∃ k, fuel = k + 1 := ⟨fuel - 1, by omega⟩
    obtain ⟨n, hl, hr⟩ := l
    have e₁ : (h p).left = lt.root R.null := n.near
    have e₂ : (h p).right = rt.root R.null := n.far
    simp only [Library.Tree.height] at hf
    rw [Tree.root, descend, if_neg n.ne, e₁, e₂]
    by_cases hc : R.compare (h p).v v < 0
    · obtain ⟨ctx, rfl, hpath, hrun⟩ := ihr hr (show rt.height < fuel by omega)
      refine ⟨ctx ++ [⟨.right, c, p, lt⟩], by rw [Context.plug_append]; rfl, fun f hmem => ?_, ?_⟩
      · rcases List.mem_append.mp hmem with hmem | hmem
        · exact hpath f hmem
        · obtain rfl := List.mem_singleton.mp hmem
          exact iff_of_true rfl hc
      · rw [if_pos hc, hrun]
        cases ctx <;> rfl
    · obtain ⟨ctx, rfl, hpath, hrun⟩ := ihl hl (show lt.height < fuel by omega)
      refine ⟨ctx ++ [⟨.left, c, p, rt⟩], by rw [Context.plug_append]; rfl, fun f hmem => ?_, ?_⟩
      · rcases List.mem_append.mp hmem with hmem | hmem
        · exact hpath f hmem
        · obtain rfl := List.mem_singleton.mp hmem
          exact iff_of_false (by simp) hc
      · rw [if_neg hc, hrun]
        cases ctx <;> rfl

/-- A leaf hung at the end of a path. -/
theorem attach_rep {s : State P K} {new p : P} {d : Side} {c : Color} {u : Tree P Color}
    {ctx : Context P Color} (h : Rep R s (Context.plug (⟨d, c, p, u⟩ :: ctx) .nil))
    (hnew : new ∉ (Context.plug (⟨d, c, p, u⟩ :: ctx) .nil).inorder) (hn : new ≠ R.null)
    (hs : (s.heap new).s = new) (hl : (s.heap new).left = R.null)
    (hr : (s.heap new).right = R.null) (hc : (s.heap new).color = .red) :
    Rep R ((s.modify p (Node.setChild d new)).modify new (Node.setP p))
      (Context.plug (⟨d, c, p, u⟩ :: ctx) (.join .left .red .nil new .nil)) := by
  obtain ⟨hlk, hroot, hnd⟩ := h
  obtain ⟨-, hctx⟩ := linked_plug.mp hlk
  have hmem : p ∈ Context.handles (⟨d, c, p, u⟩ :: ctx) :=
    (Context.mem_handles_cons _ _ _).mpr (.inl rfl)
  rw [Context.mem_plug] at hnew
  rw [Context.nodup_plug] at hnd
  have hnp : new ≠ p := fun he => hnew (.inr (he ▸ hmem))
  let s' := (s.modify p (Node.setChild d new)).modify new (Node.setP p)
  have hcell : s'.heap new = (s.heap new).setP p := by
    rw [modify_heap_self, modify_heap_ne hnp]
  have hpcell : s'.heap p = (s.heap p).setChild d new := by
    rw [modify_heap_ne hnp.symm, modify_heap_self]
  have hout : ∀ r, r ≠ new → r ≠ p → s'.heap r = s.heap r :=
    fun r h₁ h₂ => (modify_heap_ne h₁).trans (modify_heap_ne h₂)
  have hne : ∀ r ∈ Context.handles (⟨d, c, p, u⟩ :: ctx), r ≠ new :=
    fun r hr he => hnew (.inr (he ▸ hr))
  refine ⟨linked_plug.mpr ⟨⟨⟨hn, ?_, ?_, ?_, ?_, ?_⟩, trivial, trivial⟩, ?_⟩, ?_, ?_⟩
  · exact (congrArg Node.s hcell).trans hs
  · exact (congrArg Node.color hcell).trans hc
  · exact congrArg Node.p hcell
  · exact (congrArg Node.left hcell).trans hl
  · exact (congrArg Node.right hcell).trans hr
  · refine hctx.setHole hnd.2.1 (fun r hr hrp => hout r (hne r hr) hrp) (fun r hr hown => ?_)
      fun f rest he => ?_
    · by_cases hrp : r = p
      · subst hrp
        exact (congrArg Node.s hpcell).trans ((s_setChild ..).trans hown)
      · rw [hout r (hne r hr) hrp]
        exact hown
    · cases he
      show (s'.heap p).color = _ ∧ (s'.heap p).p = _ ∧ (s'.heap p).child d = _ ∧
        (s'.heap p).child d.other = _
      rw [hpcell]
      exact ⟨color_setChild .., p_setChild .., child_setChild_same .., child_other_setChild ..⟩
  · exact hroot.trans (root_plug_congr (by simp) _ _)
  · rw [Context.nodup_plug]
    refine ⟨by simp [Tree.join, Tree.inorder], hnd.2.1, fun q hq => ?_⟩
    obtain rfl : q = new := by simpa [Tree.join, Tree.inorder] using hq
    exact fun hq => hnew (.inr hq)

theorem insertInit_rep {s : State P K} {t : Tree P Color} {new : P} (h : Rep R s t)
    (hnew : new ∉ t.inorder) : Rep R (insertInit R s new) t :=
  have hmod := h.modify hnew (nodeInit R)
  ⟨hmod.linked, hmod.root, hmod.nodup⟩

theorem insertInit_keeps (s : State P K) (l : List P) (new : P) :
    Keeps (new :: l) s (insertInit R s new) := by
  have k := (Keeps.refl (new :: l) s).modify (f := nodeInit R) (List.mem_cons_self ..)
    (fun _ => rfl) (fun _ => rfl)
  exact ⟨k.outside, k.own, k.key⟩

/-! ### The call -/

/-- `rbtree_insert` up to `rbtree_fix_insert`, and whether that is called. -/
def insertStart (R : Macros P K) (s : State P K) (new : P) : Exec (State P K × Bool) := do
  require ((s.heap new).s = new)
  let s := insertInit R s new
  if s.root = R.null then
    let s := s.modify new (Node.setColor .black)
    return (s.setRoot (s.heap new).s, false)
  let node ← descend R s.heap (s.heap new).v (s.size + 1) s.root none
  let node ← node.elim (.error .null) .ok
  let s :=
    if R.compare (s.heap node).v (s.heap new).v < 0 then
      s.modify node (Node.setChild .right (s.heap new).s)
    else s.modify node (Node.setChild .left (s.heap new).s)
  return (s.modify new (Node.setP (s.heap node).s), true)

/-- `rbtree_insert`, with the states that the iterations of its loop start from. -/
def insertTurns (R : Macros P K) (s : State P K) (new : P) :
    Exec (List (State P K × P) × State P K) := do
  let (s', fix) ← insertStart R s new
  if fix then (insertLoop R).run .fuel (s'.size + 1) (s', new) else return ([], s')

theorem insert_eq (s : State P K) (new : P) :
    insert R s new = insertStart R s new >>= fun y =>
      if y.2 then fixInsert R (y.1.size + 1) y.1 new else .ok y.1 := by
  unfold insertStart insert
  cases require ((s.heap new).s = new) with
  | error e => rfl
  | ok _ =>
    simp only [Exec.ok_bind]
    split
    · rfl
    · cases descend R (insertInit R s new).heap ((insertInit R s new).heap new).v
        ((insertInit R s new).size + 1) (insertInit R s new).root none with
      | error e => rfl
      | ok node =>
        cases node with
        | none => rfl
        | some node => rfl

theorem insertTurns_snd (s : State P K) (new : P) :
    (insertTurns R s new).map Prod.snd = insert R s new := by
  rw [insert_eq, insertTurns]
  cases insertStart R s new with
  | error e => rfl
  | ok y =>
    obtain ⟨s', b⟩ := y
    cases b with
    | false => rfl
    | true => exact (fixInsert_eq ..).symm

theorem insertStart_empty {s : State P K} {new : P} (hr : s.root = R.null)
    (hs : (s.heap new).s = new) :
    insertStart R s new =
      .ok (((insertInit R s new).modify new (Node.setColor .black)).setRoot new, false) := by
  unfold insertStart
  simp [hs, hr, insertInit, nodeInit]

theorem insertStart_descend {s : State P K} {new node : P} {d : Side} (hr : s.root ≠ R.null)
    (hs : (s.heap new).s = new) (hn : (s.heap node).s = node)
    (hrun : descend R (insertInit R s new).heap (s.heap new).v (s.size + 2) s.root none = .ok (some node))
    (hd : d = .right ↔ R.compare (s.heap node).v (s.heap new).v < 0) :
    insertStart R s new = .ok (((insertInit R s new).modify node (Node.setChild d new)).modify new
      (Node.setP node), true) := by
  have hs₁ : ((insertInit R s new).heap new).s = new :=
    ((insertInit_keeps (R := R) s [] new).own new).trans hs
  have hv₁ : ∀ q, ((insertInit R s new).heap q).v = (s.heap q).v := (insertInit_keeps (R := R) s [] new).key
  have hn₁ : ((insertInit R s new).heap node).s = node :=
    ((insertInit_keeps (R := R) s [] new).own node).trans hn
  have hr₁ : (insertInit R s new).root = s.root := rfl
  unfold insertStart
  simp only [hs, hs₁, hv₁, hr₁, decide_true, require_true, Exec.ok_bind, if_neg hr]
  rw [show (insertInit R s new).size + 1 = s.size + 2 from rfl, hrun]
  have hif : (if R.compare (s.heap node).v (s.heap new).v < 0 then
      (insertInit R s new).modify node (Node.setChild .right new)
      else (insertInit R s new).modify node (Node.setChild .left new)) =
      (insertInit R s new).modify node (Node.setChild d new) := by
    cases d with
    | left => exact if_neg fun h => by simpa using hd.mpr h
    | right => exact if_pos (hd.mp rfl)
  simp only [Exec.ok_bind, Option.elim_some, hif, modify_setChild_s, hn₁]
  rfl

/-- What `insertStart` leaves: the new node black and alone, or red at the end of its path. -/
structure Attached (R : Macros P K) (s s' : State P K) (new : P) (t : Tree P Color)
    (ctx : Context P Color) (fix : Bool) : Prop where
  hole : t = Context.plug ctx .nil
  path : Path R s.heap (s.heap new).v ctx
  alone : fix = false → ctx = [] ∧ Rep R s' (.node .black .nil new .nil)
  rising : fix = true → ∃ b n, Rising R s' new ctx (.join .left .red .nil new .nil) b n
  size : s'.size = s.size + 1
  keeps : Keeps (new :: t.inorder) s s'

theorem insertStart_ok {s : State P K} {t : Tree P Color} {m : Nat} {new : P} (hrep : Rep R s t)
    (hbal : Balanced t .black m) (hsize : s.size = t.size) (hnew : new ∉ t.inorder)
    (hn : new ≠ R.null) (hs : (s.heap new).s = new) :
    ∃ s' fix ctx, insertStart R s new = .ok (s', fix) ∧ Attached R s s' new t ctx fix := by
  have hr₁ := insertInit_rep hrep hnew
  have hk₁ := insertInit_keeps (R := R) s t.inorder new
  have hcell : (insertInit R s new).heap new = nodeInit R (s.heap new) := modify_heap_self ..
  cases t with
  | nil =>
    refine ⟨_, false, [], insertStart_empty hrep.root hs, rfl, by simp [Path], fun _ => ⟨rfl,
      ⟨⟨hn, ?_, ?_, ?_, ?_, ?_⟩, trivial, trivial⟩, rfl, ?_⟩, by simp, rfl,
      (hk₁.setColor (List.mem_cons_self ..) _).setRoot _⟩
    · simpa [hcell, nodeInit] using hs
    · simp
    · simp [hcell, nodeInit]
    · simp [hcell, nodeInit, Node.child, Node.setColor]
    · simp [hcell, nodeInit, Node.child, Side.other, Node.setColor]
    · simp [Tree.inorder]
  | node c lt p rt =>
    have hroot : s.root ≠ R.null := by
      rw [hrep.root]
      exact hrep.linked.1.ne
    obtain ⟨ctx, ht, hpath, hrun⟩ := descend_path (R := R) (v := (s.heap new).v)
      hr₁.linked (show (Library.Tree.node c lt p rt).height < s.size + 2 by
        have := Tree.height_le_size (.node c lt p rt)
        omega)
    cases ctx with
    | nil => cases ht
    | cons f rest =>
      obtain ⟨d, k, q, u⟩ := f
      rw [ht] at hr₁ hnew hk₁ hbal ⊢
      have hq : q ∈ (Context.plug (⟨d, k, q, u⟩ :: rest) .nil).inorder :=
        (Context.mem_plug _ _ _).mpr (.inr ((Context.mem_handles_cons _ _ _).mpr (.inl rfl)))
      have hkey : ∀ r, ((insertInit R s new).heap r).v = (s.heap r).v := hk₁.key
      have hpath' : Path R s.heap (s.heap new).v (⟨d, k, q, u⟩ :: rest) := fun f hf => by
        have := hpath f hf
        rwa [hkey] at this
      have hside : d = .right ↔ R.compare (s.heap q).v (s.heap new).v < 0 :=
        hpath' _ (List.mem_cons_self ..)
      have hqs : (s.heap q).s = q := by
        rw [← hk₁.own]
        exact (linked_plug.mp hr₁.linked).2.1.own
      -- the new node is a red leaf at the end of the path
      have hcall := insertStart_descend (R := R) hroot hs hqs (by rw [hrep.root, hrun]; rfl) hside
      have hrep₂ := attach_rep (R := R) hr₁ hnew hn (by rw [hcell]; exact hs) (by rw [hcell]; rfl)
        (by rw [hcell]; rfl) (by rw [hcell]; rfl)
      obtain ⟨b, k', n, hacc, hnil, -⟩ := Accepts.of_plug hbal
      cases hnil
      exact ⟨_, true, _, hcall, rfl, hpath', by simp,
        fun _ => ⟨b, _, hrep₂, ⟨_, _, _, rfl⟩, .join_red .nil .nil, hacc⟩, rfl,
        (hk₁.setChild (List.mem_cons_of_mem _ hq) d new).setP (List.mem_cons_self ..) q⟩

/-- The repair after an insertion: what its loop does, and the tree that it leaves. -/
theorem Attached.repair {s s' : State P K} {new : P} {t : Tree P Color} {ctx : Context P Color}
    {fix : Bool} (h : Attached R s s' new t ctx fix) (hsize : s.size = t.size) :
    ∃ ys s'', (if fix then (insertLoop R).run .fuel (s'.size + 1) (s', new) else .ok ([], s')) =
        .ok (ys, s'') ∧ ys.length ≤ t.height ∧ (∀ y ∈ ys, InsertSafe R y.1 y.2) ∧
      Holds R s'' (Context.before ctx ++ new :: Context.after ctx) ∧ Keeps (new :: t.inorder) s s'' := by
  obtain ⟨rfl, hpath, halone, hrising, hsize', hk⟩ := h
  have hold : (Context.plug ctx (.nil : Tree P Color)).inorder =
      Context.before ctx ++ Context.after ctx := by
    rw [Context.inorder_plug]
    simp [Tree.inorder]
  have hin : (Context.plug ctx (.join .left .red .nil new .nil)).inorder =
      Context.before ctx ++ new :: Context.after ctx := by
    rw [Context.inorder_plug]
    simp [Tree.join, Tree.inorder]
  cases fix with
  | false =>
    obtain ⟨rfl, hrep⟩ := halone rfl
    refine ⟨[], s', rfl, Nat.zero_le _, by simp, ⟨_, 1, hrep, .black .nil .nil, ?_, rfl⟩, hk⟩
    rw [hsize', hsize]
    rfl
  | true =>
    obtain ⟨b, n, hrise⟩ := hrising rfl
    have hlen := Context.length_le_size ctx (.nil : Tree P Color)
    obtain ⟨ys, s'', hrun, hys, hsafe, t', m, hm, hre⟩ := insertLoop_run (s'.size + 1) hrise (by
      have := Tree.height_le_size (Context.plug ctx (.nil : Tree P Color))
      omega)
    refine ⟨ys, s'', hrun, by omega, hsafe, ⟨t', m, hre.rep, hm, ?_, hre.inorder.trans hin⟩,
      hk.trans (hre.keeps.mono fun r hr => ?_)⟩
    · rw [hre.size, ← Tree.size_inorder, hre.inorder, hin, hsize', hsize, ← Tree.size_inorder, hold]
      simp only [List.length_append, List.length_cons]
      omega
    · rw [hin] at hr
      rw [hold]
      simp only [List.mem_append, List.mem_cons] at hr ⊢
      tauto

/-- An insertion puts the new node between a smaller neighbour and one that is not smaller, after
as many iterations of its loop as the tree is high. -/
theorem insertTurns_holds {s : State P K} {t : Tree P Color} {m : Nat} {new : P} (hrep : Rep R s t)
    (hbal : Balanced t .black m) (hsize : s.size = t.size) (hnew : new ∉ t.inorder)
    (hn : new ≠ R.null) (hs : (s.heap new).s = new) :
    ∃ ys s', insertTurns R s new = .ok (ys, s') ∧ ys.length ≤ t.height ∧
      (∀ y ∈ ys, InsertSafe R y.1 y.2) ∧
      ∃ a b, t.inorder = a ++ b ∧ Holds R s' (a ++ new :: b) ∧ Keeps (new :: t.inorder) s s' ∧
        (∀ q ∈ a.getLast?, R.compare (s.heap q).v (s.heap new).v < 0) ∧
        (∀ q ∈ b.head?, ¬R.compare (s.heap q).v (s.heap new).v < 0) := by
  obtain ⟨s', fix, ctx, hrun, hatt⟩ := insertStart_ok hrep hbal hsize hnew hn hs
  obtain ⟨ys, s'', hrepair, hlen, hsafe, hholds, hk⟩ := hatt.repair hsize
  obtain ⟨hb, ha⟩ := hatt.path.neighbours
  refine ⟨ys, s'', ?_, hlen, hsafe, _, _, ?_, hholds, hk, hb, ha⟩
  · rw [insertTurns, hrun]
    exact hrepair
  · rw [hatt.hole, Context.inorder_plug]
    simp [Tree.inorder]

/-- **Insertion** puts the new node between a smaller neighbour and one that is not
smaller, whatever the comparison is, and leaves a red-black tree. -/
theorem insert_holds {s : State P K} {l : List P} {new : P} (h : Holds R s l) (hnew : new ∉ l)
    (hn : new ≠ R.null) (hs : (s.heap new).s = new) :
    ∃ s' a b, insert R s new = .ok s' ∧ l = a ++ b ∧ Holds R s' (a ++ new :: b) ∧
      Keeps (new :: l) s s' ∧
      (∀ q ∈ a.getLast?, R.compare (s.heap q).v (s.heap new).v < 0) ∧
      (∀ q ∈ b.head?, ¬R.compare (s.heap q).v (s.heap new).v < 0) := by
  obtain ⟨t, m, hrep, hbal, hsize, rfl⟩ := h
  obtain ⟨ys, s', hrun, -, -, a, b, hab, hholds, hk, hlast, hhead⟩ :=
    insertTurns_holds hrep hbal hsize hnew hn hs
  exact ⟨s', a, b, by rw [← insertTurns_snd, hrun]; rfl, hab, hholds, hk, hlast, hhead⟩

/-- With an ordered comparison the new node goes before the first one that is not smaller. -/
theorem insert_ascending {S : K → Prop} {le : K → K → Prop} (hR : OrderedOn R S le)
    {s : State P K} {l : List P} {new : P} (h : Holds R s l) (ha : Ascending le s.heap l)
    (hS : ∀ q ∈ l, S (s.heap q).v) (hSn : S (s.heap new).v) (hnew : new ∉ l) (hn : new ≠ R.null)
    (hs : (s.heap new).s = new) :
    ∃ s' a b, insert R s new = .ok s' ∧ l = a ++ b ∧ Holds R s' (a ++ new :: b) ∧
      Keeps (new :: l) s s' ∧ (∀ q ∈ a, ¬le (s.heap new).v (s.heap q).v) ∧
      (∀ q ∈ b, le (s.heap new).v (s.heap q).v) ∧ Ascending le s'.heap (a ++ new :: b) := by
  obtain ⟨s', a, b, hrun, rfl, h', hk, hlast, hhead⟩ := insert_holds h hnew hn hs
  obtain ⟨haa, hab, hcross⟩ := List.pairwise_append.mp ha
  have hSa := fun q hq => hS q (List.mem_append_left _ hq)
  have hSb := fun q hq => hS q (List.mem_append_right _ hq)
  -- every node before the new one is smaller, as the last of them is
  have hbefore : ∀ q ∈ a, ¬le (s.heap new).v (s.heap q).v := by
    intro q hq hle
    have hne : a ≠ [] := List.ne_nil_of_mem hq
    have hlt := hlast (a.getLast hne) (by rw [List.getLast?_eq_getLast_of_ne_nil hne]; rfl)
    rw [hR.neg _ _ (hSa _ (List.getLast_mem hne)) hSn] at hlt
    exact hlt (hR.trans _ _ _ hle (haa.rel_getLast_of_rel_getLast_getLast hq (hR.refl _)))
  have hafter : ∀ q ∈ b, le (s.heap new).v (s.heap q).v := by
    cases b with
    | nil => simp
    | cons z b =>
      have hz := hhead z rfl
      rw [hR.neg _ _ (hSb z (List.mem_cons_self ..)) hSn, not_not] at hz
      intro q hq
      rcases List.mem_cons.mp hq with rfl | hq
      · exact hz
      · exact hR.trans _ _ _ hz (List.rel_of_pairwise_cons hab hq)
  refine ⟨s', a, b, hrun, rfl, h', hk, hbefore, hafter, Ascending.congr ?_ fun q _ => hk.key q⟩
  refine List.pairwise_append.mpr ⟨haa, List.pairwise_cons.mpr ⟨hafter, hab⟩, fun x hx y hy => ?_⟩
  rcases List.mem_cons.mp hy with rfl | hy
  · exact (hR.total _ _).resolve_right (hbefore x hx)
  · exact hcross x hx y hy

end ShmMalloc.Rbtree
