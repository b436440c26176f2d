import ShmMalloc.Rbtree.Runs

/-! What `rbtree_lower` finds.

The descent goes right below smaller nodes and then left below nodes that are not, and
ends at the first smaller node that it meets on the way left. What hangs below that
node on the right is never looked at. -/
namespace ShmMalloc.Rbtree
open Library

variable {P K : Type}

/-- `u` hangs in `t` at the end of links to the left. -/
inductive LeftSpine : Tree P Color → Tree P Color → Prop where
  | here {t : Tree P Color} : LeftSpine t t
  | left {c : Color} {l r u : Tree P Color} {p : P} (h : LeftSpine l u) :
      LeftSpine (.node c l p r) u

/-- `u` hangs in `t` at the end of links to the right and then to the left. -/
inductive Spine : Tree P Color → Tree P Color → Prop where
  | left {t u : Tree P Color} (h : LeftSpine t u) : Spine t u
  | right {c : Color} {l r u : Tree P Color} {p : P} (h : Spine r u) : Spine (.node c l p r) u

variable (R : Macros P K) (h : P → Node P K) (val : K)

/-- In the left subtree of the node `p` of `u`, what is not smaller than `val` is not smaller
than `p`, or the left child of `p` is not smaller than `val` itself. -/
def TurnSafe (u : Tree P Color) : Prop :=
  ∀ c cq l q m p r, u = .node c (.node cq l q m) p r → R.compare (h q).v val < 0 →
    ∀ x ∈ m.inorder, ¬R.compare (h x).v val < 0 → ¬R.compare (h x).v (h p).v < 0

/-- No turn from a node that is not smaller than `val` to a smaller one misses a better node. -/
def LowerSafe (t : Tree P Color) : Prop := ∀ u, Spine t u → TurnSafe R h val u

/-- The least of the nodes `l` that are not smaller than `val`. -/
def LeastFrom (le : K → K → Prop) (l : List P) (q : P) : Prop :=
  q ∈ l ∧ ¬R.compare (h q).v val < 0 ∧ ∀ r ∈ l, ¬R.compare (h r).v val < 0 → le (h q).v (h r).v

variable {R h val} {le : K → K → Prop}

theorem leftSpine_node {c : Color} {l r u : Tree P Color} {p : P} :
    LeftSpine (.node c l p r) u ↔ u = .node c l p r ∨ LeftSpine l u := by
  refine ⟨fun hs => ?_, fun hs => ?_⟩
  · cases hs with
    | here => exact .inl rfl
    | left hs => exact .inr hs
  · rcases hs with rfl | hs
    · exact .here
    · exact .left hs

theorem spine_node {c : Color} {l r u : Tree P Color} {p : P} :
    Spine (.node c l p r) u ↔ u = .node c l p r ∨ LeftSpine l u ∨ Spine r u := by
  refine ⟨fun hs => ?_, fun hs => ?_⟩
  · cases hs with
    | left hs => exact (leftSpine_node.mp hs).imp_right .inl
    | right hs => exact .inr (.inr hs)
  · rcases hs with rfl | hs | hs
    · exact .left .here
    · exact .left (.left hs)
    · exact .right hs

/-- A subtree on a spine has no nodes of its own. -/
theorem LeftSpine.mem {t u : Tree P Color} (hs : LeftSpine t u) {x : P} (hx : x ∈ u.inorder) :
    x ∈ t.inorder := by
  induction hs with
  | here => exact hx
  | left _ ih => exact List.mem_append_left _ (ih hx)

theorem Spine.mem {t u : Tree P Color} (hs : Spine t u) {x : P} (hx : x ∈ u.inorder) :
    x ∈ t.inorder := by
  induction hs with
  | left hs => exact hs.mem hx
  | right _ ih => exact List.mem_append_right _ (List.mem_cons_of_mem _ (ih hx))

theorem TurnSafe.nil : TurnSafe R h val .nil := by
  intro c cq l q m p r he
  cases he

/-- A turn is safe where everything is smaller. -/
theorem TurnSafe.of_smaller {u : Tree P Color} (hu : ∀ x ∈ u.inorder, R.compare (h x).v val < 0) :
    TurnSafe R h val u := by
  rintro c cq l q m p r rfl - x hx hn
  exact absurd (hu x (by simp [Tree.inorder, hx])) hn

/-- A turn is safe where nothing is smaller. -/
theorem TurnSafe.of_bigger {u : Tree P Color} (hu : ∀ x ∈ u.inorder, ¬R.compare (h x).v val < 0) :
    TurnSafe R h val u := by
  rintro c cq l q m p r rfl hq
  exact absurd hq (hu q (by simp [Tree.inorder]))

/-- Larger nodes behind do not matter. -/
theorem leastFrom_append_right (hR : Ordered R le) {l m : List P} {p q : P} (hp : p ∈ l)
    (hpv : ¬R.compare (h p).v val < 0) (hm : ∀ r ∈ m, le (h p).v (h r).v) (hq : q ∈ l) :
    LeastFrom R h val le (l ++ m) q ↔ LeastFrom R h val le l q := by
  refine ⟨fun ⟨_, hqv, hle⟩ => ⟨hq, hqv, fun r hr => hle r (List.mem_append_left _ hr)⟩,
    fun ⟨_, hqv, hle⟩ => ⟨List.mem_append_left _ hq, hqv, fun r hr hrv => ?_⟩⟩
  rcases List.mem_append.mp hr with hr | hr
  · exact hle r hr hrv
  · exact hR.trans _ _ _ (hle p hp hpv) (hm r hr)

/-- Smaller nodes in front do not matter. -/
theorem leastFrom_append_left {l m : List P} {q : P} (hl : ∀ r ∈ l, R.compare (h r).v val < 0) :
    LeastFrom R h val le (l ++ m) q ↔ LeastFrom R h val le m q := by
  refine ⟨fun ⟨hq, hqv, hle⟩ => ⟨?_, hqv, fun r hr => hle r (List.mem_append_right _ hr)⟩,
    fun ⟨hq, hqv, hle⟩ => ⟨List.mem_append_right _ hq, hqv, fun r hr hrv => ?_⟩⟩
  · exact (List.mem_append.mp hq).resolve_left fun hq => hqv (hl q hq)
  · exact hle r ((List.mem_append.mp hr).resolve_left fun hr => hrv (hl r hr)) hrv

section Sorted
variable (hR : Ordered R le)
include hR

theorem Ordered.smaller_of_le {a b : K} (hab : le a b) (hb : R.compare b val < 0) :
    R.compare a val < 0 := by
  rw [hR.neg _ _ trivial trivial] at hb ⊢
  exact fun ha => hb (hR.trans _ _ _ ha hab)

theorem Ordered.refl (a : K) : le a a := (hR.total a a).elim id id

variable [DecidableEq P]

/-- The way left from a node that is not smaller. -/
theorem lowerLoop_least_bigger {t r₀ : Tree P Color} {c₀ : Color} {q₀ par : P} {fuel : Nat}
    (l : Linked view R.null h par t) (hf : t.height < fuel) (hq₀ : ¬R.compare (h q₀).v val < 0)
    (ha : Ascending le h (t.inorder ++ [q₀])) :
    ∃ q, lowerLoop R h val fuel (t.root R.null) (some q₀) true = .ok (some q) ∧
      q ∈ t.inorder ++ [q₀] ∧ (LeastFrom R h val le (t.inorder ++ [q₀]) q ↔
        ∀ u, LeftSpine (.node c₀ t q₀ r₀) u → TurnSafe R h val u) := by
  induction t generalizing par fuel q₀ r₀ c₀ with
  | nil =>
    obtain ⟨fuel, rfl⟩ : ∃ k, fuel = k + 1 := ⟨fuel - 1, by omega⟩
    refine ⟨q₀, by simp [lowerLoop], by simp, iff_of_true ⟨by simp, hq₀, ?_⟩ fun u hu => ?_⟩
    · intro r hr _
      obtain rfl : r = q₀ := by simpa [Tree.inorder] using hr
      exact hR.refl _
    · rcases leftSpine_node.mp hu with rfl | hu
      · rintro c cq l q m p r ⟨⟩
      · cases hu
        exact .nil
  | node c lt p rt ihl _ =>
    obtain ⟨fuel, rfl⟩ : ∃ k, fuel = k + 1 := ⟨fuel - 1, by omega⟩
    obtain ⟨n, hl, -⟩ := l
    have e₁ : (h p).left = lt.root R.null := n.near
    simp only [Library.Tree.height] at hf
    have happ : (Library.Tree.node c lt p rt).inorder ++ [q₀] = (lt.inorder ++ [p]) ++ (rt.inorder ++ [q₀]) := by
      simp [Tree.inorder]
    rw [happ] at ha ⊢
    obtain ⟨hal, -, hcross⟩ := List.pairwise_append.mp ha
    rw [Tree.root, lowerLoop, if_neg n.ne, e₁]
    by_cases hc : R.compare (h p).v val < 0
    · -- the descent stops: the nodes of `rt` are never looked at
      have hsmall : ∀ x ∈ lt.inorder ++ [p], R.compare (h x).v val < 0 := by
        intro x hx
        rcases List.mem_append.mp hx with hx | hx
        · exact hR.smaller_of_le ((List.pairwise_append.mp hal).2.2 x hx p (by simp)) hc
        · obtain rfl := List.mem_singleton.mp hx
          exact hc
      refine ⟨q₀, by rw [if_pos hc, if_pos rfl], by simp, ?_⟩
      rw [leastFrom_append_left hsmall]
      refine ⟨fun hleast u hu => ?_, fun hsafe => ⟨by simp, hq₀, fun r hr hrv => ?_⟩⟩
      · rcases leftSpine_node.mp hu with rfl | hu
        · rintro c' cq l q m p' r ⟨⟩ - x hx hxv
          rw [hR.neg _ _ trivial trivial, not_not]
          exact hleast.2.2 x (List.mem_append_left _ hx) hxv
        · rcases leftSpine_node.mp hu with rfl | hu
          · rintro c' cq l q m p' r ⟨⟩ - x hx hxv
            exact absurd (hsmall x (by simp [Tree.inorder, hx])) hxv
          · exact .of_smaller fun x hx => hsmall x (List.mem_append_left _ (hu.mem hx))
      · rcases List.mem_append.mp hr with hr | hr
        · have := hsafe _ .here _ _ _ _ _ _ _ rfl hc r hr hrv
          rwa [hR.neg _ _ trivial trivial, not_not] at this
        · obtain rfl := List.mem_singleton.mp hr
          exact hR.refl _
    · obtain ⟨q, hrun, hmem, hiff⟩ := ihl hl (show lt.height < fuel by omega) hc hal
      refine ⟨q, by rw [if_neg hc, hrun], List.mem_append_left _ hmem, ?_⟩
      rw [leastFrom_append_right hR (by simp) hc (fun r hr => hcross p (by simp) r hr) hmem, hiff]
      refine ⟨fun hsafe u hu => ?_, fun hsafe u hu => hsafe u (.left hu)⟩
      rcases leftSpine_node.mp hu with rfl | hu
      · rintro c' cq l q m p' r ⟨⟩ hq
        exact absurd hq hc
      · exact hsafe u hu

/-- The whole descent. -/
theorem lowerLoop_least {t : Tree P Color} {par : P} {prev : Option P} {fuel : Nat}
    (l : Linked view R.null h par t) (hf : t.height < fuel) (ha : Ascending le h t.inorder) :
    ∃ o, lowerLoop R h val fuel (t.root R.null) prev false = .ok o ∧
      (o = none ↔ ∀ x ∈ t.inorder, R.compare (h x).v val < 0) ∧
      ((∀ q ∈ o, LeastFrom R h val le t.inorder q) ↔ LowerSafe R h val t) := by
  induction t generalizing par fuel prev with
  | nil =>
    obtain ⟨fuel, rfl⟩ : ∃ k, fuel = k + 1 := ⟨fuel - 1, by omega⟩
    refine ⟨none, by simp [lowerLoop], by simp [Tree.inorder], iff_of_true (by simp) ?_⟩
    rintro u (⟨⟨⟩⟩ | _)
    exact .nil
  | node c lt p rt _ ihr =>
    obtain ⟨fuel, rfl⟩ : ∃ k, fuel = k + 1 := ⟨fuel - 1, by omega⟩
    obtain ⟨n, hl, hr⟩ := l
    have e₁ : (h p).left = lt.root R.null := n.near
    have e₂ : (h p).right = rt.root R.null := n.far
    simp only [Library.Tree.height] at hf
    have happ : (Library.Tree.node c lt p rt).inorder = (lt.inorder ++ [p]) ++ rt.inorder := by
      simp [Tree.inorder]
    rw [happ] at ha ⊢
    obtain ⟨hal, har, hcross⟩ := List.pairwise_append.mp ha
    rw [Tree.root, lowerLoop, if_neg n.ne, e₁, e₂]
    by_cases hc : R.compare (h p).v val < 0
    · have hsmall : ∀ x ∈ lt.inorder ++ [p], R.compare (h x).v val < 0 := by
        intro x hx
        rcases List.mem_append.mp hx with hx | hx
        · exact hR.smaller_of_le ((List.pairwise_append.mp hal).2.2 x hx p (by simp)) hc
        · obtain rfl := List.mem_singleton.mp hx
          exact hc
      obtain ⟨o, hrun, hnone, hiff⟩ := ihr hr (show rt.height < fuel by omega) har
      refine ⟨o, by rw [if_pos hc, if_neg (by simp), hrun], ?_, ?_⟩
      · rw [hnone, List.forall_mem_append]
        exact ⟨fun hx => ⟨hsmall, hx⟩, And.right⟩
      · simp only [leastFrom_append_left hsmall, hiff]
        refine ⟨fun hsafe u hu => ?_, fun hsafe u hu => hsafe u (.right hu)⟩
        rcases spine_node.mp hu with rfl | hu | hu
        · rintro c' cq l q m p' r ⟨⟩ - x hx hxv
          exact absurd (hsmall x (by simp [Tree.inorder, hx])) hxv
        · exact .of_smaller fun x hx => hsmall x (List.mem_append_left _ (hu.mem hx))
        · exact hsafe u hu
    · obtain ⟨q, hrun, hmem, hiff⟩ :=
        lowerLoop_least_bigger hR hl (show lt.height < fuel by omega) hc hal
      refine ⟨some q, by rw [if_neg hc, hrun], ?_, ?_⟩
      · refine iff_of_false (by simp) fun hall => hc (hall p (by simp))
      · have hbig : ∀ x ∈ rt.inorder, ¬R.compare (h x).v val < 0 := fun x hx hxv =>
          hc (hR.smaller_of_le (hcross p (by simp) x hx) hxv)
        simp only [Option.mem_some_iff, forall_eq']
        rw [leastFrom_append_right hR (by simp) hc (fun r hr => hcross p (by simp) r hr) hmem, hiff]
        refine ⟨fun hsafe u hu => ?_, fun hsafe u hu => hsafe u (.left hu)⟩
        rcases spine_node.mp hu with rfl | hu | hu
        · exact hsafe _ .here
        · exact hsafe u (.left hu)
        · exact .of_bigger fun x hx => hbig x (hu.mem hx)

/-- **`rbtree_lower` on a tree that insertions and deletions have built** returns nothing
exactly when every key is smaller, and a least key that is not smaller exactly when no
turn of its descent misses one. -/
theorem lower_least (hh : P → Node P K) {ops : List (Op P K)} (hops : Legal R [] ops) (k : K) :
    ∃ s t o, run R (init R hh) ops = .ok s ∧ Rep R s t ∧
      t.inorder.map (fun p => (p, (s.heap p).v)) = sorted R ops ∧ lower R s k = .ok o ∧
      (o = none ↔ ∀ x ∈ sorted R ops, R.compare x.2 k < 0) ∧
      ((∀ q ∈ o, LeastFrom R s.heap k le t.inorder q) ↔ LowerSafe R s.heap k t) := by
  obtain ⟨s, hrun, hspells, ha⟩ := run_spells hR (l := []) ⟨.init hh, by simp⟩ .nil .nil hops
  obtain ⟨t, hrep, hsize, hfst, hl⟩ := hspells.tree
  have hasc : Ascending le s.heap t.inorder := hfst ▸ hspells.ascending ha
  obtain ⟨o, hlower, hnone, hiff⟩ := lowerLoop_least hR hrep.linked
    (show t.height < s.size + 1 by have := Tree.height_le_size t; omega) hasc
  refine ⟨s, t, o, hrun, hrep, hl, ?_, ?_, hiff⟩
  · rw [lower, hrep.root, hlower]
  · rw [hnone]
    rw [← show _ = sorted R ops from hl]
    simp

end Sorted

/-- Four keys whose tree turns at 30, from 30 to 10, and never comes to 20. -/
def turnOps : List (Op Nat Int) :=
  [.insert 0 (testNode 0 30), .insert 1 (testNode 1 10), .insert 2 (testNode 2 40),
    .insert 3 (testNode 3 20)]

theorem turnOps_legal : Legal testMacros [] turnOps := by
  simp [Legal, Op.Legal, Op.live, turnOps, testNode, testMacros]

theorem lower_least_test : Ordered testMacros (· ≤ ·) ∧ Legal testMacros [] turnOps ∧
    ∃ s t o, run testMacros (init testMacros (testNode · 0)) turnOps = .ok s ∧
      Rep testMacros s t ∧ lower testMacros s 25 = .ok o ∧
      ((∀ q ∈ o, LeastFrom testMacros s.heap 25 (· ≤ ·) t.inorder q) ↔
        LowerSafe testMacros s.heap 25 t) := by
  obtain ⟨s, t, o, hrun, hrep, -, hlower, -, hiff⟩ :=
    lower_least testMacros_ordered (testNode · 0) turnOps_legal 25
  exact ⟨testMacros_ordered, turnOps_legal, s, t, o, hrun, hrep, hlower, hiff⟩

/-- The key 20 is in the tree, and not smaller than 15, but the answer for 15 is 30. -/
theorem lower_not_least : Ordered testMacros (· ≤ ·) ∧ Legal testMacros [] turnOps ∧
    (3, 20) ∈ sorted testMacros turnOps ∧
    ∃ s, run testMacros (init testMacros (testNode · 0)) turnOps = .ok s ∧
      lower testMacros s 15 = .ok (some 0) ∧ (s.heap 0).v = 30 ∧ (s.heap 3).v = 20 := by
  refine ⟨testMacros_ordered, turnOps_legal, by decide, _, rfl, ?_⟩
  decide

end ShmMalloc.Rbtree
