import ShmMalloc.Client.Addresses
import ShmMalloc.Client.Data
import ShmMalloc.Heap.Blocks

/-! The runs of clients.

Three things are kept together: the heap, whatever clients write in their blocks; the
addresses of the live blocks; and the store of blocks that is replayed from the history,
whose cells are those of the memory. A call keeps the first two by what is known of
calls, and changes the third as it changes the heap. -/
namespace ShmMalloc
open Library

/-- The store has the blocks, what is in them and the user data. -/
structure Agrees (s : Shm) (live : List (Nat × Nat)) (userData : Nat) (st : BlockStore Nat (Option UInt8) Nat) : Prop where
  size : ∀ pos n, st.size pos = some n ↔ (pos, n) ∈ live
  cell : ∀ pos n, (pos, n) ∈ live → ∀ j < n, ∀ v, st.cell pos j = some v →
    s.data (pos2index pos) (pos2offset pos + j) = v
  root : st.root = userData

/-- The history is one of a store of blocks, which is that of the memory while there are processes. -/
def Recorded (w : ClientWorld) : Prop := ∃ st, BlockStore.replay 0 w.history = some st ∧
  (w.world.pids ≠ [] → Agrees w.world.shm w.live w.userData st)

/-- The address is that of the arena of a live block, with the offset of the block. -/
structure Ptr.Valid (w : ClientWorld) (p : Ptr) : Prop where
  live : IsLive w.live p.pos
  entry : w.world.HasEntry p.pid (pos2index p.pos) p.base

structure ClientInv (w : ClientWorld) : Prop where
  heap : HeapLive False w.heap
  fits : Fitting w.live
  alive : AliveOk w.world
  ptrs : ∀ p ∈ w.ptrs, p.Valid w
  recorded : Recorded w

section
variable {w w' : ClientWorld}

/-! ### The heap and the tables -/

theorem HeapLive.inUse {h : HeapWorld} (hh : HeapLive False h) (hp : h.world.pids ≠ []) {pos : Nat}
    (hl : IsLive h.live pos) : (h.world.shm.arenas (pos2index pos)).type ≠ .empty := by
  obtain ⟨ls, lm, pool, hok, hb, -⟩ := hh hp
  obtain ⟨_, _, -, -, hb, -⟩ := hb.at_live hl
  exact hok.inUse hb

theorem World.init_same {w w' : World} {pid shmid : Nat} {shmat : Nat → Nat → List Attach → Option Nat}
    (h : w.init pid shmid shmat = .ok w') (hp : w.pids ≠ []) : SameHeap w.shm w'.shm := by
  have hctx : w.context shmid = w.shm := if_neg hp
  have hfound : SameHeap (w.context shmid) (w.found shmid shmat) := .write _ _ _
  rw [hctx] at hfound
  rcases World.init_cases h with ⟨-, k, rfl⟩ | ⟨addr, s, -, -, hloop, rfl⟩
  · exact hfound.trans (.write _ _ _)
  · have hattach : SameHeap (w.found shmid shmat) (attachArena (w.found shmid shmat) 0 addr) := .write _ _ _
    exact (hfound.trans hattach).trans (mmapArenas_same hloop)

/-- Tables and attaches do not depend on what is in the memory. -/
theorem AliveOk.setShm {w : World} (h : AliveOk w) {s : Shm} (ha : s.arenas = w.shm.arenas) (hs : s.sys = w.shm.sys) :
    AliveOk {w with shm := s} where
  tables := ⟨⟨by rw [hs]; exact h.tables.key, fun hp => by rw [ha]; exact h.tables.arenas hp⟩, h.tables.entries,
    fun pid hp => by rw [ha]; exact h.tables.context pid hp⟩
  ids := ⟨by rw [hs]; exact h.ids.key_own, fun hp => (h.ids.apart hp).shrink
    (fun i => congrArg (fun a => ShmArena.shmid (a i)) ha) (fun i => .inr (.inl rfl)) (show s.sys.key = w.shm.sys.key by rw [hs])⟩
  held pid hp a hm := by
    rw [hs]
    exact h.held pid hp a hm
  alive hp i hi := by
    rw [ha] at hi ⊢
    exact h.alive hp i hi

/-! ### What an action does -/

/-- The part of an action that is not about the history. -/
structure ActsOn (w w' : ClientWorld) (a : Action) : Prop where
  heap : w.heap.step a = .ok w'.heap
  ptrs : ∀ p ∈ w'.ptrs, p ∈ w.ptrs ∧ p.pid ∈ w'.world.pids ∧ IsLive w'.live p.pos

theorem ClientWorld.after_ptrs {heap : HeapWorld} (ops : List ClientOp) {p : Ptr} (h : p ∈ (w.after heap ops).ptrs) :
    p ∈ w.ptrs ∧ p.pid ∈ heap.world.pids ∧ IsLive heap.live p.pos := by
  obtain ⟨hp, hk⟩ := List.mem_filter.mp h
  exact ⟨hp, of_decide_eq_true hk⟩

/-- An address is dropped with its process or its block only. -/
theorem ptrs_kept {a : Access} {p : Ptr} (hp : p ∈ w.ptrs) (hs : a.step w = .ok w') (hpid : p.pid ∈ w'.world.pids)
    (hlive : IsLive w'.live p.pos) : p ∈ w'.ptrs := by
  have hafter : ∀ {heap : HeapWorld} (ops : List ClientOp), p.pid ∈ heap.world.pids → IsLive heap.live p.pos →
      p ∈ (w.after heap ops).ptrs := fun _ h₁ h₂ => List.mem_filter.mpr ⟨hp, decide_eq_true ⟨h₁, h₂⟩⟩
  cases a with
  | act a =>
    cases a with
    | init pid shmid shmat =>
      obtain ⟨heap, -, hs⟩ := Exec.bind_ok hs
      split at hs
      · obtain rfl := Except.ok.inj hs
        exact hafter [.clear 0] hpid hlive
      · obtain rfl := Except.ok.inj hs
        exact hafter [] hpid hlive
    | exit pid =>
      obtain ⟨heap, -, hs⟩ := Exec.bind_ok hs
      obtain rfl := Except.ok.inj hs
      exact hafter [] hpid hlive
    | call pid c visits os shmat =>
      obtain ⟨s, -, hs⟩ := Exec.bind_ok hs
      obtain ⟨⟨s', ret⟩, -, hs⟩ := Exec.bind_ok hs
      obtain rfl := Except.ok.inj hs
      exact hafter [] hpid hlive
  | getAddr pid pos shmat =>
    obtain ⟨⟨s, addr⟩, -, hs⟩ := Exec.bind_ok hs
    cases addr with
    | none =>
      obtain rfl := Except.ok.inj hs
      exact hafter [] hpid hlive
    | some addr =>
      obtain rfl := Except.ok.inj hs
      exact List.mem_cons_of_mem _ (hafter [] hpid hlive)
  | write q j v s =>
    simp only [Access.step] at hs
    split at hs
    · cases hs
    · obtain rfl := Except.ok.inj hs
      exact hp
  | read q j =>
    simp only [Access.step] at hs
    split at hs
    · cases hs
    · obtain rfl := Except.ok.inj hs
      exact hp
  | setUserdata pid data =>
    obtain rfl := Except.ok.inj hs
    exact hp
  | getUserdata pid =>
    obtain rfl := Except.ok.inj hs
    exact hp

theorem Access.acts {a : Action} (h : (Access.act a).step w = .ok w') : ActsOn w w' a := by
  cases a with
  | init pid shmid shmat =>
    obtain ⟨heap, hheap, h⟩ := Exec.bind_ok h
    split at h
    · obtain rfl := Except.ok.inj h
      exact ⟨hheap, fun _ => ClientWorld.after_ptrs [.clear 0]⟩
    · obtain rfl := Except.ok.inj h
      exact ⟨hheap, fun _ => ClientWorld.after_ptrs []⟩
  | exit pid =>
    obtain ⟨heap, hheap, h⟩ := Exec.bind_ok h
    obtain rfl := Except.ok.inj h
    exact ⟨hheap, fun _ => ClientWorld.after_ptrs []⟩
  | call pid c visits os shmat =>
    obtain ⟨s, hvisit, h⟩ := Exec.bind_ok h
    obtain ⟨⟨s', ret⟩, hrun, h⟩ := Exec.bind_ok h
    obtain rfl := Except.ok.inj h
    refine ⟨?_, fun _ => ClientWorld.after_ptrs (c.ops ret)⟩
    show (visit _ visits >>= fun s => c.run s os >>= _) = _
    rw [hvisit]
    show (c.run s os >>= _) = _
    rw [hrun]
    rfl

/-- Addresses of blocks that stay are kept. -/
theorem ActsOn.valid {a : Action} (ha : ActsOn w w' a) (h : ClientInv w) (hl : w.heap.Legal a) (hg : a.Granted w.world)
    (hlive : HeapLive False w'.heap) : ∀ p ∈ w'.ptrs, p.Valid w' := by
  intro p hp
  obtain ⟨hp, hpid, hpos⟩ := ha.ptrs p hp
  have hu := hlive.inUse (List.ne_nil_of_mem hpid) hpos
  exact ⟨hpos, (h.ptrs p hp).entry.step h.alive hl.world hg (HeapWorld.step_world ha.heap) hpid hu⟩

end

/-! ### What a call does to the store -/

/-- The store after an operation, or after none. -/
def Follows (st : BlockStore Nat (Option UInt8) Nat) (ops : List ClientOp) (st' : BlockStore Nat (Option UInt8) Nat) : Prop :=
  ops = [] ∧ st' = st ∨ ∃ o, ops = [o] ∧ st.step o = some st'

theorem Follows.replay {st st' : BlockStore Nat (Option UInt8) Nat} {ops h : List ClientOp} (hf : Follows st ops st')
    (hr : BlockStore.replay 0 h = some st) : BlockStore.replay 0 (ops ++ h) = some st' := by
  rcases hf with ⟨rfl, rfl⟩ | ⟨o, rfl, ho⟩
  · exact hr
  · exact BlockStore.replay_cons.mpr ⟨st, hr, ho⟩

namespace Agrees
variable {s s' : Shm} {live : List (Nat × Nat)} {userData : Nat} {st : BlockStore Nat (Option UInt8) Nat} {pos size ret len : Nat}

/-- The blocks stay. -/
theorem stay (h : Agrees s live userData st) (hs : ∀ q n, (q, n) ∈ live → SameCells s s' q q n) :
    Agrees s' live userData st where
  size := h.size
  cell q n hq j hj v hv := by
    rw [hs q n hq j hj]
    exact h.cell q n hq j hj v hv
  root := h.root

theorem none_iff (h : Agrees s live userData st) (q : Nat) : st.size q = none ↔ ¬IsLive live q := by
  rw [isLive_iff, Option.eq_none_iff_forall_not_mem, not_exists]
  exact forall_congr' fun n => not_congr (h.size q n)

theorem has (h : Agrees s live userData st) (hb : (pos, size) ∈ live) {j : Nat} (hj : j < size) : st.Has pos j :=
  ⟨size, (h.size pos size).mpr hb, hj⟩

/-- A block comes. -/
theorem alloc (h : Agrees s live userData st) (hnew : ¬IsLive live ret)
    (hs : ∀ q n, (q, n) ∈ live → SameCells s s' q q n) :
    st.step (.alloc ret len) = some (st.add ret len fun _ => none) ∧
      Agrees s' ((ret, len) :: live) userData (st.add ret len fun _ => none) := by
  refine ⟨if_pos ((h.none_iff ret).mpr hnew), fun q n => ?_, fun q n hq j hj v hv => ?_, h.root⟩
  · rw [BlockStore.add_size, List.mem_cons, Prod.mk.injEq]
    split
    · next he =>
      subst he
      have : (q, n) ∉ live := fun hq => hnew (isLive_iff.mpr ⟨n, hq⟩)
      simp [this, eq_comm]
    · next he => simp [he, h.size]
  · rw [BlockStore.add_cell] at hv
    split at hv
    · cases hv
    · next he =>
      have hq : (q, n) ∈ live := (List.mem_cons.mp hq).resolve_left fun h => he (Prod.mk.inj h).1
      rw [hs q n hq j hj]
      exact h.cell q n hq j hj v hv

theorem mem_filter_ne {q n : Nat} : (q, n) ∈ live.filter (fun b => b.1 ≠ pos) ↔ (q, n) ∈ live ∧ q ≠ pos := by
  rw [List.mem_filter, decide_eq_true_eq]

/-- A block goes. -/
theorem free (h : Agrees s live userData st) (hp : IsLive live pos)
    (hs : ∀ q n, (q, n) ∈ live → q ≠ pos → SameCells s s' q q n) :
    st.step (.free pos) = some (st.drop pos) ∧
      Agrees s' (live.filter fun b => b.1 ≠ pos) userData (st.drop pos) := by
  refine ⟨if_neg fun he => (h.none_iff pos).mp he hp, fun q n => ?_, fun q n hq j hj v hv => ?_, h.root⟩
  · rw [BlockStore.drop_size, mem_filter_ne]
    split
    · next he => simp [he]
    · next he => simp [he, h.size]
  · obtain ⟨hq, hne⟩ := mem_filter_ne.mp hq
    rw [hs q n hq hne j hj]
    exact h.cell q n hq j hj v hv

/-- A block is moved. -/
theorem move (h : Agrees s live userData st) (hb : (pos, size) ∈ live) (hnodup : (live.map Prod.fst).Nodup)
    (hnew : ¬IsLive live ret) (hs : ∀ q n, (q, n) ∈ live → q ≠ pos → SameCells s s' q q n)
    (hmoved : SameCells s s' pos ret (min size len)) :
    ∃ st', st.step (.move pos ret len) = some st' ∧
      Agrees s' ((ret, len) :: live.filter fun b => b.1 ≠ pos) userData st' := by
  have hlive : IsLive live pos := isLive_iff.mpr ⟨size, hb⟩
  refine ⟨_, if_neg ?_, fun q n => ?_, fun q n hq j hj v hv => ?_, h.root⟩
  · rw [not_or, not_not, h.none_iff, h.none_iff, not_not]
    exact ⟨hlive, hnew⟩
  · rw [BlockStore.add_size, BlockStore.drop_size, List.mem_cons, mem_filter_ne, Prod.mk.injEq]
    split
    · next he =>
      subst he
      have : (q, n) ∉ live := fun hq => hnew (isLive_iff.mpr ⟨n, hq⟩)
      simp [this, eq_comm]
    · next he =>
      split
      · next he' =>
        subst he'
        simp [he]
      · next he' => simp [he, he', h.size]
  · rw [BlockStore.add_cell] at hv
    split at hv
    · next he =>
      subst he
      dsimp only at hv
      split at hv
      · next hin =>
        obtain ⟨m, hm, hjm⟩ := hin
        obtain rfl : m = size := congrArg Prod.snd
          (List.inj_on_of_nodup_map hnodup ((h.size pos m).mp hm) hb rfl)
        rcases List.mem_cons.mp hq with he | hq
        · obtain rfl := (Prod.mk.inj he).2
          rw [hmoved j (lt_min hjm hj)]
          exact h.cell pos m hb j hjm v hv
        · exact absurd (isLive_iff.mpr ⟨n, (mem_filter_ne.mp hq).1⟩) hnew
      · cases hv
    · next he =>
      obtain ⟨hq, hne⟩ := mem_filter_ne.mp ((List.mem_cons.mp hq).resolve_left fun h => he (Prod.mk.inj h).1)
      rw [hs q n hq hne j hj]
      exact h.cell q n hq j hj v hv

end Agrees

/-- **What a call does to the store** is what it has done to the heap. -/
theorem HeapHeld.follows {B : Prop} {s s' : Shm} {live : List (Nat × Nat)} {os : Os} {userData ret : Nat} {c : Call}
    {st : BlockStore Nat (Option UInt8) Nat} (h : HeapHeld B s live) (hf : Fitting live) (hl : c.LegalFor live) (hfit : c.Fits)
    (hu : c.freed ≠ 0 → Unstale s c.freed) (hrun : c.run s os = .ok (s', ret)) (hheld : HeapHeld B s' (c.liveAfter live ret))
    (ha : Agrees s live userData st) :
    ∃ st', Follows st (c.ops ret) st' ∧ Agrees s' (c.liveAfter live ret) userData st' := by
  have hcells : ∀ q n, (q, n) ∈ live → (q, n) ∈ c.liveAfter live ret → SameCells s s' q q n := fun q n hq =>
    (h.call_cells hf hl hfit hu hrun hq).1
  have hfresh : ∀ {len : Nat} {l : List (Nat × Nat)}, c.liveAfter live ret = (ret, len) :: l → ¬IsLive l ret := by
    intro len l he
    obtain ⟨ls, lm, pool, -, hb, -⟩ := hheld
    have hn := hb.nodup
    rw [he] at hn
    exact (List.nodup_cons.mp hn).1
  have hnull : ¬IsLive live 0 := by
    intro h₀
    obtain ⟨ls, lm, pool, hok, hb, -⟩ := h
    obtain ⟨_, _, -, -, hb, -⟩ := hb.at_live h₀
    exact hok.pos_ne hb rfl
  have hkept : live.filter (fun b => b.1 ≠ 0) = live := List.filter_eq_self.mpr fun b hb =>
    decide_eq_true fun he => hnull (he ▸ isLive_iff.mpr ⟨b.2, hb⟩)
  cases c with
  | malloc len =>
    by_cases hr : ret = 0
    · simp only [Call.liveAfter, if_pos hr] at hcells ⊢
      exact ⟨st, .inl ⟨if_pos hr, rfl⟩, ha.stay fun q n hq => hcells q n hq hq⟩
    · have hlive : Call.liveAfter live ret (.malloc len) = (ret, len) :: live := if_neg hr
      rw [hlive] at hcells ⊢
      obtain ⟨hstep, ha'⟩ := ha.alloc (hfresh hlive) fun q n hq => hcells q n hq (List.mem_cons_of_mem _ hq)
      exact ⟨_, .inr ⟨_, if_neg hr, hstep⟩, ha'⟩
  | free pos =>
    by_cases hp : pos = 0
    · subst hp
      have hlive : Call.liveAfter live ret (.free 0) = live := hkept
      rw [hlive] at hcells ⊢
      exact ⟨st, .inl ⟨rfl, rfl⟩, ha.stay fun q n hq => hcells q n hq hq⟩
    · obtain ⟨hstep, ha'⟩ := ha.free (hl.resolve_left hp) fun q n hq hne =>
        hcells q n hq (Agrees.mem_filter_ne.mpr ⟨hq, hne⟩)
      exact ⟨_, .inr ⟨_, if_neg hp, hstep⟩, ha'⟩
  | realloc pos len =>
    by_cases hr : ret = 0 ∨ ret = pos
    · simp only [Call.liveAfter, if_pos hr] at hcells ⊢
      exact ⟨st, .inl ⟨if_pos hr, rfl⟩, ha.stay fun q n hq => hcells q n hq hq⟩
    · have hlive : Call.liveAfter live ret (.realloc pos len) = (ret, len) :: live.filter fun b => b.1 ≠ pos := if_neg hr
      rw [hlive] at hcells ⊢
      by_cases hp : pos = 0
      · subst hp
        rw [hkept] at hlive hcells ⊢
        obtain ⟨hstep, ha'⟩ := ha.alloc (hfresh hlive) fun q n hq => hcells q n hq (List.mem_cons_of_mem _ hq)
        exact ⟨_, .inr ⟨_, by rw [Call.ops, if_neg hr, if_pos rfl], hstep⟩, ha'⟩
      · have hpos : IsLive live pos := hl.2.resolve_left hp
        obtain ⟨size, hb⟩ := isLive_iff.mp hpos
        have hnew : ¬IsLive live ret := by
          rintro hret
          obtain ⟨n, hn⟩ := isLive_iff.mp hret
          exact hfresh hlive (isLive_iff.mpr ⟨n, Agrees.mem_filter_ne.mpr ⟨hn, fun he => hr (.inr he)⟩⟩)
        have hnodup : (live.map Prod.fst).Nodup := by
          obtain ⟨ls, lm, pool, -, hb, -⟩ := h
          exact hb.nodup
        have hmoved := (h.call_cells hf hl hfit hu hrun hb).2 len rfl (fun he => hr (.inl he)) fun he => hr (.inr he)
        obtain ⟨st', hstep, ha'⟩ := ha.move hb hnodup hnew (fun q n hq hne =>
          hcells q n hq (List.mem_cons_of_mem _ (Agrees.mem_filter_ne.mpr ⟨hq, hne⟩))) hmoved
        exact ⟨st', .inr ⟨_, by rw [Call.ops, if_neg hr, if_neg hp], hstep⟩, ha'⟩
  | checkSize pos => exact ⟨st, .inl ⟨rfl, rfl⟩, ha.stay fun q n hq => hcells q n hq hq⟩
  | getAddr pos => exact ⟨st, .inl ⟨rfl, rfl⟩, ha.stay fun q n hq => hcells q n hq hq⟩

/-! ### Steps -/

theorem Fitting.liveAfter {live : List (Nat × Nat)} (h : Fitting live) {c : Call} (hc : c.Fits) (ret : Nat) :
    Fitting (c.liveAfter live ret) := by
  cases c with
  | malloc size =>
    show Fitting (if ret = 0 then live else (ret, size) :: live)
    split
    · exact h
    · exact List.forall_mem_cons.mpr ⟨hc, h⟩
  | free pos => exact fun b hb => h b (List.mem_filter.mp hb).1
  | realloc pos size =>
    show Fitting (if ret = 0 ∨ ret = pos then live else (ret, size) :: live.filter fun b => b.1 ≠ pos)
    split
    · exact h
    · exact List.forall_mem_cons.mpr ⟨hc, fun b hb => h b (List.mem_filter.mp hb).1⟩
  | checkSize pos => exact h
  | getAddr pos => exact h

section
variable {w w' : ClientWorld}

/-- A call that completes is in the history. -/
theorem ClientInv.call_recorded (h : ClientInv w) {pid : Nat} {c : Call} {visits : List Nat} {os : Os}
    {shmat : Nat → Nat → List Attach → Option Nat} (hl : w.heap.Legal (.call pid c visits os shmat)) (hfit : c.Fits)
    (hu : Unlinks w.heap (.call pid c visits os shmat)) {s s' : Shm} {ret : Nat}
    (hvisit : visit (w.world.load (w.world.proc pid) shmat) visits = .ok s) (hrun : c.run s os = .ok (s', ret)) :
    ∃ st, BlockStore.replay 0 (c.ops ret ++ w.history) = some st ∧ Agrees s' (c.liveAfter w.live ret) w.userData st := by
  have hp := List.ne_nil_of_mem hl.1.1
  have e := visit_load hvisit
  have hheld := (h.heap hp).same e
  have hu' : c.freed ≠ 0 → Unstale s c.freed := fun hc => (hu hc).same e
  obtain ⟨st, hr, ha⟩ := h.recorded
  obtain ⟨st', hf, ha'⟩ := hheld.follows h.fits hl.2 hfit hu' hrun (hheld.call hl.2 False.elim hu' hrun)
    ((ha hp).stay fun q n _ => .of_same e q n)
  exact ⟨st', hf.replay hr, ha'⟩

/-- Public operations, starts and exits. -/
theorem ClientInv.act (h : ClientInv w) {a : Action} (hl : w.heap.Legal a) (hc : Careful w (.act a))
    (hs : (Access.act a).step w = .ok w') : ClientInv w' := by
  obtain ⟨hg, hk, hu, hfit⟩ := hc
  have hacts := Access.acts hs
  have hheap := h.heap.step hl False.elim hu hacts.heap
  refine ⟨hheap, show Fitting w'.heap.live from ?_, h.alive.step hl.world hg hk (HeapWorld.step_world hacts.heap), hacts.valid h hl hg hheap, ?_⟩
  · cases a with
    | init pid shmid shmat =>
      obtain ⟨world, -, hret⟩ := Exec.bind_ok hacts.heap
      rw [← Except.ok.inj hret]
      show Fitting (if w.world.pids = [] then [] else w.live)
      split
      · exact fun b hb => absurd hb List.not_mem_nil
      · exact h.fits
    | exit pid =>
      rw [← Except.ok.inj hacts.heap]
      exact h.fits
    | call pid c visits os shmat =>
      obtain ⟨s, -, hs⟩ := Exec.bind_ok hacts.heap
      obtain ⟨⟨s', ret⟩, -, hs⟩ := Exec.bind_ok hs
      rw [← Except.ok.inj hs]
      exact h.fits.liveAfter (hfit pid c visits os shmat rfl) ret
  · obtain ⟨st, hr, ha⟩ := h.recorded
    cases a with
    | init pid shmid shmat =>
      obtain ⟨heap, hinit, hs⟩ := Exec.bind_ok hs
      obtain ⟨world, hworld, hret⟩ := Exec.bind_ok hinit
      obtain rfl := Except.ok.inj hret
      split at hs
      · next hp =>
        obtain rfl := Except.ok.inj hs
        refine ⟨.empty 0, BlockStore.replay_cons.mpr ⟨st, hr, rfl⟩, fun _ => ⟨fun pos n => ?_, fun pos n hb => ?_, rfl⟩⟩
        all_goals
          simp only [ClientWorld.live, ClientWorld.after, if_pos hp] at *
        · simp [BlockStore.empty]
        · cases hb
      · next hp =>
        obtain rfl := Except.ok.inj hs
        refine ⟨st, hr, fun _ => ?_⟩
        have e := World.init_same hworld hp
        exact (ha hp).stay fun q n _ => .of_same e q n
    | exit pid =>
      obtain ⟨heap, hexit, hs⟩ := Exec.bind_ok hs
      obtain rfl := Except.ok.inj hexit
      obtain rfl := Except.ok.inj hs
      refine ⟨st, hr, fun hp => ?_⟩
      have hp' : w.world.pids ≠ [] := fun he => hp (by
        show (w.world.exit pid).pids = []
        rw [World.exit, he]
        rfl)
      exact (ha hp').stay fun q n _ => .of_same (.write _ _ _) q n
    | call pid c visits os shmat =>
      obtain ⟨s, hvisit, hs⟩ := Exec.bind_ok hs
      obtain ⟨⟨s', ret⟩, hrun, hs⟩ := Exec.bind_ok hs
      obtain rfl := Except.ok.inj hs
      obtain ⟨st', hr', ha'⟩ := h.call_recorded hl (hfit pid c visits os shmat rfl) hu hvisit hrun
      exact ⟨st', hr', fun _ => ha'⟩

/-- The byte that is reached through an address. -/
theorem ClientInv.reaches (h : ClientInv w) {p : Ptr} (hp : p ∈ w.ptrs) :
    w.world.mapped p.pid p.base = some (pos2index p.pos) := h.alive.mapped (h.ptrs p hp).entry

/-- A write in a block. -/
theorem ClientInv.write (h : ClientInv w) {p : Ptr} {j : Nat} {v : UInt8} {s : Shm}
    (hl : (Access.write p j v s).Legal w) (hs : (Access.write p j v s).step w = .ok w') : ClientInv w' := by
  obtain ⟨⟨hptr, size, hb, hj⟩, hs'⟩ := hl
  have hmapped := h.reaches hptr
  obtain ⟨he, hv⟩ := hs' _ hmapped
  simp only [Access.step, hmapped] at hs
  obtain rfl := Except.ok.inj hs
  have hp := List.ne_nil_of_mem (h.ptrs p hptr).entry.mem
  obtain ⟨ls, lm, pool, hok, hbl, hB⟩ := h.heap hp
  obtain ⟨n, hblock, hn⟩ := hbl.room h.fits hb
  obtain ⟨hok', hblocks, harenas, hothers⟩ := hok.overwrite hblock (mem_bytes (hj.trans_le hn)) he
  refine ⟨fun _ => ⟨ls, lm, pool, hok', hbl.same hblocks, hB⟩, h.fits, h.alive.setShm harenas he.sys, fun q hq => ?_, ?_⟩
  · obtain ⟨hlive, hmem, hu, hentry⟩ := h.ptrs q hq
    refine ⟨hlive, hmem, ?_, ?_⟩
    · show (s.arenas _).type ≠ _
      rwa [harenas]
    · show (w.world.proc q.pid).arenaAddrs _ = ⟨some q.base, (s.arenas _).shmid⟩
      rw [harenas, hentry]
  · obtain ⟨st, hr, ha⟩ := h.recorded
    have ha := ha hp
    refine ⟨st.fix p.pos j v, BlockStore.replay_cons.mpr ⟨st, hr, if_pos (ha.has hb hj)⟩, fun _ =>
      ⟨ha.size, fun q m hq i hi u hu => ?_, ha.root⟩⟩
    rw [BlockStore.fix_cell] at hu
    show s.data _ _ = u
    split at hu
    · next hqi =>
      obtain ⟨rfl, rfl⟩ := hqi
      rw [hv, Option.some.inj hu]
    · next hqi =>
      -- another byte
      obtain ⟨m', hblock', hm'⟩ := hbl.room h.fits hq
      by_cases hqp : q = p.pos
      · subst hqp
        rw [he.data]
        · exact ha.cell _ m hq i hi u hu
        · intro heq
          exact hqi ⟨rfl, Nat.add_left_cancel (Prod.mk.inj heq).2⟩
      · rw [(hothers _ _ _ hblock' hqp).cells hm' i hi]
        exact ha.cell q m hq i hi u hu

/-- A read in a block. -/
theorem ClientInv.read (h : ClientInv w) {p : Ptr} {j : Nat} (hl : (Access.read p j).Legal w)
    (hs : (Access.read p j).step w = .ok w') : ClientInv w' := by
  obtain ⟨hptr, size, hb, hj⟩ := hl
  simp only [Access.step, h.reaches hptr] at hs
  obtain rfl := Except.ok.inj hs
  have hp := List.ne_nil_of_mem (h.ptrs p hptr).entry.mem
  obtain ⟨st, hr, ha⟩ := h.recorded
  have ha := ha hp
  have hknown : st.cell p.pos j = none ∨
      st.cell p.pos j = some (w.world.shm.data (pos2index p.pos) (pos2offset p.pos + j)) := by
    cases hc : st.cell p.pos j with
    | none => exact .inl rfl
    | some v => exact .inr (by rw [ha.cell _ size hb j hj v hc])
  refine ⟨h.heap, h.fits, h.alive, fun q hq => ⟨(h.ptrs q hq).live, (h.ptrs q hq).entry⟩, st.fix p.pos j _,
    BlockStore.replay_cons.mpr ⟨st, hr, if_pos ⟨ha.has hb hj, hknown⟩⟩, fun _ =>
      ⟨ha.size, fun q m hq i hi u hu => ?_, ha.root⟩⟩
  rw [BlockStore.fix_cell] at hu
  split at hu
  · next hqi =>
    obtain ⟨rfl, rfl⟩ := hqi
    exact Option.some.inj hu
  · exact ha.cell q m hq i hi u hu

/-- A lookup whose address is kept. -/
theorem ClientInv.getAddr (h : ClientInv w) {pid pos : Nat} {shmat : Nat → Nat → List Attach → Option Nat}
    (hl : (Access.getAddr pid pos shmat).Legal w) (hg : (Access.lookup pid pos shmat).Granted w.world)
    (hs : (Access.getAddr pid pos shmat).step w = .ok w') : ClientInv w' := by
  obtain ⟨hlegal, hlive⟩ := hl
  have hp := List.ne_nil_of_mem hlegal.1
  obtain ⟨⟨s, r⟩, hget, hs⟩ := Exec.bind_ok hs
  have hlook : (Access.act (Access.lookup pid pos shmat)).step w = .ok (w.after ⟨w.world.store pid s, w.live⟩ []) := by
    show (shmGetAddr _ pos >>= _) >>= _ = _
    rw [hget]
    rfl
  have hlook' : w.heap.Legal (Access.lookup pid pos shmat) := ⟨hlegal, trivial⟩
  have hinv := h.act hlook' ⟨hg, trivial, fun hc => absurd rfl hc, fun _ _ _ _ _ he => by
    obtain ⟨-, rfl, -⟩ := Action.call.inj he
    trivial⟩ hlook
  -- the address that is returned is in the table
  have hT := h.alive.tables.load hlegal.1 hlegal.2.2 (h.alive.served hlegal hg)
  have hu := h.heap.inUse hp hlive
  have hlt : pos2index pos < 128 := by
    by_contra hge
    exact hu ((h.alive.tables.arenas hp).bound _ (by omega))
  unfold shmGetAddr at hget
  dsimp only at hget
  rw [if_neg (by omega)] at hget
  obtain ⟨⟨s₁, base⟩, hrun, hret⟩ := Exec.bind_ok hget
  obtain ⟨rfl, rfl⟩ := Prod.mk.inj (Except.ok.inj hret)
  obtain ⟨addr, rfl, hentry⟩ := (lookup_cases hT hrun).entry hT hu
  obtain rfl := Except.ok.inj hs
  refine ⟨hinv.heap, hinv.fits, hinv.alive, fun p hp => ?_, hinv.recorded⟩
  rcases List.mem_cons.mp hp with rfl | hp
  · have harenas := getOrUpdateArenaAddr_arenas hrun
    refine ⟨hlive, ?_, ?_, ?_⟩
    · show pid ∈ (w.world.store pid s₁).pids
      rw [World.store, if_pos hlegal.1]
      exact hlegal.1
    · show (s₁.arenas _).type ≠ _
      rwa [harenas]
    · show (Function.update w.world.proc pid _ pid).arenaAddrs _ = ⟨some _, (s₁.arenas _).shmid⟩
      rw [Function.update_self, harenas]
      show s₁.arenaAddrs _ = _
      rw [hentry]
      simp [Ptr.base, World.load]
  · exact ⟨(hinv.ptrs p hp).live, (hinv.ptrs p hp).entry⟩

end

end ShmMalloc
