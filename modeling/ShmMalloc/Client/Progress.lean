import ShmMalloc.Client.History
import ShmMalloc.Heap.Calls

/-! Whether what clients do completes.

An operation of clients that free and reallocate live positions only can abort in two
ways: a request for pages finds the first unit of its chunk too small, and a large arena is
deleted by a process that has no address for it. Everything else completes, also after
any writes, and whichever process does it. -/
namespace ShmMalloc
open Library

/-- What a call needs to complete. -/
def Call.Completes (s : Shm) : Call → Prop
  | .malloc size => kindOf size = .medium → FirstFits s size
  | .free pos => (s.arenas (pos2index pos)).type = .large → (s.arenaAddrs (pos2index pos)).addr ≠ none
  | .realloc pos size => ∀ s' m, shmCheckSize s pos = .ok (s', m) → pos = 0 ∨ m < size ∧ m ≠ 0 →
      kindOf size = .medium → FirstFits s size
  | .checkSize _ => True
  | .getAddr _ => True

/-- The sizes that are asked for are of live positions. -/
def Call.Asks (live : List (Nat × Nat)) : Call → Prop
  | .checkSize pos => pos = 0 ∨ IsLive live pos
  | _ => True

/-- What an access needs to complete: a call, where it is after the lookups of its trees. -/
def Access.Completes (w : ClientWorld) : Access → Prop
  | .act (.call pid c visits _ shmat) =>
    ∃ s, visit (w.world.load (w.world.proc pid) shmat) visits = .ok s ∧ c.Completes s
  | _ => True

/-- Trees look up arenas in use. -/
def Access.Visits (w : ClientWorld) : Access → Prop
  | .act (.call _ c visits _ _) => c.Asks w.live ∧ ∀ i ∈ visits, (w.world.shm.arenas i).type ≠ .empty
  | _ => True

section Calls
variable {s : Shm} {ls lm : List Nat} {pool : Nat → List Nat} {live : List (Nat × Nat)} {os : Os}

theorem kindOf_zero : kindOf 0 ≠ .medium := by decide

theorem HeapOk.shmMalloc_total (h : HeapOk s ls lm pool) (hT : TableOk s) {size : Nat} (hsize : size < 2 ^ 64)
    (hos : ∀ m, os.shmid = some m → m ≠ 0) :
    (∃ s' ret, shmMalloc s size os = .ok (s', ret)) ↔ (kindOf size = .medium → FirstFits s size) := by
  unfold shmMalloc
  by_cases h₀ : size = 0
  · rw [if_pos h₀, h₀]
    exact iff_of_true ⟨s, 0, rfl⟩ fun hk => absurd hk kindOf_zero
  · rw [if_neg h₀]
    exact h.malloc_total hT (Nat.pos_of_ne_zero h₀) hsize hos

/-- `shm_get_addr` completes for any position. -/
theorem TableOk.shmGetAddr_total (hT : TableOk s) (pos : Nat) : ∃ s' r, shmGetAddr s pos = .ok (s', r) := by
  unfold shmGetAddr
  dsimp only
  split
  · exact ⟨s, none, rfl⟩
  · obtain ⟨s₁, r, hlook, -⟩ := hT.lookup_total (pos2index pos)
    rw [hlook]
    exact ⟨s₁, _, rfl⟩

/-- A call whose last step only wraps what the first one returns. -/
theorem wrap_total {α β : Type} {x : Exec α} {f : α → β} :
    (∃ b, (x >>= fun a => Except.ok (f a)) = .ok b) ↔ ∃ a, x = .ok a := by
  cases x with
  | error e => exact iff_of_false (fun ⟨b, hb⟩ => by cases hb) fun ⟨a, ha⟩ => by cases ha
  | ok a => exact iff_of_true ⟨f a, rfl⟩ ⟨a, rfl⟩

theorem HeapOk.call_total (h : HeapOk s ls lm pool) (hl : BlocksLive s ls lm live) (hT : TableOk s)
    (hos : ∀ m, os.shmid = some m → m ≠ 0) {c : Call} (hlegal : c.LegalFor live) (hasks : c.Asks live)
    (hu : c.freed ≠ 0 → Unstale s c.freed) : (∃ s' ret, c.run s os = .ok (s', ret)) ↔ c.Completes s := by
  have hctx : (s.arenas (pos2index 0)).type ≠ .large := by
    rw [show pos2index 0 = 0 from rfl, (h.arenas.context 0).mpr rfl]
    decide
  cases c with
  | malloc size => exact h.shmMalloc_total hT hlegal hos
  | free pos =>
    have hwrap : (∃ s' ret, (Call.free pos).run s os = .ok (s', ret)) ↔ ∃ s', shmFree s pos = .ok s' := by
      rw [← wrap_total (f := fun s => (s, 0)), Prod.exists]
      rfl
    rw [hwrap]
    unfold shmFree
    by_cases hpos : pos = 0
    · subst hpos
      rw [if_pos rfl]
      exact iff_of_true ⟨s, rfl⟩ fun ht => absurd ht hctx
    · rw [if_neg hpos]
      obtain ⟨size, n, -, -, hb, -⟩ := hl.at_live (hlegal.resolve_left hpos)
      exact (h.free_total hT hb (hu hpos)).trans (by rw [h.large_iff hb]; rfl)
  | realloc pos size =>
    by_cases hpos : pos = 0
    · subst hpos
      have hsize : shmCheckSize s 0 = .ok (s, 0) := rfl
      exact (h.shmMalloc_total hT hlegal.1 hos).trans
        ⟨fun hk _ _ _ _ => hk, fun hk => hk _ _ hsize (.inl rfl)⟩
    · obtain ⟨size₀, n, -, -, hb, -⟩ := hl.at_live (hlegal.2.resolve_left hpos)
      obtain ⟨s₁, hcheck, -⟩ := h.check_total hT hb
      have hsize : shmCheckSize s pos = .ok (s₁, checkedSize (kindOf size₀) pos n) := by
        unfold shmCheckSize
        rw [if_neg hpos]
        exact hcheck
      refine (h.realloc_total hT hb (hu hpos) hlegal.1 hos).trans ⟨fun hk s' m hm hlt => ?_, fun hk hlt => ?_⟩
      · obtain ⟨-, rfl⟩ := Prod.mk.inj (Except.ok.inj (hsize.symm.trans hm))
        exact hk (hlt.resolve_left hpos)
      · exact hk _ _ hsize (.inr hlt)
  | checkSize pos =>
    refine iff_of_true ?_ trivial
    show ∃ s' ret, shmCheckSize s pos = .ok (s', ret)
    unfold shmCheckSize
    by_cases hpos : pos = 0
    · rw [if_pos hpos]
      exact ⟨s, 0, rfl⟩
    · rw [if_neg hpos]
      obtain ⟨size, n, -, -, hb, -⟩ := hl.at_live (hasks.resolve_left hpos)
      obtain ⟨s₁, hcheck, -⟩ := h.check_total hT hb
      exact ⟨s₁, _, hcheck⟩
  | getAddr pos =>
    refine iff_of_true ?_ trivial
    obtain ⟨s', r, hget⟩ := hT.shmGetAddr_total pos
    refine ⟨s', 0, ?_⟩
    show (shmGetAddr s pos >>= _) = _
    rw [hget]
    rfl

end Calls

/-! ### Processes -/

theorem setArenaAddr_arenas (s : Shm) (i : Nat) (a : ShmArenaAddr) : (s.setArenaAddr i a).arenas = s.arenas := rfl

/-- The loop of `shm_init` asserts nothing that does not hold. -/
theorem mmapArenas_total (n : Nat) (s : Shm) (i : Nat) (h : ∀ j, i ≤ j → (s.arenas j).type ≠ .context) :
    ∃ s', mmapArenas n s i = .ok s' := by
  induction n generalizing s i with
  | zero => exact ⟨s, rfl⟩
  | succ n ih =>
    unfold mmapArenas
    split
    · next hvalid =>
      have hreq : ((s.arenas i).type ≠ .empty && (s.arenas i).type ≠ .context) = true := by
        rw [isArenaValid, Bool.and_eq_true] at hvalid
        exact Bool.and_eq_true_iff.mpr ⟨hvalid.2, decide_eq_true (h i le_rfl)⟩
      have hmap : mmapArena s i = .ok ({s with sys := (s.sys.mmap (s.arenas i).shmid).1},
          (s.sys.mmap (s.arenas i).shmid).2) := by
        unfold mmapArena
        dsimp only
        rw [hreq]
        rfl
      rw [hmap, Exec.ok_bind]
      exact ih _ _ fun j hj => h j (by omega)
    · exact ih _ _ fun j hj => h j (by omega)

/-- A process starts. -/
theorem TablesOk.init_total {w : World} (h : TablesOk w) (pid shmid : Nat)
    (shmat : Nat → Nat → List Attach → Option Nat) : ∃ w', w.init pid shmid shmat = .ok w' := by
  unfold World.init
  generalize hs : {w with shm := w.context shmid}.load .none shmat = s
  have harenas : s.arenas = (w.context shmid).arenas := by rw [← hs]; rfl
  dsimp only
  rcases hmap : s.sys.mmap (s.arenas 0).shmid with ⟨y, _ | addr⟩
  · exact ⟨_, rfl⟩
  · have hne : ((w.context shmid).arenas 0).shmid ≠ 0 := harenas ▸ (Sysv.mmap_some hmap).1
    have hok := h.found_arenas hne
    obtain ⟨s', hloop⟩ := mmapArenas_total 127 ({s with sys := y}.setArenaAddr 0 ⟨some addr, (s.arenas 0).shmid⟩) 1
      fun j hj ht => by
        rw [setArenaAddr_arenas] at ht
        change (s.arenas j).type = .context at ht
        rw [harenas, hok.context] at ht
        omega
    dsimp only
    rw [hloop]
    exact ⟨_, rfl⟩

section
variable {w : ClientWorld}

/-- What a call runs on. -/
theorem ClientInv.call_start (h : ClientInv w) {pid : Nat} {c : Call} {visits : List Nat} {os : Os}
    {shmat : Nat → Nat → List Attach → Option Nat} (hl : (Action.call pid c visits os shmat).Legal w.world)
    (hg : (Action.call pid c visits os shmat).Granted w.world)
    (hv : ∀ i ∈ visits, (w.world.shm.arenas i).type ≠ .empty) : ∃ s,
      visit (w.world.load (w.world.proc pid) shmat) visits = .ok s ∧ SameHeap w.world.shm s ∧ TableOk s := by
  have hT := h.alive.tables.load hl.1 hl.2.2 (h.alive.served hl hg)
  obtain ⟨s, hvisit, hT'⟩ := hT.visit_total hv
  exact ⟨s, hvisit, visit_load hvisit, hT'⟩

theorem ClientInv.total (h : ClientInv w) {a : Access} (hl : a.Legal w) (hc : Careful w a) (hv : a.Visits w) :
    (∃ w', a.step w = .ok w') ↔ a.Completes w := by
  cases a with
  | act a =>
    cases a with
    | init pid shmid shmat =>
      refine iff_of_true ?_ trivial
      obtain ⟨world, hinit⟩ := h.alive.tables.init_total pid shmid shmat
      have hstep : w.heap.step (.init pid shmid shmat) = .ok ⟨world, if w.world.pids = [] then [] else w.live⟩ := by
        show (w.heap.world.init pid shmid shmat >>= _) = _
        rw [hinit]
        rfl
      show ∃ w', (w.heap.step (.init pid shmid shmat) >>= _) = Except.ok w'
      rw [hstep, Exec.ok_bind]
      split
      · exact ⟨_, rfl⟩
      · exact ⟨_, rfl⟩
    | exit pid => exact iff_of_true ⟨_, rfl⟩ trivial
    | call pid c visits os shmat =>
      obtain ⟨hg, -, hu, -⟩ := hc
      obtain ⟨hlegal, hfor⟩ := hl
      obtain ⟨hasks, hin⟩ := hv
      obtain ⟨s, hvisit, e, hT⟩ := h.call_start hlegal hg hin
      obtain ⟨ls, lm, pool, hok, hb, -⟩ := h.heap (List.ne_nil_of_mem hlegal.1)
      have hcall := (hok.same e).call_total (hb.same (e.blocks hok.toChunksOk).blocks) hT
        (fun m hm => (hlegal.2.1 m hm).pos) hfor hasks fun hf => (hu hf).same e
      have hcompletes : (Access.act (.call pid c visits os shmat)).Completes w ↔ c.Completes s := by
        refine ⟨fun ⟨s₁, hv, hc⟩ => ?_, fun hc => ⟨s, hvisit, hc⟩⟩
        obtain rfl := Except.ok.inj (hvisit.symm.trans hv)
        exact hc
      have hwrap := wrap_total (x := c.run s os)
        (f := fun r => w.after ⟨w.world.store pid r.1, c.liveAfter w.live r.2⟩ (c.ops r.2))
      rw [Prod.exists] at hwrap
      rw [hcompletes, ← hcall, ← hwrap]
      show (∃ w', (visit (w.world.load (w.world.proc pid) shmat) visits >>= _) = Except.ok w') ↔ _
      rw [hvisit]
      rfl
  | getAddr pid pos shmat =>
    refine iff_of_true ?_ trivial
    have hT := h.alive.tables.load hl.1.1 hl.1.2.2 (h.alive.served hl.1 hc)
    obtain ⟨s, r, hget⟩ := hT.shmGetAddr_total pos
    show ∃ w', (shmGetAddr (w.world.load (w.world.proc pid) shmat) pos >>= _) = Except.ok w'
    rw [hget, Exec.ok_bind]
    cases r with
    | none => exact ⟨_, rfl⟩
    | some addr => exact ⟨_, rfl⟩
  | write p j v s =>
    refine iff_of_true ?_ trivial
    simp only [Access.step, h.reaches hl.1.ptr]
    exact ⟨_, rfl⟩
  | read p j =>
    refine iff_of_true ?_ trivial
    simp only [Access.step, h.reaches hl.ptr]
    exact ⟨_, rfl⟩
  | setUserdata pid data => exact iff_of_true ⟨_, rfl⟩ trivial
  | getUserdata pid => exact iff_of_true ⟨_, rfl⟩ trivial

/-- **When what clients do completes**, at any point of a run: always, but for requests for pages where the first unit
of the chosen chunk is too small, and frees of large blocks by processes without an address for the
arena. -/
theorem clients_complete (h : clientMachine.Reach Careful w) {a : Access} (hl : a.Legal w) (hc : Careful w a)
    (hv : a.Visits w) : (∃ w', a.step w = .ok w') ↔ a.Completes w := (clientInv_reach h).total hl hc hv

end

/-- Process 1 has no address for the arena to which process 2 has moved the block. -/
def foreignFree : ClientOrder := .order (.call 1 (.free (2 ^ 33)) .keyFails)

theorem clients_complete_published : ∃ w, clientMachine.Reach Careful w ∧ IsLive w.live (2 ^ 33) ∧
    ((∃ w', (foreignFree.access w).step w = .ok w') ↔ (foreignFree.access w).Completes w) := by
  obtain ⟨w, hw, ht⟩ := exists_clients publish (p := fun w => decide (IsLive w.live (2 ^ 33) ∧
    (foreignFree.access w).Legal w) && carefulTest w foreignFree) (by decide +kernel)
  obtain ⟨ht, hc⟩ := Bool.and_eq_true_iff.mp ht
  obtain ⟨hlive, hl⟩ := of_decide_eq_true ht
  exact ⟨w, hw, hlive, clients_complete hw hl (carefulTest_careful w _ hc) ⟨trivial, fun i hi => absurd hi List.not_mem_nil⟩⟩

end ShmMalloc
