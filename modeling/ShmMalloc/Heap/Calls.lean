import ShmMalloc.Heap.Runs

/-! Calls on live positions, while every attach succeeds.

A lookup of an arena in use gives an address then, so that what a call of a process
needs is there: all but the address of a large arena, which `free_arena` takes from the
process's table as it is. -/
namespace ShmMalloc
open Library

/-- Every attach succeeds, and no block is freed in a full run that has links left. -/
def Kept (w : HeapWorld) (a : Action) : Prop := a.Attaching ∧ Unlinks w a

theorem HeapWorld.reach {allow : HeapWorld → Action → Prop} {allow' : World → Action → Prop}
    (hle : ∀ w a, allow w a → allow' w.world a) {w : HeapWorld} (h : heapMachine.Reach allow w) :
    worldMachine.Reach allow' w.world := by
  induction h with
  | start h => exact .start h.1
  | step _ hl ha hs ih => exact .step ih hl.world (hle _ _ ha) (step_world hs)

/-- A process of a run, and the state in which its next call starts. -/
structure Caller (w : HeapWorld) (pid : Nat) (shmat : Nat → Nat → List Attach → Option Nat) (s : Shm) : Prop where
  reach : heapMachine.Reach Kept w
  mem : pid ∈ w.world.pids
  fresh : FreshAddrs shmat
  attaching : Attaching shmat
  load : s = w.world.load (w.world.proc pid) shmat

section
variable {w : HeapWorld} {pid : Nat} {shmat : Nat → Nat → List Attach → Option Nat} {s s' : Shm}
  {ls lm : List Nat} {pool : Nat → List Nat}

theorem Caller.same (h : Caller w pid shmat s) : SameHeap w.world.shm s := h.load ▸ .write w.world.shm _ _

theorem Caller.heap (h : Caller w pid shmat s) : ∃ ls lm pool, HeapOk s ls lm pool ∧ BlocksLive s ls lm w.live := by
  have e := h.same
  obtain ⟨ls, lm, pool, hok, hl, -⟩ :=
    heapLive_reach (h.reach.mono fun _ _ ha => ha.2) (List.ne_nil_of_mem h.mem)
  exact ⟨ls, lm, pool, hok.same e, hl.same (e.blocks hok.toChunksOk).blocks⟩

theorem Caller.table (h : Caller w pid shmat s) : TableOk s := by
  have hreach : worldMachine.Reach (fun _ a => a.Attaching) w.world :=
    HeapWorld.reach (fun _ _ ha => ha.1) h.reach
  exact h.load ▸ (TablesOk.reach hreach).load h.mem h.fresh (h.attaching.served _ _)

/-- Lookups of arenas in use complete. -/
theorem TableOk.visit_total (h : TableOk s) {visits : List Nat} (hv : ∀ i ∈ visits, (s.arenas i).type ≠ .empty) :
    ∃ s', visit s visits = .ok s' ∧ TableOk s' := by
  induction visits generalizing s with
  | nil => exact ⟨s, rfl, h⟩
  | cons i visits ih =>
    obtain ⟨s₁, r, hlook, hr⟩ := h.lookup_total i
    obtain ⟨addr, rfl⟩ := Option.isSome_iff_exists.mp (hr.mpr (hv i List.mem_cons_self))
    have e := getOrUpdateArenaAddr_same hlook
    obtain ⟨s', hvisit, hT⟩ := ih (h.look hlook) fun j hj => by
      rw [e.arenas]
      exact hv j (List.mem_cons_of_mem _ hj)
    refine ⟨s', ?_, hT⟩
    show (getOrUpdateArenaAddr s i >>= fun r => if r.2.isNone then throw .null else visit r.1 visits) = _
    rw [hlook, Exec.ok_bind]
    exact hvisit

/-! ### `shm_free` -/

/-- **A free of a live position completes** if its arena is for chunks, or the process has an
address for it, and only then. A large arena is the only thing that the free looks at. -/
theorem free_live (h : Caller w pid shmat s) {pos : Nat} (hlive : IsLive w.live pos) (hu : Unstale s pos)
    {visits : List Nat} (hv : ∀ i ∈ visits, (s.arenas i).type ≠ .empty)
    (hlarge : (s.arenas (pos2index pos)).type = .large → visits = []) (os : Os) :
    (∃ w', heapMachine.step w (.call pid (.free pos) visits os shmat) = .ok w') ↔
      ((s.arenas (pos2index pos)).type = .large → ((w.world.proc pid).arenaAddrs (pos2index pos)).addr ≠ none) := by
  obtain ⟨ls, lm, pool, hok, hl⟩ := h.heap
  obtain ⟨size, n, -, -, hb, -⟩ := hl.at_live hlive
  obtain ⟨s₁, hvisit, hT₁⟩ := h.table.visit_total hv
  have e := visit_same hvisit
  have hb₁ := ((e.blocks hok.toChunksOk).blocks _ _ _).mpr hb
  have hstep : (∃ w', heapMachine.step w (.call pid (.free pos) visits os shmat) = .ok w') ↔
      ∃ s₂, freeArena s₁ (pos2index pos) (pos2offset pos) = .ok s₂ := by
    show (∃ w', (visit (w.world.load (w.world.proc pid) shmat) visits >>= fun s =>
      (shmFree s pos >>= fun s => .ok (s, 0)) >>= fun r => Except.ok (⟨w.world.store pid r.1,
        (Call.free pos).liveAfter w.live r.2⟩ : HeapWorld)) = .ok w') ↔ _
    rw [← h.load, hvisit, Exec.ok_bind, shmFree, if_neg (hok.pos_ne hb)]
    cases freeArena s₁ (pos2index pos) (pos2offset pos) with
    | error e =>
      constructor
      · rintro ⟨w', hw⟩
        cases hw
      · rintro ⟨s₂, hs⟩
        cases hs
    | ok s₂ => exact iff_of_true ⟨_, rfl⟩ ⟨s₂, rfl⟩
  rw [hstep, (hok.same e).free_total hT₁ hb₁ (hu.same e), hok.large_iff hb]
  refine forall_congr' fun ht => ?_
  obtain rfl : s = s₁ := by
    rw [hlarge ht] at hvisit
    exact Except.ok.inj hvisit
  rw [h.load]
  exact .rfl

end

/-! Process 1 has a large block, of whose arena process 2 has no address. -/

theorem unlinksTest_kept (w : HeapWorld) (o : Order) (h : unlinksTest w o = true) : Kept w o.action :=
  ⟨o.attaching, unlinksTest_unlinks w o h⟩

theorem exists_caller (pid : Nat) (orders : List Order) {p : HeapWorld → Bool}
    (hrun : (heapOrderMachine.run unlinksTest .start orders).any (fun w => decide (pid ∈ w.world.pids) && p w) = true) :
    ∃ w s, Caller w pid servingShmat s ∧ p w = true := by
  obtain ⟨w, hw, ht⟩ := Machine.exists_reach (M := heapOrderMachine) _ unlinksTest_kept _ HeapWorld.start_ok hrun
  obtain ⟨hp, ht⟩ := Bool.and_eq_true_iff.mp ht
  exact ⟨w, _, ⟨Order.heap_reach hw, of_decide_eq_true hp, servingShmat_fresh, servingShmat_attaching, rfl⟩, ht⟩

def sharedOrders : List Order := [.init 1 10, .init 2 20, .call 1 (.malloc (2 ^ 20)) (.created 11)]

/-- The assertion of `delete_arena` fails when process 2 frees the block. -/
theorem foreign_free_fails : ∃ w s, Caller w 2 servingShmat s ∧ IsLive w.live (2 ^ 32) ∧
    heapMachine.step w (.call 2 (.free (2 ^ 32)) [] .keyFails servingShmat) = .error .assertion := by
  obtain ⟨w, s, h, ht⟩ := exists_caller 2 sharedOrders (p := fun w =>
    decide (IsLive w.live (2 ^ 32)) &&
      match heapMachine.step w (.call 2 (.free (2 ^ 32)) [] .keyFails servingShmat) with
      | .ok _ => false
      | .error e => decide (e = .assertion)) (by decide +kernel)
  obtain ⟨hlive, ht⟩ := Bool.and_eq_true_iff.mp ht
  refine ⟨w, s, h, of_decide_eq_true hlive, ?_⟩
  cases hstep : heapMachine.step w (.call 2 (.free (2 ^ 32)) [] .keyFails servingShmat) with
  | ok w' =>
    rw [hstep] at ht
    cases ht
  | error e =>
    rw [hstep] at ht
    rw [of_decide_eq_true ht]

/-- Once it has looked at the block it may free it. -/
theorem free_live_test : ∃ w s, Caller w 2 servingShmat s ∧
    ((∃ w', heapMachine.step w (.call 2 (.free (2 ^ 32)) [] .keyFails servingShmat) = .ok w') ↔
      ((s.arenas (pos2index (2 ^ 32))).type = .large →
        ((w.world.proc 2).arenaAddrs (pos2index (2 ^ 32))).addr ≠ none)) := by
  obtain ⟨w, s, h, ht⟩ := exists_caller 2 (sharedOrders ++ [.call 2 (.getAddr (2 ^ 32)) .keyFails])
    (p := fun w => decide (IsLive w.live (2 ^ 32) ∧ Unstale w.world.shm (2 ^ 32))) (by decide +kernel)
  obtain ⟨hlive, hu⟩ := of_decide_eq_true ht
  exact ⟨w, s, h, free_live h hlive (hu.same h.same) (fun i hi => absurd hi List.not_mem_nil) (fun _ => rfl) .keyFails⟩

/-! ### `shm_check_size` -/

/-- The capacity of the block of a request: an element of the run in its page, the pages of the
unit that starts there, or its arena. -/
def Capacity (s : Shm) (pos size n : Nat) : Prop :=
  match kindOf size with
  | .small => n = (s.run (pos / 4096 * 4096)).elemsize
  | .medium => ∃ m, UsedUnit (s.medium (pos / 2 ^ 20 * 2 ^ 20)) (pos % 2 ^ 20 / 4096) m ∧ n = m * 4096
  | .large => n = (s.arenas (pos2index pos)).size

section
variable {w : HeapWorld} {pid : Nat} {shmat : Nat → Nat → List Attach → Option Nat} {s s' : Shm}
  {ls lm : List Nat} {pool : Nat → List Nat}

theorem HeapInv.capacity (h : HeapInv s ls lm pool) {pos size n : Nat} (hb : Block s ls lm (kindOf size) pos n) :
    Capacity s pos size n := by
  unfold Capacity
  cases hk : kindOf size with
  | small =>
    rw [hk] at hb
    exact (h.small_run hb).2.symm
  | medium =>
    rw [hk] at hb
    obtain ⟨c, p, m, hin, hu, h₁, h₂, h₀, hn⟩ := h.mediumBlock hb
    obtain ⟨i, k, -, -, -, -, hc, -⟩ := h.medium_place hin.chunk
    have hchunk := hin.start hc (by omega)
    have hpage : pos % 2 ^ 20 / 4096 = p := by
      have hpos := hin.pos
      omega
    show ∃ m, UsedUnit (s.medium (pos / 2 ^ 20 * 2 ^ 20)) (pos % 2 ^ 20 / 4096) m ∧ n = m * 4096
    rw [hchunk, hpage]
    exact ⟨m, hu, hn⟩
  | large =>
    rw [hk] at hb
    exact (h.large_at hb).2.2

/-- **The size of a live position** is the capacity of its block, and no less than what was asked
for, if the block is not of pages and is in the first slot of its arena, and only then. -/
theorem check_size_live (h : Caller w pid shmat s) {pos size : Nat} (hb : (pos, size) ∈ w.live) :
    ∃ s' m n, shmCheckSize s pos = .ok (s', m) ∧ Capacity s pos size n ∧
      (m = n ∧ size ≤ m ↔ kindOf size ≠ .medium ∧ pos2offset pos < 2 ^ 20 ∧ size ≤ 2 ^ 64 - 2 ^ 20) := by
  obtain ⟨ls, lm, pool, hok, hl⟩ := h.heap
  obtain ⟨hsize, n, hblock, hn⟩ := hl.block _ hb
  obtain ⟨s₁, hcheck, -, -⟩ := hok.check_total h.table hblock
  refine ⟨s₁, checkedSize (kindOf size) pos n, n, ?_, hok.capacity hblock, ?_⟩
  · rw [shmCheckSize, if_neg (hok.pos_ne hblock), hcheck]
  · unfold checkedSize
    split
    · next hc =>
      rw [← hn]
      exact ⟨fun hm => ⟨hc.1, hc.2, hm.2⟩, fun hm => ⟨rfl, hm.2.2⟩⟩
    · next hc =>
      refine iff_of_false ?_ fun hm => hc ⟨hm.1, hm.2.1⟩
      rintro ⟨-, hle⟩
      have : 0 < size := hsize
      omega

end

/-- The block of a byte is in the first arena, where the first slot is that of the context. -/
theorem check_size_fails : ∃ w s s', Caller w 1 servingShmat s ∧ (2 ^ 20 + 4096 + 64, 1) ∈ w.live ∧
    shmCheckSize s (2 ^ 20 + 4096 + 64) = .ok (s', 0) := by
  obtain ⟨w, s, h, ht⟩ := exists_caller 1 [.init 1 10, .call 1 (.malloc 1) .keyFails] (p := fun w =>
    decide ((2 ^ 20 + 4096 + 64, 1) ∈ w.live) &&
      (shmCheckSize (w.world.load (w.world.proc 1) servingShmat) (2 ^ 20 + 4096 + 64)).toOption.any fun r : Shm × Nat =>
        decide (r.2 = 0)) (by decide +kernel)
  obtain ⟨hlive, ht⟩ := Bool.and_eq_true_iff.mp ht
  rw [← h.load] at ht
  obtain ⟨⟨s', m⟩, hcheck, hm⟩ := exists_ok ht
  obtain rfl : m = 0 := of_decide_eq_true hm
  exact ⟨w, s, s', h, of_decide_eq_true hlive, hcheck⟩

theorem check_size_live_test : ∃ w s, Caller w 2 servingShmat s ∧ ∃ s' m n, shmCheckSize s (2 ^ 32) = .ok (s', m) ∧
    Capacity s (2 ^ 32) (2 ^ 20) n ∧ (m = n ∧ 2 ^ 20 ≤ m ↔
      kindOf (2 ^ 20) ≠ .medium ∧ pos2offset (2 ^ 32) < 2 ^ 20 ∧ 2 ^ 20 ≤ 2 ^ 64 - 2 ^ 20) := by
  obtain ⟨w, s, h, ht⟩ := exists_caller 2 sharedOrders (p := fun w => decide ((2 ^ 32, 2 ^ 20) ∈ w.live))
    (by decide +kernel)
  exact ⟨w, s, h, check_size_live h (of_decide_eq_true ht)⟩

end ShmMalloc
