import ShmMalloc.Client.Runs

/-! What clients can rely on.

In every run of any clients the memory is a store of blocks: what one process writes in
a block is what every process reads there, however many calls the others have made
since, until the block is freed. -/
namespace ShmMalloc
open Library

section
variable {w w' : ClientWorld}

theorem ClientInv.step (h : ClientInv w) {a : Access} (hl : a.Legal w) (hc : Careful w a) (hs : a.step w = .ok w') :
    ClientInv w' := by
  cases a with
  | act a => exact h.act hl hc hs
  | getAddr pid pos shmat => exact h.getAddr hl hc hs
  | write p j v s => exact h.write hl hs
  | read p j => exact h.read hl hs
  | setUserdata pid data =>
    obtain rfl := Except.ok.inj hs
    obtain ⟨st, hr, ha⟩ := h.recorded
    exact ⟨h.heap, h.fits, h.alive, fun p hp => ⟨(h.ptrs p hp).live, (h.ptrs p hp).entry⟩, {st with root := data},
      BlockStore.replay_cons.mpr ⟨st, hr, rfl⟩, fun hp => ⟨(ha hp).size, (ha hp).cell, rfl⟩⟩
  | getUserdata pid =>
    obtain rfl := Except.ok.inj hs
    obtain ⟨st, hr, ha⟩ := h.recorded
    have ha := ha (List.ne_nil_of_mem hl)
    exact ⟨h.heap, h.fits, h.alive, fun p hp => ⟨(h.ptrs p hp).live, (h.ptrs p hp).entry⟩, st,
      BlockStore.replay_cons.mpr ⟨st, hr, if_pos ha.root.symm⟩, fun _ => ⟨ha.size, ha.cell, ha.root⟩⟩

theorem ClientInv.start (h : clientMachine.start w) : ClientInv w := by
  obtain ⟨hw, hl, hu, hp, hh⟩ := h
  refine ⟨fun hne => absurd hw.1 hne, fun b hb => ?_, .start hw, fun p hm => ?_, .empty 0, by rw [hh]; rfl,
    fun hne => absurd hw.1 hne⟩
  · rw [hl] at hb
    cases hb
  · rw [hp] at hm
    cases hm

theorem clientInv_reach (h : clientMachine.Reach Careful w) : ClientInv w :=
  h.invariant (fun _ => .start) fun _ _ _ hi hl hc hs => hi.step hl hc hs

/-! ### The store -/

/-- **Every history of any clients is one of a store of blocks**, and the memory has what is in the
store: the live blocks with their sizes, the bytes that are known, and the user data. -/
theorem clients_history (h : clientMachine.Reach Careful w) : ∃ st, BlockStore.replay 0 w.history = some st ∧
    (w.world.pids ≠ [] → Agrees w.world.shm w.live w.userData st) := (clientInv_reach h).recorded

/-- **What is read**: a byte of a block is what was last written there, or read, by whichever process and
wherever the block was then; the user data are what they were last set to, and 0 before. -/
theorem client_reads (h : clientMachine.Reach Careful w) :
    (∀ newer later older o pos pos' j v v', w.history = newer ++ .read pos' j v' :: (later ++ o :: older) →
      BlockStore.Fixes pos j v o → BlockStore.carried j later pos = some pos' → v' = v) ∧
    ∀ newer older u, w.history = newer ++ .getRoot u :: older →
      u = (older.findSome? BlockStore.setsRoot).getD 0 := by
  obtain ⟨st, hr, -⟩ := (clientInv_reach h).recorded
  refine ⟨fun newer later older o pos pos' j v v' hh ho hc => ?_, fun newer older u hh => ?_⟩
  · obtain ⟨s, hs⟩ := BlockStore.replay_append (hh ▸ hr)
    exact BlockStore.replay_read hs ho hc
  · obtain ⟨s, hs⟩ := BlockStore.replay_append (hh ▸ hr)
    exact BlockStore.replay_getRoot hs

/-! ### Addresses -/

/-- **An address is valid until the block is freed**: it stays with its process as long as both are
there, what is attached there is the segment of the block's arena, and every read and write
of a byte of the block through it completes, on that byte. -/
theorem address_valid (h : clientMachine.Reach Careful w) :
    (∀ p ∈ w.ptrs, p.pid ∈ w.world.pids ∧ IsLive w.live p.pos ∧
      w.world.mapped p.pid p.base = some (pos2index p.pos)) ∧
    (∀ p ∈ w.ptrs, ∀ (a : Access) w', a.step w = .ok w' → p.pid ∈ w'.world.pids → IsLive w'.live p.pos → p ∈ w'.ptrs) ∧
    (∀ p j v s, (Access.write p j v s).Legal w → ∃ w', (Access.write p j v s).step w = .ok w' ∧
      w'.world.shm.data (pos2index p.pos) (pos2offset p.pos + j) = some v) ∧
    ∀ p j, (Access.read p j).Legal w → (Access.read p j).step w =
      .ok (w.record (.read p.pos j (w.world.shm.data (pos2index p.pos) (pos2offset p.pos + j)))) := by
  have hi := clientInv_reach h
  refine ⟨fun p hp => ⟨(hi.ptrs p hp).entry.mem, (hi.ptrs p hp).live, hi.reaches hp⟩, fun p hp a w' hs hpid hlive => ?_,
    fun p j v s hl => ?_, fun p j hl => ?_⟩
  · exact ptrs_kept hp hs hpid hlive
  · have hm := hi.reaches hl.1.ptr
    exact ⟨(w.setShm s).record (.write p.pos j (some v)), by simp only [Access.step, hm], (hl.2 _ hm).2⟩
  · simp only [Access.step, hi.reaches hl.ptr]

/-! ### The heap -/

end

/-! ### Runs that can be run -/

/-- What clients do on the system that serves every attach; a write changes nothing but its byte. -/
inductive ClientOrder where
  | order (o : Order)
  | getAddr (pid pos : Nat)
  | write (p : Ptr) (j : Nat) (v : UInt8)
  | read (p : Ptr) (j : Nat)
  | setUserdata (pid data : Nat)
  | getUserdata (pid : Nat)

def ClientOrder.access (w : ClientWorld) : ClientOrder → Access
  | .order o => .act o.action
  | .getAddr pid pos => .getAddr pid pos servingShmat
  | .write p j v => .write p j v
      (w.world.shm.setByte ((w.world.mapped p.pid p.base).getD 0) (pos2offset p.pos + j) v)
  | .read p j => .read p j
  | .setUserdata pid data => .setUserdata pid data
  | .getUserdata pid => .getUserdata pid

instance (w : ClientWorld) (p : Ptr) (j : Nat) : Decidable (Access.Owns w p j) :=
  decidable_of_iff (p ∈ w.ptrs ∧ ∃ b ∈ w.live, b.1 = p.pos ∧ j < b.2)
    ⟨fun ⟨hp, b, hb, he, hj⟩ => ⟨hp, b.2, he ▸ hb, hj⟩, fun ⟨hp, _, hb, hj⟩ => ⟨hp, _, hb, rfl, hj⟩⟩

theorem write_legal {w : ClientWorld} {p : Ptr} {j : Nat} {v : UInt8} :
    (ClientOrder.access w (.write p j v)).Legal w ↔ Access.Owns w p j := by
  refine and_iff_left_of_imp fun _ i hi => ?_
  rw [Option.mem_def.mp hi]
  exact ⟨Shm.setByte_overwrites _ _ _ v, if_pos ⟨rfl, rfl⟩⟩

instance (w : ClientWorld) : (o : ClientOrder) → Decidable ((o.access w).Legal w)
  | .order o => inferInstanceAs (Decidable (w.heap.Legal o.action))
  | .getAddr pid pos =>
    inferInstanceAs (Decidable ((Order.call pid (.getAddr pos) .keyFails).action.Legal w.world ∧ IsLive w.live pos))
  | .write _ _ _ => decidable_of_iff _ write_legal.symm
  | .read p j => inferInstanceAs (Decidable (Access.Owns w p j))
  | .setUserdata pid _ => inferInstanceAs (Decidable (pid ∈ w.world.pids))
  | .getUserdata pid => inferInstanceAs (Decidable (pid ∈ w.world.pids))

def clientOrderMachine : Machine ClientWorld ClientOrder Fault :=
  ⟨clientMachine.start, fun w o => (o.access w).Legal w, fun w o => (o.access w).step w⟩

instance (w : ClientWorld) (o : ClientOrder) : Decidable (clientOrderMachine.legal w o) :=
  inferInstanceAs (Decidable ((o.access w).Legal w))

theorem ClientOrder.reach {w : ClientWorld} (h : clientOrderMachine.Reach (fun w o => Careful w (o.access w)) w) :
    clientMachine.Reach Careful w := by
  induction h with
  | start h => exact .start h
  | step _ hl ha hs ih => exact .step ih hl ha hs

instance : (c : Call) → Decidable c.Fits
  | .malloc size => inferInstanceAs (Decidable (size ≤ 2 ^ 64 - 2 ^ 20))
  | .free _ => .isTrue trivial
  | .realloc _ size => inferInstanceAs (Decidable (size ≤ 2 ^ 64 - 2 ^ 20))
  | .checkSize _ => .isTrue trivial
  | .getAddr _ => .isTrue trivial

def carefulTest (w : ClientWorld) : ClientOrder → Bool
  | .order (.call pid c os) => unlinksTest w.heap (.call pid c os) && decide c.Fits
  | .order o => keepingTest w.world o
  | _ => true

theorem carefulTest_careful (w : ClientWorld) (o : ClientOrder) (h : carefulTest w o = true) : Careful w (o.access w) := by
  cases o with
  | order o =>
    cases o with
    | init pid shmid =>
      obtain ⟨hg, hk⟩ := keepingTest_keeping w.world (.init pid shmid) h
      exact ⟨hg, hk, trivial, fun _ _ _ _ _ he => by cases he⟩
    | exit pid =>
      obtain ⟨hg, hk⟩ := keepingTest_keeping w.world (.exit pid) h
      exact ⟨hg, hk, trivial, fun _ _ _ _ _ he => by cases he⟩
    | call pid c os =>
      obtain ⟨hu, hf⟩ := Bool.and_eq_true_iff.mp h
      refine ⟨Order.granted w.world (.call pid c os), trivial, unlinksTest_unlinks w.heap _ hu, fun _ _ _ _ _ he => ?_⟩
      obtain ⟨-, rfl, -⟩ := Action.call.inj he
      exact of_decide_eq_true hf
  | getAddr pid pos => exact Order.granted w.world (.call pid (.getAddr pos) .keyFails)
  | write p j v => trivial
  | read p j => trivial
  | setUserdata pid data => trivial
  | getUserdata pid => trivial

def ClientWorld.start : ClientWorld := ⟨.start, 0, [], []⟩

theorem exists_clients (orders : List ClientOrder) {p : ClientWorld → Bool}
    (hrun : (clientOrderMachine.run carefulTest .start orders).any p = true) :
    ∃ w, clientMachine.Reach Careful w ∧ p w = true := by
  have hstart : clientOrderMachine.start .start := ⟨⟨rfl, fun _ => rfl⟩, rfl, rfl, rfl, rfl⟩
  obtain ⟨w, hw, hp⟩ := Machine.exists_reach (M := clientOrderMachine) _ carefulTest_careful _ hstart hrun
  exact ⟨w, ClientOrder.reach hw, hp⟩

/-! ### A run

One process allocates a block, writes in it and publishes it; the other finds it in the user data, moves
it to where there is more room, and reads. -/

def publish : List ClientOrder :=
  [.order (.init 1 10), .order (.call 1 (.malloc (2 ^ 20)) (.created 11)), .getAddr 1 (2 ^ 32),
    .write ⟨1, 2 ^ 32, 2⟩ 5 7, .setUserdata 1 (2 ^ 32), .order (.init 2 20), .getUserdata 2,
    .order (.call 2 (.realloc (2 ^ 32) (2 ^ 21)) (.created 12)), .getAddr 2 (2 ^ 33), .read ⟨2, 2 ^ 33, 3⟩ 5]

/-- What has happened when the block is read. -/
def published : List ClientOp := [.move (2 ^ 32) (2 ^ 33) (2 ^ 21), .getRoot (2 ^ 32), .setRoot (2 ^ 32)]

theorem clients_history_published : ∃ w : ClientWorld,
    w.history = .read (2 ^ 33) 5 (some 7) :: (published ++ [.write (2 ^ 32) 5 (some 7), .alloc (2 ^ 32) (2 ^ 20), .clear 0]) ∧
    ∃ st, BlockStore.replay 0 w.history = some st ∧
      (w.world.pids ≠ [] → Agrees w.world.shm w.live w.userData st) := by
  obtain ⟨w, hw, hp⟩ := exists_clients publish (p := fun w => decide (w.history = .read (2 ^ 33) 5 (some 7) :: (published ++
    [.write (2 ^ 32) 5 (some 7), .alloc (2 ^ 32) (2 ^ 20), .clear 0]))) (by decide +kernel)
  exact ⟨w, of_decide_eq_true hp, clients_history hw⟩

theorem client_reads_published : ∃ (w : ClientWorld) (older : List ClientOp) (v : Option UInt8),
    clientMachine.Reach Careful w ∧
    w.history = .read (2 ^ 33) 5 v :: (published ++ .write (2 ^ 32) 5 (some 7) :: older) ∧ v = some 7 := by
  obtain ⟨w, hw, hp⟩ := exists_clients publish (p := fun w => decide (w.history = .read (2 ^ 33) 5 (some 7) :: (published ++
    .write (2 ^ 32) 5 (some 7) :: [.alloc (2 ^ 32) (2 ^ 20), .clear 0]))) (by decide +kernel)
  have hh := of_decide_eq_true hp
  exact ⟨w, _, _, hw, hh, (client_reads hw).1 [] published _ _ _ _ 5 (some 7) (some 7) hh (.inl rfl) (by decide)⟩

theorem address_valid_published : ∃ w : ClientWorld, (⟨2, 2 ^ 33, 3⟩ : Ptr) ∈ w.ptrs ∧
    w.world.mapped 2 (Ptr.base ⟨2, 2 ^ 33, 3⟩) = some (pos2index (2 ^ 33)) := by
  obtain ⟨w, hw, hp⟩ := exists_clients publish (p := fun w => decide (⟨2, 2 ^ 33, 3⟩ ∈ w.ptrs)) (by decide +kernel)
  have hm := of_decide_eq_true hp
  exact ⟨w, hm, ((address_valid hw).1 _ hm).2.2⟩

end ShmMalloc
