import ShmMalloc.Heap.Big

/-! The pools of runs and the blocks, in every run that leaves no links.

A run that becomes full is taken out of the tree of its pool, and keeps the links that it
had there. When it gets a slot back it is put into the tree with them: its old children
are then in the tree twice. As long as no block is freed in a full run that has links,
the pools are trees, and the blocks of all kinds are apart. -/
namespace ShmMalloc
open Library

/-! ### The pools of runs -/

/-- A run is on a page in use of a small chunk that has a slot. -/
def IsRun (s : Shm) (r : Nat) : Prop := ∃ c p, IsChunk s c ∧ (s.header c).type = .small ∧ p ≠ 0 ∧ p < 256 ∧
  bitmapGet (s.small c).bitmap p = true ∧ r = c + p * 4096

/-- A run of the class `k` that is not full. -/
def HasRoom (s : Shm) (k r : Nat) : Prop :=
  IsRun s r ∧ (s.run r).confIndex = k ∧ (s.run r).used < (s.run r).total

/-- The links from the root of the pool lead to each run that is not full, in one way. -/
structure RunPool (s : Shm) (k : Nat) : Prop where
  reached : ∀ r, r ≠ 0 → ((∃ path, follow treeView 0 s.runNode (s.runPool k).root path = r) ↔ HasRoom s k r)
  once : ∀ r path path', r ≠ 0 → follow treeView 0 s.runNode (s.runPool k).root path = r →
    follow treeView 0 s.runNode (s.runPool k).root path' = r → path = path'
  size : ∃ l : List Nat, l.Nodup ∧ (∀ r, r ∈ l ↔ HasRoom s k r) ∧ (s.runPool k).size = l.length

/-- The run is the root of the pool of its class, and a slot of it can be taken. -/
structure RootRun (s : Shm) (k r : Nat) : Prop where
  root : r ≠ 0 ∧ (s.runPool k).root = r
  conf : (s.run r).confIndex = k
  malloc : ∃ s' pos, mallocChunkRun s r = .ok (s', pos)

section
variable {s s' : Shm} {ls lm : List Nat} {pool : Nat → List Nat}

theorem HeapInv.isRun_iff (h : HeapInv s ls lm pool) (r : Nat) : IsRun s r ↔ RunAt s ls r := by
  constructor
  · rintro ⟨c, p, hc, ht, hp₀, hp, hbit, rfl⟩
    exact ⟨c, h.small_iff.mpr ⟨hc, ht⟩, p, mem_pages.mpr ⟨hp, hbit⟩, hp₀, rfl⟩
  · rintro ⟨c, hc, p, hp, hp₀, rfl⟩
    obtain ⟨hchunk, ht⟩ := h.small_iff.mp hc
    obtain ⟨hlt, hbit⟩ := mem_pages.mp hp
    exact ⟨c, p, hchunk, ht, hp₀, hlt, hbit, rfl⟩

theorem HeapInv.runPool (h : HeapInv s ls lm pool) {k : Nat} (hk : IsClass k) : RunPool s k := by
  have hpool := h.small.pools k hk
  have hmem : ∀ r, r ∈ pool k ↔ HasRoom s k r := fun r => by
    unfold HasRoom
    rw [h.small.mem k hk, h.isRun_iff]
  exact ⟨fun r hr => (hpool.follow_iff hr).trans (hmem r), fun r path path' hr hf hf' => hpool.follow_inj hr hf hf',
    pool k, hpool.nodup, hmem, hpool.size⟩

theorem HeapInv.rootRun (h : HeapInv s ls lm pool) {k r : Nat} (hk : IsClass k) (hroot : (s.runPool k).root = r)
    (hne : r ≠ 0) : RootRun s k r := by
  obtain ⟨s', o, l, hrun, -, -, -, hconf, -⟩ := mallocChunkRun_step h.small hk hroot hne
  exact ⟨⟨hne, hroot⟩, hconf, s', _, hrun⟩

end

/-- **The pools of runs**, in every run in which no block is freed in a full run with links: each
is a tree of the runs of its class that are not full, and the run of a request, be it from
the pool or new, is the root, with a slot to take. -/
theorem run_pools {w : HeapWorld} (h : heapMachine.Reach Unlinks w) {pid : Nat} (hp : pid ∈ w.world.pids)
    {visits : List Nat} {shmat : Nat → Nat → List Attach → Option Nat} {s : Shm}
    (hs : visit (w.world.load (w.world.proc pid) shmat) visits = .ok s) {k : Nat} (h₁ : 1 ≤ k) (h₂ : k ≤ 14) :
    RunPool w.world.shm k ∧ ((s.runPool k).root ≠ 0 → RootRun s k (s.runPool k).root) ∧
      ((s.runPool k).root = 0 → ∀ size os s₁ c, getOrNewChunk s .small size os = .ok (s₁, some c) →
        ∃ s₂ r, newChunkRun s₁ c k = .ok (s₂, r) ∧ RootRun s₂ k r) := by
  obtain ⟨ls, lm, pool, hok, -, -⟩ := heapLive_reach h (List.ne_nil_of_mem hp)
  have hk : IsClass k := ⟨h₁, h₂⟩
  have hok' := hok.same (visit_load hs)
  refine ⟨hok.runPool hk, hok'.rootRun hk rfl, fun hroot size os s₁ c hget => ?_⟩
  obtain ⟨hnone, -⟩ | ⟨c', ls', hc, hok₁, -, hmem, hroom, hpool⟩ := hok'.get_small hget
  · cases hnone
  · obtain rfl := Option.some.inj hc
    obtain ⟨s₂, r, ls'', pool', hnew, hr, hroot₂, hok₂, -⟩ := hok₁.new_root hmem hk hroom (by rw [hpool, hroot])
    exact ⟨s₂, r, hnew, hok₂.rootRun hk hroot₂ hr⟩

/-! Runs of two slots: the first fills, gets a slot back when the second is in the pool, fills
again and is taken out with the second as its child, and gets a slot back once more. -/

def staleOrders : List Order :=
  [.init 1 10, .call 1 (.malloc 1920) .keyFails, .call 1 (.malloc 1920) .keyFails, .call 1 (.malloc 1920) .keyFails,
    .call 1 (.free (2 ^ 20 + 4096 + 64)) .keyFails, .call 1 (.malloc 1920) .keyFails,
    .call 1 (.free (2 ^ 20 + 4096 + 64)) .keyFails]

theorem exists_orders (orders : List Order) {p : HeapWorld → Bool}
    (hrun : (heapOrderMachine.run (fun _ _ => true) .start orders).any (fun w =>
      decide (w.world.pids = [1]) && p w) = true) :
    ∃ w, heapMachine.Reach (fun _ _ => True) w ∧ w.world.pids = [1] ∧ p w = true := by
  obtain ⟨w, hw, ht⟩ := Machine.exists_reach (M := heapOrderMachine) _ (fun _ _ _ => trivial) _ HeapWorld.start_ok hrun
  obtain ⟨hp, ht⟩ := Bool.and_eq_true_iff.mp ht
  exact ⟨w, Order.heap_reach hw, of_decide_eq_true hp, ht⟩

/-- The second run is both children of the first. -/
theorem run_pool_shared : ∃ w, heapMachine.Reach (fun _ _ => True) w ∧ w.world.pids = [1] ∧
    ¬RunPool w.world.shm 14 := by
  obtain ⟨w, hw, hp, ht⟩ := exists_orders staleOrders (p := fun w => decide ((w.world.shm.runPool 14).root = 2 ^ 20 + 4096 ∧
    (w.world.shm.runNode (2 ^ 20 + 4096)).left = 2 ^ 20 + 8192 ∧
    (w.world.shm.runNode (2 ^ 20 + 4096)).right = 2 ^ 20 + 8192)) (by decide +kernel)
  obtain ⟨hroot, hleft, hright⟩ := of_decide_eq_true ht
  refine ⟨w, hw, hp, fun h => ?_⟩
  have hone : [Side.left] = [Side.right] := by
    refine h.once (2 ^ 20 + 8192) [.left] [.right] (by omega) ?_ ?_ <;> rw [hroot]
    · exact hleft
    · exact hright
  cases hone

/-- Until then no free has found links in a full run. -/
theorem exists_unlinked : ∃ w, heapMachine.Reach Unlinks w ∧ w.world.pids = [1] := by
  have hrun : (heapOrderMachine.run unlinksTest .start (staleOrders.take 6)).any (fun w =>
      decide (w.world.pids = [1])) = true := by
    decide +kernel
  obtain ⟨w, hw, ht⟩ := Machine.exists_reach (M := heapOrderMachine) _ unlinksTest_unlinks _ HeapWorld.start_ok hrun
  exact ⟨w, Order.heap_reach hw, of_decide_eq_true ht⟩

theorem run_pools_test : ∃ w s, heapMachine.Reach Unlinks w ∧ s = w.world.load (w.world.proc 1) servingShmat ∧
    RunPool w.world.shm 14 ∧ ((s.runPool 14).root ≠ 0 → RootRun s 14 (s.runPool 14).root) ∧
      ((s.runPool 14).root = 0 → ∀ size os s₁ c, getOrNewChunk s .small size os = .ok (s₁, some c) →
        ∃ s₂ r, newChunkRun s₁ c 14 = .ok (s₂, r) ∧ RootRun s₂ 14 r) := by
  obtain ⟨w, hw, hp⟩ := exists_unlinked
  have hmem : 1 ∈ w.world.pids := by
    rw [hp]
    exact List.mem_singleton.mpr rfl
  have hvisit : visit (w.world.load (w.world.proc 1) servingShmat) [] = .ok _ := rfl
  exact ⟨w, _, hw, rfl, run_pools hw hmem hvisit (by omega) (by omega)⟩

/-! ### The blocks -/

/-- `n` bytes at `pos`: in a slot of the run in a page in use of a small chunk that has a slot. -/
structure SmallPlace (s : Shm) (pos n i k p : Nat) : Prop where
  arena : i < 128 ∧ ((s.arenas i).type = .context ∨ (s.arenas i).type = .chunk)
  slot : k < 8 ∧ (i ≠ 0 ∨ k ≠ 0) ∧ (s.arenas i).chunks k = slotPos i k
  header : s.header (slotPos i k) = ⟨.small, slotPos i k⟩
  page : p ≠ 0 ∧ p < 256 ∧ bitmapGet (s.small (slotPos i k)).bitmap p = true
  run : (s.run (slotPos i k + p * 4096)).elemsize = n
  inside : slotPos i k + p * 4096 + 64 ≤ pos ∧ pos + n ≤ slotPos i k + (p + 1) * 4096

/-- Where the block of a request of any size is. -/
def InPlace (s : Shm) (live : List (Nat × Nat)) (pos size n : Nat) : Prop :=
  if size ≤ 1920 then size ≤ n ∧ ∃ i k p, SmallPlace s pos n i k p else Placed s live pos size n

section
variable {s : Shm} {ls lm : List Nat} {pool : Nat → List Nat} {live : List (Nat × Nat)}

theorem HeapInv.small_at (h : HeapInv s ls lm pool) {pos n : Nat} (hb : SmallBlock s ls pos n) :
    ∃ i k p, SmallPlace s pos n i k p := by
  obtain ⟨c, p, o, hin, hp, hp₀, -, h₁, h₂, -, hn⟩ := h.smallBlock hb
  obtain ⟨i, k, hi, hk, hne, hslot, rfl, ht⟩ := h.small_place hin.chunk
  obtain ⟨hlt, hbit⟩ := mem_pages.mp hp
  have hpos := hin.pos
  exact ⟨i, k, p, ⟨hi, ht⟩, ⟨hk, hne, hslot⟩, (h.small.chunk _ hin.chunk).header, ⟨hp₀, hlt, hbit⟩, hn.symm,
    by omega, by omega⟩

theorem BlocksLive.inPlace (h : HeapInv s ls lm pool) (hl : BlocksLive s ls lm live) {pos size : Nat}
    (hb : (pos, size) ∈ live) : ∃ n, Block s ls lm (kindOf size) pos n ∧ InPlace s live pos size n := by
  by_cases hs : size ≤ 1920
  · obtain ⟨-, n, hblock, hn⟩ := hl.block _ hb
    have hsmall : SmallBlock s ls pos n := by
      rw [show kindOf (pos, size).2 = .small from if_pos hs] at hblock
      exact hblock
    refine ⟨n, hblock, ?_⟩
    rw [InPlace, if_pos hs]
    exact ⟨hn.mpr (by show size ≤ _; omega), h.small_at hsmall⟩
  · obtain ⟨n, hblock, hplaced⟩ := hl.placed h (by omega) hb
    refine ⟨n, hblock, ?_⟩
    rwa [InPlace, if_neg hs]

end

/-- **The blocks**, in every run in which no block is freed in a full run with links: each live block
has its place, two of them have no byte in common, and none has one of the shared context, of a
chunk header or of a run header. -/
theorem live_blocks {w : HeapWorld} (h : heapMachine.Reach Unlinks w) (hp : w.world.pids ≠ []) :
    (w.live.map Prod.fst).Nodup ∧ ∃ capacity : Nat → Nat,
      (∀ pos size, (pos, size) ∈ w.live → InPlace w.world.shm w.live pos size (capacity pos)) ∧
      (∀ p q, IsLive w.live p → IsLive w.live q → p ≠ q →
        Disjoint (bytes p (capacity p)) (bytes q (capacity q))) ∧
      ∀ p, IsLive w.live p → Disjoint (bytes p (capacity p)) (bytes 0 (2 ^ 20)) ∧
        (∀ c, IsChunk w.world.shm c → Disjoint (bytes p (capacity p)) (bytes c 4096)) ∧
        ∀ r, IsRun w.world.shm r → Disjoint (bytes p (capacity p)) (bytes r 64) := by
  obtain ⟨ls, lm, pool, hok, hl, -⟩ := heapLive_reach h hp
  obtain ⟨capacity, hplace, hdisj, hother⟩ := hl.apart hok fun pos size hb => hl.inPlace hok.toHeapInv hb
  refine ⟨hl.nodup, capacity, hplace, hdisj, fun p hp => ?_⟩
  obtain ⟨hctx, hchunk, hrun⟩ := hother p hp
  exact ⟨hctx, hchunk, fun r hr => hrun r ((hok.isRun_iff r).mp hr)⟩

theorem live_blocks_test : ∃ w, heapMachine.Reach Unlinks w ∧ (w.live.map Prod.fst).Nodup ∧
    ∃ capacity : Nat → Nat,
      (∀ pos size, (pos, size) ∈ w.live → InPlace w.world.shm w.live pos size (capacity pos)) ∧
      (∀ p q, IsLive w.live p → IsLive w.live q → p ≠ q →
        Disjoint (bytes p (capacity p)) (bytes q (capacity q))) ∧
      ∀ p, IsLive w.live p → Disjoint (bytes p (capacity p)) (bytes 0 (2 ^ 20)) ∧
        (∀ c, IsChunk w.world.shm c → Disjoint (bytes p (capacity p)) (bytes c 4096)) ∧
        ∀ r, IsRun w.world.shm r → Disjoint (bytes p (capacity p)) (bytes r 64) := by
  obtain ⟨w, hw, hp⟩ := exists_unlinked
  exact ⟨w, hw, live_blocks hw (by rw [hp]; exact List.cons_ne_nil _ _)⟩

/-- The second run is emptied, and its page is given back; the first fills, and the second is the
root of the pool again. -/
theorem block_on_free_page : ∃ w, heapMachine.Reach (fun _ _ => True) w ∧ w.world.pids = [1] ∧
    (2 ^ 20 + 8192 + 64, 1920) ∈ w.live ∧ ∀ n i k p, ¬SmallPlace w.world.shm (2 ^ 20 + 8192 + 64) n i k p := by
  obtain ⟨w, hw, hp, ht⟩ := exists_orders (staleOrders ++ [.call 1 (.free (2 ^ 20 + 8192 + 64)) .keyFails,
    .call 1 (.malloc 1920) .keyFails, .call 1 (.malloc 1920) .keyFails]) (p := fun w =>
      decide ((2 ^ 20 + 8192 + 64, 1920) ∈ w.live ∧ bitmapGet (w.world.shm.small (2 ^ 20)).bitmap 2 = false))
    (by decide +kernel)
  obtain ⟨hlive, hclear⟩ := of_decide_eq_true ht
  refine ⟨w, hw, hp, hlive, fun n i k p h => ?_⟩
  obtain ⟨-, hlt, hbit⟩ := h.page
  obtain ⟨hlow, hhigh⟩ := h.inside
  have hslot := h.slot.1
  have hplace : slotPos i k = 2 ^ 20 ∧ p = 2 := by
    unfold slotPos at *
    omega
  rw [hplace.1, hplace.2, hclear] at hbit
  cases hbit

end ShmMalloc
