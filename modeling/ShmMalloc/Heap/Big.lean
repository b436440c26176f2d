import ShmMalloc.Heap.Runs
import ShmMalloc.Chunk.MediumLive

/-! Runs of requests for more than a small block.

They make no small chunk, and no free of theirs finds a run; so nothing is asked of
them. Which places are in use follows from the live blocks then: a medium chunk has a
block, and an arena for chunks has a chunk. -/
namespace ShmMalloc
open Library
open Rbtree (Holds)

/-- `n` bytes at `pos`: pages of a medium chunk that has a slot. -/
structure MediumPlace (s : Shm) (pos n i k p m : Nat) : Prop where
  arena : i < 128 ∧ ((s.arenas i).type = .context ∨ (s.arenas i).type = .chunk)
  slot : k < 8 ∧ (i ≠ 0 ∨ k ≠ 0) ∧ (s.arenas i).chunks k = slotPos i k
  header : s.header (slotPos i k) = ⟨.medium, slotPos i k⟩
  unit : UsedUnit (s.medium (slotPos i k)) p m
  pages : 1 ≤ p ∧ p + m ≤ 256
  place : pos = slotPos i k + p * 4096
  bytes : n = m * 4096

/-- `n` bytes at `pos`: a large arena, without a chunk and without another live block. -/
structure LargePlace (s : Shm) (live : List (Nat × Nat)) (pos n i : Nat) : Prop where
  arena : i < 128 ∧ (s.arenas i).type = .large
  place : pos = i * 2 ^ 32
  bytes : n = (s.arenas i).size
  chunks : ∀ k < 8, (s.arenas i).chunks k = 0
  alone : ∀ q, IsLive live q → pos2index q = i → q = pos

/-- Where the block of a request is. -/
def Placed (s : Shm) (live : List (Nat × Nat)) (pos size n : Nat) : Prop :=
  if size ≤ 2 ^ 20 - 4096 then size ≤ n ∧ ∃ i k p m, MediumPlace s pos n i k p m
  else ∃ i, LargePlace s live pos n i

section
variable {s : Shm} {ls lm : List Nat} {pool : Nat → List Nat} {live : List (Nat × Nat)}

theorem HeapInv.medium_at (h : HeapInv s ls lm pool) {pos n : Nat} (hb : MediumBlock s lm pos n) :
    ∃ i k p m, MediumPlace s pos n i k p m := by
  obtain ⟨c, p, m, hin, hu, h₁, h₂, -, hn⟩ := h.mediumBlock hb
  obtain ⟨i, k, hi, hk, hne, hslot, rfl, ht⟩ := h.medium_place hin.chunk
  obtain ⟨l, hl⟩ := h.medium _ hin.chunk
  exact ⟨i, k, p, m, ⟨hi, ht⟩, ⟨hk, hne, hslot⟩, hl.header, hu, ⟨h₁, h₂⟩, hin.pos, hn⟩

/-- Positions in an arena that is large are one. -/
theorem HeapInv.large_alone (h : HeapInv s ls lm pool) {k : BlockKind} {pos n i : Nat} (hi : (s.arenas i).type = .large)
    (hb : Block s ls lm k pos n) (hp : pos2index pos = i) : pos = i * 2 ^ 32 := by
  by_cases hk : k = .large
  · subst hk
    obtain ⟨j, -, rfl, -⟩ := hb
    rw [← hp, pos2index_eq]
    omega
  · exact absurd (hp ▸ hi) (forChunks_ne (h.type_at hk hb)).2

theorem HeapInv.large_place (h : HeapInv s ls lm pool) (hl : BlocksLive s ls lm live) {pos n : Nat}
    (hb : LargeBlock s pos n) : ∃ i, LargePlace s live pos n i := by
  obtain ⟨i, ht, rfl, hn⟩ := hb
  refine ⟨i, ⟨?_, ht⟩, rfl, hn, fun k hk => ?_, fun q hq hqi => ?_⟩
  · by_contra hge
    rw [h.arenas.bound i (by omega)] at ht
    cases ht
  · by_contra hc
    have hmem : k ∈ slotsUsed (s.arenas i) := mem_slotsUsed.mpr ⟨hk, hc⟩
    rw [(h.arena i).none (.inr ht)] at hmem
    cases hmem
  · obtain ⟨size, x, -, -, hb, -⟩ := hl.at_live hq
    exact h.large_alone ht hb hqi

/-- Two places of a position have one size. -/
theorem BlocksLive.placed (h : HeapInv s ls lm pool) (hl : BlocksLive s ls lm live) {pos size : Nat} (hbig : 1920 < size)
    (hb : (pos, size) ∈ live) : ∃ n, Block s ls lm (kindOf size) pos n ∧ Placed s live pos size n := by
  obtain ⟨-, n, hblock, hn⟩ := hl.block _ hb
  refine ⟨n, hblock, ?_⟩
  unfold Placed
  unfold kindOf at hblock
  rw [if_neg (by show ¬size ≤ 1920; omega)] at hblock
  by_cases hm : size ≤ 2 ^ 20 - 4096
  · rw [if_pos hm] at hblock ⊢
    exact ⟨hn.mpr (by show size ≤ _; omega), h.medium_at hblock⟩
  · rw [if_neg hm] at hblock ⊢
    exact h.large_place hl hblock

end

/-- **In every run of requests for more than a small block and of frees**, each live block has its
place, pages of a registered medium chunk or an arena of its own; two live blocks have no byte in
common, and none has one of a chunk header or of the shared context. -/
theorem big_blocks {w : HeapWorld} (h : heapMachine.Reach OnlyBig w) (hp : w.world.pids ≠ []) :
    (w.live.map Prod.fst).Nodup ∧ ∃ capacity : Nat → Nat,
      (∀ pos size, (pos, size) ∈ w.live → Placed w.world.shm w.live pos size (capacity pos)) ∧
      (∀ p q, IsLive w.live p → IsLive w.live q → p ≠ q →
        Disjoint (bytes p (capacity p)) (bytes q (capacity q))) ∧
      ∀ p, IsLive w.live p → Disjoint (bytes p (capacity p)) (bytes 0 (2 ^ 20)) ∧
        ∀ c, IsChunk w.world.shm c → Disjoint (bytes p (capacity p)) (bytes c 4096) := by
  obtain ⟨ls, lm, pool, hok, hl, hbig⟩ := heapLive_big h hp
  obtain ⟨capacity, hplaced, hdisj, hother⟩ := hl.apart hok fun pos size hb =>
    hl.placed hok.toHeapInv ((hbig trivial).sizes _ hb) hb
  exact ⟨hl.nodup, capacity, hplaced, hdisj, fun p hp => ⟨(hother p hp).1, (hother p hp).2.1⟩⟩

/-! One process has a medium block and two large ones, of which it frees the first. -/

def bigOrders : List Order :=
  [.init 1 10, .call 1 (.malloc 4096) .keyFails, .call 1 (.malloc (2 ^ 20)) (.created 11),
    .call 1 (.malloc (2 ^ 20)) (.created 12), .call 1 (.free (2 ^ 32)) .keyFails]

instance : (c : Call) → Decidable c.Big
  | .malloc size => inferInstanceAs (Decidable (1920 < size))
  | .free _ => inferInstanceAs (Decidable True)
  | .realloc _ size => inferInstanceAs (Decidable (1920 < size))
  | .checkSize _ => inferInstanceAs (Decidable True)
  | .getAddr _ => inferInstanceAs (Decidable True)

def bigTest (_ : HeapWorld) : Order → Bool
  | .call _ c _ => decide c.Big
  | _ => true

theorem bigTest_big (w : HeapWorld) : (o : Order) → bigTest w o = true → OnlyBig w o.action
  | .init _ _, _ => trivial
  | .exit _, _ => trivial
  | .call _ c _, h => of_decide_eq_true (p := c.Big) h

theorem exists_big : ∃ w, heapMachine.Reach OnlyBig w ∧ w.world.pids = [1] ∧
    w.live = [(2 ^ 33, 2 ^ 20), (2 ^ 20 + 4096, 4096)] := by
  have hrun : (heapOrderMachine.run bigTest .start bigOrders).any (fun w =>
      decide (w.world.pids = [1] ∧ w.live = [(2 ^ 33, 2 ^ 20), (2 ^ 20 + 4096, 4096)])) = true := by
    decide +kernel
  obtain ⟨w, hw, ht⟩ := Machine.exists_reach (M := heapOrderMachine) _ bigTest_big _
    HeapWorld.start_ok hrun
  exact ⟨w, Order.heap_reach hw, of_decide_eq_true ht⟩

theorem big_blocks_test : ∃ w, heapMachine.Reach OnlyBig w ∧ (w.live.map Prod.fst).Nodup ∧
    ∃ capacity : Nat → Nat,
      (∀ pos size, (pos, size) ∈ w.live → Placed w.world.shm w.live pos size (capacity pos)) ∧
      (∀ p q, IsLive w.live p → IsLive w.live q → p ≠ q →
        Disjoint (bytes p (capacity p)) (bytes q (capacity q))) ∧
      ∀ p, IsLive w.live p → Disjoint (bytes p (capacity p)) (bytes 0 (2 ^ 20)) ∧
        ∀ c, IsChunk w.world.shm c → Disjoint (bytes p (capacity p)) (bytes c 4096) := by
  obtain ⟨w, hw, hp, -⟩ := exists_big
  exact ⟨w, hw, big_blocks hw (by rw [hp]; exact List.cons_ne_nil _ _)⟩

/-! ### The pool of medium chunks -/

/-- A slot of an arena for chunks has the chunk. -/
def Registered (s : Shm) (c : Nat) : Prop := ∃ i k, i < 128 ∧ k < 8 ∧ (i ≠ 0 ∨ k ≠ 0) ∧
  ((s.arenas i).type = .context ∨ (s.arenas i).type = .chunk) ∧ (s.arenas i).chunks k = c ∧ c ≠ 0

/-- The pool has the chunks that are registered, and none is kept without need. -/
structure Registry (s : Shm) : Prop where
  pool : ∃ lm, Holds chunkMacros (s.pool .medium) lm ∧ ∀ c, c ∈ lm ↔ Registered s c
  used : ∀ i, (s.arenas i).used = (slotsUsed (s.arenas i)).card
  chunk : ∀ c, Registered s c → (s.medium c).freeSize ≠ 255 ∧ ∃ p n, UsedUnit (s.medium c) p n
  arena : ∀ i, (s.arenas i).type = .chunk → (s.arenas i).used ≠ 0

/-- There are no chunks and no arenas but that of the context. -/
structure Emptied (s : Shm) : Prop where
  root : (s.pool .medium).root = 0
  size : (s.pool .medium).size = 0
  arenas : ∀ i, i ≠ 0 → (s.arenas i).type = .empty
  used : (s.arenas 0).used = 1

section
variable {s : Shm} {ls lm : List Nat} {pool : Nat → List Nat} {live : List (Nat × Nat)}

theorem ArenasHold.registered_iff (h : ArenasHold s ls lm) (c : Nat) : Registered s c ↔ IsChunk s c := by
  constructor
  · rintro ⟨i, k, -, hk, hne, -, rfl, hc⟩
    have hused : k ∈ slotsUsed (s.arenas i) := mem_slotsUsed.mpr ⟨hk, hc⟩
    refine ⟨i, k, hused, hne, ((h.arena i).slot k hused).resolve_left ?_⟩
    rintro ⟨rfl, rfl⟩
    exact hne.elim (absurd rfl) (absurd rfl)
  · intro hc
    obtain ⟨i, k, hi, hk, hne, hslot, hpos, ht⟩ := h.chunk_place hc
    exact ⟨i, k, hi, hk, hne, ht, hslot, hpos ▸ slotPos_ne hne⟩

/-- A medium chunk that is not entirely free has a block. -/
theorem HeapOk.used_unit (h : HeapOk s ls lm pool) {c : Nat} (hc : c ∈ lm) :
    ∃ p n, UsedUnit (s.medium c) p n := by
  obtain ⟨l, hl⟩ := h.medium c hc
  by_contra hnone
  exact h.used c hc (hl.layout.full_iff.mpr fun p n hu => hnone ⟨p, n, hu⟩)

theorem HeapOk.registry (h : HeapOk s [] lm pool) : Registry s := by
  have hmem : ∀ c, c ∈ lm ↔ Registered s c := fun c => by
    rw [h.registered_iff, h.registered]
    exact ⟨.inr, fun hc => hc.resolve_left List.not_mem_nil⟩
  refine ⟨⟨lm, h.mediums.holds, hmem⟩, fun i => (h.arena i).used, fun c hc => ?_, fun i ht => ?_⟩
  · have hc : c ∈ lm := (hmem c).mpr hc
    exact ⟨h.used c hc, h.used_unit hc⟩
  · rw [(h.arena i).used]
    exact Finset.card_ne_zero.mpr (Finset.nonempty_iff_ne_empty.mpr ((h.arena i).some ht))

/-- Without a block there is no chunk and no arena. -/
theorem HeapOk.emptied (h : HeapOk s [] lm pool) (hb : ∀ k pos n, ¬Block s [] lm k pos n) : Emptied s := by
  have hlm : lm = [] := List.eq_nil_iff_forall_not_mem.mpr fun c hc => by
    obtain ⟨p, n, hu⟩ := h.used_unit hc
    exact hb .medium _ _ ⟨c, hc, p, n, hu, rfl, rfl⟩
  subst hlm
  have hnone : ∀ i k, k ∈ slotsUsed (s.arenas i) → i = 0 ∧ k = 0 := fun i k hk => by
    by_contra hne
    have hchunk : IsChunk s (slotPos i k) := ⟨i, k, hk, by omega, rfl⟩
    exact ((h.registered _).mp hchunk).elim List.not_mem_nil List.not_mem_nil
  obtain ⟨t, m, hrep, -, hsize, hl⟩ := h.mediums.holds
  have hroot := hrep.root
  cases t with
  | node => exact absurd hl (List.append_ne_nil_of_right_ne_nil _ (List.cons_ne_nil _ _))
  | nil =>
    refine ⟨hroot, hsize, fun i hi => ?_, ?_⟩
    · cases ht : (s.arenas i).type with
      | empty => rfl
      | context => exact absurd ((h.arenas.context i).mp ht) hi
      | chunk =>
        obtain ⟨k, hk⟩ := Finset.nonempty_iff_ne_empty.mpr ((h.arena i).some ht)
        exact absurd (hnone i k hk).1 hi
      | large => exact absurd ⟨i, ht, rfl, rfl⟩ (hb .large _ _)
    · have hslots : slotsUsed (s.arenas 0) = {0} := by
        ext k
        rw [Finset.mem_singleton]
        refine ⟨fun hk => (hnone 0 k hk).2, ?_⟩
        rintro rfl
        exact mem_slotsUsed.mpr ⟨by omega, by rw [(h.arena 0).context rfl]; exact one_ne_zero⟩
      rw [(h.arena 0).used, hslots, Finset.card_singleton]

end

/-- **The pool, the slots and the counters** agree in every run of requests for more than a small
block and of frees, and nothing is left of either when all blocks are freed. -/
theorem big_registry {w : HeapWorld} (h : heapMachine.Reach OnlyBig w) (hp : w.world.pids ≠ []) :
    Registry w.world.shm ∧ (w.live = [] → Emptied w.world.shm) := by
  obtain ⟨ls, lm, pool, hok, hl, hbig⟩ := heapLive_big h hp
  obtain rfl := (hbig trivial).chunks
  refine ⟨hok.registry, fun hnil => hok.emptied fun k pos n hb => ?_⟩
  have hlive := hl.held k pos n hb
  rw [hnil] at hlive
  exact absurd hlive List.not_mem_nil

/-- All is freed, in another order. -/
theorem big_registry_test : ∃ w, heapMachine.Reach OnlyBig w ∧ Registry w.world.shm ∧
    Emptied w.world.shm := by
  have hrun : (heapOrderMachine.run bigTest .start (bigOrders ++ [.call 1 (.free (2 ^ 33)) .keyFails,
      .call 1 (.free (2 ^ 20 + 4096)) .keyFails])).any (fun w =>
        decide (w.world.pids = [1] ∧ w.live = [])) = true := by
    decide +kernel
  obtain ⟨w, hw, ht⟩ := Machine.exists_reach (M := heapOrderMachine) _ bigTest_big _
    HeapWorld.start_ok hrun
  obtain ⟨hp, hlive⟩ := of_decide_eq_true ht
  have hreach := Order.heap_reach hw
  obtain ⟨hreg, hempty⟩ := big_registry hreach (by rw [hp]; exact List.cons_ne_nil _ _)
  exact ⟨w, hreach, hreg, hempty hlive⟩

/-! ### The search for free pages -/

/-- `rbtree_lower` finds a free unit that has the pages of a request. -/
def LowerFits (d : ChunkMediumDetial) (size : Nat) : Prop := ∃ n m,
  Rbtree.lower mediumMacros d.tree ⟨mediumPages size, 0⟩ = .ok (some n) ∧ FreeUnit d n m ∧
    mediumPages size ≤ (d.tree.heap n).v.size ∧ (d.tree.heap n).v.index = (d.tree.heap n).s

section
variable {s s' : Shm} {ls lm : List Nat} {pool : Nat → List Nat}

/-- What `rbtree_lower` finds is the first unit, whatever the request is. -/
theorem MediumChunk.lowerFits {c : Nat} {l : List Nat} (m : MediumChunk s c l) (size : Nat) :
    LowerFits (s.medium c) size ↔ ∃ n, Rbtree.min mediumMacros (s.medium c).tree = .ok (some n) ∧
      mediumPages size ≤ unitSize (s.medium c) n := by
  have hmin : Rbtree.min mediumMacros (s.medium c).tree = .ok l.head? := Rbtree.endOf_holds m.layout.holds .left
  unfold LowerFits
  rw [lower_medium m.layout, hmin]
  constructor
  · rintro ⟨n, k, hn, -, hfit, -⟩
    exact ⟨n, hn, hfit⟩
  · rintro ⟨n, hn, hfit⟩
    have hmem : n ∈ l := List.mem_of_head? (Except.ok.inj hn)
    exact ⟨n, _, hn, (m.layout.freeUnit_iff n _).mpr ⟨hmem, rfl⟩, hfit,
      (m.layout.index n hmem).trans (m.layout.own hmem).symm⟩

/-- In the chunk that a request gets, the first unit fits if it does in the chunk that is there. -/
theorem HeapOk.request (h : HeapOk s ls lm pool) {size : Nat} (h₂ : size ≤ 2 ^ 20 - 4096) {os : Os} {c : Nat}
    (hget : getOrNewChunk s .medium size os = .ok (s', some c)) : ∃ lm', HeapInv s' ls lm' pool ∧ c ∈ lm' ∧
      (LowerFits (s'.medium c) size ↔ FirstFits s size) := by
  obtain ⟨c', hc, hav, rfl, hr⟩ | ⟨hav, ⟨hr, -⟩ | ⟨c', lm', hr, h', -, hc, -, m, hsize⟩⟩ := h.get_medium h₂ hget
  · obtain rfl := Option.some.inj hr
    obtain ⟨l, m⟩ := h.medium c hc
    refine ⟨lm, h.toHeapInv, hc, (m.lowerFits size).trans ⟨fun hfit c' hc' => ?_, fun hfits => hfits c hav⟩⟩
    obtain rfl : c = c' := Option.some.inj (Except.ok.inj (hav.symm.trans hc'))
    exact hfit
  · cases hr
  · obtain rfl := Option.some.inj hr
    have hpages : mediumPages size ≤ 255 := by
      unfold mediumPages alignSize
      omega
    refine ⟨lm', h', hc, iff_of_true ((m.lowerFits size).mpr ⟨1, ?_, by omega⟩) fun q hq => ?_⟩
    · exact Rbtree.endOf_holds m.layout.holds .left
    · rw [hav] at hq
      cases hq

end

/-- **The search for free pages**, in every run of requests for more than a small block and of frees:
`malloc_chunk_medium` finds a unit, and completes, if the first unit of the chunk that is chosen
fits, and only then. -/
theorem medium_requests {w : HeapWorld} (h : heapMachine.Reach OnlyBig w) {pid : Nat} (hp : pid ∈ w.world.pids)
    {visits : List Nat} {shmat : Nat → Nat → List Attach → Option Nat} {s s' : Shm}
    (hs : visit (w.world.load (w.world.proc pid) shmat) visits = .ok s) {size : Nat} (h₁ : 1920 < size)
    (h₂ : size ≤ 2 ^ 20 - 4096) {os : Os} {c : Nat} (hget : getOrNewChunk s .medium size os = .ok (s', some c)) :
    (LowerFits (s'.medium c) size ↔ FirstFits w.world.shm size) ∧
      ((∃ s'' pos, mallocChunkMedium s' c size = .ok (s'', pos)) ↔ FirstFits w.world.shm size) := by
  obtain ⟨ls, lm, pool, hok, -, -⟩ := heapLive_big h (List.ne_nil_of_mem hp)
  have e := visit_load hs
  obtain ⟨lm', h', hc, hfits⟩ := (hok.same e).request h₂ hget
  obtain ⟨l, m⟩ := h'.medium c hc
  rw [FirstFits.same e] at hfits
  refine ⟨hfits, (h'.malloc_chunk_total hc (mediumPages_le (by omega) h₂).2.1).trans ?_⟩
  rw [← m.lowerFits, hfits]

/-! Two blocks of a page, of which the first is given back; then two pages are asked for. -/

def pageOrders : List Order :=
  [.init 1 10, .call 1 (.malloc 4096) .keyFails, .call 1 (.malloc 4096) .keyFails,
    .call 1 (.free (2 ^ 20 + 4096)) .keyFails]

/-- Process 1 asks for two pages, and gets the chunk at `2^20`. -/
structure Asked (w : HeapWorld) (s : Shm) : Prop where
  reach : heapMachine.Reach OnlyBig w
  pid : 1 ∈ w.world.pids
  load : s = w.world.load (w.world.proc 1) servingShmat
  chunk : getAvaliableChunk s .medium 8192 = .ok (some (2 ^ 20))

theorem exists_asked (orders : List Order) {p : Shm → Bool}
    (hrun : (heapOrderMachine.run bigTest .start orders).any (fun w =>
      decide (1 ∈ w.world.pids) && (decide (getAvaliableChunk (w.world.load (w.world.proc 1) servingShmat) .medium 8192 =
        .ok (some (2 ^ 20))) && p (w.world.load (w.world.proc 1) servingShmat))) = true) :
    ∃ w s, Asked w s ∧ p s = true := by
  obtain ⟨w, hw, ht⟩ := Machine.exists_reach (M := heapOrderMachine) _ bigTest_big _ HeapWorld.start_ok hrun
  obtain ⟨hp, ht⟩ := Bool.and_eq_true_iff.mp ht
  obtain ⟨hc, ht⟩ := Bool.and_eq_true_iff.mp ht
  exact ⟨w, _, ⟨Order.heap_reach hw, of_decide_eq_true hp, rfl, of_decide_eq_true hc⟩, ht⟩

theorem Asked.get {w : HeapWorld} {s : Shm} (h : Asked w s) (os : Os) :
    visit (w.world.load (w.world.proc 1) servingShmat) [] = .ok s ∧
      getOrNewChunk s .medium 8192 os = .ok (s, some (2 ^ 20)) := by
  refine ⟨h.load ▸ rfl, ?_⟩
  rw [getOrNewChunk_eq, h.chunk]
  rfl

/-- `rbtree_lower` finds a unit of one page, and the call is aborted. -/
theorem medium_request_fails : ∃ w s, heapMachine.Reach OnlyBig w ∧ 1 ∈ w.world.pids ∧
    s = w.world.load (w.world.proc 1) servingShmat ∧
    getOrNewChunk s .medium 8192 .keyFails = .ok (s, some (2 ^ 20)) ∧ ¬LowerFits (s.medium (2 ^ 20)) 8192 ∧
    shmMalloc s 8192 .keyFails = .error .assertion := by
  obtain ⟨w, s, h, ht⟩ : ∃ w s, Asked w s ∧ (decide (Rbtree.lower mediumMacros (s.medium (2 ^ 20)).tree ⟨2, 0⟩ =
      .ok (some 1) ∧ ((s.medium (2 ^ 20)).tree.heap 1).v.size = 1) &&
      match mallocChunkMedium s (2 ^ 20) 8192 with
      | .ok _ => false
      | .error e => decide (e = .assertion)) = true :=
    exists_asked pageOrders (by decide +kernel)
  obtain ⟨hlow, ht⟩ := Bool.and_eq_true_iff.mp ht
  obtain ⟨hlow, hsize⟩ := of_decide_eq_true hlow
  have hget := (h.get .keyFails).2
  refine ⟨w, s, h.reach, h.pid, h.load, hget, ?_, ?_⟩
  · rintro ⟨n, m, hn, -, hfit, -⟩
    obtain rfl : 1 = n := Option.some.inj (Except.ok.inj (hlow.symm.trans hn))
    rw [hsize] at hfit
    exact absurd hfit (by decide)
  · show mallocArena s 8192 .keyFails = _
    rw [mallocArena_medium_eq (by omega) (by omega), hget, Exec.ok_bind]
    show mallocChunkMedium s (2 ^ 20) 8192 = _
    cases hm : mallocChunkMedium s (2 ^ 20) 8192 with
    | ok r =>
      rw [hm] at ht
      cases ht
    | error e =>
      rw [hm] at ht
      rw [of_decide_eq_true ht]

/-- Before the page is given back the first unit has the rest of the chunk. -/
theorem medium_requests_test : ∃ w s, heapMachine.Reach OnlyBig w ∧ 1 ∈ w.world.pids ∧
    s = w.world.load (w.world.proc 1) servingShmat ∧
    (LowerFits (s.medium (2 ^ 20)) 8192 ↔ FirstFits w.world.shm 8192) ∧
      ((∃ s' pos, mallocChunkMedium s (2 ^ 20) 8192 = .ok (s', pos)) ↔ FirstFits w.world.shm 8192) := by
  obtain ⟨w, s, h, -⟩ : ∃ w s, Asked w s ∧ true = true :=
    exists_asked (pageOrders.take 3) (p := fun _ => true) (by decide +kernel)
  obtain ⟨hv, hget⟩ := h.get .keyFails
  exact ⟨w, s, h.reach, h.pid, h.load, medium_requests h.reach h.pid hv (by omega) (by omega) hget⟩

end ShmMalloc
