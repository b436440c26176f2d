import ShmMalloc.Heap.Same
import ShmMalloc.Process.Lookup

/-! Requests that are refused.

`shm_malloc` and `shm_realloc` return `SHM_NULL` when no chunk and no arena is to be had.
Only lookups and `new_arena` have come before that, and what comes after returns a
position in a chunk or in a run, which is never null. -/
namespace ShmMalloc
open Library

/-- A chunk in use is not at the null position, and a run with slots is not either. -/
structure PosOk (s : Shm) : Prop where
  chunk : ∀ c, (s.header c).type ≠ .empty → (s.header c).pos ≠ 0
  run : ∀ r, (s.run r).total ≠ 0 → (s.run r).pos ≠ 0

namespace PosOk
variable {s s' : Shm} {os : Os}

theorem of_eq (h : PosOk s) (hh : s'.header = s.header) (hr : s'.run = s.run) : PosOk s' :=
  ⟨hh ▸ h.chunk, hr ▸ h.run⟩

theorem same (h : PosOk s) (e : SameHeap s s') : PosOk s' :=
  h.of_eq (funext fun c => e.objects.header c trivial) (funext fun r => e.objects.run r trivial)

theorem setRun (h : PosOk s) (r : Nat) {d : RunHeader} (hd : d.total ≠ 0 → d.pos ≠ 0) :
    PosOk (s.setRun r d) where
  chunk := h.chunk
  run q hq := by
    by_cases hqr : q = r
    · rw [hqr, setRun_run] at hq ⊢
      exact hd hq
    · rw [setRun_ne _ _ hqr] at hq ⊢
      exact h.run q hq

theorem setHeader (h : PosOk s) (c : Nat) {d : ChunkHeader} (hd : d.type ≠ .empty → d.pos ≠ 0) :
    PosOk (s.setHeader c d) where
  chunk q hq := by
    have hset : (s.setHeader c d).header q = if q = c then d else s.header q := rfl
    rw [hset] at hq ⊢
    split at hq
    · next hqc =>
      rw [if_pos hqc]
      exact hd hq
    · next hqc =>
      rw [if_neg hqc]
      exact h.chunk q hq
  run := h.run

theorem writes (h : PosOk s) (hw : Writes s s') : PosOk s' := by
  induction hw with
  | refl => exact h
  | look _ e ih => exact ih.same (getOrUpdateArenaAddr_same e)
  | pool _ type t ih =>
    refine ih.of_eq (setPool_header ..) ?_
    unfold Shm.setPool
    split <;> rfl
  | slots _ r used free ih => exact ih.setRun r fun hd => ih.run r hd
  | @start s₁ _ c idx type hty ih =>
    obtain ⟨link, data, hs⟩ := startRun_fields s₁ c idx type
    have hpos := ih.chunk c (by rw [hty]; decide)
    have hclear : PosOk (clearPage s₁ (c + idx * 4096)) := by
      refine ⟨ih.chunk, fun r hr => ?_⟩
      have hset : (clearPage s₁ (c + idx * 4096)).run r =
        if r = c + idx * 4096 then zeroRun else s₁.run r := rfl
      rw [hset] at hr ⊢
      split at hr
      · exact absurd rfl hr
      · next hne =>
        rw [if_neg hne]
        exact ih.run r hr
    rw [hs]
    refine (hclear.setRun (c + idx * 4096) fun _ => ?_).of_eq rfl rfl
    show (s₁.header c).pos + idx * 4096 ≠ 0
    omega
  | @header s₁ _ c type hc ih =>
    have hclear : PosOk (clearHeader s₁ c) := by
      refine ⟨fun q hq => ?_, ih.run⟩
      have hset : (clearHeader s₁ c).header q = if q = c then ⟨.empty, 0⟩ else s₁.header q := rfl
      rw [hset] at hq ⊢
      split at hq
      · exact absurd rfl hq
      · next hne =>
        rw [if_neg hne]
        exact ih.chunk q hq
    exact (hclear.setHeader c (d := ⟨type, c⟩) fun _ => hc).of_eq rfl rfl
  | leave _ c ih => exact ih.setHeader c fun hd => absurd rfl hd
  | _ =>
    rename_i ih
    exact ih.of_eq rfl rfl

theorem newArena (h : PosOk s) (hn : NewArena os s s') : PosOk s' := by
  cases hn with
  | refused => exact h
  | segment k _ _ => exact h.of_eq rfl rfl
  | leaked _ _ _ => exact h.of_eq rfl rfl
  | @entered index shmid addr size type _ _ _ _ _ =>
    refine ⟨fun c hc => ?_, fun r hr => ?_⟩
    · by_cases hi : pos2index c = index
      · exact absurd (congrArg ChunkHeader.type (if_pos hi)) hc
      · have hset : (enterArena (attachNew s index shmid addr) type size index
          (s.sys.shmget index shmid).2 addr).header c = s.header c := if_neg hi
        rw [hset] at hc ⊢
        exact h.chunk c hc
    · by_cases hi : pos2index r = index
      · exact absurd (congrArg RunHeader.total (if_pos hi)) hr
      · have hset : (enterArena (attachNew s index shmid addr) type size index
          (s.sys.shmget index shmid).2 addr).run r = s.run r := if_neg hi
        rw [hset] at hr ⊢
        exact h.run r hr

theorem works (h : PosOk s) (hw : Works os s s') : PosOk s' := by
  obtain ⟨s₁, s₂, hw₁, hn, hw₂⟩ := hw
  have h₁ := h.writes hw₁
  have h₂ : PosOk s₂ := by
    rcases hn with rfl | hn
    · exact h₁
    · exact h₁.newArena hn.newArena
  exact h₂.writes hw₂

theorem does (h : PosOk s) (hd : Does os s s') : PosOk s' := by
  obtain ⟨u, hw, hu⟩ := hd
  have hu' := h.works hw
  rcases hu with rfl | ⟨i, -, -, -, hdel⟩
  · exact hu'
  · have hdelete : ∀ {j}, deleteArena u j = .ok s' → PosOk s' := by
      intro j hj
      unfold deleteArena at hj
      split at hj
      · cases hj
      · obtain rfl := Except.ok.inj hj
        exact hu'.of_eq rfl rfl
    exact hdel.elim hdelete hdelete

end PosOk

/-! ### What is refused -/

section
variable {s s' : Shm} {os : Os}

theorem newArena_refused {type : ArenaType} {size : Nat} (h : newArena s type size os = .ok (s', none)) :
    SameHeap s s' := by
  have hmap : ∀ i m, SameHeap s (mmapNewArena s i m).1 := fun i m => .write s _ _
  obtain ⟨-, ⟨-, rfl, -⟩ | ⟨index, -, hcase⟩⟩ := newArena_cases h
  · exact .refl _
  · rcases hcase with ⟨-, rfl, -⟩ | ⟨shmid, -, rfl, -⟩ | ⟨shmid, -, -, rfl, -⟩ | ⟨_, _, -, -, -, hr⟩
    · exact .refl _
    · exact hmap _ _
    · exact hmap _ _
    · cases hr

/-- The scan of the arenas writes nothing when it finds no place. -/
theorem findArenaChunk_refused {n i e e' : Nat} (h : findArenaChunk s n i e = (s', 0, e')) : s' = s := by
  induction n generalizing i e with
  | zero => exact (congrArg Prod.fst h).symm
  | succ n ih =>
    rw [findArenaChunk] at h
    split at h
    · next hctx =>
      have hctx : (s.arenas i).type = .context := hctx.elim id id
      have hfirst : firstSlot (s.arenas i) = 1 := if_pos hctx
      by_cases hslot : ∃ k, firstSlot (s.arenas i) ≤ k ∧ k < 8 ∧ (s.arenas i).chunks k = 0
      · obtain ⟨k, hk, hk₈, -, hnew⟩ := newArenaChunk_slot hslot
        have hpos : index2pos (s.arenas i).index (k * 2 ^ 20) ≠ 0 := by
          rw [index2pos_slot hk₈]
          omega
        rw [hnew] at h
        dsimp only at h
        rw [if_pos hpos] at h
        exact absurd (congrArg (fun x => x.2.1) h) hpos
      · rw [newArenaChunk_full fun k hk hk₈ hz => hslot ⟨k, hk, hk₈, hz⟩] at h
        exact ih h
    · split at h
      · exact ih h
      · exact ih h

theorem newChunk_refused {type : ChunkType} (h : newChunk s type os = .ok (s', none)) : SameHeap s s' := by
  have hstart : ∀ {u : Shm} {pos : Nat}, startChunk u pos type ≠ .ok (s', none) := by
    intro u pos hs
    obtain ⟨s₁, -, hs⟩ := Exec.bind_ok hs
    obtain ⟨s₂, -, hs⟩ := Exec.bind_ok hs
    cases hs
  rcases hfind : findArenaChunk s 128 0 0 with ⟨s₁, pos, e⟩
  by_cases hpos : pos = 0
  · subst hpos
    obtain rfl := findArenaChunk_refused hfind
    by_cases he : e = 0
    · subst he
      rw [newChunk_none hfind] at h
      obtain ⟨rfl, -⟩ := Prod.mk.inj (Except.ok.inj h)
      exact .refl _
    · rw [newChunk_create hfind he] at h
      obtain ⟨⟨s₂, o⟩, hnew, h⟩ := Exec.bind_ok h
      cases o with
      | none =>
        obtain ⟨rfl, -⟩ := Prod.mk.inj (Except.ok.inj h)
        exact newArena_refused hnew
      | some index =>
        obtain ⟨-, -, h⟩ := Exec.bind_ok h
        exact absurd h hstart
  · rw [newChunk_found hfind hpos] at h
    exact absurd h hstart

theorem getOrNewChunk_refused {type : ChunkType} {size : Nat}
    (h : getOrNewChunk s type size os = .ok (s', none)) : SameHeap s s' := by
  obtain ⟨o, -, h⟩ := Exec.bind_ok h
  cases o with
  | some c => cases h
  | none => exact newChunk_refused h

theorem tryRunPool_same {runidx : Nat} {o : Option Nat} (h : tryRunPool s runidx = .ok (s', o)) :
    SameHeap s s' := by
  unfold tryRunPool at h
  dsimp only at h
  split at h
  · obtain ⟨rfl, -⟩ := Prod.mk.inj (Except.ok.inj h)
    exact .refl _
  · obtain ⟨⟨s₁, addr⟩, hlook, h⟩ := Exec.bind_ok h
    obtain ⟨-, -, h⟩ := Exec.bind_ok h
    obtain ⟨rfl, -⟩ := Prod.mk.inj (Except.ok.inj h)
    exact getOrUpdateArenaAddr_same hlook

/-! ### What is not null -/

theorem mallocChunkRun_pos (h : PosOk s) {run pos : Nat} (hrun : mallocChunkRun s run = .ok (s', pos)) :
    pos ≠ 0 := by
  rw [mallocChunkRun_eq] at hrun
  obtain ⟨⟨s₁, offset⟩, hm, hrun⟩ := Exec.bind_ok hrun
  obtain ⟨-, -, hm⟩ := Exec.bind_ok hm
  obtain ⟨u, hlt, hm⟩ := Exec.bind_ok hm
  obtain ⟨rfl, rfl⟩ := Prod.mk.inj (Except.ok.inj hm)
  have hlt : (s.run run).used < (s.run run).total := of_decide_eq_true (require_ok hlt)
  have hpos := h.run run (by omega)
  have hret : pos = (s.run run).pos + (s.run run).free := by
    split at hrun
    · obtain ⟨s₂, -, hrun⟩ := Exec.bind_ok hrun
      obtain ⟨-, rfl⟩ := Prod.mk.inj (Except.ok.inj hrun)
      rw [setRun_run]
    · obtain ⟨-, rfl⟩ := Prod.mk.inj (Except.ok.inj hrun)
      rw [setRun_run]
  omega

theorem mallocChunkMedium_pos (h : PosOk s) {c len pos : Nat}
    (hrun : mallocChunkMedium s c len = .ok (s', pos)) : pos ≠ 0 := by
  unfold mallocChunkMedium at hrun
  obtain ⟨u, hty, hrun⟩ := Exec.bind_ok hrun
  obtain ⟨o, -, hrun⟩ := Exec.bind_ok hrun
  obtain ⟨n, -, hrun⟩ := Exec.bind_ok hrun
  obtain ⟨-, -, hrun⟩ := Exec.bind_ok hrun
  obtain ⟨d, -, hrun⟩ := Exec.bind_ok hrun
  obtain ⟨t, -, hrun⟩ := Exec.bind_ok hrun
  have hty : (s.header c).type = .medium := of_decide_eq_true (require_ok hty)
  have hpos := h.chunk c (by rw [hty]; decide)
  dsimp only at hrun
  split at hrun
  · obtain ⟨s₁, -, hrun⟩ := Exec.bind_ok hrun
    obtain ⟨-, rfl⟩ := Prod.mk.inj (Except.ok.inj hrun)
    omega
  · obtain ⟨-, rfl⟩ := Prod.mk.inj (Except.ok.inj hrun)
    omega

/-! ### Requests -/

theorem mallocArena_refused (h : PosOk s) {size : Nat} (hrun : mallocArena s size os = .ok (s', 0)) :
    SameHeap s s' := by
  unfold mallocArena at hrun
  split at hrun
  · obtain ⟨k, -, hrun⟩ := Exec.bind_ok hrun
    obtain ⟨⟨s₁, o⟩, htry, hrun⟩ := Exec.bind_ok hrun
    have e₁ := tryRunPool_same htry
    have h₁ := h.same e₁
    cases o with
    | some run => exact absurd rfl (mallocChunkRun_pos h₁ hrun)
    | none =>
      obtain ⟨⟨s₂, o⟩, hget, hrun⟩ := Exec.bind_ok hrun
      cases o with
      | none =>
        obtain ⟨rfl, -⟩ := Prod.mk.inj (Except.ok.inj hrun)
        exact e₁.trans (getOrNewChunk_refused hget)
      | some c =>
        obtain ⟨⟨s₃, run⟩, hnew, hrun⟩ := Exec.bind_ok hrun
        have h₃ := (h₁.works (getOrNewChunk_works hget)).writes (newChunkRun_writes hnew)
        exact absurd rfl (mallocChunkRun_pos h₃ hrun)
  split at hrun
  · obtain ⟨⟨s₁, o⟩, hget, hrun⟩ := Exec.bind_ok hrun
    cases o with
    | none =>
      obtain ⟨rfl, -⟩ := Prod.mk.inj (Except.ok.inj hrun)
      exact getOrNewChunk_refused hget
    | some c => exact absurd rfl (mallocChunkMedium_pos (h.works (getOrNewChunk_works hget)) hrun)
  · obtain ⟨⟨s₁, o⟩, hnew, hrun⟩ := Exec.bind_ok hrun
    cases o with
    | none =>
      obtain ⟨rfl, -⟩ := Prod.mk.inj (Except.ok.inj hrun)
      exact newArena_refused hnew
    | some index =>
      -- a new arena is not the one of the context
      obtain ⟨-, hpos⟩ := Prod.mk.inj (Except.ok.inj hrun)
      obtain ⟨-, ⟨hnone, -⟩ | ⟨index', hfind, hcase⟩⟩ := newArena_cases hnew
      · cases hnone
      · obtain ⟨hlo, -⟩ := findEmptyArena_some hfind
        rcases hcase with ⟨-, -, hnone⟩ | ⟨_, -, -, hnone⟩ | ⟨_, -, -, -, hnone⟩ | ⟨_, _, -, -, rfl, hsome⟩
        · cases hnone
        · cases hnone
        · cases hnone
        · obtain rfl := Option.some.inj hsome
          rw [enterArena_arenas, if_pos rfl, index2pos_eq (by decide)] at hpos
          have hzero : index * 2 ^ 32 + 0 = 0 := hpos
          omega

theorem shmMalloc_refused (h : PosOk s) {size : Nat} (hrun : shmMalloc s size os = .ok (s', 0)) :
    SameHeap s s' := by
  unfold shmMalloc at hrun
  split at hrun
  · obtain ⟨rfl, -⟩ := Prod.mk.inj (Except.ok.inj hrun)
    exact .refl _
  · exact mallocArena_refused h hrun

theorem checkArena_same {index offset n : Nat} (h : checkArena s index offset = .ok (s', n)) :
    SameHeap s s' := by
  obtain rfl | ⟨_, hlook⟩ := checkArena_cases h
  · exact .refl _
  · exact getOrUpdateAddr_same hlook

theorem shmRealloc_refused (h : PosOk s) {pos size : Nat} (hrun : shmRealloc s pos size os = .ok (s', 0)) :
    SameHeap s s' := by
  unfold shmRealloc at hrun
  split at hrun
  · exact shmMalloc_refused h hrun
  · next hpos =>
    obtain ⟨⟨s₁, n⟩, hcheck, hrun⟩ := Exec.bind_ok hrun
    have e₁ := checkArena_same hcheck
    dsimp only at hrun
    split at hrun
    · obtain ⟨⟨s₂, ret⟩, hmalloc, hrun⟩ := Exec.bind_ok hrun
      dsimp only at hrun
      split at hrun
      · next hret =>
        obtain ⟨_, -, hrun⟩ := Exec.bind_ok hrun
        obtain ⟨_, -, hrun⟩ := Exec.bind_ok hrun
        obtain ⟨_, -, hrun⟩ := Exec.bind_ok hrun
        exact absurd (Prod.mk.inj (Except.ok.inj hrun)).2 hret
      · obtain ⟨rfl, rfl⟩ := Prod.mk.inj (Except.ok.inj hrun)
        exact e₁.trans (mallocArena_refused (h.same e₁) hmalloc)
    · exact absurd (Prod.mk.inj (Except.ok.inj hrun)).2 hpos

end

/-! ### Runs -/

theorem mmapArenas_same {n i : Nat} {s s' : Shm} (h : mmapArenas n s i = .ok s') : SameHeap s s' := by
  induction n generalizing s i with
  | zero =>
    obtain rfl := Except.ok.inj h
    exact .refl _
  | succ n ih =>
    rw [mmapArenas] at h
    split at h
    · obtain ⟨⟨u, addr⟩, hmap, h⟩ := Exec.bind_ok h
      obtain ⟨-, y, -, rfl⟩ := mmapArena_ok hmap
      exact SameHeap.trans (.write s _ y) (ih h)
    · exact ih h

/-- While there are processes, no position in use is null. -/
def WorldPos (w : World) : Prop := w.pids ≠ [] → PosOk w.shm

theorem WorldPos.context {w : World} (h : WorldPos w) (shmid : Nat) : PosOk (w.context shmid) := by
  unfold World.context
  split
  · exact ⟨fun _ hc => absurd rfl hc, fun _ hr => absurd rfl hr⟩
  · next hp => exact h hp

theorem WorldPos.step {w w' : World} {a : Action} (h : WorldPos w) (hl : a.Legal w)
    (hs : a.step w = .ok w') : WorldPos w' := by
  cases a with
  | init pid shmid shmat =>
    have hfound : PosOk (w.found shmid shmat) := (h.context shmid).of_eq rfl rfl
    rcases World.init_cases hs with ⟨-, k, rfl⟩ | ⟨addr, s, -, -, hloop, rfl⟩
    · exact fun _ => hfound.of_eq rfl rfl
    · have hattach : PosOk (attachArena (w.found shmid shmat) 0 addr) := hfound.of_eq rfl rfl
      exact fun _ => hattach.same (mmapArenas_same hloop)
  | exit pid =>
    obtain rfl := Except.ok.inj hs
    intro hp
    have hw : w.pids ≠ [] := fun he => hp (by rw [World.exit, he]; rfl)
    exact (h hw).of_eq rfl rfl
  | call pid c visits os shmat =>
    obtain ⟨s, hvisit, hs⟩ := Exec.bind_ok hs
    obtain ⟨⟨s', ret⟩, hrun, hs⟩ := Exec.bind_ok hs
    obtain rfl := Except.ok.inj hs
    have hw : PosOk w.shm := h (List.ne_nil_of_mem hl.1)
    have hload : PosOk (w.load (w.proc pid) shmat) := hw.of_eq rfl rfl
    exact fun _ => (hload.same (visit_same hvisit)).does (Call.does hrun)

theorem worldPos_reach {w : World} (h : worldMachine.Reach (fun _ _ => True) w) : WorldPos w := by
  have hstart : ∀ w, worldMachine.start w → WorldPos w := fun w hw hp => absurd hw.1 hp
  exact h.invariant hstart fun w a w' hi hl _ hs => hi.step hl hs

/-- **A request that returns `SHM_NULL`** leaves all of the shared memory as it was, in every state
that any processes reach and whichever calls to the system fail. -/
theorem refused_same {w : World} (hw : worldMachine.Reach (fun _ _ => True) w) {pid : Nat}
    {visits : List Nat} {os : Os} {shmat : Nat → Nat → List Attach → Option Nat} {s : Shm}
    (hp : pid ∈ w.pids) (hs : visit (w.load (w.proc pid) shmat) visits = .ok s) :
    (∀ size s', shmMalloc s size os = .ok (s', 0) → SameHeap w.shm s') ∧
      ∀ pos size s', shmRealloc s pos size os = .ok (s', 0) → SameHeap w.shm s' := by
  have hload : SameHeap w.shm (w.load (w.proc pid) shmat) := .write w.shm _ _
  have e := hload.trans (visit_same hs)
  have h := (worldPos_reach hw (List.ne_nil_of_mem hp)).same e
  exact ⟨fun size s' hrun => e.trans (shmMalloc_refused h hrun),
    fun pos size s' hrun => e.trans (shmRealloc_refused h hrun)⟩

/-- One process with a large block, which it wants to be twice as large. -/
def oneBlock : List Order := [.init 1 10, .call 1 (.malloc (2 ^ 20)) (.created 11)]

theorem refused_same_realloc : ∃ w s', worldMachine.Reach (fun _ _ => True) w ∧ 1 ∈ w.pids ∧
    shmRealloc (w.load (w.proc 1) servingShmat) (2 ^ 32) (2 ^ 21) .keyFails = .ok (s', 0) ∧
    SameHeap w.shm s' := by
  have hrun : (orderMachine.run (fun _ _ => true) World.start oneBlock).any (fun w =>
      decide (1 ∈ w.pids) && (shmRealloc (w.load (w.proc 1) servingShmat) (2 ^ 32) (2 ^ 21)
        .keyFails).toOption.any fun x => decide (x.2 = 0)) = true := by
    decide +kernel
  obtain ⟨w, hw, ht⟩ : ∃ w, orderMachine.Reach (fun _ _ => True) w ∧ _ :=
    Machine.exists_reach _ (fun _ _ _ => trivial) _ ⟨rfl, fun _ => rfl⟩ hrun
  obtain ⟨hp, ht⟩ := Bool.and_eq_true_iff.mp ht
  have hp := of_decide_eq_true hp
  obtain ⟨⟨s', pos⟩, hx, hpos⟩ := exists_ok ht
  obtain rfl : pos = 0 := of_decide_eq_true hpos
  have hreach : worldMachine.Reach (fun _ _ => True) w := Order.reach hw
  have hvisit : visit (w.load (w.proc 1) servingShmat) [] = .ok (w.load (w.proc 1) servingShmat) := rfl
  exact ⟨w, s', hreach, hp, hx, (refused_same hreach hp hvisit).2 _ _ s' hx⟩

end ShmMalloc
