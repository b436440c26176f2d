import ShmMalloc.Arena.NewChunk
import ShmMalloc.Chunk.PoolSpec
import ShmMalloc.Chunk.SmallPages
import ShmMalloc.Process.Model

/-! What an operation writes, one object at a time.

Whatever the pools hold, an operation looks up arenas and writes chunks, runs and slots,
may create one arena, and may delete one at its end. What the writes keep is then shown
for each kind of write, and not for each function. -/
namespace ShmMalloc

/-- Lookups and writes, none of which creates or deletes an arena. -/
inductive Writes : Shm → Shm → Prop where
  | refl (s : Shm) : Writes s s
  | look {s s₁ s₂ : Shm} {index : Nat} {r : Option Nat} (h : Writes s s₁)
    (e : getOrUpdateArenaAddr s₁ index = .ok (s₂, r)) : Writes s s₂
  | pool {s s₁ : Shm} (h : Writes s s₁) (type : ChunkType) (t : Rbtree.State Nat ChunkTreeValue) :
    Writes s (s₁.setPool type t)
  | medium {s s₁ : Shm} (h : Writes s s₁) (c : Nat) (d : ChunkMediumDetial) : Writes s (s₁.setMedium c d)
  | small {s s₁ : Shm} (h : Writes s s₁) (c : Nat) (d : ChunkSmallDetial) : Writes s (s₁.setSmall c d)
  | tree {s s₁ : Shm} (h : Writes s s₁) (k : Nat) (t : TreeHeap) (pool : ShmPool) :
    Writes s (s₁.setRunTree k t pool)
  | link {s s₁ : Shm} (h : Writes s s₁) (r o word : Nat) : Writes s (s₁.setLink r o word)
  | slots {s s₁ : Shm} (h : Writes s s₁) (r used free : Nat) :
    Writes s (s₁.setRun r {s₁.run r with used := used, free := free})
  | start {s s₁ : Shm} (h : Writes s s₁) (c idx type : Nat) (hty : (s₁.header c).type = .small) :
    Writes s (startRun s₁ c idx type)
  | header {s s₁ : Shm} (h : Writes s s₁) (c : Nat) (type : ChunkType) (hc : c ≠ 0) :
    Writes s (writeHeader s₁ c type)
  | leave {s s₁ : Shm} (h : Writes s s₁) (c : Nat) :
    Writes s (s₁.setHeader c {s₁.header c with type := .empty})
  | slot {s s₁ : Shm} (h : Writes s s₁) (index : Nat) (a : ShmArena)
    (ht : a.type = (s₁.arenas index).type) (hm : a.shmid = (s₁.arenas index).shmid)
    (hi : a.index = (s₁.arenas index).index) : Writes s (s₁.setArena index a)
  | copy {s s₁ : Shm} (h : Writes s s₁) (dest src n : Nat) : Writes s (copyData s₁ dest src n)

theorem Writes.trans {s s' s'' : Shm} (h : Writes s s') (h' : Writes s' s'') : Writes s s'' := by
  induction h' with
  | refl => exact h
  | look _ e ih => exact ih.look e
  | pool _ type t ih => exact ih.pool type t
  | medium _ c d ih => exact ih.medium c d
  | small _ c d ih => exact ih.small c d
  | tree _ k t pool ih => exact ih.tree k t pool
  | link _ r o word ih => exact ih.link r o word
  | slots _ r used free ih => exact ih.slots r used free
  | start _ c idx type hty ih => exact ih.start c idx type hty
  | header _ c type hc ih => exact ih.header c type hc
  | leave _ c ih => exact ih.leave c
  | slot _ index a ht hm hi ih => exact ih.slot index a ht hm hi
  | copy _ dest src n ih => exact ih.copy dest src n

/-! ### Calls on chunks and runs -/

section Writes
variable {s s' : Shm} {c : Nat}

theorem updateChunkPool_writes {m : Nat} (h : updateChunkPool s c m = .ok s') : Writes s s' := by
  obtain ⟨t, -, h⟩ := Exec.bind_ok h
  obtain ⟨t', -, h⟩ := Exec.bind_ok h
  obtain rfl := Except.ok.inj h
  exact .pool (.refl s) _ _

theorem checkChunkMediumMax_writes {size : Nat} (h : checkChunkMediumMax s c size = .ok s') :
    Writes s s' := by
  have hset : ∀ n, (if (s.medium c).maxSize ≠ n then
      updateChunkPool s c (n * 4096) >>= fun s => .ok (s.setMedium c {s.medium c with maxSize := n})
      else .ok s) = Except.ok s' → Writes s s' := by
    intro n h
    split at h
    · obtain ⟨s₁, hu, h⟩ := Exec.bind_ok h
      obtain rfl := Except.ok.inj h
      exact (updateChunkPool_writes hu).medium _ _
    · obtain rfl := Except.ok.inj h
      exact .refl s
  unfold checkChunkMediumMax at h
  dsimp only at h
  split at h
  · obtain ⟨n, -, h⟩ := Exec.bind_ok h
    exact hset _ h
  · exact hset _ h

theorem mallocChunkMedium_writes {len pos : Nat} (h : mallocChunkMedium s c len = .ok (s', pos)) :
    Writes s s' := by
  unfold mallocChunkMedium at h
  obtain ⟨-, -, h⟩ := Exec.bind_ok h
  obtain ⟨o, -, h⟩ := Exec.bind_ok h
  obtain ⟨n, -, h⟩ := Exec.bind_ok h
  obtain ⟨-, -, h⟩ := Exec.bind_ok h
  obtain ⟨d, -, h⟩ := Exec.bind_ok h
  obtain ⟨t, -, h⟩ := Exec.bind_ok h
  dsimp only at h
  split at h
  · obtain ⟨s₁, hmax, h⟩ := Exec.bind_ok h
    obtain ⟨rfl, rfl⟩ := Prod.mk.inj (Except.ok.inj h)
    exact (Writes.trans (.medium (.refl s) _ _) (checkChunkMediumMax_writes hmax)).medium _ _
  · obtain ⟨rfl, rfl⟩ := Prod.mk.inj (Except.ok.inj h)
    exact .medium (.medium (.refl s) _ _) _ _

theorem freeChunkMedium_writes {offset : Nat} {b : Bool}
    (h : freeChunkMedium s c offset = .ok (s', b)) : Writes s s' := by
  unfold freeChunkMedium at h
  obtain ⟨-, -, h⟩ := Exec.bind_ok h
  dsimp only at h
  split at h
  · obtain ⟨rfl, rfl⟩ := Prod.mk.inj (Except.ok.inj h)
    exact .refl s
  split at h
  · obtain ⟨rfl, rfl⟩ := Prod.mk.inj (Except.ok.inj h)
    exact .refl s
  obtain ⟨up, -, h⟩ := Exec.bind_ok h
  obtain ⟨-, -, h⟩ := Exec.bind_ok h
  obtain ⟨d, -, h⟩ := Exec.bind_ok h
  obtain ⟨next, -, h⟩ := Exec.bind_ok h
  obtain ⟨⟨d₁, unit₁⟩, -, h⟩ := Exec.bind_ok h
  obtain ⟨prev, -, h⟩ := Exec.bind_ok h
  obtain ⟨⟨d₂, unit⟩, -, h⟩ := Exec.bind_ok h
  obtain ⟨d₃, -, h⟩ := Exec.bind_ok h
  dsimp only at h
  split at h
  · obtain ⟨s₁, hmax, h⟩ := Exec.bind_ok h
    obtain ⟨rfl, rfl⟩ := Prod.mk.inj (Except.ok.inj h)
    exact Writes.trans (.medium (.refl s) _ _) (checkChunkMediumMax_writes hmax)
  · obtain ⟨rfl, rfl⟩ := Prod.mk.inj (Except.ok.inj h)
    exact .medium (.refl s) _ _

theorem pushRun_writes {run : Nat} (h : pushRun s run = .ok s') : Writes s s' := by
  obtain ⟨⟨t, pool⟩, -, h⟩ := Exec.bind_ok h
  obtain rfl := Except.ok.inj h
  exact .tree (.refl s) _ t pool

theorem popRun_writes {run : Nat} (h : popRun s run = .ok s') : Writes s s' := by
  obtain ⟨⟨t, pool⟩, -, h⟩ := Exec.bind_ok h
  obtain rfl := Except.ok.inj h
  exact .tree (.refl s) _ t pool

theorem removeRun_writes {run : Nat} (h : removeRun s run = .ok s') : Writes s s' := by
  obtain ⟨⟨t, pool⟩, -, h⟩ := Exec.bind_ok h
  obtain rfl := Except.ok.inj h
  exact .tree (.refl s) _ t pool

theorem rekeySmall_writes {m : Nat} (h : rekeySmall s c m = .ok s') : Writes s s' := by
  unfold rekeySmall at h
  split at h
  · exact updateChunkPool_writes h
  · obtain rfl := Except.ok.inj h
    exact .refl s

theorem mallocRun_writes {run offset : Nat} (h : mallocRun s run = .ok (s', offset)) : Writes s s' := by
  obtain ⟨-, -, h⟩ := Exec.bind_ok h
  obtain ⟨-, -, h⟩ := Exec.bind_ok h
  obtain ⟨rfl, rfl⟩ := Prod.mk.inj (Except.ok.inj h)
  exact .slots (.refl s) _ _ _

theorem freeRun_writes {run offset : Nat} (h : freeRun s run offset = .ok s') : Writes s s' := by
  obtain ⟨-, -, h⟩ := Exec.bind_ok h
  obtain rfl := Except.ok.inj h
  exact .slots (.link (.refl s) _ _ _) _ _ _

theorem freeChunkRun_writes {pos : Nat} (h : freeChunkRun s c pos = .ok s') : Writes s s' := by
  obtain ⟨-, -, h⟩ := Exec.bind_ok h
  obtain rfl := Except.ok.inj h
  exact .small (.refl s) _ _

theorem mallocChunkRun_writes {run pos : Nat} (h : mallocChunkRun s run = .ok (s', pos)) :
    Writes s s' := by
  rw [mallocChunkRun_eq] at h
  obtain ⟨⟨s₁, offset⟩, hm, h⟩ := Exec.bind_ok h
  have hq := mallocRun_writes hm
  split at h
  · obtain ⟨s₂, hpop, h⟩ := Exec.bind_ok h
    obtain ⟨rfl, rfl⟩ := Prod.mk.inj (Except.ok.inj h)
    exact hq.trans (popRun_writes hpop)
  · obtain ⟨rfl, rfl⟩ := Prod.mk.inj (Except.ok.inj h)
    exact hq

theorem newChunkRun_writes {type run : Nat} (h : newChunkRun s c type = .ok (s', run)) :
    Writes s s' := by
  rw [newChunkRun_eq] at h
  obtain ⟨u, hty, h⟩ := Exec.bind_ok h
  obtain ⟨-, -, h⟩ := Exec.bind_ok h
  obtain ⟨-, -, h⟩ := Exec.bind_ok h
  obtain ⟨s₁, hpush, h⟩ := Exec.bind_ok h
  obtain ⟨s₂, hkey, h⟩ := Exec.bind_ok h
  obtain ⟨rfl, rfl⟩ := Prod.mk.inj (Except.ok.inj h)
  have hsmall : Writes s (s.setSmall c ⟨(s.small c).used + 1, (bitmapSfu (s.small c).bitmap 256).1⟩) :=
    .small (.refl s) c _
  have hstart := hsmall.start c (bitmapSfu (s.small c).bitmap 256).2 type
    (show (s.header c).type = .small from of_decide_eq_true (require_ok hty))
  exact (hstart.trans (pushRun_writes hpush)).trans (rekeySmall_writes hkey)

theorem releaseRun_writes {run : Nat} {b : Bool} (h : releaseRun s c run = .ok (s', b)) :
    Writes s s' := by
  obtain ⟨s₁, hremove, h⟩ := Exec.bind_ok h
  obtain ⟨s₂, hkey, h⟩ := Exec.bind_ok h
  obtain ⟨s₃, hfree, h⟩ := Exec.bind_ok h
  obtain ⟨rfl, rfl⟩ := Prod.mk.inj (Except.ok.inj h)
  exact ((removeRun_writes hremove).trans (rekeySmall_writes hkey)).trans (freeChunkRun_writes hfree)

theorem freeChunkSmall_writes {offset : Nat} {b : Bool}
    (h : freeChunkSmall s c offset = .ok (s', b)) : Writes s s' := by
  rw [freeChunkSmall_eq] at h
  obtain ⟨o, -, h⟩ := Exec.bind_ok h
  cases o with
  | none =>
    obtain ⟨rfl, rfl⟩ := Prod.mk.inj (Except.ok.inj h)
    exact .refl s
  | some run =>
    obtain ⟨s₁, hfree, h⟩ := Exec.bind_ok h
    obtain ⟨s₂, hpush, h⟩ := Exec.bind_ok h
    have hq : Writes s s₂ := by
      refine (freeRun_writes hfree).trans ?_
      split at hpush
      · exact pushRun_writes hpush
      · obtain rfl := Except.ok.inj hpush
        exact .refl s₁
    split at h
    · exact hq.trans (releaseRun_writes h)
    · obtain ⟨rfl, rfl⟩ := Prod.mk.inj (Except.ok.inj h)
      exact hq

theorem deleteChunk_writes (h : deleteChunk s c = .ok s') : Writes s s' := by
  obtain ⟨t, -, h⟩ := Exec.bind_ok h
  obtain rfl := Except.ok.inj h
  have hleave := Writes.leave (.pool (.refl s) (s.header c).type t) c
  rwa [setPool_header] at hleave

theorem freeChunk_writes {offset : Nat} {b : Bool} (h : freeChunk s c offset = .ok (s', b)) :
    Writes s s' := by
  have hdelete : ∀ {s₁ : Shm} {check : Bool}, Writes s s₁ →
      (if check = true then deleteChunk s₁ c >>= fun s => .ok (s, true) else .ok (s₁, false)) =
        Except.ok (s', b) → Writes s s' := by
    intro s₁ check hq h
    split at h
    · obtain ⟨s₂, hdelete, h⟩ := Exec.bind_ok h
      obtain ⟨rfl, rfl⟩ := Prod.mk.inj (Except.ok.inj h)
      exact hq.trans (deleteChunk_writes hdelete)
    · obtain ⟨rfl, rfl⟩ := Prod.mk.inj (Except.ok.inj h)
      exact hq
  unfold freeChunk at h
  cases hty : (s.header c).type with
  | small =>
    simp only [hty] at h
    obtain ⟨⟨s₁, check⟩, hfree, h⟩ := Exec.bind_ok h
    exact hdelete (freeChunkSmall_writes hfree) h
  | medium =>
    simp only [hty] at h
    obtain ⟨⟨s₁, check⟩, hfree, h⟩ := Exec.bind_ok h
    exact hdelete (freeChunkMedium_writes hfree) h
  | empty =>
    simp only [hty] at h
    exact hdelete (.refl s) (show (if false = true then _ else _) = _ from h)

theorem insertChunk_writes {type : ChunkType} {m : Nat} (h : insertChunk s c type m = .ok s') :
    Writes s s' := by
  obtain ⟨t, -, h⟩ := Exec.bind_ok h
  obtain rfl := Except.ok.inj h
  exact .pool (.refl s) _ _

theorem initChunkMedium_writes (h : initChunkMedium s c = .ok s') : Writes s s' := by
  obtain ⟨d, -, h⟩ := Exec.bind_ok h
  obtain rfl := Except.ok.inj h
  exact .medium (.refl s) _ _

theorem initChunk_writes {type : ChunkType} (hc : c ≠ 0) (h : initChunk s c c type = .ok s') :
    Writes s s' := by
  have hw : Writes s (writeHeader s c type) := .header (.refl s) c type hc
  rw [initChunk_eq] at h
  split at h
  · exact (hw.small _ _).trans (insertChunk_writes h)
  · obtain ⟨s₁, hinit, h⟩ := Exec.bind_ok h
    exact hw.trans ((initChunkMedium_writes hinit).trans (insertChunk_writes h))

/-! ### Slots -/

theorem newArenaChunk_writes (s : Shm) (index : Nat) : Writes s (newArenaChunk s index).1 := by
  unfold newArenaChunk
  dsimp only
  split
  · exact .refl s
  · exact .slot (.refl s) _ _ rfl rfl rfl

theorem findArenaChunk_writes (n : Nat) (s : Shm) (i e : Nat) : Writes s (findArenaChunk s n i e).1 := by
  induction n generalizing s i e with
  | zero => exact .refl s
  | succ n ih =>
    rw [findArenaChunk]
    split
    · have hq := newArenaChunk_writes s i
      dsimp only
      split
      · exact hq
      · exact hq.trans (ih ..)
    · split <;> exact ih ..

theorem deleteArenaChunk_writes {index pos : Nat} (h : deleteArenaChunk s index pos = .ok s') :
    Writes s s' := by
  obtain ⟨-, -, h⟩ := Exec.bind_ok h
  obtain rfl := Except.ok.inj h
  exact .slot (.refl s) _ _ rfl rfl rfl

end Writes

/-! ### Operations -/

theorem dropArenaAddr_arenas {s s' : Shm} {index : Nat} (h : dropArenaAddr s index = .ok s') :
    s'.arenas = s.arenas := by
  unfold dropArenaAddr at h
  split at h
  · split at h
    · cases h
    · obtain rfl := Except.ok.inj h
      rfl
  · obtain rfl := Except.ok.inj h
    rfl

/-- A lookup changes no arena. -/
theorem getOrUpdateArenaAddr_arenas {s s' : Shm} {index : Nat} {r : Option Nat}
    (h : getOrUpdateArenaAddr s index = .ok (s', r)) : s'.arenas = s.arenas := by
  unfold getOrUpdateArenaAddr at h
  split at h
  · obtain ⟨s₁, hdrop, h⟩ := Exec.bind_ok h
    rw [← dropArenaAddr_arenas hdrop]
    split at h
    · obtain ⟨⟨s₂, addr⟩, hmap, h⟩ := Exec.bind_ok h
      obtain ⟨-, -, hmap⟩ := Exec.bind_ok hmap
      obtain ⟨rfl, rfl⟩ := Prod.mk.inj (Except.ok.inj h)
      obtain ⟨rfl, rfl⟩ := Prod.mk.inj (Except.ok.inj hmap)
      rfl
    · obtain ⟨rfl, rfl⟩ := Prod.mk.inj (Except.ok.inj h)
      rfl
  · obtain ⟨rfl, rfl⟩ := Prod.mk.inj (Except.ok.inj h)
    rfl

/-- No arena comes or goes. -/
theorem Writes.type {s s' : Shm} (h : Writes s s') (i : Nat) : (s'.arenas i).type = (s.arenas i).type := by
  induction h with
  | look _ e ih => rw [getOrUpdateArenaAddr_arenas e, ih]
  | pool _ type t ih =>
    rw [← ih]
    unfold Shm.setPool
    split <;> rfl
  | slot _ index a ht hm hi ih =>
    rw [← ih]
    show (if i = index then a else _).type = _
    split
    · next h => rw [h, ht]
    · rfl
  | start _ c idx type hty ih =>
    obtain ⟨link, data, hs⟩ := startRun_fields _ c idx type
    rw [hs]
    exact ih
  | refl => rfl
  | _ => assumption

/-- `new_arena` as the operations call it. -/
def Creates (os : Os) (s s' : Shm) : Prop :=
  ∃ type size r, (type = .chunk ∨ type = .large) ∧ newArena s type size os = .ok (s', r)

/-- `delete_arena`, of the arena of an entry that is not the context's. -/
def Deletes (s s' : Shm) : Prop :=
  ∃ i < 128, (s.arenas i).type ≠ .empty ∧ (s.arenas i).type ≠ .context ∧
    (deleteArena s i = .ok s' ∨ deleteArena s (s.arenas i).index = .ok s')

/-- What an operation does before it deletes an arena: at most one is created. -/
def Works (os : Os) (s u : Shm) : Prop :=
  ∃ s₁ s₂, Writes s s₁ ∧ (s₂ = s₁ ∨ Creates os s₁ s₂) ∧ Writes s₂ u

namespace Works
variable {os : Os} {s s' s'' : Shm}

theorem of_writes (h : Writes s s') : Works os s s' := ⟨s, s, .refl s, .inl rfl, h⟩

theorem refl (s : Shm) : Works os s s := of_writes (.refl s)

theorem after (h : Writes s s') (h' : Works os s' s'') : Works os s s'' := by
  obtain ⟨s₁, s₂, hw, hn, hw'⟩ := h'
  exact ⟨s₁, s₂, h.trans hw, hn, hw'⟩

theorem writes (h : Works os s s') (h' : Writes s' s'') : Works os s s'' := by
  obtain ⟨s₁, s₂, hw, hn, hw'⟩ := h
  exact ⟨s₁, s₂, hw, hn, hw'.trans h'⟩

theorem new {type : ArenaType} {size : Nat} {r : Option Nat} (ht : type = .chunk ∨ type = .large)
    (h : newArena s type size os = .ok (s', r)) : Works os s s' :=
  ⟨s, s', .refl s, .inr ⟨type, size, r, ht, h⟩, .refl s'⟩

end Works

/-- What an operation does: at its end it may delete an arena. -/
def Does (os : Os) (s s' : Shm) : Prop := ∃ u, Works os s u ∧ (s' = u ∨ Deletes u s')

theorem Works.does {os : Os} {s s' : Shm} (h : Works os s s') : Does os s s' := ⟨s', h, .inl rfl⟩

section Operations
variable {s s' : Shm} {os : Os}

/-- The lookup of a position is one of its arena, and finds an address. -/
theorem getOrUpdateAddr_cases {pos : Nat} (h : getOrUpdateAddr s pos = .ok s') :
    pos ≠ 0 ∧ ∃ addr, getOrUpdateArenaAddr s (pos2index pos) = .ok (s', some addr) := by
  unfold getOrUpdateAddr at h
  split at h
  · cases h
  · next hpos =>
    obtain ⟨⟨s₁, addr⟩, hlook, h⟩ := Exec.bind_ok h
    cases addr with
    | none => cases h
    | some addr =>
      obtain rfl := Except.ok.inj h
      exact ⟨hpos, addr, hlook⟩

theorem getOrUpdateAddr_writes {pos : Nat} (h : getOrUpdateAddr s pos = .ok s') : Writes s s' := by
  obtain ⟨-, addr, hlook⟩ := getOrUpdateAddr_cases h
  exact (Writes.refl s).look hlook

theorem startChunk_writes {pos : Nat} {type : ChunkType} {r : Option Nat}
    (h : startChunk s pos type = .ok (s', r)) : Writes s s' := by
  obtain ⟨s₁, hlook, h⟩ := Exec.bind_ok h
  obtain ⟨s₂, hinit, h⟩ := Exec.bind_ok h
  obtain ⟨rfl, rfl⟩ := Prod.mk.inj (Except.ok.inj h)
  exact (getOrUpdateAddr_writes hlook).trans (initChunk_writes (getOrUpdateAddr_cases hlook).1 hinit)

theorem newChunk_works {type : ChunkType} {r : Option Nat} (h : newChunk s type os = .ok (s', r)) :
    Works os s s' := by
  have hq := findArenaChunk_writes 128 s 0 0
  rcases hfind : findArenaChunk s 128 0 0 with ⟨s₁, pos, e⟩
  rw [hfind] at hq
  refine .after hq ?_
  by_cases hpos : pos = 0
  · subst hpos
    by_cases he : e = 0
    · subst he
      rw [newChunk_none hfind] at h
      obtain ⟨rfl, rfl⟩ := Prod.mk.inj (Except.ok.inj h)
      exact .refl _
    · rw [newChunk_create hfind he] at h
      obtain ⟨⟨s₂, o⟩, hnew, h⟩ := Exec.bind_ok h
      refine (Works.new (.inl rfl) hnew).writes ?_
      cases o with
      | none =>
        obtain ⟨rfl, rfl⟩ := Prod.mk.inj (Except.ok.inj h)
        exact .refl _
      | some index =>
        obtain ⟨-, -, h⟩ := Exec.bind_ok h
        exact (newArenaChunk_writes s₂ index).trans (startChunk_writes h)
  · rw [newChunk_found hfind hpos] at h
    exact .of_writes (startChunk_writes h)

theorem getOrNewChunk_works {type : ChunkType} {size : Nat} {r : Option Nat}
    (h : getOrNewChunk s type size os = .ok (s', r)) : Works os s s' := by
  unfold getOrNewChunk at h
  obtain ⟨o, -, h⟩ := Exec.bind_ok h
  cases o with
  | some c =>
    obtain ⟨rfl, rfl⟩ := Prod.mk.inj (Except.ok.inj h)
    exact .refl _
  | none => exact newChunk_works h

theorem tryRunPool_writes {runidx : Nat} {r : Option Nat} (h : tryRunPool s runidx = .ok (s', r)) :
    Writes s s' := by
  unfold tryRunPool at h
  dsimp only at h
  split at h
  · obtain ⟨rfl, rfl⟩ := Prod.mk.inj (Except.ok.inj h)
    exact .refl _
  · obtain ⟨⟨s₁, addr⟩, hlook, h⟩ := Exec.bind_ok h
    obtain ⟨-, -, h⟩ := Exec.bind_ok h
    obtain ⟨rfl, rfl⟩ := Prod.mk.inj (Except.ok.inj h)
    exact (Writes.refl s).look hlook

theorem mallocArena_works {size pos : Nat} (h : mallocArena s size os = .ok (s', pos)) :
    Works os s s' := by
  unfold mallocArena at h
  split at h
  · obtain ⟨runidx, -, h⟩ := Exec.bind_ok h
    obtain ⟨⟨s₁, o⟩, htry, h⟩ := Exec.bind_ok h
    refine .after (tryRunPool_writes htry) ?_
    cases o with
    | some run => exact .of_writes (mallocChunkRun_writes h)
    | none =>
      obtain ⟨⟨s₂, o⟩, hchunk, h⟩ := Exec.bind_ok h
      refine (getOrNewChunk_works hchunk).writes ?_
      cases o with
      | none =>
        obtain ⟨rfl, rfl⟩ := Prod.mk.inj (Except.ok.inj h)
        exact .refl _
      | some c =>
        obtain ⟨⟨s₃, run⟩, hrun, h⟩ := Exec.bind_ok h
        exact (newChunkRun_writes hrun).trans (mallocChunkRun_writes h)
  split at h
  · obtain ⟨⟨s₁, o⟩, hchunk, h⟩ := Exec.bind_ok h
    refine (getOrNewChunk_works hchunk).writes ?_
    cases o with
    | none =>
      obtain ⟨rfl, rfl⟩ := Prod.mk.inj (Except.ok.inj h)
      exact .refl _
    | some c => exact mallocChunkMedium_writes h
  · obtain ⟨⟨s₁, o⟩, hnew, h⟩ := Exec.bind_ok h
    refine (Works.new (.inr rfl) hnew).writes ?_
    cases o with
    | none =>
      obtain ⟨rfl, rfl⟩ := Prod.mk.inj (Except.ok.inj h)
      exact .refl _
    | some index =>
      obtain ⟨rfl, rfl⟩ := Prod.mk.inj (Except.ok.inj h)
      exact .refl _

/-- `free_arena` without the deletion of an arena. -/
theorem freeArena_writes {index offset : Nat} (h : freeArena s index offset = .ok s') :
    ∃ u, Writes s u ∧ (s' = u ∨ Deletes u s') := by
  unfold freeArena at h
  split at h
  · obtain rfl := Except.ok.inj h
    exact ⟨_, .refl _, .inl rfl⟩
  next hvalid =>
  obtain ⟨hlt, hne⟩ : index < 128 ∧ (s.arenas index).type ≠ .empty := by
    simpa [isArenaValid] using hvalid
  have hchunk : ∀ {chunkPos : Nat}, (if chunkPos = 0 then .ok s else
      getOrUpdateAddr s chunkPos >>= fun s₁ =>
        require ((offset + 2 ^ 32 - pos2offset chunkPos) % 2 ^ 32 < 2 ^ 20) >>= fun _ =>
          freeChunk s₁ chunkPos ((offset + 2 ^ 32 - pos2offset chunkPos) % 2 ^ 32) >>= fun r =>
            if r.2 = true then checkDeleteChunk r.1 index chunkPos else .ok r.1) = Except.ok s' →
      ∃ u, Writes s u ∧ (s' = u ∨ Deletes u s') := by
    intro chunkPos h
    split at h
    · obtain rfl := Except.ok.inj h
      exact ⟨_, .refl _, .inl rfl⟩
    · obtain ⟨s₁, hlook, h⟩ := Exec.bind_ok h
      obtain ⟨-, -, h⟩ := Exec.bind_ok h
      obtain ⟨⟨s₂, check⟩, hfree, h⟩ := Exec.bind_ok h
      have hc := (getOrUpdateAddr_writes hlook).trans (freeChunk_writes hfree)
      dsimp only at h
      split at h
      · obtain ⟨s₃, hdelete, h⟩ := Exec.bind_ok h
        have hc := hc.trans (deleteArenaChunk_writes hdelete)
        split at h
        · next hused =>
          rw [Bool.and_eq_true, decide_eq_true_iff, decide_eq_true_iff] at hused
          exact ⟨s₃, hc, .inr ⟨index, hlt, by rwa [hc.type], hused.2, .inr h⟩⟩
        · obtain rfl := Except.ok.inj h
          exact ⟨s₃, hc, .inl rfl⟩
      · obtain rfl := Except.ok.inj h
        exact ⟨s₂, hc, .inl rfl⟩
  dsimp only at h
  cases hty : (s.arenas index).type with
  | empty => exact absurd hty hne
  | large =>
    rw [hty] at h
    exact ⟨s, .refl s, .inr ⟨index, hlt, hne, by rw [hty]; decide, .inl h⟩⟩
  | context =>
    rw [hty] at h
    exact hchunk h
  | chunk =>
    rw [hty] at h
    exact hchunk h

/-- A size check leaves the state as it is, or as one lookup leaves it. -/
theorem checkArena_cases {index offset n : Nat} (h : checkArena s index offset = .ok (s', n)) :
    s' = s ∨ ∃ chunkPos, getOrUpdateAddr s chunkPos = .ok s' := by
  have hchunk : ∀ {chunkPos : Nat}, (if chunkPos = 0 then .ok (s, 0) else
      getOrUpdateAddr s chunkPos >>= fun s₁ =>
        require ((offset + 2 ^ 32 - pos2offset chunkPos) % 2 ^ 32 < 2 ^ 20) >>= fun _ =>
          checkChunk s₁ chunkPos offset >>= fun ret => .ok (s₁, ret)) = Except.ok (s', n) →
      s' = s ∨ ∃ chunkPos, getOrUpdateAddr s chunkPos = .ok s' := by
    intro chunkPos h
    split at h
    · exact .inl (Prod.mk.inj (Except.ok.inj h)).1.symm
    · obtain ⟨s₁, hlook, h⟩ := Exec.bind_ok h
      obtain ⟨-, -, h⟩ := Exec.bind_ok h
      obtain ⟨ret, -, h⟩ := Exec.bind_ok h
      obtain ⟨rfl, rfl⟩ := Prod.mk.inj (Except.ok.inj h)
      exact .inr ⟨chunkPos, hlook⟩
  unfold checkArena at h
  split at h
  · exact .inl (Prod.mk.inj (Except.ok.inj h)).1.symm
  dsimp only at h
  cases hty : (s.arenas index).type with
  | empty =>
    rw [hty] at h
    cases h
  | large =>
    rw [hty] at h
    exact .inl (Prod.mk.inj (Except.ok.inj h)).1.symm
  | context =>
    rw [hty] at h
    exact hchunk h
  | chunk =>
    rw [hty] at h
    exact hchunk h

theorem checkArena_writes {index offset n : Nat} (h : checkArena s index offset = .ok (s', n)) :
    Writes s s' := by
  obtain rfl | ⟨_, hlook⟩ := checkArena_cases h
  · exact .refl _
  · exact getOrUpdateAddr_writes hlook

theorem shmMalloc_works {size pos : Nat} (h : shmMalloc s size os = .ok (s', pos)) : Works os s s' := by
  unfold shmMalloc at h
  split at h
  · obtain ⟨rfl, rfl⟩ := Prod.mk.inj (Except.ok.inj h)
    exact .refl _
  · exact mallocArena_works h

theorem shmRealloc_does {pos size ret : Nat} (h : shmRealloc s pos size os = .ok (s', ret)) :
    Does os s s' := by
  unfold shmRealloc at h
  split at h
  · exact (shmMalloc_works h).does
  obtain ⟨⟨s₁, n⟩, hcheck, h⟩ := Exec.bind_ok h
  have hc := checkArena_writes hcheck
  dsimp only at h
  split at h
  · obtain ⟨⟨s₂, ret'⟩, hmalloc, h⟩ := Exec.bind_ok h
    have hp := Works.after hc (mallocArena_works hmalloc)
    dsimp only at h
    split at h
    · obtain ⟨s₃, hlook₃, h⟩ := Exec.bind_ok h
      obtain ⟨s₄, hlook₄, h⟩ := Exec.bind_ok h
      obtain ⟨s₅, hfree, h⟩ := Exec.bind_ok h
      obtain ⟨rfl, rfl⟩ := Prod.mk.inj (Except.ok.inj h)
      have hcopy : Writes s₄ (copyData s₄ ret' pos n) := .copy (.refl s₄) _ _ _
      obtain ⟨u, hc', hu⟩ := freeArena_writes hfree
      exact ⟨u, hp.writes (((getOrUpdateAddr_writes hlook₃).trans (getOrUpdateAddr_writes hlook₄)).trans
        (hcopy.trans hc')), hu⟩
    · obtain ⟨rfl, rfl⟩ := Prod.mk.inj (Except.ok.inj h)
      exact hp.does
  · obtain ⟨rfl, rfl⟩ := Prod.mk.inj (Except.ok.inj h)
    exact (Works.of_writes hc).does

/-- What a public operation does, whatever the pools hold. -/
theorem Call.does {c : Call} {ret : Nat} (h : c.run s os = .ok (s', ret)) : Does os s s' := by
  cases c with
  | malloc size => exact (shmMalloc_works h).does
  | free pos =>
    obtain ⟨s₁, hfree, h⟩ := Exec.bind_ok h
    obtain ⟨rfl, rfl⟩ := Prod.mk.inj (Except.ok.inj h)
    unfold shmFree at hfree
    split at hfree
    · obtain rfl := Except.ok.inj hfree
      exact (Works.refl _).does
    · obtain ⟨u, hc, hu⟩ := freeArena_writes hfree
      exact ⟨u, .of_writes hc, hu⟩
  | realloc pos size => exact shmRealloc_does h
  | checkSize pos =>
    have h : shmCheckSize s pos = .ok (s', ret) := h
    unfold shmCheckSize at h
    split at h
    · obtain ⟨rfl, rfl⟩ := Prod.mk.inj (Except.ok.inj h)
      exact (Works.refl _).does
    · exact (Works.of_writes (checkArena_writes h)).does
  | getAddr pos =>
    obtain ⟨⟨s₁, addr⟩, hget, h⟩ := Exec.bind_ok h
    obtain ⟨rfl, rfl⟩ := Prod.mk.inj (Except.ok.inj h)
    unfold shmGetAddr at hget
    dsimp only at hget
    split at hget
    · obtain ⟨rfl, rfl⟩ := Prod.mk.inj (Except.ok.inj hget)
      exact (Works.refl _).does
    · obtain ⟨⟨s₂, base⟩, hlook, hget⟩ := Exec.bind_ok hget
      obtain ⟨rfl, rfl⟩ := Prod.mk.inj (Except.ok.inj hget)
      exact (Works.of_writes ((Writes.refl s).look hlook)).does

theorem visit_writes {visits : List Nat} (h : visit s visits = .ok s') : Writes s s' := by
  induction visits generalizing s with
  | nil =>
    obtain rfl := Except.ok.inj h
    exact .refl _
  | cons index visits ih =>
    obtain ⟨⟨s₁, addr⟩, hlook, h⟩ := Exec.bind_ok h
    dsimp only at h
    split at h
    · cases h
    · exact ((Writes.refl s).look hlook).trans (ih h)

end Operations

end ShmMalloc
