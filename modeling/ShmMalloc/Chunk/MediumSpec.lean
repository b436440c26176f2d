import ShmMalloc.Chunk.MediumRelease
import ShmMalloc.Chunk.PoolSpec

/-! What the calls on a medium chunk do, with the chunk in its pool.

`rbtree_lower` is called with a key that no unit is smaller than, so that it returns the
first unit of the tree, whatever its size. -/
namespace ShmMalloc
open Library
open Rbtree (Holds Keeps)

/-- The pages of a request. -/
def mediumPages (len : Nat) : Nat := alignSize len 4096 / 4096 % 2 ^ 16

/-- A medium chunk in use, with its free units `l` in the order of the tree. -/
structure MediumChunk (s : Shm) (c : Nat) (l : List Nat) : Prop where
  header : s.header c = ⟨.medium, c⟩
  layout : Layout (s.medium c) l
  key : (s.chunkNode c).v = ⟨pos2index c, (s.medium c).maxSize * 4096⟩
  maxSize : (s.medium c).maxSize ≤ 255

theorem mediumTreeCompare_nonneg (a : MediumTreeValue) (size : Nat) :
    ¬mediumTreeCompare a ⟨size, 0⟩ < 0 := by
  unfold mediumTreeCompare
  have := Int.emod_nonneg ((a.size : Int) - size) (b := 2 ^ 16) (by decide)
  simp only
  split <;> omega

theorem lower_medium {d : ChunkMediumDetial} {l : List Nat} (h : Layout d l) (size : Nat) :
    Rbtree.lower mediumMacros d.tree ⟨size, 0⟩ = .ok l.head? := by
  obtain ⟨o, hrun, -, -, hhead⟩ := Rbtree.lower_holds h.holds ⟨size, 0⟩
  rw [hrun, hhead fun r _ => mediumTreeCompare_nonneg _ size]

theorem Layout.unitSize_le {d : ChunkMediumDetial} {l : List Nat} (h : Layout d l) {p : Nat}
    (hp : p ∈ l) : 0 < unitSize d p ∧ unitSize d p ≤ 255 := by
  have hs := h.parts.segment p hp
  have := h.parts.range p hs.start
  have := hs.le
  exact ⟨hs.pos, by omega⟩

/-! ### The pool under writes to the chunk -/

theorem ChunkPool.of_pool {s s' : Shm} {type : ChunkType} {l : List Nat} (p : ChunkPool s type l)
    (e : s'.pool type = s.pool type) : ChunkPool s' type l := by
  have hn : s'.chunkNode = s.chunkNode := congrArg Rbtree.State.heap e
  exact ⟨e ▸ p.holds, hn ▸ p.ascending, hn ▸ p.valid⟩

/-- The pool is in the nodes of chunks. -/
theorem ChunkPool.of_medium {s : Shm} {c : Nat} {d : ChunkMediumDetial} {t : Rbtree.State Nat ChunkTreeValue}
    {lm : List Nat} (p : ChunkPool ((s.setMedium c d).setPool .medium t) .medium lm) :
    ChunkPool (s.setPool .medium t) .medium lm :=
  p.of_pool ((setPool_pool ..).trans (setPool_pool ..).symm)

theorem ChunkPool.setMedium {s : Shm} {type : ChunkType} {l : List Nat} (p : ChunkPool s type l)
    (c : Nat) (d : ChunkMediumDetial) : ChunkPool (s.setMedium c d) type l := p.of_pool rfl

@[simp] theorem setMedium_medium (s : Shm) (c : Nat) (d : ChunkMediumDetial) :
    (s.setMedium c d).medium c = d := if_pos rfl

/-- The bytes of a page of a chunk. -/
def pageBytes (c q : Nat) : Set (Nat × Nat) :=
  {y | y.1 = pos2index c ∧ pos2offset c ≤ y.2 ∧ (y.2 - pos2offset c) / 4096 = q}

/-- The bytes of the headers of chunks, and of the pages of `c` with these nodes. -/
def mediumBytes (lm : List Nat) (c : Nat) (node : Nat → Prop) : Set (Nat × Nat) :=
  {y | y ∈ headerBytes lm ∨ ∃ q < 256, node q ∧ y ∈ pageBytes c q}

theorem pageBytes_chunk {c q : Nat} (hq : q < 256) : ∀ y ∈ pageBytes c q, y ∈ bytes c (2 ^ 20) := by
  rintro y ⟨h₁, h₂, h₃⟩
  exact ⟨h₁, h₂, by omega⟩

theorem pageBytes_header {c q : Nat} {y : Nat × Nat} (hq : q ≠ 0) (hy : y ∈ pageBytes c q) : y ∉ bytes c 4096 := by
  rintro ⟨-, -, h⟩
  obtain ⟨-, h₂, h₃⟩ := hy
  omega

/-- A byte of a page without a node, if the chunks do not overlap there. -/
theorem not_mem_mediumBytes {lm : List Nat} {c c' p : Nat} {node : Nat → Prop} {y : Nat × Nat}
    (hy : y ∈ pageBytes c p) (hp : p ≠ 0) (hn : c' = c → ¬node p) (hctx : y ∉ bytes 0 (2 ^ 20))
    (hc' : c' ∈ lm) (hother : ∀ q ∈ lm, q ≠ c → y ∉ bytes q (2 ^ 20)) : y ∉ mediumBytes lm c' node := by
  rintro ((h | ⟨q, hq, h⟩) | ⟨q, hq, hnq, h⟩)
  · exact hctx h
  · by_cases hqc : q = c
    · exact pageBytes_header hp hy (hqc ▸ h)
    · exact hother q hq hqc (bytes_le (by decide) y h)
  · by_cases hcc : c' = c
    · subst hcc
      exact hn rfl (hy.2.2.symm.trans h.2.2 ▸ hnq)
    · exact hother c' hc' hcc (pageBytes_chunk hq y h)

theorem SameData.setMedium {W : Set (Nat × Nat)} {s : Shm} {c : Nat} {d : ChunkMediumDetial}
    (hh : ∀ y ∈ bytes c 4096, y ∈ W)
    (hn : ∀ q < 256, d.tree.heap q ≠ (s.medium c).tree.heap q → ∀ y ∈ pageBytes c q, y ∈ W) :
    SameData W s.data (s.setMedium c d).data := by
  refine (SameData.wrote hh).trans fun y hy => if_neg ?_
  rintro ⟨h₁, h₂, h₃, h₄⟩
  exact hy (hn _ (by omega) h₄ y ⟨h₁, h₂, rfl⟩)

theorem SameData.setMedium_nodes {s : Shm} {lm : List Nat} {c : Nat} {d : ChunkMediumDetial} {node : Nat → Prop}
    (hc : c ∈ lm) (hn : ∀ q, d.tree.heap q ≠ (s.medium c).tree.heap q → node q) :
    SameData (mediumBytes lm c node) s.data (s.setMedium c d).data :=
  .setMedium (fun y hy => .inl (mem_headerBytes hc y hy)) fun q hq h _ hy => .inr ⟨q, hq, hn q h, hy⟩

/-- The chunk and the bytes in memory after several writes. -/
def Shm.putMedium (s : Shm) (c : Nat) (d : ChunkMediumDetial) (data : Bytes) : Shm :=
  {s with medium := fun q => if q = c then d else s.medium q, data := data}

@[simp] theorem putMedium_medium (s : Shm) (c : Nat) (d : ChunkMediumDetial) (data : Bytes) :
    (s.putMedium c d data).medium c = d := if_pos rfl

theorem putMedium_setMedium (s : Shm) (c : Nat) (d d' : ChunkMediumDetial) (data : Bytes) :
    (s.putMedium c d data).setMedium c d' = s.putMedium c d' ((s.putMedium c d data).setMedium c d').data := by
  unfold Shm.putMedium Shm.setMedium
  congr 1
  funext q
  by_cases h : q = c <;> simp [h]

theorem putMedium_self (s : Shm) (c : Nat) : s.putMedium c (s.medium c) s.data = s := by
  unfold Shm.putMedium
  congr 1
  funext q
  by_cases h : q = c <;> simp [h]

theorem setMedium_put (s : Shm) (c : Nat) (d : ChunkMediumDetial) :
    s.setMedium c d = s.putMedium c d (s.setMedium c d).data := rfl

theorem putMedium_setPool (s : Shm) (c : Nat) (d : ChunkMediumDetial) (data : Bytes)
    (t : Rbtree.State Nat ChunkTreeValue) (type : ChunkType) (data' : Bytes) (d' : ChunkMediumDetial) :
    ((s.putMedium c d data).setPool type t).putMedium c d' data' = (s.setPool type t).putMedium c d' data' := by
  unfold Shm.setPool Shm.putMedium
  split
  · congr 1
    funext q
    by_cases h : q = c <;> simp [h]
  · congr 1
    funext q
    by_cases h : q = c <;> simp [h]

/-- The pool as it is. -/
theorem putMedium_pool (s : Shm) (c : Nat) (d : ChunkMediumDetial) (data : Bytes) (type : ChunkType) :
    (s.setPool type (s.pool type)).putMedium c d data = s.putMedium c d data := by
  have h := congrArg (fun s : Shm => s.putMedium c d data) (setPool_self s type data)
  exact h

/-! ### `max_size` -/

/-- The size that `check_chunk_medium_max` stores. -/
def newMaxSize (d : ChunkMediumDetial) (l : List Nat) (size : Nat) : Nat :=
  if size = 0 then l.getLast?.elim 0 (unitSize d) else size

theorem newMaxSize_le {d : ChunkMediumDetial} {l : List Nat} (h : Layout d l) {size : Nat}
    (hs : size ≤ 255) : newMaxSize d l size ≤ 255 := by
  unfold newMaxSize
  split
  · cases he : l.getLast? with
    | none => exact Nat.zero_le _
    | some p => exact (h.unitSize_le (List.mem_of_getLast? he)).2
  · exact hs

theorem checkChunkMediumMax_spec {s : Shm} {lm l : List Nat} {c size : Nat}
    (p : ChunkPool s .medium lm) (hc : c ∈ lm) (hty : (s.header c).type = .medium)
    (h : Layout (s.medium c) l) (hkey : (s.chunkNode c).v.maxsize = (s.medium c).maxSize * 4096)
    (hs : size ≤ 255) :
    ∃ t lm' data, checkChunkMediumMax s c size = .ok ((s.setPool .medium t).putMedium c
        {s.medium c with maxSize := newMaxSize (s.medium c) l size} data) ∧
      ChunkPool (s.setPool .medium t) .medium lm' ∧ lm'.Perm lm ∧
      Rekeyed s t lm c (newMaxSize (s.medium c) l size * 4096) ∧ SameData (headerBytes lm) s.data data := by
  have hrun : checkChunkMediumMax s c size =
      if (s.medium c).maxSize ≠ newMaxSize (s.medium c) l size then do
        let s' ← updateChunkPool s c (newMaxSize (s.medium c) l size * 4096)
        return s'.setMedium c {s'.medium c with maxSize := newMaxSize (s.medium c) l size}
      else pure s := by
    unfold checkChunkMediumMax newMaxSize
    by_cases h₀ : size = 0
    · subst h₀
      rw [if_pos rfl, Rbtree.max, Rbtree.endOf_holds h.holds .right]
      cases hl : l.getLast? with
      | none => simp [Rbtree.listEnd, hl]
      | some n =>
        simp only [Rbtree.listEnd, hl, Exec.ok_bind, Exec.pure_eq]
        rfl
    · simp [h₀]
  have hle := newMaxSize_le h hs
  rw [hrun]
  by_cases hmax : (s.medium c).maxSize = newMaxSize (s.medium c) l size
  · refine ⟨s.pool .medium, lm, s.data, ?_, p.of_pool (setPool_pool ..), List.Perm.refl _, ⟨fun _ _ => rfl,
      fun _ => rfl, fun _ _ => rfl, ?_⟩, .refl _ _⟩
    · rw [if_neg (not_not.mpr hmax), ← hmax, putMedium_pool, putMedium_self]
      rfl
    · show (s.chunkNode c).v = _
      rw [← hmax, ← hkey]
  · obtain ⟨t, lm', hrun, hpool, hperm, hre⟩ := updateChunkPool_spec p hc hty
      (show newMaxSize (s.medium c) l size * 4096 < 2 ^ 31 by omega)
    refine ⟨t, lm', _, ?_, hpool, hperm, hre, (hre.runs .medium).data.trans
      (.setMedium (d := {s.medium c with maxSize := newMaxSize (s.medium c) l size}) (mem_headerBytes hc)
        fun q _ hne => absurd ?_ hne)⟩
    · rw [if_pos hmax, hrun, Exec.ok_bind, setPool_medium]
      rfl
    · rw [setPool_medium]

/-! ### Allocation -/

section Malloc
variable {s : Shm} {lm l rest : List Nat} {c n len : Nat}

/-- Without a free unit, or with a first one that is too small, an assertion fails. -/
theorem mallocChunkMedium_fails (m : MediumChunk s c l)
    (h : ∀ n ∈ l.head?, unitSize (s.medium c) n < mediumPages len) :
    mallocChunkMedium s c len = .error .assertion := by
  unfold mallocChunkMedium
  simp only [m.header, decide_true, require_true, Exec.ok_bind, lower_medium m.layout]
  cases hl : l.head? with
  | none => rfl
  | some n =>
    have hlt : ¬(unitSize (s.medium c) n ≥ mediumPages len) := Nat.not_le.mpr (h n hl)
    simp only [Option.elim, Exec.ok_bind]
    rw [show ((s.medium c).tree.heap n).v.size = unitSize (s.medium c) n from rfl,
      show alignSize len 4096 / 4096 % 2 ^ 16 = mediumPages len from rfl, decide_eq_false hlt]
    rfl

/-- Nothing is split off at the start of a unit, which is marked. -/
theorem splitMediumUnit_zero {d : ChunkMediumDetial} {l : List Nat} {n : Nat} (h : Layout d l)
    (hn : n ∈ l) (d' : ChunkMediumDetial) : splitMediumUnit d n 0 ≠ .ok d' := by
  intro hsplit
  have hpos : (d.tree.heap n).v.size > 0 := (h.unitSize_le hn).1
  have hup := ((h.parts.mem n).mp hn).1
  unfold splitMediumUnit at hsplit
  simp only at hsplit
  rw [if_pos hpos, h.index n hn, Nat.add_zero] at hsplit
  obtain ⟨-, -, hadd⟩ := Exec.bind_ok hsplit
  obtain ⟨t, -, hset⟩ := Exec.bind_ok hadd
  unfold setMediumUnit at hset
  obtain ⟨_, hnot, -⟩ := Exec.bind_ok hset
  have := require_ok hnot
  rw [show bitmapGet (d.setTree t).bitmapUp n = true from hup] at this
  cases this

/-- A request for no pages would mark the start of the first unit again. -/
theorem mallocChunkMedium_zero (m : MediumChunk s c l) (h₀ : mediumPages len = 0) (r : Shm × Nat) :
    mallocChunkMedium s c len ≠ .ok r := by
  intro hrun
  unfold mallocChunkMedium at hrun
  simp only [m.header, decide_true, require_true, Exec.ok_bind, lower_medium m.layout] at hrun
  cases hl : l.head? with
  | none =>
    rw [hl] at hrun
    cases hrun
  | some n =>
    have hn : n ∈ l := List.mem_of_head? hl
    simp only [hl, Option.elim, Exec.ok_bind] at hrun
    obtain ⟨-, -, hrun⟩ := Exec.bind_ok hrun
    obtain ⟨d, hsplit, -⟩ := Exec.bind_ok hrun
    rw [show alignSize len 4096 / 4096 % 2 ^ 16 = 0 from h₀] at hsplit
    exact splitMediumUnit_zero m.layout hn d hsplit

theorem mallocChunkMedium_spec (p : ChunkPool s .medium lm) (hc : c ∈ lm)
    (m : MediumChunk s c (n :: rest)) (h₀ : 0 < mediumPages len)
    (hfit : mediumPages len ≤ unitSize (s.medium c) n) :
    ∃ t d' data l' lm',
      mallocChunkMedium s c len = .ok ((s.setPool .medium t).putMedium c d' data, c + n * 4096) ∧
      ChunkPool (s.setPool .medium t) .medium lm' ∧ lm'.Perm lm ∧
      Rekeyed s t lm c (d'.maxSize * 4096) ∧
      Taken (s.medium c) (n :: rest) n (mediumPages len) d' l' ∧
      (d'.maxSize = if (s.medium c).maxSize ≤ unitSize (s.medium c) n then newMaxSize d' l' 0
        else (s.medium c).maxSize) ∧
      SameData (mediumBytes lm c (TakenNode (s.medium c) (n :: rest) n (mediumPages len))) s.data data := by
  have hn : n ∈ n :: rest := List.mem_cons_self
  have hindex := m.layout.index n hn
  have hown := m.layout.own hn
  obtain ⟨d₁, t₁, l', hsplit, hdel, hmax, htaken⟩ := m.layout.take hn h₀ hfit
  generalize hd₂ : ({d₁.setTree t₁ with
    bitmapType := bitmapSet d₁.bitmapType n,
    freeSize := (d₁.freeSize + 2 ^ 16 - mediumPages len) % 2 ^ 16} : ChunkMediumDetial) = d₂ at htaken
  have hmax₂ : d₂.maxSize = (s.medium c).maxSize := by rw [← hd₂, ← hmax]; rfl
  have hclear : ∀ k, Taken (s.medium c) (n :: rest) n (mediumPages len)
      (clearMediumNode {d₂ with maxSize := k} n) l' := fun k =>
    htaken.clear hn h₀ rfl rfl rfl rfl rfl
  have hnew : ∀ k, newMaxSize (clearMediumNode {d₂ with maxSize := k} n) l' 0 = newMaxSize d₂ l' 0 := by
    intro k
    unfold newMaxSize
    cases he : l'.getLast? with
    | none => rfl
    | some q =>
      have hne : q ≠ n := by
        rintro rfl
        exact htaken.gone (List.mem_of_getLast? he)
      exact congrArg (fun x : MediumNode => x.v.size) (Rbtree.modify_heap_ne hne)
  -- the call up to the refresh of `max_size`
  have hrun : mallocChunkMedium s c len = do
      let s' ← if unitSize (s.medium c) n ≥ d₂.maxSize then checkChunkMediumMax (s.setMedium c d₂) c 0
        else pure (s.setMedium c d₂)
      return (s'.setMedium c (clearMediumNode (s'.medium c) n), c + n * 4096) := by
    unfold mallocChunkMedium
    simp only [m.header, decide_true, require_true, Exec.ok_bind, lower_medium m.layout, List.head?_cons,
      Option.elim, hindex, hown]
    rw [show ((s.medium c).tree.heap n).v.size = unitSize (s.medium c) n from rfl,
      show alignSize len 4096 / 4096 % 2 ^ 16 = mediumPages len from rfl,
      decide_eq_true (show unitSize (s.medium c) n ≥ mediumPages len from hfit), Bool.and_self,
      require_true, Exec.ok_bind, hsplit, Exec.ok_bind, hdel, Exec.ok_bind]
    subst hd₂
    simp only [setMedium_medium]
    split <;> rfl
  have p₂ : ChunkPool (s.setMedium c d₂) .medium lm := p.setMedium c d₂
  have hdata₂ : SameData (mediumBytes lm c (TakenNode (s.medium c) (n :: rest) n (mediumPages len))) s.data
      (s.setMedium c d₂).data := .setMedium_nodes hc fun q => htaken.node
  have hput : ∀ t data, ((((s.setMedium c d₂).setPool .medium t).putMedium c
      {d₂ with maxSize := newMaxSize d₂ l' 0} data).medium c).tree = d₂.tree := fun t data => by rw [putMedium_medium]
  -- the node that is cleared is the unit's
  have hdata₄ : ∀ {s₃ : Shm} (k : Nat), (s₃.medium c).tree = d₂.tree →
      SameData (mediumBytes lm c (TakenNode (s.medium c) (n :: rest) n (mediumPages len))) s₃.data
        (s₃.setMedium c (clearMediumNode {d₂ with maxSize := k} n)).data := fun {s₃} k htree =>
    .setMedium_nodes hc fun q hq => by
      by_cases hqn : q = n
      · exact .inl (hqn ▸ hn)
      · refine absurd ?_ hq
        rw [htree]
        exact Rbtree.modify_heap_ne hqn
  by_cases hge : (s.medium c).maxSize ≤ unitSize (s.medium c) n
  · obtain ⟨t, lm', data, hcheck, hpool, hperm, hre, hdata⟩ := checkChunkMediumMax_spec (l := l') p₂ hc
      (congrArg ChunkHeader.type m.header) (by rw [setMedium_medium]; exact htaken.layout)
      (by rw [setMedium_medium, hmax₂]; exact congrArg ChunkTreeValue.maxsize m.key)
      (show 0 ≤ 255 by omega)
    rw [setMedium_medium] at hcheck hre
    refine ⟨t, clearMediumNode {d₂ with maxSize := newMaxSize d₂ l' 0} n, _, l', lm', ?_, hpool.of_medium,
      hperm, ⟨hre.outside, hre.own, hre.keys, hre.key⟩, hclear (newMaxSize d₂ l' 0), ?_,
      (hdata₂.trans (hdata.mono fun y hy => .inl hy)).trans (hdata₄ (newMaxSize d₂ l' 0) (hput t data))⟩
    · rw [hrun, if_pos (by rw [hmax₂]; exact hge), hcheck]
      simp only [Exec.ok_bind, Exec.pure_eq, putMedium_medium]
      rw [putMedium_setMedium, setMedium_put s, putMedium_setPool]
      rfl
    · rw [if_pos hge, hnew]
      rfl
  · refine ⟨s.pool .medium, clearMediumNode {d₂ with maxSize := d₂.maxSize} n, _, l', lm, ?_,
      p.of_pool (setPool_pool ..), List.Perm.refl _, ⟨fun _ _ => rfl, fun _ => rfl, fun _ _ => rfl, ?_⟩,
      hclear d₂.maxSize, ?_, hdata₂.trans (hdata₄ d₂.maxSize (by rw [setMedium_medium]))⟩
    · rw [hrun, if_neg (by rw [hmax₂]; exact hge), putMedium_pool]
      simp only [Exec.ok_bind, Exec.pure_eq, setMedium_medium]
      rw [setMedium_put s, putMedium_setMedium]
      rfl
    · show (s.chunkNode c).v = ⟨(s.chunkNode c).v.index, d₂.maxSize * 4096⟩
      rw [m.key, hmax₂]
    · rw [if_neg hge]
      exact hmax₂

end Malloc

/-! ### Giving back -/

section Free
variable {s : Shm} {lm l : List Nat} {c : Nat}

/-- An offset that is not the start of a unit in use is not freed. -/
theorem freeChunkMedium_invalid (m : MediumChunk s c l) {offset : Nat}
    (h : 256 ≤ offset / 4096 % 2 ^ 16 ∨ offset % 4096 ≠ 0 ∨
      bitmapGet (s.medium c).bitmapType (offset / 4096 % 2 ^ 16) = false) :
    freeChunkMedium s c offset = .ok (s, false) := by
  unfold freeChunkMedium
  simp only [m.header, decide_true, require_true, Exec.ok_bind]
  by_cases h₁ : 256 ≤ offset / 4096 % 2 ^ 16 ∨ offset % 4096 ≠ 0
  · rw [if_pos (by simpa using h₁)]
    rfl
  · rw [if_neg (by simpa using h₁), (or_assoc.mpr h).resolve_left h₁]
    rfl

/-- The call depends on the page of an aligned offset only. -/
theorem freeChunkMedium_page {offset : Nat} (h : offset % 4096 = 0) :
    freeChunkMedium s c offset = freeChunkMedium s c (offset / 4096 % 2 ^ 16 * 4096) := by
  have h₁ : offset / 4096 % 2 ^ 16 * 4096 / 4096 % 2 ^ 16 = offset / 4096 % 2 ^ 16 := by omega
  have h₂ : offset / 4096 % 2 ^ 16 * 4096 % 4096 = 0 := by omega
  unfold freeChunkMedium
  rw [h, h₁, h₂]

/-- An offset is the start of a unit in use, or nothing is done. -/
theorem MediumChunk.free_cases (m : MediumChunk s c l) (offset : Nat) :
    (freeChunkMedium s c offset = .ok (s, false) ∧
      (offset % 4096 = 0 → ∀ k, ¬UsedUnit (s.medium c) (offset / 4096 % 2 ^ 16) k)) ∨
    ∃ k, offset % 4096 = 0 ∧ UsedUnit (s.medium c) (offset / 4096 % 2 ^ 16) k ∧
      freeChunkMedium s c offset = freeChunkMedium s c (offset / 4096 % 2 ^ 16 * 4096) := by
  by_cases hvalid : 256 ≤ offset / 4096 % 2 ^ 16 ∨ offset % 4096 ≠ 0 ∨
      bitmapGet (s.medium c).bitmapType (offset / 4096 % 2 ^ 16) = false
  · refine .inl ⟨freeChunkMedium_invalid m hvalid, fun halign k hu => ?_⟩
    have hlt := (m.layout.parts.range _ hu.2.start).2
    rcases hvalid with hv | hv | hv
    · omega
    · exact hv halign
    · rw [hu.1] at hv
      cases hv
  · rw [not_or, not_or, not_not] at hvalid
    obtain ⟨-, halign, htype⟩ := hvalid
    obtain ⟨k, hu⟩ := m.layout.usedUnit (Bool.eq_true_of_not_eq_false htype)
    exact .inr ⟨k, halign, hu, freeChunkMedium_page halign⟩

theorem freeChunkMedium_spec (p : ChunkPool s .medium lm) (hc : c ∈ lm) (m : MediumChunk s c l)
    {q k : Nat} (hu : UsedUnit (s.medium c) q k) :
    ∃ t d' data l' lm' index n,
      freeChunkMedium s c (q * 4096) =
        .ok ((s.setPool .medium t).putMedium c d' data, decide (d'.freeSize = 255)) ∧
      ChunkPool (s.setPool .medium t) .medium lm' ∧ lm'.Perm lm ∧
      Rekeyed s t lm c (d'.maxSize * 4096) ∧
      Released (s.medium c) l q d' l' index n ∧
      (d'.maxSize = if (s.medium c).maxSize ≤ n then n else (s.medium c).maxSize) ∧
      SameData (mediumBytes lm c fun p => p ∈ q :: l) s.data data := by
  have hrange := m.layout.parts.range q hu.2.start
  have hpage : q * 4096 / 4096 % 2 ^ 16 = q := by omega
  have halign : q * 4096 % 4096 = 0 := by omega
  obtain ⟨d₁, u₁, prev, d₂, u₂, d₃, l', hclear, hnext, hmerge₁, hprev, hmerge₂, hadd, hmax, hrel⟩ :=
    m.layout.release hu
  generalize hd₄ : ({d₃ with freeSize := (d₃.freeSize + k) % 2 ^ 16} : ChunkMediumDetial) = d₄ at hrel
  have hmax₄ : d₄.maxSize = (s.medium c).maxSize := by rw [← hd₄, ← hmax]
  have hsize := hrel.layout.unitSize_le hrel.new.1
  rw [hrel.new.2] at hsize
  have hrun : freeChunkMedium s c (q * 4096) = do
      let s' ← if u₂.size ≥ d₄.maxSize then checkChunkMediumMax (s.setMedium c d₄) c u₂.size
        else pure (s.setMedium c d₄)
      return (s', (s'.medium c).freeSize = 255) := by
    unfold freeChunkMedium
    simp only [m.header, decide_true, require_true, Exec.ok_bind, hpage, halign]
    rw [if_neg (by simpa using hrange.2), hu.1]
    simp only at hnext hmerge₁
    simp only [unmark_bitmapType, Bool.not_true, Bool.false_eq_true, if_false, getMediumUnit_ok m.layout.mirror hrange.2,
      hu.2.start, Exec.ok_bind, require_true, hclear, hnext, Nat.add_sub_cancel_left, hmerge₁, hprev,
      hmerge₂, hadd, hd₄, setMedium_medium]
    rw [hmax, ← hmax₄]
  have p₄ : ChunkPool (s.setMedium c d₄) .medium lm := p.setMedium c d₄
  have hdata₄ : SameData (mediumBytes lm c fun p => p ∈ q :: l) s.data (s.setMedium c d₄).data :=
    .setMedium_nodes hc fun p hp => by
      by_contra hno
      rw [List.mem_cons, not_or] at hno
      exact hp (hrel.outside p hno.2 hno.1)
  by_cases hge : (s.medium c).maxSize ≤ u₂.size
  · obtain ⟨t, lm', data, hcheck, hpool, hperm, hre, hdata⟩ := checkChunkMediumMax_spec (l := l') p₄
      hc (congrArg ChunkHeader.type m.header) (by rw [setMedium_medium]; exact hrel.layout)
      (by rw [setMedium_medium, hmax₄]; exact congrArg ChunkTreeValue.maxsize m.key) hsize.2
    have hnew : newMaxSize d₄ l' u₂.size = u₂.size := if_neg (by omega)
    rw [setMedium_medium, hnew] at hcheck hre
    refine ⟨t, {d₄ with maxSize := u₂.size}, data, l', lm', u₂.index, u₂.size, ?_, hpool.of_medium, hperm,
      ⟨hre.outside, hre.own, hre.keys, hre.key⟩, hrel.setMax _, by rw [if_pos hge],
      hdata₄.trans (hdata.mono fun y hy => .inl hy)⟩
    rw [hrun, if_pos (by rw [hmax₄]; exact hge), hcheck]
    simp only [Exec.ok_bind, Exec.pure_eq, putMedium_medium]
    rw [setMedium_put s, putMedium_setPool]
  · refine ⟨s.pool .medium, d₄, _, l', lm, u₂.index, u₂.size, ?_, p.of_pool (setPool_pool ..),
      List.Perm.refl _, ⟨fun _ _ => rfl, fun _ => rfl, fun _ _ => rfl, ?_⟩, hrel,
      by rw [if_neg hge, hmax₄], hdata₄⟩
    · rw [hrun, if_neg (by rw [hmax₄]; exact hge), putMedium_pool]
      simp only [Exec.ok_bind, Exec.pure_eq, setMedium_medium]
      rfl
    · show (s.chunkNode c).v = ⟨(s.chunkNode c).v.index, d₄.maxSize * 4096⟩
      rw [m.key, hmax₄]

/-- The search for the next unit starts at the mark of the unit itself. -/
theorem checkChunkMedium_spec (m : MediumChunk s c l) (offset : Nat) :
    checkChunkMedium s c offset = .ok 0 := by
  unfold checkChunkMedium
  simp only [m.header, decide_true, require_true, Exec.ok_bind]
  by_cases h₁ : 256 ≤ offset / 4096 % 2 ^ 16 ∨ offset % 4096 ≠ 0
  · rw [if_pos (by simpa using h₁)]
    rfl
  · rw [if_neg (by simpa using h₁)]
    rw [not_or, Nat.not_le] at h₁
    cases ht : bitmapGet (s.medium c).bitmapType (offset / 4096 % 2 ^ 16) with
    | false => rfl
    | true =>
      have hup := m.layout.parts.sub _ ht
      obtain ⟨r, hrun, hfirst⟩ := bitmapFfsp_first (s.medium c).bitmapUp h₁.1 (by omega)
      have hr : r = offset / 4096 % 2 ^ 16 := by
        rcases hfirst with ⟨h₂, -, -, h₃⟩ | ⟨-, h₃⟩
        · by_contra hne
          have := h₃ _ (Nat.le_refl _) (by omega)
          rw [hup] at this
          cases this
        · have := h₃ _ (Nat.le_refl _) h₁.1
          rw [hup] at this
          cases this
      simp only [Bool.not_true, Bool.false_eq_true, if_false, getMediumUnit_ok m.layout.mirror h₁.1, hup,
        require_true, Exec.ok_bind, findNextMediumUnit, hrun, hr, Nat.sub_self, Nat.zero_mul,
        Exec.pure_eq]

end Free

/-! ### The chunk after a call -/

theorem ChunkFrame.putMedium {s s' : Shm} {c : Nat} {l : List Nat} (f : ChunkFrame s s' .medium c l)
    (d : ChunkMediumDetial) (data : Bytes) : ChunkFrame s (s'.putMedium c d data) .medium c l where
  arenas := f.arenas
  arenaAddrs := f.arenaAddrs
  sys := f.sys
  header := f.header
  small := f.small
  medium q hq := (if_neg hq).trans (f.medium q hq)
  key := f.key
  node := f.node
  smallPool := f.smallPool
  mediumPool := f.mediumPool

theorem MediumChunk.update {s : Shm} {c maxsize : Nat} {lm l l' : List Nat} {d' : ChunkMediumDetial}
    {t : Rbtree.State Nat ChunkTreeValue} (m : MediumChunk s c l) (hl : Layout d' l')
    (hre : Rekeyed s t lm c maxsize) (hk : maxsize = d'.maxSize * 4096) (hmax : d'.maxSize ≤ 255)
    (data : Bytes) : MediumChunk ((s.setPool .medium t).putMedium c d' data) c l' := by
  refine ⟨m.header, by rwa [putMedium_medium], ?_, by rwa [putMedium_medium]⟩
  rw [putMedium_medium, ← hk]
  show (t.heap c).v = _
  rw [hre.key, m.key]

/-- A medium chunk depends on its own header and layout only. -/
theorem MediumChunk.frame {s s' : Shm} {type : ChunkType} {c q : Nat} {lm l : List Nat}
    (m : MediumChunk s q l) (f : ChunkFrame s s' type c lm) (hq : q ≠ c) : MediumChunk s' q l := by
  obtain ⟨h₁, h₂, h₃, h₄⟩ := m
  exact ⟨by rw [f.header q hq, h₁], by rwa [f.medium q hq], by rw [f.key q hq, f.medium q hq, h₃],
    by rwa [f.medium q hq]⟩

/-- An allocation that completes takes the first unit of the tree. -/
theorem mallocChunkMedium_ok {s s' : Shm} {c len pos : Nat} {l : List Nat} (m : MediumChunk s c l)
    (h : mallocChunkMedium s c len = .ok (s', pos)) :
    ∃ n rest, l = n :: rest ∧ 0 < mediumPages len ∧ mediumPages len ≤ unitSize (s.medium c) n := by
  by_cases h₀ : mediumPages len = 0
  · exact absurd h (mallocChunkMedium_zero m h₀ _)
  · by_cases hfit : ∀ n ∈ l.head?, unitSize (s.medium c) n < mediumPages len
    · rw [mallocChunkMedium_fails m hfit] at h
      cases h
    · cases l with
      | nil => simp at hfit
      | cons n rest => exact ⟨n, rest, rfl, by omega, by simpa using hfit⟩

/-- What an allocation that completes does. -/
theorem mallocChunkMedium_step {s s' : Shm} {lm l : List Nat} {c len pos : Nat}
    (p : ChunkPool s .medium lm) (hc : c ∈ lm) (m : MediumChunk s c l)
    (h : mallocChunkMedium s c len = .ok (s', pos)) :
    ∃ n rest l' lm', l = n :: rest ∧ 0 < mediumPages len ∧
      mediumPages len ≤ unitSize (s.medium c) n ∧ pos = c + n * 4096 ∧ MediumChunk s' c l' ∧
      ChunkPool s' .medium lm' ∧ lm'.Perm lm ∧ ChunkFrame s s' .medium c lm ∧
      SameRuns (mediumBytes lm c (TakenNode (s.medium c) l n (mediumPages len))) s s' ∧
      Taken (s.medium c) (n :: rest) n (mediumPages len) (s'.medium c) l' ∧
      (s'.medium c).maxSize = if (s.medium c).maxSize ≤ unitSize (s.medium c) n then
        newMaxSize (s'.medium c) l' 0 else (s.medium c).maxSize := by
  obtain ⟨n, rest, rfl, h₀, hfit⟩ := mallocChunkMedium_ok m h
  obtain ⟨t, d', data, l', lm', hrun, hpool, hperm, hre, htaken, hmax, hdata⟩ :=
    mallocChunkMedium_spec p hc m h₀ hfit
  rw [hrun] at h
  obtain ⟨rfl, rfl⟩ := Prod.mk.inj (Except.ok.inj h)
  have hle : d'.maxSize ≤ 255 := by
    rw [hmax]
    split
    · exact newMaxSize_le htaken.layout (by omega)
    · exact m.maxSize
  refine ⟨n, rest, l', lm', rfl, h₀, hfit, rfl, m.update htaken.layout hre rfl hle data,
    hpool.of_pool rfl, hperm, hre.frame.putMedium d' data, ?_, ?_, ?_⟩
  · exact ⟨rfl, rfl, rfl, rfl, hdata⟩
  · rwa [putMedium_medium]
  · rwa [putMedium_medium]

/-- What giving back a unit in use does. -/
theorem freeChunkMedium_step {s : Shm} {lm l : List Nat} {c q k : Nat} (p : ChunkPool s .medium lm)
    (hc : c ∈ lm) (m : MediumChunk s c l) (hu : UsedUnit (s.medium c) q k) :
    ∃ s' l' lm' index n,
      freeChunkMedium s c (q * 4096) = .ok (s', decide ((s'.medium c).freeSize = 255)) ∧
      MediumChunk s' c l' ∧ ChunkPool s' .medium lm' ∧ lm'.Perm lm ∧ ChunkFrame s s' .medium c lm ∧
      SameRuns (mediumBytes lm c fun p => p ∈ q :: l) s s' ∧ Released (s.medium c) l q (s'.medium c) l' index n ∧
      (s'.medium c).maxSize = if (s.medium c).maxSize ≤ n then n else (s.medium c).maxSize := by
  obtain ⟨t, d', data, l', lm', index, n, hrun, hpool, hperm, hre, hrel, hmax, hdata⟩ :=
    freeChunkMedium_spec p hc m hu
  have hle : d'.maxSize ≤ 255 := by
    have := hrel.layout.unitSize_le hrel.new.1
    rw [hrel.new.2] at this
    have := m.maxSize
    rw [hmax]
    split <;> omega
  refine ⟨_, l', lm', index, n, by rw [putMedium_medium]; exact hrun, m.update hrel.layout hre rfl hle data,
    hpool.of_pool rfl, hperm, hre.frame.putMedium d' data, ?_, ?_, ?_⟩
  · exact ⟨rfl, rfl, rfl, rfl, hdata⟩
  · rwa [putMedium_medium]
  · rwa [putMedium_medium]

/-! ### A new chunk -/

theorem addMediumUnit_first {d : ChunkMediumDetial} (hup : ∀ p, bitmapGet d.bitmapUp p = false)
    (hdown : ∀ p, bitmapGet d.bitmapDown p = false) (htype : ∀ p, bitmapGet d.bitmapType p = false)
    (htree : Holds mediumMacros d.tree []) (hfree : d.freeSize = 255) :
    ∃ d', addMediumUnit d 255 1 = .ok d' ∧ Layout d' [1] ∧ d'.maxSize = d.maxSize ∧
      unitSize d' 1 = 255 ∧ ∀ q k, ¬UsedUnit d' q k := by
  have hm : Mirror d := fun p _ => by rw [hdown, hup]
  obtain ⟨t, a, b, hrun, hab, hholds, hv, -⟩ := addMediumUnit_ok 255 hm htree (by decide) (by decide)
    (hup 1) List.not_mem_nil
  obtain ⟨rfl, rfl⟩ := List.append_eq_nil_iff.mp hab.symm
  have hmark : bitmapGet (bitmapSet d.bitmapUp 1) = Function.update (fun _ => false) 1 true := by
    rw [bitmapGet_set_eq]
    congr 1
    funext p
    exact hup p
  have hone : ∀ p, Function.update (fun _ => false) 1 true p = true ↔ p = 1 := by
    intro p
    by_cases h : p = 1 <;> simp [h]
  have hsize : (t.heap 1).v.size = 255 := by rw [hv]
  refine ⟨_, hrun, ⟨⟨?_, fun p hp => ?_, fun p hp => ?_, by simp, fun p => ?_, fun p hp => ?_⟩,
    fun p q hpq => ?_, Mirror.mark (d := d.setTree t) hm (by decide), hholds, fun p hp => ?_, ?_⟩, rfl,
    hsize, fun q k hq => ?_⟩
  · show bitmapGet (bitmapSet d.bitmapUp 1) 1 = true
    rw [hmark, hone]
  · have hp' : bitmapGet (bitmapSet d.bitmapUp 1) p = true := hp
    rw [hmark, hone] at hp'
    omega
  · have hp' : bitmapGet d.bitmapType p = true := hp
    rw [htype] at hp'
    cases hp'
  · show p ∈ [1] ↔ bitmapGet (bitmapSet d.bitmapUp 1) p = true ∧ bitmapGet d.bitmapType p = false
    rw [hmark, hone, htype, List.mem_singleton]
    simp
  · obtain rfl := List.mem_singleton.mp hp
    show Segment (bitmapGet (bitmapSet d.bitmapUp 1)) 256 1 (t.heap 1).v.size
    rw [hmark, hsize]
    exact ⟨by simp, by decide, by decide, fun j h₁ _ => Function.update_of_ne (by omega) .., .inl rfl⟩
  · obtain rfl := List.mem_singleton.mp hpq.left
    obtain rfl := List.mem_singleton.mp hpq.right
    have : 1 + (t.heap 1).v.size = 1 := hpq.eq
    omega
  · obtain rfl := List.mem_singleton.mp hp
    show (t.heap 1).v.index = 1
    rw [hv]
  · show d.freeSize = (t.heap 1).v.size + 0
    rw [hfree, hsize]
  · have : bitmapGet d.bitmapType q = true := hq.1
    rw [htype] at this
    cases this

theorem initChunk_medium_spec {s : Shm} {lm : List Nat} {c : Nat} (p : ChunkPool s .medium lm)
    (hc : c ∉ lm) (hn : c ≠ 0) (hi : pos2index c < 2 ^ 31) :
    ∃ s' lm', initChunk s c c .medium = .ok s' ∧ ChunkPool s' .medium lm' ∧ lm'.Perm (c :: lm) ∧
      MediumChunk s' c [1] ∧ (s'.medium c).maxSize = 255 ∧ unitSize (s'.medium c) 1 = 255 ∧
      (∀ q k, ¬UsedUnit (s'.medium c) q k) ∧ ChunkFrame s s' .medium c lm ∧
      SameRuns (mediumBytes (c :: lm) c fun _ => True) s s' := by
  let s₁ := writeHeader s c .medium
  let d₀ : ChunkMediumDetial := {s₁.medium c with
    maxSize := 255,
    freeSize := 255,
    tree := Rbtree.init mediumMacros (s₁.medium c).tree.heap}
  have hzero : ∀ p, bitmapGet (fun _ => 0#64) p = false := fun p => BitVec.getLsbD_zero
  have hmedium : s₁.medium c = _ := writeHeader_medium s c .medium
  have hup : d₀.bitmapUp = fun _ => 0 := congrArg ChunkMediumDetial.bitmapUp hmedium
  have hdown : d₀.bitmapDown = fun _ => 0 := congrArg ChunkMediumDetial.bitmapDown hmedium
  have htype : d₀.bitmapType = fun _ => 0 := congrArg ChunkMediumDetial.bitmapType hmedium
  obtain ⟨d, hadd, hlayout, hmax, hsize, hused⟩ := addMediumUnit_first (d := d₀)
    (by rw [hup]; exact hzero) (by rw [hdown]; exact hzero) (by rw [htype]; exact hzero) (Holds.init _) rfl
  have hmax : d.maxSize = 255 := hmax
  have p₁ : ChunkPool (s₁.setMedium c d) .medium lm := (p.writeHeader .medium hc).setMedium c d
  have hnode : s₁.chunkNode c = _ := writeHeader_node s c .medium
  obtain ⟨t, lm', hins, hpool, hperm, hre⟩ := insertChunk_spec p₁ hc hn
    (congrArg Rbtree.Node.s hnode) ((congrArg (fun n => n.v.index) hnode).trans_lt hi)
    (show 255 * 4096 < 2 ^ 31 by decide)
  have f₂ : ChunkFrame _ (Shm.setPool _ .medium t) .medium c (c :: lm) := hre.frame
  have hframe : ChunkFrame s ((s₁.setMedium c d).setPool .medium t) .medium c lm :=
    ((writeHeader_frame .medium lm).putMedium d (s₁.setMedium c d).data).trans
      ⟨f₂.arenas, f₂.arenaAddrs, f₂.sys, f₂.header, f₂.small, f₂.medium, f₂.key,
        fun q hq => f₂.node q fun h => hq (by simpa using h), f₂.smallPool, f₂.mediumPool⟩
  refine ⟨_, lm', ?_, hpool, hperm, ⟨?_, ?_, ?_, ?_⟩, ?_, ?_, ?_, hframe, ?_⟩
  · have hmedium' : initChunkMedium s₁ c = .ok (s₁.setMedium c d) := by
      show (addMediumUnit d₀ 255 1 >>= fun d => pure (s₁.setMedium c d)) = _
      rw [hadd]
      rfl
    rw [initChunk_eq, if_neg (by decide), show initChunkMedium _ c = _ from hmedium', Exec.ok_bind,
      getMediumMaxSize, setMedium_medium, hmax, hins]
  · exact writeHeader_header s c .medium
  · rwa [setPool_medium, setMedium_medium]
  · rw [setPool_chunkNode, setPool_medium, setMedium_medium, hmax, hre.key]
    show (⟨(s₁.chunkNode c).v.index, 255 * 4096⟩ : ChunkTreeValue) = _
    rw [hnode]
    rfl
  · rw [setPool_medium, setMedium_medium, hmax]
  · rw [setPool_medium, setMedium_medium, hmax]
  · rwa [setPool_medium, setMedium_medium]
  · rwa [setPool_medium, setMedium_medium]
  · have hnew : c ∈ c :: lm := List.mem_cons_self
    have hset : SameRuns (mediumBytes (c :: lm) c fun _ => True) s₁ (s₁.setMedium c d) :=
      ⟨rfl, rfl, rfl, rfl, .setMedium_nodes hnew fun _ _ => trivial⟩
    exact (writeHeader_runs s c .medium fun y hy => .inl (mem_headerBytes hnew y hy)).trans
      (hset.trans ((hre.runs .medium).mono fun y hy => .inl hy))

end ShmMalloc
