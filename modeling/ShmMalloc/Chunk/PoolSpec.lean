import ShmMalloc.Chunk.Model
import ShmMalloc.Rbtree.Delete
import ShmMalloc.Rbtree.Insert

/-! The pools of chunks as sorted lists, and what the calls on them do.

The comparison subtracts in 32 bits, so that it is an order on keys below 2^31 only;
arena indices and sizes of free room are far below. -/
namespace ShmMalloc
open Rbtree (Holds Ascending OrderedOn Keeps)

def ChunkTreeValue.Valid (k : ChunkTreeValue) : Prop := k.index < 2 ^ 31 ∧ k.maxsize < 2 ^ 31

/-- The order of the pools: by the room left, then by the arena. -/
def ChunkTreeValue.Le (a b : ChunkTreeValue) : Prop :=
  a.maxsize < b.maxsize ∨ a.maxsize = b.maxsize ∧ a.index ≤ b.index

theorem bmod_of_lt {x : Int} (h₁ : -(2 ^ 31) ≤ x) (h₂ : x < 2 ^ 31) : x.bmod (2 ^ 32) = x := by
  rw [Int.bmod_def]
  split <;> omega

theorem chunkTreeCompare_of_valid {a b : ChunkTreeValue} (ha : a.Valid) (hb : b.Valid) :
    chunkTreeCompare a b =
      if a.maxsize = b.maxsize then (a.index : Int) - b.index else (a.maxsize : Int) - b.maxsize := by
  obtain ⟨h₁, h₂⟩ := ha
  obtain ⟨h₃, h₄⟩ := hb
  unfold chunkTreeCompare
  rw [bmod_of_lt (by omega) (by omega), bmod_of_lt (by omega) (by omega)]

theorem chunkMacros_ordered :
    OrderedOn chunkMacros ChunkTreeValue.Valid ChunkTreeValue.Le where
  total a b := by
    unfold ChunkTreeValue.Le
    omega
  trans a b c := by
    unfold ChunkTreeValue.Le
    omega
  neg a b ha hb := by
    show chunkTreeCompare a b < 0 ↔ _
    rw [chunkTreeCompare_of_valid ha hb]
    unfold ChunkTreeValue.Le
    split <;> omega
  pos a b ha hb := by
    show 0 < chunkTreeCompare a b ↔ _
    rw [chunkTreeCompare_of_valid ha hb]
    unfold ChunkTreeValue.Le
    split <;> omega

/-- The pool for chunks of this type holds these chunks, in the order of their keys. -/
structure ChunkPool (s : Shm) (type : ChunkType) (l : List Nat) : Prop where
  holds : Holds chunkMacros (s.pool type) l
  ascending : Ascending ChunkTreeValue.Le s.chunkNode l
  valid : ∀ q ∈ l, (s.chunkNode q).v.Valid

section Fields
variable (s : Shm) (type : ChunkType) (t : Rbtree.State Nat ChunkTreeValue)

@[simp] theorem pool_heap : (s.pool type).heap = s.chunkNode := rfl

@[simp] theorem setPool_chunkNode : (s.setPool type t).chunkNode = t.heap := by
  unfold Shm.setPool
  split <;> rfl

@[simp] theorem setPool_pool : (s.setPool type t).pool type = t := by
  unfold Shm.setPool Shm.pool
  by_cases h : type = .small <;> simp [h]

/-- The pool is written as it is. -/
theorem setPool_self (data : Bytes) : {s.setPool type (s.pool type) with data := data} = {s with data := data} := by
  unfold Shm.setPool
  split
  · next h => simp [Shm.pool, h]
  · next h => simp [Shm.pool, h]

@[simp] theorem setPool_header : (s.setPool type t).header = s.header := by
  unfold Shm.setPool
  split <;> rfl

@[simp] theorem setPool_medium : (s.setPool type t).medium = s.medium := by
  unfold Shm.setPool
  split <;> rfl

@[simp] theorem setPool_small : (s.setPool type t).small = s.small := by
  unfold Shm.setPool
  split <;> rfl

end Fields

/-- Only the nodes of these chunks, and the key of `chunk`, are written. -/
structure Rekeyed (s : Shm) (t : Rbtree.State Nat ChunkTreeValue) (l : List Nat)
    (chunk maxsize : Nat) : Prop where
  outside : ∀ q, q ∉ l → t.heap q = s.chunkNode q
  own : ∀ q, (t.heap q).s = (s.chunkNode q).s
  keys : ∀ q, q ≠ chunk → (t.heap q).v = (s.chunkNode q).v
  key : (t.heap chunk).v = ⟨(s.chunkNode chunk).v.index, maxsize⟩

/-- A node that gets its key goes into the pool it is not in. -/
theorem insert_pool {s : Shm} {type : ChunkType} {l : List Nat} {chunk maxsize : Nat}
    {t₀ : Rbtree.State Nat ChunkTreeValue} (h : Holds chunkMacros t₀ l)
    (ha : Ascending ChunkTreeValue.Le t₀.heap l) (hv : ∀ q ∈ l, (t₀.heap q).v.Valid)
    (hnew : chunk ∉ l) (hn : chunk ≠ 0) (hs : (t₀.heap chunk).s = chunk)
    (hi : (t₀.heap chunk).v.index < 2 ^ 31) (hm : maxsize < 2 ^ 31) :
    ∃ t l', Rbtree.insert chunkMacros (t₀.modify chunk (setMaxsize maxsize)) chunk = .ok t ∧
      ChunkPool (s.setPool type t) type l' ∧ l'.Perm (chunk :: l) ∧
      Keeps (chunk :: l) (t₀.modify chunk (setMaxsize maxsize)) t := by
  have hcell : (t₀.modify chunk (setMaxsize maxsize)).heap chunk = setMaxsize maxsize (t₀.heap chunk) :=
    Rbtree.modify_heap_self ..
  have hout : ∀ q ∈ l, (t₀.modify chunk (setMaxsize maxsize)).heap q = t₀.heap q := by
    intro q hq
    rw [Rbtree.modify_heap_ne]
    rintro rfl
    exact hnew hq
  obtain ⟨t, a, b, hrun, rfl, hholds, hk, -, -, hasc⟩ := Rbtree.insert_ascending chunkMacros_ordered
    (h.modify hnew _) (ha.congr fun q hq => by rw [hout q hq])
    (fun q hq => by rw [hout q hq]; exact hv q hq) (by rw [hcell]; exact ⟨hi, hm⟩) hnew hn
    (by rw [hcell]; exact hs)
  refine ⟨t, _, hrun, ⟨by rw [setPool_pool]; exact hholds, by rw [setPool_chunkNode]; exact hasc, ?_⟩,
    List.perm_middle, hk⟩
  intro q hq
  rw [setPool_chunkNode, hk.key]
  rcases List.mem_cons.mp (List.perm_middle.mem_iff.mp hq) with rfl | hq
  · rw [hcell]
    exact ⟨hi, hm⟩
  · rw [hout q hq]
    exact hv q hq

/-- `init_chunk` puts the chunk in its pool last. -/
theorem insertChunk_spec {s : Shm} {type : ChunkType} {l : List Nat} {chunk maxsize : Nat}
    (p : ChunkPool s type l) (hc : chunk ∉ l) (hn : chunk ≠ 0) (hs : (s.chunkNode chunk).s = chunk)
    (hi : (s.chunkNode chunk).v.index < 2 ^ 31) (hm : maxsize < 2 ^ 31) :
    ∃ t l', insertChunk s chunk type maxsize = .ok (s.setPool type t) ∧
      ChunkPool (s.setPool type t) type l' ∧ l'.Perm (chunk :: l) ∧
      Rekeyed s t (chunk :: l) chunk maxsize := by
  obtain ⟨t, l', hins, hpool, hperm, hk⟩ := insert_pool (s := s) p.holds p.ascending p.valid hc hn hs hi hm
  have hcell : ∀ q, q ≠ chunk → ((s.pool type).modify chunk (setMaxsize maxsize)).heap q =
      s.chunkNode q := fun q hq => Rbtree.modify_heap_ne hq
  have hself : ((s.pool type).modify chunk (setMaxsize maxsize)).heap chunk =
      setMaxsize maxsize (s.chunkNode chunk) := Rbtree.modify_heap_self ..
  refine ⟨t, l', by rw [insertChunk, hins]; rfl, hpool, hperm, fun q hq => ?_, fun q => ?_,
    fun q hq => by rw [hk.key, hcell q hq], by rw [hk.key, hself]; rfl⟩
  · rw [hk.outside q hq, hcell q fun h => hq (h ▸ List.mem_cons_self)]
  · rw [hk.own]
    by_cases hq : q = chunk
    · rw [hq, hself]
      rfl
    · rw [hcell q hq]

/-- `update_chunk_pool`: the chunk gets its new key and its new place. -/
theorem updateChunkPool_spec {s : Shm} {type : ChunkType} {l : List Nat} {chunk maxsize : Nat}
    (p : ChunkPool s type l) (hc : chunk ∈ l) (hty : (s.header chunk).type = type)
    (hm : maxsize < 2 ^ 31) :
    ∃ t l', updateChunkPool s chunk maxsize = .ok (s.setPool type t) ∧
      ChunkPool (s.setPool type t) type l' ∧ l'.Perm l ∧ Rekeyed s t l chunk maxsize := by
  obtain ⟨t₀, hdel, hholds₀, hk₀⟩ := Rbtree.delete_holds p.holds hc
  have hnd := p.holds.nodup
  have hown := p.holds.own hc
  have hkey : ∀ q, (t₀.heap q).v = (s.chunkNode q).v := hk₀.key
  have hasc₀ : Ascending ChunkTreeValue.Le t₀.heap (l.erase chunk) :=
    Ascending.congr (h := s.chunkNode) (List.Pairwise.sublist List.erase_sublist p.ascending)
      fun q _ => hkey q
  obtain ⟨t, l', hins, hpool, hperm, hk⟩ := insert_pool (s := s)
    hholds₀ hasc₀
    (fun q hq => by rw [hkey]; exact p.valid q (List.mem_of_mem_erase hq)) hnd.not_mem_erase
    (p.holds.ne_null hc) ((hk₀.own chunk).trans hown) (by rw [hkey]; exact (p.valid chunk hc).1) hm
  refine ⟨t, l', ?_, hpool, hperm.trans (List.perm_cons_erase hc).symm, ?_⟩
  · unfold updateChunkPool
    simp only [hty, hdel, Exec.ok_bind, hins, Exec.pure_eq]
  · have hcell : ∀ q, q ≠ chunk → (t₀.modify chunk (setMaxsize maxsize)).heap q = t₀.heap q :=
      fun q hq => Rbtree.modify_heap_ne hq
    have hself : (t₀.modify chunk (setMaxsize maxsize)).heap chunk = setMaxsize maxsize (t₀.heap chunk) :=
      Rbtree.modify_heap_self ..
    refine ⟨fun q hq => ?_, fun q => ?_, fun q hq => ?_, ?_⟩
    · have hne : q ≠ chunk := fun h => hq (h ▸ hc)
      have hq' : q ∉ chunk :: l.erase chunk := by
        rw [List.mem_cons, not_or]
        exact ⟨hne, fun h => hq (List.mem_of_mem_erase h)⟩
      rw [hk.outside q hq', hcell q hne]
      exact hk₀.outside q hq
    · rw [hk.own]
      by_cases hq : q = chunk
      · rw [hq, hself]
        exact hk₀.own chunk
      · rw [hcell q hq]
        exact hk₀.own q
    · rw [hk.key, hcell q hq, hkey]
    · rw [hk.key, hself]
      show ChunkTreeValue.mk (t₀.heap chunk).v.index maxsize = _
      rw [hkey]

/-! ### What a call on a chunk leaves alone -/

/-- Arenas, the other chunks and the other pool are as before; of the nodes of chunks only
`c` and those in its pool are written, and only the key of `c`. -/
structure ChunkFrame (s s' : Shm) (type : ChunkType) (c : Nat) (l : List Nat) : Prop where
  arenas : s'.arenas = s.arenas
  arenaAddrs : s'.arenaAddrs = s.arenaAddrs
  sys : s'.sys = s.sys
  header : ∀ q, q ≠ c → s'.header q = s.header q
  small : ∀ q, q ≠ c → s'.small q = s.small q
  medium : ∀ q, q ≠ c → s'.medium q = s.medium q
  key : ∀ q, q ≠ c → (s'.chunkNode q).v = (s.chunkNode q).v
  node : ∀ q, q ∉ c :: l → s'.chunkNode q = s.chunkNode q
  smallPool : type ≠ .small → s'.chunkSmallPool = s.chunkSmallPool
  mediumPool : type = .small → s'.chunkMediumPool = s.chunkMediumPool

/-- The bytes of the context and of the headers of chunks, where the pools of chunks are. -/
def headerBytes (l : List Nat) : Set (Nat × Nat) :=
  {y | y ∈ bytes 0 (2 ^ 20) ∨ ∃ q ∈ l, y ∈ bytes q 4096}

/-- Runs and their pools are as before, and the bytes outside `W` are. -/
structure SameRuns (W : Set (Nat × Nat)) (s s' : Shm) : Prop where
  run : s'.run = s.run
  runNode : s'.runNode = s.runNode
  runPool : s'.runPool = s.runPool
  link : s'.link = s.link
  data : SameData W s.data s'.data

theorem ChunkFrame.refl (s : Shm) (type : ChunkType) (c : Nat) (l : List Nat) :
    ChunkFrame s s type c l :=
  ⟨rfl, rfl, rfl, fun _ _ => rfl, fun _ _ => rfl, fun _ _ => rfl, fun _ _ => rfl, fun _ _ => rfl,
    fun _ => rfl, fun _ => rfl⟩

theorem ChunkFrame.trans {s s' s'' : Shm} {type : ChunkType} {c : Nat} {l : List Nat}
    (f : ChunkFrame s s' type c l) (g : ChunkFrame s' s'' type c l) : ChunkFrame s s'' type c l where
  arenas := g.arenas.trans f.arenas
  arenaAddrs := g.arenaAddrs.trans f.arenaAddrs
  sys := g.sys.trans f.sys
  header q hq := (g.header q hq).trans (f.header q hq)
  small q hq := (g.small q hq).trans (f.small q hq)
  medium q hq := (g.medium q hq).trans (f.medium q hq)
  key q hq := (g.key q hq).trans (f.key q hq)
  node q hq := (g.node q hq).trans (f.node q hq)
  smallPool h := (g.smallPool h).trans (f.smallPool h)
  mediumPool h := (g.mediumPool h).trans (f.mediumPool h)

theorem SameRuns.trans {W : Set (Nat × Nat)} {s s' s'' : Shm} (f : SameRuns W s s') (g : SameRuns W s' s'') :
    SameRuns W s s'' :=
  ⟨g.run.trans f.run, g.runNode.trans f.runNode, g.runPool.trans f.runPool, g.link.trans f.link,
    f.data.trans g.data⟩

theorem SameRuns.mono {W W' : Set (Nat × Nat)} {s s' : Shm} (f : SameRuns W s s') (h : ∀ y ∈ W, y ∈ W') :
    SameRuns W' s s' := ⟨f.run, f.runNode, f.runPool, f.link, f.data.mono h⟩

theorem mem_headerBytes {l : List Nat} {c : Nat} (h : c ∈ l) : ∀ y ∈ bytes c 4096, y ∈ headerBytes l :=
  fun _ hy => .inr ⟨c, h, hy⟩

theorem ChunkFrame.setPool {s : Shm} {type : ChunkType} {c : Nat} {l : List Nat}
    {t : Rbtree.State Nat ChunkTreeValue} (hout : ∀ q, q ∉ c :: l → t.heap q = s.chunkNode q)
    (hkey : ∀ q, q ≠ c → (t.heap q).v = (s.chunkNode q).v) :
    ChunkFrame s (s.setPool type t) type c l := by
  by_cases h : type = .small
  · rw [Shm.setPool, if_pos h]
    exact ⟨rfl, rfl, rfl, fun _ _ => rfl, fun _ _ => rfl, fun _ _ => rfl, hkey, hout, fun h' => absurd h h',
      fun _ => rfl⟩
  · rw [Shm.setPool, if_neg h]
    exact ⟨rfl, rfl, rfl, fun _ _ => rfl, fun _ _ => rfl, fun _ _ => rfl, hkey, hout, fun _ => rfl,
      fun h' => absurd h' h⟩

theorem ChunkFrame.setHeader {s s' : Shm} {type : ChunkType} {c : Nat} {l : List Nat}
    (f : ChunkFrame s s' type c l) (h : ChunkHeader) : ChunkFrame s (s'.setHeader c h) type c l where
  arenas := f.arenas
  arenaAddrs := f.arenaAddrs
  sys := f.sys
  header q hq := (if_neg hq).trans (f.header q hq)
  small := f.small
  medium := f.medium
  key := f.key
  node := f.node
  smallPool := f.smallPool
  mediumPool := f.mediumPool

/-- The nodes of chunks of a pool are in their headers. -/
theorem SameRuns.setPool {s : Shm} {t : Rbtree.State Nat ChunkTreeValue} {l : List Nat} (type : ChunkType)
    (h : ∀ q, q ∉ l → t.heap q = s.chunkNode q) : SameRuns (headerBytes l) s (s.setPool type t) := by
  have hd : SameData (headerBytes l) s.data
      (s.data.wroteContext.wroteNodes (2 ^ 20) 4096 fun c => t.heap c ≠ s.chunkNode c) := by
    refine (SameData.wroteContext fun y hy => .inl hy).trans (.wroteNodes fun q hq y hy => .inr ⟨q, ?_, hy⟩)
    by_contra hql
    exact of_decide_eq_true hq (h q hql)
  unfold Shm.setPool
  split <;> exact ⟨rfl, rfl, rfl, rfl, hd⟩

theorem SameRuns.setHeader {W : Set (Nat × Nat)} {c : Nat} (s : Shm) (h : ChunkHeader)
    (hW : ∀ y ∈ bytes c 4096, y ∈ W) : SameRuns W s (s.setHeader c h) :=
  ⟨rfl, rfl, rfl, rfl, .wrote hW⟩

theorem Rekeyed.frame {s : Shm} {type : ChunkType} {c maxsize : Nat} {l : List Nat}
    {t : Rbtree.State Nat ChunkTreeValue} (h : Rekeyed s t l c maxsize) :
    ChunkFrame s (s.setPool type t) type c l :=
  .setPool (fun q hq => h.outside q fun h => hq (List.mem_cons_of_mem c h)) h.keys

theorem Rekeyed.runs {s : Shm} {c maxsize : Nat} {l : List Nat} {t : Rbtree.State Nat ChunkTreeValue}
    (h : Rekeyed s t l c maxsize) (type : ChunkType) : SameRuns (headerBytes l) s (s.setPool type t) :=
  .setPool type h.outside

/-- The pool of the other type is as before. -/
theorem ChunkPool.frame {s s' : Shm} {type type' : ChunkType} {c : Nat} {l l' : List Nat}
    (p : ChunkPool s type' l') (f : ChunkFrame s s' type c l) (h : type = .small ↔ type' ≠ .small)
    (hd : ∀ q ∈ l', q ∉ c :: l) : ChunkPool s' type' l' := by
  have hnode : ∀ q ∈ l', s'.chunkNode q = s.chunkNode q := fun q hq => f.node q (hd q hq)
  have htree : (s'.pool type').root = (s.pool type').root ∧ (s'.pool type').size = (s.pool type').size := by
    unfold Shm.pool
    by_cases ht : type' = .small
    · have := f.smallPool fun he => (h.mp he) ht
      simp [ht, this]
    · have := f.mediumPool (h.mpr ht)
      simp [ht, this]
  exact ⟨p.holds.congr hnode htree.1 htree.2, p.ascending.congr fun q hq => by rw [hnode q hq],
    fun q hq => by rw [hnode q hq]; exact p.valid q hq⟩

/-- The pool that is written is as before, as long as its nodes are. -/
theorem ChunkPool.of_nodes {s s' : Shm} {type : ChunkType} {l : List Nat} (p : ChunkPool s type l)
    (e : ∀ q ∈ l, s'.chunkNode q = s.chunkNode q) (h₁ : s'.chunkSmallPool = s.chunkSmallPool)
    (h₂ : s'.chunkMediumPool = s.chunkMediumPool) : ChunkPool s' type l :=
  ⟨p.holds.congr e (by simp only [Shm.pool, h₁, h₂]) (by simp only [Shm.pool, h₁, h₂]),
    p.ascending.congr fun q hq => by rw [e q hq], fun q hq => by rw [e q hq]; exact p.valid q hq⟩

/-! ### New chunks -/

/-- `init_chunk` up to the part that depends on the type. -/
def writeHeader (s : Shm) (c : Nat) (type : ChunkType) : Shm :=
  let s := (clearHeader s c).setHeader c ⟨type, c⟩
  {s with
    chunkNode := fun q =>
      if q = c then {s.chunkNode q with s := c, v := ⟨pos2index c, 0⟩} else s.chunkNode q
    data := s.data.wrote c 4096}

section Header
variable (s : Shm) (c : Nat) (type : ChunkType)

theorem initChunk_eq : initChunk s c c type =
    if type = .small then insertChunk (initChunkSmall (writeHeader s c type) c) c type 1
    else initChunkMedium (writeHeader s c type) c >>= fun s =>
      insertChunk s c type (getMediumMaxSize s c) := rfl

@[simp] theorem writeHeader_header : (writeHeader s c type).header c = ⟨type, c⟩ := if_pos rfl

theorem writeHeader_node :
    (writeHeader s c type).chunkNode c = {zeroNode ⟨pos2index c, 0⟩ with s := c} := by
  simp [writeHeader, clearHeader, Shm.setHeader, zeroNode]

@[simp] theorem writeHeader_small : (writeHeader s c type).small c = zeroSmall := if_pos rfl

theorem writeHeader_medium : (writeHeader s c type).medium c =
    {zeroMedium with tree := {(s.medium c).tree with root := 0, size := 0}} := if_pos rfl

theorem writeHeader_runs {W : Set (Nat × Nat)} (h : ∀ y ∈ bytes c 4096, y ∈ W) :
    SameRuns W s (writeHeader s c type) :=
  ⟨rfl, rfl, rfl, rfl, ((SameData.wrote h).trans (.wrote h)).trans (.wrote h)⟩

variable {s c}

theorem writeHeader_node_ne {q : Nat} (h : q ≠ c) :
    (writeHeader s c type).chunkNode q = s.chunkNode q := by
  simp [writeHeader, clearHeader, Shm.setHeader, h]

theorem writeHeader_frame (l : List Nat) : ChunkFrame s (writeHeader s c type) type c l := by
  refine ⟨rfl, rfl, rfl, fun q hq => ?_, fun q hq => if_neg hq, fun q hq => if_neg hq, fun q hq => ?_,
    fun q hq => ?_, fun _ => rfl, fun _ => rfl⟩
  · simp [writeHeader, clearHeader, Shm.setHeader, hq]
  · rw [writeHeader_node_ne type hq]
  · exact writeHeader_node_ne type fun h => hq (h ▸ List.mem_cons_self)

theorem ChunkPool.writeHeader {type' : ChunkType} {l : List Nat} (p : ChunkPool s type' l)
    (hc : c ∉ l) : ChunkPool (writeHeader s c type) type' l := by
  refine p.of_nodes (fun q hq => writeHeader_node_ne type ?_) rfl rfl
  rintro rfl
  exact hc hq

end Header

/-- The room that `get_avaliable_chunk` looks for. -/
def poolRoom (type : ChunkType) (size : Nat) : Nat := if type = .small then 1 else size % 2 ^ 32

/-- `get_avaliable_chunk` finds a chunk with enough room if there is one. -/
theorem getAvaliableChunk_spec {s : Shm} {type : ChunkType} {l : List Nat} (p : ChunkPool s type l)
    (size : Nat) (hsize : poolRoom type size < 2 ^ 31) :
    ∃ o, getAvaliableChunk s type size = .ok o ∧
      (∀ q ∈ o, q ∈ l ∧ poolRoom type size ≤ (s.chunkNode q).v.maxsize) ∧
      (o = none → ∀ q ∈ l, (s.chunkNode q).v.maxsize < poolRoom type size) := by
  obtain ⟨o, hrun, hsome, hnone, -⟩ := Rbtree.lower_holds p.holds ⟨0, poolRoom type size⟩
  have hval : ChunkTreeValue.Valid ⟨0, poolRoom type size⟩ := ⟨by show 0 < _; omega, hsize⟩
  have hneg : ∀ q ∈ l, chunkTreeCompare (s.chunkNode q).v ⟨0, poolRoom type size⟩ < 0 ↔
      (s.chunkNode q).v.maxsize < poolRoom type size := by
    intro q hq
    rw [show chunkTreeCompare _ _ < 0 ↔ _ from chunkMacros_ordered.neg _ _ (p.valid q hq) hval]
    unfold ChunkTreeValue.Le
    simp only
    omega
  refine ⟨o, hrun, fun q hq => ?_, fun ho q hq => ?_⟩
  · obtain ⟨hmem, hge⟩ := hsome q hq
    exact ⟨hmem, Nat.le_of_not_lt fun hlt => hge ((hneg q hmem).mpr hlt)⟩
  · -- the last key is the largest
    have hne : l ≠ [] := List.ne_nil_of_mem hq
    have hlast := List.getLast?_eq_some_getLast hne
    have hmem := List.getLast_mem hne
    have hlt := (hneg _ hmem).mp (hnone ho _ (by rw [hlast]; rfl))
    by_cases e : q = l.getLast hne
    · rw [e]
      exact hlt
    · have hle : (s.chunkNode q).v.Le (s.chunkNode (l.getLast hne)).v := by
        have hasc := p.ascending
        rw [← List.dropLast_append_getLast hne] at hasc hq
        refine (List.pairwise_append.mp hasc).2.2 q ?_ _ (List.mem_singleton_self _)
        exact (List.mem_append.mp hq).resolve_right fun h => e (List.mem_singleton.mp h)
      unfold ChunkTreeValue.Le at hle
      omega

/-- `delete_chunk`: the chunk leaves its pool. -/
theorem deleteChunk_spec {s : Shm} {type : ChunkType} {l : List Nat} {chunk : Nat}
    (p : ChunkPool s type l) (hc : chunk ∈ l) (hty : (s.header chunk).type = type) :
    ∃ t, deleteChunk s chunk =
        .ok ((s.setPool type t).setHeader chunk {s.header chunk with type := .empty}) ∧
      ChunkPool (s.setPool type t) type (l.erase chunk) ∧
      ChunkFrame s (s.setPool type t) type chunk l ∧ SameRuns (headerBytes l) s (s.setPool type t) := by
  obtain ⟨t, hdel, hholds, hk⟩ := Rbtree.delete_holds p.holds hc
  refine ⟨t, ?_, ⟨by rwa [setPool_pool], ?_, fun q hq => ?_⟩,
    .setPool (fun q hq => hk.outside q fun h => hq (List.mem_cons_of_mem _ h)) fun q _ => hk.key q,
    .setPool type fun q hq => hk.outside q hq⟩
  · unfold deleteChunk
    simp only [hty, hdel, Exec.ok_bind, Exec.pure_eq]
  · rw [setPool_chunkNode]
    exact Ascending.congr (h := s.chunkNode) (List.Pairwise.sublist List.erase_sublist p.ascending)
      fun q _ => hk.key q
  · rw [setPool_chunkNode, hk.key]
    exact p.valid q (List.mem_of_mem_erase hq)

end ShmMalloc
