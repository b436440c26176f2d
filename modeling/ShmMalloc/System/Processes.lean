import Mathlib.Data.Fintype.EquivFin
import ShmMalloc.Process.Keys
import ShmMalloc.System.Sysv

/-! `shm_init` and `exit_shared_context`, one system call after the other, against the
actions of the world of processes.

The system of `Sysv` keeps the context as well. What a run of the calls leaves is what
the action leaves, if the process is in; where the process is not, the world is as it
was, but for the segment of the context that may be there now. -/
namespace ShmMalloc.System
open Library

/-- The states agree on what the processes share. -/
def Shared (s t : Shm) : Prop := t = {s with arenaAddrs := t.arenaAddrs, sys := t.sys}

/-- The context that `init_shm_shared_field` leaves. -/
def freshFields (key : Int) (shmid : Nat) : Fields := ⟨true, key, 0, {initShm shmid with
  arenaAddrs := (initShm 0).arenaAddrs, sys := (initShm 0).sys}⟩

def Fields.setUp (f : Fields) (key : Int) (shmid : Nat) : Fields := if f.set then f else freshFields key shmid

section
variable {K : Keys} {fresh : Nat → Prop} {y : Sysv} {f : Fields} {n : Nat} {bad : Fault → Ipc → Prop}

theorem doLockFile_sysv {fd : Int} {fuel : Nat} {post : Nat → Ipc → Prop} (hpost : ∀ result e, post result ⟨y, f, e⟩)
    (hbad : ∀ s, bad .fuel s) : (doLockFile fd fuel).Wp (sysv K fresh) post bad ⟨y, f, n⟩ := by
  induction fuel generalizing n with
  | zero => exact hbad _
  | succ fuel ih =>
    have hnext : ∀ result e, (if result = EINTR then doLockFile fd fuel else pure result).Wp (sysv K fresh) post bad
        ⟨y, f, e⟩ := fun result e => by
      split
      · exact ih
      · exact hpost _ _
    rw [doLockFile, Script.wp_bind]
    refine ⟨trivial, fun r _ => ?_⟩
    show Script.Wp _ _ _ (if r.value ≠ 0 then _ else _) _
    split
    · rw [Script.wp_bind]
      exact errnoOr_sysv (by decide) fun e e' _ => hnext e e'
    · exact hnext 0 _

theorem shmLockFile_sysv {filename : String} {fuel : Nat} {post : Int → Ipc → Prop} (hpost : ∀ fd e, post fd ⟨y, f, e⟩)
    (hbad : ∀ s, bad .fuel s) : (shmLockFile filename fuel).Wp (sysv K fresh) post bad ⟨y, f, n⟩ := by
  rw [shmLockFile, Script.wp_bind]
  refine ⟨trivial, fun fd _ => ?_⟩
  show Script.Wp _ _ _ (if fd.value < 0 then _ else _) _
  split
  · rw [Script.wp_bind]
    exact errnoOr_sysv (by decide) fun _ _ _ => hpost _ _
  rw [Script.wp_bind]
  refine doLockFile_sysv (fun result e => ?_) hbad
  split
  · rw [Script.wp_bind]
    exact ⟨trivial, fun _ _ => hpost _ _⟩
  · exact hpost _ _

theorem shmLockInit_sysv {post : Int → Ipc → Prop} (hpost : ∀ r e, post r ⟨y, f, e⟩) :
    shmLockInit.Wp (sysv K fresh) post bad ⟨y, f, n⟩ := by
  rw [shmLockInit, Script.wp_bind]
  refine ⟨trivial, fun r _ => ?_⟩
  show Script.Wp _ _ _ (if r.value ≠ 0 then _ else _) _
  split
  · exact hpost _ _
  rw [Script.wp_bind]
  refine ⟨trivial, fun r _ => ?_⟩
  show Script.Wp _ _ _ (if r.value ≠ 0 then _ else _) _
  split
  · exact hpost _ _
  rw [Script.wp_bind]
  refine ⟨trivial, fun r _ => ?_⟩
  show Script.Wp _ _ _ (if r.value ≠ 0 then _ else _) _
  split
  · exact hpost _ _
  rw [Script.wp_bind]
  refine ⟨trivial, fun r _ => ?_⟩
  show Script.Wp _ _ _ (if r.value ≠ 0 then _ else _) _
  split
  · exact hpost _ _
  rw [Script.wp_bind]
  exact ⟨trivial, fun r _ => hpost _ _⟩

theorem after_setArena (y : Sysv) (r : Answer) (key : Int) (shmid : Nat) :
    (⟨true, key, 0, {initShm 0 with arenas := fun _ => .zero}⟩ : Fields).after y r (.setArena shmid) =
      freshFields key shmid := by
  have hdata : (initShm 0).data.wroteContext = (initShm shmid).data := by
    funext i o
    show (if (i, o) ∈ bytes 0 (2 ^ 20) then none else if (i, o) ∈ bytes 0 (2 ^ 20) then none else some 0) =
      if (i, o) ∈ bytes 0 (2 ^ 20) then none else some 0
    split <;> rfl
  show (⟨true, key, 0, {initShm shmid with
    arenaAddrs := (initShm 0).arenaAddrs, sys := (initShm 0).sys, data := (initShm 0).data.wroteContext}⟩ : Fields) = _
  rw [hdata]
  rfl

theorem initShmSharedField_sysv {key : Int} {shmid : Nat} {post : Unit → Ipc → Prop}
    (hpost : ∀ e, post () ⟨y, freshFields key shmid, e⟩) :
    (initShmSharedField key shmid).Wp (sysv K fresh) post bad ⟨y, f, n⟩ := by
  rw [initShmSharedField, Script.wp_bind]
  refine ⟨trivial, fun r _ => ?_⟩
  show Script.Wp _ _ _ (shmLockInit >>= _) (⟨y, ⟨true, key, 0, {initShm 0 with arenas := fun _ => .zero}⟩, r.errno⟩ : Ipc)
  rw [Script.wp_bind]
  refine shmLockInit_sysv fun r e => ?_
  rw [Script.wp_bind]
  refine ⟨trivial, fun r _ => ?_⟩
  show post () ⟨y, Fields.after _ y r (.setArena shmid), r.errno⟩
  rw [after_setArena]
  exact hpost _

/-- The fields are set if they are not, unless the lock is not got. -/
theorem setUpContext_sysv {path : String} {key : Int} {shmid fuel : Nat} {post : Bool → Ipc → Prop}
    (hok : ∀ e, post true ⟨y, f.setUp key shmid, e⟩) (hlock : ∀ e, post false ⟨y, f, e⟩) (hbad : ∀ s, bad .fuel s) :
    (setUpContext path key shmid fuel).Wp (sysv K fresh) post bad ⟨y, f, n⟩ := by
  have hdone : ∀ {fd : Int} {g : Fields} {e : Nat}, g = f.setUp key shmid → (shmUnlockFile fd >>= fun _ =>
      (pure true : Sys Bool)).Wp (sysv K fresh) post bad ⟨y, g, e⟩ := fun hg => by
    rw [hg]
    exact ⟨trivial, fun _ _ => hok _⟩
  rw [setUpContext, Script.wp_bind]
  refine shmLockFile_sysv (fun fd e => ?_) hbad
  split
  · exact hlock e
  rw [Script.wp_bind]
  refine ⟨trivial, fun flag hflag => ?_⟩
  have hflag : flag.value = if f.set then shmInitFlag else 0 := hflag
  show Script.Wp _ _ _ (if flag.value ≠ shmInitFlag then _ else _) _
  cases hset : f.set with
  | true =>
    rw [if_neg (not_not.mpr (hflag.trans (if_pos hset)))]
    exact hdone (if_pos hset).symm
  | false =>
    rw [if_pos (by rw [hflag, hset]; decide), Script.wp_bind]
    exact initShmSharedField_sysv fun e => hdone (by rw [Fields.setUp, hset]; rfl)

theorem assert_sysv {b : Bool} {post : Unit → Ipc → Prop} {s : Ipc} (hb : b = true) (hpost : post () s) :
    (assert b).Wp (sysv K fresh) post bad s := by
  rw [hb]
  exact hpost

theorem initSharedContext_sysv (hy : y.Names fresh) {path : String} {create : Bool} {fuel : Nat}
    {post : Option Int → Ipc → Prop} (hkey : f.set = true → f.key = K.key 0)
    (hnokey : ∀ e, post none ⟨y, f, e⟩)
    (hnone : ∀ m e, fresh m → (create = true ∨ y.key 0 ≠ none) →
      post none ⟨((y.shmget 0 m).1.mmap (y.shmget 0 m).2).1, f, e⟩)
    (hok : ∀ m addr e, fresh m → ((y.shmget 0 m).1.mmap (y.shmget 0 m).2).2 = some addr →
      post (some addr) ⟨((y.shmget 0 m).1.mmap (y.shmget 0 m).2).1, {f.setUp (K.key 0) (y.shmget 0 m).2 with
        count := (f.setUp (K.key 0) (y.shmget 0 m).2).count + 1}, e⟩) (hbad : ∀ s, bad .fuel s)
    (hunset : create = false → f.set = false → y.key 0 ≠ none → ∀ s, bad .assertion s) :
    (initSharedContext path create fuel).Wp (sysv K fresh) post bad ⟨y, f, n⟩ := by
  have hsetUp : ∀ m, (f.setUp (K.key 0) m).set = true ∧ (f.setUp (K.key 0) m).key = K.key 0 := fun m => by
    unfold Fields.setUp
    split
    · next h => exact ⟨h, hkey h⟩
    · exact ⟨rfl, rfl⟩
  -- the assertions and the count, once the fields are set
  have hcount : ∀ m addr g e, fresh m → ((y.shmget 0 m).1.mmap (y.shmget 0 m).2).2 = some addr →
      g = f.setUp (K.key 0) (y.shmget 0 m).2 → (call .initFlag >>= fun flag => assert (flag.value = shmInitFlag) >>=
      fun _ => call .contextKey >>= fun contextKey => assert (K.key 0 = contextKey.value) >>= fun _ =>
      call .addCount >>= fun _ => (pure (some (addr : Int)) : Sys (Option Int))).Wp (sysv K fresh) post bad
      ⟨((y.shmget 0 m).1.mmap (y.shmget 0 m).2).1, g, e⟩ := fun m addr g e hm hsome hg => by
    rw [hg, Script.wp_bind]
    refine ⟨trivial, fun flag hflag => ?_⟩
    have hflag : flag.value = if (f.setUp (K.key 0) (y.shmget 0 m).2).set then shmInitFlag else 0 := hflag
    show Script.Wp _ _ _ (assert (flag.value = shmInitFlag) >>= _) _
    rw [Script.wp_bind]
    refine assert_sysv (decide_eq_true (hflag.trans (if_pos (hsetUp _).1))) ?_
    rw [Script.wp_bind]
    refine ⟨trivial, fun key hkey => ?_⟩
    have hkey : key.value = (f.setUp (K.key 0) (y.shmget 0 m).2).key := hkey
    show Script.Wp _ _ _ (assert (K.key 0 = key.value) >>= _) _
    rw [Script.wp_bind]
    refine assert_sysv (decide_eq_true (hkey.trans (hsetUp _).2).symm) ?_
    rw [Script.wp_bind]
    exact ⟨trivial, fun r _ => hok m addr _ hm hsome⟩
  rw [initSharedContext, Script.wp_bind]
  refine shmGetKey_sysv (fun e => ?_) fun result key e hne => ?_
  · dsimp only
    rw [if_neg (not_not.mpr rfl), Script.wp_bind]
    refine shmMmap_sysv hy (fun err e => hnokey e) (fun m err e hm hc _ => hnone m e hm hc) fun m addr e hm hc hsome => ?_
    dsimp only
    cases create with
    | true =>
      rw [if_pos rfl, Script.wp_bind]
      refine setUpContext_sysv (fun e => ?_) (fun e => ?_) hbad
      · rw [if_pos rfl]
        exact hcount m addr _ e hm hsome rfl
      · rw [if_neg (by decide)]
        exact hnone m e hm hc
    | false =>
      rw [if_neg (by decide), Script.wp_bind, Script.wp_pure, if_pos rfl]
      cases hset : f.set with
      | true => exact hcount m addr _ e hm hsome (if_pos hset).symm
      | false =>
        rw [Script.wp_bind]
        refine ⟨trivial, fun flag hflag => ?_⟩
        have hflag : flag.value = if f.set then shmInitFlag else 0 := hflag
        show Script.Wp _ _ _ (assert (flag.value = shmInitFlag) >>= _) _
        have hne : flag.value ≠ shmInitFlag := by
          rw [hflag, hset]
          decide
        rw [decide_eq_false hne]
        exact hunset rfl hset (hc.resolve_left (by decide)) _
  · dsimp only
    rw [if_pos hne]
    exact hnokey e

/-! ### The loop over the arenas -/

theorem Shared.refl (s : Shm) : Shared s s := rfl

theorem Shared.trans {s t u : Shm} (h : Shared s t) (h' : Shared t u) : Shared s u := by
  rw [Shared] at h h' ⊢
  rw [h', h]

theorem mmapArenas_shared {k i : Nat} {t t' : Shm} (h : mmapArenas k t i = .ok t') : Shared t t' := by
  induction k generalizing t i with
  | zero =>
    obtain rfl := Except.ok.inj h
    exact .refl t
  | succ k ih =>
    rw [mmapArenas] at h
    split at h
    · obtain ⟨⟨t₁, addr⟩, hmap, h⟩ := Exec.bind_ok h
      obtain ⟨-, y, -, rfl⟩ := mmapArena_ok hmap
      exact .trans (by rfl : Shared t _) (ih h)
    · exact ih h

theorem mmapArena_eq {t : Shm} {i : Nat} (he : (t.arenas i).type ≠ .empty) (hc : (t.arenas i).type ≠ .context) :
    mmapArena t i = .ok ({t with sys := (t.sys.mmap (t.arenas i).shmid).1}, (t.sys.mmap (t.arenas i).shmid).2) := by
  have hreq : require ((t.arenas i).type ≠ .empty && (t.arenas i).type ≠ .context) = .ok () := by
    simp [he, hc]
  rw [mmapArena]
  dsimp only
  rw [hreq]
  rfl

theorem Sysv.mmap_shmat (y : Sysv) (shmid : Nat) : (y.mmap shmid).1.shmat = y.shmat := by
  rcases h : y.mmap shmid with ⟨y', _ | addr⟩
  · obtain ⟨-, k, rfl⟩ := Sysv.mmap_none h
    rfl
  · obtain ⟨-, -, rfl⟩ := Sysv.mmap_some h
    rfl

/-- The calls of the loop do what the loop does. -/
theorem attachArenas_sysv {k i : Nat} {t : Shm} {post : Unit → Ipc → Prop} (ht : ArenasOk t.arenas) (hi : i ≠ 0)
    (hf : f.shm.arenas = t.arenas) (haddr : ∀ m k l, t.sys.shmat m k l ≠ some 0)
    (hpost : ∀ t' e, mmapArenas k t i = .ok t' → Shared t t' → post () ⟨t'.sys, f, e⟩) :
    (attachArenas k i).Wp (sysv K fresh) post bad ⟨t.sys, f, n⟩ := by
  induction k generalizing t i n with
  | zero => exact hpost t n rfl (.refl t)
  | succ k ih =>
    rw [attachArenas, Script.wp_bind]
    refine ⟨trivial, fun arena harena => ?_⟩
    have harena : arena.value = if isArenaValid f.shm i then ((f.shm.arenas i).shmid : Int) else 0 := harena
    have hvalid : isArenaValid f.shm i = isArenaValid t i := by rw [isArenaValid, hf]; rfl
    rw [hvalid, hf] at harena
    show Script.Wp _ _ _ (if arena.value ≠ 0 then _ else _) _
    by_cases hv : isArenaValid t i = true
    · obtain ⟨-, hne⟩ : i < 128 ∧ (t.arenas i).type ≠ .empty := by simpa [isArenaValid] using hv
      have hctx : (t.arenas i).type ≠ .context := fun h₀ => hi ((ht.context i).mp h₀)
      have hid : (t.arenas i).shmid ≠ 0 := fun h₀ => hne ((ht.empty i).mpr h₀)
      rw [if_pos hv] at harena
      -- the rest of the loop, whether the arena is attached or not
      have hrest : ∀ e, (attachArenas k (i + 1)).Wp (sysv K fresh) post bad ⟨(t.sys.mmap (t.arenas i).shmid).1, f, e⟩ :=
        fun e => by
          refine ih (t := {t with sys := (t.sys.mmap (t.arenas i).shmid).1}.setArenaAddr i
            ⟨(t.sys.mmap (t.arenas i).shmid).2, (t.arenas i).shmid⟩) ht (Nat.succ_ne_zero i) hf
            (fun m k l => ?_) fun t' e hloop hshare => hpost t' e ?_ (.trans (by rfl) hshare)
          · show (t.sys.mmap (t.arenas i).shmid).1.shmat m k l ≠ _
            rw [Sysv.mmap_shmat]
            exact haddr m k l
          · rw [mmapArenas, if_pos hv, mmapArena_eq hne hctx]
            exact hloop
      rw [if_pos (by rw [harena]; exact Int.natCast_ne_zero.mpr hid), harena, shmMmap, if_neg (by decide), Script.wp_bind,
        Script.wp_bind, Script.wp_pure]
      beta_reduce
      rw [if_neg (by omega)]
      exact attach_sysv hid (haddr _) (fun err e _ => hrest e) fun addr e _ => hrest e
    · rw [if_neg hv] at harena
      rw [if_neg (not_not.mpr harena)]
      refine ih ht (Nat.succ_ne_zero i) hf haddr fun t' e hloop => hpost t' e ?_
      rw [mmapArenas, if_neg hv]
      exact hloop

/-! ### What some run does -/

theorem setUpContext_run {path : String} {key : Int} {shmid fuel : Nat} :
    Script.Run (sysv K fresh) (setUpContext path key shmid (fuel + 1)) ⟨y, f, n⟩ (.ret true) ⟨y, f.setUp key shmid, 0⟩ := by
  have hlock : Script.Run (sysv K fresh) (shmLockFile path (fuel + 1)) ⟨y, f, n⟩ (.ret 3) ⟨y, f, 0⟩ := by
    refine .head ⟨3, 0⟩ trivial ?_
    exact .head ⟨0, 0⟩ trivial (.refl _ _)
  refine .bind hlock ?_
  rw [if_neg (by decide)]
  cases hset : f.set with
  | true =>
    have hflag : Ipc.answers K fresh ⟨y, f, 0⟩ .initFlag ⟨shmInitFlag, 0⟩ := by
      show shmInitFlag = if f.set then shmInitFlag else 0
      rw [if_pos hset]
    refine .head ⟨shmInitFlag, 0⟩ hflag ?_
    rw [Fields.setUp, if_pos hset]
    exact .head ⟨0, 0⟩ trivial (.refl _ _)
  | false =>
    have hflag : Ipc.answers K fresh ⟨y, f, 0⟩ .initFlag ⟨0, 0⟩ := by
      show (0 : Int) = if f.set then shmInitFlag else 0
      rw [hset]
      rfl
    have hinit : ∀ {g : Fields}, Script.Run (sysv K fresh) shmLockInit ⟨y, g, 0⟩ (.ret 0) ⟨y, g, 0⟩ := fun {g} => by
      refine .head ⟨0, 0⟩ trivial ?_
      refine .head ⟨0, 0⟩ trivial ?_
      refine .head ⟨0, 0⟩ trivial ?_
      refine .head ⟨0, 0⟩ trivial ?_
      exact .head ⟨0, 0⟩ trivial (.refl _ _)
    have hfields : Script.Run (sysv K fresh) (initShmSharedField key shmid) ⟨y, f, 0⟩ (.ret ())
        ⟨y, freshFields key shmid, 0⟩ := by
      refine .head ⟨0, 0⟩ trivial ?_
      show Script.Run _ (shmLockInit >>= _) _ _ _
      refine .bind hinit ?_
      rw [← after_setArena y ⟨0, 0⟩]
      exact .head ⟨0, 0⟩ trivial (.refl _ _)
    refine .head ⟨0, 0⟩ hflag ?_
    rw [Fields.setUp, if_neg (by simp [hset])]
    show Script.Run _ (initShmSharedField key shmid >>= _) _ _ _
    refine .bind hfields ?_
    exact .head ⟨0, 0⟩ trivial (.refl _ _)

/-- The context is got, if the segment is attached. -/
theorem initSharedContext_run (hy : y.Names fresh) {path : String} {fuel m addr : Nat} (hm : fresh m)
    (hkey : f.set = true → f.key = K.key 0) {y' : Sysv}
    (hmap : (y.shmget 0 m).1.mmap (y.shmget 0 m).2 = (y', some addr)) :
    Script.Run (sysv K fresh) (initSharedContext path true (fuel + 1)) ⟨y, f, n⟩ (.ret (some addr))
      ⟨y', {f.setUp (K.key 0) (y.shmget 0 m).2 with
        count := (f.setUp (K.key 0) (y.shmget 0 m).2).count + 1}, 0⟩ := by
  have hsetUp : (f.setUp (K.key 0) (y.shmget 0 m).2).set = true ∧ (f.setUp (K.key 0) (y.shmget 0 m).2).key = K.key 0 := by
    unfold Fields.setUp
    split
    · next h => exact ⟨h, hkey h⟩
    · exact ⟨rfl, rfl⟩
  generalize hg : f.setUp (K.key 0) (y.shmget 0 m).2 = g at hsetUp
  have hflag : Ipc.answers K fresh ⟨y', g, 0⟩ .initFlag ⟨shmInitFlag, 0⟩ := by
    show shmInitFlag = if g.set then shmInitFlag else 0
    rw [if_pos hsetUp.1]
  refine .bind (shmGetKey_run path 0) ?_
  dsimp only
  rw [if_neg (not_not.mpr rfl)]
  refine .bind (shmMmap_run hy hm hmap) ?_
  show Script.Run _ (if true = true then _ else _) _ _ _
  rw [if_pos rfl]
  refine .bind setUpContext_run ?_
  rw [if_pos rfl, hg]
  refine .head ⟨shmInitFlag, 0⟩ hflag ?_
  refine .head ⟨g.key, 0⟩ rfl ?_
  show Script.Run _ (assert (K.key 0 = g.key) >>= _) _ _ _
  rw [decide_eq_true hsetUp.2.symm]
  exact .head ⟨0, 0⟩ trivial (.refl _ _)

theorem attachArenas_run {k i : Nat} {t t' : Shm} (ht : ArenasOk t.arenas) (hi : i ≠ 0) (hf : f.shm.arenas = t.arenas)
    (haddr : ∀ m k l, t.sys.shmat m k l ≠ some 0) (hloop : mmapArenas k t i = .ok t') :
    ∃ e, Script.Run (sysv K fresh) (attachArenas k i) ⟨t.sys, f, n⟩ (.ret ()) ⟨t'.sys, f, e⟩ := by
  induction k generalizing t i n with
  | zero =>
    obtain rfl := Except.ok.inj hloop
    exact ⟨n, .refl _ _⟩
  | succ k ih =>
    have hvalid : isArenaValid f.shm i = isArenaValid t i := by rw [isArenaValid, hf]; rfl
    have harena : ∀ v, (v = if isArenaValid t i then ((t.arenas i).shmid : Int) else 0) →
        Ipc.answers K fresh ⟨t.sys, f, n⟩ (.arena i) ⟨v, 0⟩ := fun v hv => by
      show v = if isArenaValid f.shm i then ((f.shm.arenas i).shmid : Int) else 0
      rw [hvalid, hf]
      exact hv
    rw [mmapArenas] at hloop
    by_cases hv : isArenaValid t i = true
    · obtain ⟨-, hne⟩ : i < 128 ∧ (t.arenas i).type ≠ .empty := by simpa [isArenaValid] using hv
      have hctx : (t.arenas i).type ≠ .context := fun h₀ => hi ((ht.context i).mp h₀)
      have hid : (t.arenas i).shmid ≠ 0 := fun h₀ => hne ((ht.empty i).mpr h₀)
      rw [if_pos hv, mmapArena_eq hne hctx] at hloop
      replace hloop : mmapArenas k ({t with sys := (t.sys.mmap (t.arenas i).shmid).1}.setArenaAddr i
        ⟨(t.sys.mmap (t.arenas i).shmid).2, (t.arenas i).shmid⟩) (i + 1) = .ok t' := hloop
      obtain ⟨e, hrest⟩ := ih (t := {t with sys := (t.sys.mmap (t.arenas i).shmid).1}.setArenaAddr i
        ⟨(t.sys.mmap (t.arenas i).shmid).2, (t.arenas i).shmid⟩) (n := 0) ht (Nat.succ_ne_zero i) hf
        (fun m k l => by
          show (t.sys.mmap (t.arenas i).shmid).1.shmat m k l ≠ _
          rw [Sysv.mmap_shmat]
          exact haddr m k l) hloop
      refine ⟨e, .head ⟨(t.arenas i).shmid, 0⟩ (harena _ (if_pos hv).symm) ?_⟩
      show Script.Run _ (if ((t.arenas i).shmid : Int) ≠ 0 then _ else _) _ _ _
      have hmapped : Script.Run (sysv K fresh) (shmMmap 0 0 false (t.arenas i).shmid) ⟨t.sys, f, 0⟩
          (.ret ((t.sys.mmap (t.arenas i).shmid).2.elim (none, ((t.arenas i).shmid : Int), EPERM)
            fun addr => (some (addr : Int), ((t.arenas i).shmid : Int), 0)))
          ⟨(t.sys.mmap (t.arenas i).shmid).1, f, 0⟩ := by
        rw [shmMmap, if_neg (by decide)]
        show Script.Run _ (if ((t.arenas i).shmid : Int) ≤ 0 then _ else _) _ _ _
        rw [if_neg (by omega)]
        exact attach_run hid (haddr _)
      rw [if_pos (Int.natCast_ne_zero.mpr hid)]
      exact .bind hmapped hrest
    · rw [if_neg hv] at hloop
      obtain ⟨e, hrest⟩ := ih (n := 0) ht (Nat.succ_ne_zero i) hf haddr hloop
      exact ⟨e, .head ⟨0, 0⟩ (harena 0 (if_neg hv).symm) hrest⟩

end

/-! ### The world -/

/-- What the processes share is in the system as it is in the world. -/
structure Ipc.Shows (K : Keys) (s : Ipc) (w : World) : Prop where
  segment : s.sys.segment = w.shm.sys.segment
  created : s.sys.created = w.shm.sys.created
  key : s.sys.key = w.shm.sys.key
  set : s.fields.set = true ↔ w.pids ≠ []
  context : w.pids ≠ [] → s.fields.key = K.key 0 ∧ s.fields.count = w.pids.length ∧ Shared s.fields.shm w.shm

theorem exists_newId (w : World) : ∃ m, NewId w m := by
  let used : List Nat := (List.range 128).filterMap w.shm.sys.key ++
    w.pids.flatMap fun pid => (w.proc pid).attached.map Attach.shmid
  obtain ⟨m, hm⟩ := Infinite.exists_notMem_finset (insert 0 used.toFinset)
  rw [Finset.mem_insert, not_or, List.mem_toFinset, List.mem_append, not_or] at hm
  obtain ⟨hpos, hkey, hatt⟩ := hm
  refine ⟨m, hpos, fun i hi hk => ?_, fun pid hp a ha he => ?_⟩
  · exact hkey (List.mem_filterMap.mpr ⟨i, List.mem_range.mpr hi, hk⟩)
  · exact hatt (List.mem_flatMap.mpr ⟨pid, hp, List.mem_map.mpr ⟨a, ha, he⟩⟩)

section
variable {K : Keys} {w w' : World} {s t : Ipc} {pid m : Nat} {shmat : Nat → Nat → List Attach → Option Nat}

theorem Ipc.Shows.names (h : s.Shows K w) (hN : Named w) (hw : w.SegmentsOk) (haddr : ∀ m k l, s.sys.shmat m k l ≠ some 0) :
    s.sys.Names (NewId w) where
  pos m hm := Nat.pos_of_ne_zero hm.pos
  key_pos i m hk := Nat.pos_of_ne_zero (hw.key i m (h.key ▸ hk))
  key m hm i := by
    rw [h.key]
    by_cases hi : i < 128
    · exact hm.key i hi
    · rw [hN.keys.bound i (by omega)]
      simp
  own i j m hi hj := hN.keys.own i j m (h.key ▸ hi) (h.key ▸ hj)
  spare := exists_newId w
  addr := haddr

/-- A process that has attached nothing, at the calls that the system answers as for `shmat`. -/
structure Ipc.Starts (s : Ipc) (shmat : Nat → Nat → List Attach → Option Nat) : Prop where
  attached : s.sys.attached = []
  attaches : s.sys.attaches = 0
  shmat : s.sys.shmat = shmat

/-- What a process finds, with the context that `shmget` has found or created. -/
theorem Ipc.Shows.found (h : s.Shows K w) (hN : Named w) (hs : s.Starts shmat) (m : Nat)
    (shmat' : Nat → Nat → List Attach → Option Nat) :
    (w.found m shmat').sys = {(s.sys.shmget 0 m).1 with shmat := shmat'} ∧
      ((w.found m shmat').arenas 0).shmid = (s.sys.shmget 0 m).2 := by
  obtain ⟨⟨segment, created, key, attached, shmat, attaches⟩, fields, errno⟩ := s
  obtain ⟨rfl, rfl, rfl⟩ := hs
  obtain ⟨hsegment, hcreated, hkey, -, -⟩ := h
  dsimp only at hsegment hcreated hkey
  subst hsegment hcreated hkey
  by_cases hp : w.pids = []
  · have hcontext : w.context m = freshContext w.shm m := if_pos hp
    rw [World.found, World.load, hcontext, freshContext]
    cases hk : w.shm.sys.key 0 <;> simp [Sysv.shmget, hk, initShm, Proc.none]
  · have hcontext : w.context m = w.shm := if_neg hp
    rw [World.found, World.load, hcontext]
    simp [Sysv.shmget, hN.context hp, Proc.none]

theorem World.init_some {y : Sysv} {addr : Nat} {u : Shm}
    (hmap : (w.found m shmat).sys.mmap ((w.found m shmat).arenas 0).shmid = (y, some addr))
    (hloop : mmapArenas 127 ({w.found m shmat with sys := y}.setArenaAddr 0
      ⟨some addr, ((w.found m shmat).arenas 0).shmid⟩) 1 = .ok u) : w.init pid m shmat = .ok (w.store pid u) := by
  unfold World.found at hmap hloop
  unfold World.init
  dsimp only at hmap hloop ⊢
  rw [hmap]
  dsimp only
  rw [hloop]
  rfl

theorem World.init_none {y : Sysv} (hmap : (w.found m shmat).sys.mmap ((w.found m shmat).arenas 0).shmid = (y, none)) :
    w.init pid m shmat = .ok {w with shm := {w.found m shmat with sys := y}} := by
  unfold World.found at hmap
  unfold World.init
  dsimp only at hmap ⊢
  rw [hmap]
  rfl

/-- The context, set up, is the one that the process finds in the world. -/
theorem Ipc.Shows.setUp (h : s.Shows K w) (hN : Named w) (hs : s.Starts shmat) (m : Nat) :
    (s.fields.setUp (K.key 0) (s.sys.shmget 0 m).2).key = K.key 0 ∧
      (s.fields.setUp (K.key 0) (s.sys.shmget 0 m).2).count = w.pids.length ∧
      (s.fields.setUp (K.key 0) (s.sys.shmget 0 m).2).set = true ∧
      Shared (s.fields.setUp (K.key 0) (s.sys.shmget 0 m).2).shm (w.context m) := by
  unfold Fields.setUp
  by_cases hp : w.pids = []
  · have hset : ¬s.fields.set = true := fun hset => h.set.mp hset hp
    obtain ⟨-, hid⟩ := h.found hN hs m shmat
    have hcontext : w.context m = freshContext w.shm m := if_pos hp
    rw [if_neg hset, ← hid, hp]
    refine ⟨rfl, rfl, rfl, ?_⟩
    show Shared _ (w.context m)
    rw [World.found, hcontext]
    rfl
  · have hset : s.fields.set = true := h.set.mpr hp
    obtain ⟨hkey, hcount, hshare⟩ := h.context hp
    have hcontext : w.context m = w.shm := if_neg hp
    rw [if_pos hset, hcontext]
    exact ⟨hkey, hcount, hset, hshare⟩

/-- What `shm_init` leaves when it returns, as an action of the world. -/
def InitShows (K : Keys) (w : World) (pid : Nat) (shmat : Nat → Nat → List Attach → Option Nat) (r : Int) (t : Ipc) :
    Prop :=
  (r = 0 → ∃ m w', (Action.init pid m shmat).Legal w ∧ (Action.init pid m shmat).step w = .ok w' ∧ t.Shows K w' ∧
    pid ∈ w'.pids ∧ (w'.proc pid).attached = t.sys.attached) ∧
  (r ≠ 0 → ∃ w', t.Shows K w' ∧ pid ∉ w'.pids ∧
    (w' = w ∨ ∃ m shmat', (Action.init pid m shmat').Legal w ∧ (Action.init pid m shmat').step w = .ok w'))

/-- A process that has got the segment, but not the context. -/
theorem Ipc.Shows.segment_only (h : s.Shows K w) (hN : Named w) (hs : s.Starts shmat) (hm : NewId w m) (hpid : pid ∉ w.pids)
    {r : Int} (hr : r ≠ 0) (e : Nat) :
    InitShows K w pid shmat r ⟨((s.sys.shmget 0 m).1.mmap (s.sys.shmget 0 m).2).1, s.fields, e⟩ := by
  refine ⟨fun h₀ => absurd h₀ hr, fun _ => ?_⟩
  obtain ⟨hsys, -⟩ := h.found hN hs m fun _ _ _ => none
  rcases hmap : (w.found m fun _ _ _ => none).sys.mmap ((w.found m fun _ _ _ => none).arenas 0).shmid with ⟨y, _ | addr⟩
  · obtain ⟨-, k, rfl⟩ := Sysv.mmap_none hmap
    obtain ⟨l, k', hgot⟩ := Sysv.mmap_fields (s.sys.shmget 0 m).1 (s.sys.shmget 0 m).2
    refine ⟨_, ?_, ?_, .inr ⟨m, fun _ _ _ => none, ⟨hpid, hm, fun _ _ _ _ h₀ => by cases h₀⟩, World.init_none hmap⟩⟩
    swap
    · exact hpid
    rw [hgot, hsys]
    refine ⟨rfl, rfl, rfl, h.set, fun hp => ?_⟩
    obtain ⟨hkey, hcount, hshare⟩ := h.context hp
    refine ⟨hkey, hcount, hshare.trans ?_⟩
    have hcontext : w.context m = w.shm := if_neg hp
    rw [World.found, hcontext]
    rfl
  · obtain ⟨-, hat, -⟩ := Sysv.mmap_some hmap
    rw [hsys] at hat
    cases hat

/-- A process that is in. -/
theorem Ipc.Shows.enters (h : s.Shows K w) (hN : Named w) (hs : s.Starts shmat) (hpid : pid ∉ w.pids) {addr : Nat} {y : Sysv}
    (hmap : (s.sys.shmget 0 m).1.mmap (s.sys.shmget 0 m).2 = (y, some addr)) {u : Shm}
    (hloop : mmapArenas 127 ({w.found m shmat with sys := y}.setArenaAddr 0
      ⟨some addr, ((w.found m shmat).arenas 0).shmid⟩) 1 = .ok u)
    (hshare : Shared ({w.found m shmat with sys := y}.setArenaAddr 0
      ⟨some addr, ((w.found m shmat).arenas 0).shmid⟩) u) (e : Nat) :
    Ipc.Shows K ⟨u.sys, {s.fields.setUp (K.key 0) (s.sys.shmget 0 m).2 with
      count := (s.fields.setUp (K.key 0) (s.sys.shmget 0 m).2).count + 1}, e⟩ (w.store pid u) ∧
      (Action.init pid m shmat).step w = .ok (w.store pid u) ∧ pid ∈ (w.store pid u).pids ∧
      ((w.store pid u).proc pid).attached = u.sys.attached := by
  obtain ⟨hsys, hid⟩ := h.found hN hs m shmat
  obtain ⟨hkey, hcount, hset, hctx⟩ := h.setUp hN hs m
  have hmap' : (w.found m shmat).sys.mmap ((w.found m shmat).arenas 0).shmid = (y, some addr) := by
    rw [hsys, hid, ← hs.shmat, ← Sysv.shmget_shmat s.sys 0 m]
    exact hmap
  have hpids : (w.store pid u).pids = pid :: w.pids := if_neg hpid
  refine ⟨⟨rfl, rfl, rfl, ?_, fun _ => ⟨hkey, ?_, ?_⟩⟩, World.init_some hmap' hloop, ?_, ?_⟩
  · rw [hpids]
    exact iff_of_true hset (List.cons_ne_nil _ _)
  · rw [hpids, List.length_cons, hcount]
    rfl
  · exact (hctx.trans (by rfl : Shared (w.context m) _)).trans hshare
  · rw [hpids]
    exact List.mem_cons_self
  · show (Function.update w.proc pid _ pid).attached = _
    rw [Function.update_self]

theorem shmInit_shows (h : s.Shows K w) (hN : Named w) (hw : w.SegmentsOk) (hs : s.Starts shmat)
    (hfree : FreshAddrs shmat) (haddr : ∀ m k l, shmat m k l ≠ some 0) (hpid : pid ∉ w.pids) {path : String}
    {create : Bool} {fuel : Nat} :
    (shmInit path create fuel).Wp (sysv K (NewId w)) (InitShows K w pid shmat)
      (fun e _ => e = .fuel ∨ e = .assertion ∧ create = false ∧ w.pids = [] ∧ w.shm.sys.key 0 ≠ none) s := by
  have hy : s.sys.Names (NewId w) := h.names hN hw fun m k l => hs.shmat ▸ haddr m k l
  -- a process that has not got the segment
  have hout : ∀ {r : Int} (e : Nat), r ≠ 0 → InitShows K w pid shmat r ⟨s.sys, s.fields, e⟩ := fun e hr =>
    ⟨fun h₀ => absurd h₀ hr, fun _ => ⟨w, ⟨h.segment, h.created, h.key, h.set, h.context⟩, hpid, .inl rfl⟩⟩
  obtain ⟨y, f, n⟩ := s
  rw [shmInit, Script.wp_bind]
  refine ⟨trivial, fun copy _ => ?_⟩
  show Script.Wp _ _ _ (if copy.value = 0 then _ else _) _
  split
  · exact hout _ (by decide)
  rw [Script.wp_bind]
  refine ⟨trivial, fun r _ => ?_⟩
  show Script.Wp _ _ _ (if r.value ≠ 0 then _ else _) _
  split
  · exact hout _ (by decide)
  rw [Script.wp_bind]
  refine initSharedContext_sysv hy (fun hset => (h.context (h.set.mp hset)).1)
    (fun e => hout e (by decide)) (fun m e hm _ => h.segment_only hN hs hm hpid (by decide) e) (fun m addr e hm hsome => ?_)
    (fun _ => .inl rfl) fun hc hset hk _ => .inr ⟨rfl, hc, ?_, h.key ▸ hk⟩
  swap
  · by_contra hp
    have hin : f.set = true := h.set.mpr hp
    have hout : f.set = false := hset
    rw [hin] at hout
    cases hout
  rcases hmap : (y.shmget 0 m).1.mmap (y.shmget 0 m).2 with ⟨y', r'⟩
  obtain rfl : r' = some addr := by rw [← hsome, hmap]
  obtain ⟨hsys, hid⟩ := h.found hN hs m shmat
  obtain ⟨-, -, -, hctx⟩ := h.setUp hN hs m
  have hpos : ((w.context m).arenas 0).shmid ≠ 0 := by
    rw [show (w.context m).arenas = (w.found m shmat).arenas from rfl, hid]
    exact Nat.ne_of_gt (hy.shmget_pos 0 hm)
  have hshmat : y'.shmat = shmat := by
    obtain ⟨-, -, rfl⟩ := Sysv.mmap_some hmap
    exact (Sysv.shmget_shmat y 0 m).trans hs.shmat
  have harenas : (f.setUp (K.key 0) (y.shmget 0 m).2).shm.arenas = (w.context m).arenas := by
    rw [hctx]
  dsimp only
  rw [Script.wp_bind]
  refine ⟨trivial, fun _ _ => ?_⟩
  show Script.Wp _ _ _ (attachArenas 127 1 >>= _) (⟨y', _, _⟩ : Ipc)
  rw [Script.wp_bind]
  refine attachArenas_sysv (f := {f.setUp (K.key 0) (y.shmget 0 m).2 with
    count := (f.setUp (K.key 0) (y.shmget 0 m).2).count + 1}) (t := {w.found m shmat with sys := y'}.setArenaAddr 0
    ⟨some addr, ((w.found m shmat).arenas 0).shmid⟩) (hw.found_arenas hpos) Nat.one_ne_zero harenas
    (fun m k l => by
      show y'.shmat m k l ≠ _
      rw [hshmat]
      exact haddr m k l) fun u e hloop hshare => ?_
  rw [Script.wp_bind]
  refine ⟨trivial, fun r _ => ⟨fun _ => ?_, fun h₀ => absurd rfl h₀⟩⟩
  obtain ⟨hshows, hstep, hin, hatt⟩ := h.enters hN hs hpid hmap hloop hshare r.errno
  exact ⟨m, _, ⟨hpid, hm, hfree⟩, hstep, hshows, hin, hatt⟩

theorem Sysv.mmap_attach {y : Sysv} {shmid addr : Nat} (hne : shmid ≠ 0)
    (h : y.shmat shmid y.attaches y.attached = some addr) : y.mmap shmid = (y.attach shmid addr, some addr) := by
  rw [Sysv.mmap, if_neg hne, h]
  rfl

theorem Sysv.shmget_attaches (y : Sysv) (index m : Nat) : (y.shmget index m).1.attaches = y.attaches := by
  obtain ⟨m', -, h⟩ | ⟨-, h⟩ := y.shmget_cases index m <;> rw [h]

/-- The action is that of a run of the calls. -/
theorem shmInit_run (h : s.Shows K w) (hN : Named w) (hw : w.SegmentsOk) (hs : s.Starts shmat)
    (haddr : ∀ m k l, shmat m k l ≠ some 0) (hl : (Action.init pid m shmat).Legal w)
    (hrun : (Action.init pid m shmat).step w = .ok w') (hin : pid ∈ w'.pids) (path : String) (fuel : Nat) :
    ∃ t, Script.Run (sysv K (NewId w)) (shmInit path true (fuel + 1)) s (.ret 0) t ∧ t.Shows K w' ∧
      (w'.proc pid).attached = t.sys.attached := by
  obtain ⟨hpid, hm, hfree⟩ := hl
  have hy : s.sys.Names (NewId w) := h.names hN hw fun m k l => hs.shmat ▸ haddr m k l
  obtain ⟨hsys, hid⟩ := h.found hN hs m shmat
  rcases World.init_cases hrun with ⟨-, k, rfl⟩ | ⟨addr, u, hne, hans, hloop, rfl⟩
  · exact absurd hin hpid
  have hid' : ((w.context m).arenas 0).shmid = (s.sys.shmget 0 m).2 := hid
  have hsys' : (w.found m shmat).sys = (s.sys.shmget 0 m).1 := by
    have hshmat : (s.sys.shmget 0 m).1.shmat = shmat := (Sysv.shmget_shmat s.sys 0 m).trans hs.shmat
    rw [hsys, ← hshmat]
  have hmap : (s.sys.shmget 0 m).1.mmap (s.sys.shmget 0 m).2 =
      ((s.sys.shmget 0 m).1.attach (s.sys.shmget 0 m).2 addr, some addr) := by
    rw [hid'] at hne hans
    refine Sysv.mmap_attach hne ?_
    rw [Sysv.shmget_shmat, hs.shmat, Sysv.shmget_attaches, hs.attaches, Sysv.shmget_attached, hs.attached]
    exact hans
  have hfound : attachArena (w.found m shmat) 0 addr = {w.found m shmat with
      sys := (s.sys.shmget 0 m).1.attach (s.sys.shmget 0 m).2 addr}.setArenaAddr 0
        ⟨some addr, ((w.found m shmat).arenas 0).shmid⟩ := by
    rw [attachArena, hsys', hid]
  rw [hfound] at hloop
  obtain ⟨-, -, -, hctx⟩ := h.setUp hN hs m
  have harenas : (s.fields.setUp (K.key 0) (s.sys.shmget 0 m).2).shm.arenas = (w.context m).arenas := by
    rw [hctx]
  have hshare := mmapArenas_shared hloop
  obtain ⟨e, hattach⟩ := attachArenas_run (K := K) (f := {s.fields.setUp (K.key 0) (s.sys.shmget 0 m).2 with
    count := (s.fields.setUp (K.key 0) (s.sys.shmget 0 m).2).count + 1}) (n := 0)
    (t := {w.found m shmat with sys := (s.sys.shmget 0 m).1.attach (s.sys.shmget 0 m).2 addr}.setArenaAddr 0
      ⟨some addr, ((w.found m shmat).arenas 0).shmid⟩) (hw.found_arenas hne) Nat.one_ne_zero harenas (fun m' k l => by
      show (s.sys.shmget 0 m).1.shmat m' k l ≠ _
      rw [Sysv.shmget_shmat, hs.shmat]
      exact haddr m' k l) hloop
  obtain ⟨hshows, -, -, hatt⟩ := h.enters hN hs hpid hmap hloop hshare 0
  refine ⟨_, ?_, hshows, hatt⟩
  refine .head ⟨1, 0⟩ trivial ?_
  refine .head ⟨0, 0⟩ trivial ?_
  show Script.Run _ (initSharedContext path true (fuel + 1) >>= _) _ _ _
  refine .bind (initSharedContext_run hy hm (fun hset => (h.context (h.set.mp hset)).1) hmap) ?_
  refine .head ⟨0, 0⟩ trivial ?_
  show Script.Run _ (attachArenas 127 1 >>= _) _ _ _
  refine .bind hattach ?_
  exact .head ⟨0, 0⟩ trivial (.refl _ _)

/-- **The calls of `shm_init` are the action of the world.** With the context as the processes of a run have left it,
whatever the system has let them attach: a process that gets 0 from `shm_init` is in, by the action, with the attaches
that it has made; any other is not, and the most it has done is to create the segment of the context. An assertion
fails only in a process that does not create the context and finds its segment with nobody in. And each action by which
a process comes in is that of some run of the calls. -/
theorem shmInit_world (hw : worldMachine.Reach (fun _ _ => True) w) (h : s.Shows K w) (hs : s.Starts shmat)
    (hfree : FreshAddrs shmat) (haddr : ∀ m k l, shmat m k l ≠ some 0) (hpid : pid ∉ w.pids) (path : String)
    {fuel : Nat} (hfuel : 0 < fuel) :
    (∀ create p t, Script.Run (sysv K (NewId w)) (shmInit path create fuel) s p t →
      (∀ r, p = .ret r → InitShows K w pid shmat r t) ∧
      ∀ e, p = .fail e → e = .fuel ∨ e = .assertion ∧ create = false ∧ w.pids = [] ∧ w.shm.sys.key 0 ≠ none) ∧
    ∀ m w', (Action.init pid m shmat).Legal w → (Action.init pid m shmat).step w = .ok w' → pid ∈ w'.pids →
      ∃ t, Script.Run (sysv K (NewId w)) (shmInit path true fuel) s (.ret 0) t ∧ t.Shows K w' ∧
        (w'.proc pid).attached = t.sys.attached := by
  have hN : Named w := .reach hw
  have hsegments : w.SegmentsOk := .reach hw
  refine ⟨fun create p t hr => ?_, fun m w' hl hrun hin => ?_⟩
  · have hwp := (shmInit_shows h hN hsegments hs hfree haddr hpid).run hr
    refine ⟨fun r hp => ?_, fun e hp => ?_⟩
    · rw [hp] at hwp
      exact hwp
    · rw [hp] at hwp
      exact hwp
  · obtain ⟨n, rfl⟩ : ∃ n, fuel = n + 1 := ⟨fuel - 1, by omega⟩
    exact shmInit_run h hN hsegments hs haddr hl hrun hin path n

/-- The system as nobody has used the path yet. -/
def Ipc.start : Ipc := ⟨{World.start.shm.sys with shmat := servingShmat}, ⟨false, 0, 0, initShm 0⟩, 0⟩

theorem Ipc.start_shows : Ipc.start.Shows indexKeys World.start where
  segment := rfl
  created := rfl
  key := rfl
  set := iff_of_false (by decide) fun hp => hp rfl
  context hp := absurd rfl hp

theorem Ipc.start_starts : Ipc.start.Starts servingShmat := ⟨rfl, rfl, rfl⟩

theorem servingShmat_addr (m k : Nat) (l : List Attach) : servingShmat m k l ≠ some 0 := fun h => by
  cases Option.some.inj h

theorem World.start_reach : worldMachine.Reach (fun _ _ => True) World.start := .start ⟨rfl, fun _ => rfl⟩

theorem first_legal : (Action.init 1 10 servingShmat).Legal World.start :=
  ⟨by decide, by decide, servingShmat_fresh⟩

theorem first_step : ∃ w, (Action.init 1 10 servingShmat).step World.start = .ok w ∧ w.pids = [1] := by
  have hrun : ((Action.init 1 10 servingShmat).step World.start).toOption.any (fun w => w.pids = [1]) = true := by
    decide +kernel
  obtain ⟨w, hstep, hpids⟩ := exists_ok hrun
  exact ⟨w, hstep, of_decide_eq_true hpids⟩

theorem shmInit_world_test : ∃ w t, w.pids = [1] ∧ Script.Run (sysv indexKeys (NewId World.start)) (shmInit "shm" true 1)
    .start (.ret 0) t ∧ t.Shows indexKeys w ∧ (w.proc 1).attached = t.sys.attached := by
  obtain ⟨w, hstep, hpids⟩ := first_step
  obtain ⟨t, hrun, hshows, hatt⟩ := (shmInit_world World.start_reach Ipc.start_shows Ipc.start_starts servingShmat_fresh
    servingShmat_addr (show 1 ∉ World.start.pids by decide) "shm" Nat.one_pos).2 10 w first_legal hstep
    (by rw [hpids]; exact List.mem_singleton_self 1)
  exact ⟨w, t, hpids, hrun, hshows, hatt⟩

/-! ### The end of a process -/

theorem exitSharedContext_shows {fresh : Nat → Prop} (h : s.Shows K w) (hN : Named w) (hpid : pid ∈ w.pids) :
    exitSharedContext.Wp (sysv K fresh) (fun _ t => t.Shows K (w.exit pid) ∨ w.pids = [pid] ∧ t.sys = s.sys)
      (fun _ _ => False) s := by
  obtain ⟨hkey, hcount, hshare⟩ := h.context (List.ne_nil_of_mem hpid)
  have hlength : (w.pids.filter (· ≠ pid)).length + 1 = w.pids.length := by
    have herase : w.pids.erase pid = w.pids.filter (· ≠ pid) := by
      rw [hN.nodup.erase_eq_filter]
      exact List.filter_congr fun a _ => by rw [Bool.eq_iff_iff]; simp
    rw [← herase, List.length_erase_of_mem hpid]
    have := List.length_pos_of_mem hpid
    omega
  rw [exitSharedContext, Script.wp_bind]
  refine ⟨trivial, fun count hsub => ?_⟩
  have hsub : count.value = s.fields.count - 1 := hsub
  show Script.Wp _ _ _ (if count.value = 0 then _ else _)
    (⟨s.sys, {s.fields with count := s.fields.count - 1}, count.errno⟩ : Ipc)
  split
  · next hzero =>
    have hlast : w.pids.filter (· ≠ pid) = [] := List.length_eq_zero_iff.mp (by omega)
    have hexit : w.exit pid = ⟨{w.shm with sys := w.shm.sys.remove 0}, [], Function.update w.proc pid .none⟩ := by
      unfold World.exit
      dsimp only
      rw [hlast, if_pos rfl]
    have hid : (s.fields.shm.arenas 0).shmid = (w.shm.arenas 0).shmid := by rw [hshare]
    have hnames : s.sys.key 0 = some (w.shm.arenas 0).shmid := by
      rw [h.key]
      exact hN.context (List.ne_nil_of_mem hpid)
    rw [Script.wp_bind]
    refine ⟨trivial, fun shmid hshmid => ?_⟩
    have hshmid : shmid.value = ((s.fields.shm.arenas 0).shmid : Int) := hshmid
    show Script.Wp _ _ _ (shmRemove shmid.value >>= _) (⟨s.sys, {s.fields with count := s.fields.count - 1}, shmid.errno⟩ : Ipc)
    rw [hshmid, hid, Script.wp_bind]
    refine shmRemove_sysv (fun e => .inl ?_) fun err e _ => .inr ⟨?_, rfl⟩
    · rw [hexit, if_pos hnames, Sysv.rmid_eq_remove fun i =>
        ⟨fun hi => hN.keys.own i 0 _ (h.key ▸ hi) (h.key ▸ hnames), fun hi => hi ▸ hnames⟩]
      refine ⟨h.segment, h.created, ?_, iff_of_false (by simp) (by simp), fun hp => absurd rfl hp⟩
      show Function.update s.sys.key 0 none = Function.update w.shm.sys.key 0 none
      rw [h.key]
    · rw [hlast] at hlength
      obtain ⟨a, ha⟩ := List.length_eq_one_iff.mp hlength.symm
      rw [ha, List.mem_singleton] at hpid
      rw [ha, hpid]
  · next hne =>
    have hothers : w.pids.filter (· ≠ pid) ≠ [] := fun hnil => by
      rw [hnil] at hlength
      exact hne (by rw [hsub, hcount, ← hlength]; rfl)
    have hexit : w.exit pid = ⟨w.shm, w.pids.filter (· ≠ pid), Function.update w.proc pid .none⟩ := by
      unfold World.exit
      dsimp only
      rw [if_neg hothers]
    refine .inl ?_
    rw [hexit]
    refine ⟨h.segment, h.created, h.key, iff_of_true (h.set.mpr (List.ne_nil_of_mem hpid)) hothers, fun _ =>
      ⟨hkey, ?_, hshare⟩⟩
    show s.fields.count - 1 = ((w.pids.filter (· ≠ pid)).length : Int)
    rw [hcount, ← hlength]
    omega

/-- **The calls of `exit_shared_context` are the action of the world**, whatever the system has let the processes
attach, unless the process is the last one and the segment is not removed. -/
theorem exit_world (hw : worldMachine.Reach (fun _ _ => True) w) (h : s.Shows K w) (hpid : pid ∈ w.pids)
    {fresh : Nat → Prop} {p : Sys Unit} (hr : Script.Run (sysv K fresh) exitSharedContext s p t) :
    (p = .ret () → t.Shows K (w.exit pid) ∨ w.pids = [pid] ∧ t.sys = s.sys) ∧ ∀ e, p ≠ .fail e := by
  have hwp := (exitSharedContext_shows h (.reach hw) hpid).run hr
  refine ⟨fun hp => ?_, fun e hp => ?_⟩
  · rw [hp] at hwp
    exact hwp
  · rw [hp] at hwp
    exact hwp

theorem exit_world_test : ∃ w s t, w.pids = [1] ∧ s.Shows indexKeys w ∧
    Script.Run (sysv indexKeys (NewId w)) exitSharedContext s (.ret ()) t ∧
    (t.Shows indexKeys (w.exit 1) ∨ w.pids = [1] ∧ t.sys = s.sys) := by
  obtain ⟨w, hstep, hpids⟩ := first_step
  have hmem : 1 ∈ w.pids := by rw [hpids]; exact List.mem_singleton_self 1
  obtain ⟨s, -, hshows, -⟩ := shmInit_run Ipc.start_shows (.reach World.start_reach) (.reach World.start_reach) Ipc.start_starts
    servingShmat_addr first_legal hstep hmem "shm" 0
  have hw : worldMachine.Reach (fun _ _ => True) w :=
    World.start_reach.step (a := .init 1 10 servingShmat) first_legal trivial hstep
  have hcount : s.fields.count - 1 = 0 := by
    rw [(hshows.context (List.ne_nil_of_mem hmem)).2.1, hpids]
    rfl
  have hlast : ∃ t, Script.Run (sysv indexKeys (NewId w)) (if s.fields.count - 1 = 0 then call .contextShmid >>= fun shmid =>
      shmRemove shmid.value >>= fun _ => pure () else pure ())
      ⟨s.sys, {s.fields with count := s.fields.count - 1}, 0⟩ (.ret ()) t := by
    rw [if_pos hcount]
    exact ⟨_, .head ⟨(s.fields.shm.arenas 0).shmid, 0⟩ rfl (.head ⟨0, 0⟩ trivial (.refl _ _))⟩
  obtain ⟨t, hlast⟩ := hlast
  have hrun : Script.Run (sysv indexKeys (NewId w)) exitSharedContext s (.ret ()) t :=
    .head ⟨s.fields.count - 1, 0⟩ rfl hlast
  exact ⟨w, s, t, hpids, hshows, hrun, (exit_world hw hshows hmem hrun).1 rfl⟩

end

end ShmMalloc.System
