import ShmMalloc.Chunk.MediumLive

/-! Which offsets of a medium chunk are taken for a unit.

Both calls look at the type bit of the page alone, and the layout of every reachable
chunk has that bit set at the starts of its live units and nowhere else. -/
namespace ShmMalloc
open Library

/-- The offset is the first byte of a live unit. -/
def LiveStart (w : LiveWorld) (c offset : Nat) : Prop := ∃ p n, (p, n) ∈ w.live c ∧ offset = p * 4096

/-- What `free_chunk_medium` does at an offset: the unit that starts there is out of use and the
others stay in use, or, if none does, nothing changes. -/
structure FreeExact (w : LiveWorld) (c offset : Nat) (s : Shm) (b : Bool) : Prop where
  frees : LiveStart w c offset →
    ∀ p n, UsedUnit (s.medium c) p n ↔ (p, n) ∈ w.live c ∧ offset ≠ p * 4096
  rejects : ¬LiveStart w c offset → s = w.world.shm ∧ b = false

/-- `check_chunk_medium` returns 0 where there is nothing to free, and only there. -/
def CheckExact (w : LiveWorld) (c offset : Nat) : Prop :=
  ∃ n, checkChunkMedium w.world.shm c offset = .ok n ∧ (n = 0 ↔ ¬LiveStart w c offset)

theorem freeChunkMedium_exact {w : LiveWorld} (hi : MediumInv (fun _ _ => True) w.world)
    (hlive : LiveOk w) {c offset : Nat} (hc : c ∈ w.world.chunks) (hoff : offset < 2 ^ 20) :
    ∃ s b, freeChunkMedium w.world.shm c offset = .ok (s, b) ∧ FreeExact w c offset s b := by
  obtain ⟨lm, hpool, hperm, hchunks⟩ := hi
  obtain ⟨l, m, -⟩ := hchunks c hc
  by_cases hstart : LiveStart w c offset
  · obtain ⟨p, n, hmem, rfl⟩ := id hstart
    have hu := (hlive c hc p n).mpr hmem
    obtain ⟨s, l', lm', index, k, hrun, -, -, -, -, -, hrel, -⟩ :=
      freeChunkMedium_step hpool (hperm.mem_iff.mpr hc) m hu
    refine ⟨s, _, hrun, fun _ q k => ?_, fun hno => absurd hstart hno⟩
    rw [hrel.used, hlive c hc]
    refine and_congr_right fun _ => not_congr ?_
    omega
  · obtain ⟨hnone, -⟩ | ⟨n, halign, hu, -⟩ := m.free_cases offset
    · exact ⟨w.world.shm, false, hnone, fun h => absurd h hstart, fun _ => ⟨rfl, rfl⟩⟩
    · have hmem := (hlive c hc _ n).mp hu
      exact absurd ⟨_, n, hmem, by omega⟩ hstart

/-- **At every offset** `free_chunk_medium` gives back the live unit that starts there or changes
nothing, and no assertion of it fails; `check_chunk_medium` tells the two cases apart only
in the second one, since it returns 0 for a live unit too. -/
theorem medium_offsets {w : LiveWorld} (h : liveMachine.Reach (fun _ _ => True) w) {c offset : Nat}
    (hc : c ∈ w.world.chunks) (hoff : offset < 2 ^ 20) :
    (∃ s b, freeChunkMedium w.world.shm c offset = .ok (s, b) ∧ FreeExact w c offset s b) ∧
      (CheckExact w c offset ↔ ¬LiveStart w c offset) := by
  obtain ⟨hr, hlive⟩ := live_reach h
  have hi := mediumInv_reach hr
  refine ⟨freeChunkMedium_exact hi hlive hc hoff, ?_⟩
  obtain ⟨-, -, -, hchunks⟩ := hi
  obtain ⟨l, m, -⟩ := hchunks c hc
  constructor
  · rintro ⟨n, hcheck, hiff⟩
    rw [checkChunkMedium_spec m] at hcheck
    exact hiff.mp (Except.ok.inj hcheck).symm
  · intro hno
    exact ⟨0, checkChunkMedium_spec m offset, iff_of_true rfl hno⟩

/-- Offset 8192 is inside the live unit of 3 pages that starts at 4096. -/
theorem medium_offsets_inside : ∃ w, liveMachine.Reach (fun _ _ => True) w ∧
    2 ^ 20 ∈ w.world.chunks ∧ (1, 3) ∈ w.live (2 ^ 20) ∧
    (∃ s b, freeChunkMedium w.world.shm (2 ^ 20) 8192 = .ok (s, b) ∧
      FreeExact w (2 ^ 20) 8192 s b) ∧
    (CheckExact w (2 ^ 20) 8192 ↔ ¬LiveStart w (2 ^ 20) 8192) := by
  obtain ⟨w, hreach, hw⟩ := unitTest_reach
  obtain ⟨hc, hu, -⟩ := unitTest_spec hw
  exact ⟨w, hreach, hc, hu, medium_offsets hreach hc (by decide)⟩

/-- The check of the live unit at 4096 returns 0. -/
theorem medium_check_zero : ∃ w, liveMachine.Reach (fun _ _ => True) w ∧
    2 ^ 20 ∈ w.world.chunks ∧ LiveStart w (2 ^ 20) 4096 ∧ ¬CheckExact w (2 ^ 20) 4096 := by
  obtain ⟨w, hreach, hw⟩ := unitTest_reach
  obtain ⟨hc, hu, -⟩ := unitTest_spec hw
  have hstart : LiveStart w (2 ^ 20) 4096 := ⟨1, 3, hu, rfl⟩
  refine ⟨w, hreach, hc, hstart, ?_⟩
  rintro ⟨n, hcheck, hiff⟩
  obtain ⟨-, -, -, hchunks⟩ := mediumInv_reach (live_reach hreach).1
  obtain ⟨l, m, -⟩ := hchunks _ hc
  rw [checkChunkMedium_spec m] at hcheck
  exact hiff.mp (Except.ok.inj hcheck).symm hstart

end ShmMalloc
