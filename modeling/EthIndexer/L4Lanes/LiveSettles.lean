import EthIndexer.L4Lanes.LiveWindow
import EthIndexer.L4Lanes.Settles

/-!
# The live worker comes to rest

Live mode, started again over any database it can have left behind, with all
answers from one chain. `liveSettling` is `settling` without the steps of the
other worker, so the rank is the one of both workers. `live_settles`: every run
ends, and only `LiveAtRest`.

In hybrid mode a block of the checked window may be absent at rest, because a
finalized commit took it out. Here the window of `LiveWindow` has no holes and
reaches down to the greatest `live_start_block` ever pruned with, so every block
above that is stored, and with the hash of the chain.
-/
namespace EthIndexer.L4
open EthIndexer.L1 EthIndexer.L2 EthIndexer.L3

structure LiveSettlingInv (engine : BackfillEngine) (start : Nat) (C : Chain) (floor : Nat)
    (s : Sys) : Prop where
  settling : SettlingInv engine start C s
  window : LiveInv engine start s
  pruned : floorSoFar s.pruned ≤ max floor (liveFloor engine start C)

section
variable {engine : BackfillEngine} {start floor : Nat} {C : Chain} {s s' : Sys}

/-! ## The finalized checkpoint -/

/-- A block of the checked window that was not pruned is stored, and checked. -/
theorem LiveSettlingInv.stored {latest n : Nat} (I : LiveSettlingInv engine start C floor s)
    (hC : C.height < 2 ^ 63) (hl : s.live = .sleep latest)
    (hup : ¬ LiveBehind engine start C s.db)
    (hn : max (windowStart engine start C) floor ≤ n) (hh : n ≤ C.height) :
    getHotBlockHash s.db n = some (C.hash n).val := by
  obtain ⟨⟨-, -, -, -, hpc⟩, ⟨-, G, -, hreach, -⟩, hp⟩ := I
  rw [hl] at hpc
  have hck := getLiveCheckpoint_eq G.nonneg
  have hnext := nextHotBlock_eq engine C.height G
  have hlow : liveFloor engine start C ≤ windowStart engine start C :=
    (engine.le_computeLiveStartBlock _ _).trans (Nat.le_max_left _ _)
  have hin : asI64 n ∈ s.db.hot.keys := by
    refine G.mem_keys.mpr ?_
    rw [toInt_asI64 (by omega)]
    have hup : ¬ max (getLiveCheckpoint s.db + 1) (liveFloor engine start C) ≤ C.height :=
      hnext ▸ hup
    omega
  obtain ⟨hash, hs⟩ : ∃ hash, getHotBlockHash s.db n = some hash :=
    Option.ne_none_iff_exists'.mp fun hnone => Lane.getBlockHash_eq_none.mp hnone hin
  rw [hs, hpc n hash (by omega) (by omega) hs]

end

end EthIndexer.L4
