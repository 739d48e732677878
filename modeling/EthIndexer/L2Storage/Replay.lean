import EthIndexer.L2Storage.Lane

/-!
# Replaying a commit

A range may be committed again with the same arguments. `ReplaySafe` is what the
write path promises then: the second commit changes no table and counts every
transfer as a duplicate, and the counts of each commit are those of the keys the
target table did not have.

Each statement absorbs its own repetition: an `INSERT ... DO NOTHING` finds all
keys, an upsert finds all rows (`Table.upsertAll_idem` wants the block numbers of
the batch distinct), a `DELETE` finds nothing to delete, and the checkpoint is
overwritten with what it is.
-/
namespace EthIndexer.L2
open EthIndexer.L1

/-- What a commit of `records` into the table `target` guarantees, from any
database state. -/
structure ReplaySafe (records : List Erc20TransferRecord)
    (target : Db → Table Erc20TransferRecord.key) (commit : Db → Db × CommitStats) : Prop where
  idempotent : ∀ db, (commit (commit db).1).1 = (commit db).1
  inserted : ∀ db, (commit db).2.insertedTransfers = ((target db).absentKeys records).card
  attempted : ∀ db, (commit db).2.attemptedTransfers =
    (commit db).2.insertedTransfers + (commit db).2.duplicateTransfers
  replayed : ∀ db, (commit (commit db).1).2.insertedTransfers = 0 ∧
    (commit (commit db).1).2.duplicateTransfers = records.length

/-! ## A lane -/

namespace Lane
variable {records : List Erc20TransferRecord} {blocks : List (Nat × Bytes)}

theorem insertTransfers_count (l : Lane) (records : List Erc20TransferRecord) :
    (l.insertTransfers records).2 = (l.transfers.absentKeys records).card := by
  simp only [insertTransfers, Table.length_insertAllIgnore]
  exact Nat.add_sub_cancel_left ..

/-- The keys of a committed batch are all stored. -/
theorem mem_keys_insertRange_transfers (l : Lane) {r : Erc20TransferRecord} (h : r ∈ records) :
    r.key ∈ (l.insertRange records blocks).transfers.keys :=
  Table.keys_insertAllIgnore.mpr (.inr (List.mem_map_of_mem h))

theorem insertRange_idem (l : Lane) (records : List Erc20TransferRecord)
    (hn : (blocks.map Prod.fst).Nodup) (hlt : ∀ n ∈ blocks.map Prod.fst, n < 2 ^ 64) :
    (l.insertRange records blocks).insertRange records blocks = l.insertRange records blocks := by
  have hnd : ((blocks.map blockRow).map IndexedBlock.blockNumber).Nodup := by
    rw [blockRow_keys]; exact asI64_nodup hn hlt
  simp only [insertRange, insertTransfers, insertBlocks, Table.insertAllIgnore_idem,
    Table.upsertAll_idem _ hnd]

theorem deleteRangeBetween_idem (l : Lane) (a b : Nat) :
    (l.deleteRangeBetween a b).deleteRangeBetween a b = l.deleteRangeBetween a b := by
  simp only [deleteRangeBetween, deleteNumbers, Table.deleteWhere_idem]

/-- A batch inserted again adds no transfer. -/
theorem insertTransfers_replay (l : Lane) :
    ((l.insertRange records blocks).insertTransfers records).2 = 0 := by
  rw [insertTransfers_count, Table.absentKeys_eq_empty, Finset.card_empty]
  exact fun r hr => mem_keys_insertRange_transfers l hr

end Lane

/-! ## The commits -/

section
variable {records : List Erc20TransferRecord} {blocks : List (Nat × Bytes)} {l : Lane}

theorem commitStats_attempted :
    (commitStats (l.insertTransfers records).2 records blocks).attemptedTransfers =
      (commitStats (l.insertTransfers records).2 records blocks).insertedTransfers +
      (commitStats (l.insertTransfers records).2 records blocks).duplicateTransfers := by
  have hle := Table.card_absentKeys_le l.transfers records
  simp only [commitStats, Lane.insertTransfers_count]
  omega

/-- The counts of a replayed commit. -/
theorem commitStats_replay :
    (commitStats ((l.insertRange records blocks).insertTransfers records).2 records
      blocks).insertedTransfers = 0 ∧
    (commitStats ((l.insertRange records blocks).insertTransfers records).2 records
      blocks).duplicateTransfers = records.length := by
  rw [l.insertTransfers_replay]
  exact ⟨rfl, Nat.sub_zero _⟩

end

/-- **Replay.** For every payload with distinct block numbers, whatever its
transfers repeat and whatever the database holds, both commits can be replayed,
and both count honestly. -/
theorem commit_replay (records : List Erc20TransferRecord) (blocks : List (Nat × Bytes))
    (startBlock checkpoint : Nat) (hn : (blocks.map Prod.fst).Nodup)
    (hlt : ∀ n ∈ blocks.map Prod.fst, n < 2 ^ 64) :
    ReplaySafe records (fun db => db.cold.transfers)
      (commitFinalizedRange · records blocks startBlock checkpoint) ∧
    ReplaySafe records (fun db => db.hot.transfers) (commitHotRange · records blocks checkpoint) := by
  constructor
  · refine ⟨fun db => ?_, fun db => db.cold.insertTransfers_count records,
      fun _ => commitStats_attempted, fun _ => commitStats_replay⟩
    have hcold := db.cold.insertRange_idem records hn hlt
    have hhot := db.hot.deleteRangeBetween_idem startBlock checkpoint
    simp only [Lane.insertRange] at hcold
    simp only [commitFinalizedRange, hcold, hhot]
  · refine ⟨fun db => ?_, fun db => db.hot.insertTransfers_count records,
      fun _ => commitStats_attempted, fun _ => commitStats_replay⟩
    have hhot := db.hot.insertRange_idem records hn hlt
    simp only [Lane.insertRange] at hhot
    simp only [commitHotRange, hhot]

/-- Two transfers of block 1, the first one repeated. -/
def repeatedTransfers : List Erc20TransferRecord :=
  [0, 1, 0].map fun logIndex => ⟨1, [1], [9], logIndex, [7], [0], [0], 5, 0⟩

theorem commit_replay_repeated :
    (commitHotRange .migrated repeatedTransfers [(1, [1])] 1).2 = ⟨3, 2, 1, 1⟩ ∧
    ReplaySafe repeatedTransfers (fun db => db.hot.transfers)
      (commitHotRange · repeatedTransfers [(1, [1])] 1) :=
  ⟨by decide, (commit_replay _ _ 1 1 (by decide) (by decide)).2⟩

end EthIndexer.L2
