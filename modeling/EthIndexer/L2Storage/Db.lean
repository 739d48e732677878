import Mathlib.Data.List.Sort
import EthIndexer.Core.Cast
import EthIndexer.Core.Table
import EthIndexer.L1Chain.Decoder

/-!
# The database and its transactions

Six tables: a cold lane (`erc20_transfers`, `indexed_blocks`), a hot lane
(`hot_erc20_transfers`, `hot_indexed_blocks`) and one checkpoint row for each.
A lane is the pair of tables the storage helpers are given by name; their
primary keys are part of the table type.

A transaction is a function on `Db`: the statements between `begin` and `commit`
are one step, taken after those of every transaction that committed before it. That
is a serial order. PostgreSQL makes a transaction atomic, but at READ COMMITTED,
which the code runs at, the statements of two open transactions may alternate, and
such runs are not represented. Neither is a transaction that fails, which has no
effect.

Partition creation (`ensure_partitions_for_range_tx`) changes where a row is
stored and not which rows there are, so it does not show in this state.
`Committable` says which batches the statements of a commit can carry.
-/
namespace EthIndexer.L2
open EthIndexer.L1

/-- mirrors crates/storage/src/models.rs:5-18; `value` is the integer in the
`NUMERIC(78,0)` column. -/
structure Erc20TransferRecord where
  blockNumber : Int64
  blockHash : Bytes
  txnHash : Bytes
  logIndex : Int32
  contractAddress : Bytes
  fromAddress : Bytes
  toAddress : Bytes
  value : Nat
  timestamp : Int64
  deriving DecidableEq

/-- `PRIMARY KEY (txn_hash, log_index, block_number)`.
mirrors migrations/001_create_erc20_transfers.sql:16 -/
def Erc20TransferRecord.key (r : Erc20TransferRecord) : Bytes × Int32 × Int64 :=
  (r.txnHash, r.logIndex, r.blockNumber)

/-- mirrors migrations/003_create_indexed_blocks.sql:1-4 -/
structure IndexedBlock where
  blockNumber : Int64
  blockHash : Bytes
  deriving DecidableEq

/-- A pair `(transfers_table, blocks_table)`. -/
structure Lane where
  transfers : Table Erc20TransferRecord.key
  blocks : Table IndexedBlock.blockNumber

def Lane.empty : Lane := ⟨.empty, .empty⟩

structure Db where
  cold : Lane
  hot : Lane
  indexerCheckpoint : Int64
  liveIndexerCheckpoint : Int64

/-- The freshly migrated database.
mirrors migrations/002_create_indexer_checkpoint.sql:6-8 and
migrations/005_create_live_indexer_checkpoint.sql:6-8 -/
def Db.migrated : Db := ⟨.empty, .empty, 0, 0⟩

/-- mirrors crates/storage/src/lib.rs:15-21 -/
structure CommitStats where
  attemptedTransfers : Nat
  insertedTransfers : Nat
  duplicateTransfers : Nat
  blockRows : Nat
  deriving DecidableEq

/-! ## Selects -/

/-- mirrors crates/storage/src/lib.rs:31-41 -/
def getCheckpoint (db : Db) : Nat := asU64 db.indexerCheckpoint

/-- mirrors crates/storage/src/lib.rs:43-53 -/
def getLiveCheckpoint (db : Db) : Nat := asU64 db.liveIndexerCheckpoint

/-- mirrors crates/storage/src/lib.rs:223-240 -/
def Lane.getBlockHash (l : Lane) (n : Nat) : Option Bytes :=
  (l.blocks.get? (asI64 n)).map IndexedBlock.blockHash

/-- mirrors crates/storage/src/lib.rs:55-60 -/
def getBlockHash (db : Db) (n : Nat) : Option Bytes := db.cold.getBlockHash n

/-- mirrors crates/storage/src/lib.rs:62-67 -/
def getHotBlockHash (db : Db) (n : Nat) : Option Bytes := db.hot.getBlockHash n

/-- The rows of `erc20_transfers UNION ALL hot_erc20_transfers`.
mirrors crates/api/src/schema.rs:82-118 -/
def combinedTransfers (db : Db) : List Erc20TransferRecord :=
  db.cold.transfers.rows ++ db.hot.transfers.rows

/-! ## Batches that can be committed -/

/-- The number of parameters of a `Bind` message is 16 bits wide. -/
def MAX_BIND_PARAMETERS : Nat := 65535

/-- mirrors crates/storage/src/lib.rs:9 -/
def BLOCK_PARTITION_SIZE : Int := 100000

/-- The start of the last partition, whose end does not fit an `i64`. -/
def lastPartition : Int := 9223372036854700000

/-- Each of the two `INSERT`s carries its rows, and each transfer has a partition. -/
structure Committable (records : List Erc20TransferRecord) (blocks : List (Nat × Bytes)) :
    Prop where
  transferBinds : 9 * records.length ≤ MAX_BIND_PARAMETERS
  blockBinds : 2 * blocks.length ≤ MAX_BIND_PARAMETERS
  partitioned : ∀ r ∈ records, 0 ≤ r.blockNumber.toInt ∧ r.blockNumber.toInt < lastPartition

instance (records : List Erc20TransferRecord) (blocks : List (Nat × Bytes)) :
    Decidable (Committable records blocks) :=
  decidable_of_iff (9 * records.length ≤ MAX_BIND_PARAMETERS ∧
      2 * blocks.length ≤ MAX_BIND_PARAMETERS ∧
      ∀ r ∈ records, 0 ≤ r.blockNumber.toInt ∧ r.blockNumber.toInt < lastPartition)
    ⟨fun ⟨ht, hb, hp⟩ => ⟨ht, hb, hp⟩, fun h => ⟨h.transferBinds, h.blockBinds, h.partitioned⟩⟩

/-! ## Statements on a lane -/

namespace Lane

/-- The lane after the insert, and `rows_affected`.
mirrors crates/storage/src/lib.rs:274-327 -/
def insertTransfers (l : Lane) (records : List Erc20TransferRecord) : Lane × Nat :=
  ({ l with transfers := l.transfers.insertAllIgnore records },
    (l.transfers.insertAllIgnore records).rows.length - l.transfers.rows.length)

def blockRow (b : Nat × Bytes) : IndexedBlock := ⟨asI64 b.1, b.2⟩

/-- mirrors crates/storage/src/lib.rs:329-356 -/
def insertBlocks (l : Lane) (blocks : List (Nat × Bytes)) : Lane :=
  { l with blocks := l.blocks.upsertAll (blocks.map blockRow) }

/-- Delete the transfers and the blocks whose number satisfies `p`. -/
def deleteNumbers (l : Lane) (p : Int64 → Bool) : Lane :=
  { transfers := l.transfers.deleteWhere fun r => p r.blockNumber,
    blocks := l.blocks.deleteWhere fun b => p b.blockNumber }

/-- `WHERE block_number >= $1`.
mirrors crates/storage/src/lib.rs:358-383 -/
def deleteRangeFrom (l : Lane) (fromBlock : Nat) : Lane :=
  l.deleteNumbers fun k => decide (asI64 fromBlock ≤ k)

/-- `WHERE block_number BETWEEN $1 AND $2`.
mirrors crates/storage/src/lib.rs:385-413 -/
def deleteRangeBetween (l : Lane) (startBlock endBlock : Nat) : Lane :=
  l.deleteNumbers fun k => decide (asI64 startBlock ≤ k ∧ k ≤ asI64 endBlock)

/-- `WHERE block_number < $1`. -/
def deleteRangeBefore (l : Lane) (beforeBlock : Nat) : Lane :=
  l.deleteNumbers fun k => decide (k < asI64 beforeBlock)

end Lane

/-! ## Transactions -/

/-- mirrors crates/storage/src/lib.rs:134-141 and :158-165 -/
def commitStats (inserted : Nat) (records : List Erc20TransferRecord)
    (blocks : List (Nat × Bytes)) : CommitStats :=
  { attemptedTransfers := records.length, insertedTransfers := inserted,
    duplicateTransfers := records.length - inserted, blockRows := blocks.length }

/-- mirrors crates/storage/src/lib.rs:111-142 -/
def commitFinalizedRange (db : Db) (records : List Erc20TransferRecord)
    (blocks : List (Nat × Bytes)) (startBlock checkpoint : Nat) : Db × CommitStats :=
  ({ db with
      cold := (db.cold.insertTransfers records).1.insertBlocks blocks,
      hot := db.hot.deleteRangeBetween startBlock checkpoint,
      indexerCheckpoint := asI64 checkpoint },
    commitStats (db.cold.insertTransfers records).2 records blocks)

/-- mirrors crates/storage/src/lib.rs:144-166 -/
def commitHotRange (db : Db) (records : List Erc20TransferRecord)
    (blocks : List (Nat × Bytes)) (checkpoint : Nat) : Db × CommitStats :=
  ({ db with
      hot := (db.hot.insertTransfers records).1.insertBlocks blocks,
      liveIndexerCheckpoint := asI64 checkpoint },
    commitStats (db.hot.insertTransfers records).2 records blocks)

/-- mirrors crates/storage/src/lib.rs:168-184 -/
def rollbackFromBlock (db : Db) (n : Nat) : Db :=
  { cold := db.cold.deleteRangeFrom n,
    hot := db.hot.deleteRangeFrom n,
    indexerCheckpoint := asI64 (n - 1),
    liveIndexerCheckpoint := asI64 (n - 1) }

/-- mirrors crates/storage/src/lib.rs:186-195 -/
def rollbackHotFromBlock (db : Db) (n : Nat) : Db :=
  { db with hot := db.hot.deleteRangeFrom n, liveIndexerCheckpoint := asI64 (n - 1) }

/-- mirrors crates/storage/src/lib.rs:197-221 -/
def pruneHotBeforeBlock (db : Db) (beforeBlock : Nat) : Db :=
  { db with hot := db.hot.deleteRangeBefore beforeBlock }

end EthIndexer.L2
