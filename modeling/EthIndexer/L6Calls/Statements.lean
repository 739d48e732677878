import EthIndexer.Core.Program
import EthIndexer.L2Storage.Lane
import EthIndexer.L5Api.QueryBuilder

/-!
# The statements of the storage layer

The functions of the storage crate, one SQL statement at a time: the text and
binds of each statement, in the order the code issues them, and its effect on
the rows. Two ends of a process are told apart (`Failure`): an `Err` that goes up
to `main`, and a panic, which drops the transaction as well.

A statement fails where a call is said to fail; where the server rejects it for
what it says (`createPartition` below 0, a row without a partition); and where it
has more binds than the client library counts, which panics (`submit`).

A transaction refines the function of `L2Storage.Db` of the same name: whichever
statements fail, it has that effect or none (`commitFinalizedRange_atomic` and
its siblings).
-/
namespace EthIndexer.L6
open EthIndexer.L1 EthIndexer.L2

abbrev Statement := L5.QueryBuilder

inductive Failure where
  | err (text : String)
  | panic
  deriving DecidableEq

abbrev Calls (α : Type) := Program Db Statement Failure α

/-- A result from outside the storage layer, with the `?` operator. -/
def answer {α : Type} (x : Except String α) : Calls α := .ofExcept (x.mapError .err)

theorem answer_ok_bind {α β : Type} (a : α) (k : α → Calls β) : answer (.ok a) >>= k = k a := rfl

/-- `execute(&mut **tx)`. The client library asserts that the parameters fit the
16 bits of their count before it sends anything. -/
def submit {α : Type} (q : Statement) (effect : Db → Except Failure (α × Db)) : Calls α :=
  if q.arguments.length ≤ MAX_BIND_PARAMETERS then Program.execute q effect
  else Program.refuse q .panic

/-- A statement the server has no objection to. -/
def execute {α : Type} (q : Statement) (effect : Db → α × Db) : Calls α :=
  submit q fun db => .ok (effect db)

/-- `begin()`, the body, `commit()`. -/
def transaction {α : Type} (body : Calls α) : Calls α :=
  Program.transaction (.new "BEGIN") (.new "COMMIT") body

/-! ## Tables -/

/-- The two lanes of tables. -/
inductive LaneName where
  | cold
  | hot
  deriving DecidableEq

namespace LaneName

/-- mirrors crates/storage/src/lib.rs:10-11 -/
def transfersTable : LaneName → String
  | .cold => "erc20_transfers"
  | .hot => "hot_erc20_transfers"

/-- mirrors crates/storage/src/lib.rs:12-13 -/
def blocksTable : LaneName → String
  | .cold => "indexed_blocks"
  | .hot => "hot_indexed_blocks"

def get : LaneName → Db → Lane
  | .cold, db => db.cold
  | .hot, db => db.hot

def set : LaneName → Db → Lane → Db
  | .cold, db, l => { db with cold := l }
  | .hot, db, l => { db with hot := l }

@[simp] theorem get_set (n : LaneName) (db : Db) (l : Lane) : n.get (n.set db l) = l := by
  cases n <;> rfl

@[simp] theorem set_set (n : LaneName) (db : Db) (l l' : Lane) :
    n.set (n.set db l) l' = n.set db l' := by
  cases n <;> rfl

@[simp] theorem set_get (n : LaneName) (db : Db) : n.set db (n.get db) = db := by
  cases n <;> rfl

end LaneName

/-! ## Partitions -/

/-- `a + b` on `i64`. A build without overflow checks wraps to a negative bound,
with which `createPartition` is rejected; both end the transaction. -/
def checkedAdd (a b : Int) : Except Failure Int :=
  if -2 ^ 63 ≤ a + b ∧ a + b < 2 ^ 63 then .ok (a + b) else .error .panic

/-- mirrors crates/storage/src/lib.rs:427-432 -/
def createPartition (table : String) (partitionStart partitionEnd : Int) : Statement :=
  .new ("CREATE TABLE IF NOT EXISTS " ++ table ++ "_p" ++ toString partitionStart ++ "_" ++
    toString partitionEnd ++ "\n             PARTITION OF " ++ table ++
    "\n             FOR VALUES FROM (" ++ toString partitionStart ++ ") TO (" ++
    toString partitionEnd ++ ")")

/-- The bounds are part of the name, and `-` ends an unquoted one. -/
def createPartitionEffect (partitionStart : Int) (db : Db) : Except Failure (Unit × Db) :=
  if 0 ≤ partitionStart then .ok ((), db) else .error (.err "syntax error at or near \"-\"")

/-- The `while` loop, for at most `fuel` rounds. The last addition of a round is
the one its first line has checked. -/
def ensurePartitionsFrom (table : String) (lastPartitionStart : Int) : Nat → Int → Calls Unit
  | 0, _ => pure ()
  | fuel + 1, partitionStart =>
    if partitionStart ≤ lastPartitionStart then do
      let partitionEnd ← .ofExcept (checkedAdd partitionStart BLOCK_PARTITION_SIZE)
      submit (createPartition table partitionStart partitionEnd)
        (createPartitionEffect partitionStart)
      ensurePartitionsFrom table lastPartitionStart fuel partitionEnd
    else pure ()

/-- `(block / BLOCK_PARTITION_SIZE) * BLOCK_PARTITION_SIZE`, which rounds towards 0. -/
def partitionStartOf (block : Int64) : Int :=
  block.toInt.tdiv BLOCK_PARTITION_SIZE * BLOCK_PARTITION_SIZE

/-- Rounds enough for every partition up to `lastPartitionStart`. -/
def partitionRounds (partitionStart lastPartitionStart : Int) : Nat :=
  ((lastPartitionStart - partitionStart) / BLOCK_PARTITION_SIZE + 1).toNat

/-- mirrors crates/storage/src/lib.rs:415-439 -/
def ensurePartitionsForRangeTx (table : String) (startBlock endBlock : Int64) : Calls Unit :=
  ensurePartitionsFrom table (partitionStartOf endBlock)
    (partitionRounds (partitionStartOf startBlock) (partitionStartOf endBlock))
    (partitionStartOf startBlock)

/-- More rounds change nothing: the loop ends by its condition. -/
theorem ensurePartitionsFrom_fuel (table : String) (last : Int) (k : Nat) {fuel : Nat} {p : Int}
    (h : partitionRounds p last ≤ fuel) :
    ensurePartitionsFrom table last (fuel + k) p = ensurePartitionsFrom table last fuel p := by
  induction fuel generalizing p with
  | zero =>
    have hp : ¬ p ≤ last := by
      simp only [partitionRounds, BLOCK_PARTITION_SIZE] at h
      omega
    cases k with
    | zero => rfl
    | succ k => simp only [ensurePartitionsFrom, if_neg hp]
  | succ fuel ih =>
    rw [Nat.add_right_comm, ensurePartitionsFrom, ensurePartitionsFrom]
    split
    · unfold checkedAdd
      split
      · have hr : partitionRounds (p + BLOCK_PARTITION_SIZE) last ≤ fuel := by
          simp only [partitionRounds, BLOCK_PARTITION_SIZE] at h ⊢
          omega
        simp only [Program.ofExcept_ok_bind, ih hr]
      · rfl
    · rfl

/-! ## Inserts -/

/-- mirrors crates/storage/src/lib.rs:310-321 -/
def transferBinds (r : Erc20TransferRecord) : List Sql.Value :=
  [.int r.blockNumber.toInt, .bytea r.blockHash, .bytea r.txnHash, .int r.logIndex.toInt,
    .bytea r.contractAddress, .bytea r.fromAddress, .bytea r.toAddress, .int r.value,
    .int r.timestamp.toInt]

/-- mirrors crates/storage/src/lib.rs:296-323 -/
def insertTransfersQuery (table : String) (records : List Erc20TransferRecord) : Statement :=
  ((L5.QueryBuilder.new ("INSERT INTO " ++ table ++ " (
            block_number,
            block_hash,
            txn_hash,
            log_index,
            contract_address,
            from_address,
            to_address,
            value,
            timestamp
        ) ")).pushValues records transferBinds).push
    " ON CONFLICT (txn_hash, log_index, block_number) DO NOTHING"

def insertTransfersEffect (lane : LaneName) (records : List Erc20TransferRecord) (db : Db) :
    Nat × Db :=
  (((lane.get db).insertTransfers records).2, lane.set db ((lane.get db).insertTransfers records).1)

/-- There is no partition below 0. -/
def insertTransfersRouted (lane : LaneName) (records : List Erc20TransferRecord) (db : Db) :
    Except Failure (Nat × Db) :=
  if ∀ r ∈ records, 0 ≤ r.blockNumber.toInt then .ok (insertTransfersEffect lane records db)
  else .error (.err ("no partition of relation \"" ++ lane.transfersTable ++ "\" found for row"))

/-- mirrors crates/storage/src/lib.rs:274-327 -/
def insertTransfersIntoTx (lane : LaneName) : List Erc20TransferRecord → Calls Nat
  | [] => pure 0
  | record :: rest => do
    ensurePartitionsForRangeTx lane.transfersTable
      ((rest.map Erc20TransferRecord.blockNumber).foldl min record.blockNumber)
      ((rest.map Erc20TransferRecord.blockNumber).foldl max record.blockNumber)
    submit (insertTransfersQuery lane.transfersTable (record :: rest))
      (insertTransfersRouted lane (record :: rest))

def blockBinds (b : Nat × Bytes) : List Sql.Value := [.int (asI64 b.1).toInt, .bytea b.2]

/-- mirrors crates/storage/src/lib.rs:338-351 -/
def insertBlocksQuery (table : String) (blocks : List (Nat × Bytes)) : Statement :=
  ((L5.QueryBuilder.new ("INSERT INTO " ++ table ++ " (block_number, block_hash) ")).pushValues
    blocks blockBinds).push
      " ON CONFLICT (block_number) DO UPDATE
          SET block_hash = EXCLUDED.block_hash"

def insertBlocksEffect (lane : LaneName) (blocks : List (Nat × Bytes)) (db : Db) : Unit × Db :=
  ((), lane.set db ((lane.get db).insertBlocks blocks))

/-- A list with one number twice is rejected by the server. A payload has each number
once; for other lists this is a call that fails.
mirrors crates/storage/src/lib.rs:329-356 -/
def insertBlocksIntoTx (lane : LaneName) : List (Nat × Bytes) → Calls Unit
  | [] => pure ()
  | block :: rest =>
    execute (insertBlocksQuery lane.blocksTable (block :: rest))
      (insertBlocksEffect lane (block :: rest))

/-! ## Deletes and checkpoints -/

/-- Deletes the rows of the lane whose number satisfies `p`, one table after the
other, with the condition `cond` and its binds. -/
def deleteLane (lane : LaneName) (cond : String) (binds : List Sql.Value) (p : Int64 → Bool) :
    Calls Unit := do
  execute ⟨"DELETE FROM " ++ lane.transfersTable ++ "\n         WHERE " ++ cond, binds⟩ fun db =>
    ((), lane.set db { lane.get db with
      transfers := (lane.get db).transfers.deleteWhere fun r => p r.blockNumber })
  execute ⟨"DELETE FROM " ++ lane.blocksTable ++ "\n         WHERE " ++ cond, binds⟩ fun db =>
    ((), lane.set db { lane.get db with
      blocks := (lane.get db).blocks.deleteWhere fun b => p b.blockNumber })

/-- mirrors crates/storage/src/lib.rs:358-383 -/
def deleteRangeFromLaneTx (lane : LaneName) (fromBlock : Nat) : Calls Unit :=
  deleteLane lane "block_number >= $1" [.int (asI64 fromBlock).toInt]
    fun k => decide (asI64 fromBlock ≤ k)

/-- mirrors crates/storage/src/lib.rs:385-413 -/
def deleteRangeBetweenBlocksTx (lane : LaneName) (startBlock endBlock : Nat) : Calls Unit :=
  deleteLane lane "block_number BETWEEN $1 AND $2"
    [.int (asI64 startBlock).toInt, .int (asI64 endBlock).toInt]
    fun k => decide (asI64 startBlock ≤ k ∧ k ≤ asI64 endBlock)

/-- mirrors crates/storage/src/lib.rs:242-256 -/
def updateCheckpointTx (checkpoint : Nat) : Calls Unit :=
  execute ⟨"UPDATE indexer_checkpoint
         SET last_processed_block = $1
         WHERE id = 1", [.int (asI64 checkpoint).toInt]⟩
    fun db => ((), { db with indexerCheckpoint := asI64 checkpoint })

/-- mirrors crates/storage/src/lib.rs:258-272 -/
def updateLiveCheckpointTx (checkpoint : Nat) : Calls Unit :=
  execute ⟨"UPDATE live_indexer_checkpoint
         SET last_processed_block = $1
         WHERE id = 1", [.int (asI64 checkpoint).toInt]⟩
    fun db => ((), { db with liveIndexerCheckpoint := asI64 checkpoint })

/-- mirrors crates/storage/src/lib.rs:223-240 -/
def getBlockHashFromTable (lane : LaneName) (blockNumber : Nat) : Calls (Option Bytes) :=
  Program.select ⟨"SELECT block_hash
         FROM " ++ lane.blocksTable ++ "
         WHERE block_number = $1", [.int (asI64 blockNumber).toInt]⟩
    fun db => (lane.get db).getBlockHash blockNumber

/-! ## Transactions -/

/-- mirrors crates/storage/src/lib.rs:111-142 -/
def commitFinalizedRange (records : List Erc20TransferRecord) (blocks : List (Nat × Bytes))
    (startBlock checkpoint : Nat) : Calls CommitStats := do
  let inserted ← transaction do
    let inserted ← insertTransfersIntoTx .cold records
    insertBlocksIntoTx .cold blocks
    deleteRangeBetweenBlocksTx .hot startBlock checkpoint
    updateCheckpointTx checkpoint
    pure inserted
  pure (commitStats inserted records blocks)

/-- mirrors crates/storage/src/lib.rs:144-166 -/
def commitHotRange (records : List Erc20TransferRecord) (blocks : List (Nat × Bytes))
    (checkpoint : Nat) : Calls CommitStats := do
  let inserted ← transaction do
    let inserted ← insertTransfersIntoTx .hot records
    insertBlocksIntoTx .hot blocks
    updateLiveCheckpointTx checkpoint
    pure inserted
  pure (commitStats inserted records blocks)

/-- mirrors crates/storage/src/lib.rs:168-184 -/
def rollbackFromBlock (n : Nat) : Calls Unit :=
  transaction do
    deleteRangeFromLaneTx .cold n
    deleteRangeFromLaneTx .hot n
    updateCheckpointTx (n - 1)
    updateLiveCheckpointTx (n - 1)

/-- mirrors crates/storage/src/lib.rs:186-195 -/
def rollbackHotFromBlock (n : Nat) : Calls Unit :=
  transaction do
    deleteRangeFromLaneTx .hot n
    updateLiveCheckpointTx (n - 1)

/-- mirrors crates/storage/src/lib.rs:197-221 -/
def pruneHotBeforeBlock (beforeBlock : Nat) : Calls Unit :=
  transaction (deleteLane .hot "block_number < $1" [.int (asI64 beforeBlock).toInt]
    fun k => decide (k < asI64 beforeBlock))

/-! ## What the statements do -/

theorem submit_computes {α : Type} (q : Statement) {effect : Db → Except Failure (α × Db)}
    {f : Db → α × Db} (h : ∀ d r, effect d = .ok r → r = f d) : (submit q effect).Computes f := by
  unfold submit
  split
  · exact .execute q h
  · exact .refuse q _ f

theorem execute_computes {α : Type} (q : Statement) (effect : Db → α × Db) :
    (execute q effect).Computes effect :=
  submit_computes q fun _ _ h => (Except.ok.inj h).symm

theorem submit_eq {α : Type} {q : Statement} (effect : Db → Except Failure (α × Db))
    (h : q.arguments.length ≤ MAX_BIND_PARAMETERS) : submit q effect = Program.execute q effect :=
  if_pos h

theorem submit_completes {α : Type} {q : Statement} {effect : Db → Except Failure (α × Db)}
    {f : Db → α × Db} (h : q.arguments.length ≤ MAX_BIND_PARAMETERS)
    (hf : ∀ d, effect d = .ok (f d)) : (submit q effect).Completes f := by
  rw [submit_eq effect h]
  exact .execute q hf

theorem createPartitionEffect_ok {partitionStart : Int} {db : Db} {r : Unit × Db}
    (h : createPartitionEffect partitionStart db = .ok r) : r = ((), db) := by
  unfold createPartitionEffect at h
  split at h <;> cases h
  rfl

theorem insertTransfersRouted_ok {lane : LaneName} {records : List Erc20TransferRecord} {db : Db}
    {r : Nat × Db} (h : insertTransfersRouted lane records db = .ok r) :
    r = insertTransfersEffect lane records db := by
  unfold insertTransfersRouted at h
  split at h <;> cases h
  rfl

theorem ensurePartitionsFrom_computes (table : String) (last : Int) (fuel : Nat) (p : Int) :
    (ensurePartitionsFrom table last fuel p).Computes fun db => ((), db) := by
  induction fuel generalizing p with
  | zero => exact .pure ()
  | succ fuel ih =>
    rw [ensurePartitionsFrom]
    split
    · cases checkedAdd p BLOCK_PARTITION_SIZE with
      | error e => exact .error e _
      | ok partitionEnd =>
        exact (submit_computes _ fun _ _ => createPartitionEffect_ok).bind fun _ => ih partitionEnd
    · exact .pure ()

theorem insertTransfersIntoTx_computes (lane : LaneName) (records : List Erc20TransferRecord) :
    (insertTransfersIntoTx lane records).Computes (insertTransfersEffect lane records) := by
  cases records with
  | nil =>
    refine Program.Computes.congr (.pure 0) fun db => ?_
    simp only [insertTransfersEffect, Lane.insertTransfers, Table.insertAllIgnore, List.foldl_nil,
      Nat.sub_self, lane.set_get]
  | cons record rest =>
    exact (ensurePartitionsFrom_computes _ _ _ _).bind fun _ =>
      submit_computes _ fun _ _ => insertTransfersRouted_ok

theorem insertBlocksIntoTx_computes (lane : LaneName) (blocks : List (Nat × Bytes)) :
    (insertBlocksIntoTx lane blocks).Computes (insertBlocksEffect lane blocks) := by
  cases blocks with
  | nil =>
    refine Program.Computes.congr (.pure ()) fun db => ?_
    simp only [insertBlocksEffect, Lane.insertBlocks, Table.upsertAll, List.map_nil,
      List.foldl_nil, lane.set_get]
  | cons block rest => exact execute_computes _ _

theorem deleteLane_computes (lane : LaneName) (cond : String) (binds : List Sql.Value)
    (p : Int64 → Bool) :
    (deleteLane lane cond binds p).Computes fun db =>
      ((), lane.set db ((lane.get db).deleteNumbers p)) := by
  refine Program.Computes.congr ((execute_computes _ _).bind fun _ => execute_computes _ _) ?_
  intro db
  simp [Lane.deleteNumbers]

theorem deleteRangeFromLaneTx_computes (lane : LaneName) (n : Nat) :
    (deleteRangeFromLaneTx lane n).Computes fun db =>
      ((), lane.set db ((lane.get db).deleteRangeFrom n)) :=
  deleteLane_computes _ _ _ _

theorem deleteRangeBetweenBlocksTx_computes (lane : LaneName) (a b : Nat) :
    (deleteRangeBetweenBlocksTx lane a b).Computes fun db =>
      ((), lane.set db ((lane.get db).deleteRangeBetween a b)) :=
  deleteLane_computes _ _ _ _

theorem updateCheckpointTx_computes (n : Nat) :
    (updateCheckpointTx n).Computes fun db => ((), { db with indexerCheckpoint := asI64 n }) :=
  execute_computes _ _

theorem updateLiveCheckpointTx_computes (n : Nat) :
    (updateLiveCheckpointTx n).Computes fun db =>
      ((), { db with liveIndexerCheckpoint := asI64 n }) :=
  execute_computes _ _

/-! ## What the transactions do -/

section
variable (records : List Erc20TransferRecord) (blocks : List (Nat × Bytes)) (startBlock n : Nat)

theorem commitFinalizedRange_atomic :
    (commitFinalizedRange records blocks startBlock n).Atomic fun db stats db' =>
      (db', stats) = L2.commitFinalizedRange db records blocks startBlock n := by
  have hbody := (insertTransfersIntoTx_computes .cold records).bind fun inserted =>
    (insertBlocksIntoTx_computes .cold blocks).bind fun _ =>
      (deleteRangeBetweenBlocksTx_computes .hot startBlock n).bind fun _ =>
        (updateCheckpointTx_computes n).bind fun _ => Program.Computes.pure inserted
  refine ((hbody.transaction _ _).map fun inserted => commitStats inserted records blocks).mono ?_
  intro db stats db' ⟨inserted, hs, he⟩
  cases he
  rw [hs]
  rfl

theorem commitHotRange_atomic :
    (commitHotRange records blocks n).Atomic fun db stats db' =>
      (db', stats) = L2.commitHotRange db records blocks n := by
  have hbody := (insertTransfersIntoTx_computes .hot records).bind fun inserted =>
    (insertBlocksIntoTx_computes .hot blocks).bind fun _ =>
      (updateLiveCheckpointTx_computes n).bind fun _ => Program.Computes.pure inserted
  refine ((hbody.transaction _ _).map fun inserted => commitStats inserted records blocks).mono ?_
  intro db stats db' ⟨inserted, hs, he⟩
  cases he
  rw [hs]
  rfl

theorem rollbackFromBlock_atomic :
    (rollbackFromBlock n).Atomic fun db _ db' => db' = L2.rollbackFromBlock db n := by
  have hbody := (deleteRangeFromLaneTx_computes .cold n).bind fun _ =>
    (deleteRangeFromLaneTx_computes .hot n).bind fun _ =>
      (updateCheckpointTx_computes (n - 1)).bind fun _ => updateLiveCheckpointTx_computes (n - 1)
  refine (hbody.transaction _ _).mono fun db _ db' he => ?_
  cases he
  rfl

theorem rollbackHotFromBlock_atomic :
    (rollbackHotFromBlock n).Atomic fun db _ db' => db' = L2.rollbackHotFromBlock db n := by
  have hbody := (deleteRangeFromLaneTx_computes .hot n).bind fun _ =>
    updateLiveCheckpointTx_computes (n - 1)
  refine (hbody.transaction _ _).mono fun db _ db' he => ?_
  cases he
  rfl

theorem pruneHotBeforeBlock_atomic :
    (pruneHotBeforeBlock n).Atomic fun db _ db' => db' = L2.pruneHotBeforeBlock db n := by
  refine ((deleteLane_computes .hot _ _ _).transaction _ _).mono fun db _ db' he => ?_
  cases he
  rfl

theorem getBlockHashFromTable_reads (lane : LaneName) :
    (getBlockHashFromTable lane n).Reads fun db => (lane.get db).getBlockHash n :=
  .select _ _

end
end EthIndexer.L6
