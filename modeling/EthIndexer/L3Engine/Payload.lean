import Mathlib.Data.List.Dedup
import EthIndexer.L1Chain.Chain
import EthIndexer.L2Storage.Lane

/-!
# The payload of a block range

`build_range_payload` joins two RPC answers: the metadata of the blocks of a
range and the logs of the range. The join is on the block number alone.

`RangePayload first last` carries what every payload of `first..=last`
satisfies: its blocks are exactly the range (`blocks_exact`) and every record
names a block of the range and carries its hash (`joined`).

`decodeLogs_ok` is the specification of the loop over the logs: it succeeds
exactly when no log misses a field it reads (`Complete`), and then the records
are those of the logs the decoder accepts, in order (`recordAt`).
-/
namespace EthIndexer.L3
open EthIndexer.L1 EthIndexer.L2

/-- The block metadata of `first..=last`, one entry a block, in order: what
`buffered` and `try_collect` hand over.
mirrors crates/ingestion/src/lib.rs:444-454 -/
abbrev Fetched (first last : Nat) :=
  { ms : List BlockMetadata // ms.map BlockMetadata.number = rangeIncl first last }

/-- mirrors crates/ingestion/src/lib.rs:33-38 -/
structure RangePayload (first last : Nat) where
  transferRecords : List Erc20TransferRecord
  indexedBlocks : List (Nat × Bytes)
  blockMetadata : List BlockMetadata
  txCount : Nat
  blocks_exact : indexedBlocks.map Prod.fst = rangeIncl first last
  joined : Lane.Joined transferRecords indexedBlocks

/-- The statements of a commit can carry the payload. -/
abbrev RangePayload.Committable {first last : Nat} (p : RangePayload first last) : Prop :=
  L2.Committable p.transferRecords p.indexedBlocks

theorem RangePayload.length_indexedBlocks {first last : Nat} (p : RangePayload first last) :
    p.indexedBlocks.length = last + 1 - first := by
  rw [← List.length_map (f := Prod.fst), p.blocks_exact, rangeIncl, List.length_range']

/-- mirrors crates/ingestion/src/lib.rs:556-561 -/
def missingFieldError (fieldName : String) : String :=
  "RPC log is missing required field: " ++ fieldName

/-- `.ok_or_else(|| missing_field_error(..))`. -/
def orMissing {α : Type} (fieldName : String) : Option α → Except String α
  | some a => .ok a
  | none => .error (missingFieldError fieldName)

/-- The maps `block_hashes` and `block_timestamps`. -/
def lookupBlock (metas : List BlockMetadata) (n : Nat) : Option BlockMetadata :=
  metas.find? fun m => decide (m.number = n)

/-- The record of an accepted log in block `block`.
mirrors crates/ingestion/src/lib.rs:401-421 -/
def recordOf (log : Log) (event : Erc20TransferEvent) (txnHash : B256) (logIndex n : Nat)
    (block : BlockMetadata) : Erc20TransferRecord :=
  { blockNumber := asI64 n, blockHash := block.hash, txnHash := txnHash.val,
    logIndex := asI32 logIndex, contractAddress := log.address.val,
    fromAddress := event.fromAddress.val, toAddress := event.toAddress.val,
    value := event.value, timestamp := asI64 block.timestamp }

/-- One round of the loop over the logs; `none` when the decoder rejects the log.
mirrors crates/ingestion/src/lib.rs:388-423 -/
def decodeLog (metas : List BlockMetadata) (log : Log) :
    Except String (Option Erc20TransferRecord) := do
  let n ← orMissing "block_number" log.blockNumber
  match decodeErc20Transfer log with
  | none => pure none
  | some event =>
    let txnHash ← orMissing "transaction_hash" log.transactionHash
    let block ← orMissing "block_hash" (lookupBlock metas n)
    let logIndex ← orMissing "log_index" log.logIndex
    let timed ← orMissing "timestamp" (lookupBlock metas n)
    pure (some (recordOf log event txnHash logIndex n
      { block with timestamp := timed.timestamp }))

def decodeLogs (metas : List BlockMetadata) : List Log → Except String (List Erc20TransferRecord)
  | [] => pure []
  | log :: rest => do
    let record ← decodeLog metas log
    let records ← decodeLogs metas rest
    pure (record.toList ++ records)

/-! ## Specification of the loop -/

/-- The record of a log, if the decoder accepts it and no field is missing. -/
def recordAt (metas : List BlockMetadata) (log : Log) : Option Erc20TransferRecord := do
  let event ← decodeErc20Transfer log
  let n ← log.blockNumber
  let txnHash ← log.transactionHash
  let logIndex ← log.logIndex
  let block ← lookupBlock metas n
  pure (recordOf log event txnHash logIndex n block)

/-- No field the loop reads is missing. -/
def Complete (metas : List BlockMetadata) (log : Log) : Prop :=
  log.blockNumber.isSome ∧ ((decodeErc20Transfer log).isSome → (recordAt metas log).isSome)

theorem decodeLog_ok {metas : List BlockMetadata} {log : Log} {o : Option Erc20TransferRecord} :
    decodeLog metas log = .ok o ↔ Complete metas log ∧ o = recordAt metas log := by
  unfold decodeLog Complete recordAt
  cases hn : log.blockNumber with
  | none => simp [bind_ok, orMissing]
  | some n =>
  cases hd : decodeErc20Transfer log with
  | none => simp [bind_ok, orMissing, pure, Except.pure, @eq_comm _ none]
  | some event =>
  cases ht : log.transactionHash with
  | none => simp [bind_ok, orMissing]
  | some txnHash =>
  cases hb : lookupBlock metas n with
  | none =>
    cases log.logIndex with
    | none => simp [bind_ok, orMissing]
    | some _ => simp [bind_ok, orMissing, hb]
  | some block =>
  cases hi : log.logIndex with
  | none => simp [bind_ok, orMissing]
  | some logIndex => simp [bind_ok, orMissing, pure, Except.pure, hb, @eq_comm _ (some _)]

/-- **The loop.** It succeeds exactly when no log is incomplete, with the
records of the accepted logs in order. -/
theorem decodeLogs_ok {metas : List BlockMetadata} {logs : List Log}
    {records : List Erc20TransferRecord} :
    decodeLogs metas logs = .ok records ↔
      (∀ log ∈ logs, Complete metas log) ∧ records = logs.filterMap (recordAt metas) := by
  induction logs generalizing records with
  | nil => simp [decodeLogs, pure, Except.pure, eq_comm]
  | cons log rest ih =>
    simp only [decodeLogs, bind_ok, decodeLog_ok, ih, List.forall_mem_cons, List.filterMap_cons,
      pure, Except.pure, Except.ok.injEq]
    refine ⟨?_, ?_⟩
    · intro ⟨o, ⟨hc, ho⟩, rs, ⟨hall, hrs⟩, he⟩
      subst ho hrs he
      refine ⟨⟨hc, hall⟩, ?_⟩
      cases recordAt metas log <;> rfl
    · intro ⟨⟨hc, hall⟩, he⟩
      refine ⟨_, ⟨hc, rfl⟩, _, ⟨hall, rfl⟩, ?_⟩
      subst he
      cases recordAt metas log <;> rfl

theorem recordAt_eq_some {metas : List BlockMetadata} {log : Log} {r : Erc20TransferRecord} :
    recordAt metas log = some r ↔ ∃ event n txnHash logIndex block,
      decodeErc20Transfer log = some event ∧ log.blockNumber = some n ∧
      log.transactionHash = some txnHash ∧ log.logIndex = some logIndex ∧
      lookupBlock metas n = some block ∧ r = recordOf log event txnHash logIndex n block := by
  simp only [recordAt, bind, Option.bind_eq_some_iff, pure, Option.some.injEq]
  refine ⟨?_, ?_⟩
  · intro ⟨event, h1, n, h2, txnHash, h3, logIndex, h4, block, h5, h6⟩
    exact ⟨event, n, txnHash, logIndex, block, h1, h2, h3, h4, h5, h6.symm⟩
  · intro ⟨event, n, txnHash, logIndex, block, h1, h2, h3, h4, h5, h6⟩
    exact ⟨event, h1, n, h2, txnHash, h3, logIndex, h4, block, h5, h6.symm⟩

theorem lookupBlock_eq_some {metas : List BlockMetadata} {n : Nat} {m : BlockMetadata}
    (h : lookupBlock metas n = some m) : m ∈ metas ∧ m.number = n :=
  ⟨List.mem_of_find?_eq_some h, by simpa using List.find?_some h⟩

/-- `indexed_blocks` of the payload.
mirrors crates/ingestion/src/lib.rs:426-429 -/
def indexedBlocksOf (metas : List BlockMetadata) : List (Nat × Bytes) :=
  metas.map fun m => (m.number, m.hash)

theorem indexedBlocksOf_numbers {first last : Nat} (metas : Fetched first last) :
    (indexedBlocksOf metas.val).map Prod.fst = rangeIncl first last := by
  have h := metas.2
  simp only [indexedBlocksOf, List.map_map]
  exact h

theorem decodeLogs_joined {metas : List BlockMetadata} {logs : List Log}
    {records : List Erc20TransferRecord} (h : decodeLogs metas logs = .ok records) :
    Lane.Joined records (indexedBlocksOf metas) := by
  obtain ⟨-, rfl⟩ := decodeLogs_ok.mp h
  intro r hr
  obtain ⟨log, -, hl⟩ := List.mem_filterMap.mp hr
  obtain ⟨event, n, txnHash, logIndex, block, -, -, -, -, hb, rfl⟩ := recordAt_eq_some.mp hl
  obtain ⟨hm, hk⟩ := lookupBlock_eq_some hb
  refine ⟨n, ?_, rfl⟩
  rw [← hk]
  exact List.mem_map.mpr ⟨block, hm, rfl⟩

/-! ## `build_range_payload` -/

def payloadOf {first last : Nat} (metas : Fetched first last) (logs : List Log)
    (records : List Erc20TransferRecord) (h : decodeLogs metas.val logs = .ok records) :
    RangePayload first last where
  transferRecords := records
  indexedBlocks := indexedBlocksOf metas.val
  blockMetadata := metas.val
  txCount := (records.map Erc20TransferRecord.txnHash).dedup.length
  blocks_exact := indexedBlocksOf_numbers metas
  joined := decodeLogs_joined h

/-- The payload from the two RPC answers.
mirrors crates/ingestion/src/lib.rs:350-442 -/
def buildRangePayload {first last : Nat} (metas : Fetched first last) (logs : List Log) :
    Except String (RangePayload first last) :=
  match h : decodeLogs metas.val logs with
  | .error e => .error e
  | .ok records => .ok (payloadOf metas logs records h)

theorem buildRangePayload_ok {first last : Nat} {metas : Fetched first last} {logs : List Log}
    {p : RangePayload first last} (h : buildRangePayload metas logs = .ok p) :
    (∀ log ∈ logs, Complete metas.val log) ∧
    p.transferRecords = logs.filterMap (recordAt metas.val) ∧
    p.indexedBlocks = indexedBlocksOf metas.val := by
  unfold buildRangePayload at h
  split at h
  · cases h
  · rename_i records hr
    cases h
    obtain ⟨hc, hrs⟩ := decodeLogs_ok.mp hr
    exact ⟨hc, hrs, rfl⟩

theorem buildRangePayload_of_complete {first last : Nat} (metas : Fetched first last)
    {logs : List Log} (h : ∀ log ∈ logs, Complete metas.val log) :
    ∃ p, buildRangePayload metas logs = .ok p := by
  unfold buildRangePayload
  split
  · rename_i e he
    have hd := decodeLogs_ok.mpr ⟨h, rfl⟩
    rw [hd] at he; cases he
  · exact ⟨_, rfl⟩

end EthIndexer.L3
