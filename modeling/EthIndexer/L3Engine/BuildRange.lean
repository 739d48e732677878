import Mathlib.Data.Finset.Card
import EthIndexer.L3Engine.Range

/-!
# `build_range_payload` on any answers

`RpcClient` is what the two calls return after their retries: a block or its
absence, a list of logs, or an error. `fetchBlockMetadataRange` is the sequence
of the metadata requests; `buffered` keeps their order and `try_collect` stops
at the first error, so how many are in flight does not show in the result.

`buildRangePayload_spec` says when the call succeeds (`LogOk`, for the logs) and
what the payload then is: the blocks of the range with the hashes fetched for
them, and one record for each accepted log, joined with the metadata of its own
block (`RecordOfLog`).
-/
namespace EthIndexer.L3
open EthIndexer.L1 EthIndexer.L2

/-- Hash and timestamp of block `n`, and the logs of a range under a contract
filter, as the provider answers them. -/
structure RpcClient where
  getBlockByNumber : Nat → Except String (Option (B256 × Nat))
  fetchErc20TransferLogs : Nat → Nat → Option Bytes → Except String (List Log)

namespace RpcClient
variable (rpc : RpcClient)

/-- mirrors crates/rpc/src/lib.rs:78-99 -/
def getBlockMetadata (n : Nat) : Except String (Option BlockMetadata) := do
  let block ← rpc.getBlockByNumber n
  pure (block.map fun b => ⟨n, b.1.val, b.2⟩)

/-- mirrors crates/ingestion/src/lib.rs:456-470 -/
def fetchBlockMetadata (n : Nat) : Except String BlockMetadata := do
  match ← rpc.getBlockMetadata n with
  | some block => pure block
  | none => .error ("Block " ++ toString n ++ " not found on the RPC provider")

/-- mirrors crates/ingestion/src/lib.rs:444-454 -/
def fetchBlockMetadataRange (first last : Nat) : Except String (List BlockMetadata) :=
  (rangeIncl first last).mapM rpc.fetchBlockMetadata

/-- Block `n` is found, with this hash and timestamp. -/
def Finds (n : Nat) (hash : B256) (timestamp : Nat) : Prop :=
  rpc.getBlockByNumber n = .ok (some (hash, timestamp))

theorem fetchBlockMetadata_ok {n : Nat} {m : BlockMetadata} :
    rpc.fetchBlockMetadata n = .ok m ↔
      ∃ hash timestamp, rpc.Finds n hash timestamp ∧ m = ⟨n, hash.val, timestamp⟩ := by
  simp only [fetchBlockMetadata, getBlockMetadata, Finds]
  cases rpc.getBlockByNumber n with
  | error e => simp [bind, Except.bind]
  | ok block =>
    cases block with
    | none => simp [bind, Except.bind, pure, Except.pure]
    | some b =>
      simp only [bind, Except.bind, pure, Except.pure, Option.map_some, Except.ok.injEq,
        Option.some.injEq]
      refine ⟨fun h => ⟨b.1, b.2, rfl, h.symm⟩, ?_⟩
      intro ⟨hash, timestamp, hb, hm⟩
      rw [hm, hb]

/-- The provider of one chain. -/
def ofChain (C : Chain) : RpcClient where
  getBlockByNumber n := .ok (if n ≤ C.height then some (C.hash n, C.timestamp n) else none)
  fetchErc20TransferLogs first last filter := .ok (C.getLogs filter first last)

theorem finds_ofChain {C : Chain} {n : Nat} (h : n ≤ C.height) :
    (ofChain C).Finds n (C.hash n) (C.timestamp n) := by
  simp [Finds, ofChain, h]

end RpcClient

/-! ## The requests of a range -/

/-- `mapM` on `Except` succeeds with the results of the single calls. -/
theorem mapM_ok {α β : Type} {f : α → Except String β} {l : List α} {bs : List β} :
    l.mapM f = .ok bs ↔ List.Forall₂ (fun a b => f a = .ok b) l bs := by
  induction l generalizing bs with
  | nil => cases bs <;> simp [pure, Except.pure]
  | cons a l ih =>
    simp only [List.mapM_cons, bind_ok, pure, Except.pure, Except.ok.injEq,
      List.forall₂_cons_left_iff, ih]
    exact ⟨fun ⟨b, hb, bs', hbs, he⟩ => ⟨b, bs', hb, hbs, he.symm⟩,
      fun ⟨b, bs', hb, hbs, he⟩ => ⟨b, hb, bs', hbs, he.symm⟩⟩

/-- The answers to the metadata requests for `ns`. -/
abbrev Fetches (rpc : RpcClient) (ns : List Nat) (ms : List BlockMetadata) : Prop :=
  List.Forall₂ (fun n m => rpc.fetchBlockMetadata n = .ok m) ns ms

section
variable {rpc : RpcClient} {ns : List Nat} {ms : List BlockMetadata} {first last : Nat}

theorem Fetches.numbers (h : Fetches rpc ns ms) : ms.map BlockMetadata.number = ns := by
  induction h with
  | nil => rfl
  | cons hm _ ih =>
    obtain ⟨hash, timestamp, -, he⟩ := rpc.fetchBlockMetadata_ok.mp hm
    rw [List.map_cons, ih, he]

theorem Fetches.finds (h : Fetches rpc ns ms) {m : BlockMetadata} (hm : m ∈ ms) :
    ∃ hash, rpc.Finds m.number hash m.timestamp ∧ m.hash = hash.val := by
  induction h with
  | nil => cases hm
  | cons hf _ ih =>
    obtain ⟨hash, timestamp, hfind, rfl⟩ := rpc.fetchBlockMetadata_ok.mp hf
    rcases List.mem_cons.mp hm with rfl | hm
    · exact ⟨hash, hfind, rfl⟩
    · exact ih hm

theorem fetches_of_finds (h : ∀ n ∈ ns, ∃ hash timestamp, rpc.Finds n hash timestamp) :
    ∃ ms, Fetches rpc ns ms := by
  induction ns with
  | nil => exact ⟨[], .nil⟩
  | cons n ns ih =>
    obtain ⟨hash, timestamp, hf⟩ := h n List.mem_cons_self
    obtain ⟨ms, hms⟩ := ih fun k hk => h k (List.mem_cons_of_mem _ hk)
    have hm := rpc.fetchBlockMetadata_ok.mpr ⟨hash, timestamp, hf, rfl⟩
    exact ⟨_ :: ms, .cons hm hms⟩

theorem fetched_numbers (h : rpc.fetchBlockMetadataRange first last = .ok ms) :
    ms.map BlockMetadata.number = rangeIncl first last :=
  Fetches.numbers (mapM_ok.mp h)

/-- The range is fetched exactly when each of its blocks is found. -/
theorem fetched_iff : (∃ ms, rpc.fetchBlockMetadataRange first last = .ok ms) ↔
    ∀ n, first ≤ n → n ≤ last → ∃ hash timestamp, rpc.Finds n hash timestamp := by
  constructor
  · intro ⟨ms, h⟩ n hn hl
    have hmem : n ∈ ms.map BlockMetadata.number := by
      rw [fetched_numbers h]; exact mem_rangeIncl.mpr ⟨hn, hl⟩
    obtain ⟨m, hm, he⟩ := List.mem_map.mp hmem
    obtain ⟨hash, hf, -⟩ := Fetches.finds (mapM_ok.mp h) hm
    exact ⟨hash, m.timestamp, he ▸ hf⟩
  · intro h
    obtain ⟨ms, hms⟩ := fetches_of_finds fun n hn => h n (mem_rangeIncl.mp hn).1 (mem_rangeIncl.mp hn).2
    exact ⟨ms, mapM_ok.mpr hms⟩

end

/-! ## The call -/

/-- mirrors crates/ingestion/src/lib.rs:350-442 -/
def BackfillEngine.buildRangePayload (engine : BackfillEngine) (rpc : RpcClient)
    (first last : Nat) : Except String (RangePayload first last) :=
  match h : rpc.fetchBlockMetadataRange first last with
  | .error e => .error e
  | .ok ms => do
    let logs ← rpc.fetchErc20TransferLogs first last engine.contractFilter
    L3.buildRangePayload ⟨ms, fetched_numbers h⟩ logs

/-- The log has a block number, and if the decoder accepts it also a transaction
hash, a log index and a block of the range. -/
structure LogOk (first last : Nat) (log : Log) : Prop where
  blockNumber : log.blockNumber.isSome
  transactionHash : (decodeErc20Transfer log).isSome → log.transactionHash.isSome
  logIndex : (decodeErc20Transfer log).isSome → log.logIndex.isSome
  inRange : (decodeErc20Transfer log).isSome → ∀ n ∈ log.blockNumber, first ≤ n ∧ n ≤ last

/-- The logs the decoder accepts. -/
def accepted (logs : List Log) : List Log := logs.filter fun log => (decodeErc20Transfer log).isSome

theorem accepted_cons (log : Log) (logs : List Log) :
    accepted (log :: logs) =
      if (decodeErc20Transfer log).isSome then log :: accepted logs else accepted logs :=
  List.filter_cons

/-- `r` is the record of `log`: its own transaction, contract, addresses and
value, and the hash and timestamp fetched for its own block. -/
structure RecordOfLog (rpc : RpcClient) (log : Log) (r : Erc20TransferRecord) : Prop where
  own : ∃ event n txnHash logIndex, decodeErc20Transfer log = some event ∧
    log.blockNumber = some n ∧ log.transactionHash = some txnHash ∧ log.logIndex = some logIndex ∧
    r.blockNumber = asI64 n ∧ r.txnHash = txnHash.val ∧ r.logIndex = asI32 logIndex ∧
    r.contractAddress = log.address.val ∧ r.fromAddress = event.fromAddress.val ∧
    r.toAddress = event.toAddress.val ∧ r.value = event.value
  block : ∀ n ∈ log.blockNumber, ∃ hash timestamp, rpc.Finds n hash timestamp ∧
    r.blockHash = hash.val ∧ r.timestamp = asI64 timestamp ∧
    (timestamp < 2 ^ 63 → r.timestamp.toInt = timestamp)

section
variable {rpc : RpcClient} {first last : Nat} {ms : List BlockMetadata}

/-- A block of the range is looked up, and no other. -/
theorem lookupBlock_isSome {n : Nat} (h : ms.map BlockMetadata.number = rangeIncl first last) :
    (lookupBlock ms n).isSome ↔ first ≤ n ∧ n ≤ last := by
  rw [← mem_rangeIncl, ← h, lookupBlock, List.find?_isSome, List.mem_map]
  simp only [decide_eq_true_eq]

/-- For the blocks of the range, the fields the loop reads are those of `LogOk`. -/
theorem complete_iff {log : Log} (h : ms.map BlockMetadata.number = rangeIncl first last) :
    Complete ms log ↔ LogOk first last log := by
  constructor
  · intro ⟨hn, hc⟩
    have hall : (decodeErc20Transfer log).isSome → log.transactionHash.isSome ∧
        log.logIndex.isSome ∧ ∀ n ∈ log.blockNumber, first ≤ n ∧ n ≤ last := by
      intro hd
      obtain ⟨r, hr⟩ := Option.isSome_iff_exists.mp (hc hd)
      obtain ⟨event, n, txnHash, logIndex, block, -, hbn, ht, hi, hb, -⟩ := recordAt_eq_some.mp hr
      refine ⟨by simp [ht], by simp [hi], fun m hm => ?_⟩
      have hmn : n = m := by rw [hbn] at hm; exact Option.some.inj hm
      rw [← hmn]
      exact (lookupBlock_isSome h).mp (by simp [hb])
    exact ⟨hn, fun hd => (hall hd).1, fun hd => (hall hd).2.1, fun hd => (hall hd).2.2⟩
  · intro hok
    refine ⟨hok.blockNumber, fun hd => ?_⟩
    obtain ⟨n, hn⟩ := Option.isSome_iff_exists.mp hok.blockNumber
    obtain ⟨event, he⟩ := Option.isSome_iff_exists.mp hd
    obtain ⟨txnHash, ht⟩ := Option.isSome_iff_exists.mp (hok.transactionHash hd)
    obtain ⟨logIndex, hi⟩ := Option.isSome_iff_exists.mp (hok.logIndex hd)
    obtain ⟨block, hb⟩ := Option.isSome_iff_exists.mp
      ((lookupBlock_isSome h).mpr (hok.inRange hd n hn))
    have hr := recordAt_eq_some.mpr ⟨event, n, txnHash, logIndex, block, he, hn, ht, hi, hb, rfl⟩
    exact Option.isSome_iff_exists.mpr ⟨_, hr⟩

theorem recordOfLog_of_recordAt (hms : Fetches rpc (rangeIncl first last) ms) {log : Log}
    {r : Erc20TransferRecord} (h : recordAt ms log = some r) : RecordOfLog rpc log r := by
  obtain ⟨event, n, txnHash, logIndex, block, hd, hn, ht, hi, hb, rfl⟩ := recordAt_eq_some.mp h
  obtain ⟨hmem, hnum⟩ := lookupBlock_eq_some hb
  obtain ⟨hash, hf, hh⟩ := hms.finds hmem
  refine ⟨⟨event, n, txnHash, logIndex, hd, hn, ht, hi, rfl, rfl, rfl, rfl, rfl, rfl, rfl⟩, ?_⟩
  intro m hm
  have hmn : n = m := by rw [hn] at hm; exact Option.some.inj hm
  rw [hnum, hmn] at hf
  exact ⟨hash, block.timestamp, hf, hh, rfl, fun hlt => toInt_asI64 hlt⟩

/-- The records of complete logs are those of the accepted logs, one each, in order. -/
theorem records_of_accepted (hms : Fetches rpc (rangeIncl first last) ms) {logs : List Log}
    (hc : ∀ log ∈ logs, Complete ms log) :
    List.Forall₂ (RecordOfLog rpc) (accepted logs) (logs.filterMap (recordAt ms)) := by
  induction logs with
  | nil => exact .nil
  | cons log logs ih =>
    have ih := ih fun l hl => hc l (List.mem_cons_of_mem _ hl)
    by_cases hd : (decodeErc20Transfer log).isSome
    · obtain ⟨r, hr⟩ := Option.isSome_iff_exists.mp ((hc log List.mem_cons_self).2 hd)
      rw [accepted_cons, if_pos hd, List.filterMap_cons_some hr]
      exact .cons (recordOfLog_of_recordAt hms hr) ih
    · have hr : recordAt ms log = none := by
        simp only [Option.not_isSome_iff_eq_none] at hd
        simp [recordAt, hd]
      rw [accepted_cons, if_neg hd, List.filterMap_cons_none hr]
      exact ih

theorem RecordOfLog.txnHash {log : Log} {r : Erc20TransferRecord} (h : RecordOfLog rpc log r) :
    log.transactionHash.map Subtype.val = some r.txnHash := by
  obtain ⟨_, _, txnHash, _, -, -, ht, -, -, hr, -⟩ := h.own
  rw [ht, hr, Option.map_some]

/-- The transactions of the records are those of their logs. -/
theorem txnHashes_of_records {logs : List Log} {records : List Erc20TransferRecord}
    (h : List.Forall₂ (RecordOfLog rpc) logs records) :
    records.map Erc20TransferRecord.txnHash =
      (logs.filterMap Log.transactionHash).map Subtype.val := by
  induction h with
  | nil => rfl
  | cons hr _ ih =>
    obtain ⟨txnHash, ht, he⟩ := Option.map_eq_some_iff.mp hr.txnHash
    rw [List.map_cons, ih, List.filterMap_cons_some ht, List.map_cons, he]

theorem txCount_eq {metas : Fetched first last} {logs : List Log} {p : RangePayload first last}
    (h : L3.buildRangePayload metas logs = .ok p) :
    p.txCount = (p.transferRecords.map Erc20TransferRecord.txnHash).dedup.length := by
  unfold L3.buildRangePayload at h
  split at h
  · cases h
  · cases h; rfl

end

/-! ## Specification -/

/-- What a payload of `first..=last` is, given the logs of the range. -/
structure PayloadOf (rpc : RpcClient) {first last : Nat} (logs : List Log)
    (p : RangePayload first last) : Prop where
  blocks : p.indexedBlocks.map Prod.fst = rangeIncl first last
  hashes : ∀ b ∈ p.indexedBlocks, ∃ hash timestamp, rpc.Finds b.1 hash timestamp ∧ b.2 = hash.val
  records : List.Forall₂ (RecordOfLog rpc) (accepted logs) p.transferRecords
  txCount : p.txCount = ((accepted logs).filterMap Log.transactionHash).toFinset.card

section
variable {engine : BackfillEngine} {rpc : RpcClient} {first last : Nat}

/-- The call succeeds exactly when its three parts do. -/
theorem BackfillEngine.buildRangePayload_ok {p : RangePayload first last} :
    engine.buildRangePayload rpc first last = .ok p ↔
      ∃ (metas : Fetched first last) (logs : List Log),
        rpc.fetchBlockMetadataRange first last = .ok metas.val ∧
        rpc.fetchErc20TransferLogs first last engine.contractFilter = .ok logs ∧
        L3.buildRangePayload metas logs = .ok p := by
  unfold BackfillEngine.buildRangePayload
  split
  · rename_i e he
    simp [he]
  · rename_i ms hms
    rw [bind_ok]
    constructor
    · intro ⟨logs, hl, hp⟩
      exact ⟨⟨ms, fetched_numbers hms⟩, logs, hms, hl, hp⟩
    · intro ⟨metas, logs, hm, hl, hp⟩
      have he : metas = ⟨ms, fetched_numbers hms⟩ :=
        Subtype.ext (Except.ok.inj (hm.symm.trans hms))
      exact ⟨logs, hl, he ▸ hp⟩

/-- Where its three parts succeed, so does the call. -/
theorem BackfillEngine.buildRangePayload_total {logs : List Log}
    (hf : ∀ n, first ≤ n → n ≤ last → ∃ hash timestamp, rpc.Finds n hash timestamp)
    (hl : rpc.fetchErc20TransferLogs first last engine.contractFilter = .ok logs)
    (hok : ∀ log ∈ logs, LogOk first last log) :
    ∃ p, engine.buildRangePayload rpc first last = .ok p := by
  obtain ⟨ms, hm⟩ := fetched_iff.mpr hf
  obtain ⟨p, hp⟩ := buildRangePayload_of_complete ⟨ms, fetched_numbers hm⟩
    fun log hlog => (complete_iff (fetched_numbers hm)).mpr (hok log hlog)
  exact ⟨p, BackfillEngine.buildRangePayload_ok.mpr ⟨_, logs, hm, hl, hp⟩⟩

theorem payloadOf_ok {metas : Fetched first last} {logs : List Log} {p : RangePayload first last}
    (hm : rpc.fetchBlockMetadataRange first last = .ok metas.val)
    (hp : L3.buildRangePayload metas logs = .ok p) : PayloadOf rpc logs p := by
  have hms : Fetches rpc (rangeIncl first last) metas.val := mapM_ok.mp hm
  obtain ⟨hc, hr, hb⟩ := buildRangePayload_ok hp
  have hrec := records_of_accepted hms hc
  rw [← hr] at hrec
  refine ⟨p.blocks_exact, fun b hmem => ?_, hrec, ?_⟩
  · rw [hb] at hmem
    obtain ⟨m, hmm, rfl⟩ := List.mem_map.mp hmem
    obtain ⟨hash, hf, hh⟩ := hms.finds hmm
    exact ⟨hash, m.timestamp, hf, hh⟩
  · rw [txCount_eq hp, txnHashes_of_records hrec,
      List.dedup_map_of_injective Subtype.val_injective, List.length_map, List.card_toFinset]

end

/-- **Range payload.** For all answers of the RPC, the call succeeds if and only
if every block of the range is found, the logs are fetched, and each log has the
fields the loop reads; and then the payload has exactly the blocks of the range,
with the hashes fetched for them, one record for each accepted log in the order
of the logs, and the number of their distinct transactions. -/
theorem buildRangePayload_spec (engine : BackfillEngine) (rpc : RpcClient) (first last : Nat) :
    ((∃ p, engine.buildRangePayload rpc first last = .ok p) ↔
      (∀ n, first ≤ n → n ≤ last → ∃ hash timestamp, rpc.Finds n hash timestamp) ∧
      ∃ logs, rpc.fetchErc20TransferLogs first last engine.contractFilter = .ok logs ∧
        ∀ log ∈ logs, LogOk first last log) ∧
    ∀ p, engine.buildRangePayload rpc first last = .ok p →
      ∃ logs, rpc.fetchErc20TransferLogs first last engine.contractFilter = .ok logs ∧
        PayloadOf rpc logs p := by
  refine ⟨⟨?_, ?_⟩, ?_⟩
  · intro ⟨p, hp⟩
    obtain ⟨metas, logs, hm, hl, hp⟩ := BackfillEngine.buildRangePayload_ok.mp hp
    refine ⟨fetched_iff.mp ⟨_, hm⟩, logs, hl, fun log hlog => ?_⟩
    exact (complete_iff metas.2).mp ((buildRangePayload_ok hp).1 log hlog)
  · intro ⟨hfound, logs, hl, hok⟩
    exact BackfillEngine.buildRangePayload_total hfound hl hok
  · intro p hp
    obtain ⟨metas, logs, hm, hl, hp⟩ := BackfillEngine.buildRangePayload_ok.mp hp
    exact ⟨logs, hl, payloadOf_ok hm hp⟩

end EthIndexer.L3
