import EthIndexer.L2Storage.Replay
import EthIndexer.L3Engine.BuildRange

/-!
# Narrowing

Block number, log index and timestamp of an RPC answer are `u64`; the columns are
`BIGINT`, `INTEGER` and `BIGINT`, and `build_range_payload` casts with `as`, which
wraps. The first two are part of the primary key.

`narrowing`: a payload has the integers of its logs, and keeps logs apart that the
RPC keeps apart, exactly when these integers fit their columns (`FitsColumns`).
Otherwise the range is not rejected: two logs of one transaction whose indexes
differ by 2^32 get one key (`key_eq_iff`), and `ON CONFLICT DO NOTHING` drops the
second (`narrowing_drops`).
-/
namespace EthIndexer.L3
open EthIndexer.L1 EthIndexer.L2

/-- What tells two logs apart: the columns of the primary key, as the RPC has them. -/
def logKey (log : Log) : Option B256 × Option Nat × Option Nat :=
  (log.transactionHash, log.logIndex, log.blockNumber)

/-- The record has the integers of the RPC. -/
structure Unaltered (rpc : RpcClient) (log : Log) (r : Erc20TransferRecord) : Prop where
  blockNumber : ∀ n ∈ log.blockNumber, r.blockNumber.toInt = n
  logIndex : ∀ i ∈ log.logIndex, r.logIndex.toInt = i
  timestamp : ∀ n ∈ log.blockNumber, ∀ hash timestamp, rpc.Finds n hash timestamp →
    r.timestamp.toInt = timestamp

/-- The integers of the log fit their columns. -/
structure FitsColumns (rpc : RpcClient) (log : Log) : Prop where
  blockNumber : ∀ n ∈ log.blockNumber, n < 2 ^ 63
  logIndex : ∀ i ∈ log.logIndex, i < 2 ^ 31
  timestamp : ∀ n ∈ log.blockNumber, ∀ hash timestamp, rpc.Finds n hash timestamp →
    timestamp < 2 ^ 63

/-- No accepted log is altered, none is merged with another one, and a table that
has none of them inserts each. -/
structure NothingNarrowed (rpc : RpcClient) (logs : List Log)
    (records : List Erc20TransferRecord) : Prop where
  unaltered : List.Forall₂ (Unaltered rpc) (accepted logs) records
  apart : ∀ x ∈ (accepted logs).zip records, ∀ y ∈ (accepted logs).zip records,
    logKey x.1 ≠ logKey y.1 → x.2.key ≠ y.2.key
  kept : ∀ l : Lane, (∀ r ∈ records, r.key ∉ l.transfers.keys) →
    (l.insertTransfers records).2 = ((accepted logs).map logKey).toFinset.card

/-! ## One log -/

section
variable {rpc : RpcClient} {log log' : Log} {r r' : Erc20TransferRecord}

theorem unaltered_iff (h : RecordOfLog rpc log r) : Unaltered rpc log r ↔ FitsColumns rpc log := by
  obtain ⟨event, n, txnHash, i, -, hn, -, hi, hb, -, hli, -⟩ := h.own
  obtain ⟨hash, timestamp, hf, -, ht, -⟩ := h.block n hn
  have hfound : ∀ hash' timestamp', rpc.Finds n hash' timestamp' → timestamp' = timestamp := by
    intro hash' timestamp' hf'
    have he := hf'.symm.trans hf
    simp only [Except.ok.injEq, Option.some.injEq, Prod.mk.injEq] at he
    exact he.2
  have hblock : (∀ m ∈ log.blockNumber, r.blockNumber.toInt = m) ↔
      ∀ m ∈ log.blockNumber, m < 2 ^ 63 := by
    simp only [hn, Option.mem_some_iff, forall_eq', hb, toInt_asI64_iff]
  have hindex : (∀ m ∈ log.logIndex, r.logIndex.toInt = m) ↔ ∀ m ∈ log.logIndex, m < 2 ^ 31 := by
    simp only [hi, Option.mem_some_iff, forall_eq', hli, toInt_asI32_iff]
  have htime : (∀ m ∈ log.blockNumber, ∀ hash' timestamp', rpc.Finds m hash' timestamp' →
        r.timestamp.toInt = timestamp') ↔
      ∀ m ∈ log.blockNumber, ∀ hash' timestamp', rpc.Finds m hash' timestamp' →
        timestamp' < 2 ^ 63 := by
    simp only [hn, Option.mem_some_iff, forall_eq', ht]
    refine forall₃_congr fun hash' timestamp' hf' => ?_
    rw [hfound hash' timestamp' hf', toInt_asI64_iff]
  exact ⟨fun u => ⟨hblock.mp u.1, hindex.mp u.2, htime.mp u.3⟩,
    fun u => ⟨hblock.mpr u.1, hindex.mpr u.2, htime.mpr u.3⟩⟩

/-- Two logs get one primary key when they agree modulo the width of its columns. -/
theorem key_eq_iff (h : RecordOfLog rpc log r) (h' : RecordOfLog rpc log' r') :
    r.key = r'.key ↔ log.transactionHash = log'.transactionHash ∧
      log.logIndex.map asI32 = log'.logIndex.map asI32 ∧
      log.blockNumber.map asI64 = log'.blockNumber.map asI64 := by
  obtain ⟨_, n, txnHash, i, -, hn, ht, hi, hb, hth, hli, -⟩ := h.own
  obtain ⟨_, n', txnHash', i', -, hn', ht', hi', hb', hth', hli', -⟩ := h'.own
  simp only [Erc20TransferRecord.key, Prod.mk.injEq, hn, hn', ht, ht', hi, hi', hb, hb', hth, hth',
    hli, hli', Option.map_some, Option.some.injEq, Subtype.ext_iff]

/-- Where the integers fit, the primary key tells apart what the RPC tells apart. -/
theorem key_eq_iff_of_fits (h : RecordOfLog rpc log r) (h' : RecordOfLog rpc log' r')
    (hfit : FitsColumns rpc log) (hfit' : FitsColumns rpc log') :
    r.key = r'.key ↔ logKey log = logKey log' := by
  rw [key_eq_iff h h']
  obtain ⟨_, n, _, i, -, hn, -, hi, -⟩ := h.own
  obtain ⟨_, n', _, i', -, hn', -, hi', -⟩ := h'.own
  have hblock : asI64 n = asI64 n' ↔ n = n' := by
    refine ⟨fun he => asI64_inj ?_ ?_ he, congrArg asI64⟩
    · have := hfit.blockNumber n hn
      omega
    · have := hfit'.blockNumber n' hn'
      omega
  have hindex : asI32 i = asI32 i' ↔ i = i' :=
    ⟨asI32_inj (hfit.logIndex i hi) (hfit'.logIndex i' hi'), congrArg asI32⟩
  simp only [logKey, Prod.mk.injEq, hn, hn', hi, hi', Option.map_some, Option.some.injEq, hblock,
    hindex]

end

/-! ## A payload -/

section
variable {rpc : RpcClient} {logs : List Log} {records : List Erc20TransferRecord}

theorem zip_recordOfLog (h : List.Forall₂ (RecordOfLog rpc) (accepted logs) records)
    {x : Log × Erc20TransferRecord} (hx : x ∈ (accepted logs).zip records) :
    RecordOfLog rpc x.1 x.2 :=
  (List.forall₂_iff_zip.mp h).2 hx

theorem nothingNarrowed_of_fits (h : List.Forall₂ (RecordOfLog rpc) (accepted logs) records)
    (hfit : ∀ log ∈ accepted logs, FitsColumns rpc log) : NothingNarrowed rpc logs records := by
  have hkeys : ∀ x ∈ (accepted logs).zip records, ∀ y ∈ (accepted logs).zip records,
      x.2.key = y.2.key ↔ logKey x.1 = logKey y.1 := fun x hx y hy =>
    key_eq_iff_of_fits (zip_recordOfLog h hx) (zip_recordOfLog h hy)
      (hfit _ (List.of_mem_zip hx).1) (hfit _ (List.of_mem_zip hy).1)
  refine ⟨?_, fun x hx y hy hne he => hne ((hkeys x hx y hy).mp he), fun l hl => ?_⟩
  · refine List.forall₂_iff_zip.mpr ⟨h.length_eq, fun hx => ?_⟩
    exact (unaltered_iff (zip_recordOfLog h hx)).mpr (hfit _ (List.of_mem_zip hx).1)
  · have hfst : ((accepted logs).zip records).map Prod.fst = accepted logs :=
      List.map_fst_zip (Nat.le_of_eq h.length_eq)
    have hsnd : ((accepted logs).zip records).map Prod.snd = records :=
      List.map_snd_zip (Nat.le_of_eq h.length_eq.symm)
    have hcard := Table.card_names_congr hkeys
    have hnames : ((accepted logs).zip records).map (fun x => logKey x.1) =
        (accepted logs).map logKey := by
      rw [← congrArg (List.map logKey) hfst, List.map_map]
      rfl
    have hrows : ((accepted logs).zip records).map (fun x => x.2.key) =
        records.map Erc20TransferRecord.key := by
      rw [← congrArg (List.map Erc20TransferRecord.key) hsnd, List.map_map]
      rfl
    rw [l.insertTransfers_count, Table.absentKeys_fresh hl, ← hrows, ← hnames, hcard]

theorem fits_of_unaltered (h : List.Forall₂ (RecordOfLog rpc) (accepted logs) records)
    (hu : List.Forall₂ (Unaltered rpc) (accepted logs) records) :
    ∀ log ∈ accepted logs, FitsColumns rpc log := by
  generalize accepted logs = kept at h hu
  induction hu with
  | nil => exact fun _ hl => by cases hl
  | cons hr _ ih =>
    cases h with
    | cons ho h => exact List.forall_mem_cons.mpr ⟨(unaltered_iff ho).mp hr, ih h⟩

end

/-- **Narrowing.** A payload has every accepted log unaltered and apart from the
others if and only if the block number and the timestamp of each are below 2^63
and its log index below 2^31. -/
theorem narrowing (engine : BackfillEngine) (rpc : RpcClient) (first last : Nat) (logs : List Log)
    (p : RangePayload first last)
    (hlogs : rpc.fetchErc20TransferLogs first last engine.contractFilter = .ok logs)
    (hp : engine.buildRangePayload rpc first last = .ok p) :
    NothingNarrowed rpc logs p.transferRecords ↔ ∀ log ∈ accepted logs, FitsColumns rpc log := by
  obtain ⟨metas, logs', hm, hl, hb⟩ := BackfillEngine.buildRangePayload_ok.mp hp
  have he : logs = logs' := Except.ok.inj (hlogs.symm.trans hl)
  subst he
  have hrec := (payloadOf_ok hm hb).records
  exact ⟨fun h => fits_of_unaltered hrec h.unaltered, nothingNarrowed_of_fits hrec⟩

/-- Block 1 has two transfers of one transaction, with these indexes. -/
def twoTransfers (i j : Nat) : Chain where
  height := 1
  hash _ := .ofByte 1
  timestamp _ := 0
  logs n := if n = 1 then [{ transferLog with logIndex := some i },
    { transferLog with logIndex := some j }] else []
  logs_mined := by
    intro n l hl
    split at hl
    · rename_i hn
      simp only [List.mem_cons, List.not_mem_nil, or_false] at hl
      rcases hl with rfl | rfl <;> exact ⟨by rw [hn]; rfl, rfl, rfl, rfl⟩
    · cases hl

/-- The record of a transfer of this block. -/
def twoTransfersRecord (i : Nat) : Erc20TransferRecord :=
  ⟨1, (B256.ofByte 1).val, (B256.ofByte 9).val, asI32 i, List.replicate 20 7,
    List.replicate 20 0, List.replicate 20 0, 5, 0⟩

theorem twoTransfers_payload (i j : Nat) : ∃ p,
    (BackfillEngine.ofDepths 0 1).buildRangePayload (.ofChain (twoTransfers i j)) 1 1 = .ok p ∧
    p.transferRecords = [twoTransfersRecord i, twoTransfersRecord j] ∧
    p.indexedBlocks = [(1, (B256.ofByte 1).val)] :=
  ⟨_, rfl, rfl, rfl⟩

theorem twoTransfers_accepted (i j : Nat) : accepted ((twoTransfers i j).getLogs none 1 1) =
    [{ transferLog with logIndex := some i }, { transferLog with logIndex := some j }] :=
  rfl

theorem narrowing_apart : ∃ p,
    (BackfillEngine.ofDepths 0 1).buildRangePayload (.ofChain (twoTransfers 0 1)) 1 1 = .ok p ∧
    NothingNarrowed (.ofChain (twoTransfers 0 1)) ((twoTransfers 0 1).getLogs none 1 1)
      p.transferRecords := by
  obtain ⟨p, hp, -⟩ := twoTransfers_payload 0 1
  refine ⟨p, hp, (narrowing _ _ 1 1 _ p rfl hp).mpr fun log hlog => ?_⟩
  have hfinds : ∀ hash timestamp, (RpcClient.ofChain (twoTransfers 0 1)).Finds 1 hash timestamp →
      timestamp < 2 ^ 63 := by
    intro hash timestamp hf
    cases hf
    decide
  have hblock : ∀ n ∈ transferLog.blockNumber, n = 1 := fun n hn => (Option.some.inj hn).symm
  rw [twoTransfers_accepted] at hlog
  simp only [List.mem_cons, List.not_mem_nil, or_false] at hlog
  rcases hlog with rfl | rfl
  · exact ⟨fun n hn => hblock n hn ▸ by decide, by simp, fun n hn => hblock n hn ▸ hfinds⟩
  · exact ⟨fun n hn => hblock n hn ▸ by decide, by simp, fun n hn => hblock n hn ▸ hfinds⟩

/-- **Counterexample.** Two transfers of one transaction with the log indexes 0 and
2^32. The payload is built, the second record has the log index and the key of the
first, and the commit drops it as a duplicate. -/
theorem narrowing_drops : ∃ p,
    (BackfillEngine.ofDepths 0 1).buildRangePayload (.ofChain (twoTransfers 0 (2 ^ 32))) 1 1 =
      .ok p ∧
    ¬ NothingNarrowed (.ofChain (twoTransfers 0 (2 ^ 32)))
      ((twoTransfers 0 (2 ^ 32)).getLogs none 1 1) p.transferRecords ∧
    (commitFinalizedRange .migrated p.transferRecords p.indexedBlocks 1 1).2 = ⟨2, 1, 1, 1⟩ := by
  obtain ⟨p, hp, hr, hb⟩ := twoTransfers_payload 0 (2 ^ 32)
  refine ⟨p, hp, fun h => ?_, by rw [hr, hb]; decide⟩
  have hkeys := h.apart ({ transferLog with logIndex := some 0 }, twoTransfersRecord 0)
    (by rw [twoTransfers_accepted, hr]; exact List.mem_cons_self)
    ({ transferLog with logIndex := some (2 ^ 32) }, twoTransfersRecord (2 ^ 32))
    (by rw [twoTransfers_accepted, hr]; exact List.mem_cons_of_mem _ List.mem_cons_self)
  exact hkeys (by simp [logKey]) (by decide)

end EthIndexer.L3
