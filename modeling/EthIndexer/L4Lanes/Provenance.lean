import EthIndexer.L3Engine.System

/-!
# Provenance of the stored transfers

`Sourced logs r`: the row `r` was decoded from one of `logs`, and the block hash
of that log is the row's `block_hash`.

`build_range_payload` joins the logs of a range to its block metadata by number
and never reads the block hash of a log (`decodeLogs_blockHash`), so a range
whose two answers come from different forks is committed: `sourced_fails`.
`provenance`: in the runs whose log answers carry the hashes of the metadata
they are joined with (`LogsMatch`), every row ever stored is sourced in a log
answered so far. The invariant follows the records a worker is about to commit
(`pending`).
-/
namespace EthIndexer.L4
open EthIndexer.L1 EthIndexer.L2 EthIndexer.L3

/-- `r` is the record of `log`, stored under the hash of `block`. -/
def DecodedFrom (log : Log) (block : BlockMetadata) (r : Erc20TransferRecord) : Prop :=
  ∃ event n txnHash logIndex, decodeErc20Transfer log = some event ∧ log.blockNumber = some n ∧
    log.transactionHash = some txnHash ∧ log.logIndex = some logIndex ∧
    r = recordOf log event txnHash logIndex n block

def Sourced (logs : List Log) (r : Erc20TransferRecord) : Prop :=
  ∃ log ∈ logs, (∃ block, DecodedFrom log block r) ∧
    log.blockHash.map Subtype.val = some r.blockHash

/-- The logs a label answers `eth_getLogs` with. -/
def answered : Label → List Log
  | .backfill (.logs _ _ ls) | .live (.logs _ _ ls) => ls
  | _ => []

theorem Sourced.mono {logs logs' : List Log} {r : Erc20TransferRecord} (h : Sourced logs r)
    (hs : ∀ l ∈ logs, l ∈ logs') : Sourced logs' r := by
  obtain ⟨log, hl, hd⟩ := h
  exact ⟨log, hs log hl, hd⟩

theorem sourced_nil {logs : List Log} : ∀ r ∈ ([] : List Erc20TransferRecord), Sourced logs r :=
  fun _ hr => absurd hr List.not_mem_nil

/-- The loop over the logs does not depend on their block hashes. -/
theorem decodeLogs_blockHash (metas : List BlockMetadata) (logs : List Log) (h : Option B256) :
    decodeLogs metas (logs.map fun l => { l with blockHash := h }) = decodeLogs metas logs := by
  induction logs with
  | nil => rfl
  | cons log rest ih =>
    have hd : decodeLog metas { log with blockHash := h } = decodeLog metas log := rfl
    simp only [List.map_cons, decodeLogs, ih, hd]

/-! ## Pending records -/

/-- The records of a payload on its way to the commit. -/
def rangePending {first last : Nat} : RangePc first last → List Erc20TransferRecord
  | .check p _ | .commit p => p.transferRecords
  | .blocks _ | .logs _ => []

def backfillPending : BackfillPc → List Erc20TransferRecord
  | .range _ _ _ pc => rangePending pc
  | _ => []

def livePending : LivePc → List Erc20TransferRecord
  | .range _ _ _ pc => rangePending pc
  | _ => []

theorem rangePending_enterCheck {first last : Nat} (p : RangePayload first last) (i : Nat) :
    rangePending (enterCheck p i) = p.transferRecords := by
  unfold enterCheck
  split <;> rfl

theorem rangePending_enterBlocks (first last : Nat) (got : List BlockMetadata) :
    rangePending (enterBlocks first last got) = [] := by
  unfold enterBlocks
  split <;> rfl

/-- Where the pending records of a range come from. -/
theorem rangePending_step {hashOf : Nat → Option Bytes} {first last : Nat}
    {pc pc' : RangePc first last} {e : Event} {r : Erc20TransferRecord}
    (h : RangeStep hashOf first last pc e (.goto pc')) (hr : r ∈ rangePending pc') :
    r ∈ rangePending pc ∨ ∃ metas ls, pc = .logs metas ∧ e = .logs first last ls ∧
      ∃ log ∈ ls, recordAt metas.val log = some r := by
  cases h with
  | block _ =>
    rw [rangePending_enterBlocks] at hr
    cases hr
  | @logs metas ls p hp =>
    rw [rangePending_enterCheck, (buildRangePayload_ok hp).2.1] at hr
    exact .inr ⟨metas, ls, rfl, rfl, List.mem_filterMap.mp hr⟩
  | agree hi _ =>
    rw [rangePending_enterCheck] at hr
    exact .inl hr

theorem livePending_hotHistoryFrom (latest last n : Nat) :
    livePending (hotHistoryFrom latest last n) = [] := by
  unfold hotHistoryFrom
  split <;> rfl

/-! ## The condition and the invariant -/

/-- A log that the loop makes a record of: accepted by the decoder, no field missing. -/
def Recorded (log : Log) : Prop :=
  (decodeErc20Transfer log).isSome ∧ log.transactionHash.isSome ∧ log.logIndex.isSome

instance (log : Log) : Decidable (Recorded log) :=
  inferInstanceAs (Decidable (_ ∧ _))

/-- Every such log carries, as its own block hash, the one of the metadata found
for its number. -/
def Matching (metas : List BlockMetadata) (ls : List Log) : Prop :=
  ∀ log ∈ ls, Recorded log → ∀ n ∈ log.blockNumber, ∀ block ∈ lookupBlock metas n,
    log.blockHash.map Subtype.val = some block.hash

instance (metas : List BlockMetadata) (ls : List Log) : Decidable (Matching metas ls) :=
  inferInstanceAs (Decidable (∀ log ∈ ls, Recorded log → ∀ n ∈ log.blockNumber,
    ∀ block ∈ lookupBlock metas n, _ = _))

/-- An answer to `eth_getLogs`, with the metadata it is joined with. -/
def joined? (s : Sys) : Label → Option (List BlockMetadata × List Log)
  | .backfill (.logs _ _ ls) =>
    match s.backfill with
    | .range _ _ _ (.logs metas) => some (metas.val, ls)
    | _ => none
  | .live (.logs _ _ ls) =>
    match s.live with
    | .range _ _ _ (.logs metas) => some (metas.val, ls)
    | _ => none
  | _ => none

/-- An answer to `eth_getLogs` matches the metadata it is joined with. -/
def LogsMatch (s : Sys) (l : Label) : Prop := ∀ a ∈ joined? s l, Matching a.1 a.2

instance (s : Sys) (l : Label) : Decidable (LogsMatch s l) :=
  inferInstanceAs (Decidable (∀ a ∈ joined? s l, Matching a.1 a.2))

/-- Everything stored or about to be is sourced in the logs answered so far. -/
structure ProvInv (ls : List Label) (s : Sys) : Prop where
  cold : ∀ r ∈ s.db.cold.transfers.rows, Sourced (ls.flatMap answered) r
  hot : ∀ r ∈ s.db.hot.transfers.rows, Sourced (ls.flatMap answered) r
  backfill : ∀ r ∈ backfillPending s.backfill, Sourced (ls.flatMap answered) r
  live : ∀ r ∈ livePending s.live, Sourced (ls.flatMap answered) r

theorem sourced_snoc {ls : List Label} {l : Label} {r : Erc20TransferRecord}
    (h : Sourced (ls.flatMap answered) r) : Sourced ((ls ++ [l]).flatMap answered) r := by
  refine h.mono fun log hl => ?_
  rw [List.flatMap_append]
  exact List.mem_append_left _ hl

/-- A record decoded from an answer that matches is sourced in it. -/
theorem sourced_of_recordAt {ls : List Label} {l : Label} {metas : List BlockMetadata}
    {answer : List Log} {log : Log} {r : Erc20TransferRecord} (ha : answered l = answer)
    (hl : log ∈ answer) (hr : recordAt metas log = some r) (hm : Matching metas answer) :
    Sourced ((ls ++ [l]).flatMap answered) r := by
  obtain ⟨event, n, txnHash, logIndex, block, h1, h2, h3, h4, h5, rfl⟩ := recordAt_eq_some.mp hr
  have hrec : Recorded log := by simp only [Recorded, h1, h3, h4, Option.isSome_some, and_self]
  refine ⟨log, ?_, ⟨block, event, n, txnHash, logIndex, h1, h2, h3, h4, rfl⟩,
    hm log hl hrec n h2 block h5⟩
  rw [List.flatMap_append]
  exact List.mem_append_right _ (by simpa [ha] using hl)

theorem provInv_init : ProvInv [] .init where
  cold := sourced_nil
  hot := sourced_nil
  backfill := sourced_nil
  live := sourced_nil

theorem provInv_backfill {engine : BackfillEngine} {start : Nat} {ls : List Label} {s : Sys}
    {e : Event} {pc : BackfillPc} {db : Db} (I : ProvInv ls s) (hC : LogsMatch s (.backfill e))
    (hm : BackfillMove engine start s.db s.backfill e pc db) :
    ProvInv (ls ++ [.backfill e]) { s with db := db, backfill := pc } := by
  obtain ⟨hc, hh, hb, hl⟩ := I
  have hl' := fun r hr => sourced_snoc (l := .backfill e) (hl r hr)
  have hc' := fun r hr => sourced_snoc (l := .backfill e) (hc r hr)
  have hh' := fun r hr => sourced_snoc (l := .backfill e) (hh r hr)
  generalize hp : s.backfill = pc₀ at hm hb
  cases hm with
  | rollback =>
    refine ⟨fun r hr => hc' r ?_, fun r hr => hh' r ?_, sourced_nil, hl'⟩
    · exact (Lane.mem_transfers_deleteNumbers.mp hr).1
    · exact (Lane.mem_transfers_deleteNumbers.mp hr).1
  | commit =>
    refine ⟨fun r hr => ?_, fun r hr => hh' r ?_, sourced_nil, hl'⟩
    · rcases Lane.mem_transfers_insertRange hr with hr | hr
      · exact hc' r hr
      · exact sourced_snoc (hb r hr)
    · exact (Lane.mem_transfers_deleteNumbers.mp hr).1
  | range h =>
    refine ⟨hc', hh', fun r hr => ?_, hl'⟩
    rcases rangePending_step h hr with hr | ⟨metas, ls', hpc, he, log, hlog, hrec⟩
    · exact sourced_snoc (hb r hr)
    · subst hpc he
      have hmatch := hC (metas.val, ls') (by simp only [joined?, hp, Option.mem_some_iff])
      exact sourced_of_recordAt rfl hlog hrec hmatch
  | planned _ _ _ =>
    refine ⟨hc', hh', fun r hr => ?_, hl'⟩
    simp only [backfillPending, rangePending_enterBlocks] at hr
    cases hr
  | _ => exact ⟨hc', hh', sourced_nil, hl'⟩

theorem provInv_live {engine : BackfillEngine} {start : Nat} {ls : List Label} {s : Sys}
    {e : Event} {pc : LivePc} {db : Db} {w : Option Nat} (I : ProvInv ls s)
    (hC : LogsMatch s (.live e)) (hm : LiveMove engine start s.db s.live e pc db) :
    ProvInv (ls ++ [.live e]) { s with db := db, live := pc, pruned := w } := by
  obtain ⟨hc, hh, hb, hl⟩ := I
  have hb' := fun r hr => sourced_snoc (l := .live e) (hb r hr)
  have hc' := fun r hr => sourced_snoc (l := .live e) (hc r hr)
  have hh' := fun r hr => sourced_snoc (l := .live e) (hh r hr)
  generalize hp : s.live = pc₀ at hm hl
  cases hm with
  | prune | rollback =>
    refine ⟨hc', fun r hr => hh' r ?_, hb', sourced_nil⟩
    exact (Lane.mem_transfers_deleteNumbers.mp hr).1
  | commit =>
    refine ⟨hc', fun r hr => ?_, hb', sourced_nil⟩
    rcases Lane.mem_transfers_insertRange hr with hr | hr
    · exact hh' r hr
    · exact sourced_snoc (hl r hr)
  | range h =>
    refine ⟨hc', hh', hb', fun r hr => ?_⟩
    rcases rangePending_step h hr with hr | ⟨metas, ls', hpc, he, log, hlog, hrec⟩
    · exact sourced_snoc (hl r hr)
    · subst hpc he
      have hmatch := hC (metas.val, ls') (by simp only [joined?, hp, Option.mem_some_iff])
      exact sourced_of_recordAt rfl hlog hrec hmatch
  | planned _ _ _ =>
    refine ⟨hc', hh', hb', fun r hr => ?_⟩
    simp only [livePending, rangePending_enterBlocks] at hr
    cases hr
  | historyHead _ | absent _ | agree =>
    refine ⟨hc', hh', hb', fun r hr => ?_⟩
    rw [livePending_hotHistoryFrom] at hr
    cases hr
  | _ => exact ⟨hc', hh', hb', sourced_nil⟩

theorem provInv_step {engine : BackfillEngine} {start : Nat} {ls : List Label} {s s' : Sys}
    {l : Label} (I : ProvInv ls s) (hC : LogsMatch s l) (h : step engine start s l = some s') :
    ProvInv (ls ++ [l]) s' := by
  rcases step_cases h with ⟨e, pc, db, rfl, hm, rfl⟩ | ⟨e, pc, db, rfl, hm, rfl⟩ | rfl
  · exact provInv_backfill I hC hm
  · exact provInv_live I hC hm
  · exact ⟨fun r hr => sourced_snoc (I.cold r hr), fun r hr => sourced_snoc (I.hot r hr),
      sourced_nil, sourced_nil⟩

/-- **Provenance.** After a run whose log answers match the metadata they are
joined with, every stored transfer was decoded from an answered log of the very
block the row names. -/
theorem provenance (engine : BackfillEngine) (start : Nat) (ls : List Label) (s : Sys)
    (h : ((system engine start).restrict LogsMatch).Run .init ls s) :
    (∀ r ∈ s.db.cold.transfers.rows, Sourced (ls.flatMap answered) r) ∧
    (∀ r ∈ s.db.hot.transfers.rows, Sourced (ls.flatMap answered) r) := by
  have hstep : ∀ ls s l s', ProvInv ls s → ((system engine start).restrict LogsMatch).step s l s' →
      ProvInv (ls ++ [l]) s' := fun _ _ _ _ I hs => provInv_step I hs.1 hs.2
  have I := LTS.run_history hstep h [] provInv_init
  exact ⟨I.cold, I.hot⟩

/-! ## Runs -/

/-- Block 1 is fetched off one fork and its logs off another. -/
def mixedRange : List Label :=
  [.backfill .sql, .backfill (.blockNumber 1), .backfill .sql, .backfill .sql,
    .backfill (.block 1 ((Chain.fork 1 9 0).hash 1) 0),
    .backfill (.logs 1 1 (oneTransfer.getLogs none 1 1)), .backfill .sql, .backfill .sql]

/-- **Counterexample**: the row of a log of block 1 with hash 1 is committed
under the hash 0. -/
theorem sourced_fails : ∃ s, (system (.ofDepths 0 1) 1).Run .init mixedRange s ∧
    ∃ r ∈ s.db.cold.transfers.rows, ¬ Sourced (mixedRange.flatMap answered) r := by
  have hx : ((LTS.exec (step (.ofDepths 0 1) 1) .init mixedRange).map
      fun s => s.db.cold.transfers.rows.map (·.blockHash)) = some [(B256.ofByte 0).val] := by
    decide +kernel
  obtain ⟨s, hs, hb⟩ := Option.map_eq_some_iff.mp hx
  refine ⟨s, LTS.exec_run (fun _ _ _ h => h) hs, ?_⟩
  obtain ⟨r, hr, hh⟩ := List.mem_map.mp (hb ▸ List.mem_singleton_self _)
  refine ⟨r, hr, ?_⟩
  intro h
  obtain ⟨log, hl, -, hlog⟩ := h
  have hall : ∀ l ∈ mixedRange.flatMap answered,
      l.blockHash.map Subtype.val ≠ some (B256.ofByte 0).val := by decide
  exact hall log hl (hh ▸ hlog)

/-- Both answers off one chain. -/
def pureRange : List Label :=
  [.backfill .sql, .backfill (.blockNumber 1), .backfill .sql, .backfill .sql] ++
    rangeLabels .backfill oneTransfer none 1 1

theorem provenance_pureRange :
    ∃ s, ((system (.ofDepths 0 1) 1).restrict LogsMatch).Run .init pureRange s ∧
      s.db.cold.transfers.rows.length = 1 ∧
      ∀ r ∈ s.db.cold.transfers.rows, Sourced (pureRange.flatMap answered) r := by
  have hx : ((LTS.exec (stepWith (.ofDepths 0 1) 1 LogsMatch) .init pureRange).map
      fun s => s.db.cold.transfers.rows.length) = some 1 := by decide +kernel
  obtain ⟨s, hs, hb⟩ := Option.map_eq_some_iff.mp hx
  have hr := LTS.exec_run stepWith_step hs
  exact ⟨s, hr, hb, (provenance _ _ _ s hr).1⟩

end EthIndexer.L4
