import EthIndexer.L2Storage.Replay
import EthIndexer.L4Lanes.Gauges

/-!
# What the counters count

`Account` is a ghost beside the metrics: what the transactions of the running
process did to the tables, read off the rows before and after each. A restart
empties both. `counters_exact` relates the two in every run with heads below
2^63:

* `rollbacks` and `reorg_events` are the executed rollbacks plus the ones a
  worker is about to execute, because `record_rollback` comes before the
  transaction,
* `successful_blocks` counts new rows only: no upsert of a block meets a stored
  row (`ColdInv`, `HotLaneInv`),
* `duplicate_inserts` counts keys repeated inside one batch of logs: `ON
  CONFLICT DO NOTHING` never meets a transfer of an earlier commit.

All of it is modulo 2^64, as `fetch_add` is. That `ON CONFLICT` never meets a row of
an earlier commit takes transactions that take effect one at a time.
-/
namespace EthIndexer.L4
open EthIndexer.L1 EthIndexer.L2 EthIndexer.L3

/-- ghost: what the transactions of the running process did. -/
structure Account where
  rollbacks : Nat
  newBlocks : Nat
  attempted : Nat
  inserted : Nat
  /-- the distinct keys of each batch -/
  distinct : Nat
  deriving DecidableEq

namespace Account

def zero : Account := ⟨0, 0, 0, 0, 0⟩

/-- A commit of `records` that turned the lane `l` into `l'`. -/
def commit (a : Account) (l l' : Lane) (records : List Erc20TransferRecord) : Account :=
  { a with
    newBlocks := a.newBlocks + (l'.blocks.rows.length - l.blocks.rows.length)
    attempted := a.attempted + records.length
    inserted := a.inserted + (l'.transfers.rows.length - l.transfers.rows.length)
    distinct := a.distinct + (records.map Erc20TransferRecord.key).dedup.length }

def backfill (a : Account) (db db' : Db) : BackfillPc → Event → Account
  | .rollback _, .sql => { a with rollbacks := a.rollbacks + 1 }
  | .range _ _ _ (.commit p), .sql => a.commit db.cold db'.cold p.transferRecords
  | _, _ => a

def live (a : Account) (db db' : Db) : LivePc → Event → Account
  | .rollback _, .sql => { a with rollbacks := a.rollbacks + 1 }
  | .range _ _ _ (.commit p), .sql => a.commit db.hot db'.hot p.transferRecords
  | _, _ => a

end Account

structure Audited where
  metered : Metered
  account : Account

/-- The account after a label that leads to `db'`. -/
def audit (engine : BackfillEngine) (start : Nat) (s : Sys) (a : Account) (db' : Db) :
    Label → Account
  | .backfill e =>
    match backfillStep engine start s.db s.backfill e with
    | some .fail => .zero
    | _ => a.backfill s.db db' s.backfill e
  | .live e =>
    match liveStep engine start s.db s.live e with
    | some .fail => .zero
    | _ => a.live s.db db' s.live e
  | .crash => .zero

def auditedStep (engine : BackfillEngine) (start : Nat) (s : Audited) (l : Label) :
    Option Audited :=
  (meteredStep engine start s.metered l).map fun m =>
    ⟨m, audit engine start s.metered.sys s.account m.sys.db l⟩

def audited (engine : BackfillEngine) (start : Nat) : LTS Audited Label :=
  .ofFn (· = ⟨⟨.init, .new⟩, .zero⟩) (auditedStep engine start)

/-- An audited step is a move of one worker with what it records and does, or a
restart with nothing recorded and nothing done. -/
theorem auditedStep_cases {engine : BackfillEngine} {start : Nat} {s s' : Audited} {l : Label}
    (h : auditedStep engine start s l = some s') :
    (∃ e pc db, l = .backfill e ∧
      BackfillMove engine start s.metered.sys.db s.metered.sys.backfill e pc db ∧
      s' = ⟨⟨{ s.metered.sys with db := db, backfill := pc },
        backfillMetrics engine start s.metered.sys.db s.metered.sys.backfill e s.metered.metrics⟩,
        s.account.backfill s.metered.sys.db db s.metered.sys.backfill e⟩) ∨
    (∃ e pc db, l = .live e ∧
      LiveMove engine start s.metered.sys.db s.metered.sys.live e pc db ∧
      s' = ⟨⟨{ s.metered.sys with
          db := db, live := pc
          pruned := prunedBy engine start s.metered.sys.live s.metered.sys.pruned },
        liveMetrics start s.metered.sys.db s.metered.sys.live e s.metered.metrics⟩,
        s.account.live s.metered.sys.db db s.metered.sys.live e⟩) ∨
    s' = ⟨⟨s.metered.sys.restart, .new⟩, .zero⟩ := by
  obtain ⟨_, hmet, he⟩ := Option.map_eq_some_iff.mp h
  obtain ⟨t, ht, hmt⟩ := Option.map_eq_some_iff.mp hmet
  subst hmt he
  cases l with
  | backfill e =>
    obtain ⟨m, hm, hs⟩ := Option.map_eq_some_iff.mp ht
    cases m with
    | goto pc db =>
      refine .inl ⟨e, pc, db, rfl, backfillStep_cases hm, ?_⟩
      simp only [meter, audit, hm, ← hs]
    | fail => exact .inr (.inr (by simp only [meter, audit, hm, ← hs]))
  | live e =>
    obtain ⟨m, hm, hs⟩ := Option.map_eq_some_iff.mp ht
    cases m with
    | goto pc db =>
      refine .inr (.inl ⟨e, pc, db, rfl, liveStep_cases hm, ?_⟩)
      simp only [meter, audit, hm, ← hs]
    | fail => exact .inr (.inr (by simp only [meter, audit, hm, ← hs]))
  | crash =>
    cases ht
    exact .inr (.inr rfl)

/-! ## A commit of fresh blocks -/

section
variable {first last : Nat} {l : Lane}

theorem length_blocks_insertRange (p : RangePayload first last) (hl : last < 2 ^ 64)
    (hf : ∀ n, first ≤ n → n ≤ last → asI64 n ∉ l.keys) :
    (l.insertRange p.transferRecords p.indexedBlocks).blocks.rows.length =
      l.blocks.rows.length + p.indexedBlocks.length := by
  have hlt : ∀ n ∈ p.indexedBlocks.map Prod.fst, n < 2 ^ 64 := fun n hn => by
    have := p.mem_numbers.mp hn
    omega
  have hn : ((p.indexedBlocks.map Lane.blockRow).map IndexedBlock.blockNumber).Nodup := by
    rw [Lane.blockRow_keys]
    exact asI64_nodup p.numbers_nodup hlt
  have hfresh : ∀ b ∈ p.indexedBlocks.map Lane.blockRow, b.blockNumber ∉ l.blocks.keys := by
    intro b hb
    obtain ⟨⟨n, hash⟩, hm, rfl⟩ := List.mem_map.mp hb
    obtain ⟨hfn, hnl⟩ := p.mem_numbers.mp (List.mem_map_of_mem hm)
    exact hf n hfn hnl
  have hrows : (l.insertRange p.transferRecords p.indexedBlocks).blocks.rows =
      l.blocks.rows ++ p.indexedBlocks.map Lane.blockRow := Table.upsertAll_fresh hn hfresh
  rw [hrows, List.length_append, List.length_map]

/-- The transfers of fresh blocks are fresh, so the batch adds each of its keys once. -/
theorem insertTransfers_distinct (p : RangePayload first last) (hb : l.Backed)
    (hf : ∀ n, first ≤ n → n ≤ last → asI64 n ∉ l.keys) :
    (l.insertTransfers p.transferRecords).2 =
      (p.transferRecords.map Erc20TransferRecord.key).dedup.length := by
  have hfresh : ∀ r ∈ p.transferRecords, r.key ∉ l.transfers.keys := by
    intro r hr hk
    obtain ⟨n, hn, he⟩ := p.joined r hr
    obtain ⟨hfn, hnl⟩ := p.mem_numbers.mp (List.mem_map_of_mem hn)
    obtain ⟨r', hr', hk'⟩ := Table.mem_keys.mp hk
    have hnum : r'.blockNumber = r.blockNumber := congrArg (·.2.2) hk'
    refine hf n hfn hnl ?_
    rw [← he, ← hnum]
    exact hb r' hr'
  rw [Lane.insertTransfers_count, Table.absentKeys_fresh hfresh, List.card_toFinset]

end

/-! ## The counters and the account -/

/-- Beside `pending` rollbacks recorded and not yet executed. -/
structure Counts (m : IndexerMetrics) (a : Account) (pending : Nat) : Prop where
  rollbacks : m.rollbacks = (a.rollbacks + pending) % 2 ^ 64
  reorgs : m.reorgEvents = m.rollbacks
  blocks : m.successfulBlocks = a.newBlocks % 2 ^ 64
  distinct : a.inserted = a.distinct
  inserted : a.inserted ≤ a.attempted
  duplicates : m.duplicateInserts = (a.attempted - a.inserted) % 2 ^ 64

namespace Counts
variable {m : IndexerMetrics} {a : Account} {k : Nat}

theorem zero : Counts .new .zero 0 := ⟨rfl, rfl, rfl, rfl, Nat.le_refl _, rfl⟩

theorem recordTipLag (h : Counts m a k) (w : Worker) (n : Nat) :
    Counts (m.recordTipLag w n) a k := by
  cases w <;> exact ⟨h.rollbacks, h.reorgs, h.blocks, h.distinct, h.inserted, h.duplicates⟩

theorem setCheckpoint (h : Counts m a k) (w : Worker) (n : Nat) :
    Counts (m.setCheckpoint w n) a k := by
  cases w <;> exact ⟨h.rollbacks, h.reorgs, h.blocks, h.distinct, h.inserted, h.duplicates⟩

theorem recordCheckpointResume (h : Counts m a k) (w : Worker) (n start : Nat) :
    Counts (m.recordCheckpointResume w n start) a k := by
  have h' := h.setCheckpoint w n
  unfold IndexerMetrics.recordCheckpointResume
  split
  · exact ⟨h'.rollbacks, h'.reorgs, h'.blocks, h'.distinct, h'.inserted, h'.duplicates⟩
  · exact h'

/-- A reorganisation is recorded, and its rollback is pending. -/
theorem reorg (h : Counts m a k) : Counts m.recordReorgDetected.recordRollback a (k + 1) := by
  refine ⟨?_, ?_, h.blocks, h.distinct, h.inserted, h.duplicates⟩
  · simp only [IndexerMetrics.recordRollback, IndexerMetrics.recordReorgDetected, fetchAdd,
      h.rollbacks]
    omega
  · simp only [IndexerMetrics.recordRollback, IndexerMetrics.recordReorgDetected, h.reorgs]

/-- A pending rollback is executed. -/
theorem executed (h : Counts m a (k + 1)) :
    Counts m { a with rollbacks := a.rollbacks + 1 } k := by
  refine ⟨?_, h.reorgs, h.blocks, h.distinct, h.inserted, h.duplicates⟩
  rw [h.rollbacks]
  exact congrArg (· % 2 ^ 64) (by dsimp only; omega)

theorem recordBlocks (h : Counts m a k) (n : Nat) :
    Counts { m with successfulBlocks := fetchAdd m.successfulBlocks n }
      { a with newBlocks := a.newBlocks + n } k := by
  refine ⟨h.rollbacks, h.reorgs, ?_, h.distinct, h.inserted, h.duplicates⟩
  simp only [fetchAdd, h.blocks]
  omega

/-- Of `attempted` records, `inserted` went into the table. -/
theorem recordDuplicateInserts (h : Counts m a k) {attempted inserted : Nat}
    (hle : inserted ≤ attempted) :
    Counts (m.recordDuplicateInserts (attempted - inserted))
      { a with
        attempted := a.attempted + attempted
        inserted := a.inserted + inserted
        distinct := a.distinct + inserted } k := by
  have hin := h.inserted
  have hdup := h.duplicates
  have hsum : a.attempted + attempted - (a.inserted + inserted) =
      (a.attempted - a.inserted) + (attempted - inserted) := by omega
  have hadd : fetchAdd m.duplicateInserts (attempted - inserted) =
      (a.attempted + attempted - (a.inserted + inserted)) % 2 ^ 64 := by
    rw [fetchAdd, hdup, hsum, Nat.mod_add_mod]
  have hdist : a.inserted + inserted = a.distinct + inserted := congrArg (· + inserted) h.distinct
  unfold IndexerMetrics.recordDuplicateInserts
  split
  · rename_i hz
    refine ⟨h.rollbacks, h.reorgs, h.blocks, hdist, Nat.add_le_add hin hle, ?_⟩
    rw [hdup, hsum, hz, Nat.add_zero]
  · exact ⟨h.rollbacks, h.reorgs, h.blocks, hdist, Nat.add_le_add hin hle, hadd⟩

/-- A range whose blocks are new to the lane is committed. -/
theorem commit {first last latest : Nat} {l : Lane} {w : Worker} (h : Counts m a k)
    (p : RangePayload first last) (hl : last < 2 ^ 64) (hb : l.Backed)
    (hf : ∀ n, first ≤ n → n ≤ last → asI64 n ∉ l.keys) :
    Counts (m.recordBatchSuccess (buildBatchMetrics w latest p
        (commitStats (l.insertTransfers p.transferRecords).2 p.transferRecords p.indexedBlocks)))
      (a.commit l (l.insertRange p.transferRecords p.indexedBlocks) p.transferRecords) k := by
  have hdist := insertTransfers_distinct p hb hf
  have hle : (l.insertTransfers p.transferRecords).2 ≤ p.transferRecords.length := by
    rw [Lane.insertTransfers_count]
    exact Table.card_absentKeys_le _ _
  have hcommit : a.commit l (l.insertRange p.transferRecords p.indexedBlocks) p.transferRecords =
      { a with
        newBlocks := a.newBlocks + p.indexedBlocks.length
        attempted := a.attempted + p.transferRecords.length
        inserted := a.inserted + (l.insertTransfers p.transferRecords).2
        distinct := a.distinct + (l.insertTransfers p.transferRecords).2 } := by
    rw [Account.commit, length_blocks_insertRange p hl hf, Nat.add_sub_cancel_left, ← hdist]
    rfl
  rw [hcommit]
  exact (((h.recordBlocks _).recordTipLag w _).setCheckpoint w last).recordDuplicateInserts hle

end Counts

/-! ## The moves -/

/-- A rollback that is recorded and not yet executed. -/
def backfillDue : BackfillPc → Nat
  | .rollback _ => 1
  | _ => 0

def liveDue : LivePc → Nat
  | .rollback _ => 1
  | _ => 0

@[simp] theorem liveDue_hotHistoryFrom (latest last n : Nat) :
    liveDue (hotHistoryFrom latest last n) = 0 := by
  unfold hotHistoryFrom
  split <;> rfl

section
variable {engine : BackfillEngine} {start k : Nat} {m : IndexerMetrics} {a : Account}

theorem Account.backfill_range {db db' : Db} {first last latest : Nat} {pc : RangePc first last}
    {e : Event} (h : ∀ p, pc ≠ .commit p) :
    a.backfill db db' (.range first last latest pc) e = a := by
  cases pc with
  | commit p => exact absurd rfl (h p)
  | _ => rfl

theorem Account.live_range {db db' : Db} {first last latest : Nat} {pc : RangePc first last}
    {e : Event} (h : ∀ p, pc ≠ .commit p) :
    a.live db db' (.range first last latest pc) e = a := by
  cases pc with
  | commit p => exact absurd rfl (h p)
  | _ => rfl

/-- What a move of `run_backfill` records is what it does, but for the rollback
it leaves pending. -/
theorem counts_backfill {db db' : Db} {pc pc' : BackfillPc} {e : Event}
    (hk : ColdKeys start db) (hh : db.cold.Hashed) (hpc : ColdPc start db pc)
    (h : Counts m a (k + backfillDue pc)) (hm : BackfillMove engine start db pc e pc' db') :
    Counts (backfillMetrics engine start db pc e m) (a.backfill db db' pc e)
      (k + backfillDue pc') := by
  cases hm with
  | resume => exact h.recordCheckpointResume _ _ _
  | revalidate _ | skip _ => exact h.recordTipLag .finalized _
  | next hs _ | clean hs _ =>
    rw [backfillMetrics, if_pos hs]
    exact h
  | mismatch hs =>
    rw [backfillMetrics, if_neg hs]
    exact h.reorg
  | rollback => exact h.executed
  | range hr =>
    rw [backfillMetrics, rangeMetrics_goto hr,
      Account.backfill_range (rangeStep_not_commit hr (by simp) (by simp))]
    exact h
  | reorg hr =>
    rw [backfillMetrics, rangeMetrics_reorg hr,
      Account.backfill_range (rangeStep_not_commit hr (by simp) (by simp))]
    exact h.reorg
  | commit hp =>
    obtain ⟨-, hl, hf⟩ := hpc
    rw [backfillMetrics, rangeMetrics_commit hp]
    exact h.commit _ (by omega) hh.backed fun n hn hnl => planned_fresh hk hl hf ⟨hn, hnl⟩
  | head _ | fetched | planned _ _ _ | caughtUp _ | wake => exact h

theorem counts_live {db db' : Db} {pc pc' : LivePc} {e : Event} (hl : HotLane db)
    (hf : LiveFits start pc) (hr : RangeAbove db pc) (h : Counts m a (k + liveDue pc))
    (hm : LiveMove engine start db pc e pc' db') :
    Counts (liveMetrics start db pc e m) (a.live db db' pc e) (k + liveDue pc') := by
  cases hm with
  | resume => exact h.recordCheckpointResume _ _ _
  | planned _ _ _ | caughtUp _ => exact h.recordTipLag .hot _
  | historyHead _ | absent _ =>
    rw [liveDue_hotHistoryFrom]
    exact h
  | agree =>
    rw [liveDue_hotHistoryFrom, liveMetrics, if_neg (fun hne => hne.2 rfl)]
    exact h
  | mismatch hne =>
    rw [liveMetrics, if_pos ⟨rfl, hne⟩]
    exact h.reorg
  | rollback => exact h.executed
  | range hr =>
    rw [liveMetrics, rangeMetrics_goto hr, Account.live_range (rangeStep_not_commit hr (by simp) (by simp))]
    exact h
  | reorg hr =>
    rw [liveMetrics, rangeMetrics_reorg hr, Account.live_range (rangeStep_not_commit hr (by simp) (by simp))]
    exact h.reorg
  | commit hp =>
    obtain ⟨-, -, hlt⟩ := hf
    rw [liveMetrics, rangeMetrics_commit hp]
    exact h.commit _ (by omega) hl.hashed.backed fun n hn hnl => hr.fresh hn (by omega)
  | head _ | prune | stored _ | wake => exact h

end

/-! ## Runs -/

/-- Rollbacks recorded by either worker and not yet executed. -/
def pending (s : Sys) : Nat := backfillDue s.backfill + liveDue s.live

structure AuditInv (start : Nat) (s : Audited) : Prop where
  cold : ColdInv start s.metered.sys
  hot : HotLaneInv start s.metered.sys
  counts : Counts s.metered.metrics s.account (pending s.metered.sys)

/-- The audited runs with heads below 2^63. -/
def auditedWith (engine : BackfillEngine) (start : Nat) : LTS Audited Label :=
  (audited engine start).restrict fun _ l => HeadFits l

theorem auditInv_step {engine : BackfillEngine} {start : Nat} {s s' : Audited} {l : Label}
    (I : AuditInv start s) (hE : HeadFits l) (h : auditedStep engine start s l = some s') :
    AuditInv start s' := by
  obtain ⟨m, hm, he⟩ := Option.map_eq_some_iff.mp h
  obtain ⟨t, ht, hmt⟩ := Option.map_eq_some_iff.mp hm
  have hsys : s'.metered.sys = t := by rw [← he, ← hmt]
  have hcold := coldInv_step I.cold hE.backfill ht
  have hhot := hotLaneInv_step I.hot (liveHeadFits_of_headFits hE) ht
  refine ⟨hsys ▸ hcold, hsys ▸ hhot, ?_⟩
  have hc := I.counts
  rcases auditedStep_cases h with ⟨e, pc, db, -, hmove, rfl⟩ | ⟨e, pc, db, -, hmove, rfl⟩ | rfl
  · rw [pending, Nat.add_comm] at hc ⊢
    exact counts_backfill I.cold.keys I.cold.hashed I.cold.pc hc hmove
  · exact counts_live I.hot.lane I.hot.live I.hot.range hc hmove
  · exact .zero

theorem auditInv_inductive (engine : BackfillEngine) (start : Nat) :
    (auditedWith engine start).Inductive (AuditInv start) where
  init := by
    intro s hs
    rw [hs]
    exact ⟨coldInv_init start, hotLaneInv_init start, .zero⟩
  step := fun _ _ _ I hs => auditInv_step I hs.1 hs.2

/-- **Counters.** In every state reachable with heads below 2^63, under any chain
behaviour, interleaving, failures and restarts, the counters of the running
process are what its transactions did: `rollbacks` is ahead by the rollbacks
recorded and not yet executed, every block counted was a new row, and the
duplicates counted are the repetitions inside single batches. -/
theorem counters_exact (engine : BackfillEngine) (start : Nat) (s : Audited)
    (h : (auditedWith engine start).Reachable s) :
    s.metered.metrics.reorgEvents = (s.account.rollbacks + pending s.metered.sys) % 2 ^ 64 ∧
    s.metered.metrics.rollbacks = (s.account.rollbacks + pending s.metered.sys) % 2 ^ 64 ∧
    s.metered.metrics.successfulBlocks = s.account.newBlocks % 2 ^ 64 ∧
    s.account.inserted = s.account.distinct ∧
    s.metered.metrics.duplicateInserts = (s.account.attempted - s.account.distinct) % 2 ^ 64 := by
  obtain ⟨hr, he, hb, hd, -, hdup⟩ := ((auditInv_inductive engine start).reachable s h).counts
  exact ⟨he.trans hr, hr, hb, hd, hd ▸ hdup⟩

/-- Block 1 is committed with its log twice, then found replaced. -/
def repeatedThenReplaced : List Label :=
  [.backfill .sql, .backfill (.blockNumber 1), .backfill .sql, .backfill .sql,
    .backfill (.block 1 (.ofByte 1) 0), .backfill (.logs 1 1 [transferLog, transferLog]),
    .backfill .sql, .backfill .sql, .backfill (.blockNumber 1), .backfill .sql,
    .backfill (.block 1 (.ofByte 2) 0), .backfill .sql]

/-- The reorganisation is counted and its rollback not executed. -/
theorem counters_exact_repeated : ∃ s, (auditedWith (.ofDepths 0 1) 1).Reachable s ∧
    s.account = ⟨0, 1, 2, 1, 1⟩ ∧ pending s.metered.sys = 1 ∧
    s.metered.metrics.rollbacks = 1 ∧ s.metered.metrics.duplicateInserts = 1 := by
  have hx : ((LTS.exec (LTS.restrictFn (auditedStep (.ofDepths 0 1) 1) fun _ l => HeadFits l)
      ⟨⟨.init, .new⟩, .zero⟩ repeatedThenReplaced).map fun s =>
        (s.account, pending s.metered.sys)) = some (⟨0, 1, 2, 1, 1⟩, 1) := by
    decide +kernel
  obtain ⟨s, hr, hb⟩ := LTS.reachable_of_exec (M := auditedWith _ _) LTS.restrictFn_step rfl hx
  simp only [Prod.mk.injEq] at hb
  obtain ⟨ha, hp⟩ := hb
  obtain ⟨-, hroll, -, -, hdup⟩ := counters_exact _ _ s hr
  rw [ha, hp] at hroll
  rw [ha] at hdup
  exact ⟨s, hr, ha, hp, hroll, hdup⟩

end EthIndexer.L4
