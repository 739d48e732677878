import EthIndexer.L3Engine.System

/-!
# The metrics of the workers

`IndexerMetrics` has the counters and gauges the two workers record into; its
atomics are `u64` and `fetch_add` wraps. What only goes to the exporter or the
log (labels, durations, the rolling throughput) is left out, and so are the two
counters of the RPC client.

`Metered` is the system with its metrics: a step records what the code records
before its next await, and a process that starts again has new metrics.
-/
namespace EthIndexer.L3
open EthIndexer.L1 EthIndexer.L2

/-- The labels `"finalized"` and `"hot"`. -/
inductive Worker where
  | finalized
  | hot
  deriving DecidableEq

/-- mirrors crates/observability/src/lib.rs:83-99 -/
structure IndexerMetrics where
  successfulBlocks : Nat
  failedBlocks : Nat
  reorgEvents : Nat
  rollbacks : Nat
  checkpointRecoveries : Nat
  duplicateInserts : Nat
  finalizedTipLagBlocks : Nat
  hotTipLagBlocks : Nat
  finalizedCheckpoint : Nat
  hotCheckpoint : Nat
  deriving DecidableEq

/-- What `record_batch_success` reads of a batch.
mirrors crates/observability/src/lib.rs:20-38 -/
structure BatchMetrics where
  lane : Worker
  checkpoint : Nat
  blocks : Nat
  duplicateEvents : Nat
  tipLagBlocks : Nat

/-- `AtomicU64::fetch_add`. -/
def fetchAdd (a n : Nat) : Nat := (a + n) % 2 ^ 64

namespace IndexerMetrics

/-- mirrors crates/observability/src/lib.rs:102-120 -/
def new : IndexerMetrics := ⟨0, 0, 0, 0, 0, 0, 0, 0, 0, 0⟩

/-- mirrors crates/observability/src/lib.rs:173-183 -/
def setCheckpoint (m : IndexerMetrics) (worker : Worker) (checkpoint : Nat) : IndexerMetrics :=
  match worker with
  | .finalized => { m with finalizedCheckpoint := checkpoint }
  | .hot => { m with hotCheckpoint := checkpoint }

/-- The value last stored by `set_checkpoint`. -/
def checkpoint (m : IndexerMetrics) : Worker → Nat
  | .finalized => m.finalizedCheckpoint
  | .hot => m.hotCheckpoint

/-- mirrors crates/observability/src/lib.rs:150-171 -/
def recordCheckpointResume (m : IndexerMetrics) (worker : Worker) (checkpoint start : Nat) :
    IndexerMetrics :=
  let m := m.setCheckpoint worker checkpoint
  if 0 < checkpoint ∧ start ≤ checkpoint then
    { m with checkpointRecoveries := fetchAdd m.checkpointRecoveries 1 }
  else m

/-- mirrors crates/observability/src/lib.rs:185-195 -/
def recordTipLag (m : IndexerMetrics) (lane : Worker) (lagBlocks : Nat) : IndexerMetrics :=
  match lane with
  | .finalized => { m with finalizedTipLagBlocks := lagBlocks }
  | .hot => { m with hotTipLagBlocks := lagBlocks }

/-- mirrors crates/observability/src/lib.rs:197-206 -/
def recordReorgDetected (m : IndexerMetrics) : IndexerMetrics :=
  { m with reorgEvents := fetchAdd m.reorgEvents 1 }

/-- mirrors crates/observability/src/lib.rs:208-212 -/
def recordRollback (m : IndexerMetrics) : IndexerMetrics :=
  { m with rollbacks := fetchAdd m.rollbacks 1 }

/-- mirrors crates/observability/src/lib.rs:214-222 -/
def recordDuplicateInserts (m : IndexerMetrics) (duplicates : Nat) : IndexerMetrics :=
  if duplicates = 0 then m
  else { m with duplicateInserts := fetchAdd m.duplicateInserts duplicates }

/-- mirrors crates/observability/src/lib.rs:231-304 -/
def recordBatchSuccess (m : IndexerMetrics) (batch : BatchMetrics) : IndexerMetrics :=
  ((({ m with successfulBlocks := fetchAdd m.successfulBlocks batch.blocks }).recordTipLag
    batch.lane batch.tipLagBlocks).setCheckpoint batch.lane batch.checkpoint).recordDuplicateInserts
      batch.duplicateEvents

@[simp] theorem checkpoint_setCheckpoint (m : IndexerMetrics) (w : Worker) (n : Nat) :
    (m.setCheckpoint w n).checkpoint w = n := by
  cases w <;> rfl

@[simp] theorem checkpoint_recordCheckpointResume (m : IndexerMetrics) (w : Worker)
    (n start : Nat) : (m.recordCheckpointResume w n start).checkpoint w = n := by
  unfold recordCheckpointResume
  split <;> cases w <;> rfl

@[simp] theorem checkpoint_recordTipLag (m : IndexerMetrics) (w w' : Worker) (n : Nat) :
    (m.recordTipLag w n).checkpoint w' = m.checkpoint w' := by
  cases w <;> cases w' <;> rfl

@[simp] theorem checkpoint_recordReorgDetected (m : IndexerMetrics) (w : Worker) :
    m.recordReorgDetected.checkpoint w = m.checkpoint w := by
  cases w <;> rfl

@[simp] theorem checkpoint_recordRollback (m : IndexerMetrics) (w : Worker) :
    m.recordRollback.checkpoint w = m.checkpoint w := by
  cases w <;> rfl

@[simp] theorem checkpoint_recordDuplicateInserts (m : IndexerMetrics) (w : Worker) (n : Nat) :
    (m.recordDuplicateInserts n).checkpoint w = m.checkpoint w := by
  unfold recordDuplicateInserts
  split <;> cases w <;> rfl

@[simp] theorem checkpoint_recordBatchSuccess (m : IndexerMetrics) (batch : BatchMetrics) :
    (m.recordBatchSuccess batch).checkpoint batch.lane = batch.checkpoint := by
  simp only [recordBatchSuccess, checkpoint_recordDuplicateInserts, checkpoint_setCheckpoint]

end IndexerMetrics

/-! ## What the workers record -/

/-- mirrors crates/ingestion/src/lib.rs:534-552 -/
def buildBatchMetrics {first last : Nat} (lane : Worker) (latest : Nat)
    (payload : RangePayload first last) (stats : CommitStats) : BatchMetrics where
  lane := lane
  checkpoint := last
  blocks := payload.indexedBlocks.length
  duplicateEvents := stats.duplicateTransfers
  tipLagBlocks := latest - last

/-- What a range records: a reorganisation before it is rolled back, or the
batch after its commit.
mirrors crates/ingestion/src/lib.rs:176-213 and :227-263 -/
def rangeMetrics {first last : Nat} (hashOf : Nat → Option Bytes) (lane : Worker) (latest : Nat)
    (stats : RangePayload first last → CommitStats) (pc : RangePc first last) (e : Event)
    (m : IndexerMetrics) : IndexerMetrics :=
  match rangeStep hashOf first last pc e with
  | some (.reorg _) => m.recordReorgDetected.recordRollback
  | some (.commit p) => m.recordBatchSuccess (buildBatchMetrics lane latest p (stats p))
  | _ => m

theorem rangeMetrics_goto {first last latest : Nat} {hashOf : Nat → Option Bytes} {lane : Worker}
    {stats : RangePayload first last → CommitStats} {pc pc' : RangePc first last} {e : Event}
    {m : IndexerMetrics}
    (h : RangeStep hashOf first last pc e (.goto pc')) :
    rangeMetrics hashOf lane latest stats pc e m = m := by
  rw [rangeMetrics, rangeStep_of h]

theorem rangeMetrics_reorg {first last latest n : Nat} {hashOf : Nat → Option Bytes}
    {lane : Worker} {stats : RangePayload first last → CommitStats} {pc : RangePc first last}
    {e : Event} {m : IndexerMetrics} (h : RangeStep hashOf first last pc e (.reorg n)) :
    rangeMetrics hashOf lane latest stats pc e m = m.recordReorgDetected.recordRollback := by
  rw [rangeMetrics, rangeStep_of h]

theorem rangeMetrics_commit {first last latest : Nat} {hashOf : Nat → Option Bytes}
    {lane : Worker} {stats : RangePayload first last → CommitStats} {p : RangePayload first last}
    {m : IndexerMetrics} (h : p.Committable) :
    rangeMetrics hashOf lane latest stats (.commit p) .sql m =
      m.recordBatchSuccess (buildBatchMetrics lane latest p (stats p)) := by
  rw [rangeMetrics, rangeStep_of (.commit h)]

/-- mirrors crates/ingestion/src/lib.rs:52-62 and :297-316 -/
def backfillMetrics (engine : BackfillEngine) (start : Nat) (db : Db) :
    BackfillPc → Event → IndexerMetrics → IndexerMetrics
  | .resume, .sql, m => m.recordCheckpointResume .finalized (getCheckpoint db) start
  | .checkpoint latest, .sql, m =>
    m.recordTipLag .finalized (engine.safeHead latest - getCheckpoint db)
  | .historyRow _ _ n hash, .sql, m =>
    if getBlockHash db n = some hash.val then m else m.recordReorgDetected.recordRollback
  | .range first last latest pc, e, m =>
    rangeMetrics (getBlockHash db) .finalized latest
      (fun p => (commitFinalizedRange db p.transferRecords p.indexedBlocks first last).2) pc e m
  | _, _, m => m

/-- mirrors crates/ingestion/src/lib.rs:114-131 and :338-344 -/
def liveMetrics (start : Nat) (db : Db) : LivePc → Event → IndexerMetrics → IndexerMetrics
  | .resume, .sql, m => m.recordCheckpointResume .hot (getLiveCheckpoint db) start
  | .history _ _ n stored, .block k hash _, m =>
    if k = n ∧ stored ≠ hash.val then m.recordReorgDetected.recordRollback else m
  | .plan latest, .sql, m => m.recordTipLag .hot (latest - getLiveCheckpoint db)
  | .range _ last latest pc, e, m =>
    rangeMetrics (getHotBlockHash db) .hot latest
      (fun p => (commitHotRange db p.transferRecords p.indexedBlocks last).2) pc e m
  | _, _, m => m

/-! ## The system with its metrics -/

structure Metered where
  sys : Sys
  metrics : IndexerMetrics

/-- The metrics after a label; a process that ends leaves none. -/
def meter (engine : BackfillEngine) (start : Nat) (s : Sys) (m : IndexerMetrics) :
    Label → IndexerMetrics
  | .backfill e =>
    match backfillStep engine start s.db s.backfill e with
    | some .fail => .new
    | _ => backfillMetrics engine start s.db s.backfill e m
  | .live e =>
    match liveStep engine start s.db s.live e with
    | some .fail => .new
    | _ => liveMetrics start s.db s.live e m
  | .crash => .new

def meteredStep (engine : BackfillEngine) (start : Nat) (s : Metered) (l : Label) :
    Option Metered :=
  (step engine start s.sys l).map fun s' => ⟨s', meter engine start s.sys s.metrics l⟩

def metered (engine : BackfillEngine) (start : Nat) : LTS Metered Label :=
  .ofFn (· = ⟨.init, .new⟩) (meteredStep engine start)

/-- A metered step is a move of one worker with what it records, or a restart
with new metrics. -/
theorem meteredStep_cases {engine : BackfillEngine} {start : Nat} {s s' : Metered} {l : Label}
    (h : meteredStep engine start s l = some s') :
    (∃ e pc db, l = .backfill e ∧ BackfillMove engine start s.sys.db s.sys.backfill e pc db ∧
      s' = ⟨{ s.sys with db := db, backfill := pc },
        backfillMetrics engine start s.sys.db s.sys.backfill e s.metrics⟩) ∨
    (∃ e pc db, l = .live e ∧ LiveMove engine start s.sys.db s.sys.live e pc db ∧
      s' = ⟨{ s.sys with
          db := db, live := pc, pruned := prunedBy engine start s.sys.live s.sys.pruned },
        liveMetrics start s.sys.db s.sys.live e s.metrics⟩) ∨
    s'.sys = s.sys.restart := by
  obtain ⟨t, ht, he⟩ := Option.map_eq_some_iff.mp h
  subst he
  cases l with
  | backfill e =>
    obtain ⟨m, hm, hs⟩ := Option.map_eq_some_iff.mp ht
    cases m with
    | goto pc db =>
      refine .inl ⟨e, pc, db, rfl, backfillStep_cases hm, ?_⟩
      simp only [meter, hm, ← hs]
    | fail => exact .inr (.inr hs.symm)
  | live e =>
    obtain ⟨m, hm, hs⟩ := Option.map_eq_some_iff.mp ht
    cases m with
    | goto pc db =>
      refine .inr (.inl ⟨e, pc, db, rfl, liveStep_cases hm, ?_⟩)
      simp only [meter, hm, ← hs]
    | fail => exact .inr (.inr hs.symm)
  | crash =>
    cases ht
    exact .inr (.inr rfl)

/-- The metrics do not disturb the workers. -/
theorem metered_sys {engine : BackfillEngine} {start : Nat} {s : Metered}
    (h : (metered engine start).Reachable s) : (system engine start).Reachable s.sys := by
  obtain ⟨s₀, ls, h₀, hr⟩ := h
  refine ⟨s₀.sys, ls, by rw [h₀]; rfl, ?_⟩
  clear h₀
  induction hr with
  | nil => exact .nil _
  | cons hs _ ih =>
    obtain ⟨t, ht, he⟩ := Option.map_eq_some_iff.mp hs
    subst he
    exact .cons ht ih

end EthIndexer.L3
