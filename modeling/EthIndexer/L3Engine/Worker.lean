import EthIndexer.L3Engine.Range

/-!
# The two workers

`run_backfill` and `run_live` as step functions, one RPC answer, one `SELECT`
or one committed transaction at a time. The state of a worker names what it is
waiting for and holds the local variables that are still live; the database is
read at the moment a `SELECT` is answered.

* `backfillStep` / `BackfillMove`: the finalized worker,
* `liveStep` / `LiveMove`: the live worker.

The `Move` relations list what one step can do, guards included; every
invariant of this development is a case analysis on them.
-/
namespace EthIndexer.L3
open EthIndexer.L1 EthIndexer.L2

/-- `fail`: the worker returns `Err`, or panics on `u64` overflow. -/
inductive Move (Pc : Type) where
  | goto (pc : Pc) (db : Db)
  | fail

/-! ## `run_backfill` -/

/-- What `run_backfill` waits for: `resume`: the checkpoint read before the
loop; `head`: `eth_blockNumber`; `checkpoint`, `plan`: the two checkpoint reads
of an iteration; `history`, `historyRow`: metadata and stored hash of block `n`
in `reconcile_finalized_history`; `rollback`: `rollback_from_block`; `range`:
`process_finalized_range`; `sleep`: the caught-up branch. -/
inductive BackfillPc where
  | resume
  | head
  | checkpoint (latest : Nat)
  | history (latest checkpoint n : Nat)
  | historyRow (latest checkpoint n : Nat) (hash : B256)
  | rollback (n : Nat)
  | plan (latest : Nat)
  | range (first last latest : Nat) (pc : RangePc first last)
  | sleep (latest : Nat)

/-- mirrors crates/ingestion/src/lib.rs:72 -/
def nextFinalizedBlock (start : Nat) (db : Db) : Nat :=
  max (saturatingAdd (getCheckpoint db) 1) start

/-- Where a batch has room below 2^64, the addition does not saturate. -/
theorem nextFinalizedBlock_of_room {start : Nat} {db : Db}
    (h : nextFinalizedBlock start db + BLOCK_BATCH_SIZE < 2 ^ 64) :
    nextFinalizedBlock start db = max (getCheckpoint db + 1) start := by
  have hle : saturatingAdd (getCheckpoint db) 1 ≤ nextFinalizedBlock start db := Nat.le_max_left _ _
  have hlt : getCheckpoint db + 1 < 2 ^ 64 := by
    by_contra hge
    have hu : saturatingAdd (getCheckpoint db) 1 = u64Max := Nat.min_eq_right (by
      unfold u64Max; omega)
    simp only [u64Max, BLOCK_BATCH_SIZE] at hu h
    omega
  rw [nextFinalizedBlock, saturatingAdd_eq hlt]

/-- mirrors crates/ingestion/src/lib.rs:48-108 (the loop), :166-215
(`process_finalized_range`) and :285-322 (`reconcile_finalized_history`) -/
def backfillStep (engine : BackfillEngine) (start : Nat) (db : Db) :
    BackfillPc → Event → Option (Move BackfillPc)
  | .resume, .sql => some (.goto .head db)
  | .head, .blockNumber latest =>
    if latest < 2 ^ 64 then some (.goto (.checkpoint latest) db) else none
  | .checkpoint latest, .sql =>
    if start ≤ getCheckpoint db then
      some (.goto (.history latest (getCheckpoint db)
        (engine.validationStart start (getCheckpoint db))) db)
    else some (.goto (.plan latest) db)
  | .history latest checkpoint n, .block m hash _ =>
    if m = n then some (.goto (.historyRow latest checkpoint n hash) db) else none
  | .historyRow latest checkpoint n hash, .sql =>
    if getBlockHash db n = some hash.val then
      if n < checkpoint then some (.goto (.history latest checkpoint (n + 1)) db)
      else some (.goto (.plan latest) db)
    else some (.goto (.rollback n) db)
  | .rollback n, .sql => some (.goto .head (rollbackFromBlock db n))
  | .plan latest, .sql =>
    if nextFinalizedBlock start db ≤ engine.safeHead latest then
      -- `next_finalized_block + BLOCK_BATCH_SIZE - 1` is unchecked `u64` arithmetic
      if nextFinalizedBlock start db + BLOCK_BATCH_SIZE < 2 ^ 64 then
        let last := min (nextFinalizedBlock start db + BLOCK_BATCH_SIZE - 1)
          (engine.safeHead latest)
        some (.goto (.range (nextFinalizedBlock start db) last latest
          (enterBlocks (nextFinalizedBlock start db) last [])) db)
      else some .fail
    else some (.goto (.sleep latest) db)
  | .range first last latest pc, e =>
    (rangeStep (getBlockHash db) first last pc e).map fun
      | .goto pc' => .goto (.range first last latest pc') db
      | .reorg n => .goto (.rollback n) db
      | .commit p =>
        .goto .head (commitFinalizedRange db p.transferRecords p.indexedBlocks first last).1
      | .fail => .fail
  | .sleep _, .timer => some (.goto .head db)
  | _, _ => none

inductive BackfillMove (engine : BackfillEngine) (start : Nat) (db : Db) :
    BackfillPc → Event → BackfillPc → Db → Prop
  | resume : BackfillMove engine start db .resume .sql .head db
  | head {latest : Nat} (h : latest < 2 ^ 64) :
      BackfillMove engine start db .head (.blockNumber latest) (.checkpoint latest) db
  | revalidate {latest : Nat} (h : start ≤ getCheckpoint db) :
      BackfillMove engine start db (.checkpoint latest) .sql
        (.history latest (getCheckpoint db) (engine.validationStart start (getCheckpoint db))) db
  | skip {latest : Nat} (h : getCheckpoint db < start) :
      BackfillMove engine start db (.checkpoint latest) .sql (.plan latest) db
  | fetched {latest checkpoint n : Nat} {hash : B256} {timestamp : Nat} :
      BackfillMove engine start db (.history latest checkpoint n) (.block n hash timestamp)
        (.historyRow latest checkpoint n hash) db
  | next {latest checkpoint n : Nat} {hash : B256} (h : getBlockHash db n = some hash.val)
      (hlt : n < checkpoint) :
      BackfillMove engine start db (.historyRow latest checkpoint n hash) .sql
        (.history latest checkpoint (n + 1)) db
  | clean {latest checkpoint n : Nat} {hash : B256} (h : getBlockHash db n = some hash.val)
      (hge : checkpoint ≤ n) :
      BackfillMove engine start db (.historyRow latest checkpoint n hash) .sql (.plan latest) db
  | mismatch {latest checkpoint n : Nat} {hash : B256} (h : getBlockHash db n ≠ some hash.val) :
      BackfillMove engine start db (.historyRow latest checkpoint n hash) .sql (.rollback n) db
  | rollback {n : Nat} :
      BackfillMove engine start db (.rollback n) .sql .head (rollbackFromBlock db n)
  | planned {latest last : Nat} (h : nextFinalizedBlock start db ≤ engine.safeHead latest)
      (hov : nextFinalizedBlock start db + BLOCK_BATCH_SIZE < 2 ^ 64)
      (hlast : last = min (nextFinalizedBlock start db + BLOCK_BATCH_SIZE - 1)
        (engine.safeHead latest)) :
      BackfillMove engine start db (.plan latest) .sql
        (.range (nextFinalizedBlock start db) last latest
          (enterBlocks (nextFinalizedBlock start db) last [])) db
  | caughtUp {latest : Nat} (h : engine.safeHead latest < nextFinalizedBlock start db) :
      BackfillMove engine start db (.plan latest) .sql (.sleep latest) db
  | range {first last latest : Nat} {pc pc' : RangePc first last} {e : Event}
      (h : RangeStep (getBlockHash db) first last pc e (.goto pc')) :
      BackfillMove engine start db (.range first last latest pc) e
        (.range first last latest pc') db
  | reorg {first last latest n : Nat} {pc : RangePc first last} {e : Event}
      (h : RangeStep (getBlockHash db) first last pc e (.reorg n)) :
      BackfillMove engine start db (.range first last latest pc) e (.rollback n) db
  | commit {first last latest : Nat} {p : RangePayload first last} (h : p.Committable) :
      BackfillMove engine start db (.range first last latest (.commit p)) .sql .head
        (commitFinalizedRange db p.transferRecords p.indexedBlocks first last).1
  | wake {latest : Nat} : BackfillMove engine start db (.sleep latest) .timer .head db

theorem backfillStep_cases {engine : BackfillEngine} {start : Nat} {db db' : Db}
    {pc pc' : BackfillPc} {e : Event}
    (h : backfillStep engine start db pc e = some (.goto pc' db')) :
    BackfillMove engine start db pc e pc' db' := by
  unfold backfillStep at h
  split at h
  · cases h; exact .resume
  · split at h
    · rename_i hlt; cases h; exact .head hlt
    · cases h
  · split at h
    · rename_i hle; cases h; exact .revalidate hle
    · rename_i hlt; cases h; exact .skip (by omega)
  · split at h
    · rename_i heq; subst heq; cases h; exact .fetched
    · cases h
  · split at h
    · rename_i heq
      split at h
      · rename_i hlt; cases h; exact .next heq hlt
      · rename_i hge; cases h; exact .clean heq (by omega)
    · rename_i hne; cases h; exact .mismatch hne
  · cases h; exact .rollback
  · split at h
    · rename_i hle
      split at h
      · rename_i hov; cases h; exact .planned hle hov rfl
      · cases h
    · rename_i hlt; cases h; exact .caughtUp (by omega)
  · simp only [Option.map_eq_some_iff] at h
    obtain ⟨m, hm, hg⟩ := h
    have hr := rangeStep_cases hm
    cases m with
    | goto pc₁ => cases hg; exact .range hr
    | reorg n => cases hg; exact .reorg hr
    | commit p =>
      cases hg
      cases hr with
      | commit hp => exact .commit hp
    | fail => cases hg
  · cases h; exact .wake
  · cases h

/-! ## `run_live` -/

/-- What `run_live` waits for: `prune`: `prune_hot_before_block`; `historyHead`:
the second `eth_blockNumber`, inside `reconcile_hot_history`; `historyRow`,
`history`: stored hash and metadata of block `n` of `..=last`; `plan`: the
checkpoint read; the rest as in `BackfillPc`. -/
inductive LivePc where
  | resume
  | head
  | prune (latest : Nat)
  | historyHead (latest : Nat)
  | historyRow (latest last n : Nat)
  | history (latest last n : Nat) (stored : Bytes)
  | rollback (n : Nat)
  | plan (latest : Nat)
  | range (first last latest : Nat) (pc : RangePc first last)
  | sleep (latest : Nat)

/-- The loop of `reconcile_hot_history` before block `n`. -/
def hotHistoryFrom (latest last n : Nat) : LivePc :=
  if n ≤ last then .historyRow latest last n else .plan latest

/-- mirrors crates/ingestion/src/lib.rs:129 -/
def nextHotBlock (engine : BackfillEngine) (start latest : Nat) (db : Db) : Nat :=
  max (saturatingAdd (getLiveCheckpoint db) 1) (engine.computeLiveStartBlock start latest)

/-- mirrors crates/ingestion/src/lib.rs:110-164 (the loop), :217-265
(`process_hot_range`) and :324-348 (`reconcile_hot_history`) -/
def liveStep (engine : BackfillEngine) (start : Nat) (db : Db) :
    LivePc → Event → Option (Move LivePc)
  | .resume, .sql => some (.goto .head db)
  | .head, .blockNumber latest =>
    if latest < 2 ^ 64 then some (.goto (.prune latest) db) else none
  | .prune latest, .sql =>
    some (.goto (.historyHead latest)
      (pruneHotBeforeBlock db (engine.computeLiveStartBlock start latest)))
  | .historyHead latest, .blockNumber last =>
    if last < 2 ^ 64 then
      some (.goto (hotHistoryFrom latest last
        (engine.hotValidationStart (engine.computeLiveStartBlock start latest) last)) db)
    else none
  | .historyRow latest last n, .sql =>
    match getHotBlockHash db n with
    | none => some (.goto (hotHistoryFrom latest last (n + 1)) db)
    | some stored => some (.goto (.history latest last n stored) db)
  | .history latest last n stored, .block m hash _ =>
    if m = n then
      if stored = hash.val then some (.goto (hotHistoryFrom latest last (n + 1)) db)
      else some (.goto (.rollback n) db)
    else none
  | .rollback n, .sql => some (.goto .head (rollbackHotFromBlock db n))
  | .plan latest, .sql =>
    if nextHotBlock engine start latest db ≤ latest then
      if nextHotBlock engine start latest db + BLOCK_BATCH_SIZE < 2 ^ 64 then
        let last := min (nextHotBlock engine start latest db + BLOCK_BATCH_SIZE - 1) latest
        some (.goto (.range (nextHotBlock engine start latest db) last latest
          (enterBlocks (nextHotBlock engine start latest db) last [])) db)
      else some .fail
    else some (.goto (.sleep latest) db)
  | .range first last latest pc, e =>
    (rangeStep (getHotBlockHash db) first last pc e).map fun
      | .goto pc' => .goto (.range first last latest pc') db
      | .reorg n => .goto (.rollback n) db
      | .commit p => .goto .head (commitHotRange db p.transferRecords p.indexedBlocks last).1
      | .fail => .fail
  | .sleep _, .timer => some (.goto .head db)
  | _, _ => none

inductive LiveMove (engine : BackfillEngine) (start : Nat) (db : Db) :
    LivePc → Event → LivePc → Db → Prop
  | resume : LiveMove engine start db .resume .sql .head db
  | head {latest : Nat} (h : latest < 2 ^ 64) :
      LiveMove engine start db .head (.blockNumber latest) (.prune latest) db
  | prune {latest : Nat} :
      LiveMove engine start db (.prune latest) .sql (.historyHead latest)
        (pruneHotBeforeBlock db (engine.computeLiveStartBlock start latest))
  | historyHead {latest last : Nat} (h : last < 2 ^ 64) :
      LiveMove engine start db (.historyHead latest) (.blockNumber last)
        (hotHistoryFrom latest last
          (engine.hotValidationStart (engine.computeLiveStartBlock start latest) last)) db
  | absent {latest last n : Nat} (h : getHotBlockHash db n = none) :
      LiveMove engine start db (.historyRow latest last n) .sql
        (hotHistoryFrom latest last (n + 1)) db
  | stored {latest last n : Nat} {stored : Bytes} (h : getHotBlockHash db n = some stored) :
      LiveMove engine start db (.historyRow latest last n) .sql (.history latest last n stored) db
  | agree {latest last n : Nat} {hash : B256} {timestamp : Nat} :
      LiveMove engine start db (.history latest last n hash.val) (.block n hash timestamp)
        (hotHistoryFrom latest last (n + 1)) db
  | mismatch {latest last n : Nat} {stored : Bytes} {hash : B256} {timestamp : Nat}
      (h : stored ≠ hash.val) :
      LiveMove engine start db (.history latest last n stored) (.block n hash timestamp)
        (.rollback n) db
  | rollback {n : Nat} :
      LiveMove engine start db (.rollback n) .sql .head (rollbackHotFromBlock db n)
  | planned {latest last : Nat} (h : nextHotBlock engine start latest db ≤ latest)
      (hov : nextHotBlock engine start latest db + BLOCK_BATCH_SIZE < 2 ^ 64)
      (hlast : last = min (nextHotBlock engine start latest db + BLOCK_BATCH_SIZE - 1) latest) :
      LiveMove engine start db (.plan latest) .sql
        (.range (nextHotBlock engine start latest db) last latest
          (enterBlocks (nextHotBlock engine start latest db) last [])) db
  | caughtUp {latest : Nat} (h : latest < nextHotBlock engine start latest db) :
      LiveMove engine start db (.plan latest) .sql (.sleep latest) db
  | range {first last latest : Nat} {pc pc' : RangePc first last} {e : Event}
      (h : RangeStep (getHotBlockHash db) first last pc e (.goto pc')) :
      LiveMove engine start db (.range first last latest pc) e (.range first last latest pc') db
  | reorg {first last latest n : Nat} {pc : RangePc first last} {e : Event}
      (h : RangeStep (getHotBlockHash db) first last pc e (.reorg n)) :
      LiveMove engine start db (.range first last latest pc) e (.rollback n) db
  | commit {first last latest : Nat} {p : RangePayload first last} (h : p.Committable) :
      LiveMove engine start db (.range first last latest (.commit p)) .sql .head
        (commitHotRange db p.transferRecords p.indexedBlocks last).1
  | wake {latest : Nat} : LiveMove engine start db (.sleep latest) .timer .head db

theorem liveStep_cases {engine : BackfillEngine} {start : Nat} {db db' : Db}
    {pc pc' : LivePc} {e : Event} (h : liveStep engine start db pc e = some (.goto pc' db')) :
    LiveMove engine start db pc e pc' db' := by
  unfold liveStep at h
  split at h
  · cases h; exact .resume
  · split at h
    · rename_i hlt; cases h; exact .head hlt
    · cases h
  · cases h; exact .prune
  · split at h
    · rename_i hlt; cases h; exact .historyHead hlt
    · cases h
  · split at h
    · rename_i hn; cases h; exact .absent hn
    · rename_i stored hs; cases h; exact .stored hs
  · split at h
    · rename_i heq
      subst heq
      split at h
      · rename_i hs; subst hs; cases h; exact .agree
      · rename_i hne; cases h; exact .mismatch hne
    · cases h
  · cases h; exact .rollback
  · split at h
    · rename_i hle
      split at h
      · rename_i hov; cases h; exact .planned hle hov rfl
      · cases h
    · rename_i hlt; cases h; exact .caughtUp (by omega)
  · simp only [Option.map_eq_some_iff] at h
    obtain ⟨m, hm, hg⟩ := h
    have hr := rangeStep_cases hm
    cases m with
    | goto pc₁ => cases hg; exact .range hr
    | reorg n => cases hg; exact .reorg hr
    | commit p =>
      cases hg
      cases hr with
      | commit hp => exact .commit hp
    | fail => cases hg
  · cases h; exact .wake
  · cases h

end EthIndexer.L3
