import EthIndexer.L3Engine.Answers

/-!
# One iteration of `run_backfill` on a fixed chain

`iterate` is the body of the loop of `run_backfill` with every RPC call answered
by one chain and no call failing: it reconciles, and then either rolls back,
commits the next range or is caught up; it fails where an addition overflows or the
batch cannot be committed. `Iteration` lists the outcomes with their conditions.

`iterate_run` connects it to the small-step worker: the iteration is the run of
the backfill worker from `head` to `head` (or `sleep`) on the answers of the
chain. `reconcile_commit` is what a commit does to the next reconcile.
-/
namespace EthIndexer.L3
open EthIndexer.L1 EthIndexer.L2

inductive Outcome where
  | rolledBack (n : Nat)
  | committed (first last : Nat)
  | caughtUp
  | failed
  deriving DecidableEq

/-- The first block of the window that the chain does not have, or whose stored
hash is not the chain's.
mirrors crates/ingestion/src/lib.rs:285-322 -/
def reconcile (engine : BackfillEngine) (start : Nat) (C : Chain) (db : Db) : Option Nat :=
  if start ≤ getCheckpoint db then
    (rangeIncl (engine.validationStart start (getCheckpoint db)) (getCheckpoint db)).find? fun n =>
      decide (C.height < n ∨ getBlockHash db n ≠ some (C.hash n).val)
  else none

/-- The metadata of `first..=last` on the chain. -/
def fetched (C : Chain) (first last : Nat) : Fetched first last :=
  ⟨(rangeIncl first last).map C.metadata, by
    rw [List.map_map]; exact List.map_id _⟩

/-- The first block of the payload that the lane stores under another hash. -/
def firstReorg {first last : Nat} (db : Db) (p : RangePayload first last) : Option (Nat × Bytes) :=
  p.indexedBlocks.find? fun b =>
    match getBlockHash db b.1 with
    | some existing => decide (existing ≠ b.2)
    | none => false

/-- mirrors crates/ingestion/src/lib.rs:166-215 -/
def processFinalizedRange (engine : BackfillEngine) (C : Chain) (db : Db) (first last : Nat) :
    Outcome × Db :=
  match buildRangePayload (fetched C first last) (C.getLogs engine.contractFilter first last) with
  | .error _ => (.failed, db)
  | .ok p =>
    match firstReorg db p with
    | some b => (.rolledBack b.1, rollbackFromBlock db b.1)
    | none =>
      if p.Committable then
        (.committed first last,
          (commitFinalizedRange db p.transferRecords p.indexedBlocks first last).1)
      else (.failed, db)

/-- The last block of the next batch.
mirrors crates/ingestion/src/lib.rs:75-76 -/
def batchEnd (engine : BackfillEngine) (start : Nat) (C : Chain) (db : Db) : Nat :=
  min (nextFinalizedBlock start db + BLOCK_BATCH_SIZE - 1) (engine.safeHead C.height)

/-- mirrors crates/ingestion/src/lib.rs:56-106 -/
def iterate (engine : BackfillEngine) (start : Nat) (C : Chain) (db : Db) : Outcome × Db :=
  match reconcile engine start C db with
  | some n => if n ≤ C.height then (.rolledBack n, rollbackFromBlock db n) else (.failed, db)
  | none =>
    if nextFinalizedBlock start db ≤ engine.safeHead C.height then
      if nextFinalizedBlock start db + BLOCK_BATCH_SIZE < 2 ^ 64 then
        processFinalizedRange engine C db (nextFinalizedBlock start db)
          (batchEnd engine start C db)
      else (.failed, db)
    else (.caughtUp, db)

/-- The database before iteration `k`. -/
def iterates (engine : BackfillEngine) (start : Nat) (C : Chain) (db : Db) : Nat → Db
  | 0 => db
  | k + 1 => (iterate engine start C (iterates engine start C db k)).2

/-- The outcome of iteration `k`. -/
def outcome (engine : BackfillEngine) (start : Nat) (C : Chain) (db : Db) (k : Nat) : Outcome :=
  (iterate engine start C (iterates engine start C db k)).1

section
variable {engine : BackfillEngine} {start : Nat} {C : Chain} {db : Db}

theorem iterates_add (k j : Nat) : iterates engine start C db (k + j) =
    iterates engine start C (iterates engine start C db k) j := by
  induction j with
  | zero => rfl
  | succ j ih =>
    show (iterate engine start C (iterates engine start C db (k + j))).2 = _
    rw [ih]
    rfl

theorem iterates_succ (k : Nat) : iterates engine start C db (k + 1) =
    iterates engine start C (iterate engine start C db).2 k := by
  rw [Nat.add_comm, iterates_add]
  rfl

theorem outcome_add (k j : Nat) : outcome engine start C db (k + j) =
    outcome engine start C (iterates engine start C db k) j := by
  simp only [outcome, iterates_add]

/-! ## The outcomes -/

theorem reconcile_eq_some {n : Nat} (h : reconcile engine start C db = some n) :
    start ≤ n ∧ n ≤ getCheckpoint db ∧
      (C.height < n ∨ getBlockHash db n ≠ some (C.hash n).val) := by
  unfold reconcile at h
  split at h
  · have hm := mem_rangeIncl.mp (List.mem_of_find?_eq_some h)
    have hle := engine.le_validationStart start (getCheckpoint db)
    exact ⟨by omega, hm.2, by simpa using List.find?_some h⟩
  · cases h

theorem reconcile_eq_none : reconcile engine start C db = none ↔
    ∀ n, engine.validationStart start (getCheckpoint db) ≤ n → n ≤ getCheckpoint db →
      n ≤ C.height ∧ getBlockHash db n = some (C.hash n).val := by
  have hle := engine.le_validationStart start (getCheckpoint db)
  unfold reconcile
  split
  · simp only [List.find?_eq_none, mem_rangeIncl, decide_eq_true_eq, not_or, Nat.not_lt, ne_eq,
      Decidable.not_not, and_imp]
  · refine ⟨fun _ n hn hc => by omega, fun _ => rfl⟩

theorem iterate_reorg {n : Nat} (h : reconcile engine start C db = some n) (hn : n ≤ C.height) :
    iterate engine start C db = (.rolledBack n, rollbackFromBlock db n) := by
  unfold iterate
  rw [h]
  exact if_pos hn

/-- What an iteration can do. -/
inductive Iteration (engine : BackfillEngine) (start : Nat) (C : Chain) (db : Db) :
    Outcome → Db → Prop
  | reorg {n : Nat} (h : reconcile engine start C db = some n) (hn : n ≤ C.height) :
      Iteration engine start C db (.rolledBack n) (rollbackFromBlock db n)
  | missing {n : Nat} (h : reconcile engine start C db = some n) (hn : C.height < n) :
      Iteration engine start C db .failed db
  | caughtUp (h : reconcile engine start C db = none)
      (hs : engine.safeHead C.height < nextFinalizedBlock start db) :
      Iteration engine start C db .caughtUp db
  | overflow (h : reconcile engine start C db = none)
      (hs : nextFinalizedBlock start db ≤ engine.safeHead C.height)
      (hov : 2 ^ 64 ≤ nextFinalizedBlock start db + BLOCK_BATCH_SIZE) :
      Iteration engine start C db .failed db
  | mismatch {n : Nat} {existing : Bytes} (h : reconcile engine start C db = none)
      (hov : nextFinalizedBlock start db + BLOCK_BATCH_SIZE < 2 ^ 64)
      (hn : nextFinalizedBlock start db ≤ n ∧ n ≤ batchEnd engine start C db)
      (hs : getBlockHash db n = some existing) (hne : existing ≠ (C.hash n).val) :
      Iteration engine start C db (.rolledBack n) (rollbackFromBlock db n)
  | commit (p : RangePayload (nextFinalizedBlock start db) (batchEnd engine start C db))
      (h : reconcile engine start C db = none)
      (hs : nextFinalizedBlock start db ≤ engine.safeHead C.height)
      (hov : nextFinalizedBlock start db + BLOCK_BATCH_SIZE < 2 ^ 64)
      (hp : RangeOn C engine.contractFilter (.commit p)) (hc : p.Committable) :
      Iteration engine start C db
        (.committed (nextFinalizedBlock start db) (batchEnd engine start C db))
        (commitFinalizedRange db p.transferRecords p.indexedBlocks
          (nextFinalizedBlock start db) (batchEnd engine start C db)).1
  | refused (p : RangePayload (nextFinalizedBlock start db) (batchEnd engine start C db))
      (h : reconcile engine start C db = none)
      (hs : nextFinalizedBlock start db ≤ engine.safeHead C.height)
      (hp : RangeOn C engine.contractFilter (.commit p)) (hc : ¬ p.Committable) :
      Iteration engine start C db .failed db

/-- Every log of the chain has the fields the loop reads. -/
theorem complete_getLogs {filter : Option Bytes} {first last : Nat} :
    ∀ log ∈ C.getLogs filter first last, Complete (fetched C first last).val log := by
  intro log hlog
  obtain ⟨n, hn, hl⟩ := Chain.mem_getLogs.mp hlog
  obtain ⟨hb, -, ht, hi⟩ := C.logs_mined n log (Chain.mem_transferLogs hl)
  refine ⟨by rw [hb]; rfl, fun hd => ?_⟩
  obtain ⟨event, hd⟩ := Option.isSome_iff_exists.mp hd
  obtain ⟨txnHash, ht⟩ := Option.isSome_iff_exists.mp ht
  obtain ⟨logIndex, hi⟩ := Option.isSome_iff_exists.mp hi
  have hr : recordAt (fetched C first last).val log = _ := recordAt_eq_some.mpr
    ⟨event, n, txnHash, logIndex, C.metadata n, hd, hb, ht, hi, lookupBlock_metadata hn, rfl⟩
  rw [hr]
  rfl

theorem iterate_cases : Iteration engine start C db (iterate engine start C db).1
    (iterate engine start C db).2 := by
  unfold iterate
  split
  · rename_i n h
    split
    · rename_i hn; exact .reorg h hn
    · rename_i hn; exact .missing h (by omega)
  · rename_i h
    split
    · rename_i hs
      split
      · rename_i hov
        unfold processFinalizedRange
        obtain ⟨p, hp⟩ := buildRangePayload_of_complete
          (fetched C (nextFinalizedBlock start db) (batchEnd engine start C db))
          (fun log => @complete_getLogs C engine.contractFilter _ _ log)
        have hon : RangeOn C engine.contractFilter (.commit p) :=
          rangeOn_payload rfl (List.Perm.refl _) hp
        simp only [hp]
        split
        · rename_i b hb
          obtain ⟨n, hash⟩ := b
          have hmem := List.mem_of_find?_eq_some hb
          have hne := List.find?_some hb
          rw [hon.2] at hmem
          obtain ⟨hn, hh⟩ := Chain.mem_blocks.mp hmem
          split at hne
          · rename_i existing hstored
            exact .mismatch h hov hn hstored (by simpa [hh] using hne)
          · cases hne
        · split
          · rename_i hc; exact .commit p h hs hov hon hc
          · rename_i hc; exact .refused p h hs hon hc
      · rename_i hov; exact .overflow h hs (by omega)
    · rename_i hs; exact .caughtUp h (by omega)

/-! ## Reconciling after a commit -/

theorem batchEnd_le : batchEnd engine start C db ≤ engine.safeHead C.height := Nat.min_le_right _ _

theorem le_batchEnd (hs : nextFinalizedBlock start db ≤ engine.safeHead C.height) :
    nextFinalizedBlock start db ≤ batchEnd engine start C db := by
  simp only [batchEnd, BLOCK_BATCH_SIZE]
  omega

theorem getCheckpoint_commit {first last : Nat} (p : RangePayload first last)
    (h : last < 2 ^ 64) :
    getCheckpoint (commitFinalizedRange db p.transferRecords p.indexedBlocks first last).1 = last :=
  asU64_asI64 h

/-- The stored hash of a block after a payload of the chain is committed. -/
theorem getBlockHash_commit {first last n : Nat} (p : RangePayload first last)
    (hp : p.indexedBlocks = Chain.blocks C first last) (hl : last < 2 ^ 64) (hn : n < 2 ^ 64) :
    getBlockHash (commitFinalizedRange db p.transferRecords p.indexedBlocks first last).1 n =
      if first ≤ n ∧ n ≤ last then some (C.hash n).val else getBlockHash db n := by
  refine Option.ext fun hash => ?_
  have hins : getBlockHash (commitFinalizedRange db p.transferRecords p.indexedBlocks first last).1 n =
      some hash ↔ _ := p.getBlockHash_insertRange hl hn
  rw [hins, hp, Chain.mem_blocks]
  by_cases hr : first ≤ n ∧ n ≤ last
  · rw [if_pos hr, Option.some.injEq]
    refine ⟨fun h => ?_, fun h => .inl ⟨hr, h.symm⟩⟩
    rcases h with ⟨-, h⟩ | ⟨h, -⟩
    · exact h.symm
    · exact absurd hr h
  · rw [if_neg hr]
    refine ⟨fun h => ?_, fun h => .inr ⟨hr, h⟩⟩
    rcases h with ⟨h, -⟩ | ⟨-, h⟩
    · exact absurd h hr
    · exact h

/-- **A commit keeps the reconcile clean**: the window moves up by less than the
blocks that were committed above it. -/
theorem reconcile_commit (hC : C.height < 2 ^ 64) (h : reconcile engine start C db = none)
    (hs : nextFinalizedBlock start db ≤ engine.safeHead C.height)
    (hov : nextFinalizedBlock start db + BLOCK_BATCH_SIZE < 2 ^ 64)
    (p : RangePayload (nextFinalizedBlock start db) (batchEnd engine start C db))
    (hp : p.indexedBlocks = Chain.blocks C (nextFinalizedBlock start db) (batchEnd engine start C db)) :
    reconcile engine start C (commitFinalizedRange db p.transferRecords p.indexedBlocks
      (nextFinalizedBlock start db) (batchEnd engine start C db)).1 = none := by
  have hle := le_batchEnd hs
  have hsafe : batchEnd engine start C db ≤ C.height :=
    Nat.le_trans batchEnd_le (Nat.sub_le _ _)
  have hnext := nextFinalizedBlock_of_room hov
  rw [reconcile_eq_none] at h ⊢
  rw [getCheckpoint_commit p (by omega)]
  intro n hn hnc
  refine ⟨by omega, ?_⟩
  rw [getBlockHash_commit p hp (by omega) (by omega)]
  split
  · rfl
  · rename_i hr
    have hv := engine.le_validationStart start (batchEnd engine start C db)
    refine (h n ?_ (by omega)).2
    simp only [BackfillEngine.validationStart] at hn ⊢
    omega

end
end EthIndexer.L3
