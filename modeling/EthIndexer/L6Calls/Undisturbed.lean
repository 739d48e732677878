import EthIndexer.L6Calls.Loops

/-!
# `run_backfill` where no call fails

The loop of `L3Engine.Iterate` is the program `run_backfill` with every call
answered, and answered by one chain. `backfillIteration_ends`: an iteration of the
program ends with the database of `L3.iterate`, and it fails exactly where the
outcome of `L3.iterate` is `failed`.

`runBackfill_ends`: a process of `k` iterations leaves `L3.iterates` after `k`, and
succeeds exactly where none of their outcomes is `failed`. What is proved of
`iterates` and `outcome` is so proved of the calls.
-/
namespace EthIndexer.L6
open EthIndexer.L1 EthIndexer.L2 EthIndexer.L3

/-- Every request is answered by the chain. -/
def Provider.ofChain (C : Chain) : Provider where
  head := .ok (.ofNat C.height)
  historyHead := .ok (.ofNat C.height)
  history := .ofChain C
  range := .ofChain C

/-! ## An iteration -/

section
variable {engine : BackfillEngine} {start : Nat} {C : Chain}

theorem toOption_fetchBlockMetadata (C : Chain) (n : Nat) :
    ((RpcClient.ofChain C).fetchBlockMetadata n).toOption =
      if n ≤ C.height then some (C.metadata n) else none := by
  have h : (RpcClient.ofChain C).getBlockByNumber n =
    .ok (if n ≤ C.height then some (C.hash n, C.timestamp n) else none) := rfl
  unfold RpcClient.fetchBlockMetadata RpcClient.getBlockMetadata
  rw [h]
  split <;> rfl

/-- The end of the pass over `blocks`: at the first block that the chain does not
have, with an error, or that it has with another hash. -/
def passEnd (C : Chain) (blocks : List Nat) (db : Db) : Option Bool × Db :=
  (blocks.find? fun n => decide (C.height < n ∨ getBlockHash db n ≠ some (C.hash n).val)).elim
    (some false, db)
    fun n => if n ≤ C.height then (some true, L2.rollbackFromBlock db n) else (none, db)

theorem passEnd_cons (n : Nat) (rest : List Nat) (db : Db) : passEnd C (n :: rest) db =
    if n ≤ C.height then
      if getBlockHash db n = some (C.hash n).val then passEnd C rest db
      else (some true, L2.rollbackFromBlock db n)
    else (none, db) := by
  unfold passEnd
  rw [List.find?_cons]
  by_cases hn : n ≤ C.height
  · by_cases hs : getBlockHash db n = some (C.hash n).val
    · simp [hn, hs, Nat.not_lt.mpr hn]
    · simp [hn, hs]
  · simp [hn, Nat.lt_of_not_le hn]

theorem reconcileFinalizedBlocks_ends (blocks : List Nat) :
    (reconcileFinalizedBlocks (.ofChain C) blocks).Ends (passEnd C blocks) := by
  induction blocks with
  | nil => exact .pure false
  | cons n rest ih =>
    have hback : Program.Ends (do rollbackFromBlock n; pure true : Calls Bool) fun db =>
        (some true, L2.rollbackFromBlock db n) :=
      (rollbackFromBlock_ends n).bind fun _ => .pure true
    refine Program.Ends.congr ((answer_ends _).bind fun m => (Program.Ends.select _ _).bind
      (g := fun stored db => if stored = some m.hash then passEnd C rest db
        else (some true, L2.rollbackFromBlock db n)) fun stored => ?_) fun db => ?_
    · cases stored with
      | none => simpa using hback
      | some hash =>
        by_cases he : hash = m.hash
        · simpa [he] using ih
        · simpa [he] using hback
    · rw [toOption_fetchBlockMetadata, passEnd_cons]
      split <;> rfl

theorem reconciledFinalized_ends (checkpoint : Nat) :
    (reconciledFinalized engine (.ofChain C) start checkpoint).Ends fun db =>
      if start ≤ checkpoint then
        passEnd C (rangeIncl (engine.validationStart start checkpoint) checkpoint) db
      else (some false, db) := by
  unfold reconciledFinalized
  split
  · exact reconcileFinalizedBlocks_ends _
  · exact .pure false

/-- The end of the part after the pass. -/
def rangeEnd (engine : BackfillEngine) (start : Nat) (C : Chain) (db : Db) : Outcome × Db :=
  if nextFinalizedBlock start db ≤ engine.safeHead C.height then
    if nextFinalizedBlock start db + BLOCK_BATCH_SIZE < 2 ^ 64 then
      L3.processFinalizedRange engine C db (nextFinalizedBlock start db) (batchEnd engine start C db)
    else (.failed, db)
  else (.caughtUp, db)

theorem finalizeNextRange_ends :
    (finalizeNextRange engine start (.ofChain C) C.height).Ends fun db =>
      (result (rangeEnd engine start C db).1, (rangeEnd engine start C db).2) := by
  have hrange : ∀ next : Nat, Program.Ends
      (if next ≤ engine.safeHead C.height then
        if next + BLOCK_BATCH_SIZE < 2 ^ 64 then
          processFinalizedRange engine (.ofChain C) next
            (min (next + BLOCK_BATCH_SIZE - 1) (engine.safeHead C.height))
        else .ofExcept (.error .panic)
      else pure () : Calls Unit) fun db =>
      if next ≤ engine.safeHead C.height then
        if next + BLOCK_BATCH_SIZE < 2 ^ 64 then
          (result (L3.processFinalizedRange engine C db next
            (min (next + BLOCK_BATCH_SIZE - 1) (engine.safeHead C.height))).1,
          (L3.processFinalizedRange engine C db next
            (min (next + BLOCK_BATCH_SIZE - 1) (engine.safeHead C.height))).2)
        else (none, db)
      else (some (), db) := by
    intro next
    split
    · split
      · exact processFinalizedRange_ends
          (Nat.le_trans (Nat.min_le_right _ _) (Nat.sub_le C.height _))
      · exact .ofExcept _
    · exact .pure ()
  refine ((Program.Ends.select _ _).bind fun checkpoint =>
    hrange (max (saturatingAdd checkpoint 1) start)).congr fun db => ?_
  have hnext : max (saturatingAdd (L2.getCheckpoint db) 1) start = nextFinalizedBlock start db := rfl
  simp only [Option.elim_some, hnext, rangeEnd, batchEnd]
  split
  · split <;> rfl
  · rfl

theorem iterate_eq (db : Db) : iterate engine start C db =
    (reconcile engine start C db).elim (rangeEnd engine start C db) fun n =>
      if n ≤ C.height then (.rolledBack n, L2.rollbackFromBlock db n) else (.failed, db) := by
  unfold iterate
  cases reconcile engine start C db <;> rfl

theorem passEnd_window (db : Db) :
    (if start ≤ L2.getCheckpoint db then
      passEnd C (rangeIncl (engine.validationStart start (L2.getCheckpoint db))
        (L2.getCheckpoint db)) db
    else (some false, db)) =
      (reconcile engine start C db).elim (some false, db) fun n =>
        if n ≤ C.height then (some true, L2.rollbackFromBlock db n) else (none, db) := by
  unfold reconcile
  split <;> rfl

/-- **An iteration of the program** ends as `L3.iterate` says. -/
theorem backfillIteration_ends (hC : C.height < 2 ^ 64) :
    (backfillIteration engine start (.ofChain C)).Ends fun db =>
      (result (iterate engine start C db).1, (iterate engine start C db).2) := by
  have hrest : ∀ reconciled : Bool, Program.Ends
      (if reconciled then pure ()
        else finalizeNextRange engine start (.ofChain C) C.height : Calls Unit) fun db =>
      if reconciled then (some (), db)
      else (result (rangeEnd engine start C db).1, (rangeEnd engine start C db).2) := by
    intro reconciled
    cases reconciled with
    | true => exact .pure ()
    | false => exact finalizeNextRange_ends
  have hhead : (UInt64.ofNat C.height).toNat = C.height := UInt64.toNat_ofNat_of_lt' hC
  have hanswer : (Provider.ofChain C).head = .ok (.ofNat C.height) := rfl
  unfold backfillIteration
  rw [hanswer, answer_ok_bind, hhead]
  refine Program.Ends.congr ((Program.Ends.select _ _).bind fun checkpoint =>
    (reconciledFinalized_ends checkpoint).bind hrest) fun db => ?_
  simp only [Option.elim_some, passEnd_window, iterate_eq]
  cases reconcile engine start C db with
  | none => rfl
  | some n =>
    simp only [Option.elim_some]
    split <;> rfl

/-! ## A process -/

theorem result_eq_none {o : Outcome} : result o = none ↔ o = .failed := by
  cases o <;> simp [result]

/-- A failed iteration has no effect. -/
theorem iterate_failed {db : Db} (h : (iterate engine start C db).1 = .failed) :
    (iterate engine start C db).2 = db := by
  have hc : Iteration engine start C db _ _ := iterate_cases
  rw [h] at hc
  generalize (iterate engine start C db).2 = db' at hc
  cases hc <;> rfl

theorem iterates_of_failed {db : Db} (h : (iterate engine start C db).1 = .failed) (k : Nat) :
    iterates engine start C db k = db := by
  induction k with
  | zero => rfl
  | succ k ih =>
    show (iterate engine start C (iterates engine start C db k)).2 = db
    rw [ih, iterate_failed h]

/-- The iterations succeed exactly where no outcome is `failed`, and leave the
database of `iterates`. -/
theorem backfillLoop_ends (hC : C.height < 2 ^ 64) (k : Nat) :
    (backfillLoop engine start (List.replicate k (.ofChain C))).Ends fun db =>
      (if ∀ j < k, outcome engine start C db j ≠ .failed then some () else none,
        iterates engine start C db k) := by
  induction k with
  | zero => exact (Program.Ends.pure ()).congr fun db => by simp [iterates]
  | succ k ih =>
    rw [List.replicate_succ]
    refine ((backfillIteration_ends hC).bind fun _ => ih).congr fun db => ?_
    have hfirst : (iterate engine start C db).1 = outcome engine start C db 0 := rfl
    have hall : (∀ j < k + 1, outcome engine start C db j ≠ .failed) ↔
        outcome engine start C db 0 ≠ .failed ∧
          ∀ j < k, outcome engine start C (iterate engine start C db).2 j ≠ .failed := by
      have hsucc : ∀ j, outcome engine start C db (j + 1) =
          outcome engine start C (iterate engine start C db).2 j := fun j => by
        rw [Nat.add_comm, outcome_add]
        rfl
      rw [Nat.forall_lt_succ_left]
      simp only [hsucc]
    by_cases hf : (iterate engine start C db).1 = .failed
    · have hnot : ¬ ∀ j < k + 1, outcome engine start C db j ≠ .failed :=
        fun h => h 0 (Nat.succ_pos k) hf
      rw [if_neg hnot, iterates_of_failed hf, result_eq_none.mpr hf, iterate_failed hf]
      rfl
    · have hs : result (iterate engine start C db).1 = some () :=
        Option.ne_none_iff_exists'.mp (mt result_eq_none.mp hf) |>.elim fun _ h => h
      rw [hs, iterates_succ, Option.elim_some]
      simp only [hall, ← hfirst, ne_eq, hf, not_false_eq_true, true_and]

/-- **A process of `k` iterations.** -/
theorem runBackfill_ends (engine : BackfillEngine) (start : Nat) (C : Chain)
    (hC : C.height < 2 ^ 64) (k : Nat) :
    (runBackfill engine start (List.replicate k (.ofChain C))).Ends fun db =>
      (if ∀ j < k, outcome engine start C db j ≠ .failed then some () else none,
        iterates engine start C db k) :=
  (Program.Ends.select _ _).bind fun _ => backfillLoop_ends hC k

end
end EthIndexer.L6
