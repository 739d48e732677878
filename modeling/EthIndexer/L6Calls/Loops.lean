import EthIndexer.Core.Walks
import EthIndexer.L3Engine.Fetch
import EthIndexer.L3Engine.System
import EthIndexer.L6Calls.ProcessRange

/-!
# `run_backfill` and `run_live`, call by call

The two loops as programs: every RPC request, every `SELECT` and every statement
in the order the code makes them, an error of any of them ending the process.
A `Provider` is what an iteration is answered; the loop runs for a list of
iterations, of any length.

`RangeWorker` is what the two workers share inside a range: `RangeWorker.processRange`
takes `process_*_range` to the steps of the range.
-/
namespace EthIndexer.L6
open EthIndexer.L1 EthIndexer.L2 EthIndexer.L3

/-- The answers of one iteration. The provider may change between any two of its
requests; within `history` and within `range`, no request is made twice. -/
structure Provider where
  /-- `get_latest_block_number` at the top of the loop -/
  head : Except String UInt64
  /-- and the one inside `reconcile_hot_history` -/
  historyHead : Except String UInt64
  history : RpcClient
  range : RpcClient

/-- mirrors crates/storage/src/lib.rs:31-41 -/
def Pool.getCheckpoint : Calls Nat :=
  Program.select (.new "SELECT last_processed_block
         FROM indexer_checkpoint
         WHERE id = 1") L2.getCheckpoint

/-- mirrors crates/storage/src/lib.rs:43-53 -/
def Pool.getLiveCheckpoint : Calls Nat :=
  Program.select (.new "SELECT last_processed_block
         FROM live_indexer_checkpoint
         WHERE id = 1") L2.getLiveCheckpoint

/-! ## `run_backfill` -/

/-- The loop of `reconcile_finalized_history`; `true` when it ends with a rollback. -/
def reconcileFinalizedBlocks (rpc : RpcClient) : List Nat → Calls Bool
  | [] => pure false
  | n :: rest => do
    let chainBlock ← answer (rpc.fetchBlockMetadata n)
    match ← getBlockHashFromTable .cold n with
    | some stored =>
      if stored ≠ chainBlock.hash then do
        rollbackFromBlock n
        pure true
      else reconcileFinalizedBlocks rpc rest
    | none => do
      rollbackFromBlock n
      pure true

/-- mirrors crates/ingestion/src/lib.rs:285-322 -/
def reconcileFinalizedHistory (engine : BackfillEngine) (rpc : RpcClient)
    (start checkpoint : Nat) : Calls Bool :=
  reconcileFinalizedBlocks rpc (rangeIncl (engine.validationStart start checkpoint) checkpoint)

/-- Whether the iteration ends with a rollback.
mirrors crates/ingestion/src/lib.rs:63-69 -/
def reconciledFinalized (engine : BackfillEngine) (rpc : RpcClient) (start checkpoint : Nat) :
    Calls Bool :=
  if start ≤ checkpoint then reconcileFinalizedHistory engine rpc start checkpoint else pure false

/-- mirrors crates/ingestion/src/lib.rs:71-106 -/
def finalizeNextRange (engine : BackfillEngine) (start : Nat) (p : Provider) (latest : Nat) :
    Calls Unit := do
  let checkpoint ← Pool.getCheckpoint
  let next := max (saturatingAdd checkpoint 1) start
  if next ≤ engine.safeHead latest then
    -- `next_finalized_block + BLOCK_BATCH_SIZE - 1` is unchecked `u64` arithmetic
    if next + BLOCK_BATCH_SIZE < 2 ^ 64 then
      processFinalizedRange engine p.range next
        (min (next + BLOCK_BATCH_SIZE - 1) (engine.safeHead latest))
    else .ofExcept (.error .panic)
  else pure ()

/-- mirrors crates/ingestion/src/lib.rs:56-106 -/
def backfillIteration (engine : BackfillEngine) (start : Nat) (p : Provider) : Calls Unit := do
  let latest ← answer p.head
  let checkpoint ← Pool.getCheckpoint
  let reconciled ← reconciledFinalized engine p.history start checkpoint
  if reconciled then pure () else finalizeNextRange engine start p latest.toNat

def backfillLoop (engine : BackfillEngine) (start : Nat) : List Provider → Calls Unit
  | [] => pure ()
  | p :: ps => do
    backfillIteration engine start p
    backfillLoop engine start ps

/-- mirrors crates/ingestion/src/lib.rs:48-108 -/
def runBackfill (engine : BackfillEngine) (start : Nat) (ps : List Provider) : Calls Unit := do
  let _ ← Pool.getCheckpoint
  backfillLoop engine start ps

/-! ## `run_live` -/

/-- The loop of `reconcile_hot_history`. -/
def reconcileHotBlocks (rpc : RpcClient) : List Nat → Calls Bool
  | [] => pure false
  | n :: rest => do
    match ← getBlockHashFromTable .hot n with
    | none => reconcileHotBlocks rpc rest
    | some stored => do
      let chainBlock ← answer (rpc.fetchBlockMetadata n)
      if stored ≠ chainBlock.hash then do
        rollbackHotFromBlock n
        pure true
      else reconcileHotBlocks rpc rest

/-- mirrors crates/ingestion/src/lib.rs:324-348 -/
def reconcileHotHistory (engine : BackfillEngine) (p : Provider) (start : Nat) : Calls Bool := do
  let latest ← answer p.historyHead
  reconcileHotBlocks p.history
    (rangeIncl (engine.hotValidationStart start latest.toNat) latest.toNat)

/-- mirrors crates/ingestion/src/lib.rs:128-162 -/
def indexNextRange (engine : BackfillEngine) (liveStart : Nat) (p : Provider) (latest : Nat) :
    Calls Unit := do
  let checkpoint ← Pool.getLiveCheckpoint
  let next := max (saturatingAdd checkpoint 1) liveStart
  if next ≤ latest then
    if next + BLOCK_BATCH_SIZE < 2 ^ 64 then
      processHotRange engine p.range next (min (next + BLOCK_BATCH_SIZE - 1) latest)
    else .ofExcept (.error .panic)
  else pure ()

/-- mirrors crates/ingestion/src/lib.rs:118-162 -/
def liveIteration (engine : BackfillEngine) (start : Nat) (p : Provider) : Calls Unit := do
  let latest ← answer p.head
  let liveStart := engine.computeLiveStartBlock start latest.toNat
  pruneHotBeforeBlock liveStart
  let reconciled ← reconcileHotHistory engine p liveStart
  if reconciled then pure () else indexNextRange engine liveStart p latest.toNat

def liveLoop (engine : BackfillEngine) (start : Nat) : List Provider → Calls Unit
  | [] => pure ()
  | p :: ps => do
    liveIteration engine start p
    liveLoop engine start ps

/-- mirrors crates/ingestion/src/lib.rs:110-164 -/
def runLive (engine : BackfillEngine) (start : Nat) (ps : List Provider) : Calls Unit := do
  let _ ← Pool.getLiveCheckpoint
  liveLoop engine start ps

/-! ## The events of a history -/

/-- What the iterations are answered, besides statements and the end of a sleep. -/
inductive Offered (filter : Option Bytes) (ps : List Provider) : Event → Prop
  | sql : Offered filter ps .sql
  | timer : Offered filter ps .timer
  | head {p : Provider} {n : UInt64} (hp : p ∈ ps) (h : p.head = .ok n ∨ p.historyHead = .ok n) :
      Offered filter ps (.blockNumber n.toNat)
  | block {p : Provider} {n : Nat} {hash : B256} {timestamp : Nat} (hp : p ∈ ps)
      (h : p.history.Finds n hash timestamp ∨ p.range.Finds n hash timestamp) :
      Offered filter ps (.block n hash timestamp)
  | logs {p : Provider} {first last : Nat} {ls : List Log} (hp : p ∈ ps)
      (h : p.range.fetchErc20TransferLogs first last filter = .ok ls) :
      Offered filter ps (.logs first last ls)

/-- The labels of one worker whose events satisfy `E`. -/
def Given (worker : Event → Label) (E : Event → Prop) (l : Label) : Prop :=
  ∃ e, l = worker e ∧ E e

/-! ## A range -/

open Program (Gets Walks)

/-- A worker of `M` inside a range: where it is `here`, it takes the steps of the
range on its lane, and a block that differs puts it at `back`. -/
structure RangeWorker (M : LTS Sys Label) (lane : LaneName) {first last : Nat} (E : Event → Prop)
    (here : RangePc first last → Sys → Prop) (back : Nat → Sys → Prop) : Prop where
  goto : ∀ pc e pc' s, here pc s → E e →
    rangeStep (lane.get s.db).getBlockHash first last pc e = some (.goto pc') →
    Gets M Sys.db s s.db (here pc')
  reorg : ∀ pc e n s, here pc s → E e →
    rangeStep (lane.get s.db).getBlockHash first last pc e = some (.reorg n) →
    Gets M Sys.db s s.db (back n)

theorem walks_answer {α : Type} {M : LTS Sys Label} {P : Sys → Prop} {x : Except String α}
    {T : α → Sys → Prop} (h : ∀ a, x = .ok a → ∀ s, P s → Gets M Sys.db s s.db (T a)) :
    Walks M Sys.db P (answer x) T :=
  .ofExcept fun a ha => h a (answer_ok.mp ha)

section
variable {M : LTS Sys Label} {lane : LaneName} {first last : Nat} {E : Event → Prop}
  {here : RangePc first last → Sys → Prop} {back : Nat → Sys → Prop} {home : Sys → Prop}
  {engine : BackfillEngine} {rpc : RpcClient}

/-- The metadata requests, in any order. -/
theorem RangeWorker.blocks (h : RangeWorker M lane E here back)
    (hE : ∀ n hash timestamp, rpc.Finds n hash timestamp → E (.block n hash timestamp))
    {pc pc' : RangePc first last} {es : List Event}
    (hr : (fetching rpc first last).Run pc es pc') {s : Sys} (hs : here pc s) :
    Gets M Sys.db s s.db (here pc') := by
  induction hr generalizing s with
  | nil => exact .here hs
  | cons hstep _ ih =>
    obtain ⟨⟨n, hash, timestamp, rfl, hf⟩, -⟩ := id hstep
    obtain ⟨got, m, hash', timestamp', rfl, -, hfl, rfl⟩ := fetching_cases hstep
    obtain ⟨⟨_, _, _, he, -⟩, hmove⟩ := hstep
    cases he
    have hgo : rangeStep (lane.get s.db).getBlockHash first last (.blocks got)
        (.block n hash timestamp) = some (.goto _) := hmove
    refine (h.goto _ _ _ s hs (hE _ _ _ hf) hgo).trans fun t ht hpc => ?_
    rw [← ht]
    exact ih hpc

/-- From the first request to the comparison. -/
theorem RangeWorker.build (h : RangeWorker M lane E here back) {p : RangePayload first last}
    (hE : ∀ n hash timestamp, rpc.Finds n hash timestamp → E (.block n hash timestamp))
    (hl : ∀ ls, rpc.fetchErc20TransferLogs first last engine.contractFilter = .ok ls →
      E (.logs first last ls))
    (hp : engine.buildRangePayload rpc first last = .ok p) {s : Sys}
    (hs : here (enterBlocks first last []) s) : Gets M Sys.db s s.db (here (enterCheck p 0)) := by
  obtain ⟨metas, ls, hm, hls, hbuild⟩ := BackfillEngine.buildRangePayload_ok.mp hp
  obtain ⟨es, pc, hr, I, got, rfl⟩ := (fetching_ends (fetched_iff.mp ⟨_, hm⟩)).exists_run
  have hgot : got = metas := Subtype.ext (Except.ok.inj (Eq.trans (Eq.symm I) hm))
  rw [hgot] at hr
  refine (h.blocks hE hr hs).trans fun t ht hpc => ?_
  have hgo : rangeStep (lane.get t.db).getBlockHash first last (.logs metas) (.logs first last ls) =
      some (.goto (enterCheck p 0)) := by
    simp only [rangeStep, and_self, if_true, hbuild]
  exact ht ▸ h.goto _ _ _ t hpc (hl ls hls) hgo

/-- Where the worker stands once it knows what the lane stores for block `i`. -/
def afterRow (here : RangePc first last → Sys → Prop) (back : Nat → Sys → Prop)
    (p : RangePayload first last) (i : Nat) (b : Nat × Bytes) (stored : Option Bytes) :
    Sys → Prop :=
  match stored with
  | some existing => if existing ≠ b.2 then back b.1 else here (enterCheck p (i + 1))
  | none => here (enterCheck p (i + 1))

theorem RangeWorker.check (h : RangeWorker M lane E here back) (hE : E .sql)
    {p : RangePayload first last} {i : Nat} {b : Nat × Bytes} (hb : p.indexedBlocks[i]? = some b) {s : Sys}
    (hs : here (.check p i) s) :
    Gets M Sys.db s s.db (afterRow here back p i b ((lane.get s.db).getBlockHash b.1)) := by
  unfold afterRow
  cases hst : (lane.get s.db).getBlockHash b.1 with
  | none => exact h.goto _ _ _ s hs hE (by simp only [rangeStep, hb, hst])
  | some existing =>
    dsimp only
    split
    · rename_i he
      exact h.reorg _ _ _ s hs hE (by simp only [rangeStep, hb, hst, if_pos he])
    · rename_i he
      exact h.goto _ _ _ s hs hE (by simp only [rangeStep, hb, hst, if_neg he])

/-- The comparison, from block `i` on. -/
theorem RangeWorker.firstMismatch (h : RangeWorker M lane E here back) (hE : E .sql)
    (p : RangePayload first last) {i d : Nat} (hd : p.indexedBlocks.length = i + d) :
    Walks M Sys.db (here (enterCheck p i)) (firstMismatch lane (p.indexedBlocks.drop i))
      fun o => o.elim (here (.commit p)) back := by
  induction d generalizing i with
  | zero =>
    rw [List.drop_eq_nil_of_le (by omega), enterCheck, if_neg (by omega)]
    exact .pure fun _ hs => hs
  | succ d ih =>
    have hi : i < p.indexedBlocks.length := by omega
    have hcheck : enterCheck p i = .check p i := if_pos hi
    have ih := ih (i := i + 1) (by omega)
    rcases hb : p.indexedBlocks[i] with ⟨n, hash⟩
    have hget : p.indexedBlocks[i]? = some (n, hash) := by rw [List.getElem?_eq_getElem hi, hb]
    rw [List.drop_eq_getElem_cons hi, hb, hcheck]
    refine Walks.bind (Walks.reads (getBlockHashFromTable_reads n lane) fun s hs =>
      h.check hE hget hs) fun stored => ?_
    cases stored with
    | none => exact ih
    | some existing =>
      simp only [afterRow]
      split
      · exact .pure fun _ hs => hs
      · exact ih

/-- From the first request to the transaction. -/
theorem RangeWorker.processRange (h : RangeWorker M lane E here back)
    {handle : Nat → Calls Unit} {commit : RangePayload first last → Calls Unit}
    (hsql : E .sql)
    (hE : ∀ n hash timestamp, rpc.Finds n hash timestamp → E (.block n hash timestamp))
    (hl : ∀ ls, rpc.fetchErc20TransferLogs first last engine.contractFilter = .ok ls →
      E (.logs first last ls))
    (hh : ∀ n, Walks M Sys.db (back n) (handle n) fun _ => home)
    (hc : ∀ p, Walks M Sys.db (here (.commit p)) (commit p) fun _ => home) :
    Walks M Sys.db (here (enterBlocks first last []))
      (processRange engine rpc first last lane handle commit) fun _ => home := by
  refine Walks.bind (T := fun p => here (enterCheck p 0))
    (walks_answer fun p hp s hs => h.build hE hl hp hs) fun p => ?_
  refine Walks.bind (h.firstMismatch hsql p (Nat.zero_add _).symm) fun o => ?_
  cases o with
  | some n => exact hh n
  | none => exact hc p

end
end EthIndexer.L6
