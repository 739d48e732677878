import EthIndexer.L3Engine.Payload

/-!
# The engine's configuration and one block range

`BackfillEngine` has the configuration fields the workers compute with, and the
window functions built from them.

`process_finalized_range` and `process_hot_range` are one procedure on two
lanes: fetch the block metadata (at most four requests in flight), fetch the
logs, compare each block with the hash the lane stores for it, commit.
`rangeStep` takes one RPC answer or one SQL statement of it at a time; `hashOf`
is the lane's `get_*_block_hash` on the current database. `RangeStep` lists the
ways it can move.

An RPC call or a statement that fails makes the procedure return `Err`; see
`System.lean`.
-/
namespace EthIndexer.L3
open EthIndexer.L1 EthIndexer.L2

/-- mirrors crates/ingestion/src/lib.rs:18-28 -/
structure BackfillEngine where
  contractAddress : Bytes
  confirmationDepth : Nat
  reorgLookback : Nat
  hotWindowSize : Nat
  liveStartDepth : Nat

/-- All contracts, no hot window beyond the lookback. -/
def BackfillEngine.ofDepths (confirmationDepth reorgLookback : Nat) : BackfillEngine :=
  ⟨[], confirmationDepth, reorgLookback, 0, 0⟩

/-- mirrors crates/ingestion/src/lib.rs:30 -/
def BLOCK_BATCH_SIZE : Nat := 10

/-- mirrors crates/ingestion/src/lib.rs:31 -/
def MAX_CONCURRENT_BLOCK_FETCHES : Nat := 4

namespace BackfillEngine
variable (engine : BackfillEngine)

/-- The contract filter of `eth_getLogs`.
mirrors crates/ingestion/src/lib.rs:375-379 -/
def contractFilter : Option Bytes :=
  if engine.contractAddress.isEmpty then none else some engine.contractAddress

/-- mirrors crates/ingestion/src/lib.rs:58 -/
def safeHead (latest : Nat) : Nat := latest - engine.confirmationDepth

/-- How many blocks `reconcile_finalized_history` looks back.
mirrors crates/ingestion/src/lib.rs:290 -/
def lookback : Nat := max (max engine.reorgLookback engine.confirmationDepth) 1

theorem lookback_pos : 0 < engine.lookback := Nat.le_max_right _ _

/-- mirrors crates/ingestion/src/lib.rs:291-293 -/
def validationStart (start checkpoint : Nat) : Nat :=
  max (checkpoint - (engine.lookback - 1)) start

/-- mirrors crates/ingestion/src/lib.rs:472-481 -/
def computeLiveStartBlock (start latest : Nat) : Nat :=
  max (latest - (max (max (max engine.liveStartDepth engine.hotWindowSize)
    engine.reorgLookback) 1 - 1)) start

/-- The first block `reconcile_hot_history` checks.
mirrors crates/ingestion/src/lib.rs:329-331 -/
def hotValidationStart (liveStart latest : Nat) : Nat :=
  max (engine.computeLiveStartBlock liveStart latest) (latest - (max engine.reorgLookback 1 - 1))

theorem le_validationStart (start checkpoint : Nat) :
    start ≤ engine.validationStart start checkpoint := Nat.le_max_right _ _

theorem validationStart_le {start checkpoint : Nat} (h : start ≤ checkpoint) :
    engine.validationStart start checkpoint ≤ checkpoint :=
  Nat.max_le.mpr ⟨Nat.sub_le _ _, h⟩

theorem le_computeLiveStartBlock (start latest : Nat) :
    start ≤ engine.computeLiveStartBlock start latest := Nat.le_max_right _ _

end BackfillEngine

/-- What a worker waits for: an RPC answer, a statement or transaction, or the
end of `sleep`. -/
inductive Event where
  | blockNumber (latest : Nat)
  | block (n : Nat) (hash : B256) (timestamp : Nat)
  | logs (first last : Nat) (logs : List Log)
  | sql
  | timer
  deriving DecidableEq

/-! ## Progress of a range -/

/-- `blocks`: the metadata answers so far; `logs`: waiting for `eth_getLogs`;
`check`: before the comparison of the `i`-th block; `commit`: before the
transaction. -/
inductive RangePc (first last : Nat) where
  | blocks (got : List BlockMetadata)
  | logs (metas : Fetched first last)
  | check (p : RangePayload first last) (i : Nat)
  | commit (p : RangePayload first last)

/-- `try_collect`: the answers in request order, once there is one for each
block. -/
def collect (first last : Nat) (got : List BlockMetadata) : Option (Fetched first last) :=
  if h : ((rangeIncl first last).filterMap (lookupBlock got)).map BlockMetadata.number =
      rangeIncl first last then some ⟨_, h⟩ else none

def enterBlocks (first last : Nat) (got : List BlockMetadata) : RangePc first last :=
  match collect first last got with
  | some metas => .logs metas
  | none => .blocks got

def enterCheck {first last : Nat} (p : RangePayload first last) (i : Nat) : RangePc first last :=
  if i < p.indexedBlocks.length then .check p i else .commit p

/-- `buffered(4)`: block `n` is being fetched when it is unanswered and among the
four blocks from the first unanswered one on.
mirrors crates/ingestion/src/lib.rs:449-453 -/
def inFlight (first last : Nat) (got : List BlockMetadata) (n : Nat) : Bool :=
  match (rangeIncl first last).find? fun m => (lookupBlock got m).isNone with
  | none => false
  | some m => decide (m ≤ n ∧ n < m + MAX_CONCURRENT_BLOCK_FETCHES ∧ n ≤ last) &&
      (lookupBlock got n).isNone

/-- `reorg n`: the range ends with a rollback from `n`; `commit p`: it ends with
the commit of `p`; `fail`: it ends with `Err` or a panic. -/
inductive RangeMove (first last : Nat) where
  | goto (pc : RangePc first last)
  | reorg (n : Nat)
  | commit (p : RangePayload first last)
  | fail

/-- mirrors crates/ingestion/src/lib.rs:166-215 and :217-265 -/
def rangeStep (hashOf : Nat → Option Bytes) (first last : Nat) :
    RangePc first last → Event → Option (RangeMove first last)
  | .blocks got, .block n hash timestamp =>
    if inFlight first last got n then
      some (.goto (enterBlocks first last (got ++ [⟨n, hash.val, timestamp⟩])))
    else none
  | .logs metas, .logs a b ls =>
    if a = first ∧ b = last then
      match buildRangePayload metas ls with
      | .error _ => some .fail
      | .ok p => some (.goto (enterCheck p 0))
    else none
  | .check p i, .sql =>
    match p.indexedBlocks[i]? with
    | none => none
    | some (n, hash) =>
      match hashOf n with
      | some existing =>
        if existing ≠ hash then some (.reorg n) else some (.goto (enterCheck p (i + 1)))
      | none => some (.goto (enterCheck p (i + 1)))
  | .commit p, .sql => if p.Committable then some (.commit p) else some .fail
  | _, _ => none

/-- The ways a range moves. -/
inductive RangeStep (hashOf : Nat → Option Bytes) (first last : Nat) :
    RangePc first last → Event → RangeMove first last → Prop
  | block {got : List BlockMetadata} {n : Nat} {hash : B256} {timestamp : Nat}
      (h : inFlight first last got n = true) :
      RangeStep hashOf first last (.blocks got) (.block n hash timestamp)
        (.goto (enterBlocks first last (got ++ [⟨n, hash.val, timestamp⟩])))
  | logs {metas : Fetched first last} {ls : List Log} {p : RangePayload first last}
      (h : buildRangePayload metas ls = .ok p) :
      RangeStep hashOf first last (.logs metas) (.logs first last ls) (.goto (enterCheck p 0))
  | badLogs {metas : Fetched first last} {ls : List Log} {e : String}
      (h : buildRangePayload metas ls = .error e) :
      RangeStep hashOf first last (.logs metas) (.logs first last ls) .fail
  | agree {p : RangePayload first last} {i n : Nat} {hash : Bytes}
      (hi : p.indexedBlocks[i]? = some (n, hash)) (h : hashOf n = none ∨ hashOf n = some hash) :
      RangeStep hashOf first last (.check p i) .sql (.goto (enterCheck p (i + 1)))
  | reorg {p : RangePayload first last} {i n : Nat} {hash existing : Bytes}
      (hi : p.indexedBlocks[i]? = some (n, hash)) (h : hashOf n = some existing)
      (hne : existing ≠ hash) :
      RangeStep hashOf first last (.check p i) .sql (.reorg n)
  | commit {p : RangePayload first last} (h : p.Committable) :
      RangeStep hashOf first last (.commit p) .sql (.commit p)
  | refused {p : RangePayload first last} (h : ¬ p.Committable) :
      RangeStep hashOf first last (.commit p) .sql .fail

theorem rangeStep_cases {hashOf : Nat → Option Bytes} {first last : Nat}
    {pc : RangePc first last} {e : Event} {m : RangeMove first last}
    (h : rangeStep hashOf first last pc e = some m) : RangeStep hashOf first last pc e m := by
  unfold rangeStep at h
  split at h
  · split at h
    · rename_i hf; cases h; exact .block hf
    · cases h
  · split at h
    · rename_i hab
      obtain ⟨ha, hb⟩ := hab
      subst ha hb
      split at h
      · rename_i he; cases h; exact .badLogs he
      · rename_i p hp; cases h; exact .logs hp
    · cases h
  · split at h
    · cases h
    · rename_i n hash hi
      split at h
      · rename_i existing he
        split at h
        · rename_i hne; cases h; exact .reorg hi he hne
        · rename_i heq
          cases h
          exact .agree hi (.inr (by rw [he, not_not.mp heq]))
      · rename_i he; cases h; exact .agree hi (.inl he)
  · split at h
    · rename_i hp; cases h; exact .commit hp
    · rename_i hp; cases h; exact .refused hp
  · cases h

theorem rangeStep_of {first last : Nat} {hashOf : Nat → Option Bytes}
    {pc : RangePc first last} {e : Event} {o : RangeMove first last}
    (h : RangeStep hashOf first last pc e o) : rangeStep hashOf first last pc e = some o := by
  cases h with
  | block h => simp only [rangeStep, h, if_true]
  | logs h => simp only [rangeStep, h, and_self, if_true]
  | badLogs h => simp only [rangeStep, h, and_self, if_true]
  | agree hi h =>
    rcases h with h | h
    · simp only [rangeStep, hi, h]
    · simp only [rangeStep, hi, h, ne_eq, not_true_eq_false, if_false]
  | reorg hi h hne => simp only [rangeStep, hi, h, ne_eq, hne, not_false_eq_true, if_true]
  | commit h => exact if_pos h
  | refused h => exact if_neg h

/-- A payload's `i`-th block is a block of the range. -/
theorem RangePayload.block_mem {first last : Nat} (p : RangePayload first last) {i n : Nat}
    {hash : Bytes} (h : p.indexedBlocks[i]? = some (n, hash)) : first ≤ n ∧ n ≤ last := by
  rw [← mem_rangeIncl, ← p.blocks_exact]
  exact List.mem_map.mpr ⟨_, List.mem_of_getElem? h, rfl⟩

theorem RangePayload.numbers_nodup {first last : Nat} (p : RangePayload first last) :
    (p.indexedBlocks.map Prod.fst).Nodup := by
  rw [p.blocks_exact]; exact rangeIncl_nodup first last

theorem RangePayload.mem_numbers {first last : Nat} (p : RangePayload first last) {n : Nat} :
    n ∈ p.indexedBlocks.map Prod.fst ↔ first ≤ n ∧ n ≤ last := by
  rw [p.blocks_exact, mem_rangeIncl]

/-- Below the last partition each transfer of a payload has one. -/
theorem RangePayload.partitioned {first last : Nat} (p : RangePayload first last)
    (h : (last : Int) < lastPartition) : ∀ r ∈ p.transferRecords,
      0 ≤ r.blockNumber.toInt ∧ r.blockNumber.toInt < lastPartition := by
  intro r hr
  obtain ⟨n, hn, he⟩ := p.joined r hr
  have hmem := p.mem_numbers.mp (List.mem_map_of_mem (f := Prod.fst) hn)
  have hlt : n < 2 ^ 63 := by simp only [lastPartition] at h; omega
  rw [he, toInt_asI64 hlt]
  omega

/-- A lane's keys after a payload below 2^63 is inserted. -/
theorem RangePayload.mem_keys {first last : Nat} (p : RangePayload first last) {l : Lane}
    (hlt : last < 2 ^ 63) {k : Int64} :
    k ∈ (l.insertRange p.transferRecords p.indexedBlocks).keys ↔
      k ∈ l.keys ∨ ((first : Int) ≤ k.toInt ∧ k.toInt ≤ last) := by
  rw [Lane.mem_keys_insertRange]
  refine or_congr_right ⟨?_, ?_⟩
  · intro ⟨n, hn, he⟩
    have hn := p.mem_numbers.mp hn
    have := (eq_asI64 (show n < 2 ^ 63 by omega)).mp he
    omega
  · intro h
    refine ⟨k.toInt.toNat, p.mem_numbers.mpr (by omega), ?_⟩
    rw [eq_asI64 (by omega)]
    omega

/-- A lane's hashes after a payload is inserted. -/
theorem RangePayload.getBlockHash_insertRange {first last : Nat} (p : RangePayload first last)
    {l : Lane} {n : Nat} {h : Bytes} (hl : last < 2 ^ 64) (hn : n < 2 ^ 64) :
    (l.insertRange p.transferRecords p.indexedBlocks).getBlockHash n = some h ↔
      (n, h) ∈ p.indexedBlocks ∨ (¬ (first ≤ n ∧ n ≤ last) ∧ l.getBlockHash n = some h) := by
  have hlt : ∀ m ∈ p.indexedBlocks.map Prod.fst, m < 2 ^ 64 := fun m hm => by
    have := p.mem_numbers.mp hm
    omega
  rw [Lane.getBlockHash_eq_some, Lane.mem_blocks_insertRange p.numbers_nodup hlt,
    Lane.getBlockHash_eq_some]
  refine or_congr ⟨?_, fun hm => ⟨n, hm, rfl⟩⟩ ⟨?_, ?_⟩
  · intro ⟨m, hm, he⟩
    have hm' := hlt m (List.mem_map.mpr ⟨_, hm, rfl⟩)
    rw [asI64_inj hn hm' he]
    exact hm
  · intro ⟨hmem, hne⟩
    exact ⟨fun hr => hne n (p.mem_numbers.mpr hr) rfl, hmem⟩
  · intro ⟨hr, hmem⟩
    refine ⟨hmem, fun m hm he => hr ?_⟩
    rw [asI64_inj hn (hlt m hm) he]
    exact p.mem_numbers.mp hm

end EthIndexer.L3
