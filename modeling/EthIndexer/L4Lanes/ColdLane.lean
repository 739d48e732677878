import EthIndexer.L3Engine.System

/-!
# The cold lane: coverage and integrity

`ColdLane start db`: the keys of `indexed_blocks` are exactly the numbers from
`max(start, 1)` to the finalized checkpoint, and every row of `erc20_transfers`
carries the hash stored for its block.

`ColdInv` adds what each state of the backfill worker knows (`ColdPc`): the
checkpoint an iteration read is still the stored one, because no other worker
writes it, and a planned range starts right above it. It is inductive as long
as the heads of the worker stay below 2^63 (`coldInv_inductive`), whatever the
live worker does. `cold_lane` is the result; `coldLane_broken_at_2_63` shows
where the `as i64` casts end it.
-/
namespace EthIndexer.L4
open EthIndexer.L1 EthIndexer.L2 EthIndexer.L3

/-- The keys of `indexed_blocks` are `max(start, 1)..=checkpoint`. -/
def ColdKeys (start : Nat) (db : Db) : Prop :=
  ∀ k, k ∈ db.cold.keys ↔ (max start 1 : Nat) ≤ k.toInt ∧ k.toInt ≤ db.indexerCheckpoint.toInt

def ColdLane (start : Nat) (db : Db) : Prop := ColdKeys start db ∧ db.cold.Hashed

/-- What the backfill worker knows about the cold lane. -/
def ColdPc (start : Nat) (db : Db) : BackfillPc → Prop
  | .checkpoint latest | .plan latest => latest < 2 ^ 63
  | .history latest checkpoint n | .historyRow latest checkpoint n _ =>
    latest < 2 ^ 63 ∧ (checkpoint : Int) = db.indexerCheckpoint.toInt ∧ start ≤ n ∧ n ≤ checkpoint
  | .rollback n => start ≤ n ∧ (n : Int) ≤ db.indexerCheckpoint.toInt
  | .range first last _ _ =>
    first ≤ last ∧ last < 2 ^ 63 ∧ (first : Int) = max (db.indexerCheckpoint.toInt + 1) start
  | .resume | .head | .sleep _ => True

structure ColdInv (start : Nat) (s : Sys) : Prop where
  nonneg : 0 ≤ s.db.indexerCheckpoint.toInt
  keys : ColdKeys start s.db
  hashed : s.db.cold.Hashed
  pc : ColdPc start s.db s.backfill

/-! ## Reading the checkpoint -/

theorem getCheckpoint_eq {db : Db} (h : 0 ≤ db.indexerCheckpoint.toInt) :
    (getCheckpoint db : Int) = db.indexerCheckpoint.toInt := asU64_of_nonneg h

theorem nextFinalizedBlock_eq {start : Nat} {db : Db} (h : 0 ≤ db.indexerCheckpoint.toInt) :
    (nextFinalizedBlock start db : Int) = max (db.indexerCheckpoint.toInt + 1) start := by
  have hck := getCheckpoint_eq h
  have hlt := db.indexerCheckpoint.toInt_lt
  rw [nextFinalizedBlock, saturatingAdd_eq (by omega)]
  omega

/-! ## The two transactions -/

theorem coldKeys_commit {start first last : Nat} {db : Db} (p : RangePayload first last)
    (h0 : 0 ≤ db.indexerCheckpoint.toInt) (hk : ColdKeys start db) (hle : first ≤ last)
    (hlt : last < 2 ^ 63) (hf : (first : Int) = max (db.indexerCheckpoint.toInt + 1) start) :
    ColdKeys start (commitFinalizedRange db p.transferRecords p.indexedBlocks first last).1 := by
  intro k
  have hkeys : k ∈ (commitFinalizedRange db p.transferRecords p.indexedBlocks first last).1.cold.keys ↔
      k ∈ db.cold.keys ∨ ((first : Int) ≤ k.toInt ∧ k.toInt ≤ last) := p.mem_keys hlt
  have hc : (commitFinalizedRange db p.transferRecords p.indexedBlocks first last).1.indexerCheckpoint.toInt
      = last := toInt_asI64 hlt
  rw [hkeys, hk k, hc]
  omega

/-- A block of a planned range is not stored. -/
theorem planned_fresh {start first last n : Nat} {db : Db} (hk : ColdKeys start db)
    (hlt : last < 2 ^ 63) (hf : (first : Int) = max (db.indexerCheckpoint.toInt + 1) start)
    (hn : first ≤ n ∧ n ≤ last) : asI64 n ∉ db.cold.keys := by
  intro h
  have := (hk _).mp h
  rw [toInt_asI64 (by omega)] at this
  omega

theorem hashed_commit {start first last : Nat} {db : Db} (p : RangePayload first last)
    (hk : ColdKeys start db) (hh : db.cold.Hashed) (hlt : last < 2 ^ 63)
    (hf : (first : Int) = max (db.indexerCheckpoint.toInt + 1) start) :
    (commitFinalizedRange db p.transferRecords p.indexedBlocks first last).1.cold.Hashed := by
  refine Lane.hashed_insertRange hh p.joined p.numbers_nodup ?_ ?_
  · intro n hn; have := p.mem_numbers.mp hn; omega
  · intro n hn; exact planned_fresh hk hlt hf (p.mem_numbers.mp hn)

theorem coldKeys_rollback {start n : Nat} {db : Db} (hk : ColdKeys start db) (hs : start ≤ n)
    (hn : (n : Int) ≤ db.indexerCheckpoint.toInt) : ColdKeys start (rollbackFromBlock db n) := by
  intro k
  have hlt := db.indexerCheckpoint.toInt_lt
  have hkeys : k ∈ (rollbackFromBlock db n).cold.keys ↔ k ∈ db.cold.keys ∧ k.toInt < n :=
    Lane.mem_deleteRangeFrom (by omega)
  have hc : (rollbackFromBlock db n).indexerCheckpoint.toInt = (n - 1 : Nat) :=
    toInt_asI64 (by omega)
  rw [hkeys, hk k, hc]
  omega

/-! ## The invariant -/

theorem coldInv_init (start : Nat) : ColdInv start .init where
  nonneg := by decide
  keys := by
    intro k
    have hc : Sys.init.db.indexerCheckpoint.toInt = 0 := rfl
    rw [hc]
    simp only [Sys.init, Db.migrated, Lane.keys_empty, List.not_mem_nil, false_iff]
    omega
  hashed := Lane.hashed_empty
  pc := trivial

theorem coldInv_backfill {engine : BackfillEngine} {start : Nat} {s : Sys} {e : Event}
    {pc : BackfillPc} {db : Db} (I : ColdInv start s) (hE : HeadFits (.backfill e))
    (hm : BackfillMove engine start s.db s.backfill e pc db) :
    ColdInv start { s with db := db, backfill := pc } := by
  obtain ⟨h0, hk, hh, hpc⟩ := I
  have hlt := s.db.indexerCheckpoint.toInt_lt
  generalize s.backfill = pc₀ at hm hpc
  cases hm with
  | resume => exact ⟨h0, hk, hh, trivial⟩
  | head _ => exact ⟨h0, hk, hh, hE _ rfl⟩
  | revalidate hle =>
    have hc := getCheckpoint_eq h0
    exact ⟨h0, hk, hh, hpc, hc, engine.le_validationStart _ _, engine.validationStart_le hle⟩
  | skip _ => exact ⟨h0, hk, hh, hpc⟩
  | fetched => exact ⟨h0, hk, hh, hpc⟩
  | next _ hlt' =>
    obtain ⟨hl, hc, hs, hn⟩ := hpc
    exact ⟨h0, hk, hh, hl, hc, Nat.le_succ_of_le hs, hlt'⟩
  | clean _ _ => exact ⟨h0, hk, hh, hpc.1⟩
  | mismatch _ =>
    obtain ⟨-, hc, hs, hn⟩ := hpc
    exact ⟨h0, hk, hh, hs, hc ▸ Int.ofNat_le.mpr hn⟩
  | rollback =>
    obtain ⟨hs, hn⟩ := hpc
    exact ⟨asI64_nonneg (by omega), coldKeys_rollback hk hs hn, Lane.hashed_deleteNumbers _ hh,
      trivial⟩
  | planned hle _ hlast =>
    have hn : (nextFinalizedBlock start s.db : Int) = _ := nextFinalizedBlock_eq h0
    simp only [BackfillEngine.safeHead, BLOCK_BATCH_SIZE, ColdPc] at hle hlast hpc
    exact ⟨h0, hk, hh, by omega, by omega, hn⟩
  | caughtUp _ => exact ⟨h0, hk, hh, trivial⟩
  | range _ => exact ⟨h0, hk, hh, hpc⟩
  | reorg hr =>
    -- the comparison of `process_finalized_range` finds nothing to compare with
    obtain ⟨_, hl, hf⟩ := hpc
    cases hr with
    | @reorg p _ _ _ _ hi hstored _ =>
      have := planned_fresh hk hl hf (p.block_mem hi)
      have hnone := Lane.getBlockHash_eq_none.mpr this
      rw [getBlockHash, hnone] at hstored
      cases hstored
  | @commit _ _ _ p _ =>
    obtain ⟨hle, hl, hf⟩ := hpc
    exact ⟨asI64_nonneg hl, coldKeys_commit p h0 hk hle hl hf, hashed_commit p hk hh hl hf, trivial⟩
  | wake => exact ⟨h0, hk, hh, trivial⟩

theorem coldInv_live {engine : BackfillEngine} {start : Nat} {s : Sys} {e : Event}
    {pc : LivePc} {db : Db} {w : Option Nat} (I : ColdInv start s)
    (hm : LiveMove engine start s.db s.live e pc db) :
    ColdInv start { s with db := db, live := pc, pruned := w } := by
  obtain ⟨hc, hi⟩ := hm.frame
  obtain ⟨h0, hk, hh, hpc⟩ := I
  refine ⟨by simpa only [hi] using h0, ?_, by simpa only [hc] using hh, ?_⟩
  · intro k; simp only [hc, hi]; exact hk k
  · revert hpc
    cases s.backfill <;> simp only [ColdPc, hi] <;> exact id

theorem coldInv_step {engine : BackfillEngine} {start : Nat} {s s' : Sys} {l : Label}
    (I : ColdInv start s) (hE : BackfillHeadFits l) (h : step engine start s l = some s') :
    ColdInv start s' := by
  rcases step_cases h with ⟨e, pc, db, rfl, hm, rfl⟩ | ⟨e, pc, db, rfl, hm, rfl⟩ | rfl
  · exact coldInv_backfill I hE hm
  · exact coldInv_live I hm
  · exact ⟨I.nonneg, I.keys, I.hashed, trivial⟩

theorem coldInv_inductive (engine : BackfillEngine) (start : Nat) :
    (systemWith engine start BackfillHeadFits).Inductive (ColdInv start) where
  init := by intro s hs; rw [hs]; exact coldInv_init start
  step := fun _ _ _ I hs => coldInv_step I hs.1 hs.2

/-- **Cold lane.** In every state reachable with backfill heads below 2^63, under
any chain behaviour, failures, restarts and interleaving with the live worker,
the cold lane has its keys and its hashes, and `process_finalized_range` never
finds a stored hash for a block of its range. -/
theorem cold_lane (engine : BackfillEngine) (start : Nat) (s : Sys)
    (h : (systemWith engine start BackfillHeadFits).Reachable s) :
    ColdLane start s.db ∧
    ∀ first last latest p i n hash, s.backfill = .range first last latest (.check p i) →
      p.indexedBlocks[i]? = some (n, hash) → getBlockHash s.db n = none := by
  obtain ⟨-, hk, hh, hpc⟩ := (coldInv_inductive engine start).reachable s h
  refine ⟨⟨hk, hh⟩, ?_⟩
  intro first last latest p i n hash he hi
  rw [he] at hpc
  obtain ⟨-, hl, hf⟩ := hpc
  exact Lane.getBlockHash_eq_none.mpr (planned_fresh hk hl hf (p.block_mem hi))

/-! ## Runs -/

/-- Blocks 1 and 2 are indexed, 2 is replaced, and the new 2 is indexed. -/
def replaced : List Label :=
  [.backfill .sql, .backfill (.blockNumber 2), .backfill .sql, .backfill .sql] ++
    rangeLabels .backfill (.fork 2 9 0) none 1 2 ++
    [.backfill (.blockNumber 2), .backfill .sql] ++ historyLabels (.fork 2 2 1) 2 2 ++
    [.backfill .sql, .backfill (.blockNumber 2), .backfill .sql] ++
    historyLabels (.fork 2 2 1) 1 1 ++ [.backfill .sql] ++
    rangeLabels .backfill (.fork 2 2 1) none 2 2

theorem cold_lane_replaced : ∃ s, (systemWith (.ofDepths 0 1) 1 BackfillHeadFits).Reachable s ∧
    getBlockHash s.db 2 = some (B256.ofByte 1).val ∧ ColdLane 1 s.db := by
  have hx : ((LTS.exec (stepWith (.ofDepths 0 1) 1 fun _ => BackfillHeadFits) .init replaced).map
      fun s => getBlockHash s.db 2) = some (some (B256.ofByte 1).val) := by decide +kernel
  obtain ⟨s, hr, hb⟩ := LTS.reachable_of_exec stepWith_step rfl hx
  exact ⟨s, hr, hb, (cold_lane _ _ s hr).1⟩

/-- Blocks 2^63 - 1 and 2^63 are indexed, and 2^63 is replaced. -/
def replacedAt63 : List Label :=
  [.backfill .sql, .backfill (.blockNumber (2 ^ 63)), .backfill .sql, .backfill .sql] ++
    rangeLabels .backfill (.fork (2 ^ 63) (2 ^ 64) 0) none (2 ^ 63 - 1) (2 ^ 63) ++
    [.backfill (.blockNumber (2 ^ 63)), .backfill .sql] ++
    historyLabels (.fork (2 ^ 63) (2 ^ 63) 1) (2 ^ 63) (2 ^ 63) ++ [.backfill .sql]

/-- **Counterexample at 2^63.** `DELETE ... WHERE block_number >= $1` gets the
wrapped number -2^63 and empties the lane, while the checkpoint becomes
2^63 - 1: block 2^63 - 1 is at the checkpoint, at `start_block`, and missing. -/
theorem coldLane_broken_at_2_63 : ∃ s, (system (.ofDepths 0 1) (2 ^ 63 - 1)).Reachable s ∧
    ¬ ColdLane (2 ^ 63 - 1) s.db := by
  have hx : ((LTS.exec (step (.ofDepths 0 1) (2 ^ 63 - 1)) .init replacedAt63).map
      fun s => (s.db.cold.keys, s.db.indexerCheckpoint.toInt)) = some ([], 2 ^ 63 - 1) := by
    decide +kernel
  obtain ⟨s, hr, hb⟩ := LTS.reachable_of_exec (M := system _ _) (fun _ _ _ h => h) rfl hx
  obtain ⟨hempty, hc⟩ := Prod.mk.injEq .. ▸ hb
  refine ⟨s, hr, fun h => ?_⟩
  have hk : asI64 (2 ^ 63 - 1) ∈ s.db.cold.keys := by
    rw [h.1, toInt_asI64 (by decide), hc]
    omega
  rw [hempty] at hk
  cases hk

end EthIndexer.L4
