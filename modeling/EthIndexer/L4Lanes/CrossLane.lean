import EthIndexer.L4Lanes.ColdLane

/-!
# Uniqueness across the lanes

`CrossUnique db`: no number is a key of both blocks tables, no transfer key is
in both transfers tables, and the `UNION ALL` of the transfers tables names no
transfer twice.

`commit_finalized_range` deletes its range from the hot lane; the sibling
`commit_hot_range` does not look at the cold lane. `crossUnique_fails` is the
interleaving that puts block 1 in both. `cross_lane`: in the runs whose hot
commits start above the finalized checkpoint (`HotCommitAbove`), the lanes stay
apart; the invariant is that every hot key is above the finalized checkpoint
(`HotAbove`). `hotCommit_collides`: one hot commit outside the condition already
puts its first block in both lanes.
-/
namespace EthIndexer.L4
open EthIndexer.L1 EthIndexer.L2 EthIndexer.L3

structure CrossUnique (db : Db) : Prop where
  blocks : ∀ k ∈ db.cold.keys, k ∉ db.hot.keys
  transfers : ∀ k ∈ db.cold.transfers.keys, k ∉ db.hot.transfers.keys
  view : ((db.cold.transfers.rows ++ db.hot.transfers.rows).map Erc20TransferRecord.key).Nodup

/-- Lanes that back their transfers only have to be apart in their blocks. -/
theorem crossUnique_of_blocks {db : Db} (hc : db.cold.Backed) (hh : db.hot.Backed)
    (h : ∀ k ∈ db.cold.keys, k ∉ db.hot.keys) : CrossUnique db := by
  have ht : ∀ k ∈ db.cold.transfers.keys, k ∉ db.hot.transfers.keys := by
    intro k hk hk'
    obtain ⟨r, hr, he⟩ := Table.mem_keys.mp hk
    obtain ⟨r', hr', he'⟩ := Table.mem_keys.mp hk'
    have hn : r.blockNumber = r'.blockNumber := congrArg (·.2.2) (he.trans he'.symm)
    refine h _ (hc r hr) ?_
    rw [hn]
    exact hh r' hr'
  refine ⟨h, ht, ?_⟩
  rw [List.map_append]
  exact List.nodup_append'.mpr ⟨db.cold.transfers.nodup, db.hot.transfers.nodup, ht⟩

/-! ## The numbers of the live worker -/

/-- The numbers the live worker holds fit a `BIGINT`, and its ranges start at or
above `max(start, 1)`. -/
def LiveFits (start : Nat) : LivePc → Prop
  | .prune latest | .historyHead latest | .plan latest => latest < 2 ^ 63
  | .historyRow latest last n | .history latest last n _ =>
    latest < 2 ^ 63 ∧ last < 2 ^ 63 ∧ n ≤ last
  | .rollback n => n < 2 ^ 63
  | .range first last _ _ => max start 1 ≤ first ∧ first ≤ last ∧ last < 2 ^ 63
  | .resume | .head | .sleep _ => True

theorem liveFits_hotHistoryFrom {start latest last n : Nat} (h : latest < 2 ^ 63)
    (hl : last < 2 ^ 63) : LiveFits start (hotHistoryFrom latest last n) := by
  unfold hotHistoryFrom
  split
  · rename_i hn; exact ⟨h, hl, hn⟩
  · exact h

theorem le_nextHotBlock (engine : BackfillEngine) (start latest : Nat) (db : Db) :
    max start 1 ≤ nextHotBlock engine start latest db := by
  have := engine.le_computeLiveStartBlock start latest
  simp only [nextHotBlock, saturatingAdd, u64Max]
  omega

theorem liveFits_step {engine : BackfillEngine} {start : Nat} {db db' : Db} {pc pc' : LivePc}
    {e : Event} (h : LiveFits start pc) (hE : HeadFits (.live e))
    (hm : LiveMove engine start db pc e pc' db') : LiveFits start pc' := by
  cases hm with
  | resume | rollback | caughtUp | wake | commit => exact trivial
  | head _ => exact hE _ rfl
  | prune => exact h
  | historyHead _ => exact liveFits_hotHistoryFrom h (hE _ rfl)
  | absent _ | agree => exact liveFits_hotHistoryFrom h.1 h.2.1
  | stored _ => exact h
  | mismatch _ => exact Nat.lt_of_le_of_lt h.2.2 h.2.1
  | planned hle hov hlast =>
    rename_i latest last
    have := le_nextHotBlock engine start latest db
    simp only [LiveFits, BLOCK_BATCH_SIZE] at h hlast ⊢
    omega
  | range _ => exact h
  | reorg hr =>
    cases hr with
    | @reorg p _ _ _ _ hi _ _ =>
      have := p.block_mem hi
      simp only [LiveFits] at h ⊢
      omega

/-! ## The condition and the invariant -/

/-- The first block of the range a `commit_hot_range` is about to write. -/
def hotCommit? : LivePc → Label → Option Nat
  | .range first _ _ (.commit p), .live .sql => if p.Committable then some first else none
  | _, _ => none

/-- A `commit_hot_range` runs while the finalized checkpoint is below its range. -/
def HotCommitAbove (s : Sys) (l : Label) : Prop :=
  ∀ first ∈ hotCommit? s.live l, getCheckpoint s.db < first

instance (s : Sys) (l : Label) : Decidable (HotCommitAbove s l) :=
  inferInstanceAs (Decidable (∀ first ∈ hotCommit? s.live l, getCheckpoint s.db < first))

/-- Every hot block is above the finalized checkpoint. -/
def HotAbove (start : Nat) (db : Db) : Prop :=
  ∀ k ∈ db.hot.keys, (start : Int) ≤ k.toInt ∧ db.indexerCheckpoint.toInt < k.toInt

structure CrossInv (start : Nat) (s : Sys) : Prop where
  cold : ColdInv start s
  above : HotAbove start s.db
  backed : s.db.hot.Backed
  live : LiveFits start s.live

theorem crossInv_unique {start : Nat} {s : Sys} (I : CrossInv start s) : CrossUnique s.db := by
  refine crossUnique_of_blocks I.cold.hashed.backed I.backed ?_
  intro k hc hh
  have h1 := (I.cold.keys k).mp hc
  have h2 := I.above k hh
  omega

theorem crossInv_init (start : Nat) : CrossInv start .init where
  cold := coldInv_init start
  above := fun _ hk => by cases hk
  backed := fun _ hr => by cases hr
  live := trivial

theorem crossInv_backfill {engine : BackfillEngine} {start : Nat} {s : Sys} {e : Event}
    {pc : BackfillPc} {db : Db} (I : CrossInv start s) (hE : HeadFits (.backfill e))
    (hm : BackfillMove engine start s.db s.backfill e pc db) :
    CrossInv start { s with db := db, backfill := pc } := by
  obtain ⟨hc, ha, hb, hl⟩ := I
  have hc' := coldInv_backfill hc hE hm
  have hpc := hc.pc
  generalize s.backfill = pc₀ at hm hpc
  cases hm with
  | rollback =>
    rename_i n
    obtain ⟨-, hn⟩ := hpc
    have := s.db.indexerCheckpoint.toInt_lt
    refine ⟨hc', ?_, Lane.backed_deleteNumbers _ hb, hl⟩
    -- every hot block is above the old checkpoint, so the rollback deletes all of them
    intro k hk
    obtain ⟨hk, hkn⟩ := (Lane.mem_deleteRangeFrom (n := n) (by omega)).mp hk
    have := ha k hk
    omega
  | commit =>
    obtain ⟨hle, hlt, hf⟩ := hpc
    refine ⟨hc', ?_, Lane.backed_deleteNumbers _ hb, hl⟩
    intro k hk
    obtain ⟨hk, hout⟩ := (Lane.mem_deleteRangeBetween (by omega) hlt).mp hk
    have := ha k hk
    have hlast := toInt_asI64 hlt
    simp only [commitFinalizedRange, hlast]
    omega
  | _ => exact ⟨hc', ha, hb, hl⟩

theorem crossInv_live {engine : BackfillEngine} {start : Nat} {s : Sys} {e : Event}
    {pc : LivePc} {db : Db} {w : Option Nat} (I : CrossInv start s) (hE : HeadFits (.live e))
    (hC : HotCommitAbove s (.live e)) (hm : LiveMove engine start s.db s.live e pc db)
    (hc' : ColdInv start { s with db := db, live := pc, pruned := w }) :
    CrossInv start { s with db := db, live := pc, pruned := w } := by
  obtain ⟨hc, ha, hb, hl⟩ := I
  have hl' := liveFits_step hl hE hm
  unfold HotCommitAbove at hC
  generalize s.live = pc₀ at hm hl hC
  cases hm with
  | prune =>
    refine ⟨hc', fun k hk => ha k ?_, Lane.backed_deleteNumbers _ hb, hl'⟩
    exact (Lane.mem_keys_deleteNumbers.mp hk).1
  | rollback =>
    refine ⟨hc', fun k hk => ha k ?_, Lane.backed_deleteNumbers _ hb, hl'⟩
    exact (Lane.mem_keys_deleteNumbers.mp hk).1
  | @commit _ _ _ p hp =>
    obtain ⟨hs, -, hlt⟩ := hl
    refine ⟨hc', ?_, Lane.backed_insertRange hb p.joined, hl'⟩
    intro k hk
    have hck := getCheckpoint_eq hc.nonneg
    rcases (p.mem_keys hlt).mp hk with hk | hk
    · exact ha k hk
    · have hfirst := hC _ (if_pos hp)
      simp only [commitHotRange]
      omega
  | _ => exact ⟨hc', ha, hb, hl'⟩

theorem crossInv_step {engine : BackfillEngine} {start : Nat} {s s' : Sys} {l : Label}
    (I : CrossInv start s) (hE : HeadFits l) (hC : HotCommitAbove s l)
    (h : step engine start s l = some s') : CrossInv start s' := by
  have hc' := coldInv_step I.cold hE.backfill h
  rcases step_cases h with ⟨e, pc, db, rfl, hm, rfl⟩ | ⟨e, pc, db, rfl, hm, rfl⟩ | rfl
  · exact crossInv_backfill I hE hm
  · exact crossInv_live I hE hC hm hc'
  · exact ⟨hc', I.above, I.backed, trivial⟩

/-- The runs with heads below 2^63 in which every hot commit meets the condition. -/
def crossSystem (engine : BackfillEngine) (start : Nat) : LTS Sys Label :=
  (system engine start).restrict fun s l => HeadFits l ∧ HotCommitAbove s l

theorem crossInv_inductive (engine : BackfillEngine) (start : Nat) :
    (crossSystem engine start).Inductive (CrossInv start) where
  init := by intro s hs; rw [hs]; exact crossInv_init start
  step := fun _ _ _ I hs => crossInv_step I hs.1.1 hs.1.2 hs.2

/-- **Cross-lane uniqueness.** In every state of a run whose hot commits start
above the finalized checkpoint, the two lanes share no block and no transfer. -/
theorem cross_lane (engine : BackfillEngine) (start : Nat) (s : Sys)
    (h : (crossSystem engine start).Reachable s) : CrossUnique s.db :=
  crossInv_unique ((crossInv_inductive engine start).reachable s h)

/-- A hot commit at or below the finalized checkpoint puts its first block into
both lanes. -/
theorem hotCommit_collides (engine : BackfillEngine) (start : Nat) (s s' : Sys)
    (h : (crossSystem engine start).Reachable s) (hC : ¬ HotCommitAbove s (.live .sql))
    (hs : step engine start s (.live .sql) = some s') : ¬ CrossUnique s'.db := by
  obtain ⟨hc, -, -, hl⟩ := (crossInv_inductive engine start).reachable s h
  have hck := getCheckpoint_eq hc.nonneg
  have hlt' := s.db.indexerCheckpoint.toInt_lt
  simp only [HotCommitAbove, not_forall] at hC
  obtain ⟨first, hfirst, hge⟩ := hC
  generalize hpc : s.live = pc at hl hfirst
  unfold hotCommit? at hfirst
  split at hfirst
  · rename_i last latest p _
    have hp : p.Committable := by
      by_contra hp
      rw [if_neg hp] at hfirst
      cases hfirst
    rw [if_pos hp] at hfirst
    cases hfirst
    simp only [step, hpc, liveStep, rangeStep, if_pos hp, Option.map_some, Option.some.injEq] at hs
    subst hs
    obtain ⟨hf, hle, hlt⟩ := hl
    intro hu
    refine hu.blocks (asI64 first) ?_ ?_
    · refine (hc.keys _).mpr ?_
      rw [toInt_asI64 (by omega)]
      omega
    · refine (p.mem_keys hlt).mpr (.inr ?_)
      rw [toInt_asI64 (by omega)]
      omega
  · cases hfirst

/-! ## Runs -/

/-- The backfill worker indexes block 1; then the live worker, whose window
reaches down to `start_block`, indexes it too. -/
def bothLanes : List Label :=
  [.backfill .sql, .backfill (.blockNumber 1), .backfill .sql, .backfill .sql] ++
    rangeLabels .backfill oneTransfer none 1 1 ++
    [.live .sql, .live (.blockNumber 1), .live .sql, .live (.blockNumber 1), .live .sql, .live .sql] ++
    rangeLabels .live oneTransfer none 1 1

/-- **Counterexample**: block 1 and its transfer are in both lanes. -/
theorem crossUnique_fails : ∃ s, (system (.ofDepths 0 1) 1).Reachable s ∧
    asI64 1 ∈ s.db.cold.keys ∧ asI64 1 ∈ s.db.hot.keys ∧
    ¬ ((s.db.cold.transfers.rows ++ s.db.hot.transfers.rows).map Erc20TransferRecord.key).Nodup := by
  have hx : ((LTS.exec (step (.ofDepths 0 1) 1) .init bothLanes).map fun s =>
      decide (asI64 1 ∈ s.db.cold.keys ∧ asI64 1 ∈ s.db.hot.keys ∧
        ¬ ((s.db.cold.transfers.rows ++ s.db.hot.transfers.rows).map
          Erc20TransferRecord.key).Nodup)) = some true := by decide +kernel
  obtain ⟨s, hr, hb⟩ := LTS.reachable_of_exec (M := system _ _) (fun _ _ _ h => h) rfl hx
  exact ⟨s, hr, of_decide_eq_true hb⟩

/-- The backfill worker indexes block 1, the live worker 2 and 3, and the
backfill worker takes over block 2. -/
def promoted : List Label :=
  [.backfill .sql, .backfill (.blockNumber 3), .backfill .sql, .backfill .sql] ++
    rangeLabels .backfill oneTransfer none 1 1 ++
    [.live .sql, .live (.blockNumber 3), .live .sql, .live (.blockNumber 3), .live .sql, .live .sql,
      .live .sql] ++
    rangeLabels .live oneTransfer none 2 3 ++
    [.backfill (.blockNumber 4), .backfill .sql] ++ historyLabels oneTransfer 1 1 ++
    [.backfill .sql] ++ rangeLabels .backfill oneTransfer none 2 2

theorem cross_lane_promoted : ∃ s, (crossSystem (.ofDepths 2 2) 1).Reachable s ∧
    (s.db.cold.keys, s.db.hot.keys) = ([1, 2], [3]) ∧ CrossUnique s.db := by
  have hx : ((LTS.exec (stepWith (.ofDepths 2 2) 1 fun s l => HeadFits l ∧ HotCommitAbove s l) .init
      promoted).map fun s => (s.db.cold.keys, s.db.hot.keys)) = some ([1, 2], [3]) := by
    decide +kernel
  obtain ⟨s, hr, hb⟩ := LTS.reachable_of_exec stepWith_step rfl hx
  exact ⟨s, hr, hb, cross_lane _ _ s hr⟩

end EthIndexer.L4
