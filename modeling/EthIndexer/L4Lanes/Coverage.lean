import EthIndexer.L4Lanes.CrossLane

/-!
# Coverage of the served window

`Served w lo db`: every block from `max(w, 1)` to the live checkpoint is in one
of the lanes. `w` is the greatest `live_start_block` passed to
`prune_hot_before_block`, below which the hot lane is not meant to hold blocks.

`rollback_from_block` moves the live checkpoint while the live worker may have a
range or a rollback in flight that it chose from the old one. `served_fails` is
the run in which the live commit then jumps over a rolled back block.
`coverage`: in the runs whose hot writes adjoin what is served (`HotWriteAdjoins`)
no block is missing.
-/
namespace EthIndexer.L4
open EthIndexer.L1 EthIndexer.L2 EthIndexer.L3

/-- Every block of `max(w, 1)..=live checkpoint` is in one of the lanes. -/
def Served (w : Nat) (db : Db) : Prop :=
  ∀ n, max w 1 ≤ n → n ≤ getLiveCheckpoint db → asI64 n ∈ db.cold.keys ∨ asI64 n ∈ db.hot.keys

/-! ## The condition and the invariant -/

/-- Nothing unserved lies below block `a`. -/
def Adjoins (s : Sys) (a : Nat) : Prop :=
  a ≤ max (s.pruned.getD 0) (max (getLiveCheckpoint s.db + 1) (getCheckpoint s.db + 1))

/-- The block a `commit_hot_range` or `rollback_hot_from_block` is about to start at. -/
def hotWrite? : LivePc → Label → Option Nat
  | .range first _ _ (.commit _), .live .sql => some first
  | .rollback n, .live .sql => some n
  | _, _ => none

/-- A `commit_hot_range` or `rollback_hot_from_block` runs while its first block
adjoins the served blocks. -/
def HotWriteAdjoins (s : Sys) (l : Label) : Prop := ∀ a ∈ hotWrite? s.live l, Adjoins s a

instance (s : Sys) (a : Nat) : Decidable (Adjoins s a) := inferInstanceAs (Decidable (_ ≤ _))

instance (s : Sys) (l : Label) : Decidable (HotWriteAdjoins s l) :=
  inferInstanceAs (Decidable (∀ a ∈ hotWrite? s.live l, Adjoins s a))

/-- Before the first prune nothing is hot, and `start` takes the place of `w`. -/
structure CoverInv (start : Nat) (s : Sys) : Prop where
  cold : ColdInv start s
  live : LiveFits start s.live
  nonneg : 0 ≤ s.db.liveIndexerCheckpoint.toInt
  floor : start ≤ s.pruned.getD start
  served : Served (s.pruned.getD start) s.db

theorem getLiveCheckpoint_eq {db : Db} (h : 0 ≤ db.liveIndexerCheckpoint.toInt) :
    (getLiveCheckpoint db : Int) = db.liveIndexerCheckpoint.toInt := asU64_of_nonneg h

/-- A block at or below the finalized checkpoint is in the cold lane. -/
theorem cold_of_le {start n : Nat} {s : Sys} (hc : ColdInv start s) (hs : max start 1 ≤ n)
    (hn : n ≤ getCheckpoint s.db) : asI64 n ∈ s.db.cold.keys := by
  have := getCheckpoint_eq hc.nonneg
  have := s.db.indexerCheckpoint.toInt_lt
  rw [hc.keys, toInt_asI64 (by omega)]
  omega

theorem coverInv_init (start : Nat) : CoverInv start .init where
  cold := coldInv_init start
  live := trivial
  nonneg := by decide
  floor := Nat.le_refl _
  served := by
    intro n hn hle
    have : getLiveCheckpoint Sys.init.db = 0 := by decide
    omega

/-! ## The transactions -/

/-- Both checkpoints become `n - 1`, and the cold lane reaches up to there. -/
theorem served_rollback {start w n : Nat} {s : Sys} (hc : ColdInv start s) (hw : start ≤ w)
    (hn : (n : Int) ≤ s.db.indexerCheckpoint.toInt) : Served w (rollbackFromBlock s.db n) := by
  have := s.db.indexerCheckpoint.toInt_lt
  have hlc : getLiveCheckpoint (rollbackFromBlock s.db n) = n - 1 := asU64_asI64 (by omega)
  intro m hm hle
  rw [hlc] at hle
  refine .inl ((Lane.mem_deleteRangeFrom (by omega)).mpr ⟨?_, ?_⟩)
  · rw [hc.keys, toInt_asI64 (by omega)]
    omega
  · rw [toInt_asI64 (by omega)]
    omega

/-- What leaves the hot lane enters the cold lane. -/
theorem served_commit {w first last : Nat} {db : Db} (p : RangePayload first last)
    (hle : first ≤ last) (hlt : last < 2 ^ 63) (hs : Served w db) :
    Served w (commitFinalizedRange db p.transferRecords p.indexedBlocks first last).1 := by
  intro n hn hnl
  rcases hs n hn hnl with h | h
  · exact .inl ((p.mem_keys hlt).mpr (.inl h))
  · by_cases hr : (first : Int) ≤ (asI64 n).toInt ∧ (asI64 n).toInt ≤ last
    · exact .inl ((p.mem_keys hlt).mpr (.inr hr))
    · exact .inr ((Lane.mem_deleteRangeBetween (by omega) hlt).mpr ⟨h, hr⟩)

theorem served_prune {w w' b : Nat} {db : Db} (h0 : 0 ≤ db.liveIndexerCheckpoint.toInt)
    (hw : w ≤ w') (hb : b ≤ w') (hs : Served w db) : Served w' (pruneHotBeforeBlock db b) := by
  intro n hn hnl
  have hlc := getLiveCheckpoint_eq h0
  have := db.liveIndexerCheckpoint.toInt_lt
  have hle : n ≤ getLiveCheckpoint db := hnl
  rcases hs n (by omega) hle with h | h
  · exact .inl h
  · refine .inr ((Lane.mem_deleteRangeBefore (by omega)).mpr ⟨h, ?_⟩)
    rw [toInt_asI64 (by omega)]
    omega

/-- What adjoins is served below: the step both hot writes rest on. -/
theorem served_below {start a n : Nat} {s : Sys} (I : CoverInv start s) (ha : Adjoins s a)
    (hn : max (s.pruned.getD start) 1 ≤ n) (hna : n < a) :
    asI64 n ∈ s.db.cold.keys ∨ asI64 n ∈ s.db.hot.keys := by
  by_cases hl : n ≤ getLiveCheckpoint s.db
  · exact I.served n hn hl
  · refine .inl (cold_of_le I.cold ?_ ?_)
    · have := I.floor; omega
    · have hw : s.pruned.getD 0 ≤ s.pruned.getD start := by cases s.pruned <;> simp
      simp only [Adjoins] at ha
      omega

theorem served_rollbackHot {start a : Nat} {s : Sys} (I : CoverInv start s) (ha : Adjoins s a)
    (hlt : a < 2 ^ 63) : Served (s.pruned.getD start) (rollbackHotFromBlock s.db a) := by
  have hlc : getLiveCheckpoint (rollbackHotFromBlock s.db a) = a - 1 := asU64_asI64 (by omega)
  intro n hn hle
  rw [hlc] at hle
  rcases served_below I ha hn (by omega) with h | h
  · exact .inl h
  · refine .inr ((Lane.mem_deleteRangeFrom hlt).mpr ⟨h, ?_⟩)
    rw [toInt_asI64 (by omega)]
    omega

theorem served_commitHot {start first last : Nat} {s : Sys} (I : CoverInv start s)
    (ha : Adjoins s first) (p : RangePayload first last) (hlt : last < 2 ^ 63) :
    Served (s.pruned.getD start)
      (commitHotRange s.db p.transferRecords p.indexedBlocks last).1 := by
  have hlc : getLiveCheckpoint (commitHotRange s.db p.transferRecords p.indexedBlocks last).1 =
      last := asU64_asI64 (by omega)
  intro n hn hnl
  rw [hlc] at hnl
  by_cases hna : n < first
  · rcases served_below I ha hn hna with h | h
    · exact .inl h
    · exact .inr ((p.mem_keys hlt).mpr (.inl h))
  · refine .inr ((p.mem_keys hlt).mpr (.inr ?_))
    rw [toInt_asI64 (by omega)]
    omega

/-! ## The invariant is inductive -/

theorem coverInv_backfill {engine : BackfillEngine} {start : Nat} {s : Sys} {e : Event}
    {pc : BackfillPc} {db : Db} (I : CoverInv start s) (hE : HeadFits (.backfill e))
    (hm : BackfillMove engine start s.db s.backfill e pc db) :
    CoverInv start { s with db := db, backfill := pc } := by
  obtain ⟨hc, hl, h0, hf, hs⟩ := I
  have hc' := coldInv_backfill hc hE hm
  have hpc := hc.pc
  generalize s.backfill = pc₀ at hm hpc
  cases hm with
  | rollback =>
    have hlt := s.db.indexerCheckpoint.toInt_lt
    exact ⟨hc', hl, asI64_nonneg (by have := hpc.2; omega), hf, served_rollback hc hf hpc.2⟩
  | commit => exact ⟨hc', hl, h0, hf, served_commit _ hpc.1 hpc.2.1 hs⟩
  | _ => exact ⟨hc', hl, h0, hf, hs⟩

theorem coverInv_live {engine : BackfillEngine} {start : Nat} {s : Sys} {e : Event}
    {pc : LivePc} {db : Db} (I : CoverInv start s) (hE : HeadFits (.live e))
    (hC : HotWriteAdjoins s (.live e)) (hm : LiveMove engine start s.db s.live e pc db)
    (hc' : ColdInv start
      { s with db := db, live := pc, pruned := prunedBy engine start s.live s.pruned }) :
    CoverInv start
      { s with db := db, live := pc, pruned := prunedBy engine start s.live s.pruned } := by
  have hl' := liveFits_step I.live hE hm
  have hl := I.live
  unfold HotWriteAdjoins at hC
  generalize s.live = pc₀ at hm hl hC hc'
  cases hm with
  | prune =>
    rename_i latest
    have hls := engine.le_computeLiveStartBlock start latest
    have hf := I.floor
    have hw : s.pruned.getD start ≤ max (s.pruned.getD 0)
        (engine.computeLiveStartBlock start latest) := by
      cases hp : s.pruned with
      | none => simp only [Option.getD_none]; omega
      | some w => simp only [Option.getD_some]; omega
    exact ⟨hc', hl', I.nonneg, by simp only [prunedBy, Option.getD_some]; omega,
      served_prune I.nonneg hw (Nat.le_max_right _ _) I.served⟩
  | rollback =>
    have hlt : _ < 2 ^ 63 := hl
    exact ⟨hc', hl', asI64_nonneg (by omega), I.floor, served_rollbackHot I (hC _ rfl) hlt⟩
  | commit =>
    obtain ⟨-, hle, hlt⟩ := hl
    exact ⟨hc', hl', asI64_nonneg hlt, I.floor, served_commitHot I (hC _ rfl) _ hlt⟩
  | _ => exact ⟨hc', hl', I.nonneg, I.floor, I.served⟩

theorem coverInv_step {engine : BackfillEngine} {start : Nat} {s s' : Sys} {l : Label}
    (I : CoverInv start s) (hE : HeadFits l) (hC : HotWriteAdjoins s l)
    (h : step engine start s l = some s') : CoverInv start s' := by
  have hc' := coldInv_step I.cold hE.backfill h
  rcases step_cases h with ⟨e, pc, db, rfl, hm, rfl⟩ | ⟨e, pc, db, rfl, hm, rfl⟩ | rfl
  · exact coverInv_backfill I hE hm
  · exact coverInv_live I hE hC hm hc'
  · exact ⟨hc', trivial, I.nonneg, I.floor, I.served⟩

/-- The runs with heads below 2^63 in which every hot write adjoins. -/
def coverSystem (engine : BackfillEngine) (start : Nat) : LTS Sys Label :=
  (system engine start).restrict fun s l => HeadFits l ∧ HotWriteAdjoins s l

theorem coverInv_inductive (engine : BackfillEngine) (start : Nat) :
    (coverSystem engine start).Inductive (CoverInv start) where
  init := by intro s hs; rw [hs]; exact coverInv_init start
  step := fun _ _ _ I hs => coverInv_step I hs.1.1 hs.1.2 hs.2

/-- **No gap.** In every state of a run whose hot writes adjoin what is served,
every block from the greatest pruned bound to the live checkpoint is served. -/
theorem coverage (engine : BackfillEngine) (start : Nat) (s : Sys)
    (h : (coverSystem engine start).Reachable s) (w : Nat) (hw : s.pruned = some w) :
    Served w s.db := by
  have I := (coverInv_inductive engine start).reachable s h
  have hs := I.served
  rw [hw] at hs
  exact hs

/-! ## Runs -/

/-- A hot window of ten blocks over a lookback of one. -/
def wideWindow : BackfillEngine := { BackfillEngine.ofDepths 0 1 with liveStartDepth := 10 }

/-- Both lanes hold 1 and 2, the live worker is about to commit 3, and the
backfill worker rolls 2 back. -/
def rolledBackUnderCommit : List Label :=
  [.backfill .sql, .backfill (.blockNumber 2), .backfill .sql, .backfill .sql] ++
    rangeLabels .backfill (.fork 3 9 0) none 1 2 ++
    [.live .sql, .live (.blockNumber 2), .live .sql, .live (.blockNumber 2), .live .sql, .live .sql] ++
    rangeLabels .live (.fork 3 9 0) none 1 2 ++
    [.live (.blockNumber 3), .live .sql, .live (.blockNumber 3), .live .sql, .live .sql] ++
    (rangeLabels .live (.fork 3 9 0) none 3 3).dropLast ++
    [.backfill (.blockNumber 3), .backfill .sql] ++ historyLabels (.fork 3 2 1) 2 2 ++
    [.backfill .sql]

/-- **Counterexample**: the pending commit lifts the live checkpoint to 3, and
block 2 is in neither lane. -/
theorem served_fails : ∃ s, (system wideWindow 1).Reachable s ∧ s.pruned = some 1 ∧
    ¬ Served 1 s.db := by
  have hx : ((LTS.exec (step wideWindow 1) .init (rolledBackUnderCommit ++ [.live .sql])).map
      fun s => (s.pruned, s.db.cold.keys, s.db.hot.keys, getLiveCheckpoint s.db)) =
      some (some 1, [1], [1, 3], 3) := by decide +kernel
  obtain ⟨s, hr, hb⟩ := LTS.reachable_of_exec (M := system _ _) (fun _ _ _ h => h) rfl hx
  simp only [Prod.mk.injEq] at hb
  obtain ⟨hp, hc, hh, hl⟩ := hb
  refine ⟨s, hr, hp, fun h => ?_⟩
  have h2 := h 2 (by decide) (by rw [hl]; decide)
  rw [hc, hh] at h2
  exact absurd h2 (by decide)

/-- The rollback comes before the live worker plans: it resumes from block 2. -/
def rolledBackBetween : List Label :=
  [.backfill .sql, .backfill (.blockNumber 2), .backfill .sql, .backfill .sql] ++
    rangeLabels .backfill (.fork 3 9 0) none 1 2 ++
    [.live .sql, .live (.blockNumber 2), .live .sql, .live (.blockNumber 2), .live .sql, .live .sql] ++
    rangeLabels .live (.fork 3 9 0) none 1 2 ++
    [.backfill (.blockNumber 3), .backfill .sql] ++ historyLabels (.fork 3 2 1) 2 2 ++
    [.backfill .sql, .live (.blockNumber 3), .live .sql, .live (.blockNumber 3), .live .sql,
      .live .sql] ++
    rangeLabels .live (.fork 3 2 1) none 2 3

theorem coverage_rolledBack : ∃ s, (coverSystem wideWindow 1).Reachable s ∧
    (s.db.cold.keys, s.db.hot.keys, getLiveCheckpoint s.db) = ([1], [1, 2, 3], 3) ∧
    Served 1 s.db := by
  have hx : ((LTS.exec (stepWith wideWindow 1 fun s l => HeadFits l ∧ HotWriteAdjoins s l) .init
      rolledBackBetween).map fun s =>
        (s.pruned, s.db.cold.keys, s.db.hot.keys, getLiveCheckpoint s.db)) =
      some (some 1, [1], [1, 2, 3], 3) := by decide +kernel
  obtain ⟨s, hr, hb⟩ := LTS.reachable_of_exec stepWith_step rfl hx
  simp only [Prod.mk.injEq] at hb
  obtain ⟨hp, hc, hh, hl⟩ := hb
  exact ⟨s, hr, by rw [hc, hh, hl], coverage _ _ s hr 1 hp⟩

end EthIndexer.L4
