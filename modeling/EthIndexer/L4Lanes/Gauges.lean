import EthIndexer.L3Engine.Metrics
import EthIndexer.L4Lanes.HotLane

/-!
# The checkpoint gauges

`indexer_checkpoint_block` is the "latest persisted checkpoint per worker". The
gauge is written on resume and after a commit, and a checkpoint is persisted by
the commit and by the two rollbacks. `gauge_follows`: in a run of one worker
alone, the two agree at the top of its loop as long as no rollback moves the
checkpoint. A rollback that does leaves the gauge behind (`gauge_stale`), because
`record_rollback` does not write it.
-/
namespace EthIndexer.L4
open EthIndexer.L1 EthIndexer.L2 EthIndexer.L3

/-- The lane's `last_processed_block`. -/
def laneCheckpoint (db : Db) : Worker → Nat
  | .finalized => getCheckpoint db
  | .hot => getLiveCheckpoint db

/-- The worker is at the top of its loop: an iteration has ended, or none has begun. -/
def AtTop (s : Sys) : Worker → Prop
  | .finalized => s.backfill = .head
  | .hot => s.live = .head

instance (s : Sys) : (w : Worker) → Decidable (AtTop s w)
  | .finalized => match h : s.backfill with
    | .head => .isTrue h
    | .resume | .checkpoint _ | .history .. | .historyRow .. | .rollback _ | .plan _ | .range ..
    | .sleep _ => .isFalse (by rw [AtTop, h]; nofun)
  | .hot => match h : s.live with
    | .head => .isTrue h
    | .resume | .prune _ | .historyHead _ | .historyRow .. | .history .. | .rollback _ | .plan _
    | .range .. | .sleep _ => .isFalse (by rw [AtTop, h]; nofun)

/-- A label of a process that runs `worker` only. -/
def Alone : Worker → Label → Prop
  | .finalized, .live _ => False
  | .hot, .backfill _ => False
  | _, _ => True

instance : (w : Worker) → (l : Label) → Decidable (Alone w l)
  | .finalized, .live _ => .isFalse id
  | .hot, .backfill _ => .isFalse id
  | .finalized, .backfill _ | .finalized, .crash | .hot, .live _ | .hot, .crash => .isTrue trivial

/-- The block a step rolls its own lane back from. -/
def rolledBack (s : Sys) : Label → Option Nat
  | .backfill .sql => match s.backfill with
    | .rollback n => some n
    | _ => none
  | .live .sql => match s.live with
    | .rollback n => some n
    | _ => none
  | _ => none

/-- A rollback leaves the checkpoint of `worker` where it is. -/
def RollbackKeeps (worker : Worker) (s : Sys) (l : Label) : Prop :=
  ∀ n ∈ rolledBack s l, n - 1 = laneCheckpoint s.db worker

instance (w : Worker) (s : Sys) (l : Label) : Decidable (RollbackKeeps w s l) :=
  inferInstanceAs (Decidable (∀ n ∈ rolledBack s l, n - 1 = laneCheckpoint s.db w))

/-! ## The invariant -/

/-- The block numbers a worker may store as its checkpoint are below 2^64. -/
def BackfillRoom : BackfillPc → Prop
  | .history _ checkpoint n | .historyRow _ checkpoint n _ => n ≤ checkpoint ∧ checkpoint < 2 ^ 64
  | .rollback n => n < 2 ^ 64
  | .range _ last _ _ => last < 2 ^ 64
  | _ => True

def LiveRoom : LivePc → Prop
  | .historyRow _ last n | .history _ last n _ => n ≤ last ∧ last < 2 ^ 64
  | .rollback n => n < 2 ^ 64
  | .range _ last _ _ => last < 2 ^ 64
  | _ => True

/-- From its resume on, the worker's gauge shows its checkpoint. -/
def GaugeInv (s : Metered) : Worker → Prop
  | .finalized => BackfillRoom s.sys.backfill ∧
    (s.sys.backfill = .resume ∨ s.metrics.checkpoint .finalized = getCheckpoint s.sys.db)
  | .hot => LiveRoom s.sys.live ∧
    (s.sys.live = .resume ∨ s.metrics.checkpoint .hot = getLiveCheckpoint s.sys.db)

theorem checkpoint_rangeMetrics {first last latest : Nat} {hashOf : Nat → Option Bytes}
    {lane w : Worker} {stats : RangePayload first last → CommitStats} {pc : RangePc first last}
    {e : Event} {m : IndexerMetrics} (h : ∀ p, pc ≠ .commit p) :
    (rangeMetrics hashOf lane latest stats pc e m).checkpoint w = m.checkpoint w := by
  unfold rangeMetrics
  split
  · simp
  · rename_i p hp
    cases rangeStep_cases hp
    exact absurd rfl (h p)
  · rfl

theorem rangeStep_not_commit {first last : Nat} {hashOf : Nat → Option Bytes}
    {pc : RangePc first last} {e : Event} {m : RangeMove first last}
    (h : RangeStep hashOf first last pc e m) (hm : ∀ p, m ≠ .commit p) (hf : m ≠ .fail) :
    ∀ p, pc ≠ .commit p := by
  intro p hp
  subst hp
  cases h with
  | commit _ => exact hm p rfl
  | refused _ => exact hf rfl

theorem rangeStep_reorg_le {first last n : Nat} {hashOf : Nat → Option Bytes}
    {pc : RangePc first last} {e : Event} (h : RangeStep hashOf first last pc e (.reorg n)) :
    n ≤ last := by
  cases h with
  | @reorg p _ _ _ _ hi _ _ => exact (p.block_mem hi).2

theorem liveRoom_hotHistoryFrom {latest last n : Nat} (h : last < 2 ^ 64) :
    LiveRoom (hotHistoryFrom latest last n) := by
  unfold hotHistoryFrom
  split
  · rename_i hn; exact ⟨hn, h⟩
  · trivial

section
variable {engine : BackfillEngine} {start : Nat}

theorem backfillRoom_step {db db' : Db} {pc pc' : BackfillPc} {e : Event} (h : BackfillRoom pc)
    (hm : BackfillMove engine start db pc e pc' db') : BackfillRoom pc' := by
  cases hm with
  | revalidate hle => exact ⟨engine.validationStart_le hle, asU64_lt _⟩
  | fetched => exact h
  | next _ hlt => exact ⟨hlt, h.2⟩
  | mismatch _ => exact Nat.lt_of_le_of_lt h.1 h.2
  | reorg hr => exact Nat.lt_of_le_of_lt (rangeStep_reorg_le hr) h
  | @planned latest last _ hov hlast =>
    have hle := Nat.min_le_left (nextFinalizedBlock start db + BLOCK_BATCH_SIZE - 1)
      (engine.safeHead latest)
    simp only [BackfillRoom]
    omega
  | range _ => exact h
  | _ => trivial

theorem liveRoom_step {db db' : Db} {pc pc' : LivePc} {e : Event} (h : LiveRoom pc)
    (hm : LiveMove engine start db pc e pc' db') : LiveRoom pc' := by
  cases hm with
  | historyHead hlt => exact liveRoom_hotHistoryFrom hlt
  | absent _ | agree => exact liveRoom_hotHistoryFrom h.2
  | stored _ => exact h
  | mismatch _ => exact Nat.lt_of_le_of_lt h.1 h.2
  | reorg hr => exact Nat.lt_of_le_of_lt (rangeStep_reorg_le hr) h
  | @planned latest last _ hov hlast =>
    have hle := Nat.min_le_left (nextHotBlock engine start latest db + BLOCK_BATCH_SIZE - 1) latest
    simp only [LiveRoom]
    omega
  | range _ => exact h
  | _ => trivial

/-- A rollback from the block after the checkpoint writes the checkpoint again. -/
theorem checkpoint_unmoved {c : Int64} {n : Nat} (h : n - 1 = asU64 c) :
    asU64 (asI64 (n - 1)) = asU64 c := by
  rw [h, asI64_asU64]

/-- One move of `run_backfill`: resume and commit write the gauge, a rollback
keeps the checkpoint, and nothing else touches either. -/
theorem gauge_backfill {db db' : Db} {pc pc' : BackfillPc} {e : Event} {m : IndexerMetrics}
    (hroom : BackfillRoom pc)
    (hg : pc = .resume ∨ m.checkpoint .finalized = getCheckpoint db)
    (hk : ∀ n, pc = .rollback n → n - 1 = getCheckpoint db)
    (hm : BackfillMove engine start db pc e pc' db') :
    (backfillMetrics engine start db pc e m).checkpoint .finalized = getCheckpoint db' := by
  have hg' : pc ≠ .resume → m.checkpoint .finalized = getCheckpoint db := hg.resolve_left
  cases hm with
  | resume => simp [backfillMetrics]
  | revalidate _ | skip _ => simpa [backfillMetrics] using hg'
  | next h _ | clean h _ => simpa [backfillMetrics, h] using hg'
  | mismatch h => simpa [backfillMetrics, h] using hg'
  | @rollback n =>
    refine (hg' (by simp)).trans ?_
    exact (checkpoint_unmoved (hk n rfl)).symm
  | range h | reorg h =>
    simp only [backfillMetrics]
    rw [checkpoint_rangeMetrics (rangeStep_not_commit h (by simp) (by simp))]
    exact hg' (by simp)
  | commit hp =>
    rw [backfillMetrics, rangeMetrics_commit hp]
    refine (IndexerMetrics.checkpoint_recordBatchSuccess m _).trans ?_
    exact (asU64_asI64 hroom).symm
  | head _ | fetched | planned _ _ _ | caughtUp _ | wake => exact hg' (by simp)

/-- One move of `run_live`. -/
theorem gauge_live {db db' : Db} {pc pc' : LivePc} {e : Event} {m : IndexerMetrics}
    (hroom : LiveRoom pc)
    (hg : pc = .resume ∨ m.checkpoint .hot = getLiveCheckpoint db)
    (hk : ∀ n, pc = .rollback n → n - 1 = getLiveCheckpoint db)
    (hm : LiveMove engine start db pc e pc' db') :
    (liveMetrics start db pc e m).checkpoint .hot = getLiveCheckpoint db' := by
  have hg' : pc ≠ .resume → m.checkpoint .hot = getLiveCheckpoint db := hg.resolve_left
  cases hm with
  | resume => simp [liveMetrics]
  | agree => simpa [liveMetrics] using hg'
  | mismatch h => simpa [liveMetrics, h] using hg'
  | planned _ _ _ | caughtUp _ => simpa [liveMetrics] using hg'
  | @rollback n =>
    refine (hg' (by simp)).trans ?_
    exact (checkpoint_unmoved (hk n rfl)).symm
  | range h | reorg h =>
    simp only [liveMetrics]
    rw [checkpoint_rangeMetrics (rangeStep_not_commit h (by simp) (by simp))]
    exact hg' (by simp)
  | commit hp =>
    rw [liveMetrics, rangeMetrics_commit hp]
    refine (IndexerMetrics.checkpoint_recordBatchSuccess m _).trans ?_
    exact (asU64_asI64 hroom).symm
  | head _ | prune | historyHead _ | absent _ | stored _ | wake => exact hg' (by simp)

/-! ## Runs of one worker -/

/-- The runs of `worker` alone whose steps meet `C`. -/
def runAlone (engine : BackfillEngine) (start : Nat) (worker : Worker)
    (C : Sys → Label → Prop) : LTS Metered Label :=
  (metered engine start).restrict fun s l => Alone worker l ∧ C s.sys l

theorem gaugeInv_step {w : Worker} {s s' : Metered} {l : Label} (I : GaugeInv s w)
    (ha : Alone w l) (hk : RollbackKeeps w s.sys l) (h : meteredStep engine start s l = some s') :
    GaugeInv s' w := by
  rcases meteredStep_cases h with ⟨e, pc, db, rfl, hm, rfl⟩ | ⟨e, pc, db, rfl, hm, rfl⟩ | hr
  · cases w with
    | finalized =>
      refine ⟨backfillRoom_step I.1 hm, .inr (gauge_backfill I.1 I.2 (fun n hn => ?_) hm)⟩
      rw [hn] at hm
      cases hm
      exact hk n (by simp [rolledBack, hn])
    | hot => cases ha
  · cases w with
    | finalized => cases ha
    | hot =>
      refine ⟨liveRoom_step I.1 hm, .inr (gauge_live I.1 I.2 (fun n hn => ?_) hm)⟩
      rw [hn] at hm
      cases hm
      exact hk n (by simp [rolledBack, hn])
  · cases w with
    | finalized => exact ⟨by rw [hr]; trivial, .inl (by rw [hr]; rfl)⟩
    | hot => exact ⟨by rw [hr]; trivial, .inl (by rw [hr]; rfl)⟩

theorem gaugeInv_inductive (w : Worker) :
    (runAlone engine start w (RollbackKeeps w)).Inductive (GaugeInv · w) where
  init := by
    intro s hs
    rw [hs]
    cases w <;> exact ⟨trivial, .inl rfl⟩
  step := fun _ _ _ I hs => gaugeInv_step I hs.1.1 hs.1.2 hs.2

theorem GaugeInv.follows {w : Worker} {s : Metered} (I : GaugeInv s w) (ht : AtTop s.sys w) :
    s.metrics.checkpoint w = laneCheckpoint s.sys.db w := by
  cases w with
  | finalized => exact I.2.resolve_left (by rw [ht]; nofun)
  | hot => exact I.2.resolve_left (by rw [ht]; nofun)

theorem rolledBack_eq_some {s : Sys} {l : Label} {n : Nat} (h : rolledBack s l = some n) :
    (l = .backfill .sql ∧ s.backfill = .rollback n) ∨ (l = .live .sql ∧ s.live = .rollback n) := by
  unfold rolledBack at h
  split at h
  · split at h
    · rename_i hb; cases h; exact .inl ⟨rfl, hb⟩
    · cases h
  · split at h
    · rename_i hl; cases h; exact .inr ⟨rfl, hl⟩
    · cases h
  · cases h

theorem meteredStep_rollback {s : Metered} {n : Nat} (h : s.sys.backfill = .rollback n) :
    meteredStep engine start s (.backfill .sql) =
      some ⟨{ s.sys with db := rollbackFromBlock s.sys.db n, backfill := .head }, s.metrics⟩ := by
  simp [meteredStep, step, meter, h, backfillStep, backfillMetrics]

theorem meteredStep_rollbackHot {s : Metered} {n : Nat} (h : s.sys.live = .rollback n) :
    meteredStep engine start s (.live .sql) =
      some ⟨{ s.sys with db := rollbackHotFromBlock s.sys.db n, live := .head }, s.metrics⟩ := by
  simp [meteredStep, step, meter, h, liveStep, liveMetrics, prunedBy]

/-- A rollback that moves the checkpoint leaves the gauge behind. -/
theorem gauge_stale {w : Worker} {s s' : Metered} {l : Label} (I : GaugeInv s w) (ha : Alone w l)
    (h : meteredStep engine start s l = some s') (hk : ¬ RollbackKeeps w s.sys l) :
    s'.metrics.checkpoint w ≠ laneCheckpoint s'.sys.db w := by
  simp only [RollbackKeeps, not_forall] at hk
  obtain ⟨n, hn, hne⟩ := hk
  rcases rolledBack_eq_some hn with ⟨rfl, hpc⟩ | ⟨rfl, hpc⟩
  · cases w with
    | hot => cases ha
    | finalized =>
      obtain ⟨hroom, hg⟩ := I
      rw [hpc] at hroom hg
      rw [meteredStep_rollback hpc] at h
      cases h
      have hto : asU64 (asI64 (n - 1)) = n - 1 := asU64_asI64 (Nat.lt_of_le_of_lt (n.sub_le 1) hroom)
      intro heq
      exact hne (((hg.resolve_left nofun).symm.trans (heq.trans hto)).symm)
  · cases w with
    | finalized => cases ha
    | hot =>
      obtain ⟨hroom, hg⟩ := I
      rw [hpc] at hroom hg
      rw [meteredStep_rollbackHot hpc] at h
      cases h
      have hto : asU64 (asI64 (n - 1)) = n - 1 := asU64_asI64 (Nat.lt_of_le_of_lt (n.sub_le 1) hroom)
      intro heq
      exact hne (((hg.resolve_left nofun).symm.trans (heq.trans hto)).symm)

end

/-- **Gauges.** In every run of one worker alone, with any heads,
reorganisations, failures and restarts, whose rollbacks all leave the lane's
checkpoint where it is, the gauge shows the persisted checkpoint at the end of
every iteration. The condition is exact: the next iteration's end agrees if and
only if the step to it meets the condition. -/
theorem gauge_follows (engine : BackfillEngine) (start : Nat) (w : Worker) (s : Metered)
    (h : (runAlone engine start w (RollbackKeeps w)).Reachable s) :
    (AtTop s.sys w → s.metrics.checkpoint w = laneCheckpoint s.sys.db w) ∧
    ∀ l s', Alone w l → meteredStep engine start s l = some s' → AtTop s'.sys w →
      (s'.metrics.checkpoint w = laneCheckpoint s'.sys.db w ↔ RollbackKeeps w s.sys l) := by
  have I := (gaugeInv_inductive w).reachable s h
  refine ⟨I.follows, fun l s' ha hs ht => ⟨fun heq => ?_, fun hk => ?_⟩⟩
  · by_contra hk
    exact gauge_stale I ha hs hk heq
  · exact (gaugeInv_step I ha hk hs).follows ht

/-! ## Runs -/

/-- Where a run of one worker ends at the top of its loop: its checkpoint and gauge. -/
theorem shown_of_exec {engine : BackfillEngine} {start : Nat} {w : Worker}
    {C : Sys → Label → Prop} [∀ s l, Decidable (C s l)] (ls : List Label) {c g : Nat}
    (h : ((LTS.exec (LTS.restrictFn (meteredStep engine start)
      fun s l => Alone w l ∧ C s.sys l) ⟨.init, .new⟩ ls).map fun s =>
        (laneCheckpoint s.sys.db w, s.metrics.checkpoint w, decide (AtTop s.sys w))) =
      some (c, g, true)) :
    ∃ s, (runAlone engine start w C).Reachable s ∧ AtTop s.sys w ∧
      laneCheckpoint s.sys.db w = c ∧ s.metrics.checkpoint w = g := by
  obtain ⟨s, hr, hb⟩ := LTS.reachable_of_exec (M := runAlone engine start w C)
    LTS.restrictFn_step rfl h
  simp only [Prod.mk.injEq, decide_eq_true_eq] at hb
  exact ⟨s, hr, hb.2.2, hb.1, hb.2.1⟩

/-- Blocks 1 and 2 are committed, the process is started again, block 3 follows. -/
def backfillRestarted : List Label :=
  List.flatten [[.backfill .sql, .backfill (.blockNumber 2), .backfill .sql, .backfill .sql],
    rangeLabels .backfill (.fork 3 9 0) none 1 2,
    [.crash, .backfill .sql, .backfill (.blockNumber 3), .backfill .sql],
    historyLabels (.fork 3 9 0) 2 2, [.backfill .sql],
    rangeLabels .backfill (.fork 3 9 0) none 3 3]

theorem gauge_follows_restarted : ∃ s,
    (runAlone (.ofDepths 0 1) 1 .finalized (RollbackKeeps .finalized)).Reachable s ∧
    laneCheckpoint s.sys.db .finalized = 3 ∧ s.metrics.checkpoint .finalized = 3 := by
  have hx : ∃ s, (runAlone (.ofDepths 0 1) 1 .finalized (RollbackKeeps .finalized)).Reachable s ∧
      AtTop s.sys .finalized ∧ laneCheckpoint s.sys.db .finalized = 3 ∧
      s.metrics.checkpoint .finalized = 3 :=
    shown_of_exec backfillRestarted (by decide +kernel)
  obtain ⟨s, hr, ht, hc, -⟩ := hx
  exact ⟨s, hr, hc, ((gauge_follows _ _ _ s hr).1 ht).trans hc⟩

/-- Blocks 1 and 2 are cold, 2 is replaced, and `reconcile_finalized_history`
rolls it back. -/
def backfillRolledBack : List Label :=
  List.flatten [[.backfill .sql, .backfill (.blockNumber 2), .backfill .sql, .backfill .sql],
    rangeLabels .backfill (.fork 3 9 0) none 1 2,
    [.backfill (.blockNumber 2), .backfill .sql],
    historyLabels (.fork 3 2 1) 1 2, [.backfill .sql]]

/-- The same in the hot lane, by `reconcile_hot_history`. -/
def liveRolledBack : List Label :=
  List.flatten [[.live .sql], liveTurn 2 2, rangeLabels .live (.fork 2 9 0) none 1 2,
    [.live (.blockNumber 2), .live .sql, .live (.blockNumber 2), .live .sql,
      .live (.block 1 (.ofByte 0) 0), .live .sql, .live (.block 2 (.ofByte 1) 0), .live .sql]]

/-- **Counterexample.** After the iteration that rolled block 2 back, the
checkpoint is 1 and the gauge shows 2, in either lane. -/
theorem gauge_behind :
    (∃ s, (runAlone (.ofDepths 0 2) 1 .finalized fun _ _ => True).Reachable s ∧
      AtTop s.sys .finalized ∧ laneCheckpoint s.sys.db .finalized = 1 ∧
      s.metrics.checkpoint .finalized = 2) ∧
    ∃ s, (runAlone (.ofDepths 0 2) 1 .hot fun _ _ => True).Reachable s ∧
      AtTop s.sys .hot ∧ laneCheckpoint s.sys.db .hot = 1 ∧ s.metrics.checkpoint .hot = 2 :=
  ⟨shown_of_exec backfillRolledBack (by decide +kernel),
    shown_of_exec liveRolledBack (by decide +kernel)⟩

end EthIndexer.L4
