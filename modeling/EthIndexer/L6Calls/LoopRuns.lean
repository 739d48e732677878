import EthIndexer.L6Calls.Loops

/-!
# The loops as runs of the system

The small-step workers of `L3Engine.Worker` are the two loops taken apart; here
they are put together again. An iteration walks its worker from `head` to `head`
(`backfillIteration_walks`, `liveIteration_walks`), so a process of any number of
iterations, wherever it fails, is a run of the system from `resume` on the answers
it is given (`runBackfill_walks`, `runLive_walks`).
-/
namespace EthIndexer.L6
open EthIndexer.L1 EthIndexer.L2 EthIndexer.L3
open Program (Gets Walks)

/-! ## `run_backfill` -/

/-- One worker alone, on what the iterations `ps` are answered. -/
def offeredRuns (engine : BackfillEngine) (start : Nat) (worker : Event → Label)
    (ps : List Provider) : LTS Sys Label :=
  systemWith engine start (Given worker (Offered engine.contractFilter ps))

def BackfillAt (pc : BackfillPc) (s : Sys) : Prop := s.backfill = pc

/-- The loop of `reconcile_finalized_history` before block `n`. -/
def historyFrom (latest checkpoint n : Nat) : BackfillPc :=
  if n ≤ checkpoint then .history latest checkpoint n else .plan latest

section
variable {engine : BackfillEngine} {start : Nat} {ps : List Provider} {s : Sys} {p : Provider}

theorem backfill_gets {pc pc' : BackfillPc} {db' : Db} {e : Event} (hs : BackfillAt pc s)
    (he : Offered engine.contractFilter ps e)
    (h : backfillStep engine start s.db pc e = some (.goto pc' db')) :
    Gets (offeredRuns engine start .backfill ps) Sys.db s db' (BackfillAt pc') := by
  have hstep : (offeredRuns engine start .backfill ps).step s (.backfill e)
      { s with db := db', backfill := pc' } := by
    refine ⟨⟨e, rfl, he⟩, ?_⟩
    show step engine start s (.backfill e) = _
    have hb : s.backfill = pc := hs
    simp only [step, hb, h, Option.map_some]
  exact .step hstep rfl

theorem backfill_rangeWorker (first last latest : Nat) :
    RangeWorker (offeredRuns engine start .backfill ps) .cold (Offered engine.contractFilter ps)
      (fun pc => BackfillAt (.range first last latest pc)) fun n => BackfillAt (.rollback n) where
  goto pc e pc' s hs he h := by
    have hmove : rangeStep (L2.getBlockHash s.db) first last pc e = _ := h
    exact backfill_gets hs he (by simp only [backfillStep, hmove, Option.map_some])
  reorg pc e n s hs he h := by
    have hmove : rangeStep (L2.getBlockHash s.db) first last pc e = _ := h
    exact backfill_gets hs he (by simp only [backfillStep, hmove, Option.map_some])

theorem rollbackFromBlock_walks (n : Nat) : Walks (offeredRuns engine start .backfill ps) Sys.db
    (BackfillAt (.rollback n)) (rollbackFromBlock n) fun _ => BackfillAt .head :=
  .atomic (rollbackFromBlock_atomic n) fun _ _ _ hs hdb => hdb ▸ backfill_gets hs .sql rfl

theorem processFinalizedRange_walks (hp : p ∈ ps) (first last latest : Nat) :
    Walks (offeredRuns engine start .backfill ps) Sys.db
      (BackfillAt (.range first last latest (enterBlocks first last [])))
      (processFinalizedRange engine p.range first last) fun _ => BackfillAt .head := by
  refine (backfill_rangeWorker first last latest).processRange .sql
    (fun n hash timestamp hf => .block hp (.inr hf)) (fun ls hls => .logs hp hls)
    rollbackFromBlock_walks fun q => ?_
  refine .atomic (finalized_transactions.commitAtomic q) fun s _ db' hs hdb => ?_
  obtain ⟨hc, rfl⟩ := hdb
  exact backfill_gets hs .sql (by simp only [backfillStep, rangeStep, if_pos hc, Option.map_some])

/-- The pass over the history, from block `n` on. -/
theorem reconcileFinalizedBlocks_walks (hp : p ∈ ps) (latest checkpoint : Nat) {n d : Nat}
    (hd : checkpoint + 1 = n + d) :
    Walks (offeredRuns engine start .backfill ps) Sys.db (BackfillAt (historyFrom latest checkpoint n))
      (reconcileFinalizedBlocks p.history (List.range' n d))
      fun reconciled => BackfillAt (if reconciled then .head else .plan latest) := by
  induction d generalizing n with
  | zero =>
    rw [historyFrom, if_neg (by omega)]
    exact .pure fun _ hs => hs
  | succ d ih =>
    have ih := ih (n := n + 1) (by omega)
    have hhere : historyFrom latest checkpoint n = .history latest checkpoint n := if_pos (by omega)
    rw [hhere, List.range'_succ, reconcileFinalizedBlocks]
    -- the metadata of block `n`
    refine Walks.bind (T := fun m s => ∃ hash : B256, m.hash = hash.val ∧
      BackfillAt (.historyRow latest checkpoint n hash) s) (walks_answer fun m hm s hs => ?_)
      fun m => ?_
    · obtain ⟨hash, timestamp, hf, rfl⟩ := p.history.fetchBlockMetadata_ok.mp hm
      have hgo : backfillStep engine start s.db (.history latest checkpoint n)
          (.block n hash timestamp) = some (.goto (.historyRow latest checkpoint n hash) s.db) := by
        simp only [backfillStep, if_true]
      exact (backfill_gets hs (.block hp (.inl hf)) hgo).mono fun t _ ht => ⟨hash, rfl, ht⟩
    -- the hash stored for it
    refine Walks.bind (T := fun stored => BackfillAt (if stored = some m.hash then
      historyFrom latest checkpoint (n + 1) else .rollback n))
      (.reads (getBlockHashFromTable_reads n .cold) fun s hs => ?_) fun stored => ?_
    · obtain ⟨hash, hm, hs⟩ := hs
      rw [hm]
      refine backfill_gets hs .sql ?_
      have hrow : L2.getBlockHash s.db n = (LaneName.cold.get s.db).getBlockHash n := rfl
      simp only [backfillStep, historyFrom, hrow]
      split
      · by_cases hlt : n < checkpoint
        · rw [if_pos hlt, if_pos (show n + 1 ≤ checkpoint from hlt)]
        · rw [if_neg hlt, if_neg (show ¬ n + 1 ≤ checkpoint from hlt)]
      · rfl
    · cases stored with
      | none =>
        simp only [reduceCtorEq, if_false]
        exact (rollbackFromBlock_walks n).bind fun _ => .pure fun _ hs => hs
      | some stored =>
        by_cases he : stored = m.hash
        · simp only [he, ne_eq, not_true_eq_false, if_false, if_true]
          exact ih
        · simp only [ne_eq, he, not_false_eq_true, if_true, Option.some.injEq, if_false]
          exact (rollbackFromBlock_walks n).bind fun _ => .pure fun _ hs => hs

theorem finalizeNextRange_walks (hp : p ∈ ps) (latest : Nat) :
    Walks (offeredRuns engine start .backfill ps) Sys.db (BackfillAt (.plan latest))
      (finalizeNextRange engine start p latest) fun _ => BackfillAt .head := by
  refine Walks.bind (T := fun checkpoint s => BackfillAt (.plan latest) s ∧
    checkpoint = L2.getCheckpoint s.db) (.reads (.select _ _) fun s hs => ?_) fun checkpoint => ?_
  · exact ⟨[], s, .nil s, rfl, hs, rfl⟩
  dsimp only
  generalize hnext : max (saturatingAdd checkpoint 1) start = next
  have hn : ∀ s : Sys, checkpoint = L2.getCheckpoint s.db → nextFinalizedBlock start s.db = next :=
    fun s hc => by rw [nextFinalizedBlock, ← hc, hnext]
  split
  · rename_i hle
    split
    · rename_i hov
      refine (processFinalizedRange_walks hp next _ latest).pre fun s hs => ?_
      obtain ⟨hs, hc⟩ := hs
      have hn := hn s hc
      subst hn
      refine backfill_gets hs .sql ?_
      simp only [backfillStep, if_pos hle, if_pos hov]
    · exact .ofExcept fun _ h => by cases h
  · rename_i hgt
    refine Walks.pre (.pure fun _ hs => hs) fun s hs => ?_
    obtain ⟨hs, hc⟩ := hs
    have hsleep : Gets (offeredRuns engine start .backfill ps) Sys.db s s.db
        (BackfillAt (.sleep latest)) := by
      refine backfill_gets hs .sql ?_
      simp only [backfillStep, hn s hc, if_neg hgt]
    exact hsleep.trans fun t ht hsl => ht ▸ backfill_gets hsl .timer rfl

/-- **An iteration of `run_backfill`** is a walk from `head` to `head`. -/
theorem backfillIteration_walks (hp : p ∈ ps) :
    Walks (offeredRuns engine start .backfill ps) Sys.db (BackfillAt .head)
      (backfillIteration engine start p) fun _ => BackfillAt .head := by
  refine Walks.bind (T := fun latest => BackfillAt (.checkpoint latest.toNat))
    (walks_answer fun latest hl s hs => ?_) fun latest => ?_
  · refine backfill_gets hs (.head hp (.inl hl)) ?_
    simp only [backfillStep, if_pos latest.toNat_lt]
  refine Walks.bind (T := fun checkpoint => BackfillAt (if start ≤ checkpoint then
    .history latest.toNat checkpoint (engine.validationStart start checkpoint)
    else .plan latest.toNat)) (.reads (.select _ _) fun s hs => ?_) fun checkpoint => ?_
  · refine backfill_gets hs .sql ?_
    simp only [backfillStep]
    split <;> rfl
  refine Walks.bind (T := fun reconciled => BackfillAt (if reconciled then .head else
    .plan latest.toNat)) ?_ fun reconciled => ?_
  · unfold reconciledFinalized
    split
    · rename_i hle
      have hv := engine.validationStart_le hle
      have hhere : historyFrom latest.toNat checkpoint (engine.validationStart start checkpoint) =
          _ := if_pos hv
      rw [← hhere]
      exact reconcileFinalizedBlocks_walks hp latest.toNat checkpoint (by omega)
    · exact .pure fun _ hs => hs
  · cases reconciled with
    | true => exact .pure fun _ hs => hs
    | false => exact finalizeNextRange_walks hp latest.toNat

theorem backfillLoop_walks {qs : List Provider} (hq : ∀ p ∈ qs, p ∈ ps) :
    Walks (offeredRuns engine start .backfill ps) Sys.db (BackfillAt .head)
      (backfillLoop engine start qs) fun _ => BackfillAt .head := by
  induction qs with
  | nil => exact .pure fun _ hs => hs
  | cons p qs ih =>
    exact (backfillIteration_walks (hq p List.mem_cons_self)).bind fun _ =>
      ih fun q hm => hq q (List.mem_cons_of_mem _ hm)

theorem runBackfill_walks (engine : BackfillEngine) (start : Nat) (ps : List Provider) :
    Walks (offeredRuns engine start .backfill ps) Sys.db (BackfillAt .resume)
      (runBackfill engine start ps) fun _ => BackfillAt .head :=
  Walks.bind (.reads (.select _ _) fun _ hs => backfill_gets hs .sql rfl) fun _ =>
    backfillLoop_walks fun _ hp => hp

end

/-! ## `run_live` -/

def LiveAt (pc : LivePc) (s : Sys) : Prop := s.live = pc

section
variable {engine : BackfillEngine} {start : Nat} {ps : List Provider} {s : Sys} {p : Provider}

theorem live_gets {pc pc' : LivePc} {db' : Db} {e : Event} (hs : LiveAt pc s)
    (he : Offered engine.contractFilter ps e)
    (h : liveStep engine start s.db pc e = some (.goto pc' db')) :
    Gets (offeredRuns engine start .live ps) Sys.db s db' (LiveAt pc') := by
  have hstep : (offeredRuns engine start .live ps).step s (.live e)
      { s with db := db', live := pc', pruned := prunedBy engine start s.live s.pruned } := by
    refine ⟨⟨e, rfl, he⟩, ?_⟩
    show step engine start s (.live e) = _
    have hl : s.live = pc := hs
    simp only [step, hl, h, Option.map_some]
  exact .step hstep rfl

theorem live_rangeWorker (first last latest : Nat) :
    RangeWorker (offeredRuns engine start .live ps) .hot (Offered engine.contractFilter ps)
      (fun pc => LiveAt (.range first last latest pc)) fun n => LiveAt (.rollback n) where
  goto pc e pc' s hs he h := by
    have hmove : rangeStep (L2.getHotBlockHash s.db) first last pc e = _ := h
    exact live_gets hs he (by simp only [liveStep, hmove, Option.map_some])
  reorg pc e n s hs he h := by
    have hmove : rangeStep (L2.getHotBlockHash s.db) first last pc e = _ := h
    exact live_gets hs he (by simp only [liveStep, hmove, Option.map_some])

theorem rollbackHotFromBlock_walks (n : Nat) : Walks (offeredRuns engine start .live ps) Sys.db
    (LiveAt (.rollback n)) (rollbackHotFromBlock n) fun _ => LiveAt .head :=
  .atomic (rollbackHotFromBlock_atomic n) fun _ _ _ hs hdb => hdb ▸ live_gets hs .sql rfl

theorem processHotRange_walks (hp : p ∈ ps) (first last latest : Nat) :
    Walks (offeredRuns engine start .live ps) Sys.db
      (LiveAt (.range first last latest (enterBlocks first last [])))
      (processHotRange engine p.range first last) fun _ => LiveAt .head := by
  refine (live_rangeWorker first last latest).processRange .sql
    (fun n hash timestamp hf => .block hp (.inr hf)) (fun ls hls => .logs hp hls)
    rollbackHotFromBlock_walks fun q => ?_
  refine .atomic (hot_transactions.commitAtomic q) fun s _ db' hs hdb => ?_
  obtain ⟨hc, rfl⟩ := hdb
  exact live_gets hs .sql (by simp only [liveStep, rangeStep, if_pos hc, Option.map_some])

/-- The pass over the hot lane, from block `n` on: blocks it does not hold are
passed over, of the others the metadata is fetched. -/
theorem reconcileHotBlocks_walks (hp : p ∈ ps) (latest last : Nat) {n d : Nat}
    (hd : last + 1 - n = d) :
    Walks (offeredRuns engine start .live ps) Sys.db (LiveAt (hotHistoryFrom latest last n))
      (reconcileHotBlocks p.history (List.range' n d))
      fun reconciled => LiveAt (if reconciled then .head else .plan latest) := by
  induction d generalizing n with
  | zero =>
    rw [hotHistoryFrom, if_neg (by omega)]
    exact .pure fun _ hs => hs
  | succ d ih =>
    have ih := ih (n := n + 1) (by omega)
    have hhere : hotHistoryFrom latest last n = .historyRow latest last n := if_pos (by omega)
    rw [hhere, List.range'_succ, reconcileHotBlocks]
    -- the stored hash
    refine Walks.bind (T := fun stored => LiveAt (stored.elim (hotHistoryFrom latest last (n + 1))
      (.history latest last n)))
      (.reads (getBlockHashFromTable_reads n .hot) fun s hs => ?_) fun stored => ?_
    · refine live_gets hs .sql ?_
      have hrow : L2.getHotBlockHash s.db n = (LaneName.hot.get s.db).getBlockHash n := rfl
      simp only [liveStep, hrow]
      cases (LaneName.hot.get s.db).getBlockHash n <;> rfl
    cases stored with
    | none => exact ih
    | some stored =>
      -- the metadata of block `n`
      refine Walks.bind (T := fun m => LiveAt (if stored = m.hash then
        hotHistoryFrom latest last (n + 1) else .rollback n)) (walks_answer fun m hm s hs => ?_)
        fun m => ?_
      · have hs : LiveAt (.history latest last n stored) s := hs
        obtain ⟨hash, timestamp, hf, rfl⟩ := p.history.fetchBlockMetadata_ok.mp hm
        refine live_gets hs (.block hp (.inl hf)) ?_
        simp only [liveStep, if_true]
        split <;> rfl
      · by_cases he : stored = m.hash
        · simp only [he, ne_eq, not_true_eq_false, if_false, if_true]
          exact ih
        · simp only [ne_eq, he, not_false_eq_true, if_true, if_false]
          exact (rollbackHotFromBlock_walks n).bind fun _ => .pure fun _ hs => hs

theorem indexNextRange_walks (hp : p ∈ ps) (latest : Nat) :
    Walks (offeredRuns engine start .live ps) Sys.db (LiveAt (.plan latest))
      (indexNextRange engine (engine.computeLiveStartBlock start latest) p latest)
      fun _ => LiveAt .head := by
  refine Walks.bind (T := fun checkpoint s => LiveAt (.plan latest) s ∧
    checkpoint = L2.getLiveCheckpoint s.db) (.reads (.select _ _) fun s hs => ?_) fun checkpoint => ?_
  · exact ⟨[], s, .nil s, rfl, hs, rfl⟩
  dsimp only
  generalize hnext : max (saturatingAdd checkpoint 1) (engine.computeLiveStartBlock start latest) =
    next
  have hn : ∀ s : Sys, checkpoint = L2.getLiveCheckpoint s.db →
      nextHotBlock engine start latest s.db = next := fun s hc => by rw [nextHotBlock, ← hc, hnext]
  split
  · rename_i hle
    split
    · rename_i hov
      refine (processHotRange_walks hp next _ latest).pre fun s hs => ?_
      obtain ⟨hs, hc⟩ := hs
      have hn := hn s hc
      subst hn
      refine live_gets hs .sql ?_
      simp only [liveStep, if_pos hle, if_pos hov]
    · exact .ofExcept fun _ h => by cases h
  · rename_i hgt
    refine Walks.pre (.pure fun _ hs => hs) fun s hs => ?_
    obtain ⟨hs, hc⟩ := hs
    have hsleep : Gets (offeredRuns engine start .live ps) Sys.db s s.db
        (LiveAt (.sleep latest)) := by
      refine live_gets hs .sql ?_
      simp only [liveStep, hn s hc, if_neg hgt]
    exact hsleep.trans fun t ht hsl => ht ▸ live_gets hsl .timer rfl

/-- **An iteration of `run_live`** is a walk from `head` to `head`. -/
theorem liveIteration_walks (hp : p ∈ ps) :
    Walks (offeredRuns engine start .live ps) Sys.db (LiveAt .head) (liveIteration engine start p)
      fun _ => LiveAt .head := by
  refine Walks.bind (T := fun latest => LiveAt (.prune latest.toNat))
    (walks_answer fun latest hl s hs => ?_) fun latest => ?_
  · refine live_gets hs (.head hp (.inl hl)) ?_
    simp only [liveStep, if_pos latest.toNat_lt]
  refine Walks.bind (T := fun _ => LiveAt (.historyHead latest.toNat))
    (.atomic (pruneHotBeforeBlock_atomic _) fun s _ db' hs hdb => ?_) fun _ => ?_
  · exact hdb ▸ live_gets hs .sql rfl
  refine Walks.bind (T := fun reconciled => LiveAt (if reconciled then .head else
    .plan latest.toNat)) ?_ fun reconciled => ?_
  · refine Walks.bind (T := fun last => LiveAt (hotHistoryFrom latest.toNat last.toNat
      (engine.hotValidationStart (engine.computeLiveStartBlock start latest.toNat) last.toNat)))
      (walks_answer fun last hl s hs => ?_) fun last => ?_
    · refine live_gets hs (.head hp (.inr hl)) ?_
      simp only [liveStep, if_pos last.toNat_lt]
    · exact reconcileHotBlocks_walks hp _ _ rfl
  · cases reconciled with
    | true => exact .pure fun _ hs => hs
    | false => exact indexNextRange_walks hp latest.toNat

theorem liveLoop_walks {qs : List Provider} (hq : ∀ p ∈ qs, p ∈ ps) :
    Walks (offeredRuns engine start .live ps) Sys.db (LiveAt .head) (liveLoop engine start qs)
      fun _ => LiveAt .head := by
  induction qs with
  | nil => exact .pure fun _ hs => hs
  | cons p qs ih =>
    exact (liveIteration_walks (hq p List.mem_cons_self)).bind fun _ =>
      ih fun q hm => hq q (List.mem_cons_of_mem _ hm)

theorem runLive_walks (engine : BackfillEngine) (start : Nat) (ps : List Provider) :
    Walks (offeredRuns engine start .live ps) Sys.db (LiveAt .resume) (runLive engine start ps)
      fun _ => LiveAt .head :=
  Walks.bind (.reads (.select _ _) fun _ hs => live_gets hs .sql rfl) fun _ =>
    liveLoop_walks fun _ hp => hp

end
end EthIndexer.L6
