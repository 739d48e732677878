import EthIndexer.L4Lanes.Settling

/-!
# Both workers come to rest: the rank

`settling_enabled`: short of `AtRest` some step is enabled. `settling_lowers`:
every step lowers `settlingRank`. `hybrid_settles` is the result.
-/
namespace EthIndexer.L4
open EthIndexer.L1 EthIndexer.L2 EthIndexer.L3

section
variable {engine : BackfillEngine} {start : Nat} {C : Chain} {db : Db} {s s' : Sys}

/-! ## Some step is enabled -/

theorem backfill_enabled (hC : C.height < 2 ^ 63) (I : SettlingInv engine start C s)
    (ha : ∀ latest, s.backfill ≠ .sleep latest) :
    ∃ e, (e.OnChain C engine.contractFilter ∧ e.AtHeight C ∧ e ≠ .timer) ∧
      (backfillStep engine start s.db s.backfill e).isSome := by
  have hsql : Event.OnChain C engine.contractFilter .sql ∧ Event.AtHeight C .sql ∧
      Event.sql ≠ .timer := ⟨trivial, trivial, by simp⟩
  obtain ⟨⟨h0, -, -, hcp⟩, -, hb, hpc, -⟩ := I
  have hck := getCheckpoint_eq h0
  generalize s.backfill = pc at ha hcp hpc
  cases pc with
  | resume | rollback n => exact ⟨.sql, hsql, rfl⟩
  | head =>
    refine ⟨.blockNumber C.height, ⟨trivial, rfl, by simp⟩, ?_⟩
    rw [backfillStep, if_pos (by omega)]
    rfl
  | checkpoint latest => exact ⟨.sql, hsql, by rw [backfillStep]; split <;> rfl⟩
  | history latest checkpoint n =>
    refine ⟨.block n (C.hash n) (C.timestamp n), ⟨⟨rfl, rfl⟩, ?_, by simp⟩, ?_⟩
    · obtain ⟨-, hc, -, hn⟩ := hcp
      show n ≤ C.height
      omega
    · rw [backfillStep, if_pos rfl]
      rfl
  | historyRow latest checkpoint n hash =>
    refine ⟨.sql, hsql, ?_⟩
    rw [backfillStep]
    split
    · split <;> rfl
    · rfl
  | plan latest =>
    refine ⟨.sql, hsql, ?_⟩
    rw [backfillStep]
    split
    · split <;> rfl
    · rfl
  | range first last latest pc =>
    obtain ⟨e, he, hm⟩ := range_enabled engine.contractFilter (getBlockHash s.db) hpc.2.2
      (hpc.1.1.trans (Nat.sub_le _ _))
    exact ⟨e, he, by rw [backfillStep, Option.isSome_map]; exact hm⟩
  | sleep latest => exact absurd rfl (ha latest)

theorem live_enabled (hC : C.height < 2 ^ 63) (I : SettlingInv engine start C s)
    (ha : ∀ latest, s.live ≠ .sleep latest) :
    ∃ e, (e.OnChain C engine.contractFilter ∧ e.AtHeight C ∧ e ≠ .timer) ∧
      (liveStep engine start s.db s.live e).isSome := by
  have hsql : Event.OnChain C engine.contractFilter .sql ∧ Event.AtHeight C .sql ∧
      Event.sql ≠ .timer := ⟨trivial, trivial, by simp⟩
  have hpc := I.live
  generalize s.live = pc at ha hpc
  cases pc with
  | resume | prune _ | rollback n => exact ⟨.sql, hsql, rfl⟩
  | head | historyHead _ =>
    refine ⟨.blockNumber C.height, ⟨trivial, rfl, by simp⟩, ?_⟩
    rw [liveStep, if_pos (by omega)]
    rfl
  | historyRow latest last n => exact ⟨.sql, hsql, by rw [liveStep]; split <;> rfl⟩
  | history latest last n stored =>
    refine ⟨.block n (C.hash n) (C.timestamp n), ⟨⟨rfl, rfl⟩, hpc.2.1.2, by simp⟩, ?_⟩
    rw [liveStep, if_pos rfl]
    split <;> rfl
  | plan latest =>
    refine ⟨.sql, hsql, ?_⟩
    rw [liveStep]
    split
    · split <;> rfl
    · rfl
  | range first last latest pc =>
    obtain ⟨e, he, hm⟩ := range_enabled engine.contractFilter (getHotBlockHash s.db) hpc.2.2
      hpc.1.1
    exact ⟨e, he, by rw [liveStep, Option.isSome_map]; exact hm⟩
  | sleep latest => exact absurd rfl (ha latest)

theorem due_of_ne_timer {e : Event} (h : e ≠ .timer) :
    Due engine start C s (.backfill e) ∧ Due engine start C s (.live e) := by
  cases e with
  | timer => exact absurd rfl h
  | _ => exact ⟨trivial, trivial⟩

/-- Where both sleep and neither is behind, they are at rest. -/
theorem SettlingInv.atRest {latest latest' : Nat} (I : SettlingInv engine start C s)
    (hC : C.height < 2 ^ 63) (hb : s.backfill = .sleep latest) (hl : s.live = .sleep latest')
    (hbehind : ¬ LiveBehind engine start C s.db) : AtRest engine start C s := by
  obtain ⟨⟨h0, hk, -, -⟩, -, -, hpc, hlive⟩ := I
  rw [hb] at hpc
  rw [hl] at hlive
  refine ⟨⟨⟨latest, hb⟩, latest', hl⟩, ⟨hpc.2, hbehind⟩, fun n hn hle => ?_, hpc.1, hlive⟩
  have hnext : (nextFinalizedBlock start s.db : Int) = _ := nextFinalizedBlock_eq h0
  have hup : engine.safeHead C.height < nextFinalizedBlock start s.db := Nat.lt_of_not_le hpc.2
  have hsafe : engine.safeHead C.height ≤ C.height := Nat.sub_le _ _
  rw [hk, toInt_asI64 (by omega)]
  omega

/-- **Enabled.** Short of rest some step is enabled. -/
theorem settling_enabled (hC : C.height < 2 ^ 63) (I : SettlingInv engine start C s)
    (hr : ¬ AtRest engine start C s) : ∃ l s', (settling engine start C).step s l s' := by
  by_cases hb : ∀ latest, s.backfill ≠ .sleep latest
  · obtain ⟨e, ⟨hon, hat, hne⟩, hsome⟩ := backfill_enabled hC I hb
    obtain ⟨m, hm⟩ := Option.isSome_iff_exists.mp hsome
    exact ⟨.backfill e, _, ⟨⟨hon, hat⟩, (due_of_ne_timer hne).1⟩,
      Option.map_eq_some_iff.mpr ⟨m, hm, rfl⟩⟩
  · by_cases hl : ∀ latest, s.live ≠ .sleep latest
    · obtain ⟨e, ⟨hon, hat, hne⟩, hsome⟩ := live_enabled hC I hl
      obtain ⟨m, hm⟩ := Option.isSome_iff_exists.mp hsome
      exact ⟨.live e, _, ⟨⟨hon, hat⟩, (due_of_ne_timer hne).2⟩,
        Option.map_eq_some_iff.mpr ⟨m, hm, rfl⟩⟩
    · simp only [ne_eq, not_forall, not_not] at hb hl
      obtain ⟨latest, hb⟩ := hb
      obtain ⟨latest', hl⟩ := hl
      by_cases hbehind : LiveBehind engine start C s.db
      · refine ⟨.live .timer, _, ⟨⟨trivial, trivial⟩, hbehind⟩,
          Option.map_eq_some_iff.mpr ⟨.goto .head s.db, ?_, rfl⟩⟩
        rw [hl]
        rfl
      · exact absurd (I.atRest hC hb hl hbehind) hr

/-! ## The rank -/

/-- The stale hot blocks the live worker may still roll back, one at a time. What
it holds of a block counts, not what the table holds by now. -/
def hotStale (C : Chain) (w : Nat) (db : Db) : LivePc → Nat
  | .history _ _ n stored =>
    if stored = (C.hash n).val then stale C db.hot w (C.height + 1) else stale C db.hot w n + 1
  | .rollback n => stale C db.hot w n + 1
  | _ => stale C db.hot w (C.height + 1)

/-- The blocks the backfill worker has to commit. -/
def coldTodo (engine : BackfillEngine) (start : Nat) (C : Chain) (db : Db) : Nat :=
  engine.safeHead C.height + 1 - nextFinalizedBlock start db

/-- The blocks the live worker has to commit; a range in flight counts by its end. -/
def hotTodo (engine : BackfillEngine) (start : Nat) (C : Chain) (db : Db) : LivePc → Nat
  | .range _ last _ _ => C.height + 1 - last
  | _ => C.height + 1 - nextHotBlock engine start C.height db

/-- More than a range or a pass takes. -/
def passRank (C : Chain) : Nat := 2 * (C.height + 1) + 4

/-- How far the backfill worker is from the end of its iteration. -/
def backfillPlace (C : Chain) : BackfillPc → Nat
  | .resume => 2 * passRank C + 4
  | .head => 2 * passRank C + 3
  | .checkpoint _ => 2 * passRank C + 2
  | .history _ _ n => 2 * (C.height + 1 - n) + passRank C + 1
  | .historyRow _ _ n _ => 2 * (C.height + 1 - n) + passRank C
  | .rollback _ | .plan _ => passRank C
  | .range _ _ _ pc => rangeRank pc
  | .sleep _ => 0

/-- The same for the live worker, which may have fallen behind in its sleep. -/
def livePlace (engine : BackfillEngine) (start : Nat) (C : Chain) (db : Db) : LivePc → Nat
  | .resume => 2 * passRank C + 5
  | .head => 2 * passRank C + 4
  | .prune _ => 2 * passRank C + 3
  | .historyHead _ => 2 * passRank C + 2
  | .historyRow _ _ n => 2 * (C.height + 1 - n) + passRank C + 1
  | .history _ _ n _ => 2 * (C.height + 1 - n) + passRank C
  | .rollback _ | .plan _ => passRank C
  | .range _ _ _ pc => rangeRank pc
  | .sleep _ =>
    if nextHotBlock engine start C.height db ≤ C.height then 2 * passRank C + 6 else 0

def settlingRank (engine : BackfillEngine) (start : Nat) (C : Chain) (s : Sys) :
    Nat × Nat × Nat × Nat :=
  (stale C s.db.cold start (C.height + 1), hotStale C (windowStart engine start C) s.db s.live,
    coldTodo engine start C s.db + hotTodo engine start C s.db s.live,
    backfillPlace C s.backfill + livePlace engine start C s.db s.live)

/-- Lexicographic order on the rank. -/
abbrev Lower : Nat × Nat × Nat × Nat → Nat × Nat × Nat × Nat → Prop :=
  Prod.Lex (· < ·) (Prod.Lex (· < ·) (Prod.Lex (· < ·) (· < ·)))

theorem lower_wf : WellFounded Lower :=
  (Prod.lex Nat.lt_wfRel (Prod.lex Nat.lt_wfRel (Prod.lex Nat.lt_wfRel Nat.lt_wfRel))).wf

theorem lower_place {a a' b b' c c' p p' : Nat} (ha : a' ≤ a) (hb : b' ≤ b) (hc : c' ≤ c)
    (hp : p' < p) : Lower (a', b', c', p') (a, b, c, p) :=
  lex_of_le ha (lex_of_le hb (lex_of_le hc hp))

theorem lower_todo {a a' b b' c c' p p' : Nat} (ha : a' ≤ a) (hb : b' ≤ b) (hc : c' < c) :
    Lower (a', b', c', p') (a, b, c, p) :=
  lex_of_le ha (lex_of_le hb (.left _ _ hc))

theorem lower_stale {a a' b b' c c' p p' : Nat} (ha : a' ≤ a) (hb : b' < b) :
    Lower (a', b', c', p') (a, b, c, p) :=
  lex_of_le ha (.left _ _ hb)

/-! ## The backfill worker lowers it -/

theorem hotStale_mono {w : Nat} {db' : Db} {pc : LivePc}
    (h : ∀ b, stale C db'.hot w b ≤ stale C db.hot w b) :
    hotStale C w db' pc ≤ hotStale C w db pc := by
  cases pc with
  | history _ _ n stored =>
    simp only [hotStale]
    split
    · exact h _
    · exact Nat.succ_le_succ (h n)
  | rollback n => exact Nat.succ_le_succ (h n)
  | _ => exact h _

/-- A committed batch moves the next block up. -/
theorem coldTodo_commit {first last : Nat} (hc : ColdInv start s) (hle : first ≤ last)
    (hlt : last < 2 ^ 63) (hf : (first : Int) = max (s.db.indexerCheckpoint.toInt + 1) start)
    (hs : last ≤ engine.safeHead C.height) (p : RangePayload first last) :
    coldTodo engine start C
        (commitFinalizedRange s.db p.transferRecords p.indexedBlocks first last).1 <
      coldTodo engine start C s.db := by
  have hnext : (nextFinalizedBlock start s.db : Int) = _ := nextFinalizedBlock_eq hc.nonneg
  have hto : (commitFinalizedRange s.db p.transferRecords p.indexedBlocks
    first last).1.indexerCheckpoint.toInt = last := toInt_asI64 hlt
  have hnext' : (nextFinalizedBlock start (commitFinalizedRange s.db p.transferRecords
    p.indexedBlocks first last).1 : Int) = _ := nextFinalizedBlock_eq (by omega)
  simp only [coldTodo]
  omega

theorem backfill_lowers {e : Event} {pc : BackfillPc} (hC : C.height < 2 ^ 63)
    (I : SettlingInv engine start C s) (hD : Due engine start C s (.backfill e))
    (hm : BackfillMove engine start s.db s.backfill e pc db) :
    Lower (settlingRank engine start C { s with db := db, backfill := pc })
      (settlingRank engine start C s) := by
  have hfresh := @cold_range_fresh start s
  obtain ⟨hcold, -, hb, hpc, -⟩ := I
  have hcp := hcold.pc
  have hck := getCheckpoint_eq hcold.nonneg
  unfold settlingRank
  dsimp only
  generalize hpc₀ : s.backfill = pc₀ at hm hcp hpc
  cases hm with
  | resume | head _ | revalidate _ | skip _ | fetched | caughtUp _ =>
    refine lower_place le_rfl le_rfl le_rfl (Nat.add_lt_add_right ?_ _)
    simp only [backfillPlace, passRank]
    omega
  | next _ _ | clean _ _ | mismatch _ =>
    obtain ⟨-, hc, -, hn⟩ := hcp
    refine lower_place le_rfl le_rfl le_rfl (Nat.add_lt_add_right ?_ _)
    simp only [backfillPlace]
    omega
  | @rollback n =>
    have hlt := s.db.indexerCheckpoint.toInt_lt
    have hdel := stale_deleteRangeFrom (C := C) (l := s.db.cold) (b := C.height + 1) hcp.1
      (by have := hcp.2; omega) (by omega) (by have := hcp.2; omega)
    have hcount := stale_succ_le (b := C.height + 1) hcp.1 (by have := hcp.2; omega) hpc
    exact .left _ _ (Nat.lt_of_le_of_lt hdel hcount)
  | @planned latest last hle _ hlast =>
    obtain ⟨rfl, -⟩ := hpc
    have hl : last ≤ C.height := by
      rw [hlast]; exact (Nat.min_le_right _ _).trans (Nat.sub_le _ _)
    have hr := rangeRank_le (enterBlocks (nextFinalizedBlock start s.db) last [])
    refine lower_place le_rfl le_rfl le_rfl (Nat.add_lt_add_right ?_ _)
    simp only [backfillPlace, passRank]
    omega
  | range hr =>
    exact lower_place le_rfl le_rfl le_rfl (Nat.add_lt_add_right (rangeRank_step hr) _)
  | reorg hr =>
    cases hr with
    | @reorg p _ _ _ _ hi hstored _ =>
      rw [hfresh hcold hpc₀ (p.block_mem hi)] at hstored
      cases hstored
  | @commit first last latest p =>
    obtain ⟨hle, hlt, hf⟩ := hcp
    have hins := fun b => stale_insertRange (C := C) (l := s.db.cold) (a := start) (b := b) p
      hpc.2.1.2 (by omega)
    have hhot : hotTodo engine start C (commitFinalizedRange s.db p.transferRecords p.indexedBlocks
        first last).1 s.live = hotTodo engine start C s.db s.live := by cases s.live <;> rfl
    refine lower_todo (hins _ (by omega)) (hotStale_mono fun b => stale_deleteNumbers _) ?_
    rw [hhot]
    exact Nat.add_lt_add_right (coldTodo_commit hcold hle hlt hf hpc.1.1 p) _
  | wake => exact absurd hD hpc.2

/-! ## The live worker lowers it -/

theorem hotStale_hotHistoryFrom {w a b n : Nat} :
    hotStale C w db (hotHistoryFrom a b n) = stale C db.hot w (C.height + 1) := by
  unfold hotHistoryFrom
  split <;> rfl

theorem hotTodo_hotHistoryFrom {a b n : Nat} : hotTodo engine start C db (hotHistoryFrom a b n) =
    C.height + 1 - nextHotBlock engine start C.height db := by
  unfold hotHistoryFrom
  split <;> rfl

theorem livePlace_hotHistoryFrom {a b n : Nat} :
    livePlace engine start C db (hotHistoryFrom a b n) ≤
      2 * (C.height + 1 - n) + passRank C + 1 := by
  unfold hotHistoryFrom
  split
  · exact Nat.le_refl _
  · simp only [livePlace]; omega

/-- After a hot commit the next block is above its range. -/
theorem hotTodo_commit {first last : Nat} (hl : last ≤ C.height) (hlt : last < 2 ^ 63)
    (p : RangePayload first last) :
    C.height + 1 - nextHotBlock engine start C.height
      (commitHotRange s.db p.transferRecords p.indexedBlocks last).1 < C.height + 1 - last := by
  have hck : getLiveCheckpoint
      (commitHotRange s.db p.transferRecords p.indexedBlocks last).1 = last :=
    asU64_asI64 (by omega)
  simp only [nextHotBlock, hck, saturatingAdd_eq (show last + 1 < 2 ^ 64 by omega)]
  omega

theorem live_lowers {e : Event} {pc : LivePc} {w : Option Nat} (hC : C.height < 2 ^ 63)
    (I : SettlingInv engine start C s) (hE : AnsweredBy C engine.contractFilter (.live e))
    (hD : Due engine start C s (.live e)) (hm : LiveMove engine start s.db s.live e pc db) :
    Lower (settlingRank engine start C { s with db := db, live := pc, pruned := w })
      (settlingRank engine start C s) := by
  have hfresh := @hot_range_fresh start s
  obtain ⟨hc, hi⟩ := hm.frame
  have hcold : coldTodo engine start C db = coldTodo engine start C s.db := by
    simp only [coldTodo, nextFinalizedBlock, getCheckpoint, hi]
  obtain ⟨-, hhot, -, -, hpc⟩ := I
  have hf := hhot.live
  unfold settlingRank
  dsimp only
  rw [hc, hcold]
  generalize hpc₀ : s.live = pc₀ at hm hf hpc
  cases hm with
  | resume | head _ =>
    refine lower_place le_rfl le_rfl le_rfl (Nat.add_lt_add_left ?_ _)
    simp only [livePlace]
    omega
  | @caughtUp latest hup =>
    obtain rfl : latest = C.height := hpc.1
    refine lower_place le_rfl le_rfl le_rfl (Nat.add_lt_add_left ?_ _)
    simp only [livePlace, if_neg (Nat.not_le_of_lt hup), passRank]
    omega
  | prune =>
    refine lower_place le_rfl (stale_deleteNumbers _) le_rfl (Nat.add_lt_add_left ?_ _)
    simp only [livePlace]
    omega
  | historyHead _ =>
    refine lower_place le_rfl (Nat.le_of_eq hotStale_hotHistoryFrom)
      (Nat.le_of_eq (congrArg _ hotTodo_hotHistoryFrom)) (Nat.add_lt_add_left ?_ _)
    refine Nat.lt_of_le_of_lt livePlace_hotHistoryFrom ?_
    simp only [livePlace, passRank]
    omega
  | @absent latest last n _ =>
    refine lower_place le_rfl (Nat.le_of_eq hotStale_hotHistoryFrom)
      (Nat.le_of_eq (congrArg _ hotTodo_hotHistoryFrom)) (Nat.add_lt_add_left ?_ _)
    refine Nat.lt_of_le_of_lt livePlace_hotHistoryFrom ?_
    have := hpc.2.1
    simp only [livePlace]
    omega
  | @stored latest last n stored hst =>
    refine lower_place le_rfl ?_ le_rfl (Nat.add_lt_add_left ?_ _)
    · simp only [hotStale]
      split
      · exact Nat.le_refl _
      · rename_i hne
        exact stale_succ_le hpc.2.1.1 (Nat.lt_succ_of_le hpc.2.1.2)
          (staleAt_iff.mpr ⟨stored, hst, hne⟩)
    · simp only [livePlace]
      omega
  | @agree latest last n hash _ =>
    have hhash : hash = C.hash n := hE.1.1
    refine lower_place le_rfl (Nat.le_of_eq ?_) (Nat.le_of_eq (congrArg _ hotTodo_hotHistoryFrom))
      (Nat.add_lt_add_left ?_ _)
    · rw [hotStale_hotHistoryFrom, hotStale, if_pos (by rw [hhash])]
    · refine Nat.lt_of_le_of_lt livePlace_hotHistoryFrom ?_
      have := hpc.2.1
      simp only [livePlace]
      omega
  | @mismatch latest last n stored hash _ hne =>
    have hhash : hash = C.hash n := hE.1.1
    refine lower_place le_rfl (Nat.le_of_eq ?_) le_rfl (Nat.add_lt_add_left ?_ _)
    · simp only [hotStale]
      rw [if_neg (by rw [← hhash]; exact hne)]
    · have := hpc.2.1
      simp only [livePlace]
      omega
  | @rollback n =>
    have hlt : n < 2 ^ 63 := hf
    refine lower_stale le_rfl (Nat.lt_succ_of_le ?_)
    exact stale_deleteRangeFrom hpc.1 (Nat.le_succ_of_le hpc.2) (by omega) hlt
  | @planned latest last hle _ hlast =>
    obtain rfl : latest = C.height := hpc.1
    have hl : last ≤ C.height := by rw [hlast]; exact Nat.min_le_right _ _
    have hfl : nextHotBlock engine start C.height s.db ≤ last := by
      rw [hlast, BLOCK_BATCH_SIZE]; omega
    have hr := rangeRank_le (enterBlocks (nextHotBlock engine start C.height s.db) last [])
    refine lower_place le_rfl le_rfl (Nat.add_le_add_left ?_ _) (Nat.add_lt_add_left ?_ _)
    · simp only [hotTodo]
      omega
    · simp only [livePlace, passRank]
      omega
  | range hr =>
    exact lower_place le_rfl le_rfl le_rfl (Nat.add_lt_add_left (rangeRank_step hr) _)
  | reorg hr =>
    cases hr with
    | @reorg p _ _ _ _ hi' hstored _ =>
      rw [hfresh hhot hpc₀ (p.block_mem hi')] at hstored
      cases hstored
  | @commit first last latest p =>
    have hins := stale_insertRange (C := C) (l := s.db.hot) (a := windowStart engine start C)
      (b := C.height + 1) p hpc.2.1.2 (by have := hf.2.2; omega) (by omega)
    exact lower_todo le_rfl hins (Nat.add_lt_add_left (hotTodo_commit hpc.1.1 hf.2.2 p) _)
  | @wake latest =>
    have hbehind : nextHotBlock engine start C.height s.db ≤ C.height := hD
    refine lower_place le_rfl le_rfl le_rfl (Nat.add_lt_add_left ?_ _)
    simp only [livePlace, if_pos hbehind]
    omega

/-! ## The result -/

theorem settling_lowers {l : Label} (hfit : BatchesFit C engine.contractFilter)
    (I : SettlingInv engine start C s)
    (h : (settling engine start C).step s l s') :
    Lower (settlingRank engine start C s') (settlingRank engine start C s) := by
  have hC := hfit.height
  rcases settling_cases hfit I h with ⟨e, pc, db, -, hD, hm, rfl⟩ | ⟨e, pc, db, hE, hD, hm, rfl⟩
  · exact backfill_lowers hC I hD hm
  · exact live_lowers hC I hE hD hm

/-- At rest nothing is enabled. -/
theorem atRest_stuck {l : Label} (hr : AtRest engine start C s)
    (h : (settling engine start C).step s l s') : False := by
  obtain ⟨⟨⟨latest, hb⟩, latest', hl⟩, ⟨hnb, hnl⟩, -⟩ := hr
  obtain ⟨⟨-, hD⟩, h⟩ := h
  cases l with
  | backfill e =>
    obtain ⟨m, hm, -⟩ := Option.map_eq_some_iff.mp h
    rw [hb] at hm
    cases e with
    | timer => exact hnb hD
    | _ => cases hm
  | live e =>
    obtain ⟨m, hm, -⟩ := Option.map_eq_some_iff.mp h
    rw [hl] at hm
    cases e with
    | timer => exact hnl hD
    | _ => cases hm
  | crash => exact hD

end

/-- A run comes to rest, with all that its steps keep. -/
theorem settles {engine : BackfillEngine} {start : Nat} {C : Chain} {J : Sys → Prop}
    (hs : start ≠ 0) (hfit : BatchesFit C engine.contractFilter)
    (hJ : ∀ s l s', J s → (settling engine start C).step s l s' → J s') {s : Sys}
    (I : SettlingInv engine start C s) (h : J s) :
    (settling engine start C).Inevitable (fun t => AtRest engine start C t ∧ J t) s :=
  (LTS.inevitable_of_rank (I := fun t => SettlingInv engine start C t ∧ J t) lower_wf
    (settlingRank engine start C)
    (fun t l t' I hstep => ⟨⟨settlingInv_step hs hfit I.1 hstep, hJ t l t' I.2 hstep⟩,
      settling_lowers hfit I.1 hstep⟩)
    (fun _ I hr => settling_enabled hfit.height I.1 hr) ⟨I, h⟩).mono fun _ hP => ⟨hP.2, hP.1.2⟩

/-- **Settling.** After any history of both workers, with a positive start, the
process is started again over a chain that is not below the finalized
checkpoint and whose batches can be committed: under every interleaving and
every order of answers it is bound to come to rest, and nothing else ends it. -/
theorem hybrid_settles (engine : BackfillEngine) (start : Nat) (hs : start ≠ 0) (s : Sys)
    (h : (systemWith engine start HeadFits).Reachable s) (C : Chain)
    (hfit : BatchesFit C engine.contractFilter)
    (hck : getCheckpoint s.db ≤ C.height) :
    (settling engine start C).Inevitable (AtRest engine start C) s.restart ∧
    ∀ ls t, (settling engine start C).Run s.restart ls t →
      ((∀ l t', ¬ (settling engine start C).step t l t') ↔ AtRest engine start C t) := by
  have I := settlingInv_restart (C := C) h hck
  have hkeep : ∀ t l t', SettlingInv engine start C t → (settling engine start C).step t l t' →
      SettlingInv engine start C t' := fun _ _ _ I hstep => settlingInv_step hs hfit I hstep
  refine ⟨(settles hs hfit hkeep I I).mono fun _ hP => hP.1, fun ls t hr => ?_⟩
  refine ⟨fun hstuck => ?_, fun hrest l t' hstep => atRest_stuck hrest hstep⟩
  by_contra hne
  obtain ⟨l, t', hstep⟩ := settling_enabled hfit.height (LTS.run_preserves hkeep hr I) hne
  exact hstuck l t' hstep

/-- Over the blocks `replaced` left, another chain from block 1 on. -/
theorem hybrid_settles_replaced : ∃ s, (systemWith (.ofDepths 0 1) 1 HeadFits).Reachable s ∧
    getBlockHash s.db 2 = some (B256.ofByte 1).val ∧
    (settling (.ofDepths 0 1) 1 (.fork 12 1 2)).Inevitable (AtRest (.ofDepths 0 1) 1 (.fork 12 1 2))
      s.restart := by
  have hx : ((LTS.exec (stepWith (.ofDepths 0 1) 1 fun _ => HeadFits) .init replaced).map
      fun s => (getBlockHash s.db 2, getCheckpoint s.db)) = some (some (B256.ofByte 1).val, 2) := by
    decide +kernel
  obtain ⟨s, hr, hb⟩ := LTS.reachable_of_exec stepWith_step rfl hx
  simp only [Prod.mk.injEq] at hb
  exact ⟨s, hr, hb.1, (hybrid_settles _ 1 (by decide) s hr (.fork 12 1 2)
    (batchesFit_fork (by decide)) (by rw [hb.2]; decide)).1⟩

end EthIndexer.L4
