import EthIndexer.L3Engine.RangeEnds
import EthIndexer.L4Lanes.HotCanonical
import EthIndexer.L4Lanes.Stale

/-!
# Both workers come to rest

Hybrid mode, started again over any database it can have left behind, with all
answers from one chain that is not below the finalized checkpoint. `settling` is
its steps in any interleaving and any order of answers; left out are crashes and
the wake-up of a worker that has nothing to do.

`hybrid_settles`: every such run ends, and only `AtRest`: both workers sleep and
are caught up, every block to the safe head is indexed, the finalized lookback
window and the checked part of the hot lane are on the chain. It takes a chain
all of whose batches can be committed (`BatchesFit`). A commit is a step of
`settling` only where its batch is `Committable`; `L6Calls.Limits` shows that these
are the batches that the statements commit when no call fails
(`commitFinalizedRange_ends`, `commitHotRange_ends`), and that any other batch fails
however often it is tried.

The rank that every step lowers is lexicographic: stale cold blocks, stale hot
blocks, blocks still to commit, position inside the iteration. The workers
disturb each other: a finalized rollback moves the live checkpoint either way and
empties the hot lane under a live worker that has read it. The first component
pays for the moved checkpoint; for the rest, what the live worker holds counts
and not what the table holds by then (`hotStale`, `hotTodo`).
-/
namespace EthIndexer.L4
open EthIndexer.L1 EthIndexer.L2 EthIndexer.L3

/-! ## The system -/

/-- A finalized block is still to be indexed. -/
def BackfillBehind (engine : BackfillEngine) (start : Nat) (C : Chain) (db : Db) : Prop :=
  nextFinalizedBlock start db ≤ engine.safeHead C.height

/-- A hot block is still to be indexed. -/
def LiveBehind (engine : BackfillEngine) (start : Nat) (C : Chain) (db : Db) : Prop :=
  nextHotBlock engine start C.height db ≤ C.height

/-- Neither a crash nor the wake-up of a worker that has nothing to do. -/
def Due (engine : BackfillEngine) (start : Nat) (C : Chain) (s : Sys) : Label → Prop
  | .crash => False
  | .backfill .timer => BackfillBehind engine start C s.db
  | .live .timer => LiveBehind engine start C s.db
  | _ => True

/-- Both workers on the answers of `C`. -/
def settling (engine : BackfillEngine) (start : Nat) (C : Chain) : LTS Sys Label :=
  (system engine start).restrict fun s l =>
    AnsweredBy C engine.contractFilter l ∧ Due engine start C s l

/-- The hot blocks of `a..b` are on `C`. -/
def HotOn (C : Chain) (a b : Nat) (db : Db) : Prop :=
  ∀ n h, a ≤ n → n < b → getHotBlockHash db n = some h → h = (C.hash n).val

/-- The blocks of the finalized lookback window below `b` are on `C`. -/
def WindowOn (engine : BackfillEngine) (start : Nat) (C : Chain) (b : Nat) (db : Db) : Prop :=
  ∀ n, engine.validationStart start (getCheckpoint db) ≤ n → n < b →
    getBlockHash db n = some (C.hash n).val

structure AtRest (engine : BackfillEngine) (start : Nat) (C : Chain) (s : Sys) : Prop where
  asleep : (∃ latest, s.backfill = .sleep latest) ∧ ∃ latest, s.live = .sleep latest
  caughtUp : ¬ BackfillBehind engine start C s.db ∧ ¬ LiveBehind engine start C s.db
  indexed : ∀ n, max start 1 ≤ n → n ≤ engine.safeHead C.height → asI64 n ∈ s.db.cold.keys
  window : WindowOn engine start C (getCheckpoint s.db + 1) s.db
  hot : HotOn C (windowStart engine start C) (C.height + 1) s.db

/-! ## The invariant -/

/-- What the backfill worker knows since the chain is fixed. -/
def BackfillSettling (engine : BackfillEngine) (start : Nat) (C : Chain) (db : Db) :
    BackfillPc → Prop
  | .resume | .head => True
  | .checkpoint latest => latest = C.height
  | .history latest _ n => latest = C.height ∧ WindowOn engine start C n db
  | .historyRow latest _ n hash =>
    latest = C.height ∧ WindowOn engine start C n db ∧ hash = C.hash n
  | .rollback n => staleAt C db.cold n = true
  | .plan latest => latest = C.height ∧ WindowOn engine start C (getCheckpoint db + 1) db
  | .range first last _ pc =>
    (last ≤ engine.safeHead C.height ∧ last < first + BLOCK_BATCH_SIZE) ∧
      RangeOn C engine.contractFilter pc ∧ Waiting pc
  | .sleep _ =>
    WindowOn engine start C (getCheckpoint db + 1) db ∧ ¬ BackfillBehind engine start C db

/-- What the live worker knows since then. -/
def LiveSettling (engine : BackfillEngine) (start : Nat) (C : Chain) (db : Db) : LivePc → Prop
  | .resume | .head => True
  | .prune latest | .historyHead latest => latest = C.height
  | .historyRow latest last n =>
    (latest = C.height ∧ last = C.height) ∧ (windowStart engine start C ≤ n ∧ n ≤ C.height) ∧
      HotOn C (windowStart engine start C) n db
  | .history latest last n stored =>
    (latest = C.height ∧ last = C.height) ∧ (windowStart engine start C ≤ n ∧ n ≤ C.height) ∧
      HotOn C (windowStart engine start C) n db ∧
      -- the other worker may have taken the block out, but none has put another in
      ∀ h, getHotBlockHash db n = some h → h = stored
  | .rollback n => windowStart engine start C ≤ n ∧ n ≤ C.height
  | .plan latest =>
    latest = C.height ∧ HotOn C (windowStart engine start C) (C.height + 1) db
  | .range first last _ pc =>
    (last ≤ C.height ∧ last < first + BLOCK_BATCH_SIZE) ∧
      RangeOn C engine.contractFilter pc ∧ Waiting pc
  | .sleep _ => HotOn C (windowStart engine start C) (C.height + 1) db

structure SettlingInv (engine : BackfillEngine) (start : Nat) (C : Chain) (s : Sys) : Prop where
  cold : ColdInv start s
  hot : HotLaneInv start s
  below : getCheckpoint s.db ≤ C.height
  backfill : BackfillSettling engine start C s.db s.backfill
  live : LiveSettling engine start C s.db s.live

section
variable {engine : BackfillEngine} {start : Nat} {C : Chain} {db db' : Db} {s s' : Sys}

theorem HotOn.mono {a b : Nat} (h : HotOn C a b db)
    (hm : ∀ n h, getHotBlockHash db' n = some h → getHotBlockHash db n = some h) :
    HotOn C a b db' :=
  fun n hash ha hb hs => h n hash ha hb (hm n hash hs)

/-- Passing a block that is absent, or on `C`. -/
theorem HotOn.succ {a n : Nat} (h : HotOn C a n db)
    (hn : ∀ h, getHotBlockHash db n = some h → h = (C.hash n).val) : HotOn C a (n + 1) db := by
  intro m hash ha hb hs
  by_cases hmn : m = n
  · subst hmn; exact hn hash hs
  · exact h m hash ha (by omega) hs

theorem LiveSettling.mono {pc : LivePc} (h : LiveSettling engine start C db pc)
    (hm : ∀ n h, getHotBlockHash db' n = some h → getHotBlockHash db n = some h) :
    LiveSettling engine start C db' pc := by
  cases pc with
  | historyRow _ _ _ => exact ⟨h.1, h.2.1, h.2.2.mono hm⟩
  | history _ _ n _ =>
    exact ⟨h.1, h.2.1, h.2.2.1.mono hm, fun hash hh => h.2.2.2 hash (hm n hash hh)⟩
  | plan _ => exact ⟨h.1, h.2.mono hm⟩
  | sleep _ => exact HotOn.mono h hm
  | _ => exact h

theorem liveSettling_hotHistoryFrom {n : Nat} (hw : windowStart engine start C ≤ n)
    (h : HotOn C (windowStart engine start C) n db) :
    LiveSettling engine start C db (hotHistoryFrom C.height C.height n) := by
  unfold hotHistoryFrom
  split
  · rename_i hn; exact ⟨⟨rfl, rfl⟩, ⟨hw, hn⟩, h⟩
  · exact ⟨rfl, fun m hash ha hb => h m hash ha (by omega)⟩

/-- The backfill worker only takes blocks out of the hot lane. -/
theorem hot_hash_backfill {pc pc' : BackfillPc} {e : Event}
    (h : BackfillMove engine start db pc e pc' db') :
    ∀ n h, getHotBlockHash db' n = some h → getHotBlockHash db n = some h := by
  cases h with
  | rollback | commit => exact fun n h hh => (Lane.getBlockHash_deleteNumbers.mp hh).1
  | _ => exact fun _ _ hh => hh

/-! ## No worker fails -/

theorem backfillStep_fail {pc : BackfillPc} {e : Event}
    (h : backfillStep engine start db pc e = some .fail) :
    (∃ latest, pc = .plan latest ∧ nextFinalizedBlock start db ≤ engine.safeHead latest ∧
      2 ^ 64 ≤ nextFinalizedBlock start db + BLOCK_BATCH_SIZE) ∨
    ∃ first last latest rpc, pc = .range first last latest rpc ∧
      RangeStep (getBlockHash db) first last rpc e .fail := by
  unfold backfillStep at h
  split at h
  · cases h
  · split at h <;> cases h
  · split at h <;> cases h
  · split at h <;> cases h
  · split at h
    · split at h <;> cases h
    · cases h
  · cases h
  · split at h
    · rename_i latest hle
      split at h
      · cases h
      · rename_i hov; exact .inl ⟨latest, rfl, hle, by omega⟩
    · cases h
  · rename_i first last latest rpc
    obtain ⟨m, hm, hf⟩ := Option.map_eq_some_iff.mp h
    cases m with
    | fail => exact .inr ⟨first, last, latest, rpc, rfl, rangeStep_cases hm⟩
    | _ => cases hf
  · cases h
  · cases h

theorem liveStep_fail {pc : LivePc} {e : Event} (h : liveStep engine start db pc e = some .fail) :
    (∃ latest, pc = .plan latest ∧ nextHotBlock engine start latest db ≤ latest ∧
      2 ^ 64 ≤ nextHotBlock engine start latest db + BLOCK_BATCH_SIZE) ∨
    ∃ first last latest rpc, pc = .range first last latest rpc ∧
      RangeStep (getHotBlockHash db) first last rpc e .fail := by
  unfold liveStep at h
  split at h
  · cases h
  · split at h <;> cases h
  · cases h
  · split at h <;> cases h
  · split at h <;> cases h
  · split at h
    · split at h <;> cases h
    · cases h
  · cases h
  · split at h
    · rename_i latest hle
      split at h
      · cases h
      · rename_i hov; exact .inl ⟨latest, rfl, hle, by omega⟩
    · cases h
  · rename_i first last latest rpc
    obtain ⟨m, hm, hf⟩ := Option.map_eq_some_iff.mp h
    cases m with
    | fail => exact .inr ⟨first, last, latest, rpc, rfl, rangeStep_cases hm⟩
    | _ => cases hf
  · cases h
  · cases h

theorem backfill_not_fail {e : Event} (hfit : BatchesFit C engine.contractFilter)
    (hpc : BackfillSettling engine start C s.db s.backfill)
    (hE : e.OnChain C engine.contractFilter) :
    backfillStep engine start s.db s.backfill e ≠ some .fail := by
  intro h
  have hC := hfit.height
  generalize s.backfill = pc at h hpc
  rcases backfillStep_fail h with ⟨latest, rfl, hle, hov⟩ | ⟨first, last, latest, rpc, rfl, hr⟩
  · obtain ⟨rfl, -⟩ := hpc
    simp only [BackfillEngine.safeHead, BLOCK_BATCH_SIZE] at hle hov
    omega
  · exact range_not_fail hfit (hpc.1.1.trans (Nat.sub_le _ _)) hpc.1.2 hpc.2.1 hE hr

theorem live_not_fail {e : Event} (hfit : BatchesFit C engine.contractFilter)
    (hpc : LiveSettling engine start C s.db s.live) (hE : e.OnChain C engine.contractFilter) :
    liveStep engine start s.db s.live e ≠ some .fail := by
  intro h
  have hC := hfit.height
  generalize s.live = pc at h hpc
  rcases liveStep_fail h with ⟨latest, rfl, hle, hov⟩ | ⟨first, last, latest, rpc, rfl, hr⟩
  · obtain ⟨rfl, -⟩ := hpc
    simp only [BLOCK_BATCH_SIZE] at hov
    omega
  · exact range_not_fail hfit hpc.1.1 hpc.1.2 hpc.2.1 hE hr

/-- A step is a move of one of the workers. -/
theorem settling_cases {l : Label} (hfit : BatchesFit C engine.contractFilter)
    (I : SettlingInv engine start C s)
    (h : (settling engine start C).step s l s') :
    (∃ e pc db, AnsweredBy C engine.contractFilter (.backfill e) ∧
      Due engine start C s (.backfill e) ∧ BackfillMove engine start s.db s.backfill e pc db ∧
      s' = { s with db := db, backfill := pc }) ∨
    (∃ e pc db, AnsweredBy C engine.contractFilter (.live e) ∧ Due engine start C s (.live e) ∧
      LiveMove engine start s.db s.live e pc db ∧
      s' = { s with db := db, live := pc, pruned := prunedBy engine start s.live s.pruned }) := by
  obtain ⟨⟨hE, hD⟩, h⟩ := h
  cases l with
  | backfill e =>
    obtain ⟨m, hm, hs⟩ := Option.map_eq_some_iff.mp h
    cases m with
    | goto pc db => exact .inl ⟨e, pc, db, hE, hD, backfillStep_cases hm, hs.symm⟩
    | fail => exact absurd hm (backfill_not_fail hfit I.backfill hE.1)
  | live e =>
    obtain ⟨m, hm, hs⟩ := Option.map_eq_some_iff.mp h
    cases m with
    | goto pc db => exact .inr ⟨e, pc, db, hE, hD, liveStep_cases hm, hs.symm⟩
    | fail => exact absurd hm (live_not_fail hfit I.live hE.1)
  | crash => exact absurd hD id

/-! ## The invariant is kept -/

/-- A planned range is one batch below the cap. -/
theorem planned_ends (first cap : Nat) : min (first + BLOCK_BATCH_SIZE - 1) cap ≤ cap ∧
    min (first + BLOCK_BATCH_SIZE - 1) cap < first + BLOCK_BATCH_SIZE := by
  simp only [BLOCK_BATCH_SIZE]
  omega

/-- With a positive start every block of a pass is stored. -/
theorem stored_of_keys {n : Nat} (hk : ColdKeys start db) (hs : start ≠ 0) (hn : start ≤ n)
    (hle : (n : Int) ≤ db.indexerCheckpoint.toInt) : ∃ h, getBlockHash db n = some h := by
  have := db.indexerCheckpoint.toInt_lt
  refine Option.ne_none_iff_exists'.mp fun hnone => ?_
  refine Lane.getBlockHash_eq_none.mp hnone ((hk _).mpr ?_)
  rw [toInt_asI64 (by omega)]
  omega

/-- A block of a range in flight is not stored. -/
theorem cold_range_fresh {first last latest n : Nat} {rpc : RangePc first last}
    (I : ColdInv start s) (hpc : s.backfill = .range first last latest rpc)
    (hn : first ≤ n ∧ n ≤ last) : getBlockHash s.db n = none := by
  obtain ⟨-, hk, -, hcp⟩ := I
  rw [hpc] at hcp
  exact Lane.getBlockHash_eq_none.mpr (planned_fresh hk hcp.2.1 hcp.2.2 hn)

theorem backfillSettling_move {e : Event} {pc : BackfillPc} (hs : start ≠ 0)
    (hC : C.height < 2 ^ 63) (I : SettlingInv engine start C s)
    (hE : AnsweredBy C engine.contractFilter (.backfill e))
    (hm : BackfillMove engine start s.db s.backfill e pc db) :
    BackfillSettling engine start C db pc ∧ getCheckpoint db ≤ C.height := by
  have hfresh := @cold_range_fresh start s
  obtain ⟨hcold, -, hb, hpc, -⟩ := I
  have hk := hcold.keys
  have hcp := hcold.pc
  have hck := getCheckpoint_eq hcold.nonneg
  have hlt := s.db.indexerCheckpoint.toInt_lt
  generalize hpc₀ : s.backfill = pc₀ at hm hcp hpc
  cases hm with
  | resume | wake => exact ⟨trivial, hb⟩
  | head _ => exact ⟨hE.2, hb⟩
  | revalidate _ => exact ⟨⟨hpc, fun m h1 h2 => by omega⟩, hb⟩
  | skip hlt' =>
    refine ⟨⟨hpc, fun m h1 h2 => ?_⟩, hb⟩
    have := engine.le_validationStart start (getCheckpoint s.db)
    omega
  | fetched => exact ⟨⟨hpc.1, hpc.2, hE.1.1⟩, hb⟩
  | @next latest checkpoint n hash hrow _ =>
    obtain ⟨hl, hw, rfl⟩ := hpc
    refine ⟨⟨hl, fun m h1 h2 => ?_⟩, hb⟩
    by_cases hmn : m = n
    · rw [hmn]; exact hrow
    · exact hw m h1 (by omega)
  | @clean latest checkpoint n hash hrow hge =>
    obtain ⟨hl, hw, rfl⟩ := hpc
    refine ⟨⟨hl, fun m h1 h2 => ?_⟩, hb⟩
    by_cases hmn : m = n
    · rw [hmn]; exact hrow
    · exact hw m h1 (by have := hcp.2; omega)
  | @mismatch latest checkpoint n hash hrow =>
    obtain ⟨-, -, rfl⟩ := hpc
    obtain ⟨-, hc, hsn, hn⟩ := hcp
    obtain ⟨h, hh⟩ := stored_of_keys hk hs hsn (by omega)
    refine ⟨staleAt_iff.mpr ⟨h, hh, fun he => hrow ?_⟩, hb⟩
    rw [hh, he]
  | @rollback n =>
    have hc : getCheckpoint (rollbackFromBlock s.db n) = n - 1 :=
      asU64_asI64 (by have := hcp.2; omega)
    exact ⟨trivial, by have := hcp.2; omega⟩
  | @planned latest last _ _ hlast =>
    obtain ⟨rfl, -⟩ := hpc
    refine ⟨⟨?_, rangeOn_enterBlocks fun _ hm => (by cases hm), waiting_enterBlocks _⟩, hb⟩
    rw [hlast]
    exact planned_ends _ _
  | caughtUp hlt' =>
    obtain ⟨rfl, hw⟩ := hpc
    exact ⟨⟨hw, by rw [BackfillBehind]; omega⟩, hb⟩
  | range hr => exact ⟨⟨hpc.1, rangeOn_step hpc.2.1 hE.1 hr, waiting_step hr⟩, hb⟩
  | reorg hr =>
    cases hr with
    | @reorg p _ _ _ _ hi hstored _ =>
      rw [hfresh hcold hpc₀ (p.block_mem hi)] at hstored
      cases hstored
  | @commit first last latest p =>
    have hsafe : last ≤ C.height := hpc.1.1.trans (Nat.sub_le _ _)
    exact ⟨trivial, by rw [getCheckpoint_commit p (by omega)]; exact hsafe⟩

/-- A block of a range in flight is not hot. -/
theorem hot_range_fresh {first last latest n : Nat} {rpc : RangePc first last}
    (I : HotLaneInv start s) (hpc : s.live = .range first last latest rpc)
    (hn : first ≤ n ∧ n ≤ last) : getHotBlockHash s.db n = none := by
  obtain ⟨-, hf, hr⟩ := I
  rw [hpc] at hf hr
  exact Lane.getBlockHash_eq_none.mpr (HotBelow.fresh hr hn.1 (Nat.lt_of_le_of_lt hn.2 hf.2.2))

theorem liveSettling_move {e : Event} {pc : LivePc}
    (I : SettlingInv engine start C s) (hE : AnsweredBy C engine.contractFilter (.live e))
    (hm : LiveMove engine start s.db s.live e pc db) : LiveSettling engine start C db pc := by
  have hfresh := @hot_range_fresh start s
  obtain ⟨-, hhot, -, -, hpc⟩ := I
  generalize hpc₀ : s.live = pc₀ at hm hpc
  cases hm with
  | resume | wake | rollback | commit => trivial
  | head _ => exact hE.2
  | prune => exact hpc
  | @historyHead latest last _ =>
    obtain rfl : latest = C.height := hpc
    obtain rfl : last = C.height := hE.2
    exact liveSettling_hotHistoryFrom (Nat.le_refl _) fun m hash h1 h2 => by
      simp only [windowStart, liveFloor] at h1; omega
  | @absent latest last n hnone =>
    obtain ⟨⟨rfl, rfl⟩, hn, hw⟩ := hpc
    refine liveSettling_hotHistoryFrom (Nat.le_succ_of_le hn.1) (hw.succ fun h hs => ?_)
    rw [hnone] at hs
    cases hs
  | stored hst => exact ⟨hpc.1, hpc.2.1, hpc.2.2, fun h hh => Option.some.inj (hh.symm.trans hst)⟩
  | @agree latest last n hash _ =>
    obtain ⟨⟨rfl, rfl⟩, hn, hw, hst⟩ := hpc
    refine liveSettling_hotHistoryFrom (Nat.le_succ_of_le hn.1) (hw.succ fun h hs => ?_)
    rw [hst h hs, hE.1.1]
  | mismatch _ => exact hpc.2.1
  | @planned latest last _ _ hlast =>
    obtain ⟨rfl, -⟩ := hpc
    refine ⟨?_, rangeOn_enterBlocks fun _ hm => (by cases hm), waiting_enterBlocks _⟩
    rw [hlast]
    exact planned_ends _ _
  | caughtUp _ => exact hpc.2
  | range hr => exact ⟨hpc.1, rangeOn_step hpc.2.1 hE.1 hr, waiting_step hr⟩
  | reorg hr =>
    cases hr with
    | @reorg p _ _ _ _ hi hstored _ =>
      rw [hfresh hhot hpc₀ (p.block_mem hi)] at hstored
      cases hstored

/-- A move of the live worker keeps the invariant, whatever the start. -/
theorem settlingInv_live {e : Event} {pc : LivePc} {w : Option Nat} (hC : C.height < 2 ^ 63)
    (I : SettlingInv engine start C s) (hE : AnsweredBy C engine.contractFilter (.live e))
    (hm : LiveMove engine start s.db s.live e pc db) :
    SettlingInv engine start C { s with db := db, live := pc, pruned := w } := by
  obtain ⟨hc, hi⟩ := hm.frame
  have hck : getCheckpoint db = getCheckpoint s.db := by simp only [getCheckpoint, hi]
  have hb := I.backfill
  refine ⟨coldInv_live I.cold hm, hotLaneInv_live I.hot (hE.headFits hC) hm, hck ▸ I.below, ?_,
    liveSettling_move I hE hm⟩
  revert hb
  cases s.backfill <;>
    simp only [BackfillSettling, WindowOn, BackfillBehind, nextFinalizedBlock, getBlockHash, hc,
      hck] <;> exact id

theorem settlingInv_step {l : Label} (hs : start ≠ 0)
    (hfit : BatchesFit C engine.contractFilter) (I : SettlingInv engine start C s)
    (h : (settling engine start C).step s l s') :
    SettlingInv engine start C s' := by
  have hC := hfit.height
  rcases settling_cases hfit I h with ⟨e, pc, db, hE, -, hm, rfl⟩ | ⟨e, pc, db, hE, -, hm, rfl⟩
  · obtain ⟨hb, hck⟩ := backfillSettling_move hs hC I hE hm
    exact ⟨coldInv_backfill I.cold (hE.headFits hC) hm, hotLaneInv_backfill I.hot hm, hck, hb,
      I.live.mono (hot_hash_backfill hm)⟩
  · exact settlingInv_live hC I hE hm

/-- After any history the process is started again. -/
theorem settlingInv_restart (h : (systemWith engine start HeadFits).Reachable s)
    (hck : getCheckpoint s.db ≤ C.height) : SettlingInv engine start C s.restart := by
  have hcold : (systemWith engine start HeadFits).Inductive (ColdInv start) :=
    { init := by intro s hs; rw [hs]; exact coldInv_init start
      step := fun _ _ _ I hs => coldInv_step I hs.1.backfill hs.2 }
  have hhot : (systemWith engine start HeadFits).Inductive (HotLaneInv start) :=
    { init := by intro s hs; rw [hs]; exact hotLaneInv_init start
      step := fun _ _ _ I hs => hotLaneInv_step I (liveHeadFits_of_headFits hs.1) hs.2 }
  have hc := hcold.reachable s h
  exact ⟨⟨hc.nonneg, hc.keys, hc.hashed, trivial⟩,
    ⟨(hhot.reachable s h).lane, trivial, trivial⟩, hck, trivial, trivial⟩

end
end EthIndexer.L4
