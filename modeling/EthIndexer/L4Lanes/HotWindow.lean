import Mathlib.Order.Interval.Finset.Basic
import Mathlib.Data.Int.Interval
import EthIndexer.L4Lanes.HotLane

/-!
# The hot window

`HotWindow w db`: the keys of `hot_indexed_blocks` lie in an interval of `w`
numbers. Nothing bounds them where they are inserted. What does is the prune at
the top of an iteration, after which no key is below the iteration's
`live_start_block` (`WindowPc`), and the plan, which ends a range at the head
`latest` and starts it above every stored key: at a commit all keys are in
`live_start_block..=latest` (`window_commit`). Between the two the other worker
only deletes. A head that shrinks moves `live_start_block` down and adds no key.

The bound is on live heads below 2^63; `hotWindow_broken_at_2_63` keeps one block
too many there.
-/
namespace EthIndexer.L4
open EthIndexer.L1 EthIndexer.L2 EthIndexer.L3

/-- `max(live_start_depth, hot_window_size, reorg_lookback, 1)`. -/
def hotWindowLength (engine : BackfillEngine) : Nat :=
  max (max (max engine.liveStartDepth engine.hotWindowSize) engine.reorgLookback) 1

/-- The keys lie in an interval of `w` numbers. -/
def Within (w : Nat) (keys : List Int64) : Prop :=
  ∃ a : Int, ∀ k ∈ keys, a ≤ k.toInt ∧ k.toInt < a + w

structure HotWindow (w : Nat) (db : Db) : Prop where
  within : Within w db.hot.keys
  count : db.hot.blocks.rows.length ≤ w

/-- Distinct numbers of an interval are at most its length. -/
theorem Within.length_le {w : Nat} {keys : List Int64} (h : Within w keys) (hn : keys.Nodup) :
    keys.length ≤ w := by
  obtain ⟨a, ha⟩ := h
  have hmap : (keys.map Int64.toInt).Nodup := hn.map fun _ _ he => Int64.toInt_inj.mp he
  have hsub : (keys.map Int64.toInt).toFinset ⊆ Finset.Ico a (a + w) := by
    intro i hi
    obtain ⟨k, hk, he⟩ := List.mem_map.mp (List.mem_toFinset.mp hi)
    rw [Finset.mem_Ico, ← he]
    exact ha k hk
  have hcard := Finset.card_le_card hsub
  rw [List.toFinset_card_of_nodup hmap, List.length_map, Int.card_Ico] at hcard
  omega

theorem Within.mono {w : Nat} {keys keys' : List Int64} (h : Within w keys)
    (hs : ∀ k ∈ keys', k ∈ keys) : Within w keys' := by
  obtain ⟨a, ha⟩ := h
  exact ⟨a, fun k hk => ha k (hs k hk)⟩

/-! ## The invariant -/

/-- The numbers from `n` on are all a lane has. -/
def HotFrom (db : Db) (n : Nat) : Prop := ∀ k ∈ db.hot.keys, (n : Int) ≤ k.toInt

/-- From the prune of an iteration to its commit no key is below its
`live_start_block`, unless the chain has not reached `start_block`. -/
def WindowPc (engine : BackfillEngine) (start : Nat) (db : Db) : LivePc → Prop
  | .historyHead latest | .historyRow latest _ _ | .history latest _ _ _ | .plan latest =>
    start ≤ latest → HotFrom db (engine.computeLiveStartBlock start latest)
  | .range first last latest _ =>
    last ≤ latest ∧ engine.computeLiveStartBlock start latest ≤ first ∧
      HotFrom db (engine.computeLiveStartBlock start latest)
  | .resume | .head | .prune _ | .rollback _ | .sleep _ => True

structure WindowInv (engine : BackfillEngine) (start : Nat) (s : Sys) : Prop where
  hot : HotLaneInv start s
  within : Within (hotWindowLength engine) s.db.hot.keys
  pc : WindowPc engine start s.db s.live

section
variable {engine : BackfillEngine} {start : Nat}

theorem windowPc_mono {db db' : Db} {pc : LivePc} (h : WindowPc engine start db pc)
    (hk : ∀ k ∈ db'.hot.keys, k ∈ db.hot.keys) : WindowPc engine start db' pc := by
  have hfrom : ∀ n, HotFrom db n → HotFrom db' n := fun n hn k hm => hn k (hk k hm)
  cases pc with
  | range first last latest pc => exact ⟨h.1, h.2.1, hfrom _ h.2.2⟩
  | historyHead _ | historyRow _ _ _ | history _ _ _ _ | plan _ => exact fun hs => hfrom _ (h hs)
  | _ => trivial

theorem windowPc_hotHistoryFrom {db : Db} {latest last n : Nat}
    (h : start ≤ latest → HotFrom db (engine.computeLiveStartBlock start latest)) :
    WindowPc engine start db (hotHistoryFrom latest last n) := by
  unfold hotHistoryFrom
  split <;> exact h

theorem hotFrom_prune {db : Db} {latest : Nat} (hlt : latest < 2 ^ 63) (hs : start ≤ latest) :
    HotFrom (pruneHotBeforeBlock db (engine.computeLiveStartBlock start latest))
      (engine.computeLiveStartBlock start latest) := by
  have hle : engine.computeLiveStartBlock start latest < 2 ^ 63 := by
    simp only [BackfillEngine.computeLiveStartBlock]
    omega
  exact fun k hk => ((Lane.mem_deleteRangeBefore hle).mp hk).2

/-- At a commit the keys are in `live_start_block..=latest`. -/
theorem window_commit {db : Db} {first last latest : Nat} (p : RangePayload first last)
    (hf : max start 1 ≤ first ∧ first ≤ last ∧ last < 2 ^ 63) (hb : HotBelow db first)
    (hl : last ≤ latest) (hw : HotFrom db (engine.computeLiveStartBlock start latest))
    (hfirst : engine.computeLiveStartBlock start latest ≤ first) :
    Within (hotWindowLength engine)
      (commitHotRange db p.transferRecords p.indexedBlocks last).1.hot.keys := by
  have hdepth : latest < engine.computeLiveStartBlock start latest + hotWindowLength engine := by
    simp only [BackfillEngine.computeLiveStartBlock, hotWindowLength]
    omega
  refine ⟨engine.computeLiveStartBlock start latest, fun k hk => ?_⟩
  rcases (p.mem_keys hf.2.2).mp hk with hk | hk
  · have := hw k hk
    have := hb k hk
    omega
  · omega

theorem windowInv_init : WindowInv engine start .init where
  hot := hotLaneInv_init start
  within := ⟨0, fun _ hk => by cases hk⟩
  pc := trivial

theorem windowInv_backfill {s : Sys} {e : Event} {pc : BackfillPc} {db : Db}
    (I : WindowInv engine start s) (hm : BackfillMove engine start s.db s.backfill e pc db) :
    WindowInv engine start { s with db := db, backfill := pc } := by
  have hkeys := hm.hot_keys
  exact ⟨hotLaneInv_backfill I.hot hm, I.within.mono hkeys, windowPc_mono I.pc hkeys⟩

theorem windowInv_live {s : Sys} {e : Event} {pc : LivePc} {db : Db} {w : Option Nat}
    (I : WindowInv engine start s) (hE : HeadFits (.live e))
    (hm : LiveMove engine start s.db s.live e pc db) :
    WindowInv engine start { s with db := db, live := pc, pruned := w } := by
  have hh' := hotLaneInv_live (w := w) I.hot hE hm
  obtain ⟨⟨-, hf, hb⟩, hw, hp⟩ := I
  generalize s.live = pc₀ at hm hf hb hp
  cases hm with
  | prune =>
    refine ⟨hh', hw.mono fun k hk => ?_, hotFrom_prune hf⟩
    exact (Lane.mem_keys_deleteNumbers.mp hk).1
  | rollback =>
    refine ⟨hh', hw.mono fun k hk => ?_, trivial⟩
    exact (Lane.mem_keys_deleteNumbers.mp hk).1
  | historyHead _ | absent _ | agree => exact ⟨hh', hw, windowPc_hotHistoryFrom hp⟩
  | stored _ => exact ⟨hh', hw, hp⟩
  | @planned latest last hle _ hlast =>
    have hfirst : engine.computeLiveStartBlock start latest ≤
        nextHotBlock engine start latest s.db := Nat.le_max_right _ _
    have hs := engine.le_computeLiveStartBlock start latest
    exact ⟨hh', hw, by omega, hfirst, hp (by omega)⟩
  | range _ => exact ⟨hh', hw, hp⟩
  | commit => exact ⟨hh', window_commit _ hf hb hp.1 hp.2.2 hp.2.1, trivial⟩
  | _ => exact ⟨hh', hw, trivial⟩

theorem windowInv_step {s s' : Sys} {l : Label} (I : WindowInv engine start s)
    (hE : LiveHeadFits l) (h : step engine start s l = some s') : WindowInv engine start s' := by
  rcases step_cases h with ⟨e, pc, db, rfl, hm, rfl⟩ | ⟨e, pc, db, rfl, hm, rfl⟩ | rfl
  · exact windowInv_backfill I hm
  · exact windowInv_live I hE hm
  · exact ⟨⟨I.hot.lane, trivial, trivial⟩, I.within, trivial⟩

theorem windowInv_inductive :
    (systemWith engine start LiveHeadFits).Inductive (WindowInv engine start) where
  init := by intro s hs; rw [hs]; exact windowInv_init
  step := fun _ _ _ I hs => windowInv_step I hs.1 hs.2

end

/-- **Hot window.** In every state reachable with live heads below 2^63, whatever
the heads, reorganisations, failures, restarts and the other worker do, the hot
lane has at most `max(live_start_depth, hot_window_size, reorg_lookback, 1)`
blocks, and they lie in an interval of that length. -/
theorem hot_window (engine : BackfillEngine) (start : Nat) (s : Sys)
    (h : (systemWith engine start LiveHeadFits).Reachable s) :
    HotWindow (hotWindowLength engine) s.db := by
  have hw := (windowInv_inductive.reachable s h).within
  have hlen := hw.length_le s.db.hot.blocks.nodup
  rw [Lane.keys, Table.keys, List.length_map] at hlen
  exact ⟨hw, hlen⟩

/-! ## Runs -/

/-- Blocks 1 and 2 are hot; the head jumps by two, shrinks by one and grows by two. -/
def jumpingHead : List Label :=
  List.flatten [[.live .sql], liveTurn 2 2, rangeLabels .live (.fork 9 9 0) none 1 2,
    liveTurn 4 2, rangeLabels .live (.fork 9 9 0) none 3 4,
    [.live (.blockNumber 3), .live .sql, .live (.blockNumber 3), .live .sql, .live .sql,
      .live (.block 3 (.ofByte 0) 0), .live .sql, .live .timer,
      .live (.blockNumber 5), .live .sql, .live (.blockNumber 5), .live .sql,
      .live (.block 4 (.ofByte 0) 0), .live .sql, .live .sql],
    rangeLabels .live (.fork 9 9 0) none 5 5]

theorem hot_window_jumping : ∃ s, (systemWith (.ofDepths 0 2) 1 LiveHeadFits).Reachable s ∧
    s.db.hot.keys = [4, 5] ∧ HotWindow 2 s.db := by
  have hx : ((LTS.exec (stepWith (.ofDepths 0 2) 1 fun _ => LiveHeadFits) .init jumpingHead).map
      fun s => s.db.hot.keys) = some [4, 5] := by decide +kernel
  obtain ⟨s, hr, hb⟩ := LTS.reachable_of_exec stepWith_step rfl hx
  exact ⟨s, hr, hb, hot_window _ _ s hr⟩

/-- The head moves from 2^63 - 1 to 2^63. -/
def headAt63 : List Label :=
  List.flatten [[.live .sql], liveTurn (2 ^ 63 - 1) 1,
    rangeLabels .live (.fork (2 ^ 63) (2 ^ 64) 0) none (2 ^ 63 - 1) (2 ^ 63 - 1),
    liveTurn (2 ^ 63) 1, rangeLabels .live (.fork (2 ^ 63) (2 ^ 64) 0) none (2 ^ 63) (2 ^ 63)]

/-- **Counterexample at 2^63.** `DELETE ... WHERE block_number < $1` gets the wrapped
number -2^63 and prunes nothing: a window of one block holds two. -/
theorem hotWindow_broken_at_2_63 : ∃ s, (system (.ofDepths 0 1) (2 ^ 63 - 1)).Reachable s ∧
    hotWindowLength (.ofDepths 0 1) = 1 ∧ s.db.hot.blocks.rows.length = 2 := by
  have hx : ((LTS.exec (step (.ofDepths 0 1) (2 ^ 63 - 1)) .init headAt63).map
      fun s => s.db.hot.blocks.rows.length) = some 2 := by decide +kernel
  obtain ⟨s, hr, hb⟩ := LTS.reachable_of_exec (M := system _ _) (fun _ _ _ h => h) rfl hx
  exact ⟨s, hr, by decide, hb⟩

end EthIndexer.L4
