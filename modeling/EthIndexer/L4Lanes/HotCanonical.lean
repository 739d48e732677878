import EthIndexer.L3Engine.World
import EthIndexer.L4Lanes.Coverage
import EthIndexer.L4Lanes.HotLane

/-!
# Canonicity of the hot lane

In live mode, after any history, let the answers come from one chain `C` from
some loop head on. `HotCanonical C latest`: when the worker reaches its caught-up
branch, every hot block up to `latest` carries the hash of `C`.

`reconcile_hot_history` checks the window that ends at the head it is given. A
pass `Catches` when every stale hot block lies in that window;
`canonical_of_catches`: with passes that catch, the lane is canonical.

With a head that stays where it is the condition is one on the first state. A
hot block between `live_start_block` and the window is neither pruned nor
checked nor replaced (`fixedInv_step`), so the lane is canonical exactly when
those blocks were so at the start (`BelowWindow`), in particular when the hot
window is no longer than the lookback (`belowWindow_of_short`).
-/
namespace EthIndexer.L4
open EthIndexer.L1 EthIndexer.L2 EthIndexer.L3

def HotCanonical (C : Chain) (latest : Nat) (db : Db) : Prop :=
  ∀ n h, n ≤ latest → getHotBlockHash db n = some h → h = (C.hash n).val

/-- Every stale hot block up to `latest` lies in `first..=last`. -/
def StaleWithin (C : Chain) (latest first last : Nat) (db : Db) : Prop :=
  ∀ n h, n ≤ latest → getHotBlockHash db n = some h → h ≠ (C.hash n).val → first ≤ n ∧ n ≤ last

/-- `live_start_block` at the height of `C`. -/
def liveFloor (engine : BackfillEngine) (start : Nat) (C : Chain) : Nat :=
  engine.computeLiveStartBlock start C.height

/-- The first block `reconcile_hot_history` checks at the height of `C`. -/
def windowStart (engine : BackfillEngine) (start : Nat) (C : Chain) : Nat :=
  engine.hotValidationStart (liveFloor engine start C) C.height

/-- The hot blocks inside the hot window and below the checked one are on `C`. -/
def BelowWindow (engine : BackfillEngine) (start : Nat) (C : Chain) (db : Db) : Prop :=
  ∀ n h, liveFloor engine start C ≤ n → n < windowStart engine start C →
    getHotBlockHash db n = some h → h = (C.hash n).val

/-- A hot window no longer than the lookback leaves nothing below the checked one. -/
theorem belowWindow_of_short {engine : BackfillEngine} {start : Nat} {C : Chain} {db : Db}
    (h : max engine.liveStartDepth engine.hotWindowSize ≤ max engine.reorgLookback 1) :
    BelowWindow engine start C db := by
  intro n hash hl hw
  simp only [windowStart, liveFloor, BackfillEngine.hotValidationStart,
    BackfillEngine.computeLiveStartBlock] at hl hw
  omega

/-! ## Live mode -/

def LiveOnly : Label → Prop
  | .backfill _ => False
  | .live _ | .crash => True

instance : (l : Label) → Decidable (LiveOnly l)
  | .backfill _ => .isFalse id
  | .live _ | .crash => .isTrue trivial

/-- Live mode under any chain behaviour, with heads below 2^63. -/
def liveMode (engine : BackfillEngine) (start : Nat) : LTS Sys Label :=
  systemWith engine start fun l => HeadFits l ∧ LiveOnly l

/-- In this step no stale hot block up to the head lies outside of the window that
`reconcile_hot_history` is about to check. -/
def Catches (engine : BackfillEngine) (start : Nat) (C : Chain) (s : Sys) : Label → Prop
  | .live (.blockNumber last) =>
    match s.live with
    | .historyHead latest => StaleWithin C latest
        (engine.hotValidationStart (engine.computeLiveStartBlock start latest) last) last s.db
    | _ => True
  | _ => True

/-- Live mode on the answers of `C`, whatever heads they report, with passes that catch. -/
def catchingMode (engine : BackfillEngine) (start : Nat) (C : Chain) : LTS Sys Label :=
  (system engine start).restrict fun s l =>
    (OnChain C engine.contractFilter l ∧ LiveOnly l) ∧ Catches engine start C s l

/-- Live mode on the answers of `C` with its head at the height of `C`. -/
def liveModeOn (engine : BackfillEngine) (start : Nat) (C : Chain) : LTS Sys Label :=
  systemWith engine start fun l => AnsweredBy C engine.contractFilter l ∧ LiveOnly l

/-- The worker is at the head of its loop. -/
def LivePc.atHead : LivePc → Bool
  | .head => true
  | _ => false

/-- The worker is in its caught-up branch at this head. -/
def LivePc.caughtUpAt : LivePc → Option Nat
  | .sleep latest => some latest
  | _ => none

/-! ## Passes that catch -/

/-- What is stale is still ahead of the pass; past the pass nothing is. -/
def CaughtPc (C : Chain) (db : Db) : LivePc → Prop
  | .historyRow latest last n => StaleWithin C latest n last db
  | .history latest last n stored =>
    getHotBlockHash db n = some stored ∧ StaleWithin C latest n last db
  | .plan latest | .sleep latest => HotCanonical C latest db
  | _ => True

section
variable {engine : BackfillEngine} {start : Nat} {C : Chain} {db : Db} {s s' : Sys}

theorem caughtPc_hotHistoryFrom {latest last n : Nat} (h : StaleWithin C latest n last db) :
    CaughtPc C db (hotHistoryFrom latest last n) := by
  unfold hotHistoryFrom
  split
  · exact h
  · rename_i hgt
    intro m hash hm hs
    by_contra hne
    have := h m hash hm hs hne
    omega

/-- Passing a block that is absent, or on `C`, leaves the stale ones ahead. -/
theorem StaleWithin.succ {latest last n : Nat} (h : StaleWithin C latest n last db)
    (hn : ∀ h, getHotBlockHash db n = some h → h = (C.hash n).val) :
    StaleWithin C latest (n + 1) last db := by
  intro m hash hm hs hne
  have hb := h m hash hm hs hne
  by_cases hmn : m = n
  · subst hmn
    exact absurd (hn hash hs) hne
  · omega

theorem caughtPc_live {e : Event} {pc : LivePc} (hpc : CaughtPc C s.db s.live)
    (hE : OnChain C engine.contractFilter (.live e)) (hK : Catches engine start C s (.live e))
    (hm : LiveMove engine start s.db s.live e pc db) : CaughtPc C db pc := by
  generalize hpc₀ : s.live = pc₀ at hm hpc
  cases hm with
  | historyHead _ =>
    simp only [Catches, hpc₀] at hK
    exact caughtPc_hotHistoryFrom hK
  | absent hnone =>
    refine caughtPc_hotHistoryFrom (hpc.succ fun h hs => ?_)
    rw [hnone] at hs
    cases hs
  | stored hs => exact ⟨hs, hpc⟩
  | agree =>
    refine caughtPc_hotHistoryFrom (hpc.2.succ fun h hs => ?_)
    rw [hpc.1] at hs
    rw [← Option.some.inj hs, hE.1]
  | caughtUp _ => exact hpc
  | _ => trivial

theorem caughtPc_step {l : Label} (hpc : CaughtPc C s.db s.live)
    (h : (catchingMode engine start C).step s l s') : CaughtPc C s'.db s'.live := by
  obtain ⟨⟨⟨hE, hL⟩, hK⟩, h⟩ := h
  rcases step_cases h with ⟨e, pc, db, he, hm, hs⟩ | ⟨e, pc, db, he, hm, hs⟩ | hs
  · subst he
    exact absurd hL id
  · subst he hs
    exact caughtPc_live hpc hE hK hm
  · subst hs
    trivial

/-- From a loop head on, with passes that catch, the lane is canonical at every
caught-up branch. -/
theorem canonical_of_catches {ls : List Label} {latest : Nat} (hs : LivePc.atHead s.live = true)
    (hr : (catchingMode engine start C).Run s ls s')
    (hs' : LivePc.caughtUpAt s'.live = some latest) : HotCanonical C latest s'.db := by
  have h₀ : CaughtPc C s.db s.live := by
    generalize s.live = pc at hs
    cases pc with
    | head => trivial
    | _ => cases hs
  have hpc := LTS.run_preserves (I := fun t : Sys => CaughtPc C t.db t.live)
    (fun _ _ _ I h => caughtPc_step I h) hr h₀
  generalize s'.live = pc at hs' hpc
  cases pc with
  | sleep latest' =>
    cases hs'
    exact hpc
  | _ => cases hs'

end

/-! ## Any history -/

/-- The hot lane, above `start` and with a checkpoint that is a number. -/
structure HotInv (start : Nat) (s : Sys) : Prop where
  lane : HotLaneInv start s
  nonneg : 0 ≤ s.db.liveIndexerCheckpoint.toInt
  floor : ∀ k ∈ s.db.hot.keys, (start : Int) ≤ k.toInt

section
variable {engine : BackfillEngine} {start : Nat} {s : Sys}

theorem hotInv_init (start : Nat) : HotInv start .init where
  lane := hotLaneInv_init start
  nonneg := by decide
  floor := fun k hk => by cases hk

theorem hotInv_live {e : Event} {pc : LivePc} {db : Db} {w : Option Nat} (I : HotInv start s)
    (hE : HeadFits (.live e)) (hm : LiveMove engine start s.db s.live e pc db) :
    HotInv start { s with db := db, live := pc, pruned := w } := by
  have hlane := hotLaneInv_live (w := w) I.lane hE hm
  have hfits := I.lane.live
  obtain ⟨-, h0, hb⟩ := I
  generalize s.live = pc₀ at hm hfits
  cases hm with
  | prune => exact ⟨hlane, h0, fun k hk => hb k (Lane.mem_keys_deleteNumbers.mp hk).1⟩
  | rollback =>
    have hlt : _ < 2 ^ 63 := hfits
    exact ⟨hlane, asI64_nonneg (by omega), fun k hk => hb k (Lane.mem_keys_deleteNumbers.mp hk).1⟩
  | @commit first last latest p _ =>
    obtain ⟨hs, -, hlt⟩ := hfits
    refine ⟨hlane, asI64_nonneg hlt, fun k hk => ?_⟩
    rcases (p.mem_keys hlt).mp hk with hk | hk
    · exact hb k hk
    · omega
  | _ => exact ⟨hlane, h0, hb⟩

theorem hotInv_step {s' : Sys} {l : Label} (I : HotInv start s) (hE : HeadFits l) (hL : LiveOnly l)
    (h : step engine start s l = some s') : HotInv start s' := by
  rcases step_cases h with ⟨e, pc, db, rfl, hm, rfl⟩ | ⟨e, pc, db, rfl, hm, rfl⟩ | rfl
  · exact absurd hL id
  · exact hotInv_live I hE hm
  · exact ⟨hotLaneInv_step I.lane (liveHeadFits_of_headFits hE) h, I.nonneg, I.floor⟩

end

/-! ## A head that stays -/

/-- Everything hot is inside the hot window. -/
def Pruned (engine : BackfillEngine) (start : Nat) (C : Chain) (db : Db) : Prop :=
  ∀ k ∈ db.hot.keys, (liveFloor engine start C : Int) ≤ k.toInt

/-- What the live worker waits for since the loop head at which the chain was fixed. -/
def FixedPc (engine : BackfillEngine) (start : Nat) (C : Chain) (db : Db) : LivePc → Prop
  | .resume | .head => True
  | .prune latest | .plan latest | .sleep latest => latest = C.height
  | .historyHead latest => latest = C.height ∧ Pruned engine start C db
  | .historyRow latest _ n | .history latest _ n _ =>
    latest = C.height ∧ windowStart engine start C ≤ n
  | .rollback n => windowStart engine start C ≤ n
  | .range _ last _ pc => last ≤ C.height ∧ RangeOn C engine.contractFilter pc

/-- Below the checked window nothing is lost since `db₀`, and what is new is on `C`. -/
structure Untouched (engine : BackfillEngine) (start : Nat) (C : Chain) (db₀ db : Db) : Prop where
  kept : ∀ n h, liveFloor engine start C ≤ n → n < windowStart engine start C →
    getHotBlockHash db₀ n = some h → getHotBlockHash db n = some h
  fresh : ∀ n h, liveFloor engine start C ≤ n → n < windowStart engine start C →
    getHotBlockHash db n = some h → getHotBlockHash db₀ n = some h ∨ h = (C.hash n).val

structure FixedInv (engine : BackfillEngine) (start : Nat) (C : Chain) (db₀ : Db) (s : Sys) :
    Prop where
  hot : HotInv start s
  untouched : Untouched engine start C db₀ s.db
  pc : FixedPc engine start C s.db s.live

section
variable {engine : BackfillEngine} {start : Nat} {C : Chain} {db₀ db : Db} {s s' : Sys}

theorem windowStart_le (h : liveFloor engine start C < windowStart engine start C) :
    windowStart engine start C ≤ C.height := by
  simp only [windowStart, liveFloor, BackfillEngine.hotValidationStart,
    BackfillEngine.computeLiveStartBlock] at h ⊢
  omega

theorem fixedPc_hotHistoryFrom {last n : Nat} (hn : windowStart engine start C ≤ n) :
    FixedPc engine start C db (hotHistoryFrom C.height last n) := by
  unfold hotHistoryFrom
  split
  · exact ⟨rfl, hn⟩
  · rfl

/-- Nothing hot lies at or above a range in flight. -/
theorem HotInv.range_fresh {first last latest n : Nat} {pc : RangePc first last} {h : Bytes}
    (I : HotInv start s) (hl : s.live = .range first last latest pc) (hn : n < 2 ^ 63)
    (hs : getHotBlockHash s.db n = some h) : n < first := by
  have hr := I.lane.range
  rw [hl] at hr
  refine Nat.lt_of_not_le fun hle => ?_
  exact HotBelow.fresh hr hle hn (Table.key_mem (Lane.getBlockHash_eq_some.mp hs))

/-- The prune keeps what is at or above the floor. -/
theorem Untouched.prune (hC : C.height < 2 ^ 63) (hu : Untouched engine start C db₀ db) :
    Untouched engine start C db₀ (pruneHotBeforeBlock db (liveFloor engine start C)) := by
  have hw := @windowStart_le engine start C
  refine ⟨fun n h hn hnw hs => ?_, fun n h hn hnw hs => ?_⟩
  · have := hw (by omega)
    exact (Lane.getBlockHash_deleteRangeBefore (by omega) (by omega)).mpr
      ⟨hu.kept n h hn hnw hs, hn⟩
  · have := hw (by omega)
    have hs := (Lane.getBlockHash_deleteRangeBefore (by omega) (by omega)).mp hs
    exact hu.fresh n h hn hnw hs.1

/-- A rollback inside the window leaves what is below it. -/
theorem Untouched.rollback {r : Nat} (hr : windowStart engine start C ≤ r) (hr63 : r < 2 ^ 63)
    (hu : Untouched engine start C db₀ db) :
    Untouched engine start C db₀ (rollbackHotFromBlock db r) := by
  refine ⟨fun n h hn hnw hs => ?_, fun n h hn hnw hs => ?_⟩
  · exact (Lane.getBlockHash_deleteRangeFrom (by omega) hr63).mpr
      ⟨hu.kept n h hn hnw hs, by omega⟩
  · have hs := (Lane.getBlockHash_deleteRangeFrom (by omega) hr63).mp hs
    exact hu.fresh n h hn hnw hs.1

/-- A commit of blocks of `C`, above everything hot. -/
theorem Untouched.commit {first last : Nat} {p : RangePayload first last}
    (hblocks : p.indexedBlocks = Chain.blocks C first last) (hlast : last < 2 ^ 63)
    (hC : C.height < 2 ^ 63)
    (hfresh : ∀ n h, n < 2 ^ 63 → getHotBlockHash db n = some h → n < first)
    (hu : Untouched engine start C db₀ db) :
    Untouched engine start C db₀ (commitHotRange db p.transferRecords p.indexedBlocks last).1 := by
  have hw := @windowStart_le engine start C
  refine ⟨fun n h hn hnw hs => ?_, fun n h hn hnw hs => ?_⟩
  · have := hw (by omega)
    have hkept := hu.kept n h hn hnw hs
    have hnf := hfresh n h (by omega) hkept
    exact (p.getBlockHash_insertRange (by omega) (by omega)).mpr (.inr ⟨by omega, hkept⟩)
  · have := hw (by omega)
    rcases (p.getBlockHash_insertRange (by omega) (by omega)).mp hs with hb | ⟨-, hs⟩
    · rw [hblocks] at hb
      exact .inr (Chain.mem_blocks.mp hb).2
    · exact hu.fresh n h hn hnw hs

/-- The prune makes the hot window the floor. -/
theorem HotInv.pruned (hC : C.height < 2 ^ 63) (I : HotInv start s) :
    Pruned engine start C (pruneHotBeforeBlock s.db (liveFloor engine start C)) := by
  intro k hk
  by_cases hsmall : liveFloor engine start C < 2 ^ 63
  · exact ((Lane.mem_deleteRangeBefore hsmall).mp hk).2
  · -- then `start` does not fit a `BIGINT`, and nothing was ever hot
    have hk' := I.floor k (Lane.mem_keys_deleteNumbers.mp hk).1
    have := k.toInt_lt
    simp only [liveFloor, BackfillEngine.computeLiveStartBlock] at hsmall
    omega

theorem fixedInv_live {e : Event} {pc : LivePc} {w : Option Nat} (hC : C.height < 2 ^ 63)
    (I : FixedInv engine start C db₀ s) (hE : AnsweredBy C engine.contractFilter (.live e))
    (hm : LiveMove engine start s.db s.live e pc db) :
    FixedInv engine start C db₀ { s with db := db, live := pc, pruned := w } := by
  have hhot : HotInv start { s with db := db, live := pc, pruned := w } :=
    hotInv_live I.hot (hE.headFits hC) hm
  have hfresh := @HotInv.range_fresh start s
  have hfits := I.hot.lane.live
  obtain ⟨hI, hu, hpc⟩ := I
  generalize hpc₀ : s.live = pc₀ at hm hpc hfits
  cases hm with
  | resume | wake => exact ⟨hhot, hu, trivial⟩
  | head _ => exact ⟨hhot, hu, hE.2⟩
  | prune =>
    rename_i latest
    have hlatest : latest = C.height := hpc
    subst hlatest
    exact ⟨hhot, hu.prune hC, rfl, hI.pruned hC⟩
  | historyHead _ =>
    obtain ⟨hlatest, -⟩ := hpc
    have hlast : _ = C.height := hE.2
    subst hlatest hlast
    exact ⟨hhot, hu, fixedPc_hotHistoryFrom (Nat.le_refl _)⟩
  | absent _ | agree =>
    obtain ⟨hlatest, hn⟩ := hpc
    subst hlatest
    exact ⟨hhot, hu, fixedPc_hotHistoryFrom (Nat.le_succ_of_le hn)⟩
  | stored _ => exact ⟨hhot, hu, hpc⟩
  | mismatch _ => exact ⟨hhot, hu, hpc.2⟩
  | rollback => exact ⟨hhot, hu.rollback hpc hfits, trivial⟩
  | planned hle hov hlast =>
    have hlatest : _ = C.height := hpc
    exact ⟨hhot, hu, by omega, rangeOn_enterBlocks fun m hm => absurd hm List.not_mem_nil⟩
  | caughtUp _ => exact ⟨hhot, hu, hpc⟩
  | range hr => exact ⟨hhot, hu, hpc.1, rangeOn_step hpc.2 hE.1 hr⟩
  | reorg hr =>
    cases hr with
    | @reorg p _ _ _ _ hi hstored _ =>
      have hn := p.block_mem hi
      have := hfresh hI hpc₀ (by have := hpc.1; omega) hstored
      omega
  | commit _ =>
    obtain ⟨hlast, -, hblocks⟩ := hpc
    obtain ⟨-, hle, hlt⟩ := hfits
    exact ⟨hhot, hu.commit hblocks hlt hC fun _ _ => hfresh hI hpc₀, trivial⟩

theorem fixedInv_step {l : Label} (hC : C.height < 2 ^ 63) (I : FixedInv engine start C db₀ s)
    (h : (liveModeOn engine start C).step s l s') : FixedInv engine start C db₀ s' := by
  obtain ⟨⟨hE, hL⟩, h⟩ := h
  rcases step_cases h with ⟨e, pc, db, rfl, hm, rfl⟩ | ⟨e, pc, db, rfl, hm, rfl⟩ | rfl
  · exact absurd hL id
  · exact fixedInv_live hC I hE hm
  · exact ⟨hotInv_step I.hot (hE.headFits hC) hL h, I.untouched, trivial⟩

/-- Where the blocks below the window were on `C`, every pass catches. -/
theorem FixedInv.catches {l : Label} (I : FixedInv engine start C db₀ s)
    (hb : BelowWindow engine start C db₀) (hC : C.height < 2 ^ 63)
    (hE : AnsweredBy C engine.contractFilter l) : Catches engine start C s l := by
  unfold Catches
  split
  · rename_i last
    split
    · rename_i latest hl
      have hpc := I.pc
      rw [hl] at hpc
      obtain ⟨hlatest, hp⟩ := hpc
      have hlast : last = C.height := hE.2
      subst hlatest hlast
      intro n h hn hs hne
      refine ⟨Nat.le_of_not_lt fun hnw => hne ?_, hn⟩
      have hk := hp _ (Table.key_mem (Lane.getBlockHash_eq_some.mp hs))
      simp only [toInt_asI64 (show n < 2 ^ 63 by omega)] at hk
      rcases I.untouched.fresh n h (by omega) hnw hs with hs | hs
      · exact hb n h (by omega) hnw hs
      · exact hs
    · trivial
  · trivial

theorem fixedInv_atHead (h : (liveMode engine start).Reachable s)
    (hs : LivePc.atHead s.live = true) : FixedInv engine start C s.db s := by
  have hI : (liveMode engine start).Inductive (HotInv start) :=
    { init := by intro s hs; rw [hs]; exact hotInv_init start
      step := fun _ _ _ I hs => hotInv_step I hs.1.1 hs.1.2 hs.2 }
  refine ⟨hI.reachable s h, ⟨fun _ _ _ _ h => h, fun _ _ _ _ h => .inl h⟩, ?_⟩
  generalize s.live = pc at hs
  cases pc with
  | head => trivial
  | _ => cases hs

/-- Where the blocks below the window are on `C`, the run is one whose passes catch. -/
theorem catchingMode_of_belowWindow {ls : List Label} (hC : C.height < 2 ^ 63)
    (h : (liveMode engine start).Reachable s) (hs : LivePc.atHead s.live = true)
    (hb : BelowWindow engine start C s.db) (hr : (liveModeOn engine start C).Run s ls s') :
    (catchingMode engine start C).Run s ls s' :=
  LTS.restrict_run_mono (fun _ _ _ I hs => fixedInv_step hC I hs)
    (fun _ _ I hE => ⟨⟨hE.1.1, hE.2⟩, I.catches hb hC hE.1⟩) hr (fixedInv_atHead h hs)

/-- What was stale below the window is stale at the caught-up branch. -/
theorem belowWindow_of_canonical {ls : List Label} {latest : Nat} (hC : C.height < 2 ^ 63)
    (h : (liveMode engine start).Reachable s) (hs : LivePc.atHead s.live = true)
    (hr : (liveModeOn engine start C).Run s ls s')
    (hs' : LivePc.caughtUpAt s'.live = some latest) (hcan : HotCanonical C latest s'.db) :
    BelowWindow engine start C s.db := by
  obtain ⟨-, hu, hpc⟩ := LTS.run_preserves (I := FixedInv engine start C s.db)
    (fun _ _ _ I hs => fixedInv_step hC I hs) hr (fixedInv_atHead h hs)
  intro n hash hn hnw hst
  have := @windowStart_le engine start C (by omega)
  generalize s'.live = pc at hs' hpc
  cases pc with
  | sleep latest' =>
    have hlatest : latest' = C.height := hpc
    cases hs'
    exact hcan n hash (by omega) (hu.kept n hash hn hnw hst)
  | _ => cases hs'

end

/-! ## The result -/

/-- **Canonicity.** From any loop head on, on the answers of one chain, the hot
lane is canonical at every caught-up branch if the passes catch; where the head
stays at the height of the chain it is so if and only if it was so below the
checked window at that loop head. -/
theorem hot_canonical (engine : BackfillEngine) (start : Nat) (C : Chain) (s s' : Sys)
    (ls : List Label) (latest : Nat) (hs : LivePc.atHead s.live = true)
    (hs' : LivePc.caughtUpAt s'.live = some latest) :
    ((catchingMode engine start C).Run s ls s' → HotCanonical C latest s'.db) ∧
      ((liveMode engine start).Reachable s → C.height < 2 ^ 63 →
        (liveModeOn engine start C).Run s ls s' →
        (HotCanonical C latest s'.db ↔ BelowWindow engine start C s.db)) :=
  ⟨fun hr => canonical_of_catches hs hr hs', fun h hC hr =>
    ⟨belowWindow_of_canonical hC h hs hr hs', fun hb =>
      canonical_of_catches hs (catchingMode_of_belowWindow hC h hs hb hr) hs'⟩⟩

/-! ## Runs -/

/-- Block 1 off one fork. -/
def firstBlock : List Label :=
  [.live .sql, .live (.blockNumber 1), .live .sql, .live (.blockNumber 1), .live .sql, .live .sql] ++
    rangeLabels .live (.fork 1 1 0) none 1 1

/-- The head is 2 on another fork, and the window is block 2 alone. -/
def secondBlock : List Label :=
  [.live (.blockNumber 2), .live .sql, .live (.blockNumber 2), .live .sql, .live .sql] ++
    rangeLabels .live (.fork 2 1 1) none 2 2 ++
    [.live (.blockNumber 2), .live .sql, .live (.blockNumber 2), .live .sql,
      .live (.block 2 (.ofByte 1) 0), .live .sql]

/-- The runs of `liveModeOn` as a step function. -/
def liveModeStep (engine : BackfillEngine) (start : Nat) (C : Chain) : Sys → Label → Option Sys :=
  stepWith engine start fun _ l => AnsweredBy C engine.contractFilter l ∧ LiveOnly l

/-- **Counterexample**: at the caught-up branch block 1 is off the other fork. -/
theorem hotCanonical_fails : ∃ A ∈ (forksAt 1).chains, ∃ B ∈ (forksAt 1).chains, ∃ s ls s',
    (liveModeOn wideWindow 1 A).Reachable s ∧ LivePc.atHead s.live = true ∧
      (liveModeOn wideWindow 1 B).Run s ls s' ∧ LivePc.caughtUpAt s'.live = some 2 ∧
      ¬ HotCanonical B 2 s'.db := by
  have hx : ((LTS.exec (liveModeStep wideWindow 1 (.fork 1 1 0)) .init firstBlock).bind fun s =>
      (LTS.exec (liveModeStep wideWindow 1 (.fork 2 1 1)) s secondBlock).map fun s' =>
        (LivePc.atHead s.live, LivePc.caughtUpAt s'.live,
          decide (getHotBlockHash s'.db 1 = some (B256.ofByte 0).val))) =
      some (true, some 2, true) := by decide +kernel
  obtain ⟨s, hs, hx⟩ := Option.bind_eq_some_iff.mp hx
  obtain ⟨s', hs', hx⟩ := Option.map_eq_some_iff.mp hx
  simp only [Prod.mk.injEq, decide_eq_true_eq] at hx
  obtain ⟨hhead, hup, h1⟩ := hx
  refine ⟨_, fork_mem (by decide), _, fork_mem (by decide), s, secondBlock, s',
    ⟨_, _, rfl, LTS.exec_run stepWith_step hs⟩, hhead, LTS.exec_run stepWith_step hs', hup,
    fun h => absurd (h 1 _ (by decide) h1) (by decide)⟩

/-- With a window of two, block 1 is found stale and indexed again. -/
def reindexed : List Label :=
  [.live (.blockNumber 2), .live .sql, .live (.blockNumber 2), .live .sql,
    .live (.block 1 (.ofByte 1) 0), .live .sql, .live (.blockNumber 2), .live .sql,
    .live (.blockNumber 2), .live .sql, .live .sql, .live .sql] ++
    rangeLabels .live (.fork 2 1 1) none 1 2 ++
    [.live (.blockNumber 2), .live .sql, .live (.blockNumber 2), .live .sql,
      .live (.block 1 (.ofByte 1) 0), .live .sql, .live (.block 2 (.ofByte 1) 0), .live .sql]

theorem hot_canonical_reindexed : ∃ s ls s', (liveMode (.ofDepths 0 2) 1).Reachable s ∧
    (liveModeOn (.ofDepths 0 2) 1 (.fork 2 1 1)).Run s ls s' ∧
    s.db.hot.keys = [1] ∧ s'.db.hot.keys = [1, 2] ∧
    HotCanonical (.fork 2 1 1) 2 s'.db ∧ BelowWindow (.ofDepths 0 2) 1 (.fork 2 1 1) s.db := by
  have hx : ((LTS.exec (stepWith (.ofDepths 0 2) 1 fun _ l => HeadFits l ∧ LiveOnly l) .init
      firstBlock).bind fun s =>
        (LTS.exec (liveModeStep (.ofDepths 0 2) 1 (.fork 2 1 1)) s reindexed).map fun s' =>
          (LivePc.atHead s.live, LivePc.caughtUpAt s'.live, s.db.hot.keys, s'.db.hot.keys)) =
      some (true, some 2, [1], [1, 2]) := by decide +kernel
  obtain ⟨s, hs, hx⟩ := Option.bind_eq_some_iff.mp hx
  obtain ⟨s', hs', hx⟩ := Option.map_eq_some_iff.mp hx
  simp only [Prod.mk.injEq] at hx
  obtain ⟨hhead, hup, hkeys, hkeys'⟩ := hx
  have hr : (liveMode (.ofDepths 0 2) 1).Reachable s :=
    ⟨_, _, rfl, LTS.exec_run stepWith_step hs⟩
  have hon : (liveModeOn (.ofDepths 0 2) 1 (.fork 2 1 1)).Run s reindexed s' :=
    LTS.exec_run stepWith_step hs'
  have hb : BelowWindow (.ofDepths 0 2) 1 (.fork 2 1 1) s.db := belowWindow_of_short (by decide)
  obtain ⟨hcatch, hiff⟩ := hot_canonical _ _ (.fork 2 1 1) s s' reindexed 2 hhead hup
  have hcan := hcatch (catchingMode_of_belowWindow (by decide) hr hhead hb hon)
  exact ⟨s, reindexed, s', hr, hon, hkeys, hkeys', hcan, (hiff hr (by decide) hon).mp hcan⟩

end EthIndexer.L4
