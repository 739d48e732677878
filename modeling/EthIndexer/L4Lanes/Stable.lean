import EthIndexer.L4Lanes.Coverage
import EthIndexer.L4Lanes.Finality
import EthIndexer.L4Lanes.Healing
import EthIndexer.L4Lanes.HotWindow
import EthIndexer.L4Lanes.Settles

/-!
# Both workers on a chain that does not reorganise

`stable C engine start`: hybrid mode with a positive start, every answer from
`C`, the reported heads anything up to the height of `C`, in any order, with
crashes.

Neither worker ever rolls back, and the hot transfers are the transfers of the
hot blocks (`HotExact`). So every hot write adjoins what is served, which
`Coverage` had to assume.

`stable_serves`: once both workers are caught up with the height, the two lanes
together hold the transfers of `max(start, 1)..=height` and nothing else, each
once unless a block is in both. The hot window has to be no shorter than the
confirmation depth: else the blocks between them are in no lane.
-/
namespace EthIndexer.L4
open EthIndexer.L1 EthIndexer.L2 EthIndexer.L3 EthIndexer.L3.Chain

/-- The head reported is not above the height of `C`. -/
def HeadUpTo (C : Chain) (l : Label) : Prop := ∀ n, l.head? = some n → n ≤ C.height

instance (C : Chain) (l : Label) : Decidable (HeadUpTo C l) :=
  match h : l.head? with
  | none => .isTrue fun n hn => by rw [h] at hn; cases hn
  | some m => decidable_of_iff (m ≤ C.height) (by simp [HeadUpTo, h])

def stable (C : Chain) (engine : BackfillEngine) (start : Nat) : LTS Sys Label :=
  systemWith engine start fun l => OnChain C engine.contractFilter l ∧ HeadUpTo C l

/-- The hot lane holds blocks of `C` from `max(start, 1)` on, and their transfers. -/
structure HotExact (C : Chain) (filter : Option Bytes) (start : Nat) (db : Db) : Prop where
  floor : ∀ k ∈ db.hot.keys, ((max start 1 : Nat) : Int) ≤ k.toInt
  blocks : ∀ b ∈ db.hot.blocks.rows, LiesOn C b
  transfers : ∀ r, r ∈ db.hot.transfers.rows ↔
    r.blockNumber ∈ db.hot.keys ∧ r ∈ records C filter 0 C.height

/-! ## The records of a block -/

section
variable {C : Chain} {filter : Option Bytes} {a b c : Nat} {r : Erc20TransferRecord}

theorem mem_records_between (hbc : b ≤ c) (hc : c < 2 ^ 63) :
    r ∈ records C filter a b ↔
      r ∈ records C filter 0 c ∧ (a : Int) ≤ r.blockNumber.toInt ∧ r.blockNumber.toInt ≤ b := by
  constructor
  · intro h
    obtain ⟨n, hn, he, hr⟩ := mem_records.mp h
    refine ⟨mem_records.mpr ⟨n, ⟨Nat.zero_le n, hn.2.trans hbc⟩, he, hr⟩, ?_⟩
    rw [he, toInt_asI64 (by omega)]
    omega
  · intro ⟨h, ha, hb⟩
    obtain ⟨n, hn, he, hr⟩ := mem_records.mp h
    rw [he, toInt_asI64 (by omega)] at ha hb
    exact mem_records.mpr ⟨n, by omega, he, hr⟩

end

/-! ## The hot transactions -/

section
variable {C : Chain} {filter : Option Bytes} {start first last : Nat} {db : Db}

theorem HotExact.hash {n : Nat} {h : Bytes} (hx : HotExact C filter start db) (hn : n < 2 ^ 64)
    (hs : getHotBlockHash db n = some h) : h = (C.hash n).val := by
  have := hx.blocks _ (Lane.getBlockHash_eq_some.mp hs)
  simpa only [LiesOn, asU64_asI64 hn] using this

theorem hotExact_delete (hx : HotExact C filter start db) (p : Int64 → Bool) (cold : Lane)
    (checkpoint liveCheckpoint : Int64) :
    HotExact C filter start ⟨cold, db.hot.deleteNumbers p, checkpoint, liveCheckpoint⟩ where
  floor := fun k hk => hx.floor k (Lane.mem_keys_deleteNumbers.mp hk).1
  blocks := fun b hb => hx.blocks b (Lane.mem_blocks_deleteNumbers.mp hb).1
  transfers := by
    intro r
    simp only [Lane.mem_transfers_deleteNumbers, Lane.mem_keys_deleteNumbers, hx.transfers r]
    tauto

theorem hotExact_commit (hC : Indexed C) (hH : C.height < 2 ^ 63) (hx : HotExact C filter start db)
    (p : RangePayload first last) (hp : RangeOn C filter (.commit p)) (hl : last ≤ C.height)
    (hs : max start 1 ≤ first) (hb : HotBelow db first) :
    HotExact C filter start (commitHotRange db p.transferRecords p.indexedBlocks last).1 := by
  have hkeys : ∀ k, k ∈ (commitHotRange db p.transferRecords p.indexedBlocks last).1.hot.keys ↔
      k ∈ db.hot.keys ∨ ((first : Int) ≤ k.toInt ∧ k.toInt ≤ last) :=
    fun k => p.mem_keys (by omega)
  have hbacked : ∀ r ∈ db.hot.transfers.rows, r.blockNumber.toInt < first :=
    fun r hr => hb _ ((hx.transfers r).mp hr).1
  have hrange : ∀ r, r ∈ p.transferRecords ↔ r ∈ records C filter 0 C.height ∧
      (first : Int) ≤ r.blockNumber.toInt ∧ r.blockNumber.toInt ≤ last :=
    fun r => (hp.1.mem_iff).trans (mem_records_between hl hH)
  refine ⟨fun k hk => ?_, fun b hm => ?_, fun r => ?_⟩
  · rcases (hkeys k).mp hk with hk | hk
    · exact hx.floor k hk
    · omega
  · have hlt : ∀ n ∈ p.indexedBlocks.map Prod.fst, n < 2 ^ 64 := by
      intro n hn
      have := p.mem_numbers.mp hn
      omega
    rcases (Lane.mem_blocks_insertRange p.numbers_nodup hlt).mp hm with ⟨n, hn, he⟩ | ⟨hb, -⟩
    · rw [hp.2] at hn
      obtain ⟨hn, hh⟩ := mem_blocks.mp hn
      rw [LiesOn, he, asU64_asI64 (by omega), hh]
    · exact hx.blocks b hb
  · have hnd := (hp.1.map Erc20TransferRecord.key).nodup_iff.mpr
      (records_keys_nodup hC (Nat.lt_of_le_of_lt hl (by omega)))
    have hrows : (db.hot.transfers.insertAllIgnore p.transferRecords).rows =
        db.hot.transfers.rows ++ p.transferRecords := by
      refine Table.insertAllIgnore_fresh hnd fun r hr hk => ?_
      obtain ⟨r', hr', he⟩ := Table.mem_keys.mp hk
      have hnum : r'.blockNumber = r.blockNumber := congrArg (·.2.2) he
      have h1 := hbacked r' hr'
      have h2 := ((hrange r).mp hr).2.1
      rw [hnum] at h1
      omega
    show r ∈ (db.hot.transfers.insertAllIgnore p.transferRecords).rows ↔ _
    rw [hrows, List.mem_append, hx.transfers r, hrange r, hkeys]
    tauto

end

/-! ## The invariant -/

/-- What the live worker knows. `w` is the bound pruned so far: a range in flight
adjoins what is served. -/
def LiveStable (engine : BackfillEngine) (start : Nat) (C : Chain) (s : Sys) : LivePc → Prop
  | .resume | .head | .sleep _ => True
  | .prune latest => latest ≤ C.height
  | .historyHead latest | .historyRow latest _ _ | .plan latest =>
    latest ≤ C.height ∧ engine.computeLiveStartBlock start latest ≤ s.pruned.getD 0
  | .history latest _ n stored =>
    latest ≤ C.height ∧ engine.computeLiveStartBlock start latest ≤ s.pruned.getD 0 ∧
      stored = (C.hash n).val
  | .rollback _ => False
  | .range first last _ pc =>
    last ≤ C.height ∧ Adjoins s first ∧ RangeOn C engine.contractFilter pc

structure StableInv (engine : BackfillEngine) (start : Nat) (C : Chain) (s : Sys) : Prop where
  exact : ExactInv C engine.contractFilter start s
  below : getCheckpoint s.db ≤ engine.safeHead C.height
  tip : TipPc engine C.height s.backfill
  hotLane : HotLaneInv start s
  cover : CoverInv start s
  hot : HotExact C engine.contractFilter start s.db
  liveBelow : getLiveCheckpoint s.db ≤ C.height
  pruned : s.pruned.getD 0 ≤ engine.computeLiveStartBlock start C.height
  live : LiveStable engine start C s s.live

section
variable {engine : BackfillEngine} {start : Nat} {C : Chain} {s s' : Sys}

theorem computeLiveStartBlock_mono {a b : Nat} (h : a ≤ b) :
    engine.computeLiveStartBlock start a ≤ engine.computeLiveStartBlock start b := by
  simp only [BackfillEngine.computeLiveStartBlock]
  omega

theorem HeadUpTo.headFits {l : Label} (h : HeadUpTo C l) (hC : C.height < 2 ^ 63) : HeadFits l :=
  fun n hn => Nat.lt_of_le_of_lt (h n hn) hC

theorem stableInv_init : StableInv engine start C .init where
  exact := exactInv_init C _ start
  below := Nat.zero_le _
  tip := trivial
  hotLane := hotLaneInv_init start
  cover := coverInv_init start
  hot := ⟨fun _ hk => (by cases hk), fun _ hb => (by cases hb),
    fun _ => ⟨fun hr => (by cases hr), fun ⟨hk, _⟩ => (by cases hk)⟩⟩
  liveBelow := Nat.zero_le _
  pruned := Nat.zero_le _
  live := trivial

theorem liveStable_hotHistoryFrom {latest last n : Nat} (h : latest ≤ C.height)
    (hw : engine.computeLiveStartBlock start latest ≤ s.pruned.getD 0) :
    LiveStable engine start C s (hotHistoryFrom latest last n) := by
  unfold hotHistoryFrom
  split <;> exact ⟨h, hw⟩

/-- Every hot write adjoins: there are no rollbacks, and a range in flight does. -/
theorem StableInv.adjoins {l : Label} (I : StableInv engine start C s) : HotWriteAdjoins s l := by
  have hl := I.live
  intro a ha
  unfold hotWrite? at ha
  split at ha
  · rename_i first last latest p hpc
    rw [hpc] at hl
    cases ha
    exact hl.2.1
  · rename_i n hpc
    rw [hpc] at hl
    exact hl.elim
  · cases ha

/-- What the backfill worker does to the hot lane, to its checkpoint and to what is served. -/
theorem stable_backfill {e : Event} {pc : BackfillPc} {db : Db} (hs : start ≠ 0)
    (I : StableInv engine start C s) (hE : HeadUpTo C (.backfill e))
    (hm : BackfillMove engine start s.db s.backfill e pc db) :
    HotExact C engine.contractFilter start db ∧
      db.liveIndexerCheckpoint = s.db.liveIndexerCheckpoint ∧
      getCheckpoint s.db ≤ getCheckpoint db ∧ getCheckpoint db ≤ engine.safeHead C.height ∧
      TipPc engine C.height pc := by
  have htip : tipAfter C.height (.backfill e) = C.height := by
    unfold tipAfter
    split
    · rename_i latest he
      exact Nat.max_eq_left (hE latest (by rw [he]; rfl))
    · rfl
  obtain ⟨hmono, hle, ht⟩ := tip_backfill I.exact I.below I.tip hm
  rw [htip] at hle ht
  refine ⟨?_, ?_, hmono, hle, ht⟩
  all_goals
    have hpc := I.exact.pc
    generalize s.backfill = pc₀ at hm hpc
  · cases hm with
    | rollback => exact absurd hpc.1 hs
    | commit => exact hotExact_delete I.hot _ _ _ _
    | _ => exact I.hot
  · cases hm with
    | rollback => exact absurd hpc.1 hs
    | _ => rfl

/-- What the live worker keeps. -/
theorem stable_live {e : Event} {pc : LivePc} {db : Db} (hC : Indexed C) (hH : C.height < 2 ^ 63)
    (I : StableInv engine start C s) (hon : e.OnChain C engine.contractFilter)
    (hE : HeadUpTo C (.live e)) (hm : LiveMove engine start s.db s.live e pc db) :
    HotExact C engine.contractFilter start db ∧ getLiveCheckpoint db ≤ C.height ∧
      (prunedBy engine start s.live s.pruned).getD 0 ≤ engine.computeLiveStartBlock start C.height ∧
      LiveStable engine start C
        { s with db := db, live := pc, pruned := prunedBy engine start s.live s.pruned } pc := by
  have hl := I.live
  obtain ⟨-, -, -, ⟨-, hfits, habove⟩, -, hx, hck, hw, -⟩ := I
  generalize s.live = pc₀ at hm hl hfits habove
  cases hm with
  | resume | caughtUp _ | wake => exact ⟨hx, hck, hw, trivial⟩
  | rollback => exact hl.elim
  | head _ => exact ⟨hx, hck, hw, hE _ rfl⟩
  | @prune latest =>
    have hmono : engine.computeLiveStartBlock start latest ≤ _ := computeLiveStartBlock_mono hl
    exact ⟨hotExact_delete hx _ _ _ _, hck, Nat.max_le.mpr ⟨hw, hmono⟩, hl, Nat.le_max_right _ _⟩
  | historyHead _ | absent _ => exact ⟨hx, hck, hw, liveStable_hotHistoryFrom hl.1 hl.2⟩
  | agree => exact ⟨hx, hck, hw, liveStable_hotHistoryFrom hl.1 hl.2.1⟩
  | stored hs =>
    have hn : _ < 2 ^ 63 ∧ _ < 2 ^ 63 ∧ _ ≤ _ := hfits
    exact ⟨hx, hck, hw, hl.1, hl.2, hx.hash (by omega) hs⟩
  | mismatch hne => exact absurd (hl.2.2.trans (congrArg Subtype.val hon.1.symm)) hne
  | @planned latest last hle _ hlast =>
    have hlatest : last ≤ C.height := by
      have := hl.1
      omega
    refine ⟨hx, hck, hw, hlatest, ?_, rangeOn_enterBlocks fun _ hm => absurd hm List.not_mem_nil⟩
    have hlc : saturatingAdd (getLiveCheckpoint s.db) 1 = getLiveCheckpoint s.db + 1 :=
      saturatingAdd_eq (by omega)
    simp only [Adjoins, nextHotBlock, hlc, prunedBy]
    have := hl.2
    omega
  | range hr => exact ⟨hx, hck, hw, hl.1, hl.2.1, rangeOn_step hl.2.2 hon hr⟩
  | reorg hr =>
    cases hr with
    | @reorg p _ _ _ _ hi hstored _ =>
      have hb := p.block_mem hi
      have hlt := hfits.2.2
      have habs := HotBelow.fresh habove hb.1 (Nat.lt_of_le_of_lt hb.2 hlt)
      rw [show getHotBlockHash s.db _ = none from Lane.getBlockHash_eq_none.mpr habs] at hstored
      cases hstored
  | @commit first last latest p =>
    have hlc : getLiveCheckpoint (commitHotRange s.db p.transferRecords p.indexedBlocks last).1 =
        last := asU64_asI64 (by have := hl.1; omega)
    exact ⟨hotExact_commit hC hH hx p hl.2.2 hl.1 hfits.1 habove, hlc.trans_le hl.1, hw, trivial⟩

theorem stableInv_step {l : Label} (hs : start ≠ 0) (hC : Indexed C) (hH : C.height < 2 ^ 63)
    (I : StableInv engine start C s) (hon : OnChain C engine.contractFilter l)
    (hE : HeadUpTo C l) (h : step engine start s l = some s') : StableInv engine start C s' := by
  have hfit := hE.headFits hH
  have hx := exactInv_step hC I.exact hon h
  have hl := hotLaneInv_step I.hotLane (liveHeadFits_of_headFits hfit) h
  have hc := coverInv_step I.cover hfit I.adjoins h
  rcases step_cases h with ⟨e, pc, db, rfl, hm, rfl⟩ | ⟨e, pc, db, rfl, hm, rfl⟩ | rfl
  · obtain ⟨hhot, hlc, hmono, hle, ht⟩ := stable_backfill hs I hE hm
    have hlive : getLiveCheckpoint db = getLiveCheckpoint s.db := by
      simp only [getLiveCheckpoint, hlc]
    refine ⟨hx, hle, ht, hl, hc, hhot, hlive.trans_le I.liveBelow, I.pruned, ?_⟩
    have hlive' := I.live
    revert hlive'
    cases hpc : s.live with
    | range first last latest pc =>
      rintro ⟨h1, h2, h3⟩
      refine ⟨h1, ?_, h3⟩
      simp only [Adjoins, hlive] at h2 ⊢
      omega
    | _ => exact fun h => h
  · obtain ⟨hhot, hlive, hw, hpc⟩ := stable_live hC hH I hon hE hm
    obtain ⟨-, hi⟩ := hm.frame
    have hck : getCheckpoint db = getCheckpoint s.db := by simp only [getCheckpoint, hi]
    exact ⟨hx, hck.trans_le I.below, I.tip, hl, hc, hhot, hlive, hw, hpc⟩
  · exact ⟨hx, I.below, trivial, hl, hc, I.hot, I.liveBelow, I.pruned, trivial⟩

theorem stableInv_inductive (hs : start ≠ 0) (hC : Indexed C) (hH : C.height < 2 ^ 63) :
    (stable C engine start).Inductive (StableInv engine start C) where
  init := by intro s h; rw [h]; exact stableInv_init
  step := fun _ _ _ I h => stableInv_step hs hC hH I h.1.1 h.1.2 h.2

/-! ## What is served -/

/-- Both workers are caught up with the height. -/
def CaughtUp (engine : BackfillEngine) (start : Nat) (C : Chain) (db : Db) : Prop :=
  ¬ BackfillBehind engine start C db ∧ ¬ LiveBehind engine start C db

/-- No block is in both lanes. -/
def Apart (db : Db) : Prop := ∀ k ∈ db.cold.keys, k ∉ db.hot.keys

/-- The transfers the lanes hold are those of `max(start, 1)..=height`. -/
theorem StableInv.mem_served {r : Erc20TransferRecord} (hH : C.height < 2 ^ 63)
    (hw : engine.confirmationDepth ≤ hotWindowLength engine) (I : StableInv engine start C s)
    (hup : CaughtUp engine start C s.db) :
    r ∈ s.db.cold.transfers.rows ∨ r ∈ s.db.hot.transfers.rows ↔
      r ∈ records C engine.contractFilter (max start 1) C.height := by
  have hsafe : engine.safeHead C.height ≤ C.height := Nat.sub_le _ _
  have hck := I.below
  rw [I.exact.exact.transfers.mem_iff, mem_records_between (hck.trans hsafe) hH,
    mem_records_between (a := max start 1) (b := C.height) le_rfl hH, I.hot.transfers r]
  constructor
  · rintro (⟨hr, h1, h2⟩ | ⟨hk, hr⟩)
    · exact ⟨hr, h1, by omega⟩
    · obtain ⟨n, hn, he, -⟩ := mem_records.mp hr
      refine ⟨hr, I.hot.floor _ hk, ?_⟩
      rw [he, toInt_asI64 (by omega)]
      omega
  · intro ⟨hr, h1, h2⟩
    obtain ⟨n, hn, he, -⟩ := mem_records.mp hr
    rw [he, toInt_asI64 (by omega)] at h1 h2 ⊢
    by_cases hle : n ≤ getCheckpoint s.db
    · exact .inl ⟨hr, h1, by omega⟩
    · refine .inr ⟨?_, hr⟩
      -- above the finalized checkpoint, hence above the safe head and in the hot window
      obtain ⟨hb, hl⟩ := hup
      simp only [BackfillBehind, nextFinalizedBlock, saturatingAdd_eq
        (show getCheckpoint s.db + 1 < 2 ^ 64 by omega)] at hb
      simp only [LiveBehind, nextHotBlock, saturatingAdd_eq
        (show getLiveCheckpoint s.db + 1 < 2 ^ 64 by have := I.liveBelow; omega)] at hl
      have hlow : engine.computeLiveStartBlock start C.height ≤ n := by
        simp only [BackfillEngine.safeHead, hotWindowLength,
          BackfillEngine.computeLiveStartBlock] at hb hw ⊢
        omega
      have hfloor : s.pruned.getD start ≤ max (s.pruned.getD 0) start := by
        cases s.pruned <;> simp
      have := I.pruned
      rcases I.cover.served n (by omega) (by omega) with hcold | hhot
      · obtain ⟨b, hb', hbn⟩ := Table.mem_keys.mp hcold
        obtain ⟨m, hm, rfl⟩ := mem_blockRows.mp (I.exact.exact.blocks.mem_iff.mp hb')
        have := asI64_inj (show m < 2 ^ 64 by omega) (show n < 2 ^ 64 by omega) hbn
        omega
      · exact hhot

/-- Where no block is in both lanes, no transfer is there twice. -/
theorem StableInv.perm_served (hC : Indexed C) (hH : C.height < 2 ^ 63)
    (hw : engine.confirmationDepth ≤ hotWindowLength engine) (I : StableInv engine start C s)
    (hup : CaughtUp engine start C s.db) (ha : Apart s.db) :
    (s.db.cold.transfers.rows ++ s.db.hot.transfers.rows).Perm
      (records C engine.contractFilter (max start 1) C.height) := by
  have hcold : s.db.cold.Backed := I.cover.cold.hashed.backed
  have hview := (crossUnique_of_blocks hcold I.hotLane.lane.hashed.backed ha).view
  have hrec : ((records C engine.contractFilter (max start 1) C.height).map
    Erc20TransferRecord.key).Nodup := records_keys_nodup hC (by omega)
  refine (List.perm_ext_iff_of_nodup hview.of_map hrec.of_map).mpr fun r => ?_
  rw [List.mem_append, I.mem_served hH hw hup]

end

/-- **What is served.** On a chain that does not reorganise neither worker ever
rolls back. Once both are caught up, with a hot window no shorter than the
confirmation depth, the two lanes hold the transfers of `max(start, 1)..=height`
and no others; where no block is in both, each exactly once. -/
theorem stable_serves (C : Chain) (hC : Indexed C) (hH : C.height < 2 ^ 63)
    (engine : BackfillEngine) (start : Nat) (hs : start ≠ 0) (s : Sys)
    (h : (stable C engine start).Reachable s) :
    (∀ n, s.backfill ≠ .rollback n ∧ s.live ≠ .rollback n) ∧
    (engine.confirmationDepth ≤ hotWindowLength engine → CaughtUp engine start C s.db →
      (∀ r, r ∈ s.db.cold.transfers.rows ∨ r ∈ s.db.hot.transfers.rows ↔
        r ∈ records C engine.contractFilter (max start 1) C.height) ∧
      (Apart s.db → (s.db.cold.transfers.rows ++ s.db.hot.transfers.rows).Perm
        (records C engine.contractFilter (max start 1) C.height))) := by
  have I := (stableInv_inductive hs hC hH).reachable s h
  refine ⟨fun n => ⟨fun hb => ?_, fun hl => ?_⟩, fun hw hup => ?_⟩
  · have hpc := I.exact.pc
    rw [hb] at hpc
    exact hs hpc.1
  · have hpc := I.live
    rw [hl] at hpc
    exact hpc
  · exact ⟨fun _ => I.mem_served hH hw hup, I.perm_served hC hH hw hup⟩

/-! ## Runs -/

/-- The live worker commits 2 and 3, then the backfill worker 1 and 2. -/
def caughtUpRun : List Label :=
  List.flatten [[.live .sql], liveTurn 3 2, rangeLabels .live oneTransfer none 2 3,
    [.backfill .sql, .backfill (.blockNumber 3), .backfill .sql, .backfill .sql],
    rangeLabels .backfill oneTransfer none 1 2]

/-- Where `caughtUpRun` leads. -/
theorem caughtUpRun_ends : ∃ s, (stable oneTransfer (.ofDepths 1 2) 1).Reachable s ∧
    (s.db.cold.keys, s.db.hot.keys) = ([1, 2], [3]) ∧
    CaughtUp (.ofDepths 1 2) 1 oneTransfer s.db ∧ Apart s.db := by
  have hx : ((LTS.exec (stepWith (.ofDepths 1 2) 1 fun _ l => OnChain oneTransfer none l ∧
      HeadUpTo oneTransfer l) .init caughtUpRun).map fun s =>
        ((s.db.cold.keys, s.db.hot.keys), getCheckpoint s.db, getLiveCheckpoint s.db)) =
      some (([1, 2], [3]), 2, 3) := by decide +kernel
  obtain ⟨s, hr, hb⟩ := LTS.reachable_of_exec stepWith_step rfl hx
  simp only [Prod.mk.injEq] at hb
  obtain ⟨⟨hc, hh⟩, hck, hlc⟩ := hb
  refine ⟨s, hr, by rw [hc, hh], ⟨?_, ?_⟩, ?_⟩
  · simp only [BackfillBehind, nextFinalizedBlock, hck]
    decide
  · simp only [LiveBehind, nextHotBlock, hlc]
    decide
  · rw [Apart, hc, hh]
    simp only [List.mem_cons, List.not_mem_nil, or_false, forall_eq_or_imp, forall_eq]
    decide

theorem stable_serves_caughtUpRun : ∃ s, (stable oneTransfer (.ofDepths 1 2) 1).Reachable s ∧
    (s.db.cold.keys, s.db.hot.keys) = ([1, 2], [3]) ∧
    (s.db.cold.transfers.rows ++ s.db.hot.transfers.rows).Perm (records oneTransfer none 1 3) := by
  obtain ⟨s, hr, hk, hup, ha⟩ := caughtUpRun_ends
  exact ⟨s, hr, hk, ((stable_serves oneTransfer oneTransfer_indexed (by decide) (.ofDepths 1 2) 1
    (by decide) s hr).2 (by decide) hup).2 ha⟩

end EthIndexer.L4
