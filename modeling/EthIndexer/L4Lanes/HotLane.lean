import EthIndexer.L4Lanes.CrossLane

/-!
# The hot lane: bound and integrity

`HotLane db`: every key of `hot_indexed_blocks` is at most the live checkpoint,
and every row of `hot_erc20_transfers` carries the hash stored for its block.

Six transactions of the two workers write these tables. Four of them only delete
by number, which keeps both parts (`hotLane_rollback`); the live checkpoint a
rollback leaves is just below what it deletes from (`le_pred_of_lt_asI64`). The
hot commit inserts, and its blocks are new to the lane: a planned range starts
above every hot key, and while it is in flight the other worker only deletes
(`HotLaneInv.range`). So `process_hot_range` never finds a stored hash, and the
upsert of a block never overwrites one.

It takes live heads below 2^63 and nothing of the backfill worker;
`hotLane_broken_at_2_63` is what the casts do to it from there on.
-/
namespace EthIndexer.L4
open EthIndexer.L1 EthIndexer.L2 EthIndexer.L3

structure HotLane (db : Db) : Prop where
  below : ∀ k ∈ db.hot.keys, k ≤ db.liveIndexerCheckpoint
  hashed : db.hot.Hashed

/-- Every head answered to the live worker is below 2^63. -/
def LiveHeadFits : Label → Prop
  | .backfill _ => True
  | l => HeadFits l

instance : (l : Label) → Decidable (LiveHeadFits l)
  | .backfill _ => .isTrue trivial
  | .live e => inferInstanceAs (Decidable (HeadFits (.live e)))
  | .crash => inferInstanceAs (Decidable (HeadFits .crash))

theorem liveHeadFits_of_headFits {l : Label} (h : HeadFits l) : LiveHeadFits l := by
  cases l with
  | backfill _ => trivial
  | _ => exact h

/-- No key of the lane reaches block `first`. -/
def HotBelow (db : Db) (first : Nat) : Prop := ∀ k ∈ db.hot.keys, k.toInt < first

/-- The range in flight starts above the hot keys. -/
def RangeAbove (db : Db) : LivePc → Prop
  | .range first _ _ _ => HotBelow db first
  | _ => True

structure HotLaneInv (start : Nat) (s : Sys) : Prop where
  lane : HotLane s.db
  live : LiveFits start s.live
  range : RangeAbove s.db s.live

theorem rangeAbove_mono {db db' : Db} {pc : LivePc} (h : RangeAbove db pc)
    (hk : ∀ k ∈ db'.hot.keys, k ∈ db.hot.keys) : RangeAbove db' pc := by
  cases pc with
  | range first last latest pc => exact fun k hm => h k (hk k hm)
  | _ => trivial

theorem rangeAbove_hotHistoryFrom {db : Db} {latest last n : Nat} :
    RangeAbove db (hotHistoryFrom latest last n) := by
  unfold hotHistoryFrom
  split <;> trivial

/-! ## The transactions -/

theorem hotLane_delete {db : Db} (p : Int64 → Bool) (cold : Lane) (checkpoint : Int64)
    (h : HotLane db) : HotLane ⟨cold, db.hot.deleteNumbers p, checkpoint, db.liveIndexerCheckpoint⟩ :=
  ⟨fun k hk => h.below k (Lane.mem_keys_deleteNumbers.mp hk).1, Lane.hashed_deleteNumbers p h.hashed⟩

/-- What is left below `n` is not above `n - 1`. -/
theorem below_rollback {l : Lane} {n : Nat} {k : Int64} (hk : k ∈ (l.deleteRangeFrom n).keys) :
    k ≤ asI64 (n - 1) := by
  have hp := (Lane.mem_keys_deleteNumbers.mp hk).2
  rw [decide_eq_false_iff_not, Int64.not_le] at hp
  exact le_pred_of_lt_asI64 hp

/-- Both rollbacks: the lane is deleted from `n`, and the checkpoint is `n - 1`. -/
theorem hotLane_rollback {db : Db} (n : Nat) (cold : Lane) (checkpoint : Int64) (h : HotLane db) :
    HotLane ⟨cold, db.hot.deleteRangeFrom n, checkpoint, asI64 (n - 1)⟩ :=
  ⟨fun _ hk => below_rollback hk, Lane.hashed_deleteNumbers _ h.hashed⟩

/-- A block at or above `first` is not stored. -/
theorem HotBelow.fresh {db : Db} {first n : Nat} (h : HotBelow db first) (hn : first ≤ n)
    (hlt : n < 2 ^ 63) : asI64 n ∉ db.hot.keys := by
  intro hk
  have := h _ hk
  rw [toInt_asI64 hlt] at this
  omega

theorem below_commit {l : Lane} {first last : Nat} {p : RangePayload first last} {k : Int64}
    (hb : ∀ k ∈ l.keys, k.toInt < first) (hle : first ≤ last) (hlt : last < 2 ^ 63)
    (hk : k ∈ (l.insertRange p.transferRecords p.indexedBlocks).keys) : k ≤ asI64 last := by
  refine (le_asI64 hlt).mpr ?_
  rcases (p.mem_keys hlt).mp hk with hk | hk
  · have := hb k hk
    omega
  · exact hk.2

theorem hotLane_commit {db : Db} {first last : Nat} (p : RangePayload first last)
    (h : HotLane db) (hb : HotBelow db first) (hle : first ≤ last) (hlt : last < 2 ^ 63) :
    HotLane (commitHotRange db p.transferRecords p.indexedBlocks last).1 := by
  refine ⟨fun k hk => below_commit hb hle hlt hk, ?_⟩
  refine Lane.hashed_insertRange h.hashed p.joined p.numbers_nodup ?_ ?_
  · intro n hn
    have := p.mem_numbers.mp hn
    omega
  · intro n hn
    obtain ⟨hn, hl⟩ := p.mem_numbers.mp hn
    exact hb.fresh hn (by omega)

/-- A planned range starts above the live checkpoint it was planned from. -/
theorem planned_above {engine : BackfillEngine} {start latest : Nat} {db : Db}
    (h : ∀ k ∈ db.hot.keys, k ≤ db.liveIndexerCheckpoint)
    (hle : nextHotBlock engine start latest db ≤ latest) (hlt : latest < 2 ^ 63) :
    HotBelow db (nextHotBlock engine start latest db) := by
  intro k hk
  have hck : saturatingAdd (getLiveCheckpoint db) 1 ≤ nextHotBlock engine start latest db :=
    Nat.le_max_left _ _
  have hlt' := asU64_lt db.liveIndexerCheckpoint
  simp only [saturatingAdd, u64Max, getLiveCheckpoint] at hck
  have hval := toInt_eq_asU64 db.liveIndexerCheckpoint
  have hbelow := Int64.le_iff_toInt_le.mp (h k hk)
  omega

/-! ## The invariant -/

theorem hotLaneInv_init (start : Nat) : HotLaneInv start .init where
  lane := ⟨fun _ hk => (by cases hk), Lane.hashed_empty⟩
  live := trivial
  range := trivial

theorem hotLaneInv_backfill {engine : BackfillEngine} {start : Nat} {s : Sys} {e : Event}
    {pc : BackfillPc} {db : Db} (I : HotLaneInv start s)
    (hm : BackfillMove engine start s.db s.backfill e pc db) :
    HotLaneInv start { s with db := db, backfill := pc } := by
  obtain ⟨hl, hf, hr⟩ := I
  have hr' := rangeAbove_mono hr hm.hot_keys
  generalize s.backfill = pc₀ at hm
  cases hm with
  | rollback => exact ⟨hotLane_rollback _ _ _ hl, hf, hr'⟩
  | commit => exact ⟨hotLane_delete _ _ _ hl, hf, hr'⟩
  | _ => exact ⟨hl, hf, hr'⟩

theorem hotLaneInv_live {engine : BackfillEngine} {start : Nat} {s : Sys} {e : Event} {pc : LivePc}
    {db : Db} {w : Option Nat} (I : HotLaneInv start s) (hE : HeadFits (.live e))
    (hm : LiveMove engine start s.db s.live e pc db) :
    HotLaneInv start { s with db := db, live := pc, pruned := w } := by
  obtain ⟨hl, hf, hr⟩ := I
  have hf' := liveFits_step hf hE hm
  generalize s.live = pc₀ at hm hf hr
  cases hm with
  | prune => exact ⟨hotLane_delete _ _ _ hl, hf', trivial⟩
  | rollback => exact ⟨hotLane_rollback _ _ _ hl, hf', trivial⟩
  | planned hle _ _ => exact ⟨hl, hf', planned_above hl.below hle hf⟩
  | commit => exact ⟨hotLane_commit _ hl hr hf.2.1 hf.2.2, hf', trivial⟩
  | range _ => exact ⟨hl, hf', hr⟩
  | historyHead _ | absent _ | agree => exact ⟨hl, hf', rangeAbove_hotHistoryFrom⟩
  | _ => exact ⟨hl, hf', trivial⟩

theorem hotLaneInv_step {engine : BackfillEngine} {start : Nat} {s s' : Sys} {l : Label}
    (I : HotLaneInv start s) (hE : LiveHeadFits l) (h : step engine start s l = some s') :
    HotLaneInv start s' := by
  rcases step_cases h with ⟨e, pc, db, rfl, hm, rfl⟩ | ⟨e, pc, db, rfl, hm, rfl⟩ | rfl
  · exact hotLaneInv_backfill I hm
  · exact hotLaneInv_live I hE hm
  · exact ⟨I.lane, trivial, trivial⟩

theorem hotLaneInv_inductive (engine : BackfillEngine) (start : Nat) :
    (systemWith engine start LiveHeadFits).Inductive (HotLaneInv start) where
  init := by intro s hs; rw [hs]; exact hotLaneInv_init start
  step := fun _ _ _ I hs => hotLaneInv_step I hs.1 hs.2

/-- **Hot lane.** In every state reachable with live heads below 2^63, under any
chain behaviour, failures, restarts and interleaving with the backfill worker,
the hot lane is bounded by its checkpoint and carries its hashes; and no block
of a range in flight is stored or has transfers. -/
theorem hot_lane (engine : BackfillEngine) (start : Nat) (s : Sys)
    (h : (systemWith engine start LiveHeadFits).Reachable s) :
    HotLane s.db ∧
    ∀ first last latest pc, s.live = .range first last latest pc → ∀ n, first ≤ n → n ≤ last →
      getHotBlockHash s.db n = none ∧
      ∀ r ∈ s.db.hot.transfers.rows, r.blockNumber ≠ asI64 n := by
  obtain ⟨hl, hf, hr⟩ := (hotLaneInv_inductive engine start).reachable s h
  refine ⟨hl, fun first last latest pc hpc n hn hnl => ?_⟩
  rw [hpc] at hf hr
  have hfresh : asI64 n ∉ s.db.hot.keys := HotBelow.fresh hr hn (Nat.lt_of_le_of_lt hnl hf.2.2)
  refine ⟨Lane.getBlockHash_eq_none.mpr hfresh, fun r hm he => hfresh ?_⟩
  rw [← he]
  exact hl.hashed.backed r hm

/-! ## Runs -/

/-- The range the live worker has in flight. -/
def liveRange : LivePc → Option (Nat × Nat)
  | .range first last _ _ => some (first, last)
  | _ => none

theorem liveRange_eq_some {pc : LivePc} {first last : Nat} (h : liveRange pc = some (first, last)) :
    ∃ latest rpc, pc = .range first last latest rpc := by
  unfold liveRange at h
  split at h
  · cases h; exact ⟨_, _, rfl⟩
  · cases h

/-- The live worker from `head` to the plan, with nothing stored in the `window`
blocks it checks. -/
def liveTurn (latest window : Nat) : List Label :=
  .live (.blockNumber latest) :: .live .sql :: .live (.blockNumber latest) ::
    List.replicate (window + 1) (.live .sql)

/-- Blocks 1 and 2 are hot, 2 is replaced, and the live worker plans the new 2. -/
def hotReplaced : List Label :=
  List.flatten [[.live .sql], liveTurn 2 2, rangeLabels .live (.fork 2 9 0) none 1 2,
    [.live (.blockNumber 2), .live .sql, .live (.blockNumber 2), .live .sql,
      .live (.block 1 (.ofByte 0) 0), .live .sql, .live (.block 2 (.ofByte 1) 0), .live .sql,
      .live (.blockNumber 2), .live .sql, .live (.blockNumber 2), .live .sql,
      .live (.block 1 (.ofByte 0) 0), .live .sql, .live .sql, .live (.block 2 (.ofByte 1) 0)]]

theorem hot_lane_replaced : ∃ s, (systemWith (.ofDepths 0 2) 1 LiveHeadFits).Reachable s ∧
    (s.db.hot.keys, getLiveCheckpoint s.db) = ([1], 1) ∧ HotLane s.db ∧
    getHotBlockHash s.db 2 = none := by
  have hx : ((LTS.exec (stepWith (.ofDepths 0 2) 1 fun _ => LiveHeadFits) .init hotReplaced).map
      fun s => ((s.db.hot.keys, getLiveCheckpoint s.db), liveRange s.live)) =
      some (([1], 1), some (2, 2)) := by decide +kernel
  obtain ⟨s, hr, hb⟩ := LTS.reachable_of_exec stepWith_step rfl hx
  obtain ⟨hk, hpc⟩ := Prod.mk.injEq .. ▸ hb
  obtain ⟨hl, hrange⟩ := hot_lane _ _ s hr
  obtain ⟨latest, pc, he⟩ := liveRange_eq_some hpc
  exact ⟨s, hr, hk, hl, (hrange _ _ _ _ he 2 (by omega) (by omega)).1⟩

/-- Block 2^63 - 1 is cold and block 2^63 is hot; the backfill worker rolls
2^63 - 1 back, and the live worker plans its next range. -/
def rolledBackAt63 : List Label :=
  List.flatten [
    [.backfill .sql, .backfill (.blockNumber (2 ^ 63)), .backfill .sql, .backfill .sql],
    rangeLabels .backfill (.fork (2 ^ 63) (2 ^ 64) 0) none (2 ^ 63 - 1) (2 ^ 63 - 1),
    [.live .sql], liveTurn (2 ^ 63) 1,
    rangeLabels .live (.fork (2 ^ 63) (2 ^ 64) 0) none (2 ^ 63) (2 ^ 63),
    [.backfill (.blockNumber (2 ^ 63)), .backfill .sql],
    historyLabels (.fork (2 ^ 63) 0 1) (2 ^ 63 - 1) (2 ^ 63 - 1),
    [.backfill .sql, .live (.blockNumber (2 ^ 63)), .live .sql, .live (.blockNumber (2 ^ 63)),
      .live .sql, .live (.block (2 ^ 63) (.ofByte 0) 0), .live .sql]]

/-- **Counterexample at 2^63.** `DELETE ... WHERE block_number >= 2^63 - 1` leaves
block 2^63, whose number is stored as -2^63: the lane keeps a block above the
live checkpoint 2^63 - 2, and the next range has its hash stored. -/
theorem hotLane_broken_at_2_63 : ∃ s, (system (.ofDepths 1 1) (2 ^ 63 - 1)).Reachable s ∧
    getLiveCheckpoint s.db = 2 ^ 63 - 2 ∧
    ∃ latest pc, s.live = .range (2 ^ 63) (2 ^ 63) latest pc ∧
      (getHotBlockHash s.db (2 ^ 63)).isSome := by
  have hx : ((LTS.exec (step (.ofDepths 1 1) (2 ^ 63 - 1)) .init rolledBackAt63).map fun s =>
      (getLiveCheckpoint s.db, liveRange s.live, (getHotBlockHash s.db (2 ^ 63)).isSome)) =
      some (2 ^ 63 - 2, some (2 ^ 63, 2 ^ 63), true) := by decide +kernel
  obtain ⟨s, hr, hb⟩ := LTS.reachable_of_exec (M := system _ _) (fun _ _ _ h => h) rfl hx
  simp only [Prod.mk.injEq] at hb
  obtain ⟨hc, hpc, hh⟩ := hb
  obtain ⟨latest, pc, he⟩ := liveRange_eq_some hpc
  exact ⟨s, hr, hc, latest, pc, he, hh⟩

end EthIndexer.L4
