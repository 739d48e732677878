import EthIndexer.Core.Ledger
import EthIndexer.L4Lanes.ColdLane
import EthIndexer.L4Lanes.Entries
import EthIndexer.L4Lanes.Exactness

/-!
# The cold lane is a ledger

`coldLedger start db`: hash and transfers of each block from `max(start, 1)` to
the finalized checkpoint. `commit_finalized_range` appends the blocks of its
payload, `rollback_from_block` cuts at its block, and no other step of either
worker touches the ledger (`coldLedger_refines`).

So the lane is the replay of the commits and rollbacks of the run, whatever
chains the answers came from, and a block keeps its hash and its transfers for
as long as the checkpoint is not below it (`cold_refines_ledger`).
-/
namespace EthIndexer.L4
open EthIndexer.L1 EthIndexer.L2 EthIndexer.L3

/-- What the cold lane holds of block `n`. -/
def coldEntry (db : Db) (n : Nat) : Option Bytes × List Erc20TransferRecord :=
  (getBlockHash db n, db.cold.transfers.rows.filter fun r => decide (r.blockNumber = asI64 n))

def coldLedger (start : Nat) (db : Db) : List (Option Bytes × List Erc20TransferRecord) :=
  (rangeIncl (max start 1) (getCheckpoint db)).map (coldEntry db)

/-- What a step does to the ledger. -/
def ledgerOp (start : Nat) (s : Sys) (l : Label) :
    Option (LedgerOp (Option Bytes × List Erc20TransferRecord)) :=
  match s.backfill, l with
  | .range _ _ _ (.commit p), .backfill .sql =>
    if p.Committable then some (.append (payloadEntries p)) else none
  | .rollback n, .backfill .sql => some (.cut (n - max start 1))
  | _, _ => none

/-! ## The two transactions -/

section
variable {start first last n : Nat} {db : Db} {s s' : Sys}

theorem length_coldLedger (start : Nat) (db : Db) :
    (coldLedger start db).length = getCheckpoint db + 1 - max start 1 := by
  rw [coldLedger, List.length_map, rangeIncl, List.length_range']

theorem getElem?_coldLedger {i : Nat} (h : max start 1 + i ≤ getCheckpoint db) :
    (coldLedger start db)[i]? = some (coldEntry db (max start 1 + i)) := by
  rw [coldLedger, List.getElem?_map, rangeIncl, List.getElem?_range' (by omega)]
  simp

/-- Every block of the ledger has its hash. -/
theorem coldEntry_isSome (hc : ColdInv start s) (hs : max start 1 ≤ n)
    (hn : n ≤ getCheckpoint s.db) : (coldEntry s.db n).1.isSome := by
  have hck := getCheckpoint_eq hc.nonneg
  have hlt := s.db.indexerCheckpoint.toInt_lt
  have hk : asI64 n ∈ s.db.cold.keys := by
    rw [hc.keys, toInt_asI64 (by omega)]
    omega
  cases h : getBlockHash s.db n with
  | none => exact absurd hk (Lane.getBlockHash_eq_none.mp h)
  | some hash => rw [coldEntry, h]; rfl

/-- A rollback leaves the blocks below it. -/
theorem coldEntry_rollback {m : Nat} (hm : m < n) (hn : n < 2 ^ 63) :
    coldEntry (rollbackFromBlock db n) m = coldEntry db m := by
  refine laneEntry_deleteNumbers (l := db.cold) ?_
  rw [decide_eq_false_iff_not, asI64_le hn, toInt_asI64 (by omega)]
  omega

theorem coldLedger_rollback (hc : ColdInv start s) (hs : start ≤ n)
    (hn : (n : Int) ≤ s.db.indexerCheckpoint.toInt) :
    coldLedger start (rollbackFromBlock s.db n) =
      (coldLedger start s.db).take (n - max start 1) := by
  have hck := getCheckpoint_eq hc.nonneg
  have hlt := s.db.indexerCheckpoint.toInt_lt
  have hck' : getCheckpoint (rollbackFromBlock s.db n) = n - 1 := asU64_asI64 (by omega)
  have hentry : ∀ m ∈ rangeIncl (max start 1) (n - 1),
      coldEntry (rollbackFromBlock s.db n) m = coldEntry s.db m := by
    intro m hm
    have hm := mem_rangeIncl.mp hm
    exact coldEntry_rollback (by omega) (by omega)
  rw [coldLedger, hck', List.map_congr_left hentry, coldLedger, ← List.map_take, rangeIncl,
    rangeIncl, List.take_range'_of_length_ge (by omega),
    show n - 1 + 1 - max start 1 = n - max start 1 by omega]

/-- A commit leaves the blocks outside of its range. -/
theorem coldEntry_commit {m : Nat} (p : RangePayload first last) (hl : last < 2 ^ 64)
    (hm : m < 2 ^ 64) (hout : ¬ (first ≤ m ∧ m ≤ last)) :
    coldEntry (commitFinalizedRange db p.transferRecords p.indexedBlocks first last).1 m =
      coldEntry db m :=
  laneEntry_insertRange (l := db.cold) p hl hm hout

theorem coldLedger_commit (hc : ColdInv start s) (p : RangePayload first last)
    (hle : first ≤ last) (hlt : last < 2 ^ 63)
    (hf : (first : Int) = max (s.db.indexerCheckpoint.toInt + 1) start) :
    coldLedger start (commitFinalizedRange s.db p.transferRecords p.indexedBlocks first last).1 =
      coldLedger start s.db ++ payloadEntries p := by
  have hck := getCheckpoint_eq hc.nonneg
  have hck' : getCheckpoint (commitFinalizedRange s.db p.transferRecords p.indexedBlocks first
    last).1 = last := asU64_asI64 (by omega)
  have hold : ∀ m ∈ rangeIncl (max start 1) (getCheckpoint s.db),
      coldEntry (commitFinalizedRange s.db p.transferRecords p.indexedBlocks first last).1 m =
        coldEntry s.db m := by
    intro m hm
    have hm := mem_rangeIncl.mp hm
    have hlt' := s.db.indexerCheckpoint.toInt_lt
    exact coldEntry_commit p (by omega) (by omega) (by omega)
  have hnew : (rangeIncl first last).map (coldEntry (commitFinalizedRange s.db p.transferRecords
      p.indexedBlocks first last).1) = payloadEntries p :=
    map_laneEntry_insertRange hc.hashed.backed p (by omega) fun n hfn hnl =>
      planned_fresh hc.keys hlt hf ⟨hfn, hnl⟩
  rw [coldLedger, hck', ← hnew, coldLedger, ← List.map_congr_left hold]
  refine (planned_split (f := fun a b => (rangeIncl a b).map _) ?_ ?_ (by omega) hle).symm
  · intro a b hab
    rw [rangeIncl_eq_nil hab, List.map_nil]
  · intro a b c hab hbc
    rw [← List.map_append, rangeIncl_append hab hbc]

/-! ## Refinement -/

/-- Steps that leave the cold lane and its checkpoint alone leave the ledger alone. -/
theorem coldLedger_congr {db db' : Db} (hc : db'.cold = db.cold)
    (hi : db'.indexerCheckpoint = db.indexerCheckpoint) :
    coldLedger start db' = coldLedger start db := by
  have hentry : coldEntry db' = coldEntry db := by
    funext m
    simp only [coldEntry, getBlockHash, hc]
  simp only [coldLedger, getCheckpoint, hi, hentry]

theorem coldLedger_backfill {engine : BackfillEngine} {e : Event} {pc : BackfillPc} {db : Db}
    (hc : ColdInv start s) (hm : BackfillMove engine start s.db s.backfill e pc db) :
    coldLedger start db = (ledgerOp start s (.backfill e)).elim (coldLedger start s.db)
      (Ledger.apply (coldLedger start s.db)) := by
  have hpc := hc.pc
  unfold ledgerOp
  generalize s.backfill = pc₀ at hm hpc
  cases hm with
  | rollback => exact coldLedger_rollback hc hpc.1 hpc.2
  | commit hp =>
    simp only [if_pos hp]
    exact coldLedger_commit hc _ hpc.1 hpc.2.1 hpc.2.2
  | range hr | reorg hr => cases hr <;> rfl
  | _ => rfl

/-- Neither transaction is in reach of a worker that fails, nor of a crash. -/
theorem ledgerOp_restart {engine : BackfillEngine} {l : Label}
    (h : step engine start s l = some s.restart) : ledgerOp start s l = none := by
  unfold ledgerOp
  split
  · rename_i first last latest p hpc
    refine if_neg fun hp => ?_
    simp only [step, hpc, backfillStep, rangeStep, if_pos hp, Option.map_some, Option.some.injEq] at h
    cases congrArg Sys.backfill h
  · rename_i n hpc
    simp only [step, hpc, backfillStep, Option.map_some, Option.some.injEq] at h
    cases congrArg Sys.backfill h
  · rfl

theorem coldLedger_refines (engine : BackfillEngine) (start : Nat) :
    Refines (systemWith engine start BackfillHeadFits) Ledger.apply (fun s => coldLedger start s.db)
      (ledgerOp start) (ColdInv start) where
  inv := fun _ _ _ I hs => coldInv_step I hs.1 hs.2
  step := by
    intro s l s' I hs
    rcases step_cases hs.2 with ⟨e, pc, db, rfl, hm, rfl⟩ | ⟨e, pc, db, rfl, hm, rfl⟩ | rfl
    · exact coldLedger_backfill I hm
    · have hop : ledgerOp start s (.live e) = none := by
        unfold ledgerOp
        split
        · rename_i h; cases h
        · rename_i h; cases h
        · rfl
      rw [hop]
      exact coldLedger_congr hm.frame.1 hm.frame.2
    · rw [ledgerOp_restart hs.2]
      rfl

end

/-- **The cold lane is a ledger.** From any reachable state, under any answers,
interleavings and crashes, the ledger at the end of a run is the commits and the
rollbacks of the run applied in order; every block in it has a hash; and a block
that the checkpoint never falls below keeps its hash and its transfers. -/
theorem cold_refines_ledger (engine : BackfillEngine) (start : Nat) (s : Sys)
    (h : (systemWith engine start BackfillHeadFits).Reachable s) :
    (∀ ls s', (systemWith engine start BackfillHeadFits).Run s ls s' →
      coldLedger start s'.db = (opsOf (step engine start) (ledgerOp start) s ls).foldl Ledger.apply
        (coldLedger start s.db)) ∧
    (∀ n, max start 1 ≤ n → n ≤ getCheckpoint s.db → (coldEntry s.db n).1.isSome) ∧
    ∀ ls s' c, ((systemWith engine start BackfillHeadFits).restrict fun s _ =>
        c ≤ getCheckpoint s.db).Run s ls s' → c ≤ getCheckpoint s'.db →
      ∀ n, max start 1 ≤ n → n ≤ c → coldEntry s'.db n = coldEntry s.db n := by
  have I := (coldInv_inductive engine start).reachable s h
  have hR := coldLedger_refines engine start
  refine ⟨fun ls s' hr => hR.run (fun _ _ _ hs => hs.2) hr I,
    fun n hs hn => coldEntry_isSome I hs hn, fun ls s' c hr hc n hs hn => ?_⟩
  have hlen : ∀ db : Db, c ≤ getCheckpoint db →
      c + 1 - max start 1 ≤ (coldLedger start db).length := by
    intro db hdb
    rw [length_coldLedger]
    omega
  have hsrc : c ≤ getCheckpoint s.db := by
    cases hr with
    | nil => exact hc
    | cons hs' _ => exact hs'.1
  have hr' : ((systemWith engine start BackfillHeadFits).restrict fun s _ =>
      c + 1 - max start 1 ≤ (coldLedger start s.db).length).Run s ls s' :=
    hr.weaken fun s _ hs => hlen s.db hs
  have htake := hR.take_run hr' I (hlen s'.db hc)
  have hget := congrArg (·[n - max start 1]?) htake
  simp only [List.getElem?_take, show n - max start 1 < c + 1 - max start 1 by omega,
    if_true] at hget
  rw [getElem?_coldLedger (by omega), getElem?_coldLedger (by omega), Option.some.injEq,
    Nat.add_sub_cancel' hs] at hget
  exact hget

/-! ## Runs -/

/-- An operation by its size. -/
def opSize {α : Type} : LedgerOp α → Bool × Nat
  | .append entries => (true, entries.length)
  | .cut k => (false, k)

/-- The run `replaced`: two blocks, back to one, and the new second block. -/
theorem cold_refines_ledger_replaced : ∃ s,
    (systemWith (.ofDepths 0 1) 1 BackfillHeadFits).Reachable s ∧
    (opsOf (step (.ofDepths 0 1) 1) (ledgerOp 1) .init replaced).map opSize =
      [(true, 2), (false, 1), (true, 1)] ∧
    coldLedger 1 s.db =
      (opsOf (step (.ofDepths 0 1) 1) (ledgerOp 1) .init replaced).foldl Ledger.apply [] := by
  have hx : (LTS.exec (stepWith (.ofDepths 0 1) 1 fun _ => BackfillHeadFits) .init
      replaced).isSome := by decide +kernel
  obtain ⟨s, hs⟩ := Option.isSome_iff_exists.mp hx
  have hr : (systemWith (.ofDepths 0 1) 1 BackfillHeadFits).Run .init replaced s :=
    LTS.exec_run stepWith_step hs
  have h0 : (systemWith (.ofDepths 0 1) 1 BackfillHeadFits).Reachable .init :=
    LTS.reachable_init rfl
  exact ⟨s, ⟨.init, replaced, rfl, hr⟩, by decide +kernel,
    (cold_refines_ledger (.ofDepths 0 1) 1 .init h0).1 replaced s hr⟩

end EthIndexer.L4
