import EthIndexer.L3Engine.System

/-!
# Confirmation depth

`iterationHead ls`: the answer to `eth_blockNumber` of the iteration of
`run_backfill` that a run with the labels `ls` is in. `coldWrites` are the block
numbers the next step binds into the `INSERT`s of the cold lane; no other step
adds a row (`coldWrites_only`).

`confirmation_depth`: every one of them is `confirmation_depth` below the head of
its iteration. The head is read before the reconcile and the range is planned
from a checkpoint read after it, but the bound of the range is computed from that
head (`HeadPc`). Where the subtraction saturates, `safe_head` is 0, and nothing
is planned, because a next block is at least 1.
-/
namespace EthIndexer.L4
open EthIndexer.L1 EthIndexer.L2 EthIndexer.L3

/-- The head of the iteration after one more label. -/
def headAfter (h : Option Nat) : Label → Option Nat
  | .backfill (.blockNumber latest) => some latest
  | .crash => none
  | _ => h

/-- The head of the current iteration of `run_backfill`. -/
def iterationHead (ls : List Label) : Option Nat := ls.foldl headAfter none

theorem iterationHead_snoc (ls : List Label) (l : Label) :
    iterationHead (ls ++ [l]) = headAfter (iterationHead ls) l := by
  simp only [iterationHead, List.foldl_append, List.foldl_cons, List.foldl_nil]

/-- The numbers a step inserts into `indexed_blocks` and `erc20_transfers`. -/
def coldWrites : BackfillPc → Label → List Int64
  | .range _ _ _ (.commit p), .backfill .sql =>
    p.indexedBlocks.map (fun b => asI64 b.1) ++ p.transferRecords.map Erc20TransferRecord.blockNumber
  | _, _ => []

/-! ## The invariant -/

/-- What the backfill worker holds comes from the head `h` of its iteration. -/
def HeadPc (engine : BackfillEngine) (h : Option Nat) : BackfillPc → Prop
  | .checkpoint latest | .history latest _ _ | .historyRow latest _ _ _ | .plan latest =>
    h = some latest
  | .range first last latest _ => h = some latest ∧ 1 ≤ first ∧ last ≤ engine.safeHead latest
  | .resume | .head | .rollback _ | .sleep _ => True

section
variable {engine : BackfillEngine} {start : Nat}

theorem one_le_nextFinalizedBlock (db : Db) : 1 ≤ nextFinalizedBlock start db := by
  simp only [nextFinalizedBlock, saturatingAdd, u64Max]
  omega

theorem headPc_backfill {h : Option Nat} {db db' : Db} {pc pc' : BackfillPc} {e : Event}
    (hpc : HeadPc engine h pc) (hm : BackfillMove engine start db pc e pc' db') :
    HeadPc engine (headAfter h (.backfill e)) pc' := by
  cases hm with
  | head _ => rfl
  | revalidate _ | skip _ | fetched | next _ _ | clean _ _ => exact hpc
  | planned _ _ hlast =>
    refine ⟨hpc, one_le_nextFinalizedBlock db, ?_⟩
    rw [hlast]
    exact Nat.min_le_right _ _
  | range hr =>
    cases hr with
    | block _ | logs _ | agree _ _ => exact hpc
  | resume | mismatch _ | rollback | caughtUp _ | reorg _ | commit | wake => trivial

theorem headPc_step {ls : List Label} {s s' : Sys} {l : Label}
    (hpc : HeadPc engine (iterationHead ls) s.backfill) (h : step engine start s l = some s') :
    HeadPc engine (iterationHead (ls ++ [l])) s'.backfill := by
  rw [iterationHead_snoc]
  rcases step_cases h with ⟨e, pc, db, rfl, hm, rfl⟩ | ⟨e, pc, db, rfl, hm, rfl⟩ | rfl
  · exact headPc_backfill hpc hm
  · exact hpc
  · trivial

theorem headPc_run {ls : List Label} {s : Sys} (h : (system engine start).Run .init ls s) :
    HeadPc engine (iterationHead ls) s.backfill :=
  LTS.run_history (P := fun ls (s : Sys) => HeadPc engine (iterationHead ls) s.backfill)
    (fun _ _ _ _ hpc hs => headPc_step hpc hs) h [] trivial

/-! ## The writes -/

/-- The rows of `l'` that are not in `l` have a number of `ks`. -/
def AddsOnly (l l' : Lane) (ks : List Int64) : Prop :=
  (∀ b ∈ l'.blocks.rows, b ∈ l.blocks.rows ∨ b.blockNumber ∈ ks) ∧
    ∀ r ∈ l'.transfers.rows, r ∈ l.transfers.rows ∨ r.blockNumber ∈ ks

/-- Only the commit of a finalized range adds rows to the cold lane. -/
theorem coldWrites_only {s s' : Sys} {l : Label} (h : step engine start s l = some s') :
    AddsOnly s.db.cold s'.db.cold (coldWrites s.backfill l) := by
  have hsame : ∀ ks, AddsOnly s.db.cold s.db.cold ks := fun ks =>
    ⟨fun b hb => .inl hb, fun r hr => .inl hr⟩
  rcases step_cases h with ⟨e, pc, db, rfl, hm, rfl⟩ | ⟨e, pc, db, rfl, hm, rfl⟩ | rfl
  · generalize s.backfill = pc₀ at hm
    cases hm with
    | rollback =>
      refine ⟨fun b hb => .inl ?_, fun r hr => .inl ?_⟩
      · exact (Lane.mem_blocks_deleteNumbers.mp hb).1
      · exact (Lane.mem_transfers_deleteNumbers.mp hr).1
    | @commit first last latest p =>
      refine ⟨fun b hb => ?_, fun r hr => ?_⟩
      · rcases Table.mem_of_upsertAll hb with hb | hb
        · exact .inl hb
        · obtain ⟨c, hc, he⟩ := List.mem_map.mp hb
          refine .inr (List.mem_append_left _ (List.mem_map.mpr ⟨c, hc, ?_⟩))
          rw [← he, Lane.blockRow]
      · rcases Lane.mem_transfers_insertRange hr with hr | hr
        · exact .inl hr
        · exact .inr (List.mem_append_right _ (List.mem_map.mpr ⟨r, hr, rfl⟩))
    | _ => exact hsame _
  · rw [hm.frame.1]
    exact hsame _
  · exact hsame _

/-- The numbers of a payload are in its range. -/
theorem writes_in_range {first last : Nat} (p : RangePayload first last) {k : Int64}
    (hk : k ∈ p.indexedBlocks.map (fun b => asI64 b.1) ++
      p.transferRecords.map Erc20TransferRecord.blockNumber) :
    ∃ n, k = asI64 n ∧ first ≤ n ∧ n ≤ last := by
  rcases List.mem_append.mp hk with hk | hk
  · obtain ⟨b, hb, he⟩ := List.mem_map.mp hk
    exact ⟨b.1, he.symm, p.mem_numbers.mp (List.mem_map.mpr ⟨b, hb, rfl⟩)⟩
  · obtain ⟨r, hr, he⟩ := List.mem_map.mp hk
    obtain ⟨n, hn, hb⟩ := p.joined r hr
    exact ⟨n, he.symm.trans hb, p.mem_numbers.mp (List.mem_map.mpr ⟨_, hn, rfl⟩)⟩

end

/-- **Confirmation depth.** In every run, with any reorganisations, rollbacks,
heads and restarts, a step adds to the cold lane only rows whose number `n` it
binds, and for each of these `n + confirmation_depth` is at most the head that
its iteration of `run_backfill` got. -/
theorem confirmation_depth (engine : BackfillEngine) (start : Nat) (ls : List Label) (s s' : Sys)
    (l : Label) (hr : (system engine start).Run .init ls s)
    (hs : step engine start s l = some s') :
    (∀ k ∈ coldWrites s.backfill l, ∃ latest n, iterationHead ls = some latest ∧ k = asI64 n ∧
      n + engine.confirmationDepth ≤ latest) ∧
    AddsOnly s.db.cold s'.db.cold (coldWrites s.backfill l) := by
  refine ⟨fun k hk => ?_, coldWrites_only hs⟩
  have hpc := headPc_run hr
  unfold coldWrites at hk
  split at hk
  · rename_i first last latest p hb
    rw [hb] at hpc
    obtain ⟨hh, hfirst, hlast⟩ := hpc
    obtain ⟨n, he, hn, hnl⟩ := writes_in_range p hk
    refine ⟨latest, n, hh, he, ?_⟩
    simp only [BackfillEngine.safeHead] at hlast
    omega
  · cases hk

/-! ## Runs -/

/-- The backfill worker, `confirmation_depth` 2, finds head 1, then head 3, and is
about to commit block 1. -/
def confirmedRun : List Label :=
  List.flatten [[.backfill .sql, .backfill (.blockNumber 1), .backfill .sql, .backfill .sql,
    .backfill .timer, .backfill (.blockNumber 3), .backfill .sql, .backfill .sql],
    (rangeLabels .backfill oneTransfer none 1 1).dropLast]

theorem confirmation_depth_one : ∃ s s', (system (.ofDepths 2 1) 1).Run .init confirmedRun s ∧
    step (.ofDepths 2 1) 1 s (.backfill .sql) = some s' ∧
    coldWrites s.backfill (.backfill .sql) = [1, 1] ∧
    ∃ latest n, iterationHead confirmedRun = some latest ∧ (1 : Int64) = asI64 n ∧
      n + 2 ≤ latest := by
  have hx : ((LTS.exec (step (.ofDepths 2 1) 1) .init confirmedRun).map fun s =>
      (coldWrites s.backfill (.backfill .sql),
        (step (.ofDepths 2 1) 1 s (.backfill .sql)).isSome)) = some ([1, 1], true) := by
    decide +kernel
  obtain ⟨s, hs, hb⟩ := Option.map_eq_some_iff.mp hx
  obtain ⟨hw, hsome⟩ := Prod.mk.injEq .. ▸ hb
  obtain ⟨s', hs'⟩ := Option.isSome_iff_exists.mp hsome
  have hr : (system (.ofDepths 2 1) 1).Run .init confirmedRun s :=
    LTS.exec_run (fun _ _ _ h => h) hs
  refine ⟨s, s', hr, hs', hw, (confirmation_depth _ _ _ _ _ _ hr hs').1 1 ?_⟩
  rw [hw]
  exact List.mem_cons_self

end EthIndexer.L4
