import EthIndexer.L3Engine.Range

/-!
# What a lane holds of a block

The hash stored for a block and its transfers, in the order they were inserted.
A deletion leaves the entries of the blocks it does not select
(`laneEntry_deleteNumbers`), and a committed payload those of the blocks outside
of its range (`laneEntry_insertRange`); where its blocks are new to the lane, their
entries are the payload's (`map_laneEntry_insertRange`).
-/
namespace EthIndexer.L4
open EthIndexer.L1 EthIndexer.L2 EthIndexer.L3

abbrev BlockEntry := Option Bytes × List Erc20TransferRecord

/-- What the lane `l` holds of block `n`. -/
def laneEntry (l : Lane) (n : Nat) : BlockEntry :=
  (l.getBlockHash n, l.transfers.rows.filter fun r => decide (r.blockNumber = asI64 n))

/-- The entries of a payload. A transfer key it repeats is kept once. -/
def payloadEntries {first last : Nat} (p : RangePayload first last) :
    List (Option Bytes × List Erc20TransferRecord) :=
  p.indexedBlocks.map fun b => (some b.2,
    (Table.firstByKey Erc20TransferRecord.key p.transferRecords).filter fun r =>
      decide (r.blockNumber = asI64 b.1))

section
variable {l : Lane} {first last n : Nat}

theorem laneEntry_deleteNumbers {p : Int64 → Bool} (h : p (asI64 n) = false) :
    laneEntry (l.deleteNumbers p) n = laneEntry l n := by
  refine Prod.ext (Option.ext fun hash => ?_) ?_
  · refine Lane.getBlockHash_deleteNumbers.trans ?_
    rw [h]
    exact and_iff_left rfl
  · show ((l.transfers.rows.filter _).filter _) = _
    rw [List.filter_filter]
    refine List.filter_congr fun r _ => ?_
    by_cases hr : r.blockNumber = asI64 n
    · simp [hr, h]
    · simp [hr]

/-- A commit leaves the blocks outside of its range. -/
theorem laneEntry_insertRange (p : RangePayload first last) (hl : last < 2 ^ 64) (hn : n < 2 ^ 64)
    (hout : ¬ (first ≤ n ∧ n ≤ last)) :
    laneEntry (l.insertRange p.transferRecords p.indexedBlocks) n = laneEntry l n := by
  refine Prod.ext (Option.ext fun hash => ?_) ?_
  · refine (p.getBlockHash_insertRange hl hn).trans ?_
    have : (n, hash) ∉ p.indexedBlocks := fun hmem =>
      hout (p.mem_numbers.mp (List.mem_map_of_mem (f := Prod.fst) hmem))
    simp only [this, hout, not_false_eq_true, true_and, false_or]
    rfl
  · have hrows : (l.insertRange p.transferRecords p.indexedBlocks).transfers.rows = _ :=
      Table.insertAllIgnore_rows _ _
    show (_ : List _).filter _ = _
    rw [hrows, List.filter_append, List.append_right_eq_self.mpr]
    · rfl
    · refine List.filter_eq_nil_iff.mpr fun r hr he => ?_
      obtain ⟨k, hk, hrk⟩ := p.joined r ((Table.firstByKey_sublist _).subset
        (List.mem_filter.mp hr).1)
      have hrange := p.mem_numbers.mp (List.mem_map_of_mem (f := Prod.fst) hk)
      have hkn := asI64_inj (show k < 2 ^ 64 by omega) hn (hrk.symm.trans (of_decide_eq_true he))
      exact hout (hkn ▸ hrange)

/-- The transfers after a commit of blocks that are new to the lane. -/
theorem rows_insertRange (hb : l.Backed) (p : RangePayload first last)
    (hf : ∀ n, first ≤ n → n ≤ last → asI64 n ∉ l.keys) :
    (l.insertRange p.transferRecords p.indexedBlocks).transfers.rows =
      l.transfers.rows ++ Table.firstByKey Erc20TransferRecord.key p.transferRecords := by
  refine (Table.insertAllIgnore_rows _ _).trans
    (congrArg _ (List.filter_eq_self.mpr fun r hr => ?_))
  simp only [decide_not, Bool.not_eq_true', decide_eq_false_iff_not]
  intro hmem
  obtain ⟨r', hr', he⟩ := Table.mem_keys.mp hmem
  obtain ⟨m, hm, hrm⟩ := p.joined r ((Table.firstByKey_sublist _).subset hr)
  obtain ⟨hfm, hml⟩ := p.mem_numbers.mp (List.mem_map_of_mem (f := Prod.fst) hm)
  have hback := hb r' hr'
  rw [show r'.blockNumber = r.blockNumber from congrArg (·.2.2) he, hrm] at hback
  exact hf m hfm hml hback

/-- The entries a commit of new blocks adds. -/
theorem map_laneEntry_insertRange (hb : l.Backed) (p : RangePayload first last) (hl : last < 2 ^ 64)
    (hf : ∀ n, first ≤ n → n ≤ last → asI64 n ∉ l.keys) :
    (rangeIncl first last).map (laneEntry (l.insertRange p.transferRecords p.indexedBlocks)) =
      payloadEntries p := by
  have hrows := rows_insertRange hb p hf
  rw [← p.blocks_exact, List.map_map, payloadEntries]
  refine List.map_congr_left fun b hmem => ?_
  obtain ⟨hfb, hbl⟩ := p.mem_numbers.mp (List.mem_map_of_mem (f := Prod.fst) hmem)
  refine Prod.ext ?_ ?_
  · exact (p.getBlockHash_insertRange (by omega) (by omega)).mpr (.inl hmem)
  · show (_ : List _).filter _ = _
    rw [hrows, List.filter_append, List.append_left_eq_self.mpr]
    refine List.filter_eq_nil_iff.mpr fun r hr he => ?_
    have hback := hb r hr
    rw [of_decide_eq_true he] at hback
    exact hf b.1 hfb hbl hback

end

end EthIndexer.L4
