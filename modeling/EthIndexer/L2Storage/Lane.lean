import EthIndexer.L2Storage.Db

/-!
# What the statements do to a lane

Keys and rows of a lane after each statement, in terms of the lane before it,
and the two integrity properties a lane can have:

* `Backed`: every transfer's block is in the blocks table,
* `Hashed`: every transfer carries the hash stored for its block.

Deletions keep both (`backed_deleteNumbers`, `hashed_deleteNumbers`), because
the two tables of a lane are deleted by one condition on the block number. A
committed range keeps `Backed` when its records name its own blocks (`Joined`),
and `Hashed` when moreover its blocks are new to the lane.
-/
namespace EthIndexer.L2.Lane
open EthIndexer.L1

/-- The block numbers of the lane. -/
abbrev keys (l : Lane) : List Int64 := l.blocks.keys

/-- The transfers and blocks of a range, inserted in one transaction. -/
def insertRange (l : Lane) (records : List Erc20TransferRecord) (blocks : List (Nat × Bytes)) :
    Lane :=
  (l.insertTransfers records).1.insertBlocks blocks

def Backed (l : Lane) : Prop := ∀ r ∈ l.transfers.rows, r.blockNumber ∈ l.keys

def Hashed (l : Lane) : Prop :=
  ∀ r ∈ l.transfers.rows, (⟨r.blockNumber, r.blockHash⟩ : IndexedBlock) ∈ l.blocks.rows

/-- Every record names a block of the range and carries its hash. -/
def Joined (records : List Erc20TransferRecord) (blocks : List (Nat × Bytes)) : Prop :=
  ∀ r ∈ records, ∃ n, (n, r.blockHash) ∈ blocks ∧ r.blockNumber = asI64 n

theorem Hashed.backed {l : Lane} (h : l.Hashed) : l.Backed :=
  fun r hr => Table.key_mem (h r hr)

@[simp] theorem keys_empty : Lane.empty.keys = [] := rfl

theorem hashed_empty : Lane.empty.Hashed := fun _ hr => by cases hr

/-! ## Lookup -/

theorem getBlockHash_eq_some {l : Lane} {n : Nat} {h : Bytes} :
    l.getBlockHash n = some h ↔ (⟨asI64 n, h⟩ : IndexedBlock) ∈ l.blocks.rows := by
  simp only [getBlockHash, Option.map_eq_some_iff, Table.get?_eq_some]
  refine ⟨?_, fun hm => ⟨_, ⟨hm, rfl⟩, rfl⟩⟩
  intro ⟨b, ⟨hb, hk⟩, hh⟩
  rw [← hk, ← hh]; exact hb

theorem getBlockHash_eq_none {l : Lane} {n : Nat} : l.getBlockHash n = none ↔ asI64 n ∉ l.keys := by
  simp only [getBlockHash, Option.map_eq_none_iff, Table.get?_eq_none]

/-! ## Deletions -/

theorem mem_keys_deleteNumbers {l : Lane} {p : Int64 → Bool} {k : Int64} :
    k ∈ (l.deleteNumbers p).keys ↔ k ∈ l.keys ∧ p k = false :=
  Table.keys_deleteWhere

theorem mem_blocks_deleteNumbers {l : Lane} {p : Int64 → Bool} {b : IndexedBlock} :
    b ∈ (l.deleteNumbers p).blocks.rows ↔ b ∈ l.blocks.rows ∧ p b.blockNumber = false :=
  Table.mem_deleteWhere

theorem mem_transfers_deleteNumbers {l : Lane} {p : Int64 → Bool} {r : Erc20TransferRecord} :
    r ∈ (l.deleteNumbers p).transfers.rows ↔ r ∈ l.transfers.rows ∧ p r.blockNumber = false :=
  Table.mem_deleteWhere

theorem backed_deleteNumbers {l : Lane} (p : Int64 → Bool) (h : l.Backed) :
    (l.deleteNumbers p).Backed := by
  intro r hr
  obtain ⟨hr, hp⟩ := mem_transfers_deleteNumbers.mp hr
  exact mem_keys_deleteNumbers.mpr ⟨h r hr, hp⟩

theorem hashed_deleteNumbers {l : Lane} (p : Int64 → Bool) (h : l.Hashed) :
    (l.deleteNumbers p).Hashed := by
  intro r hr
  obtain ⟨hr, hp⟩ := mem_transfers_deleteNumbers.mp hr
  exact mem_blocks_deleteNumbers.mpr ⟨h r hr, hp⟩

section
variable {l : Lane} {k : Int64} {n m : Nat}

theorem mem_deleteRangeFrom (hn : n < 2 ^ 63) :
    k ∈ (l.deleteRangeFrom n).keys ↔ k ∈ l.keys ∧ k.toInt < n := by
  rw [deleteRangeFrom, mem_keys_deleteNumbers, decide_eq_false_iff_not, asI64_le hn, Int.not_le]

theorem mem_deleteRangeBetween (hn : n < 2 ^ 63) (hm : m < 2 ^ 63) :
    k ∈ (l.deleteRangeBetween n m).keys ↔ k ∈ l.keys ∧ ¬ ((n : Int) ≤ k.toInt ∧ k.toInt ≤ m) := by
  rw [deleteRangeBetween, mem_keys_deleteNumbers, decide_eq_false_iff_not, asI64_le hn, le_asI64 hm]

theorem mem_deleteRangeBefore (hn : n < 2 ^ 63) :
    k ∈ (l.deleteRangeBefore n).keys ↔ k ∈ l.keys ∧ (n : Int) ≤ k.toInt := by
  rw [deleteRangeBefore, mem_keys_deleteNumbers, decide_eq_false_iff_not, lt_asI64 hn, Int.not_lt]

/-- The hashes that stay after a deletion by number. -/
theorem getBlockHash_deleteNumbers {p : Int64 → Bool} {h : Bytes} :
    (l.deleteNumbers p).getBlockHash n = some h ↔ l.getBlockHash n = some h ∧ p (asI64 n) = false := by
  rw [getBlockHash_eq_some, getBlockHash_eq_some, mem_blocks_deleteNumbers]

theorem getBlockHash_deleteRangeFrom (hn : n < 2 ^ 63) (hm : m < 2 ^ 63) {h : Bytes} :
    (l.deleteRangeFrom m).getBlockHash n = some h ↔ l.getBlockHash n = some h ∧ n < m := by
  rw [deleteRangeFrom, getBlockHash_deleteNumbers, decide_eq_false_iff_not, asI64_le hm,
    toInt_asI64 hn]
  exact and_congr_right fun _ => by omega

theorem getBlockHash_deleteRangeBefore (hn : n < 2 ^ 63) (hm : m < 2 ^ 63) {h : Bytes} :
    (l.deleteRangeBefore m).getBlockHash n = some h ↔ l.getBlockHash n = some h ∧ m ≤ n := by
  rw [deleteRangeBefore, getBlockHash_deleteNumbers, decide_eq_false_iff_not, lt_asI64 hm,
    toInt_asI64 hn]
  exact and_congr_right fun _ => by omega

end

/-! ## A committed range -/

section
variable {l : Lane} {records : List Erc20TransferRecord} {blocks : List (Nat × Bytes)}

theorem blockRow_keys (blocks : List (Nat × Bytes)) :
    (blocks.map blockRow).map IndexedBlock.blockNumber = (blocks.map Prod.fst).map asI64 := by
  simp only [List.map_map]
  rfl

theorem mem_keys_insertRange {k : Int64} :
    k ∈ (l.insertRange records blocks).keys ↔ k ∈ l.keys ∨ ∃ n ∈ blocks.map Prod.fst, k = asI64 n := by
  simp only [insertRange, insertBlocks, insertTransfers, keys, Table.keys_upsertAll, blockRow_keys,
    List.mem_map (f := asI64), eq_comm]

theorem mem_transfers_insertRange {r : Erc20TransferRecord}
    (h : r ∈ (l.insertRange records blocks).transfers.rows) :
    r ∈ l.transfers.rows ∨ r ∈ records :=
  Table.mem_of_insertAllIgnore h

/-- The blocks table after a range with distinct numbers below 2^64. -/
theorem mem_blocks_insertRange (hn : (blocks.map Prod.fst).Nodup)
    (hlt : ∀ n ∈ blocks.map Prod.fst, n < 2 ^ 64) {b : IndexedBlock} :
    b ∈ (l.insertRange records blocks).blocks.rows ↔
      (∃ n, (n, b.blockHash) ∈ blocks ∧ b.blockNumber = asI64 n) ∨
      (b ∈ l.blocks.rows ∧ ∀ n ∈ blocks.map Prod.fst, b.blockNumber ≠ asI64 n) := by
  have hnd : ((blocks.map blockRow).map IndexedBlock.blockNumber).Nodup := by
    rw [blockRow_keys]; exact asI64_nodup hn hlt
  simp only [insertRange, insertBlocks, insertTransfers]
  rw [Table.mem_upsertAll hnd, blockRow_keys]
  refine or_congr ?_ (and_congr_right fun _ => ?_)
  · simp only [List.mem_map, Prod.exists]
    refine ⟨?_, ?_⟩
    · intro ⟨n, h, hb, he⟩; subst he; exact ⟨n, hb, rfl⟩
    · intro ⟨n, hb, he⟩; exact ⟨n, b.blockHash, hb, by rw [blockRow, ← he]⟩
  · simp only [List.mem_map (f := asI64), not_exists, not_and, ne_eq, eq_comm]

theorem backed_insertRange (h : l.Backed) (hj : Joined records blocks) :
    (l.insertRange records blocks).Backed := by
  intro r hr
  rw [mem_keys_insertRange]
  rcases mem_transfers_insertRange hr with hr | hr
  · exact .inl (h r hr)
  · obtain ⟨n, hn, he⟩ := hj r hr
    exact .inr ⟨n, List.mem_map.mpr ⟨_, hn, rfl⟩, he⟩

/-- Blocks new to the lane leave the stored hashes of older transfers alone. -/
theorem hashed_insertRange (h : l.Hashed) (hj : Joined records blocks)
    (hn : (blocks.map Prod.fst).Nodup) (hlt : ∀ n ∈ blocks.map Prod.fst, n < 2 ^ 64)
    (hf : ∀ n ∈ blocks.map Prod.fst, asI64 n ∉ l.keys) : (l.insertRange records blocks).Hashed := by
  intro r hr
  rw [mem_blocks_insertRange hn hlt]
  rcases mem_transfers_insertRange hr with hr | hr
  · refine .inr ⟨h r hr, fun n hnb he => hf n hnb ?_⟩
    rw [← he]; exact h.backed r hr
  · exact .inl (hj r hr)

end
end EthIndexer.L2.Lane
