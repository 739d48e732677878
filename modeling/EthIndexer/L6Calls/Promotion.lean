import EthIndexer.L6Calls.Limits

/-!
# Promotion

Readers query `erc20_transfers UNION ALL hot_erc20_transfers` (`combinedTransfers`).
A finalized commit moves a range of this view from the hot to the cold table.

`promotion`: over the numbers of the range the view becomes the payload, each key
once, whatever the hot lane held there; outside it does not change; and at any
moment of the program a reader sees the view before or the view after. A payload
that can be committed is, where no call fails.

`BETWEEN` compares the numbers as `BIGINT`s, so the two ends have to be on one
side of 2^63; `promotion_broken_at_2_63` is a range that crosses it.
-/
namespace EthIndexer.L6
open EthIndexer.L1 EthIndexer.L2

/-- `k` is one of the blocks `first..=last`. -/
def InRange (first last : Nat) (k : Int64) : Prop := first ≤ asU64 k ∧ asU64 k ≤ last

instance (first last : Nat) (k : Int64) : Decidable (InRange first last k) :=
  inferInstanceAs (Decidable (_ ∧ _))

/-- The part of the view inside the range. -/
def viewInside (first last : Nat) (db : Db) : List Erc20TransferRecord :=
  (combinedTransfers db).filter fun r => decide (InRange first last r.blockNumber)

def viewOutside (first last : Nat) (db : Db) : List Erc20TransferRecord :=
  (combinedTransfers db).filter fun r => !decide (InRange first last r.blockNumber)

/-- What the caller of a finalized commit passes: the range as `u64` numbers whose
casts keep their order, its blocks, and records of it that are not cold yet. -/
structure Promotable (first last : Nat) (records : List Erc20TransferRecord)
    (blocks : List (Nat × Bytes)) (db : Db) : Prop where
  first_lt : first < 2 ^ 64
  last_lt : last < 2 ^ 64
  sameSide : first < 2 ^ 63 ↔ last < 2 ^ 63
  blocks_exact : (blocks.map Prod.fst).Perm (rangeIncl first last)
  records_inside : ∀ r ∈ records, InRange first last r.blockNumber
  coldTransfers : ∀ r ∈ db.cold.transfers.rows, ¬ InRange first last r.blockNumber
  coldBlocks : ∀ k ∈ db.cold.keys, ¬ InRange first last k

/-- The range is promoted. -/
structure Promoted (first last : Nat) (records : List Erc20TransferRecord)
    (blocks : List (Nat × Bytes)) (db db' : Db) : Prop where
  inside : viewInside first last db' = Table.firstByKey Erc20TransferRecord.key records
  once : ((viewInside first last db').map Erc20TransferRecord.key).Nodup
  outside : viewOutside first last db' = viewOutside first last db
  hotBlocks : ∀ b, b ∈ db'.hot.blocks.rows ↔
    b ∈ db.hot.blocks.rows ∧ ¬ InRange first last b.blockNumber
  coldBlocks : ∀ b, b ∈ db'.cold.blocks.rows ↔
    b ∈ db.cold.blocks.rows ∨ ∃ n, (n, b.blockHash) ∈ blocks ∧ b.blockNumber = asI64 n
  checkpoint : getCheckpoint db' = last
  liveCheckpoint : getLiveCheckpoint db' = getLiveCheckpoint db

section
variable {first last : Nat} {records : List Erc20TransferRecord} {blocks : List (Nat × Bytes)}
  {db : Db}

/-- Where the casts keep the order, `BETWEEN` is the range. -/
theorem between_iff (h : Promotable first last records blocks db) (k : Int64) :
    (asI64 first ≤ k ∧ k ≤ asI64 last) ↔ InRange first last k := by
  have hk := toInt_eq_asU64 k
  have hlt := asU64_lt k
  have hf := toInt_eq_asU64 (asI64 first)
  have hl := toInt_eq_asU64 (asI64 last)
  obtain ⟨hfirst, hlast, hs, -⟩ := h
  rw [asU64_asI64 hfirst] at hf
  rw [asU64_asI64 hlast] at hl
  rw [Int64.le_iff_toInt_le, Int64.le_iff_toInt_le, InRange]
  omega

theorem firstByKey_inside (h : Promotable first last records blocks db) :
    ∀ r ∈ Table.firstByKey Erc20TransferRecord.key records, InRange first last r.blockNumber :=
  fun r hr => h.records_inside r ((Table.firstByKey_sublist records).mem hr)

/-- The cold table takes each key of the payload once. -/
theorem cold_transfers (h : Promotable first last records blocks db) :
    (db.cold.transfers.insertAllIgnore records).rows =
      db.cold.transfers.rows ++ Table.firstByKey Erc20TransferRecord.key records := by
  rw [Table.insertAllIgnore_rows, List.filter_eq_self.mpr]
  intro r hr
  have hin := firstByKey_inside h r hr
  simp only [decide_eq_true_eq]
  intro hk
  obtain ⟨r', hr', he⟩ := Table.mem_keys.mp hk
  have hnum : r'.blockNumber = r.blockNumber := congrArg (fun k => k.2.2) he
  exact h.coldTransfers r' hr' (hnum ▸ hin)

/-- The hot table keeps what is outside the range. -/
theorem hot_transfers (h : Promotable first last records blocks db) :
    (db.hot.deleteRangeBetween first last).transfers.rows =
      db.hot.transfers.rows.filter fun r => !decide (InRange first last r.blockNumber) := by
  refine List.filter_congr fun r _ => ?_
  simp only [between_iff h r.blockNumber]

theorem numbers_nodup (h : Promotable first last records blocks db) :
    (blocks.map Prod.fst).Nodup :=
  h.blocks_exact.nodup_iff.mpr (rangeIncl_nodup first last)

theorem numbers_inside (h : Promotable first last records blocks db) (n : Nat)
    (hn : n ∈ blocks.map Prod.fst) : n < 2 ^ 64 ∧ InRange first last (asI64 n) := by
  have hmem := mem_rangeIncl.mp (h.blocks_exact.mem_iff.mp hn)
  have hlt : n < 2 ^ 64 := Nat.lt_of_le_of_lt hmem.2 h.last_lt
  refine ⟨hlt, ?_⟩
  rwa [InRange, asU64_asI64 hlt]

/-! ## The commit -/

/-- The view after the commit: the payload has replaced the hot rows of the range. -/
theorem view_commit (h : Promotable first last records blocks db) :
    combinedTransfers (L2.commitFinalizedRange db records blocks first last).1 =
      (db.cold.transfers.rows ++ Table.firstByKey Erc20TransferRecord.key records) ++
        (db.hot.transfers.rows.filter fun r => !decide (InRange first last r.blockNumber)) := by
  rw [← cold_transfers h, ← hot_transfers h]
  rfl

theorem viewInside_commit (h : Promotable first last records blocks db) :
    viewInside first last (L2.commitFinalizedRange db records blocks first last).1 =
      Table.firstByKey Erc20TransferRecord.key records := by
  have hcold : db.cold.transfers.rows.filter
      (fun r => decide (InRange first last r.blockNumber)) = [] :=
    List.filter_eq_nil_iff.mpr fun r hr => by simpa using h.coldTransfers r hr
  have hnew : (Table.firstByKey Erc20TransferRecord.key records).filter
      (fun r => decide (InRange first last r.blockNumber)) =
        Table.firstByKey Erc20TransferRecord.key records :=
    List.filter_eq_self.mpr fun r hr => by simpa using firstByKey_inside h r hr
  rw [viewInside, view_commit h, List.filter_append, List.filter_append, hcold, hnew]
  simp

theorem viewOutside_commit (h : Promotable first last records blocks db) :
    viewOutside first last (L2.commitFinalizedRange db records blocks first last).1 =
      viewOutside first last db := by
  have hcold : db.cold.transfers.rows.filter
      (fun r => !decide (InRange first last r.blockNumber)) = db.cold.transfers.rows :=
    List.filter_eq_self.mpr fun r hr => by simpa using h.coldTransfers r hr
  have hnew : (Table.firstByKey Erc20TransferRecord.key records).filter
      (fun r => !decide (InRange first last r.blockNumber)) = [] :=
    List.filter_eq_nil_iff.mpr fun r hr => by simpa using firstByKey_inside h r hr
  rw [viewOutside, view_commit h, List.filter_append, List.filter_append, hcold, hnew, viewOutside,
    combinedTransfers, List.filter_append, hcold]
  simp

theorem hotBlocks_commit (h : Promotable first last records blocks db) (b : IndexedBlock) :
    b ∈ (L2.commitFinalizedRange db records blocks first last).1.hot.blocks.rows ↔
      b ∈ db.hot.blocks.rows ∧ ¬ InRange first last b.blockNumber := by
  have hd := Lane.mem_blocks_deleteNumbers (l := db.hot) (b := b)
    (p := fun k => decide (asI64 first ≤ k ∧ k ≤ asI64 last))
  rw [decide_eq_false_iff_not, between_iff h] at hd
  exact hd

/-- No cold block has a number of the range, so none is overwritten. -/
theorem coldBlocks_commit (h : Promotable first last records blocks db) (b : IndexedBlock) :
    b ∈ (L2.commitFinalizedRange db records blocks first last).1.cold.blocks.rows ↔
      b ∈ db.cold.blocks.rows ∨ ∃ n, (n, b.blockHash) ∈ blocks ∧ b.blockNumber = asI64 n := by
  have hc : b ∈ (db.cold.insertRange records blocks).blocks.rows ↔ _ :=
    Lane.mem_blocks_insertRange (numbers_nodup h) fun n hn => (numbers_inside h n hn).1
  refine hc.trans (or_comm.trans (or_congr_left (and_iff_left_of_imp fun hb n hn he => ?_)))
  have hin := (numbers_inside h n hn).2
  rw [← he] at hin
  exact h.coldBlocks _ (Table.key_mem hb) hin

/-- What one commit does to a database it may promote a range of. -/
theorem promoted_commit (h : Promotable first last records blocks db) :
    Promoted first last records blocks db
      (L2.commitFinalizedRange db records blocks first last).1 :=
  { inside := viewInside_commit h
    once := by rw [viewInside_commit h]; exact Table.nodup_firstByKey records
    outside := viewOutside_commit h
    hotBlocks := hotBlocks_commit h
    coldBlocks := coldBlocks_commit h
    checkpoint := asU64_asI64 h.last_lt
    liveCheckpoint := rfl }

end

/-- **Promotion.** For every database whose cold tables have no row in the range
and every payload of the range, whichever statements fail: a commit that
succeeds has promoted the range, one that fails has changed nothing, and every
state a reader can see meanwhile is the one before or the one after. Where none
fails, a payload that can be committed is. -/
theorem promotion (first last : Nat) (records : List Erc20TransferRecord)
    (blocks : List (Nat × Bytes)) (db : Db) (fails : Nat → Option Failure)
    (h : Promotable first last records blocks db) :
    let r := (commitFinalizedRange records blocks first last).run fails (.start db)
    (∀ stats, r.1 = .ok stats → Promoted first last records blocks db r.2.db) ∧
    (∀ e, r.1 = .error e → r.2.db = db) ∧
    (∀ d ∈ r.2.seen, d = db ∨ d = r.2.db) ∧
    ((∀ k, fails k = none) → Committable records blocks → ∃ stats, r.1 = .ok stats) := by
  intro r
  have ha := commitFinalizedRange_atomic records blocks first last
  refine ⟨fun stats hs => ?_, fun e he => ha.error _ _ e he, fun d hd => ?_, fun hnever hc => ?_⟩
  · have hp := promoted_commit h
    have he : (r.2.db, stats) = L2.commitFinalizedRange db records blocks first last :=
      ha.ok _ _ stats hs
    rw [← he] at hp
    exact hp
  · obtain ⟨n, m, hseen⟩ := ha.seen fails (.start db)
    rw [hseen] at hd
    rcases List.mem_append.mp hd with hd | hd
    · exact .inl (List.eq_of_mem_replicate hd)
    · exact .inr (List.eq_of_mem_replicate hd)
  · obtain ⟨hr, -⟩ := Program.Ends.of_never commitFinalizedRange_ends hnever (.start db)
    rw [if_pos hc] at hr
    exact ⟨_, Program.toOption_eq_some.mp hr⟩

/-! ## Runs -/

/-- A transfer of block `n` in transaction `txn`, as a payload or a lane has it. -/
def transferAt (n : Nat) (hash txn : UInt8) : Erc20TransferRecord :=
  ⟨asI64 n, [hash], [txn], 0, [7], [0], [0], 5, 0⟩

/-- Block 1 is cold; the hot lane has a stale block 2 and a block 4. -/
def staleHot : Db where
  cold := ⟨Table.empty.insertAllIgnore [transferAt 1 1 1], Table.empty.upsertAll [⟨1, [1]⟩]⟩
  hot := ⟨Table.empty.insertAllIgnore [transferAt 2 9 2, transferAt 4 1 4],
    Table.empty.upsertAll [⟨2, [9]⟩, ⟨4, [1]⟩]⟩
  indexerCheckpoint := 1
  liveIndexerCheckpoint := 4

/-- Blocks 2 and 3 are promoted over the stale fork, with a repeated transfer. -/
theorem promotion_staleHot : ∃ db' : Db,
    ((commitFinalizedRange [transferAt 2 1 3, transferAt 3 1 5, transferAt 2 1 3]
      [(2, [1]), (3, [1])] 2 3).run Program.never (.start staleHot)).2.db = db' ∧
    viewInside 2 3 db' = [transferAt 2 1 3, transferAt 3 1 5] ∧
    Promoted 2 3 [transferAt 2 1 3, transferAt 3 1 5, transferAt 2 1 3] [(2, [1]), (3, [1])]
      staleHot db' := by
  have hcold : ∀ k ∈ staleHot.cold.keys, ¬ InRange 2 3 k := fun k hk => by
    rw [show k = 1 from List.mem_singleton.mp hk]
    decide
  have hp : Promotable 2 3 [transferAt 2 1 3, transferAt 3 1 5, transferAt 2 1 3]
      [(2, [1]), (3, [1])] staleHot :=
    ⟨by decide, by decide, by decide, by decide, by decide, by decide, hcold⟩
  have hr := (promotion 2 3 _ _ staleHot Program.never hp).1 ⟨3, 2, 1, 2⟩ (by rfl)
  exact ⟨_, rfl, hr.inside, hr⟩

/-- The hot lane has a stale block 2^63 - 1, the cold lane is empty. -/
def staleAt63 : Db where
  cold := .empty
  hot := ⟨Table.empty.insertAllIgnore [transferAt (2 ^ 63 - 1) 9 2],
    Table.empty.upsertAll [⟨asI64 (2 ^ 63 - 1), [9]⟩]⟩
  indexerCheckpoint := asI64 (2 ^ 63 - 2)
  liveIndexerCheckpoint := asI64 (2 ^ 63 - 1)

/-- **Counterexample at 2^63.** The second block of the range is stored as -2^63,
`BETWEEN` is empty, and the stale transfer stays in the view of a promoted range
that has no transfers. -/
theorem promotion_broken_at_2_63 :
    let r := (commitFinalizedRange [] [(2 ^ 63 - 1, [1]), (2 ^ 63, [1])] (2 ^ 63 - 1) (2 ^ 63)).run
      Program.never (.start staleAt63)
    r.1 = .ok ⟨0, 0, 0, 2⟩ ∧
    viewInside (2 ^ 63 - 1) (2 ^ 63) r.2.db = [transferAt (2 ^ 63 - 1) 9 2] ∧
    asI64 (2 ^ 63 - 1) ∈ r.2.db.hot.keys :=
  ⟨by rfl, by decide, by decide⟩

end EthIndexer.L6
