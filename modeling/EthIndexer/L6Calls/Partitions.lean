import EthIndexer.Core.Positional
import EthIndexer.Core.RangePartition
import EthIndexer.L6Calls.Limits

/-!
# Partitions of a transfers table

`ensure_partitions_for_range_tx` creates the partitions of a batch before the batch
is inserted; no migration creates any. A partition starts at a multiple of
`BLOCK_PARTITION_SIZE`, has that width and has both bounds in its name, so for
blocks from 0 on all that is ever requested is one tiling of the numbers
(`tiling`), and what the calls of a table leave behind is what `Core.RangePartition`
says of one.

`partition_coverage`: after any calls each block of their ranges is in exactly one
partition, no statement asks for an overlapping one, and a batch finds the
partitions of its records. For a block without a partition the calls fail
(`ensurePartitions_fails`).
-/
namespace EthIndexer.L6
open EthIndexer.L1 EthIndexer.L2
open RangePartition (Catalog)

abbrev Partition := RangePartition String Int

/-- mirrors crates/storage/src/lib.rs:426-427 -/
def partitionAt (table : String) (partitionStart : Int) : Partition where
  name := table ++ "_p" ++ toString partitionStart ++ "_" ++
    toString (partitionStart + BLOCK_PARTITION_SIZE)
  lo := partitionStart
  hi := partitionStart + BLOCK_PARTITION_SIZE

/-- The statement that creates the partition. -/
def createOf (table : String) (p : Partition) : Statement :=
  .new ("CREATE TABLE IF NOT EXISTS " ++ p.name ++ "\n             PARTITION OF " ++ table ++
    "\n             FOR VALUES FROM (" ++ toString p.lo ++ ") TO (" ++ toString p.hi ++ ")")

def partitionsFrom (table : String) : Nat → Int → List Partition
  | 0, _ => []
  | rounds + 1, partitionStart =>
    partitionAt table partitionStart ::
      partitionsFrom table rounds (partitionStart + BLOCK_PARTITION_SIZE)

/-- The partitions one call requests, in this order. -/
def requested (table : String) (r : Int64 × Int64) : List Partition :=
  partitionsFrom table (partitionRounds (partitionStartOf r.1) (partitionStartOf r.2))
    (partitionStartOf r.1)

/-- The partitions of a table after a call. -/
def ensureOn (table : String) (c : Catalog String Int) (r : Int64 × Int64) :
    Except String (Catalog String Int) :=
  c.createAll (requested table r)

/-- The calls whose transactions committed, one after the other; a transaction that
is rolled back takes its partitions with it. -/
def ensureEach (table : String) (calls : List (Int64 × Int64)) : Except String (Catalog String Int) :=
  calls.foldlM (ensureOn table) .empty

structure InBounds (r : Int64 × Int64) : Prop where
  nonneg : 0 ≤ r.1.toInt
  ordered : r.1.toInt ≤ r.2.toInt
  below : r.2.toInt ≤ 2 ^ 63 - 1 - 200000

/-- The loop ends by its condition, whatever the fuel; it requests the partitions of
the range in order and stops only where a statement fails. -/
structure LoopEnds (table : String) (r : Int64 × Int64) : Prop where
  ends : ∀ k, ensurePartitionsFrom table (partitionStartOf r.2)
    (partitionRounds (partitionStartOf r.1) (partitionStartOf r.2) + k) (partitionStartOf r.1) =
      ensurePartitionsForRangeTx table r.1 r.2
  script : (ensurePartitionsForRangeTx table r.1 r.2).Script ((requested table r).map (createOf table))

/-- What the calls leave behind. -/
structure Covering (table : String) (calls : List (Int64 × Int64)) (c : Catalog String Int) :
    Prop where
  covers : ∀ r ∈ calls, ∀ n, r.1.toInt ≤ n → n ≤ r.2.toInt →
    ∃! p, p ∈ c.partitions ∧ p.Covers n
  inserts : ∀ (record : Erc20TransferRecord) (rest : List Erc20TransferRecord),
    ((rest.map Erc20TransferRecord.blockNumber).foldl min record.blockNumber,
      (rest.map Erc20TransferRecord.blockNumber).foldl max record.blockNumber) ∈ calls →
    ∀ r ∈ record :: rest, ∃ p, c.route r.blockNumber.toInt = some p
  requested : ∀ p, p ∈ c.partitions ↔ ∃ r ∈ calls, p ∈ requested table r

/-! ## The loop -/

theorem createPartition_eq (table : String) (partitionStart : Int) :
    createPartition table partitionStart (partitionStart + BLOCK_PARTITION_SIZE) =
      createOf table (partitionAt table partitionStart) := by
  simp only [createPartition, createOf, partitionAt, String.append_assoc]

/-- Without overflow the loop requests one partition each round. -/
theorem ensurePartitionsFrom_script {table : String} {last : Int}
    (hlast : last + BLOCK_PARTITION_SIZE < 2 ^ 63) {fuel : Nat} {p : Int} (hp : 0 ≤ p)
    (hfuel : fuel = partitionRounds p last) :
    (ensurePartitionsFrom table last fuel p).Script
      ((partitionsFrom table fuel p).map (createOf table)) := by
  induction fuel generalizing p with
  | zero => exact .pure ()
  | succ fuel ih =>
    simp only [partitionRounds, BLOCK_PARTITION_SIZE] at hfuel
    have hle : p ≤ last := by omega
    have hadd := checkedAdd_ok hlast hp hle
    have htail := ih (p := p + BLOCK_PARTITION_SIZE)
      (by simp only [BLOCK_PARTITION_SIZE]; omega)
      (by simp only [partitionRounds, BLOCK_PARTITION_SIZE]; omega)
    rw [ensurePartitionsFrom, if_pos hle, hadd, Program.ofExcept_ok_bind, createPartition_eq]
    rw [submit_eq _ (Nat.zero_le _)]
    exact (Program.Script.execute _ fun _ => if_pos hp).bind fun _ => htail

theorem loopEnds (table : String) {r : Int64 × Int64} (h : InBounds r) : LoopEnds table r where
  ends k := ensurePartitionsFrom_fuel table _ k (Nat.le_refl _)
  script := by
    refine ensurePartitionsFrom_script ?_ (partitionStartOf_nonneg h.nonneg) rfl
    have hlt := mt partitionEnd_overflows.mp
      (show ¬ lastPartition ≤ r.2.toInt from by have := h.below; simp only [lastPartition]; omega)
    exact Int.not_le.mp hlt

/-! ## The partitions of a range -/

theorem mem_partitionsFrom {table : String} {rounds : Nat} {partitionStart : Int} {p : Partition} :
    p ∈ partitionsFrom table rounds partitionStart ↔
      ∃ i : Nat, i < rounds ∧ p = partitionAt table (partitionStart + i * BLOCK_PARTITION_SIZE) := by
  induction rounds generalizing partitionStart with
  | zero => simp [partitionsFrom]
  | succ rounds ih =>
    rw [partitionsFrom, List.mem_cons, ih]
    constructor
    · rintro (rfl | ⟨i, hi, rfl⟩)
      · exact ⟨0, Nat.succ_pos _, by simp⟩
      · refine ⟨i + 1, Nat.succ_lt_succ hi, congrArg (partitionAt table) ?_⟩
        simp only [BLOCK_PARTITION_SIZE]
        omega
    · rintro ⟨i, hi, rfl⟩
      cases i with
      | zero => exact .inl (by simp)
      | succ i =>
        refine .inr ⟨i, Nat.lt_of_succ_lt_succ hi, congrArg (partitionAt table) ?_⟩
        simp only [BLOCK_PARTITION_SIZE]
        omega

/-- The partitions of the blocks from 0 on. -/
def IsTile (table : String) (p : Partition) : Prop :=
  ∃ n : Nat, BLOCK_PARTITION_SIZE ∣ (n : Int) ∧ p = partitionAt table n

theorem partitionStartOf_of_nonneg {b : Int64} (h : 0 ≤ b.toInt) :
    partitionStartOf b = b.toInt / BLOCK_PARTITION_SIZE * BLOCK_PARTITION_SIZE :=
  (partitionStartOf_cases b).elim And.right fun hn => absurd hn.1 (by omega)

theorem isTile_of_requested {table : String} {r : Int64 × Int64} (h : InBounds r) {p : Partition}
    (hp : p ∈ requested table r) : IsTile table p := by
  obtain ⟨i, -, rfl⟩ := mem_partitionsFrom.mp hp
  have hstart := partitionStartOf_of_nonneg h.nonneg
  have hnonneg := h.nonneg
  refine ⟨(partitionStartOf r.1 + i * BLOCK_PARTITION_SIZE).toNat, ?_, congrArg (partitionAt table) ?_⟩
  · simp only [BLOCK_PARTITION_SIZE] at hstart ⊢
    omega
  · simp only [BLOCK_PARTITION_SIZE] at hstart ⊢
    omega

theorem lo_le_of_requested {table : String} {r : Int64 × Int64} (h : InBounds r) {p : Partition}
    (hp : p ∈ requested table r) : p.lo ≤ r.2.toInt := by
  obtain ⟨i, hi, rfl⟩ := mem_partitionsFrom.mp hp
  have hlast := partitionStartOf_of_nonneg (Int.le_trans h.nonneg h.ordered)
  simp only [partitionRounds, partitionAt, BLOCK_PARTITION_SIZE] at hi hlast ⊢
  omega

/-- Each block of the range has its partition requested. -/
theorem requested_covers {table : String} {r : Int64 × Int64} (h : InBounds r) {n : Int}
    (hlo : r.1.toInt ≤ n) (hhi : n ≤ r.2.toInt) : ∃ p ∈ requested table r, p.Covers n := by
  have hfirst := partitionStartOf_of_nonneg h.nonneg
  have hlast := partitionStartOf_of_nonneg (Int.le_trans h.nonneg h.ordered)
  have hnonneg := h.nonneg
  have hround : 0 ≤ n / BLOCK_PARTITION_SIZE - r.1.toInt / BLOCK_PARTITION_SIZE := by
    simp only [BLOCK_PARTITION_SIZE]
    omega
  -- the block is in the partition of this round
  refine ⟨_, mem_partitionsFrom.mpr
    ⟨(n / BLOCK_PARTITION_SIZE - r.1.toInt / BLOCK_PARTITION_SIZE).toNat, ?_, rfl⟩, ?_⟩
  · rw [hfirst, hlast]
    simp only [partitionRounds, BLOCK_PARTITION_SIZE]
    omega
  · have hstart : partitionStartOf r.1 + ↑(n / BLOCK_PARTITION_SIZE -
        r.1.toInt / BLOCK_PARTITION_SIZE).toNat * BLOCK_PARTITION_SIZE =
          n / BLOCK_PARTITION_SIZE * BLOCK_PARTITION_SIZE := by
      rw [hfirst, Int.toNat_of_nonneg hround]
      simp only [BLOCK_PARTITION_SIZE]
      omega
    rw [hstart]
    simp only [RangePartition.Covers, partitionAt, BLOCK_PARTITION_SIZE]
    omega

/-! ## One tiling -/

theorem toList_name (table : String) (n : Nat) : (partitionAt table n).name.toList =
    table.toList ++ ['_', 'p'] ++ (Nat.toDigits 10 n ++
      '_' :: Nat.toDigits 10 (n + 100000)) := by
  have hlo : (toString (n : Int)).toList = Nat.toDigits 10 n := Nat.toList_repr
  have hhi : (toString ((n : Int) + BLOCK_PARTITION_SIZE)).toList = Nat.toDigits 10 (n + 100000) :=
    Nat.toList_repr
  simp only [partitionAt, String.toList_append, hlo, hhi, List.append_assoc]
  rfl

/-- The lower bound can be read off the name. -/
theorem partitionAt_inj {table : String} {m n : Nat}
    (h : (partitionAt table m).name = (partitionAt table n).name) : m = n := by
  have hl := congrArg String.toList h
  rw [toList_name, toList_name] at hl
  exact Positional.toDigits_append_inj (by decide) (List.append_cancel_left hl)

theorem tiling (table : String) : Catalog.Tiling (IsTile table) where
  nonempty := by
    rintro _ ⟨n, -, rfl⟩
    simp only [partitionAt, BLOCK_PARTITION_SIZE]
    omega
  named := by
    rintro _ _ ⟨m, -, rfl⟩ ⟨n, -, rfl⟩ h
    rw [partitionAt_inj h]
  apart := by
    rintro _ _ ⟨m, hm, rfl⟩ ⟨n, hn, rfl⟩
    rcases eq_or_ne m n with rfl | hne
    · exact .inl rfl
    · -- different multiples are a partition apart
      refine .inr ?_
      simp only [RangePartition.Apart, partitionAt]
      simp only [BLOCK_PARTITION_SIZE] at hm hn ⊢
      omega

/-! ## Any sequence of calls -/

theorem ensureEach_eq (table : String) (calls : List (Int64 × Int64)) (c : Catalog String Int) :
    calls.foldlM (ensureOn table) c = c.createAll (calls.flatMap (requested table)) := by
  induction calls generalizing c with
  | nil => rfl
  | cons r calls ih =>
    rw [List.flatMap_cons, Catalog.createAll, List.foldlM_append, List.foldlM_cons]
    exact congrArg (ensureOn table c r >>= ·) (funext ih)

/-- No call is refused, and each partition left was requested. -/
theorem ensureEach_ok {table : String} {calls : List (Int64 × Int64)}
    (h : ∀ r ∈ calls, InBounds r) : ∃ c, ensureEach table calls = .ok c ∧
      ∀ p, p ∈ c.partitions ↔ ∃ r ∈ calls, p ∈ requested table r := by
  have htile : ∀ p ∈ calls.flatMap (requested table), IsTile table p := by
    intro p hp
    obtain ⟨r, hr, hp⟩ := List.mem_flatMap.mp hp
    exact isTile_of_requested (h r hr) hp
  obtain ⟨c, hc, hmem⟩ := Catalog.createAll_ok (tiling table) (c := .empty) nofun htile
  refine ⟨c, (ensureEach_eq table calls .empty).trans hc, fun p => ?_⟩
  rw [hmem, List.mem_flatMap]
  exact or_iff_left List.not_mem_nil

theorem covering {table : String} {calls : List (Int64 × Int64)} (h : ∀ r ∈ calls, InBounds r)
    {c : Catalog String Int} (hmem : ∀ p, p ∈ c.partitions ↔ ∃ r ∈ calls, p ∈ requested table r) :
    Covering table calls c where
  covers r hr n hlo hhi := by
    obtain ⟨p, hp, hcov⟩ := requested_covers (h r hr) hlo hhi
    exact Catalog.existsUnique_covers ((hmem p).mpr ⟨r, hr, hp⟩) hcov
  inserts record rest hcall r hr := by
    have hb : r.blockNumber ∈ record.blockNumber :: rest.map Erc20TransferRecord.blockNumber :=
      List.mem_map_of_mem (f := Erc20TransferRecord.blockNumber) hr
    have hmin := (foldl_min_spec (rest.map Erc20TransferRecord.blockNumber) _).2 _ hb
    have hmax := (foldl_max_spec (rest.map Erc20TransferRecord.blockNumber) _).2 _ hb
    obtain ⟨p, hp, hcov⟩ := requested_covers (h _ hcall) hmin hmax
    exact ⟨p, Catalog.route_eq_some.mpr ⟨(hmem p).mpr ⟨_, hcall, hp⟩, hcov⟩⟩
  requested := hmem

/-! ## Names -/

/-- The server cuts identifiers off after 63 bytes; the names are ASCII. -/
def MAX_IDENTIFIER_LENGTH : Nat := 63

theorem length_bounds_le {table : String} {lo hi : List Char} (hlo : lo.length ≤ 19)
    (hhi : hi.length ≤ 19) :
    (table.toList ++ ['_', 'p'] ++ (lo ++ '_' :: hi)).length ≤ table.length + 41 := by
  simp only [List.length_append, List.length_cons, List.length_nil, String.length_toList]
  omega

theorem length_name_le {table : String} {n : Nat} (h : n + 100000 < 10 ^ 19) :
    (partitionAt table n).name.length ≤ table.length + 41 := by
  have hlo : (Nat.toDigits 10 n).length ≤ 19 :=
    (Nat.length_toDigits_le_iff (by decide) (by decide)).mpr
      (Nat.lt_of_le_of_lt (Nat.le_add_right _ _) h)
  have hhi : (Nat.toDigits 10 (n + 100000)).length ≤ 19 :=
    (Nat.length_toDigits_le_iff (by decide) (by decide)).mpr h
  rw [← String.length_toList, toList_name]
  exact length_bounds_le hlo hhi

/-- Both tables' names leave room for the bounds, so no two names are cut to one. -/
theorem name_fits (lane : LaneName) {r : Int64 × Int64} (h : InBounds r) {p : Partition}
    (hp : p ∈ requested lane.transfersTable r) : p.name.length ≤ MAX_IDENTIFIER_LENGTH := by
  obtain ⟨n, -, rfl⟩ := isTile_of_requested h hp
  have hlo := lo_le_of_requested h hp
  have hbelow := h.below
  simp only [partitionAt] at hlo
  have hlen : (partitionAt lane.transfersTable n).name.length ≤ _ := length_name_le (by omega)
  have htable : lane.transfersTable.length ≤ 19 := by cases lane <;> decide
  simp only [MAX_IDENTIFIER_LENGTH]
  omega

/-! ## Coverage -/

/-- **Partition coverage.** For every sequence of calls on one table with ranges from
0 to `i64::MAX - 200000`: each call's loop ends, without overflow; after the calls
each number of each range is in exactly one partition, and the transfers of a batch
whose blocks span such a range are all routed; two partitions requested are the same
or differ in name and do not overlap. -/
theorem partition_coverage (table : String) (calls : List (Int64 × Int64))
    (h : ∀ r ∈ calls, InBounds r) :
    (∀ r ∈ calls, LoopEnds table r) ∧
    (∃ c, ensureEach table calls = .ok c ∧ Covering table calls c) ∧
    (∀ r ∈ calls, ∀ p ∈ requested table r, ∀ r' ∈ calls, ∀ q ∈ requested table r',
      p = q ∨ p.name ≠ q.name ∧ p.Apart q) ∧
    (∀ lane : LaneName, table = lane.transfersTable →
      ∀ r ∈ calls, ∀ p ∈ requested table r, p.name.length ≤ MAX_IDENTIFIER_LENGTH) := by
  refine ⟨fun r hr => loopEnds table (h r hr), ?_, ?_, ?_⟩
  · obtain ⟨c, hc, hmem⟩ := ensureEach_ok h
    exact ⟨c, hc, covering h hmem⟩
  · intro r hr p hp r' hr' q hq
    have hpt := isTile_of_requested (h r hr) hp
    have hqt := isTile_of_requested (h r' hr') hq
    rcases (tiling table).apart p q hpt hqt with he | ha
    · exact .inl he
    · by_cases hname : p.name = q.name
      · exact .inl ((tiling table).named p q hpt hqt hname)
      · exact .inr ⟨hname, ha⟩
  · rintro lane rfl r hr p hp
    exact name_fits lane (h r hr) hp

/-- Two batches, the second from the last block of a partition into the next. -/
theorem partition_coverage_boundary : ∃ c,
    ensureEach "erc20_transfers" [(0, 100000), (199999, 200000)] = .ok c ∧
    (∃! p, p ∈ c.partitions ∧ p.Covers 100000) ∧ (∃! p, p ∈ c.partitions ∧ p.Covers 200000) := by
  have hbounds : ∀ r ∈ [((0 : Int64), (100000 : Int64)), (199999, 200000)], InBounds r := by
    simp only [List.forall_mem_cons, List.not_mem_nil, IsEmpty.forall_iff, implies_true, and_true]
    exact ⟨⟨by decide, by decide, by decide⟩, ⟨by decide, by decide, by decide⟩⟩
  obtain ⟨-, ⟨c, hc, hcov⟩, -⟩ := partition_coverage "erc20_transfers" _ hbounds
  refine ⟨c, hc, hcov.covers _ List.mem_cons_self _ (by decide) (by decide), ?_⟩
  exact hcov.covers (199999, 200000) (List.mem_cons_of_mem _ List.mem_cons_self) _ (by decide)
    (by decide)

end EthIndexer.L6
