import EthIndexer.L3Engine.BuildRange
import EthIndexer.L6Calls.Statements

/-!
# The size of a range

A batch is bounded by its number of blocks and not by its number of transfers,
but one `INSERT` binds nine values for each transfer. `bind_limit`: the statements
of both commits stay within the protocol's limit exactly when the decoder
accepts few enough logs of the range (`Fits`). Beyond that the commit fails in
every run, so the worker stops at this range after each restart.

The `INSERT` comes after the partitions. It is never reached where a transfer is
`Unpartitioned`: of a block so high that the end of its partition overflows, or
that is stored so far below 0 that the name of its partition does not parse
(`ensurePartitions_fails`).

`commitFinalizedRange_ends`, `commitHotRange_ends`: where no call fails, a
`Committable` batch is committed, and any other one is not (`commits_fail`).
`commitFinalizedRange_raises`, `commitHotRange_raises`: a commit panics only where
its batch is not `Committable`.
-/
namespace EthIndexer.L6
open EthIndexer.L1 EthIndexer.L2 EthIndexer.L3

/-- Every statement, in every run, has at most as many binds as the protocol carries. -/
def Within {α : Type} (p : Calls α) : Prop :=
  p.Issues fun q => q.arguments.length ≤ MAX_BIND_PARAMETERS

/-- There is no partition for this number: its start would be negative, or its end
does not fit an `i64`. -/
def Unpartitioned (block : Int64) : Prop :=
  block.toInt ≤ -BLOCK_PARTITION_SIZE ∨ lastPartition ≤ block.toInt

instance (block : Int64) : Decidable (Unpartitioned block) :=
  inferInstanceAs (Decidable (_ ∨ _))

/-- The range's transfers fit one statement, or the `INSERT` is not reached. -/
def Fits (logs : List Log) : Prop :=
  9 * (accepted logs).length ≤ MAX_BIND_PARAMETERS ∨
    ∃ log ∈ accepted logs, ∃ n ∈ log.blockNumber, Unpartitioned (asI64 n)

/-! ## Binds of the statements -/

theorem insertTransfersQuery_arguments (table : String) (records : List Erc20TransferRecord) :
    (insertTransfersQuery table records).arguments.length = 9 * records.length := by
  have h : (insertTransfersQuery table records).arguments = [] ++ records.flatMap transferBinds :=
    L5.QueryBuilder.pushValues_arguments _ _ _
  rw [h, List.nil_append, List.length_flatMap]
  simp [transferBinds, Nat.mul_comm]

theorem insertBlocksQuery_arguments (table : String) (blocks : List (Nat × Bytes)) :
    (insertBlocksQuery table blocks).arguments.length = 2 * blocks.length := by
  have h : (insertBlocksQuery table blocks).arguments = [] ++ blocks.flatMap blockBinds :=
    L5.QueryBuilder.pushValues_arguments _ _ _
  rw [h, List.nil_append, List.length_flatMap]
  simp [blockBinds, Nat.mul_comm]

/-! ## Partitions -/

theorem createPartition_completes (table : String) {p : Int} (partitionEnd : Int) (hp : 0 ≤ p) :
    (submit (createPartition table p partitionEnd) (createPartitionEffect p)).Completes
      fun db => ((), db) :=
  submit_completes (Nat.zero_le _) fun _ => if_pos hp

theorem checkedAdd_ok {p last : Int} (hlast : last + BLOCK_PARTITION_SIZE < 2 ^ 63) (hp : 0 ≤ p)
    (hle : p ≤ last) : checkedAdd p BLOCK_PARTITION_SIZE = .ok (p + BLOCK_PARTITION_SIZE) := by
  simp only [BLOCK_PARTITION_SIZE] at hlast
  unfold checkedAdd
  rw [if_pos (by simp only [BLOCK_PARTITION_SIZE]; omega)]

/-- From 0 on and without overflow the loop completes when no call fails. -/
theorem ensurePartitionsFrom_completes {table : String} {last : Int}
    (hlast : last + BLOCK_PARTITION_SIZE < 2 ^ 63) {fuel : Nat} {p : Int} (hp : 0 ≤ p) :
    (ensurePartitionsFrom table last fuel p).Completes fun db => ((), db) := by
  induction fuel generalizing p with
  | zero => exact .pure ()
  | succ fuel ih =>
    rw [ensurePartitionsFrom]
    split
    · rename_i hle
      rw [checkedAdd_ok hlast hp hle, Program.ofExcept_ok_bind]
      refine (createPartition_completes table _ hp).bind fun _ => ih ?_
      simp only [BLOCK_PARTITION_SIZE]
      omega
    · exact .pure ()

/-- With enough rounds to reach a partition whose end overflows, the loop fails. -/
theorem ensurePartitionsFrom_fails {table : String} {last : Int}
    (hlast : 2 ^ 63 ≤ last + BLOCK_PARTITION_SIZE) {fuel : Nat} {p : Int} (hle : p ≤ last)
    (hdvd : BLOCK_PARTITION_SIZE ∣ last - p) (hfuel : partitionRounds p last ≤ fuel) :
    (ensurePartitionsFrom table last fuel p).Fails := by
  induction fuel generalizing p with
  | zero =>
    simp only [partitionRounds, BLOCK_PARTITION_SIZE] at hfuel
    omega
  | succ fuel ih =>
    rw [ensurePartitionsFrom, if_pos hle]
    unfold checkedAdd
    split
    · rename_i hadd
      simp only [BLOCK_PARTITION_SIZE] at hadd hlast hdvd
      rw [Program.ofExcept_ok_bind]
      refine Program.Fails.bind_right _ fun _ => ih ?_ ?_ ?_
      · simp only [BLOCK_PARTITION_SIZE]
        omega
      · simp only [BLOCK_PARTITION_SIZE]
        omega
      · simp only [partitionRounds, BLOCK_PARTITION_SIZE] at hfuel ⊢
        omega
    · exact fun _ _ => ⟨_, rfl⟩

/-- Below 0 the first round fails. -/
theorem ensurePartitionsFrom_fails_below {table : String} {last : Int} {fuel : Nat} {p : Int}
    (hp : p < 0) (hle : p ≤ last) (hfuel : partitionRounds p last ≤ fuel) :
    (ensurePartitionsFrom table last fuel p).Fails := by
  cases fuel with
  | zero =>
    simp only [partitionRounds, BLOCK_PARTITION_SIZE] at hfuel
    omega
  | succ fuel =>
    rw [ensurePartitionsFrom, if_pos hle]
    refine Program.Fails.bind_right _ fun _ => Program.Fails.bind_left ?_ _
    rw [submit_eq _ (Nat.zero_le _)]
    exact .execute _ fun _ => ⟨_, if_neg (Int.not_le.mpr hp)⟩

theorem partitionStartOf_cases (b : Int64) :
    (0 ≤ b.toInt ∧ partitionStartOf b = b.toInt / BLOCK_PARTITION_SIZE * BLOCK_PARTITION_SIZE) ∨
    (b.toInt < 0 ∧
      partitionStartOf b = -(-b.toInt / BLOCK_PARTITION_SIZE * BLOCK_PARTITION_SIZE)) := by
  unfold partitionStartOf
  rcases Int.lt_or_le b.toInt 0 with h | h
  · have hpos : (-b.toInt).tdiv BLOCK_PARTITION_SIZE = -b.toInt / BLOCK_PARTITION_SIZE :=
      Int.tdiv_eq_ediv_of_nonneg (by omega)
    rw [Int.neg_tdiv] at hpos
    refine .inr ⟨h, ?_⟩
    rw [← hpos, Int.neg_mul, Int.neg_neg]
  · exact .inl ⟨h, by rw [Int.tdiv_eq_ediv_of_nonneg h]⟩

theorem partitionStartOf_neg {b : Int64} :
    partitionStartOf b < 0 ↔ b.toInt ≤ -BLOCK_PARTITION_SIZE := by
  have h := partitionStartOf_cases b
  simp only [BLOCK_PARTITION_SIZE] at h ⊢
  omega

theorem partitionStartOf_nonneg {b : Int64} (h : 0 ≤ b.toInt) : 0 ≤ partitionStartOf b := by
  have hb := partitionStartOf_cases b
  simp only [BLOCK_PARTITION_SIZE] at hb
  omega

theorem partitionStartOf_mono {a b : Int64} (h : a.toInt ≤ b.toInt) :
    partitionStartOf a ≤ partitionStartOf b := by
  have ha := partitionStartOf_cases a
  have hb := partitionStartOf_cases b
  simp only [BLOCK_PARTITION_SIZE] at ha hb
  omega

/-- The end of a partition overflows from `lastPartition` on. -/
theorem partitionEnd_overflows {b : Int64} :
    2 ^ 63 ≤ partitionStartOf b + BLOCK_PARTITION_SIZE ↔ lastPartition ≤ b.toInt := by
  have hlo := b.le_toInt
  have hhi := b.toInt_lt
  have h := partitionStartOf_cases b
  simp only [BLOCK_PARTITION_SIZE] at h ⊢
  simp only [lastPartition]
  omega

/-! ## The blocks of a batch -/

theorem foldl_max_spec (l : List Int64) (a : Int64) :
    l.foldl max a ∈ a :: l ∧ ∀ k ∈ a :: l, k.toInt ≤ (l.foldl max a).toInt := by
  have hmax : (a :: l).max? = some (l.foldl max a) := List.max?_cons'
  obtain ⟨hmem, hle⟩ := List.max?_eq_some_iff.mp hmax
  exact ⟨hmem, fun k hk => Int64.le_iff_toInt_le.mp (hle k hk)⟩

theorem foldl_min_spec (l : List Int64) (a : Int64) :
    l.foldl min a ∈ a :: l ∧ ∀ k ∈ a :: l, (l.foldl min a).toInt ≤ k.toInt := by
  have hmin : (a :: l).min? = some (l.foldl min a) := List.min?_cons'
  obtain ⟨hmem, hle⟩ := List.min?_eq_some_iff.mp hmin
  exact ⟨hmem, fun k hk => Int64.le_iff_toInt_le.mp (hle k hk)⟩

/-- A transfer of the batch has no partition. -/
def SomeUnpartitioned (records : List Erc20TransferRecord) : Prop :=
  ∃ r ∈ records, Unpartitioned r.blockNumber

theorem someUnpartitioned_not {records : List Erc20TransferRecord} (h : ∀ r ∈ records,
    0 ≤ r.blockNumber.toInt ∧ r.blockNumber.toInt < lastPartition) :
    ¬ SomeUnpartitioned records := by
  intro ⟨r, hr, hout⟩
  obtain ⟨h0, hlt⟩ := h r hr
  simp only [Unpartitioned, BLOCK_PARTITION_SIZE] at hout
  omega

section
variable {table : String} {record : Erc20TransferRecord} {rest : List Erc20TransferRecord}

/-- The call that `insert_transfers_into_tx` makes for a batch. -/
abbrev ensurePartitions (table : String) (record : Erc20TransferRecord)
    (rest : List Erc20TransferRecord) : Calls Unit :=
  ensurePartitionsForRangeTx table
    ((rest.map Erc20TransferRecord.blockNumber).foldl min record.blockNumber)
    ((rest.map Erc20TransferRecord.blockNumber).foldl max record.blockNumber)

theorem ensurePartitions_fails (h : SomeUnpartitioned (record :: rest)) :
    (ensurePartitions table record rest).Fails := by
  obtain ⟨r, hr, hout⟩ := h
  have hmax := foldl_max_spec (rest.map Erc20TransferRecord.blockNumber) record.blockNumber
  have hmin := foldl_min_spec (rest.map Erc20TransferRecord.blockNumber) record.blockNumber
  have hmem : r.blockNumber ∈ record.blockNumber :: rest.map Erc20TransferRecord.blockNumber :=
    List.mem_map_of_mem (f := Erc20TransferRecord.blockNumber) hr
  have hle := partitionStartOf_mono ((hmin.2 _ hmem).trans (hmax.2 _ hmem))
  rcases hout with hneg | hlast
  · refine ensurePartitionsFrom_fails_below (partitionStartOf_neg.mpr ?_) hle (Nat.le_refl _)
    exact (hmin.2 _ hmem).trans hneg
  · refine ensurePartitionsFrom_fails ?_ hle ?_ (Nat.le_refl _)
    · exact partitionEnd_overflows.mpr (hlast.trans (hmax.2 _ hmem))
    · simp only [partitionStartOf, BLOCK_PARTITION_SIZE]
      omega

/-- The bounds of the loop where every transfer has a partition. -/
theorem partition_bounds (h : ¬ SomeUnpartitioned (record :: rest)) :
    0 ≤ partitionStartOf
        ((rest.map Erc20TransferRecord.blockNumber).foldl min record.blockNumber) ∧
      partitionStartOf
        ((rest.map Erc20TransferRecord.blockNumber).foldl max record.blockNumber) +
          BLOCK_PARTITION_SIZE < 2 ^ 63 := by
  have hnone : ∀ b ∈ record.blockNumber :: rest.map Erc20TransferRecord.blockNumber,
      ¬ Unpartitioned b := by
    intro b hb hout
    obtain ⟨r, hr, rfl⟩ : ∃ r ∈ record :: rest, r.blockNumber = b := List.mem_map.mp hb
    exact h ⟨r, hr, hout⟩
  refine ⟨Int.not_lt.mp fun hneg => ?_, Int.not_le.mp fun hge => ?_⟩
  · exact hnone _ (foldl_min_spec _ _).1 (.inl (partitionStartOf_neg.mp hneg))
  · exact hnone _ (foldl_max_spec _ _).1 (.inr (partitionEnd_overflows.mp hge))

theorem ensurePartitions_completes (h : ¬ SomeUnpartitioned (record :: rest)) :
    (ensurePartitions table record rest).Completes fun db => ((), db) :=
  ensurePartitionsFrom_completes (partition_bounds h).2 (partition_bounds h).1

end

/-! ## The statements of a commit -/

theorem within_submit {α : Type} {q : Statement} (effect : Db → Except Failure (α × Db))
    (h : q.arguments.length ≤ MAX_BIND_PARAMETERS) : Within (submit q effect) := by
  rw [submit_eq effect h]
  exact .execute q h _

theorem within_execute {α : Type} {q : Statement} (effect : Db → α × Db)
    (h : q.arguments.length ≤ MAX_BIND_PARAMETERS) : Within (execute q effect) :=
  within_submit _ h

theorem submit_fails {α : Type} {q : Statement} {effect : Db → Except Failure (α × Db)}
    (h : MAX_BIND_PARAMETERS < q.arguments.length) : (submit q effect).Fails := by
  rw [submit, if_neg (Nat.not_le.mpr h)]
  exact .refuse q _

/-- A statement over the limit is handed over all the same. -/
theorem submit_tries {α : Type} (q : Statement) (effect : Db → Except Failure (α × Db)) :
    (submit q effect).Tries q := by
  unfold submit
  split
  · exact .execute q effect
  · exact .refuse q _

theorem within_ensurePartitionsFrom (table : String) (last : Int) (fuel : Nat) (p : Int) :
    Within (ensurePartitionsFrom table last fuel p) := by
  induction fuel generalizing p with
  | zero => exact .pure ()
  | succ fuel ih =>
    rw [ensurePartitionsFrom]
    split
    · cases checkedAdd p BLOCK_PARTITION_SIZE with
      | error e => exact .of_session fun _ _ => rfl
      | ok partitionEnd =>
        exact (within_submit _ (Nat.zero_le _)).bind fun _ => ih partitionEnd
    · exact .pure ()

theorem within_insertBlocksIntoTx (lane : LaneName) {blocks : List (Nat × Bytes)}
    (h : 2 * blocks.length ≤ MAX_BIND_PARAMETERS) : Within (insertBlocksIntoTx lane blocks) := by
  cases blocks with
  | nil => exact .pure ()
  | cons block rest => exact within_submit _ (by rwa [insertBlocksQuery_arguments])

theorem insertBlocksIntoTx_fails (lane : LaneName) {blocks : List (Nat × Bytes)}
    (h : MAX_BIND_PARAMETERS < 2 * blocks.length) : (insertBlocksIntoTx lane blocks).Fails := by
  cases blocks with
  | nil => cases h
  | cons block rest => exact submit_fails (by rwa [insertBlocksQuery_arguments])

section
variable {lane : LaneName} {records : List Erc20TransferRecord}

theorem within_insertTransfersIntoTx (lane : LaneName)
    (h : 9 * records.length ≤ MAX_BIND_PARAMETERS ∨ SomeUnpartitioned records) :
    Within (insertTransfersIntoTx lane records) := by
  cases records with
  | nil => exact .pure 0
  | cons record rest =>
    have hpart := within_ensurePartitionsFrom lane.transfersTable
    rcases h with h | h
    · exact (hpart _ _ _).bind fun _ =>
        within_submit _ (by rwa [insertTransfersQuery_arguments])
    · exact (hpart _ _ _).bind_fails (ensurePartitions_fails h) _

theorem insertTransfersIntoTx_fails (lane : LaneName)
    (h : MAX_BIND_PARAMETERS < 9 * records.length) : (insertTransfersIntoTx lane records).Fails := by
  cases records with
  | nil => cases h
  | cons record rest =>
    exact Program.Fails.bind_right _ fun _ =>
      submit_fails (by rwa [insertTransfersQuery_arguments])

/-- A transfer of a block below 0, or in the last partition. -/
theorem insertTransfersIntoTx_fails_partition (lane : LaneName) {r : Erc20TransferRecord}
    (hr : r ∈ records) (h : r.blockNumber.toInt < 0 ∨ lastPartition ≤ r.blockNumber.toInt) :
    (insertTransfersIntoTx lane records).Fails := by
  cases records with
  | nil => cases hr
  | cons record rest =>
    rcases h with h | h
    · refine Program.Fails.bind_right _ fun _ => ?_
      unfold submit
      split
      · exact .execute _ fun db => ⟨_, if_neg fun hall => absurd (hall r hr) (Int.not_le.mpr h)⟩
      · exact .refuse _ _
    · exact Program.Fails.bind_left (ensurePartitions_fails ⟨r, hr, .inr h⟩) _

theorem insertTransfersIntoTx_tries (lane : LaneName)
    (h : MAX_BIND_PARAMETERS < 9 * records.length) (hp : ¬ SomeUnpartitioned records) :
    (insertTransfersIntoTx lane records).Tries
      (insertTransfersQuery lane.transfersTable records) := by
  cases records with
  | nil => cases h
  | cons record rest =>
    exact Program.Tries.bind_right (ensurePartitions_completes hp) fun _ => submit_tries _ _

end

theorem within_deleteLane (lane : LaneName) (cond : String) {binds : List Sql.Value}
    (p : Int64 → Bool) (h : binds.length ≤ 2) : Within (deleteLane lane cond binds p) :=
  have hle : binds.length ≤ MAX_BIND_PARAMETERS := Nat.le_trans h (by decide)
  (within_execute _ hle).bind fun _ => within_execute _ hle

/-! ## One commit -/

section
variable {lane : LaneName} {records : List Erc20TransferRecord} {tail : Nat → Calls Nat}
  {g : Nat → CommitStats}

theorem commit_tries (h : MAX_BIND_PARAMETERS < 9 * records.length)
    (hp : ¬ SomeUnpartitioned records) :
    Program.Tries (transaction (insertTransfersIntoTx lane records >>= tail) >>=
      fun inserted => pure (g inserted)) (insertTransfersQuery lane.transfersTable records) := by
  have hfails := (insertTransfersIntoTx_fails lane h).bind_left tail
  have htries := (insertTransfersIntoTx_tries lane h hp).bind_left
    (insertTransfersIntoTx_fails lane h) tail
  exact Program.Tries.bind_left htries.transaction (hfails.transaction _ _) _

/-- A commit whose other statements are within the limit. -/
theorem within_commit (htail : ∀ n, Within (tail n)) :
    Within (transaction (insertTransfersIntoTx lane records >>= tail) >>=
      fun inserted => pure (g inserted)) ↔
      9 * records.length ≤ MAX_BIND_PARAMETERS ∨ SomeUnpartitioned records := by
  constructor
  · intro hw
    by_contra hn
    obtain ⟨hlen, hp⟩ := not_or.mp hn
    have hq := hw.of_tries (commit_tries (Nat.not_le.mp hlen) hp) .migrated
    rw [insertTransfersQuery_arguments] at hq
    omega
  · intro h
    have hbody := (within_insertTransfersIntoTx lane h).bind htail
    have htx : Within (transaction (insertTransfersIntoTx lane records >>= tail)) :=
      Program.Issues.transaction (Nat.zero_le _) (Nat.zero_le _) hbody
    exact htx.bind fun _ => .pure _

/-- What is not `Committable` fails at its transfers or at its blocks. -/
theorem commit_fails {blocks : List (Nat × Bytes)} {rest : Nat → Unit → Calls Nat}
    (h : ¬ Committable records blocks) :
    Program.Fails (transaction (insertTransfersIntoTx lane records >>= fun inserted =>
      insertBlocksIntoTx lane blocks >>= rest inserted) >>= fun inserted => pure (g inserted)) := by
  refine Program.Fails.bind_left (Program.Fails.transaction _ _ ?_) _
  by_cases ht : 9 * records.length ≤ MAX_BIND_PARAMETERS
  · by_cases hb : 2 * blocks.length ≤ MAX_BIND_PARAMETERS
    · have hp : ¬ ∀ r ∈ records, 0 ≤ r.blockNumber.toInt ∧ r.blockNumber.toInt < lastPartition :=
        fun hp => h ⟨ht, hb, hp⟩
      simp only [not_forall] at hp
      obtain ⟨r, hr, hout⟩ := hp
      exact (insertTransfersIntoTx_fails_partition lane hr (by omega)).bind_left _
    · exact .bind_right _ fun _ =>
        (insertBlocksIntoTx_fails lane (Nat.not_le.mp hb)).bind_left _
  · exact (insertTransfersIntoTx_fails lane (Nat.not_le.mp ht)).bind_left _

end

/-! ## The two commits -/

section
variable {blocks : List (Nat × Bytes)} {records : List Erc20TransferRecord} {first last : Nat}

theorem within_commitFinalizedRange (hb : 2 * blocks.length ≤ MAX_BIND_PARAMETERS) :
    Within (commitFinalizedRange records blocks first last) ↔
      9 * records.length ≤ MAX_BIND_PARAMETERS ∨ SomeUnpartitioned records :=
  within_commit fun _ => (within_insertBlocksIntoTx .cold hb).bind fun _ =>
    (within_deleteLane .hot _ _ (by simp)).bind fun _ =>
      (within_execute _ (by simp [MAX_BIND_PARAMETERS])).bind fun _ => .pure _

theorem within_commitHotRange (hb : 2 * blocks.length ≤ MAX_BIND_PARAMETERS) :
    Within (commitHotRange records blocks last) ↔
      9 * records.length ≤ MAX_BIND_PARAMETERS ∨ SomeUnpartitioned records :=
  within_commit fun _ => (within_insertBlocksIntoTx .hot hb).bind fun _ =>
    (within_execute _ (by simp [MAX_BIND_PARAMETERS])).bind fun _ => .pure _

/-- What is not `Committable` is committed in no run. -/
theorem commits_fail (h : ¬ Committable records blocks) :
    (commitFinalizedRange records blocks first last).Fails ∧
      (commitHotRange records blocks last).Fails :=
  ⟨commit_fails h, commit_fails h⟩

end

/-! ## Errors that are not those of a call

With `P` the panics these lemmas say that nothing else goes wrong, with `P` the
other errors that nothing panics. -/

section
variable {P : Failure → Prop} {records : List Erc20TransferRecord} {blocks : List (Nat × Bytes)}
  {first last : Nat}

theorem submit_raises {α : Type} {q : Statement} {effect : Db → Except Failure (α × Db)}
    (hq : P .panic ∨ q.arguments.length ≤ MAX_BIND_PARAMETERS)
    (he : ∀ d e, effect d = .error e → P e) : (submit q effect).Raises P := by
  unfold submit
  split
  · exact .execute q he
  · rename_i h
    exact .refuse (hq.resolve_right h)

theorem execute_raises {α : Type} {q : Statement} (effect : Db → α × Db)
    (hq : P .panic ∨ q.arguments.length ≤ MAX_BIND_PARAMETERS) : (execute q effect).Raises P :=
  submit_raises hq fun _ _ h => by cases h

theorem ensurePartitionsFrom_raises {table : String} {last : Int}
    (h : P .panic ∨ last + BLOCK_PARTITION_SIZE < 2 ^ 63) {fuel : Nat} {p : Int} (hp : 0 ≤ p) :
    (ensurePartitionsFrom table last fuel p).Raises P := by
  induction fuel generalizing p with
  | zero => exact .pure ()
  | succ fuel ih =>
    rw [ensurePartitionsFrom]
    split
    · rename_i hle
      by_cases hadd : checkedAdd p BLOCK_PARTITION_SIZE = .ok (p + BLOCK_PARTITION_SIZE)
      · rw [hadd, Program.ofExcept_ok_bind]
        refine Program.Raises.bind (submit_raises (.inr (Nat.zero_le _)) fun d e he => ?_)
          fun _ => ih ?_
        · rw [createPartitionEffect, if_pos hp] at he
          cases he
        · simp only [BLOCK_PARTITION_SIZE]
          omega
      · have hpanic : P .panic := h.resolve_right fun hlast => hadd (checkedAdd_ok hlast hp hle)
        have herr : checkedAdd p BLOCK_PARTITION_SIZE = .error .panic :=
          if_neg fun hin => hadd (if_pos hin)
        rw [herr]
        exact fun _ _ e _ he => by cases he; exact hpanic
    · exact .pure ()

theorem insertTransfersIntoTx_raises (lane : LaneName)
    (hn : ∀ r ∈ records, 0 ≤ r.blockNumber.toInt) (h : P .panic ∨
      9 * records.length ≤ MAX_BIND_PARAMETERS ∧
        ∀ r ∈ records, 0 ≤ r.blockNumber.toInt ∧ r.blockNumber.toInt < lastPartition) :
    (insertTransfersIntoTx lane records).Raises P := by
  cases records with
  | nil => exact .pure 0
  | cons record rest =>
    obtain ⟨r, hr, he⟩ : ∃ r ∈ record :: rest, r.blockNumber =
        (rest.map Erc20TransferRecord.blockNumber).foldl min record.blockNumber :=
      List.mem_map.mp (foldl_min_spec _ _).1
    have hp := partitionStartOf_nonneg (he ▸ hn r hr)
    refine (ensurePartitionsFrom_raises ?_ hp).bind fun _ => submit_raises ?_ fun db e he => ?_
    · exact h.imp_right fun h => (partition_bounds (someUnpartitioned_not h.2)).2
    · exact h.imp_right fun h => by rw [insertTransfersQuery_arguments]; exact h.1
    · rw [insertTransfersRouted, if_pos hn] at he
      cases he

theorem insertBlocksIntoTx_raises (lane : LaneName)
    (h : P .panic ∨ 2 * blocks.length ≤ MAX_BIND_PARAMETERS) :
    (insertBlocksIntoTx lane blocks).Raises P := by
  cases blocks with
  | nil => exact .pure ()
  | cons block rest =>
    exact execute_raises _ (h.imp_right fun h => by rwa [insertBlocksQuery_arguments])

theorem deleteLane_raises (lane : LaneName) (cond : String) {binds : List Sql.Value}
    (p : Int64 → Bool) (h : binds.length ≤ MAX_BIND_PARAMETERS) :
    (deleteLane lane cond binds p).Raises P :=
  (execute_raises _ (.inr h)).bind fun _ => execute_raises _ (.inr h)

theorem commitFinalizedRange_raises (hn : ∀ r ∈ records, 0 ≤ r.blockNumber.toInt)
    (h : P .panic ∨ Committable records blocks) :
    (commitFinalizedRange records blocks first last).Raises P := by
  have ht := insertTransfersIntoTx_raises .cold hn
    (h.imp_right fun h => ⟨h.transferBinds, h.partitioned⟩)
  have hb := insertBlocksIntoTx_raises .cold (h.imp_right fun h => h.blockBinds)
  refine Program.Raises.bind (.transaction _ _ (ht.bind fun _ => hb.bind fun _ => ?_)) fun _ =>
    .pure _
  exact (deleteLane_raises .hot _ _ (by simp [MAX_BIND_PARAMETERS])).bind fun _ =>
    (execute_raises _ (.inr (by simp [MAX_BIND_PARAMETERS]))).bind fun _ => .pure _

theorem commitHotRange_raises (hn : ∀ r ∈ records, 0 ≤ r.blockNumber.toInt)
    (h : P .panic ∨ Committable records blocks) :
    (commitHotRange records blocks last).Raises P := by
  have ht := insertTransfersIntoTx_raises .hot hn
    (h.imp_right fun h => ⟨h.transferBinds, h.partitioned⟩)
  have hb := insertBlocksIntoTx_raises .hot (h.imp_right fun h => h.blockBinds)
  refine Program.Raises.bind (.transaction _ _ (ht.bind fun _ => hb.bind fun _ => ?_)) fun _ =>
    .pure _
  exact (execute_raises _ (.inr (by simp [MAX_BIND_PARAMETERS]))).bind fun _ => .pure _

theorem rollbackFromBlock_raises (n : Nat) : (rollbackFromBlock n).Raises P :=
  .transaction _ _ <| (deleteLane_raises .cold _ _ (by simp [MAX_BIND_PARAMETERS])).bind fun _ =>
    (deleteLane_raises .hot _ _ (by simp [MAX_BIND_PARAMETERS])).bind fun _ =>
      (execute_raises _ (.inr (by simp [MAX_BIND_PARAMETERS]))).bind fun _ =>
        execute_raises _ (.inr (by simp [MAX_BIND_PARAMETERS]))

theorem rollbackHotFromBlock_raises (n : Nat) : (rollbackHotFromBlock n).Raises P :=
  .transaction _ _ <| (deleteLane_raises .hot _ _ (by simp [MAX_BIND_PARAMETERS])).bind fun _ =>
    execute_raises _ (.inr (by simp [MAX_BIND_PARAMETERS]))

end

/-! ## Where no call fails -/

section
variable {records : List Erc20TransferRecord} {blocks : List (Nat × Bytes)} {first last : Nat}

/-- Exactly the `Committable` batches are committed. -/
theorem commitFinalizedRange_ends :
    (commitFinalizedRange records blocks first last).Ends fun db =>
      if Committable records blocks then
        (some (L2.commitFinalizedRange db records blocks first last).2,
          (L2.commitFinalizedRange db records blocks first last).1)
      else (none, db) := by
  have ha := commitFinalizedRange_atomic records blocks first last
  by_cases h : Committable records blocks
  · simp only [if_pos h]
    refine ha.ends (commitFinalizedRange_raises (fun r hr => (h.partitioned r hr).1) (.inr h)) ?_
    exact fun db stats db' he => by rw [← he]
  · simp only [if_neg h]
    have hf : (commitFinalizedRange records blocks first last).Fails := commit_fails h
    exact .of_fails ha fun s => hf _ s

theorem commitHotRange_ends :
    (commitHotRange records blocks last).Ends fun db =>
      if Committable records blocks then
        (some (L2.commitHotRange db records blocks last).2,
          (L2.commitHotRange db records blocks last).1)
      else (none, db) := by
  have ha := commitHotRange_atomic records blocks last
  by_cases h : Committable records blocks
  · simp only [if_pos h]
    refine ha.ends (commitHotRange_raises (fun r hr => (h.partitioned r hr).1) (.inr h)) ?_
    exact fun db stats db' he => by rw [← he]
  · simp only [if_neg h]
    have hf : (commitHotRange records blocks last).Fails := commit_fails h
    exact .of_fails ha fun s => hf _ s

theorem rollbackFromBlock_ends (n : Nat) :
    (rollbackFromBlock n).Ends fun db => (some (), L2.rollbackFromBlock db n) :=
  (rollbackFromBlock_atomic n).ends (rollbackFromBlock_raises n) fun _ _ _ he => by rw [he]

end

/-! ## The condition on the logs -/

section
variable {rpc : RpcClient} {logs : List Log} {first last : Nat} {p : RangePayload first last}

theorem someUnpartitioned_iff {logs : List Log} {records : List Erc20TransferRecord}
    (h : List.Forall₂ (RecordOfLog rpc) logs records) :
    (∃ log ∈ logs, ∃ n ∈ log.blockNumber, Unpartitioned (asI64 n)) ↔
      SomeUnpartitioned records := by
  induction h with
  | nil => simp [SomeUnpartitioned]
  | cons hr _ ih =>
    obtain ⟨_, n, _, _, -, hn, -, -, hb, -⟩ := hr.own
    simp only [SomeUnpartitioned, List.exists_mem_cons_iff] at ih ⊢
    rw [ih, hn, hb]
    simp

/-- The condition on the logs is the condition on their records. -/
theorem fits_iff (h : PayloadOf rpc logs p) :
    Fits logs ↔ 9 * p.transferRecords.length ≤ MAX_BIND_PARAMETERS ∨
      SomeUnpartitioned p.transferRecords := by
  rw [Fits, h.records.length_eq, someUnpartitioned_iff h.records]

end

/-- **Bind limit.** For every payload that `build_range_payload` returns for a
range of at most ten blocks, each statement of both commits stays within the
protocol's limit, in every run, if and only if nine times the number of logs the
decoder accepts does (or a transfer lies in a block without a partition, which
ends the transaction before the `INSERT`). -/
theorem bind_limit (engine : BackfillEngine) (rpc : RpcClient) (first last : Nat) (logs : List Log)
    (p : RangePayload first last) (hsize : last < first + BLOCK_BATCH_SIZE)
    (hlogs : rpc.fetchErc20TransferLogs first last engine.contractFilter = .ok logs)
    (hp : engine.buildRangePayload rpc first last = .ok p) :
    (Within (commitFinalizedRange p.transferRecords p.indexedBlocks first last) ∧
      Within (commitHotRange p.transferRecords p.indexedBlocks last)) ↔ Fits logs := by
  obtain ⟨metas, logs', hm, hl, hb⟩ := BackfillEngine.buildRangePayload_ok.mp hp
  have he : logs = logs' := Except.ok.inj (hlogs.symm.trans hl)
  have hblocks : 2 * p.indexedBlocks.length ≤ MAX_BIND_PARAMETERS := by
    rw [p.length_indexedBlocks]
    simp only [BLOCK_BATCH_SIZE] at hsize
    simp only [MAX_BIND_PARAMETERS]
    omega
  rw [within_commitFinalizedRange hblocks, within_commitHotRange hblocks, and_self, he,
    fits_iff (payloadOf_ok hm hb)]

/-- The payload of block 1 of `oneTransfer`. -/
theorem oneTransfer_payload : ∃ p,
    (BackfillEngine.ofDepths 0 1).buildRangePayload (.ofChain oneTransfer) 1 1 = .ok p ∧
    p.Committable := by
  have hlogs : (RpcClient.ofChain oneTransfer).fetchErc20TransferLogs 1 1
      (BackfillEngine.ofDepths 0 1).contractFilter = .ok [transferLog] := by rfl
  obtain ⟨p, hp⟩ := BackfillEngine.buildRangePayload_total
    (fun n _ hn => ⟨_, _, RpcClient.finds_ofChain (Nat.le_trans hn (by decide))⟩) hlogs
    (by simp only [List.forall_mem_singleton]; exact ⟨by decide, by decide, by decide, by decide⟩)
  obtain ⟨metas, logs, hm, hl, hb⟩ := BackfillEngine.buildRangePayload_ok.mp hp
  have he : logs = [transferLog] := Except.ok.inj (hl.symm.trans hlogs)
  have hlen := (payloadOf_ok hm hb).records.length_eq
  refine ⟨p, hp, ?_, ?_, p.partitioned (by decide)⟩
  · rw [← hlen, he]
    decide
  · rw [p.length_indexedBlocks]
    decide

theorem bind_limit_oneTransfer : ∃ p,
    (BackfillEngine.ofDepths 0 1).buildRangePayload (.ofChain oneTransfer) 1 1 = .ok p ∧
    Within (commitFinalizedRange p.transferRecords p.indexedBlocks 1 1) ∧
    Within (commitHotRange p.transferRecords p.indexedBlocks 1) := by
  have hlogs : (RpcClient.ofChain oneTransfer).fetchErc20TransferLogs 1 1
      (BackfillEngine.ofDepths 0 1).contractFilter = .ok [transferLog] := by rfl
  obtain ⟨p, hp, -⟩ := oneTransfer_payload
  exact ⟨p, hp, (bind_limit _ _ 1 1 _ p (by decide) hlogs hp).mpr (.inl (by decide))⟩

/-- A block 1 with `k` transfers in one transaction. -/
def busyChain (k : Nat) : Chain where
  height := 1
  hash _ := .ofByte 1
  timestamp _ := 0
  logs n := if n = 1 then (List.range k).map fun i => { transferLog with logIndex := some i } else []
  logs_mined := by
    intro n l hl
    split at hl
    · rename_i hn
      obtain ⟨i, -, rfl⟩ := List.mem_map.mp hl
      exact ⟨by rw [hn]; rfl, rfl, rfl, rfl⟩
    · cases hl

theorem busyChain_logs (k : Nat) : (busyChain k).getLogs none 1 1 =
    (List.range k).map fun i => { transferLog with logIndex := some i } := by
  have hf : (busyChain k).getLogs none 1 1 = (busyChain k).transferLogs none 1 :=
    List.append_nil _
  rw [hf, Chain.transferLogs]
  refine List.filter_eq_self.mpr fun l hl => ?_
  obtain ⟨i, -, rfl⟩ := List.mem_map.mp hl
  rfl

theorem busyChain_accepted (k : Nat) :
    (accepted ((busyChain k).getLogs none 1 1)).length = k ∧
    ∀ log ∈ (busyChain k).getLogs none 1 1, LogOk 1 1 log ∧ log.blockNumber = some 1 := by
  rw [busyChain_logs]
  have hall : ∀ log ∈ (List.range k).map fun i => { transferLog with logIndex := some i },
      (decodeErc20Transfer log).isSome ∧ LogOk 1 1 log ∧ log.blockNumber = some 1 := by
    intro log hl
    obtain ⟨i, -, rfl⟩ := List.mem_map.mp hl
    exact ⟨rfl, ⟨rfl, fun _ => rfl, fun _ => rfl, fun _ n hn => by cases hn; decide⟩, rfl⟩
  refine ⟨?_, fun log hl => (hall log hl).2⟩
  rw [accepted, List.filter_eq_self.mpr fun log hl => (hall log hl).1, List.length_map,
    List.length_range]

/-- The payload of the busy block. -/
theorem busyChain_payload (k : Nat) : ∃ p,
    (BackfillEngine.ofDepths 0 1).buildRangePayload (.ofChain (busyChain k)) 1 1 = .ok p ∧
    p.transferRecords.length = k := by
  have hlogs : (RpcClient.ofChain (busyChain k)).fetchErc20TransferLogs 1 1
      (BackfillEngine.ofDepths 0 1).contractFilter = .ok ((busyChain k).getLogs none 1 1) := rfl
  obtain ⟨hlen, hok⟩ := busyChain_accepted k
  obtain ⟨p, hp⟩ := BackfillEngine.buildRangePayload_total
    (fun n _ hn => ⟨_, _, RpcClient.finds_ofChain hn⟩) hlogs fun log hl => (hok log hl).1
  obtain ⟨metas, logs, hm, hl, hb⟩ := BackfillEngine.buildRangePayload_ok.mp hp
  have he : (busyChain k).getLogs none 1 1 = logs := Except.ok.inj (hlogs.symm.trans hl)
  subst he
  have hspec := payloadOf_ok hm hb
  exact ⟨p, hp, hspec.records.length_eq.symm.trans hlen⟩

/-- **Counterexample.** 7282 transfers in one block: the `INSERT` has 65538 binds,
and neither commit of this range ever succeeds. -/
theorem bind_limit_exceeded : ∃ p,
    (BackfillEngine.ofDepths 0 1).buildRangePayload (.ofChain (busyChain 7282)) 1 1 = .ok p ∧
    (∃ q, (commitFinalizedRange p.transferRecords p.indexedBlocks 1 1).Tries q ∧
      q.arguments.length = 65538) ∧
    (commitFinalizedRange p.transferRecords p.indexedBlocks 1 1).Fails ∧
    (commitHotRange p.transferRecords p.indexedBlocks 1).Fails := by
  obtain ⟨p, hp, hlen⟩ := busyChain_payload 7282
  have hlast := someUnpartitioned_not (p.partitioned (by decide))
  have hlim : MAX_BIND_PARAMETERS < 9 * p.transferRecords.length := by rw [hlen]; decide
  refine ⟨p, hp, ⟨_, commit_tries hlim hlast, ?_⟩, commits_fail fun hc => ?_⟩
  · rw [insertTransfersQuery_arguments, hlen]
  · exact absurd hc.transferBinds (Nat.not_le.mpr hlim)

end EthIndexer.L6
