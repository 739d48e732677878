import EthIndexer.L3Engine.Answers

/-!
# Exactness of the cold lane on a chain that does not reorganise

`ColdExact C filter start db`: with finalized checkpoint `c`, the cold lane is
what one pass over the blocks `max(start, 1)..=c` of `C` gives, as tables
(`Perm`: row order carries no meaning, and each row is there once).

`ExactInv` is inductive under every schedule, head sequence, failure and
restart; the numbers are the full `u64` range. `cold_exact` is the result, with
its corollary that two runs with one checkpoint have one cold lane.
-/
namespace EthIndexer.L4
open EthIndexer.L1 EthIndexer.L2 EthIndexer.L3 EthIndexer.L3.Chain

/-- `(block, log_index)` names a log, and the index fits an `INTEGER`. -/
structure Indexed (C : Chain) : Prop where
  small : ∀ n, ∀ l ∈ C.logs n, ∀ i, l.logIndex = some i → i < 2 ^ 31
  unique : ∀ n, ((C.logs n).map Log.logIndex).Nodup

structure ColdExact (C : Chain) (filter : Option Bytes) (start : Nat) (db : Db) : Prop where
  transfers : db.cold.transfers.rows.Perm (records C filter (max start 1) (getCheckpoint db))
  blocks : db.cold.blocks.rows.Perm (blockRows C (max start 1) (getCheckpoint db))

/-! ## Keys -/

section
variable {C : Chain} {filter : Option Bytes} {a b : Nat}

/-- Distinct logs of the chain have distinct primary keys. -/
theorem records_keys_nodup (hC : Indexed C) (hb : b < 2 ^ 64) :
    ((records C filter a b).map Erc20TransferRecord.key).Nodup := by
  rw [List.Nodup, List.pairwise_map, records, List.pairwise_filterMap, Chain.getLogs,
    List.pairwise_flatMap]
  refine ⟨?_, ?_⟩
  · intro n _
    have hidx : (C.transferLogs filter n).Pairwise fun x y => x.logIndex ≠ y.logIndex :=
      (List.pairwise_map.mp (hC.unique n)).filter _
    refine hidx.imp_of_mem ?_
    intro x y hx hy hne r hr r' hr' hk
    obtain ⟨ev, k, t, i, -, -, -, hi, he⟩ := record_eq_some.mp hr
    obtain ⟨ev', k', t', i', -, -, -, hi', he'⟩ := record_eq_some.mp hr'
    subst he he'
    have hkey : asI32 i = asI32 i' := congrArg (·.2.1) hk
    have hii := asI32_inj (hC.small n x (Chain.mem_transferLogs hx) i hi)
      (hC.small n y (Chain.mem_transferLogs hy) i' hi') hkey
    exact hne (by rw [hi, hi', hii])
  · refine (rangeIncl_nodup a b).imp_of_mem ?_
    intro n m hn hm hne x hx y hy r hr r' hr' hk
    have hn := mem_rangeIncl.mp hn
    have hm := mem_rangeIncl.mp hm
    have hxn := (C.logs_mined n x (Chain.mem_transferLogs hx)).1
    have hym := (C.logs_mined m y (Chain.mem_transferLogs hy)).1
    obtain ⟨ev, k, t, i, -, hk1, -, -, he⟩ := record_eq_some.mp hr
    obtain ⟨ev', k', t', i', -, hk2, -, -, he'⟩ := record_eq_some.mp hr'
    subst he he'
    rw [hxn] at hk1
    rw [hym] at hk2
    cases hk1
    cases hk2
    have hkey : asI64 n = asI64 m := congrArg (·.2.2) hk
    exact hne (asI64_inj (by omega) (by omega) hkey)

theorem blockRows_keys_nodup (hb : b < 2 ^ 64) :
    ((blockRows C a b).map IndexedBlock.blockNumber).Nodup := by
  rw [blockRows_keys]
  refine asI64_nodup (rangeIncl_nodup a b) fun n hn => ?_
  have := mem_rangeIncl.mp hn
  omega

end

/-! ## One commit -/

section
variable {C : Chain} {filter : Option Bytes} {start first last : Nat} {db : Db}

/-- The stored hash of a block between `max(start, 1)` and the checkpoint. -/
theorem ColdExact.getBlockHash (h : ColdExact C filter start db) {n : Nat} (hs : max start 1 ≤ n)
    (hn : n ≤ getCheckpoint db) : getBlockHash db n = some (C.hash n).val := by
  refine Lane.getBlockHash_eq_some.mpr (h.blocks.mem_iff.mpr ?_)
  exact mem_blockRows.mpr ⟨n, ⟨hs, hn⟩, rfl⟩

/-- Nothing is stored outside of `max(start, 1)..=checkpoint`. -/
theorem ColdExact.getBlockHash_none (h : ColdExact C filter start db) {n : Nat} (hn : n < 2 ^ 64)
    (ho : n < max start 1 ∨ getCheckpoint db < n) : L2.getBlockHash db n = none := by
  refine Lane.getBlockHash_eq_none.mpr fun hk => ?_
  obtain ⟨b, hb, he⟩ := Table.mem_keys.mp hk
  obtain ⟨m, hm, hbm⟩ := mem_blockRows.mp (h.blocks.mem_iff.mp hb)
  have hc : getCheckpoint db < 2 ^ 64 := asU64_lt _
  subst hbm
  have := asI64_inj (by omega) hn he
  omega

/-- The numbers of a planned range come right after the stored ones. -/
theorem planned_split {α : Type} {f : Nat → Nat → List α} {c : Nat}
    (hnil : ∀ {a b}, b < a → f a b = []) (happ : ∀ {a b c}, a ≤ b + 1 → b ≤ c →
      f a b ++ f (b + 1) c = f a c) (hf : first = max (c + 1) start) (hle : first ≤ last) :
    f (max start 1) c ++ f first last = f (max start 1) last := by
  by_cases hs : start ≤ c + 1
  · rw [show first = c + 1 by omega]
    exact happ (by omega) (by omega)
  · rw [hnil (by omega), List.nil_append]
    congr 1
    omega

theorem coldExact_commit (hC : Indexed C) (h : ColdExact C filter start db)
    (p : RangePayload first last) (hp : RangeOn C filter (.commit p)) (hle : first ≤ last)
    (hlt : last < 2 ^ 64) (hf : first = max (getCheckpoint db + 1) start) :
    ColdExact C filter start
      (commitFinalizedRange db p.transferRecords p.indexedBlocks first last).1 := by
  obtain ⟨hpr, hpb⟩ := hp
  have hsplit : records C filter (max start 1) (getCheckpoint db) ++ records C filter first last =
      records C filter (max start 1) last := planned_split records_nil records_append hf hle
  have hbsplit : blockRows C (max start 1) (getCheckpoint db) ++ blockRows C first last =
      blockRows C (max start 1) last := planned_split blockRows_nil blockRows_append hf hle
  have hc : getCheckpoint (commitFinalizedRange db p.transferRecords p.indexedBlocks first last).1
      = last := asU64_asI64 hlt
  have hrows : (db.cold.transfers.rows ++ p.transferRecords).Perm
      (records C filter (max start 1) last) := hsplit ▸ h.transfers.append hpr
  have hbrows : (db.cold.blocks.rows ++ p.indexedBlocks.map Lane.blockRow).Perm
      (blockRows C (max start 1) last) := by
    rw [hpb, ← hbsplit]
    exact h.blocks.append_right _
  refine ⟨?_, ?_⟩
  · have hnd := (hrows.map Erc20TransferRecord.key).nodup_iff.mpr (records_keys_nodup hC hlt)
    rw [List.map_append, List.nodup_append'] at hnd
    have hins : (db.cold.transfers.insertAllIgnore p.transferRecords).rows = _ :=
      Table.insertAllIgnore_fresh hnd.2.1 fun r hr hk => hnd.2.2 hk (List.mem_map_of_mem hr)
    rw [hc]
    exact hins ▸ hrows
  · have hnd := (hbrows.map IndexedBlock.blockNumber).nodup_iff.mpr (blockRows_keys_nodup hlt)
    rw [List.map_append, List.nodup_append'] at hnd
    have hins : (db.cold.blocks.upsertAll (p.indexedBlocks.map Lane.blockRow)).rows = _ :=
      Table.upsertAll_fresh hnd.2.1 fun r hr hk => hnd.2.2 hk (List.mem_map_of_mem hr)
    rw [hc]
    exact hins ▸ hbrows

/-- With checkpoint 0 nothing is stored, and a rollback from 0 changes nothing. -/
theorem coldExact_rollback (h : ColdExact C filter 0 db) (hz : getCheckpoint db = 0) :
    ColdExact C filter 0 (rollbackFromBlock db 0) := by
  have hc : getCheckpoint (rollbackFromBlock db 0) = 0 := asU64_asI64 (by decide)
  have hempty := h.transfers
  have hbempty := h.blocks
  rw [hz, records_nil (by decide)] at hempty
  rw [hz, blockRows_nil (by decide)] at hbempty
  refine ⟨?_, ?_⟩
  · rw [hc, records_nil (by decide)]
    simp only [rollbackFromBlock, Lane.deleteRangeFrom, Lane.deleteNumbers, Table.deleteWhere,
      hempty.eq_nil, List.filter_nil]
    exact List.Perm.refl _
  · rw [hc, blockRows_nil (by decide)]
    simp only [rollbackFromBlock, Lane.deleteRangeFrom, Lane.deleteNumbers, Table.deleteWhere,
      hbempty.eq_nil, List.filter_nil]
    exact List.Perm.refl _

end

/-! ## The invariant -/

/-- What the backfill worker knows on a chain that does not reorganise. With
`start = 0` it finds block 0 missing in every pass and never plans a range. -/
def ExactPc (C : Chain) (filter : Option Bytes) (start : Nat) (db : Db) : BackfillPc → Prop
  | .resume | .head | .checkpoint _ | .sleep _ => True
  | .history _ checkpoint n => checkpoint = getCheckpoint db ∧ start ≤ n ∧ n ≤ checkpoint
  | .historyRow _ checkpoint n hash =>
    checkpoint = getCheckpoint db ∧ start ≤ n ∧ n ≤ checkpoint ∧ hash = C.hash n
  | .rollback n => start = 0 ∧ n = 0
  | .plan _ => start ≠ 0
  | .range first last _ pc =>
    start ≠ 0 ∧ first = max (getCheckpoint db + 1) start ∧ first ≤ last ∧ last < 2 ^ 64 ∧
      RangeOn C filter pc

structure ExactInv (C : Chain) (filter : Option Bytes) (start : Nat) (s : Sys) : Prop where
  exact : ColdExact C filter start s.db
  zero : start = 0 → getCheckpoint s.db = 0
  pc : ExactPc C filter start s.db s.backfill

theorem exactInv_init (C : Chain) (filter : Option Bytes) (start : Nat) :
    ExactInv C filter start .init where
  exact := by
    have hc : getCheckpoint Sys.init.db < max start 1 := by
      have : getCheckpoint Sys.init.db = 0 := by decide
      omega
    refine ⟨?_, ?_⟩
    · rw [records_nil hc]; exact List.Perm.refl _
    · rw [blockRows_nil hc]; exact List.Perm.refl _
  zero := fun _ => by decide
  pc := trivial

theorem exactInv_backfill {C : Chain} (hC : Indexed C) {engine : BackfillEngine} {start : Nat}
    {s : Sys} {e : Event} {pc : BackfillPc} {db : Db}
    (I : ExactInv C engine.contractFilter start s) (hE : e.OnChain C engine.contractFilter)
    (hm : BackfillMove engine start s.db s.backfill e pc db) :
    ExactInv C engine.contractFilter start { s with db := db, backfill := pc } := by
  obtain ⟨hx, h0, hpc⟩ := I
  have hlt : getCheckpoint s.db < 2 ^ 64 := asU64_lt _
  generalize s.backfill = pc₀ at hm hpc
  cases hm with
  | resume | head _ | wake | caughtUp _ => exact ⟨hx, h0, trivial⟩
  | revalidate hle =>
    exact ⟨hx, h0, rfl, engine.le_validationStart _ _, engine.validationStart_le hle⟩
  | skip hlt' => exact ⟨hx, h0, by simp only [ExactPc]; omega⟩
  | fetched => exact ⟨hx, h0, hpc.1, hpc.2.1, hpc.2.2, hE.1⟩
  | next _ hlt' => exact ⟨hx, h0, hpc.1, Nat.le_succ_of_le hpc.2.1, hlt'⟩
  | clean hrow hge =>
    rename_i n hash
    obtain ⟨hck, hsn, hn, -⟩ := hpc
    refine ⟨hx, h0, fun hs => ?_⟩
    have hz := h0 hs
    have hnone := hx.getBlockHash_none (n := n) (by omega) (.inl (by omega))
    rw [hnone] at hrow
    cases hrow
  | mismatch hrow =>
    rename_i latest checkpoint n hash
    obtain ⟨hck, hsn, hn, hhash⟩ := hpc
    -- a block from max(start, 1) on is stored with the hash of the chain
    by_cases h1 : max start 1 ≤ n
    · have hsome := hx.getBlockHash h1 (hck ▸ hn)
      exact absurd (hhash ▸ hsome) hrow
    · exact ⟨hx, h0, by omega, by omega⟩
  | rollback =>
    obtain ⟨hs, hn⟩ := hpc
    subst hs hn
    exact ⟨coldExact_rollback hx (h0 rfl), fun _ => asU64_asI64 (by decide), trivial⟩
  | planned hle hov hlast =>
    rename_i latest last
    have hfirst := nextFinalizedBlock_of_room hov
    simp only [BLOCK_BATCH_SIZE] at hov hlast
    refine ⟨hx, h0, hpc, hfirst, by omega, by omega, ?_⟩
    exact rangeOn_enterBlocks fun _ hm => absurd hm List.not_mem_nil
  | range hr =>
    obtain ⟨hs, hf, hle, hl, hon⟩ := hpc
    exact ⟨hx, h0, hs, hf, hle, hl, rangeOn_step hon hE hr⟩
  | reorg hr =>
    obtain ⟨-, hf, -, hl, -⟩ := hpc
    cases hr with
    | @reorg p _ _ _ _ hi hstored _ =>
      have hn := p.block_mem hi
      rw [hx.getBlockHash_none (Nat.lt_of_le_of_lt hn.2 hl) (.inr (by omega))] at hstored
      cases hstored
  | @commit _ _ _ p _ =>
    obtain ⟨hs, hf, hle, hl, hon⟩ := hpc
    exact ⟨coldExact_commit hC hx p hon hle hl hf, fun h => absurd h hs, trivial⟩

theorem exactInv_step {C : Chain} (hC : Indexed C) {engine : BackfillEngine} {start : Nat}
    {s s' : Sys} {l : Label} (I : ExactInv C engine.contractFilter start s)
    (hE : OnChain C engine.contractFilter l) (h : step engine start s l = some s') :
    ExactInv C engine.contractFilter start s' := by
  rcases step_cases h with ⟨e, pc, db, rfl, hm, rfl⟩ | ⟨e, pc, db, rfl, hm, rfl⟩ | rfl
  · exact exactInv_backfill hC I hE hm
  · obtain ⟨hc, hi⟩ := hm.frame
    have hck : getCheckpoint db = getCheckpoint s.db := by simp only [getCheckpoint, hi]
    obtain ⟨⟨ht, hb⟩, h0, hpc⟩ := I
    refine ⟨⟨by simpa only [hc, hck] using ht, by simpa only [hc, hck] using hb⟩,
      by simpa only [hck] using h0, ?_⟩
    revert hpc
    cases s.backfill <;> simp only [ExactPc, hck] <;> exact id
  · exact ⟨I.exact, I.zero, trivial⟩

/-- The runs whose answers are all answers of `C`. -/
def chainSystem (C : Chain) (engine : BackfillEngine) (start : Nat) : LTS Sys Label :=
  systemWith engine start (OnChain C engine.contractFilter)

theorem exactInv_inductive {C : Chain} (hC : Indexed C) (engine : BackfillEngine) (start : Nat) :
    (chainSystem C engine start).Inductive (ExactInv C engine.contractFilter start) where
  init := by intro s hs; rw [hs]; exact exactInv_init C _ start
  step := fun _ _ _ I hs => exactInv_step hC I hs.1 hs.2

/-- **Exactness.** In every reachable state the cold lane is one pass over
`max(start, 1)..=checkpoint`; two runs of one filter and start that end at one
checkpoint have one cold lane. -/
theorem cold_exact (C : Chain) (hC : Indexed C) (engine : BackfillEngine) (start : Nat) (s : Sys)
    (h : (chainSystem C engine start).Reachable s) :
    ColdExact C engine.contractFilter start s.db ∧
    ∀ (engine' : BackfillEngine) (s' : Sys), engine'.contractFilter = engine.contractFilter →
      (chainSystem C engine' start).Reachable s' → getCheckpoint s'.db = getCheckpoint s.db →
      s'.db.cold.transfers.rows.Perm s.db.cold.transfers.rows ∧
      s'.db.cold.blocks.rows.Perm s.db.cold.blocks.rows := by
  have hx := ((exactInv_inductive hC engine start).reachable s h).exact
  refine ⟨hx, ?_⟩
  intro engine' s' hf h' hck
  have hx' := ((exactInv_inductive hC engine' start).reachable s' h').exact
  rw [hf] at hx'
  refine ⟨hx'.transfers.trans ?_, hx'.blocks.trans ?_⟩
  · rw [hck]; exact hx.transfers.symm
  · rw [hck]; exact hx.blocks.symm

/-! ## Runs -/

theorem oneTransfer_indexed : Indexed oneTransfer where
  small := by
    intro n l hl i hi
    simp only [oneTransfer] at hl
    split at hl
    · rw [List.mem_singleton.mp hl] at hi
      cases hi
      decide
    · cases hl
  unique := by
    intro n
    simp only [oneTransfer]
    split <;> decide

/-- Block 1, a crash in the middle of the next range, then 2 and 3. -/
def interrupted : List Label :=
  [.backfill .sql, .backfill (.blockNumber 1), .backfill .sql, .backfill .sql] ++
    rangeLabels .backfill oneTransfer none 1 1 ++
    [.backfill (.blockNumber 3), .backfill .sql] ++ historyLabels oneTransfer 1 1 ++
    [.backfill .sql, .backfill (.block 2 (.ofByte 1) 0), .crash, .backfill .sql,
      .backfill (.blockNumber 3), .backfill .sql] ++ historyLabels oneTransfer 1 1 ++
    [.backfill .sql] ++ rangeLabels .backfill oneTransfer none 2 3

def uninterrupted : List Label :=
  [.backfill .sql, .backfill (.blockNumber 3), .backfill .sql, .backfill .sql] ++
    rangeLabels .backfill oneTransfer none 1 3

theorem cold_exact_interrupted : ∃ s s', (chainSystem oneTransfer (.ofDepths 0 1) 1).Reachable s ∧
    (chainSystem oneTransfer (.ofDepths 0 1) 1).Reachable s' ∧
    (getCheckpoint s.db, s.db.cold.transfers.rows.length) = (3, 1) ∧
    ColdExact oneTransfer none 1 s.db ∧
    s'.db.cold.transfers.rows.Perm s.db.cold.transfers.rows := by
  have hx : ((LTS.exec (stepWith (.ofDepths 0 1) 1 fun _ => OnChain oneTransfer none) .init
      interrupted).map fun s => (getCheckpoint s.db, s.db.cold.transfers.rows.length)) =
      some (3, 1) := by decide +kernel
  have hx' : ((LTS.exec (stepWith (.ofDepths 0 1) 1 fun _ => OnChain oneTransfer none) .init
      uninterrupted).map fun s => getCheckpoint s.db) = some 3 := by decide +kernel
  obtain ⟨s, hr, hb⟩ := LTS.reachable_of_exec stepWith_step rfl hx
  obtain ⟨s', hr', hb'⟩ := LTS.reachable_of_exec stepWith_step rfl hx'
  have h := cold_exact oneTransfer oneTransfer_indexed (.ofDepths 0 1) 1 s hr
  have hck : getCheckpoint s.db = 3 := congrArg Prod.fst hb
  exact ⟨s, s', hr, hr', hb, h.1, (h.2 (.ofDepths 0 1) s' rfl hr' (by rw [hb', hck])).1⟩

end EthIndexer.L4
