import EthIndexer.L3Engine.Iterate

/-!
# Healing of a deep finalized reorganisation

The cold lane holds the blocks `start..=c` of a chain `A`, and from now on every
answer comes from a chain `B` that agrees with `A` exactly below `f`. The window
of one reconcile may be far above `f`.

Each rollback re-anchors the window at the lowered checkpoint (`Unwound`). A
clean reconcile matches the block at the checkpoint, hence lies below `f`, so
everything stored is on `B`; from there on (`settled_iterate`) commits keep the
reconcile clean. `finalized_reorg_heals` is the result. It takes a checkpoint
below 2^63; `healing_broken_at_2_63` is what the casts do to it from there on.
-/
namespace EthIndexer.L4
open EthIndexer.L1 EthIndexer.L2 EthIndexer.L3

/-- `indexed_blocks` is exactly the blocks `start..=c` of `A`. -/
def HoldsBlocks (A : Chain) (start c : Nat) (db : Db) : Prop :=
  ∀ b, b ∈ db.cold.blocks.rows ↔ b ∈ Chain.blockRows A start c

/-- The row is a block of `B`. -/
def LiesOn (B : Chain) (b : IndexedBlock) : Prop := b.blockHash = (B.hash (asU64 b.blockNumber)).val

section
variable {engine : BackfillEngine} {start : Nat} {A B : Chain} {db : Db} {c : Nat}

theorem HoldsBlocks.getBlockHash (h : HoldsBlocks A start c db) {n : Nat} (hs : start ≤ n)
    (hn : n ≤ c) : getBlockHash db n = some (A.hash n).val :=
  Lane.getBlockHash_eq_some.mpr ((h _).mpr (Chain.mem_blockRows.mpr ⟨n, ⟨hs, hn⟩, rfl⟩))

theorem holdsBlocks_rollback (h : HoldsBlocks A start c db) (hc : c < 2 ^ 63) {n : Nat}
    (h1 : 1 ≤ n) (hn : n ≤ c) : HoldsBlocks A start (n - 1) (rollbackFromBlock db n) := by
  intro b
  have hmem : b ∈ (rollbackFromBlock db n).cold.blocks.rows ↔
      b ∈ db.cold.blocks.rows ∧ decide (asI64 n ≤ b.blockNumber) = false :=
    Lane.mem_blocks_deleteNumbers
  rw [hmem, h b, Chain.mem_blockRows, Chain.mem_blockRows, decide_eq_false_iff_not,
    asI64_le (by omega)]
  refine ⟨?_, ?_⟩
  · intro ⟨⟨m, hm, he⟩, hlt⟩
    subst he
    simp only [toInt_asI64 (show m < 2 ^ 63 by omega)] at hlt
    exact ⟨m, by omega, rfl⟩
  · intro ⟨m, hm, he⟩
    subst he
    simp only [toInt_asI64 (show m < 2 ^ 63 by omega)]
    exact ⟨⟨m, by omega, rfl⟩, by omega⟩

/-! ## Unwinding -/

/-- Rolled back from `c` to `ck`, and not below the target. -/
structure Unwound (A : Chain) (start c f ck : Nat) (db : Db) : Prop where
  holds : HoldsBlocks A start ck db
  checkpoint : getCheckpoint db = ck
  le : ck ≤ c
  floor : max ((start : Int) - 1) (min c ((f : Int) - 1)) ≤ ck

variable {f ck : Nat}

/-- The block a rollback starts from is not on `B`. -/
theorem Unwound.rollback (h : Unwound A start c f ck db) (hc : c < 2 ^ 63) (hs : 1 ≤ start)
    (hB : c ≤ B.height) (hf : ∀ n, n ≤ c → (A.hash n = B.hash n ↔ n < f)) {n : Nat}
    (hr : reconcile engine start B db = some n) :
    f ≤ n ∧ start ≤ n ∧ n ≤ ck ∧ Unwound A start c f (n - 1) (rollbackFromBlock db n) := by
  obtain ⟨hsn, hn, hbad⟩ := reconcile_eq_some hr
  have hck := h.checkpoint
  have hle := h.le
  have hfn : f ≤ n := by
    rcases hbad with hbad | hbad
    · omega
    · rw [h.holds.getBlockHash hsn (by omega)] at hbad
      have hne : A.hash n ≠ B.hash n := fun he => hbad (by rw [he])
      exact Nat.le_of_not_lt fun hlt => hne ((hf n (by omega)).mpr hlt)
  refine ⟨hfn, hsn, by omega, holdsBlocks_rollback h.holds (by omega) (by omega) (by omega),
    asU64_asI64 (by omega), by omega, by omega⟩

/-- The rollback lowers the checkpoint and deletes no block of `B`. -/
theorem Unwound.lowers (h : Unwound A start c f ck db) (hc : c < 2 ^ 63)
    (hf : ∀ n, n ≤ c → (A.hash n = B.hash n ↔ n < f)) {n : Nat} (hfn : f ≤ n) (h1 : 1 ≤ n)
    (hn : n ≤ ck) :
    getCheckpoint (rollbackFromBlock db n) < getCheckpoint db ∧
      ∀ b ∈ db.cold.blocks.rows, LiesOn B b → b ∈ (rollbackFromBlock db n).cold.blocks.rows := by
  have hle := h.le
  have hcn : getCheckpoint (rollbackFromBlock db n) = n - 1 := asU64_asI64 (by omega)
  refine ⟨by rw [hcn, h.checkpoint]; omega, fun b hb hlies => ?_⟩
  obtain ⟨j, hj, he⟩ := Chain.mem_blockRows.mp ((h.holds b).mp hb)
  subst he
  simp only [LiesOn, asU64_asI64 (show j < 2 ^ 64 by omega)] at hlies
  have hjf := (hf j (by omega)).mp (Subtype.ext hlies)
  refine Lane.mem_blocks_deleteNumbers.mpr ⟨hb, ?_⟩
  rw [decide_eq_false_iff_not, asI64_le (by omega), toInt_asI64 (by omega)]
  omega

/-- A clean reconcile stands at the target, with every stored block on `B`. -/
theorem Unwound.clean (h : Unwound A start c f ck db) (hc : c < 2 ^ 63)
    (hf : ∀ n, n ≤ c → (A.hash n = B.hash n ↔ n < f)) (hr : reconcile engine start B db = none) :
    (ck : Int) = max ((start : Int) - 1) (min c ((f : Int) - 1)) ∧
      ∀ b ∈ db.cold.blocks.rows, LiesOn B b := by
  have hck := h.checkpoint
  have hle := h.le
  have hfl := h.floor
  have hlt : start ≤ ck → ck < f := by
    intro hsc
    obtain ⟨-, hmatch⟩ := reconcile_eq_none.mp hr ck
      (by rw [hck]; exact engine.validationStart_le hsc) (by omega)
    rw [h.holds.getBlockHash hsc (Nat.le_refl _)] at hmatch
    exact (hf ck hle).mp (Subtype.ext (Option.some.inj hmatch))
  refine ⟨?_, fun b hb => ?_⟩
  · by_cases hsc : start ≤ ck
    · have := hlt hsc
      omega
    · omega
  · obtain ⟨m, hm, he⟩ := Chain.mem_blockRows.mp ((h.holds b).mp hb)
    subst he
    have := hlt (by omega)
    simp only [LiesOn, asU64_asI64 (show m < 2 ^ 64 by omega)]
    rw [(hf m (by omega)).mpr (by omega)]

/-- **Unwinding ends.** Until the first clean reconcile every iteration is a rollback. -/
theorem unwinds (hc : c < 2 ^ 63) (hs : 1 ≤ start) (hB : c ≤ B.height)
    (hf : ∀ n, n ≤ c → (A.hash n = B.hash n ↔ n < f)) (h : Unwound A start c f ck db) :
    ∃ K, (∀ k ≤ K, ∃ ck, Unwound A start c f ck (iterates engine start B db k)) ∧
      (∀ k < K, ∃ n, reconcile engine start B (iterates engine start B db k) = some n) ∧
      reconcile engine start B (iterates engine start B db K) = none := by
  induction ck using Nat.strongRecOn generalizing db with
  | ind ck ih =>
    cases hr : reconcile engine start B db with
    | none =>
      refine ⟨0, fun k hk => ⟨ck, ?_⟩, fun k hk => absurd hk (Nat.not_lt_zero k), hr⟩
      rw [Nat.le_zero.mp hk]
      exact h
    | some n =>
      obtain ⟨-, hsn, hn, h'⟩ := h.rollback hc hs hB hf hr
      have hit : (iterate engine start B db).2 = rollbackFromBlock db n :=
        congrArg Prod.snd (iterate_reorg hr (by have := h.le; omega))
      obtain ⟨K, h1, h2, h3⟩ := ih (n - 1) (by omega) h'
      rw [← hit] at h1 h2 h3
      refine ⟨K + 1, fun k hk => ?_, fun k hk => ?_, by rw [iterates_succ]; exact h3⟩
      · cases k with
        | zero => exact ⟨ck, h⟩
        | succ k => rw [iterates_succ]; exact h1 k (by omega)
      · cases k with
        | zero => exact ⟨n, hr⟩
        | succ k => rw [iterates_succ]; exact h2 k (by omega)

/-! ## Settled -/

/-- The reconcile is clean and every stored block is on `B`. -/
structure Settled (engine : BackfillEngine) (start : Nat) (B : Chain) (db : Db) : Prop where
  clean : reconcile engine start B db = none
  liesOn : ∀ b ∈ db.cold.blocks.rows, LiesOn B b

theorem settled_iterate (h64 : B.height < 2 ^ 64) (h : Settled engine start B db) :
    (∀ n, (iterate engine start B db).1 ≠ .rolledBack n) ∧
      Settled engine start B (iterate engine start B db).2 := by
  have hi := @iterate_cases engine start B db
  generalize (iterate engine start B db).1 = o at hi ⊢
  generalize (iterate engine start B db).2 = db' at hi ⊢
  have hsafe : batchEnd engine start B db ≤ B.height :=
    Nat.le_trans batchEnd_le (Nat.sub_le _ _)
  cases hi with
  | reorg hr _ => rw [h.clean] at hr; cases hr
  | missing hr _ => rw [h.clean] at hr; cases hr
  | caughtUp _ _ => exact ⟨fun n he => (by cases he), h⟩
  | overflow _ _ _ => exact ⟨fun n he => (by cases he), h⟩
  | mismatch _ _ hn hs hne =>
    have hrow := h.liesOn _ (Lane.getBlockHash_eq_some.mp hs)
    simp only [LiesOn] at hrow
    rw [asU64_asI64 (by omega)] at hrow
    exact absurd hrow hne
  | refused _ _ _ _ _ => exact ⟨fun n he => (by cases he), h⟩
  | commit p hr hs hov hp =>
    refine ⟨fun n he => (by cases he), reconcile_commit h64 hr hs hov p hp.2, fun b hb => ?_⟩
    rcases (Lane.mem_blocks_insertRange p.numbers_nodup fun n hn => by
      have := p.mem_numbers.mp hn; omega).mp hb with ⟨n, hn, he⟩ | ⟨hb, -⟩
    · rw [hp.2] at hn
      obtain ⟨hn, hh⟩ := Chain.mem_blocks.mp hn
      simp only [LiesOn, he, hh, asU64_asI64 (show n < 2 ^ 64 by omega)]
    · exact h.liesOn b hb

theorem settled_iterates (h64 : B.height < 2 ^ 64) (h : Settled engine start B db) (j : Nat) :
    Settled engine start B (iterates engine start B db j) := by
  induction j with
  | zero => exact h
  | succ j ih => exact (settled_iterate h64 ih).2

end

/-! ## The result -/

/-- **Healing.** Each rollback lowers the checkpoint and deletes no block of
`B`; finitely many of them, before any commit, set the checkpoint to
`max(start - 1, min(c, f - 1))`; from then on nothing is rolled back and every
stored hash is `B`'s. -/
theorem finalized_reorg_heals (engine : BackfillEngine) (start c f : Nat) (A B : Chain) (db : Db)
    (hs : 1 ≤ start) (hsc : start ≤ c) (hcold : HoldsBlocks A start c db)
    (hck : db.indexerCheckpoint.toInt = c) (hB : c ≤ B.height) (h64 : B.height < 2 ^ 64)
    (hf : ∀ n, n ≤ c → (A.hash n = B.hash n ↔ n < f)) :
    (∀ k n, outcome engine start B db k = .rolledBack n →
      getCheckpoint (iterates engine start B db (k + 1)) <
        getCheckpoint (iterates engine start B db k) ∧
      ∀ b ∈ (iterates engine start B db k).cold.blocks.rows, LiesOn B b →
        b ∈ (iterates engine start B db (k + 1)).cold.blocks.rows) ∧
    ∃ K, (∀ k < K, ∃ n, outcome engine start B db k = .rolledBack n) ∧
      (getCheckpoint (iterates engine start B db K) : Int) =
        max ((start : Int) - 1) (min c ((f : Int) - 1)) ∧
      ∀ k, K ≤ k → (∀ n, outcome engine start B db k ≠ .rolledBack n) ∧
        ∀ b ∈ (iterates engine start B db k).cold.blocks.rows, LiesOn B b := by
  have hc63 : c < 2 ^ 63 := by have := db.indexerCheckpoint.toInt_lt; omega
  have hgc : getCheckpoint db = c := by
    have : (getCheckpoint db : Int) = _ := asU64_of_nonneg (by omega)
    omega
  have h0 : Unwound A start c f c db := ⟨hcold, hgc, Nat.le_refl _, by omega⟩
  obtain ⟨K, hun, hroll, hclean⟩ := @unwinds engine start A B db c f c hc63 hs hB hf h0
  obtain ⟨ckK, hK⟩ := hun K (Nat.le_refl _)
  obtain ⟨htarget, hon⟩ := hK.clean hc63 hf hclean
  have hsettled : ∀ k, K ≤ k → Settled engine start B (iterates engine start B db k) := by
    intro k hk
    obtain ⟨j, hj⟩ := Nat.exists_eq_add_of_le hk
    rw [hj, iterates_add]
    exact settled_iterates h64 ⟨hclean, hon⟩ j
  -- an iteration before `K` is the rollback its reconcile asks for
  have hstep : ∀ k < K, ∃ n ck, f ≤ n ∧ start ≤ n ∧ n ≤ ck ∧
      Unwound A start c f ck (iterates engine start B db k) ∧
      iterate engine start B (iterates engine start B db k) =
        (.rolledBack n, rollbackFromBlock (iterates engine start B db k) n) := by
    intro k hk
    obtain ⟨n, hr⟩ := hroll k hk
    obtain ⟨ck, hu⟩ := hun k (Nat.le_of_lt hk)
    obtain ⟨hfn, hsn, hn, -⟩ := hu.rollback hc63 hs hB hf hr
    exact ⟨n, ck, hfn, hsn, hn, hu, iterate_reorg hr (by have := hu.le; omega)⟩
  refine ⟨fun k n ho => ?_, K, fun k hk => ?_, by rw [hK.checkpoint]; exact htarget,
    fun k hk => ⟨(settled_iterate h64 (hsettled k hk)).1, (hsettled k hk).liesOn⟩⟩
  · by_cases hk : k < K
    · obtain ⟨m, ck, hfm, hsm, hm, hu, hit⟩ := hstep k hk
      have hnext : iterates engine start B db (k + 1) =
          rollbackFromBlock (iterates engine start B db k) m := congrArg Prod.snd hit
      rw [hnext]
      exact hu.lowers hc63 hf hfm (by omega) hm
    · exact absurd ho ((settled_iterate h64 (hsettled k (by omega))).1 n)
  · obtain ⟨n, -, -, -, -, -, hit⟩ := hstep k hk
    exact ⟨n, congrArg Prod.fst hit⟩

/-- Blocks 1 to 3 of a chain that is replaced from 2 on. -/
def holdsThree : Db :=
  { Db.migrated with
    cold := ⟨.empty, ⟨Chain.blockRows (.fork 3 9 0) 1 3, by decide⟩⟩,
    indexerCheckpoint := 3 }

theorem finalized_reorg_heals_three :
    ∃ K, (∀ k < K, ∃ n, outcome (.ofDepths 0 1) 1 (.fork 9 2 1) holdsThree k = .rolledBack n) ∧
      (getCheckpoint (iterates (.ofDepths 0 1) 1 (.fork 9 2 1) holdsThree K) : Int) =
        max ((1 : Nat) - 1 : Int) (min (3 : Nat) ((2 : Nat) - 1)) ∧
      ∀ k, K ≤ k → (∀ n, outcome (.ofDepths 0 1) 1 (.fork 9 2 1) holdsThree k ≠ .rolledBack n) ∧
        ∀ b ∈ (iterates (.ofDepths 0 1) 1 (.fork 9 2 1) holdsThree k).cold.blocks.rows,
          LiesOn (.fork 9 2 1) b :=
  (finalized_reorg_heals (.ofDepths 0 1) 1 3 2 (.fork 3 9 0) (.fork 9 2 1) holdsThree (by decide)
    (by decide) (fun _ => Iff.rfl) (by decide) (by decide) (by decide) (by decide)).2

/-- Blocks 2^63 - 1 and 2^63, with the numbers the casts give them. -/
def holdsTwoAt63 : Db :=
  { Db.migrated with
    cold := ⟨.empty, ⟨Chain.blockRows (.fork (2 ^ 63) (2 ^ 63) 1) (2 ^ 63 - 1) (2 ^ 63), by decide⟩⟩,
    indexerCheckpoint := asI64 (2 ^ 63) }

/-- **Counterexample at 2^63.** Block 2^63 is replaced, and the rollback binds
-2^63: it deletes block 2^63 - 1 as well, which lies on `B`. -/
theorem healing_broken_at_2_63 : ∃ A B : Chain,
    HoldsBlocks A (2 ^ 63 - 1) (2 ^ 63) holdsTwoAt63 ∧ getCheckpoint holdsTwoAt63 = 2 ^ 63 ∧
    2 ^ 63 ≤ B.height ∧ B.height < 2 ^ 64 ∧
    (∀ n, n ≤ 2 ^ 63 → (A.hash n = B.hash n ↔ n < 2 ^ 63)) ∧
    outcome (.ofDepths 0 1) (2 ^ 63 - 1) B holdsTwoAt63 0 = .rolledBack (2 ^ 63) ∧
    ∃ b ∈ (iterates (.ofDepths 0 1) (2 ^ 63 - 1) B holdsTwoAt63 0).cold.blocks.rows, LiesOn B b ∧
      b ∉ (iterates (.ofDepths 0 1) (2 ^ 63 - 1) B holdsTwoAt63 1).cold.blocks.rows := by
  refine ⟨.fork (2 ^ 63) (2 ^ 63) 1, .fork (2 ^ 63) (2 ^ 63) 2, fun _ => Iff.rfl, by decide,
    by decide, by decide, fun n _ => ?_, by decide +kernel,
    ⟨asI64 (2 ^ 63 - 1), (B256.ofByte 0).val⟩, by decide +kernel,
    by rw [LiesOn]; decide, by decide +kernel⟩
  by_cases h : n < 2 ^ 63
  · simp only [Chain.fork, h, if_true]
  · simp only [Chain.fork, h, if_false, iff_false]
    decide

end EthIndexer.L4
