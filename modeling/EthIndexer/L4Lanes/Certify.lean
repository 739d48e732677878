import EthIndexer.L3Engine.World
import EthIndexer.L4Lanes.ColdLane

/-!
# What a clean reconcile certifies

`Certified start w`: every hash stored for `start..=checkpoint` is the one of
the canonical chain.

A batch of up to ten blocks is fetched one block at a time and parents are never
compared, so after a commit only the blocks below the batch are known to lie on
one chain of the family (`PrefixOn`). A clean pass certifies the lane when its
window reaches below the batch (`certified_of_window`), by the hash link.

`clean_reconcile_certifies`: every clean pass certifies the lane in the runs in
which each batch is shorter than the window or linked to the block below it
(`Links`); with a window longer than `BLOCK_BATCH_SIZE` these are all runs
(`linked_of_long_window`). `certified_fails`: with `reorg_lookback = 1` there
are others.
-/
namespace EthIndexer.L4
open EthIndexer.L1 EthIndexer.L2 EthIndexer.L3

/-- The hashes stored for `start..b` are those of `D`. -/
def AgreesTo (D : Chain) (start b : Nat) (db : Db) : Prop :=
  ∀ n, start ≤ n → n < b → n ≤ getCheckpoint db → getBlockHash db n = some (D.hash n).val

def Certified (start : Nat) (w : World) : Prop :=
  AgreesTo w.chain start (getCheckpoint w.sys.db + 1) w.sys.db

/-- What lies below a window lies on one chain of the family, with the first
block of the window. -/
def PrefixOn (F : Forks) (engine : BackfillEngine) (start : Nat) (db : Db) : Prop :=
  getCheckpoint db = 0 ∨
    ∃ D ∈ F.chains, ∃ m, getCheckpoint db + 1 < m + engine.lookback ∧ AgreesTo D start m db

/-- The batch committed in this turn is shorter than the window, or lies on one
chain with the stored block below it. -/
def Links (F : Forks) (engine : BackfillEngine) (w : World) : Turn → Prop
  | .event (.backfill .sql) =>
    match w.sys.backfill with
    | .range first last _ (.commit p) => last + 1 < first + engine.lookback ∨
        ∃ D ∈ F.chains, (∀ n h, (n, h) ∈ p.indexedBlocks → h = (D.hash n).val) ∧
          ∀ h, getBlockHash w.sys.db (first - 1) = some h → h = (D.hash (first - 1)).val
    | _ => True
  | _ => True

def linkedWorld (engine : BackfillEngine) (start : Nat) (F : Forks) : LTS World Turn :=
  (world engine start F).restrict (Links F engine)

/-- **The hash link.** A window of the lane that matches the chain `C` and
reaches below the last batch certifies the whole lane. -/
theorem certified_of_window {engine : BackfillEngine} {F : Forks} {start : Nat} {C : Chain} {db : Db}
    (hp : PrefixOn F engine start db) (hC : C ∈ F.chains)
    (hw : ∀ n, engine.validationStart start (getCheckpoint db) ≤ n → n ≤ getCheckpoint db →
      getBlockHash db n = some (C.hash n).val) :
    AgreesTo C start (getCheckpoint db + 1) db := by
  have hdef : engine.validationStart start (getCheckpoint db) =
      max (getCheckpoint db - (engine.lookback - 1)) start := rfl
  generalize engine.validationStart start (getCheckpoint db) = v at hw hdef
  intro n hs _ hn
  by_cases hvn : v ≤ n
  · exact hw n hvn hn
  · obtain ⟨D, hD, m, hm, hDm⟩ := hp.resolve_left (by omega)
    have hwv := hw v (Nat.le_refl v) (by omega)
    have hDv := hDm v (by omega) (by omega) (by omega)
    rw [hwv] at hDv
    have hmatch : D.hash v = C.hash v := (Subtype.ext (Option.some.inj hDv)).symm
    -- the entries up to `v` lie on `D`, which carries the hash of `C` at `v`
    have hcarried : Carries D.hash fun k a =>
        (start ≤ k ∧ k ≤ v) ∧ getBlockHash db k = some a.val := by
      intro k a ⟨hk, ha⟩
      have hDk := hDm k hk.1 (by omega) (by omega)
      rw [ha] at hDk
      exact Subtype.ext (Option.some.inj hDk)
    have hbelow := F.below hD hC hcarried (fun k a h => h.1.2) hmatch
    have hDn := hDm n hs (by omega) hn
    rw [hDn, hbelow n (D.hash n) ⟨⟨hs, by omega⟩, hDn⟩]

/-! ## The invariant -/

/-- What the backfill worker knows in a pass and after it. -/
def CertPc (F : Forks) (engine : BackfillEngine) (start : Nat) (C : Chain) (db : Db) :
    BackfillPc → Prop
  | .history _ checkpoint n => ∀ j, engine.validationStart start checkpoint ≤ j → j < n →
      getBlockHash db j = some (C.hash j).val
  | .historyRow _ checkpoint n hash => hash = C.hash n ∧
      ∀ j, engine.validationStart start checkpoint ≤ j → j < n →
        getBlockHash db j = some (C.hash j).val
  | .plan _ => ∃ D ∈ F.chains, AgreesTo D start (getCheckpoint db + 1) db
  | .range first last _ _ => last < first + BLOCK_BATCH_SIZE ∧
      ∃ D ∈ F.chains, AgreesTo D start (getCheckpoint db + 1) db
  | .resume | .head | .checkpoint _ | .rollback _ | .sleep _ => True

structure CertInv (F : Forks) (engine : BackfillEngine) (start : Nat) (w : World) : Prop where
  cold : ColdInv start w.sys
  chain : w.chain ∈ F.chains
  carried : PrefixOn F engine start w.sys.db
  pc : CertPc F engine start w.chain w.sys.db w.sys.backfill

section
variable {F : Forks} {engine : BackfillEngine} {start : Nat} {w : World}

theorem certInv_init (h : w.sys = .init) (hC : w.chain ∈ F.chains) :
    CertInv F engine start w where
  cold := by rw [h]; exact coldInv_init start
  chain := hC
  carried := by rw [h]; exact .inl rfl
  pc := by rw [h]; trivial

/-- A pass that reaches the checkpoint certifies the lane. -/
theorem certified_of_clean (I : CertInv F engine start w) {latest checkpoint n : Nat} {hash : B256}
    (hpc : w.sys.backfill = .historyRow latest checkpoint n hash)
    (hrow : getBlockHash w.sys.db n = some hash.val) (hge : checkpoint ≤ n) : Certified start w := by
  obtain ⟨hcold, hC, hp, hcert⟩ := I
  have hcpc := hcold.pc
  rw [hpc] at hcert hcpc
  obtain ⟨hhash, hbefore⟩ := hcert
  obtain ⟨-, hck, -, hn⟩ := hcpc
  have hgc := getCheckpoint_eq hcold.nonneg
  have hcc : checkpoint = getCheckpoint w.sys.db := by omega
  subst hcc
  refine certified_of_window hp hC fun j hj hjn => ?_
  by_cases hlt : j < n
  · exact hbefore j hj hlt
  · rw [show j = n by omega, hrow, hhash]

/-- A rollback below the checkpoint leaves a shorter prefix. -/
theorem PrefixOn.rollback {db : Db} {r : Nat} (hp : PrefixOn F engine start db)
    (hr : r ≤ getCheckpoint db) (hlt : r < 2 ^ 63) :
    PrefixOn F engine start (rollbackFromBlock db r) := by
  have hck : getCheckpoint (rollbackFromBlock db r) = r - 1 := asU64_asI64 (by omega)
  by_cases hr0 : r - 1 = 0
  · exact .inl (hck.trans hr0)
  · obtain ⟨D, hD, m, hm, hDm⟩ := hp.resolve_left (by omega)
    have := engine.lookback_pos
    refine .inr ⟨D, hD, min m r, by rw [hck]; omega, fun n hsn hn _ => ?_⟩
    have hold := hDm n hsn (by omega) (by omega)
    exact (Lane.getBlockHash_deleteRangeFrom (by omega) (by omega)).mpr ⟨hold, by omega⟩

/-- A linked batch after a lane that lies on `D`. -/
theorem prefixOn_commit {db : Db} {first last : Nat} (p : RangePayload first last) {D : Chain}
    (hD : D ∈ F.chains) (hDm : AgreesTo D start (getCheckpoint db + 1) db) (hle : first ≤ last) (hl : last < 2 ^ 63)
    (hf : first = max (getCheckpoint db + 1) start)
    (hK : last + 1 < first + engine.lookback ∨ ∃ E ∈ F.chains,
      (∀ n h, (n, h) ∈ p.indexedBlocks → h = (E.hash n).val) ∧
        ∀ h, getBlockHash db (first - 1) = some h → h = (E.hash (first - 1)).val) :
    PrefixOn F engine start
      (commitFinalizedRange db p.transferRecords p.indexedBlocks first last).1 := by
  have hck : getCheckpoint (commitFinalizedRange db p.transferRecords p.indexedBlocks
    first last).1 = last := asU64_asI64 (by omega)
  have hget : ∀ n, n < 2 ^ 64 → ∀ h, getBlockHash (commitFinalizedRange db p.transferRecords
      p.indexedBlocks first last).1 n = some h ↔ (n, h) ∈ p.indexedBlocks ∨
        (¬ (first ≤ n ∧ n ≤ last) ∧ getBlockHash db n = some h) :=
    fun n hn h => p.getBlockHash_insertRange (by omega) hn
  rcases hK with hshort | ⟨E, hE, hbatch, hparent⟩
  · refine .inr ⟨D, hD, first, by rw [hck]; exact hshort, fun n hs hnf _ => ?_⟩
    exact (hget n (by omega) _).mpr (.inr ⟨by omega, hDm n hs (by omega) (by omega)⟩)
  · have := engine.lookback_pos
    refine .inr ⟨E, hE, last + 1, by rw [hck]; omega, fun n hs hn _ => ?_⟩
    by_cases hnf : n < first
    · -- the block below the batch lies on `D` and on `E`
      have hD' := hDm (first - 1) (by omega) (by omega) (by omega)
      have hmatch : D.hash (first - 1) = E.hash (first - 1) := Subtype.ext (hparent _ hD')
      have hDE : D.hash n = E.hash n := F.linked _ (Set.mem_image_of_mem _ hD) _
        (Set.mem_image_of_mem _ hE) _ hmatch n (by omega)
      rw [← hDE]
      exact (hget n (by omega) _).mpr (.inr ⟨by omega, hDm n hs (by omega) (by omega)⟩)
    · obtain ⟨⟨m, h⟩, hm, he⟩ := List.mem_map.mp (p.mem_numbers.mpr ⟨Nat.le_of_not_lt hnf, by omega⟩)
      have he : m = n := he
      subst he
      rw [← hbatch m h hm]
      exact (hget m (by omega) h).mpr (.inl hm)

theorem certInv_backfill {e : Event} {pc : BackfillPc} {db : Db} (I : CertInv F engine start w)
    (hK : Links F engine w (.event (.backfill e)))
    (hE : AnsweredBy w.chain engine.contractFilter (.backfill e))
    (hm : BackfillMove engine start w.sys.db w.sys.backfill e pc db) :
    CertInv F engine start { w with sys := { w.sys with db := db, backfill := pc } } := by
  have hcold := coldInv_backfill I.cold (hE.headFits (F.fits _ I.chain)) hm
  have hclean := @certified_of_clean F engine start w I
  obtain ⟨hcold₀, hC, hp, hpc⟩ := I
  have hcpc := hcold₀.pc
  have hck := getCheckpoint_eq hcold₀.nonneg
  have hlt := w.sys.db.indexerCheckpoint.toInt_lt
  generalize hpc₀ : w.sys.backfill = pc₀ at hm hpc hcpc hclean
  cases hm with
  | resume | head _ | wake | caughtUp _ | mismatch _ | reorg _ => exact ⟨hcold, hC, hp, trivial⟩
  | revalidate _ => exact ⟨hcold, hC, hp, fun j hj hjn => absurd hjn (Nat.not_lt.mpr hj)⟩
  | skip hck' =>
    refine ⟨hcold, hC, hp, w.chain, hC, fun n hs _ hn => ?_⟩
    exact absurd (Nat.le_trans hs hn) (Nat.not_le.mpr hck')
  | fetched => exact ⟨hcold, hC, hp, hE.1.1, hpc⟩
  | next hrow _ =>
    rename_i n hash hlt'
    obtain ⟨hhash, hbefore⟩ := hpc
    refine ⟨hcold, hC, hp, fun j hj hjn => ?_⟩
    by_cases hjn' : j < n
    · exact hbefore j hj hjn'
    · rw [show j = n by omega, hrow, hhash]
  | clean hrow hge => exact ⟨hcold, hC, hp, w.chain, hC, hclean rfl hrow hge⟩
  | rollback =>
    obtain ⟨hs, hr⟩ := hcpc
    exact ⟨hcold, hC, hp.rollback (by omega) (by omega), trivial⟩
  | planned hle hov hlast =>
    obtain ⟨D, hD, hDm⟩ := hpc
    refine ⟨hcold, hC, hp, ?_, D, hD, hDm⟩
    simp only [BLOCK_BATCH_SIZE] at hlast ⊢
    omega
  | range _ => exact ⟨hcold, hC, hp, hpc⟩
  | @commit first last latest p _ =>
    obtain ⟨-, D, hD, hDm⟩ := hpc
    obtain ⟨hle, hl, hf⟩ := hcpc
    simp only [Links, hpc₀] at hK
    exact ⟨hcold, hC, prefixOn_commit p hD hDm hle hl (by omega) hK, trivial⟩

theorem certInv_turn {w' : World} {t : Turn} (I : CertInv F engine start w)
    (hK : Links F engine w t) (hF : t.Within F) (h : turn engine start w t = some w') :
    CertInv F engine start w' := by
  rcases turn_cases h with ⟨l, s, rfl, hl, hs, rfl⟩ | ⟨C, rfl, hr, rfl⟩
  · have hcold := coldInv_step I.cold (hl.headFits (F.fits _ I.chain)).backfill hs
    rcases step_cases hs with ⟨e, pc, db, rfl, hm, rfl⟩ | ⟨e, pc, db, rfl, hm, rfl⟩ | rfl
    · exact certInv_backfill I hK hl hm
    · obtain ⟨hc, hi⟩ := hm.frame
      have hck : getCheckpoint db = getCheckpoint w.sys.db := by simp only [getCheckpoint, hi]
      have hbh : getBlockHash db = getBlockHash w.sys.db := by funext n; simp only [getBlockHash, hc]
      have hag : ∀ D b, AgreesTo D start b db ↔ AgreesTo D start b w.sys.db := by
        intro D b
        simp only [AgreesTo, hck, hbh]
      refine ⟨hcold, I.chain, ?_, ?_⟩
      · have hp := I.carried
        simpa only [PrefixOn, hck, hag] using hp
      · have hpc := I.pc
        revert hpc
        cases w.sys.backfill <;> simp only [CertPc, hck, hbh, hag] <;> exact id
    · exact ⟨hcold, I.chain, I.carried, trivial⟩
  · refine ⟨I.cold, hF, I.carried, ?_⟩
    have hpc := I.pc
    revert hpc hr
    cases w.sys.backfill with
    | history _ _ _ | historyRow _ _ _ _ => intro hr; cases hr
    | _ => exact fun _ => id

end

theorem certInv_inductive (engine : BackfillEngine) (start : Nat) (F : Forks) :
    (linkedWorld engine start F).Inductive (CertInv F engine start) where
  init := fun _ hw => certInv_init hw.1 hw.2
  step := fun _ _ _ I hs => certInv_turn I hs.1 hs.2.1 hs.2.2

/-- A window longer than `BLOCK_BATCH_SIZE` is longer than every batch. -/
theorem linked_of_long_window {engine : BackfillEngine} {start : Nat} {F : Forks}
    (hL : BLOCK_BATCH_SIZE < engine.lookback) {w : World}
    (h : (world engine start F).Reachable w) : (linkedWorld engine start F).Reachable w := by
  refine LTS.reachable_restrict (certInv_inductive engine start F) (fun w t I => ?_) h
  unfold Links
  split
  · split
    · rename_i hpc
      have hb := I.pc
      rw [hpc] at hb
      have := hb.1
      exact .inl (by omega)
    · trivial
  · trivial

/-! ## The result -/

def atHistoryRow : BackfillPc → Bool
  | .historyRow _ _ _ _ => true
  | _ => false

def atPlan : BackfillPc → Bool
  | .plan _ => true
  | _ => false

/-- In this turn `reconcile_finalized_history` returns `false`. -/
def ReconcilesClean (engine : BackfillEngine) (start : Nat) (w w' : World) : Prop :=
  turn engine start w (.event (.backfill .sql)) = some w' ∧
    atHistoryRow w.sys.backfill = true ∧ atPlan w'.sys.backfill = true

/-- **A clean reconcile certifies the whole lane**, wherever the reorganisations
fell outside of the passes, in every run whose batches are shorter than the
window or linked. -/
theorem clean_reconcile_certifies (engine : BackfillEngine) (start : Nat) (F : Forks) (w w' : World)
    (h : (linkedWorld engine start F).Reachable w) (hw : ReconcilesClean engine start w w') :
    Certified start w' := by
  have I := (certInv_inductive engine start F).reachable w h
  obtain ⟨ht, hrow, hplan⟩ := hw
  rcases turn_cases ht with ⟨l, s, he, -, hs, hw'⟩ | ⟨C, he, -⟩
  · subst hw'
    cases he
    rcases step_cases hs with ⟨e, pc, db, he, hm, hs'⟩ | ⟨e, pc, db, he, -⟩ | hs'
    · subst hs'
      cases he
      generalize hpc : w.sys.backfill = pc₀ at hm hrow
      cases hm with
      | clean hmatch hge =>
        have hcert : Certified start w := certified_of_clean I hpc hmatch hge
        exact hcert
      | next | mismatch => cases hplan
      | _ => cases hrow
    · cases he
    · subst hs'
      cases hplan
  · cases he

/-! ## Runs -/

/-- Block 1 off one fork; after a clean pass on it, block 2 off another; then a
pass over the window, which is block 2 alone. -/
def overtaken : List (Chain × List Label) :=
  [(.fork 1 1 0, [.backfill .sql, .backfill (.blockNumber 1), .backfill .sql, .backfill .sql] ++
      rangeLabels .backfill (.fork 1 1 0) none 1 1),
    (.fork 2 1 0, [.backfill (.blockNumber 2), .backfill .sql] ++
      historyLabels (.fork 2 1 0) 1 1),
    (.fork 2 1 1, [.backfill .sql] ++ rangeLabels .backfill (.fork 2 1 1) none 2 2 ++
      [.backfill (.blockNumber 2), .backfill .sql, .backfill (.block 2 (.ofByte 1) 0)])]

/-- **Counterexample**: the pass is clean, and the hash stored for block 1 is off
the other fork. -/
theorem certified_fails : ∃ w w' h, (world (.ofDepths 0 1) 1 (forksAt 1)).Reachable w ∧
    ReconcilesClean (.ofDepths 0 1) 1 w w' ∧ getBlockHash w'.sys.db 1 = some h ∧
    h ≠ (w'.chain.hash 1).val ∧ ¬ Certified 1 w' := by
  have hx : ((LTS.exec (turn (.ofDepths 0 1) 1) ⟨.init, .fork 1 1 0⟩ (segments overtaken)).bind
      fun w => (turn (.ofDepths 0 1) 1 w (.event (.backfill .sql))).map fun w' =>
        ((atHistoryRow w.sys.backfill, atPlan w'.sys.backfill), getCheckpoint w'.sys.db,
          getBlockHash w'.sys.db 1, (w'.chain.hash 1).val)) =
      some ((true, true), 2, some (B256.ofByte 0).val, (B256.ofByte 1).val) := by decide +kernel
  obtain ⟨w, hw, hx⟩ := Option.bind_eq_some_iff.mp hx
  obtain ⟨w', hw', hx⟩ := Option.map_eq_some_iff.mp hx
  simp only [Prod.mk.injEq] at hx
  obtain ⟨⟨hrow, hplan⟩, hck, hstored, hchain⟩ := hx
  have hF : ∀ g ∈ overtaken, g.1 ∈ (forksAt 1).chains := by
    simp only [overtaken, List.forall_mem_cons]
    exact ⟨fork_mem (by decide), fork_mem (by decide), fork_mem (by decide), List.forall_mem_nil _⟩
  have hne : (B256.ofByte 0).val ≠ (w'.chain.hash 1).val := by rw [hchain]; decide
  refine ⟨w, w', _, ⟨_, _, ⟨rfl, fork_mem (by decide)⟩, world_run (segments_within hF) hw⟩,
    ⟨hw', hrow, hplan⟩, hstored, hne, fun h => hne ?_⟩
  have h1 := h 1 (by decide) (by omega) (by omega)
  rw [hstored] at h1
  exact Option.some.inj h1

/-- Block 1 off one fork and block 2 off another, in one batch; then a pass over
both. -/
def mixedBatch : List (Chain × List Label) :=
  [(.fork 2 2 0, [.backfill .sql, .backfill (.blockNumber 2), .backfill .sql, .backfill .sql,
      .backfill (.block 1 (.ofByte 0) 0)]),
    (.fork 2 2 1, [.backfill (.block 2 (.ofByte 1) 0), .backfill (.logs 1 2 []), .backfill .sql,
      .backfill .sql, .backfill .sql, .backfill (.blockNumber 2), .backfill .sql] ++
      (historyLabels (.fork 2 2 1) 1 2).dropLast)]

theorem clean_reconcile_certifies_mixed :
    ∃ w w', (world (.ofDepths 0 11) 1 (forksAt 2)).Reachable w ∧
      ReconcilesClean (.ofDepths 0 11) 1 w w' ∧ getCheckpoint w'.sys.db = 2 ∧ Certified 1 w' := by
  have hx : ((LTS.exec (turn (.ofDepths 0 11) 1) ⟨.init, .fork 2 2 0⟩ (segments mixedBatch)).bind
      fun w => (turn (.ofDepths 0 11) 1 w (.event (.backfill .sql))).map fun w' =>
        (atHistoryRow w.sys.backfill, atPlan w'.sys.backfill, getCheckpoint w'.sys.db)) =
      some (true, true, 2) := by decide +kernel
  obtain ⟨w, hw, hx⟩ := Option.bind_eq_some_iff.mp hx
  obtain ⟨w', hw', hx⟩ := Option.map_eq_some_iff.mp hx
  simp only [Prod.mk.injEq] at hx
  obtain ⟨hrow, hplan, hck⟩ := hx
  have hF : ∀ g ∈ mixedBatch, g.1 ∈ (forksAt 2).chains := by
    simp only [mixedBatch, List.forall_mem_cons]
    exact ⟨fork_mem (by decide), fork_mem (by decide), List.forall_mem_nil _⟩
  have hr : (world (.ofDepths 0 11) 1 (forksAt 2)).Reachable w :=
    ⟨_, _, ⟨rfl, fork_mem (by decide)⟩, world_run (segments_within hF) hw⟩
  exact ⟨w, w', hr, ⟨hw', hrow, hplan⟩, hck,
    clean_reconcile_certifies _ _ _ w w' (linked_of_long_window (by decide) hr)
      ⟨hw', hrow, hplan⟩⟩

end EthIndexer.L4
