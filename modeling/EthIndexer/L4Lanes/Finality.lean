import EthIndexer.L3Engine.Fetch
import EthIndexer.L3Engine.World
import EthIndexer.L4Lanes.Exactness

/-!
# Finality

`confirmation_depth` is meant to keep reorganisations out of the cold lane. Let
them be shallow: a new chain keeps every block that is `confirmation_depth` below
a head the backfill worker has been told (`ShallowTurn.reorg`). Heads are
otherwise free, the chain may change between any two events, and the process may
crash and start again.

`finalized_is_final`: then the cold lane is at all times exactly what one pass
over the chain of the moment gives; with a positive start nothing in it is ever
rolled back, the checkpoint never falls, and no row that is there is lost.

The chain changes under a pass or a range in flight. What a worker holds of a
block up to the safe head is the same on the new chain (`ExactInv.agrees`).
-/
namespace EthIndexer.L4
open EthIndexer.L1 EthIndexer.L2 EthIndexer.L3 EthIndexer.L3.Chain

/-- The chains have the same blocks up to `b`. -/
structure AgreesUpTo (C D : Chain) (b : Nat) : Prop where
  hash : ∀ n, n ≤ b → C.hash n = D.hash n
  timestamp : ∀ n, n ≤ b → C.timestamp n = D.timestamp n
  logs : ∀ n, n ≤ b → C.logs n = D.logs n

/-- The system, the chain of the moment and the greatest head the backfill worker
has been told. -/
structure TipWorld where
  sys : Sys
  chain : Chain
  tip : Nat

def tipAfter (tip : Nat) : Label → Nat
  | .backfill (.blockNumber latest) => max tip latest
  | _ => tip

inductive ShallowTurn (engine : BackfillEngine) (start : Nat) (w : TipWorld) :
    Turn → TipWorld → Prop
  | event {l : Label} {s : Sys} (hl : OnChain w.chain engine.contractFilter l)
      (hs : step engine start w.sys l = some s) :
      ShallowTurn engine start w (.event l) ⟨s, w.chain, tipAfter w.tip l⟩
  | reorg {C : Chain} (hC : Indexed C) (h : AgreesUpTo w.chain C (engine.safeHead w.tip)) :
      ShallowTurn engine start w (.reorg C) { w with chain := C }

def shallowWorld (engine : BackfillEngine) (start : Nat) : LTS TipWorld Turn where
  init w := w.sys = .init ∧ Indexed w.chain ∧ w.tip = 0
  step := ShallowTurn engine start

/-! ## Chains that agree -/

section
variable {C D E : Chain} {filter : Option Bytes} {a b c : Nat}

theorem AgreesUpTo.refl : AgreesUpTo C C b := ⟨fun _ _ => rfl, fun _ _ => rfl, fun _ _ => rfl⟩

theorem AgreesUpTo.trans (h : AgreesUpTo C D b) (h' : AgreesUpTo D E c) (hbc : b ≤ c) :
    AgreesUpTo C E b where
  hash n hn := (h.hash n hn).trans (h'.hash n (hn.trans hbc))
  timestamp n hn := (h.timestamp n hn).trans (h'.timestamp n (hn.trans hbc))
  logs n hn := (h.logs n hn).trans (h'.logs n (hn.trans hbc))

theorem AgreesUpTo.metadata (h : AgreesUpTo C D b) {n : Nat} (hn : n ≤ b) :
    C.metadata n = D.metadata n := by
  simp only [Chain.metadata, h.hash n hn, h.timestamp n hn]

theorem AgreesUpTo.getLogs (h : AgreesUpTo C D b) (hcb : c ≤ b) :
    C.getLogs filter a c = D.getLogs filter a c := by
  refine List.flatMap_congr fun n hn => ?_
  have := mem_rangeIncl.mp hn
  simp only [Chain.transferLogs, h.logs n (by omega)]

theorem AgreesUpTo.records (h : AgreesUpTo C D b) (hcb : c ≤ b) :
    records C filter a c = records D filter a c := by
  rw [Chain.records, Chain.records, ← h.getLogs hcb]
  refine List.filterMap_congr fun log hl => ?_
  obtain ⟨n, hn, hm⟩ := Chain.mem_getLogs.mp hl
  have hb := (C.logs_mined n log (Chain.mem_transferLogs hm)).1
  simp only [Chain.record, hb, h.metadata (show n ≤ b by omega), bind, Option.bind_some]

theorem AgreesUpTo.blocks (h : AgreesUpTo C D b) (hcb : c ≤ b) : blocks C a c = blocks D a c := by
  refine List.map_congr_left fun n hn => ?_
  have := mem_rangeIncl.mp hn
  rw [h.hash n (by omega)]

theorem AgreesUpTo.coldExact {start : Nat} {db : Db} (h : AgreesUpTo C D b)
    (hle : getCheckpoint db ≤ b) (hx : ColdExact C filter start db) :
    ColdExact D filter start db where
  transfers := by
    have := hx.transfers
    rwa [h.records hle] at this
  blocks := by
    have := hx.blocks
    rwa [blockRows, h.blocks hle] at this

theorem AgreesUpTo.payloadOn {first last : Nat} {p : RangePayload first last}
    (h : AgreesUpTo C D b) (hl : last ≤ b) (hon : RangeOn C filter (.commit p)) :
    RangeOn D filter (.commit p) := by
  refine ⟨?_, hon.2.trans (h.blocks hl)⟩
  have := hon.1
  rwa [h.records hl] at this

/-- The metadata a range has been answered is that of its blocks. -/
def RangeWithin {first last : Nat} : RangePc first last → Prop
  | .blocks got => ∀ m ∈ got, m.number ≤ last
  | _ => True

theorem AgreesUpTo.rangeOn {first last : Nat} {pc : RangePc first last} (h : AgreesUpTo C D b)
    (hl : last ≤ b) (hw : RangeWithin pc) (hon : RangeOn C filter pc) : RangeOn D filter pc := by
  cases pc with
  | blocks got =>
    intro m hm
    rw [hon m hm]
    exact h.metadata ((hw m hm).trans hl)
  | logs metas =>
    have hv : metas.val = (rangeIncl first last).map C.metadata := hon
    show metas.val = _
    rw [hv]
    refine List.map_congr_left fun n hn => h.metadata ?_
    exact (mem_rangeIncl.mp hn).2.trans hl
  | check p i => exact h.payloadOn hl hon
  | commit p => exact h.payloadOn hl hon

end

/-! ## The invariant -/

/-- What the backfill worker holds lies up to the safe head of the greatest head. -/
def TipPc (engine : BackfillEngine) (tip : Nat) : BackfillPc → Prop
  | .resume | .head | .rollback _ => True
  | .checkpoint latest | .history latest _ _ | .historyRow latest _ _ _ | .plan latest
  | .sleep latest => latest ≤ tip
  | .range _ last _ pc => last ≤ engine.safeHead tip ∧ RangeWithin pc

structure FinalInv (engine : BackfillEngine) (start : Nat) (w : TipWorld) : Prop where
  exact : ExactInv w.chain engine.contractFilter start w.sys
  indexed : Indexed w.chain
  checkpoint : getCheckpoint w.sys.db ≤ engine.safeHead w.tip
  pc : TipPc engine w.tip w.sys.backfill

section
variable {engine : BackfillEngine} {start : Nat} {w w' : TipWorld}

theorem le_tipAfter (tip : Nat) (l : Label) : tip ≤ tipAfter tip l := by
  unfold tipAfter
  split
  · exact Nat.le_max_left _ _
  · exact Nat.le_refl _

theorem safeHead_mono (engine : BackfillEngine) {a b : Nat} (h : a ≤ b) :
    engine.safeHead a ≤ engine.safeHead b :=
  Nat.sub_le_sub_right h _

theorem rangeWithin_enterBlocks {first last : Nat} {got : List BlockMetadata}
    (h : ∀ m ∈ got, m.number ≤ last) : RangeWithin (enterBlocks first last got) := by
  unfold enterBlocks
  split
  · trivial
  · exact h

theorem rangeWithin_step {hashOf : Nat → Option Bytes} {first last : Nat} {e : Event}
    {pc pc' : RangePc first last} (h : RangeWithin pc)
    (hs : RangeStep hashOf first last pc e (.goto pc')) : RangeWithin pc' := by
  cases hs with
  | @block got n hash timestamp hf =>
    obtain ⟨-, -, -, hn⟩ := inFlight_eq_true.mp hf
    refine rangeWithin_enterBlocks fun m hm => ?_
    rcases List.mem_append.mp hm with hm | hm
    · exact h m hm
    · rw [List.mem_singleton.mp hm]
      exact (mem_rangeIncl.mp (List.mem_filter.mp hn).1).2
  | logs _ => unfold enterCheck; split <;> trivial
  | agree _ _ => unfold enterCheck; split <;> trivial

theorem TipPc.mono {a b : Nat} {pc : BackfillPc} (hab : a ≤ b) (h : TipPc engine a pc) :
    TipPc engine b pc := by
  cases pc with
  | resume | head | rollback _ => trivial
  | checkpoint _ | history _ _ _ | historyRow _ _ _ _ | plan _ | sleep _ => exact Nat.le_trans h hab
  | range first last latest pc => exact ⟨h.1.trans (safeHead_mono engine hab), h.2⟩

/-- Nothing stored is lost, short of a start at 0. -/
theorem tip_backfill {tip : Nat} {s : Sys} {e : Event} {pc : BackfillPc} {db : Db} {C : Chain}
    (I : ExactInv C engine.contractFilter start s) (hc : getCheckpoint s.db ≤ engine.safeHead tip)
    (hpc : TipPc engine tip s.backfill) (hm : BackfillMove engine start s.db s.backfill e pc db) :
    getCheckpoint s.db ≤ getCheckpoint db ∧
      getCheckpoint db ≤ engine.safeHead (tipAfter tip (.backfill e)) ∧
      TipPc engine (tipAfter tip (.backfill e)) pc := by
  obtain ⟨-, h0, hx⟩ := I
  have hmono := safeHead_mono engine (le_tipAfter tip (.backfill e))
  generalize s.backfill = pc₀ at hm hpc hx
  cases hm with
  | resume | wake | mismatch _ => exact ⟨le_rfl, hc.trans hmono, trivial⟩
  | head _ => exact ⟨le_rfl, hc.trans hmono, Nat.le_max_right _ _⟩
  | revalidate _ | skip _ | next _ _ | clean _ _ | caughtUp _ =>
    exact ⟨le_rfl, hc, hpc⟩
  | fetched => exact ⟨le_rfl, hc, hpc⟩
  | rollback =>
    obtain ⟨hs, hn⟩ := hx
    subst hs hn
    have hz : getCheckpoint (rollbackFromBlock s.db 0) = 0 := asU64_asI64 (by decide)
    rw [hz, h0 rfl]
    exact ⟨le_rfl, Nat.zero_le _, trivial⟩
  | planned _ _ hlast =>
    have hle : engine.safeHead _ ≤ engine.safeHead tip := safeHead_mono engine hpc
    exact ⟨le_rfl, hc, by omega, rangeWithin_enterBlocks fun _ hm => absurd hm List.not_mem_nil⟩
  | range hr => exact ⟨le_rfl, hc.trans hmono, hpc.1.trans hmono, rangeWithin_step hpc.2 hr⟩
  | reorg _ => exact ⟨le_rfl, hc.trans hmono, trivial⟩
  | @commit first last latest p =>
    obtain ⟨-, hf, hle, hlt, -⟩ := hx
    have hck : getCheckpoint (commitFinalizedRange s.db p.transferRecords p.indexedBlocks first
      last).1 = last := asU64_asI64 hlt
    rw [hck]
    exact ⟨by omega, hpc.1, trivial⟩

/-- What the run from `w` to `w'` keeps. -/
structure Later (engine : BackfillEngine) (w w' : TipWorld) : Prop where
  tip : w.tip ≤ w'.tip
  checkpoint : getCheckpoint w.sys.db ≤ getCheckpoint w'.sys.db
  agrees : AgreesUpTo w.chain w'.chain (engine.safeHead w.tip)

theorem Later.trans {w'' : TipWorld} (h : Later engine w w') (h' : Later engine w' w'') :
    Later engine w w'' :=
  ⟨h.tip.trans h'.tip, h.checkpoint.trans h'.checkpoint, h.agrees.trans h'.agrees
    (safeHead_mono engine h.tip)⟩

theorem finalInv_event {l : Label} {s : Sys} (I : FinalInv engine start w)
    (hl : OnChain w.chain engine.contractFilter l) (hs : step engine start w.sys l = some s) :
    FinalInv engine start ⟨s, w.chain, tipAfter w.tip l⟩ ∧
      Later engine w ⟨s, w.chain, tipAfter w.tip l⟩ := by
  have hx := exactInv_step I.indexed I.exact hl hs
  have hmono := safeHead_mono engine (le_tipAfter w.tip l)
  rcases step_cases hs with ⟨e, pc, db, rfl, hm, rfl⟩ | ⟨e, pc, db, rfl, hm, rfl⟩ | rfl
  · obtain ⟨h1, h2, h3⟩ := tip_backfill I.exact I.checkpoint I.pc hm
    exact ⟨⟨hx, I.indexed, h2, h3⟩, le_tipAfter _ _, h1, .refl⟩
  · obtain ⟨-, hi⟩ := hm.frame
    have hck : getCheckpoint db = getCheckpoint w.sys.db := by simp only [getCheckpoint, hi]
    exact ⟨⟨hx, I.indexed, hck.trans_le I.checkpoint, I.pc⟩, le_rfl, hck.ge, .refl⟩
  · exact ⟨⟨hx, I.indexed, I.checkpoint.trans hmono, trivial⟩, le_tipAfter _ _, le_rfl, .refl⟩

/-- **A shallow reorganisation** leaves what the worker holds as it is on the new chain. -/
theorem ExactInv.agrees {C D : Chain} {s : Sys} {tip : Nat}
    (I : ExactInv C engine.contractFilter start s) (hc : getCheckpoint s.db ≤ engine.safeHead tip)
    (hpc : TipPc engine tip s.backfill) (h : AgreesUpTo C D (engine.safeHead tip)) :
    ExactInv D engine.contractFilter start s := by
  obtain ⟨hx, h0, hp⟩ := I
  refine ⟨h.coldExact hc hx, h0, ?_⟩
  revert hp hpc
  cases s.backfill with
  | historyRow latest checkpoint n hash =>
    intro _ ⟨hck, hs, hn, hh⟩
    exact ⟨hck, hs, hn, hh.trans (h.hash n (by omega))⟩
  | range first last latest pc =>
    intro ⟨hl, hw⟩ ⟨hs, hf, hle, hlt, hon⟩
    exact ⟨hs, hf, hle, hlt, h.rangeOn hl hw hon⟩
  | _ => exact fun _ hp => hp

theorem finalInv_step {t : Turn} (I : FinalInv engine start w)
    (h : (shallowWorld engine start).step w t w') :
    FinalInv engine start w' ∧ Later engine w w' := by
  cases h with
  | event hl hs => exact finalInv_event I hl hs
  | reorg hC h =>
    exact ⟨⟨I.exact.agrees I.checkpoint I.pc h, hC, I.checkpoint, I.pc⟩, le_rfl, le_rfl, h⟩

theorem finalInv_inductive : (shallowWorld engine start).Inductive (FinalInv engine start) where
  init := by
    intro w ⟨hs, hC, _⟩
    obtain ⟨s, C, tip⟩ := w
    subst hs
    exact ⟨exactInv_init C _ start, hC, Nat.zero_le _, trivial⟩
  step := fun _ _ _ I hs => (finalInv_step I hs).1

theorem finalInv_run {ts : List Turn} (hr : (shallowWorld engine start).Run w ts w')
    (I : FinalInv engine start w) : FinalInv engine start w' ∧ Later engine w w' := by
  induction hr with
  | nil => exact ⟨I, le_rfl, le_rfl, .refl⟩
  | cons hs _ ih =>
    obtain ⟨I₁, h₁⟩ := finalInv_step I hs
    obtain ⟨I₂, h₂⟩ := ih I₁
    exact ⟨I₂, h₁.trans h₂⟩

end

/-! ## The result -/

section
variable {C : Chain} {filter : Option Bytes} {a b c : Nat}

theorem records_mono {r : Erc20TransferRecord} (hbc : b ≤ c) (h : r ∈ records C filter a b) :
    r ∈ records C filter a c := by
  by_cases hab : a ≤ b + 1
  · rw [← records_append hab hbc]
    exact List.mem_append_left _ h
  · rw [records_nil (by omega)] at h
    cases h

theorem blockRows_mono {r : IndexedBlock} (hbc : b ≤ c) (h : r ∈ blockRows C a b) :
    r ∈ blockRows C a c := by
  obtain ⟨n, hn, he⟩ := mem_blockRows.mp h
  exact mem_blockRows.mpr ⟨n, ⟨hn.1, hn.2.trans hbc⟩, he⟩

end

/-- **Finality.** Under reorganisations above the safe head, crashes and restarts
the cold lane is exact for the chain of the moment, no rollback is under way
(with a positive start), and whatever comes next, the checkpoint does not fall
and every row stays. -/
theorem finalized_is_final (engine : BackfillEngine) (start : Nat) (w : TipWorld)
    (h : (shallowWorld engine start).Reachable w) :
    ColdExact w.chain engine.contractFilter start w.sys.db ∧
    (start ≠ 0 → ∀ n, w.sys.backfill ≠ .rollback n) ∧
    ∀ ts w', (shallowWorld engine start).Run w ts w' →
      getCheckpoint w.sys.db ≤ getCheckpoint w'.sys.db ∧
      (∀ r ∈ w.sys.db.cold.transfers.rows, r ∈ w'.sys.db.cold.transfers.rows) ∧
      ∀ b ∈ w.sys.db.cold.blocks.rows, b ∈ w'.sys.db.cold.blocks.rows := by
  have I := finalInv_inductive.reachable w h
  refine ⟨I.exact.exact, fun hs n hn => ?_, fun ts w' hr => ?_⟩
  · have hpc := I.exact.pc
    rw [hn] at hpc
    exact hs hpc.1
  · obtain ⟨I', hl⟩ := finalInv_run hr I
    have hx := hl.agrees.coldExact I.checkpoint I.exact.exact
    have hx' := I'.exact.exact
    refine ⟨hl.checkpoint, fun r hm => ?_, fun b hm => ?_⟩
    · exact hx'.transfers.mem_iff.mpr (records_mono hl.checkpoint (hx.transfers.mem_iff.mp hm))
    · exact hx'.blocks.mem_iff.mpr (blockRows_mono hl.checkpoint (hx.blocks.mem_iff.mp hm))

/-! ## Runs -/

theorem shallowWorld_exec (engine : BackfillEngine) (start tip : Nat) {C : Chain} {s s' : Sys}
    {ls : List Label} (h : LTS.exec (stepWith engine start fun _ =>
      OnChain C engine.contractFilter) s ls = some s') :
    (shallowWorld engine start).Run ⟨s, C, tip⟩ (ls.map .event) ⟨s', C, ls.foldl tipAfter tip⟩ := by
  induction ls generalizing s tip with
  | nil =>
    simp only [LTS.exec, Option.some.injEq] at h
    rw [h]
    exact .nil _
  | cons l ls ih =>
    simp only [LTS.exec, Option.bind_eq_some_iff] at h
    obtain ⟨s₁, h₁, h₂⟩ := h
    obtain ⟨hl, hs⟩ := stepWith_step _ _ _ h₁
    exact .cons (.event hl hs) (ih _ h₂)

theorem fork_indexed (height f : Nat) (branch : UInt8) : Indexed (.fork height f branch) where
  small := fun _ _ hl => absurd hl List.not_mem_nil
  unique := fun _ => .nil

/-- Blocks 1 and 2 of a chain of height 3. -/
def beforeReplaced : List Label :=
  [.backfill .sql, .backfill (.blockNumber 3), .backfill .sql, .backfill .sql] ++
    rangeLabels .backfill (.fork 3 9 0) none 1 2

/-- Block 3 of the chain that replaced it, after a crash. -/
def afterReplaced : List Label :=
  [.crash, .backfill .sql, .backfill (.blockNumber 4), .backfill .sql] ++
    historyLabels (.fork 4 3 1) 2 2 ++ [.backfill .sql] ++
    rangeLabels .backfill (.fork 4 3 1) none 3 3

theorem finalized_is_final_replaced : ∃ w, (shallowWorld (.ofDepths 1 1) 1).Reachable w ∧
    (w.tip, getCheckpoint w.sys.db) = (4, 3) ∧
    ColdExact w.chain none 1 w.sys.db := by
  have hx : ((LTS.exec (stepWith (.ofDepths 1 1) 1 fun _ => OnChain (.fork 3 9 0) none) .init
      beforeReplaced).bind fun s => (LTS.exec (stepWith (.ofDepths 1 1) 1 fun _ =>
        OnChain (.fork 4 3 1) none) s afterReplaced).map fun s => getCheckpoint s.db) =
      some 3 := by decide +kernel
  obtain ⟨s₁, h₁, hx⟩ := Option.bind_eq_some_iff.mp hx
  obtain ⟨s₂, h₂, hck⟩ := Option.map_eq_some_iff.mp hx
  have hagree : AgreesUpTo (.fork 3 9 0) (.fork 4 3 1) 2 := by
    refine ⟨fun n hn => ?_, fun _ _ => rfl, fun _ _ => rfl⟩
    simp only [Chain.fork, if_pos (show n < 9 by omega), if_pos (show n < 3 by omega)]
  have hr₁ := shallowWorld_exec (.ofDepths 1 1) 1 0 h₁
  have hr₂ := shallowWorld_exec (.ofDepths 1 1) 1 3 h₂
  have hr := hr₁.append (.cons (.reorg (fork_indexed 4 3 1) hagree) hr₂)
  have hw : (shallowWorld (.ofDepths 1 1) 1).Reachable ⟨s₂, .fork 4 3 1, 4⟩ :=
    ⟨_, _, ⟨rfl, fork_indexed 3 9 0, rfl⟩, hr⟩
  exact ⟨_, hw, by rw [hck], (finalized_is_final (.ofDepths 1 1) 1 _ hw).1⟩

end EthIndexer.L4
