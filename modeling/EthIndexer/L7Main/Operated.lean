import EthIndexer.L4Lanes.ColdLedger
import EthIndexer.L4Lanes.Settling
import EthIndexer.L7Main.Config

/-!
# Restarts with another configuration

`operated` is the process with the operator: any event of a worker its mode runs,
or a start with any environment that `main` accepts. Start block, depths, contract
and mode may all be different from one start to the next, and so the cold lane is
no longer one interval of blocks.

What does not depend on the configuration is `Intact`: both lanes are bounded by
their checkpoints and carry their hashes. And a block that the finalized
checkpoint never falls below keeps what the cold lane holds of it
(`operated_safe`). As everywhere, the transactions of the two workers take effect
one at a time: a commit between two statements of a rollback could leave a hot
block above the live checkpoint.
-/
namespace EthIndexer.L7
open EthIndexer.L1 EthIndexer.L2 EthIndexer.L3 EthIndexer.L4

/-- The workers `main` starts.
mirrors indexer/src/main.rs:134-155 -/
def IndexerMode.Runs : IndexerMode → Label → Prop
  | .backfill, .live _ | .live, .backfill _ => False
  | _, _ => True

instance : (mode : IndexerMode) → (l : Label) → Decidable (mode.Runs l)
  | .backfill, .live _ | .live, .backfill _ => .isFalse id
  | .backfill, .backfill _ | .backfill, .crash | .live, .live _ | .live, .crash => .isTrue trivial
  | .hybrid, .live _ | .hybrid, .backfill _ | .hybrid, .crash => .isTrue trivial

/-- The process with the configuration it was started with. -/
structure Operated where
  config : Config
  sys : Sys

def Operated.db (o : Operated) : Db := o.sys.db

inductive Operation where
  | event (l : Label)
  | start (env : Env)

/-- A start that `main` refuses is none. -/
def operate (addressFromStr : String → Except String Address) (o : Operated) :
    Operation → Option Operated
  | .event l =>
    if o.config.mode.Runs l then
      (step o.config.engine o.config.start o.sys l).map fun s => { o with sys := s }
    else none
  | .start env =>
    match config addressFromStr env with
    | .ok c => some ⟨c, o.sys.restart⟩
    | .error _ => none

/-- The first start is on a migrated database. -/
def operated (addressFromStr : String → Except String Address) : LTS Operated Operation :=
  .ofFn (fun o => o.sys = .init ∧ ∃ env, config addressFromStr env = .ok o.config)
    (operate addressFromStr)

def OperationFits : Operation → Prop
  | .event l => HeadFits l
  | .start _ => True

/-- The runs in which every head answered is below 2^63. -/
def operatedFits (addressFromStr : String → Except String Address) : LTS Operated Operation :=
  (operated addressFromStr).restrict fun _ l => OperationFits l

theorem operate_cases {addressFromStr : String → Except String Address} {o o' : Operated}
    {l : Operation} (h : operate addressFromStr o l = some o') :
    (∃ l', l = .event l' ∧ step o.config.engine o.config.start o.sys l' = some o'.sys ∧
      o'.config = o.config) ∨ o'.sys = o.sys.restart := by
  cases l with
  | event l =>
    simp only [operate] at h
    split at h
    · obtain ⟨s, hs, rfl⟩ := Option.map_eq_some_iff.mp h
      exact .inl ⟨l, rfl, hs, rfl⟩
    · cases h
  | start env =>
    simp only [operate] at h
    split at h
    · cases h; exact .inr rfl
    · cases h

/-! ## What every configuration keeps -/

/-- Every block of the cold lane is at most the finalized checkpoint. -/
def ColdBelow (db : Db) : Prop :=
  ∀ k ∈ db.cold.keys, 1 ≤ k.toInt ∧ k.toInt ≤ db.indexerCheckpoint.toInt

/-- Both lanes: bounded by their checkpoints, and every transfer with the hash
stored for its block. -/
structure Intact (db : Db) : Prop where
  nonneg : 0 ≤ db.indexerCheckpoint.toInt
  cold : ColdBelow db
  hashed : db.cold.Hashed
  hot : HotLane db

structure OperatedInv (o : Operated) : Prop where
  intact : Intact o.db
  backfill : ColdPc o.config.start o.db o.sys.backfill
  hot : HotLaneInv o.config.start o.sys

section
variable {engine : BackfillEngine} {start first last n : Nat} {db db' : Db}
  {pc pc' : BackfillPc} {e : Event} {s s' : Sys}

theorem ColdBelow.fresh (h : ColdBelow db) (hlt : last < 2 ^ 63)
    (hf : (first : Int) = max (db.indexerCheckpoint.toInt + 1) start) (hn : first ≤ n ∧ n ≤ last) :
    asI64 n ∉ db.cold.keys := by
  intro hk
  have := (h _ hk).2
  rw [toInt_asI64 (by omega)] at this
  omega

theorem coldBelow_commit (p : RangePayload first last) (h : ColdBelow db)
    (h0 : 0 ≤ db.indexerCheckpoint.toInt) (hle : first ≤ last) (hlt : last < 2 ^ 63)
    (hf : (first : Int) = max (db.indexerCheckpoint.toInt + 1) start) :
    ColdBelow (commitFinalizedRange db p.transferRecords p.indexedBlocks first last).1 := by
  intro k hk
  have hc : (commitFinalizedRange db p.transferRecords p.indexedBlocks
      first last).1.indexerCheckpoint.toInt = last := toInt_asI64 hlt
  rw [hc]
  rcases (p.mem_keys hlt).mp hk with hk | hk
  · have := h k hk
    omega
  · omega

theorem coldBelow_rollback (h : ColdBelow db) (hn : n < 2 ^ 63) :
    ColdBelow (rollbackFromBlock db n) := by
  intro k hk
  obtain ⟨hk, hlt⟩ := (Lane.mem_deleteRangeFrom hn).mp hk
  have hc : (rollbackFromBlock db n).indexerCheckpoint.toInt = (n - 1 : Nat) :=
    toInt_asI64 (by omega)
  have := h k hk
  rw [hc]
  omega

/-- What the worker knows about the cold lane, after one of its own steps. -/
theorem coldPc_backfill (h0 : 0 ≤ db.indexerCheckpoint.toInt) (hb : ColdBelow db)
    (hpc : ColdPc start db pc) (hE : HeadFits (.backfill e))
    (hm : BackfillMove engine start db pc e pc' db') : ColdPc start db' pc' := by
  have hlt := db.indexerCheckpoint.toInt_lt
  cases hm with
  | resume | rollback | caughtUp | commit | wake => trivial
  | head _ => exact hE _ rfl
  | revalidate hle =>
    exact ⟨hpc, getCheckpoint_eq h0, engine.le_validationStart _ _, engine.validationStart_le hle⟩
  | skip _ | fetched => exact hpc
  | next _ hlt' => exact ⟨hpc.1, hpc.2.1, Nat.le_succ_of_le hpc.2.2.1, hlt'⟩
  | clean _ _ => exact hpc.1
  | mismatch _ => exact ⟨hpc.2.2.1, hpc.2.1 ▸ Int.ofNat_le.mpr hpc.2.2.2⟩
  | planned hle _ hlast =>
    have hn : (nextFinalizedBlock start db : Int) = _ := nextFinalizedBlock_eq h0
    simp only [BackfillEngine.safeHead, BLOCK_BATCH_SIZE, ColdPc] at hle hlast hpc
    exact ⟨by omega, by omega, hn⟩
  | range _ => exact hpc
  | reorg hr =>
    -- the comparison finds nothing to compare with
    cases hr with
    | @reorg p _ _ _ _ hi hstored _ =>
      have hnone := Lane.getBlockHash_eq_none.mpr (hb.fresh hpc.2.1 hpc.2.2 (p.block_mem hi))
      rw [getBlockHash, hnone] at hstored
      cases hstored

theorem intact_backfill (I : Intact db) (hpc : ColdPc start db pc)
    (hm : BackfillMove engine start db pc e pc' db') : Intact db' := by
  obtain ⟨h0, hb, hh, hl⟩ := I
  have hlt := db.indexerCheckpoint.toInt_lt
  cases hm with
  | rollback =>
    have hn := hpc.2
    exact ⟨asI64_nonneg (by omega), coldBelow_rollback hb (by omega), Lane.hashed_deleteNumbers _ hh,
      hotLane_rollback _ _ _ hl⟩
  | @commit _ _ _ p _ =>
    obtain ⟨hle, hlt, hf⟩ := hpc
    refine ⟨asI64_nonneg hlt, coldBelow_commit p hb h0 hle hlt hf, ?_, hotLane_delete _ _ _ hl⟩
    refine Lane.hashed_insertRange hh p.joined p.numbers_nodup (fun n hn => ?_) fun n hn => ?_
    · have := p.mem_numbers.mp hn
      omega
    · exact hb.fresh hlt hf (p.mem_numbers.mp hn)
  | _ => exact ⟨h0, hb, hh, hl⟩

/-- A step of the system under the configuration of the moment. -/
theorem operatedInv_step {o : Operated} (I : OperatedInv o) {l : Label} {s : Sys}
    (hE : HeadFits l) (h : step o.config.engine o.config.start o.sys l = some s) :
    OperatedInv { o with sys := s } := by
  obtain ⟨hi, hpc, hl⟩ := I
  have hl' := hotLaneInv_step hl (liveHeadFits_of_headFits hE) h
  rcases step_cases h with ⟨e, pc, db, rfl, hm, rfl⟩ | ⟨e, pc, db, rfl, hm, rfl⟩ | rfl
  · exact ⟨intact_backfill hi hpc hm, coldPc_backfill hi.nonneg hi.cold hpc hE hm, hl'⟩
  · obtain ⟨hc, hck⟩ := hm.frame
    refine ⟨⟨?_, ?_, ?_, hl'.lane⟩, ?_, hl'⟩
    · exact (congrArg (fun k => 0 ≤ Int64.toInt k) hck).mpr hi.nonneg
    · simpa only [ColdBelow, Operated.db, hc, hck] using hi.cold
    · exact (congrArg Lane.Hashed hc).mpr hi.hashed
    · revert hpc
      simp only [Operated.db]
      cases o.sys.backfill <;> simp only [ColdPc, hck] <;> exact id
  · exact ⟨hi, trivial, hl'⟩

end

section
variable {addressFromStr : String → Except String Address} {o o' : Operated} {l : Operation}

theorem intact_migrated : Intact .migrated where
  nonneg := by decide
  cold := by
    intro k hk
    cases hk
  hashed := Lane.hashed_empty
  hot := ⟨fun _ hk => (by cases hk), Lane.hashed_empty⟩

theorem operatedInv_operate (I : OperatedInv o) (hE : OperationFits l)
    (h : operate addressFromStr o l = some o') : OperatedInv o' := by
  rcases operate_cases h with ⟨l', rfl, hs, hc⟩ | hs
  · obtain ⟨c, s⟩ := o'
    cases hc
    exact operatedInv_step I hE hs
  · obtain ⟨c, s⟩ := o'
    cases hs
    exact ⟨I.intact, trivial, ⟨I.hot.lane, trivial, trivial⟩⟩

theorem operatedInv_inductive :
    (operatedFits addressFromStr).Inductive OperatedInv where
  init := by
    intro o ho
    obtain ⟨c, s⟩ := o
    obtain ⟨rfl, -⟩ := ho
    exact ⟨intact_migrated, trivial, hotLaneInv_init _⟩
  step := fun _ _ _ I hs => operatedInv_operate I hs.1 hs.2

/-- A step leaves what the cold lane holds of a block that the checkpoint is not
below, before and after. -/
theorem coldEntry_operate (I : OperatedInv o) (h : operate addressFromStr o l = some o') {c n : Nat}
    (hc : c ≤ getCheckpoint o.db) (hc' : c ≤ getCheckpoint o'.db) (h1 : 1 ≤ n) (hn : n ≤ c) :
    coldEntry o'.db n = coldEntry o.db n := by
  obtain ⟨⟨h0, -, -, -⟩, hpc, -⟩ := I
  have hck := getCheckpoint_eq h0
  have hlt := o.db.indexerCheckpoint.toInt_lt
  rcases operate_cases h with ⟨l', rfl, hs, -⟩ | hs
  · obtain ⟨c', s⟩ := o'
    rcases step_cases hs with ⟨e, pc, db, rfl, hm, rfl⟩ | ⟨e, pc, db, rfl, hm, rfl⟩ | rfl
    · simp only [Operated.db] at hpc hc hc' hck hlt ⊢
      generalize o.sys.backfill = pc₀ at hm hpc
      cases hm with
      | @rollback m =>
        have hm := hpc.2
        have hck' : getCheckpoint (rollbackFromBlock o.sys.db m) = m - 1 := asU64_asI64 (by omega)
        exact coldEntry_rollback (by omega) (by omega)
      | @commit first last _ p =>
        have hf := hpc.2.2
        have hl := hpc.2.1
        exact coldEntry_commit p (by omega) (by omega) (by omega)
      | _ => rfl
    · simp only [Operated.db, coldEntry, getBlockHash, hm.frame.1]
    · rfl
  · simp only [Operated.db, hs, Sys.restart]

/-- **Any configuration.** In every state that runs with heads below 2^63 lead to,
whatever the environment of each start, both lanes are intact; and from there a
block that the finalized checkpoint never falls below keeps what the cold lane
holds of it, its hash and its transfers, or nothing. -/
theorem operated_safe (addressFromStr : String → Except String Address) (o : Operated)
    (h : (operatedFits addressFromStr).Reachable o) :
    Intact o.db ∧
    ∀ ls o' c, ((operatedFits addressFromStr).restrict fun o _ => c ≤ getCheckpoint o.db).Run o ls o' →
      c ≤ getCheckpoint o'.db → ∀ n, 1 ≤ n → n ≤ c → coldEntry o'.db n = coldEntry o.db n := by
  have I := operatedInv_inductive.reachable o h
  refine ⟨I.intact, fun ls o' c hr hc n h1 hn => ?_⟩
  clear h
  induction hr with
  | nil => rfl
  | @cons a b d l ls hs hrun ih =>
    have hb : c ≤ getCheckpoint b.db := by
      cases hrun with
      | nil => exact hc
      | cons hs' _ => exact hs'.1
    exact (ih (operatedInv_operate I hs.2.1 hs.2.2) hc).trans
      (coldEntry_operate I hs.2.2 hs.1 hb h1 hn)

end

/-! ## Runs -/

/-- Backfill mode from the block `start`, with no confirmations. -/
def startAt (start : String) : Env := fun name =>
  if name = "START_BLOCK" then some start
  else if name = "CONFIRMATION_DEPTH" then some "0"
  else if name = "INDEXER_MODE" then some " Backfill\n"
  else if name = "SEPOLIA_RPC_URL" then some "http://localhost:8545"
  else if name = "DATABASE_URL" then some "postgres://localhost/indexer"
  else none

/-- No contract address is read. -/
def noAddress (_ : String) : Except String Address := .error "invalid string length"

/-- A process that indexes `first..=last` in backfill mode. -/
def indexing (first last : Nat) : List Label :=
  [.backfill .sql, .backfill (.blockNumber last), .backfill .sql, .backfill .sql] ++
    rangeLabels .backfill (.fork last 9 0) none first last

/-- Blocks 1 and 2 are indexed, and after a start at block 5 also block 5. -/
def movedStart : List Operation :=
  (indexing 1 2).map .event ++ .start (startAt "5") :: (indexing 5 5).map .event

def operateFits (o : Operated) : Operation → Option Operated
  | .event l => if HeadFits l then operate noAddress o (.event l) else none
  | .start env => operate noAddress o (.start env)

theorem operateFits_step (o : Operated) (l : Operation) (o' : Operated)
    (h : operateFits o l = some o') : (operatedFits noAddress).step o l o' := by
  cases l with
  | event l =>
    simp only [operateFits] at h
    split at h
    · rename_i hE; exact ⟨hE, h⟩
    · cases h
  | start env => exact ⟨trivial, h⟩

/-- After the second start the cold lane is two intervals. -/
theorem operated_safe_movedStart : ∃ o, (operatedFits noAddress).Reachable o ∧
    o.db.cold.keys = [1, 2, 5] ∧ Intact o.db := by
  have hx : ((config noAddress (startAt "1")).toOption.bind fun c =>
      (LTS.exec operateFits ⟨c, .init⟩ movedStart).map fun o => o.db.cold.keys) =
        some [1, 2, 5] := by decide +kernel
  obtain ⟨c, hc, hx⟩ := Option.bind_eq_some_iff.mp hx
  have hinit : (operatedFits noAddress).init ⟨c, .init⟩ := by
    refine ⟨rfl, startAt "1", ?_⟩
    cases h : config noAddress (startAt "1") with
    | error e =>
      rw [h] at hc
      cases hc
    | ok c' =>
      rw [h] at hc
      exact congrArg Except.ok (Option.some.inj hc)
  obtain ⟨o, hr, hk⟩ := LTS.reachable_of_exec operateFits_step hinit hx
  exact ⟨o, hr, hk, (operated_safe noAddress o hr).1⟩

end EthIndexer.L7
