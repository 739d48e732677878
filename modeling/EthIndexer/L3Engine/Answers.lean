import Mathlib.Algebra.Order.BigOperators.Group.List
import Mathlib.Algebra.Order.Ring.Nat
import EthIndexer.L3Engine.System

/-!
# Answers of one chain

`OnChain C filter`: the label is an answer of the chain `C`; the heads it may
report are not restricted, since the chain grows. `AnsweredBy` fixes the head
and the blocks there are as well.

`Chain.records` and `Chain.blockRows` are what the blocks of a range hold,
read off the chain in one pass. `RangeOn` says that a range in progress agrees
with them, and `rangeOn_step` that it does so to its commit, whatever the order
of the metadata answers.
-/
namespace EthIndexer.L3
open EthIndexer.L1 EthIndexer.L2

/-- The event is an answer of `C`; `eth_getLogs` may order its logs freely. -/
def Event.OnChain (C : Chain) (filter : Option Bytes) : Event → Prop
  | .block n hash timestamp => hash = C.hash n ∧ timestamp = C.timestamp n
  | .logs first last ls => ls.Perm (C.getLogs filter first last)
  | .blockNumber _ | .sql | .timer => True

def OnChain (C : Chain) (filter : Option Bytes) : Label → Prop
  | .backfill e | .live e => e.OnChain C filter
  | .crash => True

instance (C : Chain) (filter : Option Bytes) : (e : Event) → Decidable (e.OnChain C filter)
  | .block n hash timestamp =>
    inferInstanceAs (Decidable (hash = C.hash n ∧ timestamp = C.timestamp n))
  | .logs first last ls => inferInstanceAs (Decidable (ls.Perm (C.getLogs filter first last)))
  | .blockNumber _ | .sql | .timer => .isTrue trivial

instance (C : Chain) (filter : Option Bytes) : (l : Label) → Decidable (OnChain C filter l)
  | .backfill e | .live e => inferInstanceAs (Decidable (e.OnChain C filter))
  | .crash => .isTrue trivial

/-- The head is the height of `C`, and the block is not above it. -/
def Event.AtHeight (C : Chain) : Event → Prop
  | .blockNumber latest => latest = C.height
  | .block n _ _ => n ≤ C.height
  | .logs _ _ _ | .sql | .timer => True

def AtHeight (C : Chain) : Label → Prop
  | .backfill e | .live e => e.AtHeight C
  | .crash => True

instance (C : Chain) : (e : Event) → Decidable (e.AtHeight C)
  | .blockNumber latest => inferInstanceAs (Decidable (latest = C.height))
  | .block n _ _ => inferInstanceAs (Decidable (n ≤ C.height))
  | .logs _ _ _ | .sql | .timer => .isTrue trivial

instance (C : Chain) : (l : Label) → Decidable (AtHeight C l)
  | .backfill e | .live e => inferInstanceAs (Decidable (e.AtHeight C))
  | .crash => .isTrue trivial

/-- The label is an answer of `C` as it stands. -/
def AnsweredBy (C : Chain) (filter : Option Bytes) (l : Label) : Prop :=
  OnChain C filter l ∧ AtHeight C l

instance (C : Chain) (filter : Option Bytes) (l : Label) : Decidable (AnsweredBy C filter l) :=
  inferInstanceAs (Decidable (_ ∧ _))

theorem AnsweredBy.headFits {C : Chain} {filter : Option Bytes} {l : Label}
    (h : AnsweredBy C filter l) (hC : C.height < 2 ^ 63) : HeadFits l := by
  intro n hn
  cases l with
  | crash => cases hn
  | backfill e | live e =>
    cases e with
    | blockNumber latest =>
      have hl : latest = C.height := h.2
      cases hn
      omega
    | _ => cases hn

/-! ## What a range of the chain holds -/

namespace Chain
variable (C : Chain) (filter : Option Bytes)

/-- The record of a log of the chain, if the decoder accepts it. -/
def record (log : Log) : Option Erc20TransferRecord := do
  let event ← decodeErc20Transfer log
  let n ← log.blockNumber
  let txnHash ← log.transactionHash
  let logIndex ← log.logIndex
  pure (recordOf log event txnHash logIndex n (C.metadata n))

/-- The records of the blocks `first..=last`. -/
def records (first last : Nat) : List Erc20TransferRecord :=
  (C.getLogs filter first last).filterMap (record C)

/-- Number and hash of the blocks `first..=last`. -/
def blocks (first last : Nat) : List (Nat × Bytes) :=
  (rangeIncl first last).map fun n => (n, (C.hash n).val)

/-- The rows of `indexed_blocks` for `first..=last`. -/
def blockRows (first last : Nat) : List IndexedBlock := (blocks C first last).map Lane.blockRow

variable {C filter}

theorem record_eq_some {log : Log} {r : Erc20TransferRecord} :
    record C log = some r ↔ ∃ event n txnHash logIndex,
      decodeErc20Transfer log = some event ∧ log.blockNumber = some n ∧
      log.transactionHash = some txnHash ∧ log.logIndex = some logIndex ∧
      r = recordOf log event txnHash logIndex n (C.metadata n) := by
  simp only [record, bind, Option.bind_eq_some_iff, pure, Option.some.injEq]
  refine ⟨?_, ?_⟩
  · intro ⟨event, h1, n, h2, txnHash, h3, logIndex, h4, h5⟩
    exact ⟨event, n, txnHash, logIndex, h1, h2, h3, h4, h5.symm⟩
  · intro ⟨event, n, txnHash, logIndex, h1, h2, h3, h4, h5⟩
    exact ⟨event, h1, n, h2, txnHash, h3, logIndex, h4, h5.symm⟩

/-- The records of a range are those of its blocks. -/
theorem mem_records {r : Erc20TransferRecord} {a b : Nat} : r ∈ records C filter a b ↔
    ∃ n, (a ≤ n ∧ n ≤ b) ∧ r.blockNumber = asI64 n ∧ r ∈ records C filter n n := by
  constructor
  · intro h
    obtain ⟨log, hl, hr⟩ := List.mem_filterMap.mp h
    obtain ⟨n, hn, hm⟩ := Chain.mem_getLogs.mp hl
    have hone : r ∈ records C filter n n := List.mem_filterMap.mpr
      ⟨log, Chain.mem_getLogs.mpr ⟨n, ⟨Nat.le_refl n, Nat.le_refl n⟩, hm⟩, hr⟩
    obtain ⟨event, m, txnHash, logIndex, -, hb, -, -, rfl⟩ := record_eq_some.mp hr
    rw [(C.logs_mined n log (Chain.mem_transferLogs hm)).1] at hb
    cases hb
    exact ⟨n, hn, rfl, hone⟩
  · intro ⟨n, hn, _, h⟩
    obtain ⟨log, hl, hr⟩ := List.mem_filterMap.mp h
    obtain ⟨m, hm, hlog⟩ := Chain.mem_getLogs.mp hl
    exact List.mem_filterMap.mpr ⟨log, Chain.mem_getLogs.mpr ⟨m, by omega, hlog⟩, hr⟩

theorem records_append {a b c : Nat} (hab : a ≤ b + 1) (hbc : b ≤ c) :
    records C filter a b ++ records C filter (b + 1) c = records C filter a c := by
  simp only [records, Chain.getLogs]
  rw [← List.filterMap_append, ← List.flatMap_append, rangeIncl_append hab hbc]

theorem records_nil {a b : Nat} (h : b < a) : records C filter a b = [] := by
  simp [records, Chain.getLogs, rangeIncl_eq_nil h]

theorem blockRows_append {a b c : Nat} (hab : a ≤ b + 1) (hbc : b ≤ c) :
    blockRows C a b ++ blockRows C (b + 1) c = blockRows C a c := by
  simp only [blockRows, blocks]
  rw [← List.map_append, ← List.map_append, rangeIncl_append hab hbc]

theorem blockRows_nil {a b : Nat} (h : b < a) : blockRows C a b = [] := by
  simp [blockRows, blocks, rangeIncl_eq_nil h]

theorem blockRows_keys (a b : Nat) :
    (blockRows C a b).map IndexedBlock.blockNumber = (rangeIncl a b).map asI64 := by
  simp only [blockRows, blocks, List.map_map]
  rfl

theorem mem_blocks {first last n : Nat} {h : Bytes} :
    (n, h) ∈ blocks C first last ↔ (first ≤ n ∧ n ≤ last) ∧ h = (C.hash n).val := by
  simp only [blocks, List.mem_map, mem_rangeIncl, Prod.mk.injEq]
  refine ⟨?_, fun ⟨hn, he⟩ => ⟨n, hn, rfl, he.symm⟩⟩
  intro ⟨m, hm, he, hh⟩
  subst he
  exact ⟨hm, hh.symm⟩

theorem mem_blockRows {a b : Nat} {r : IndexedBlock} :
    r ∈ blockRows C a b ↔ ∃ n, (a ≤ n ∧ n ≤ b) ∧ r = ⟨asI64 n, (C.hash n).val⟩ := by
  simp only [blockRows, blocks, List.map_map, List.mem_map, mem_rangeIncl, Function.comp]
  refine ⟨?_, ?_⟩
  · intro ⟨n, hn, he⟩; exact ⟨n, hn, he.symm⟩
  · intro ⟨n, hn, he⟩; exact ⟨n, hn, he.symm⟩

end Chain

/-! ## A range off one chain -/

/-- The progress of the range agrees with the chain. -/
def RangeOn (C : Chain) (filter : Option Bytes) {first last : Nat} : RangePc first last → Prop
  | .blocks got => ∀ m ∈ got, m = C.metadata m.number
  | .logs metas => metas.val = (rangeIncl first last).map C.metadata
  | .check p _ | .commit p =>
    p.transferRecords.Perm (Chain.records C filter first last) ∧
      p.indexedBlocks = Chain.blocks C first last

section
variable {C : Chain} {filter : Option Bytes} {first last : Nat}

theorem eq_map_metadata {ms : List BlockMetadata} {ns : List Nat}
    (hn : ms.map BlockMetadata.number = ns) (h : ∀ m ∈ ms, m = C.metadata m.number) :
    ms = ns.map C.metadata := by
  subst hn
  rw [List.map_map]
  exact (List.map_id ms).symm.trans (List.map_congr_left h)

theorem rangeOn_enterBlocks {got : List BlockMetadata} (h : ∀ m ∈ got, m = C.metadata m.number) :
    RangeOn C filter (enterBlocks first last got) := by
  unfold enterBlocks collect
  split
  · rename_i metas hm
    split at hm
    · rename_i hnum
      cases hm
      refine eq_map_metadata hnum fun m hm => ?_
      obtain ⟨n, -, hn⟩ := List.mem_filterMap.mp hm
      exact h m (lookupBlock_eq_some hn).1
    · cases hm
  · exact h

theorem rangeOn_enterCheck {p : RangePayload first last} {i : Nat}
    (h : RangeOn C filter (.commit p)) : RangeOn C filter (enterCheck p i) := by
  unfold enterCheck
  split <;> exact h

theorem lookupBlock_metadata {n : Nat} (h : first ≤ n ∧ n ≤ last) :
    lookupBlock ((rangeIncl first last).map C.metadata) n = some (C.metadata n) := by
  cases hl : lookupBlock ((rangeIncl first last).map C.metadata) n with
  | none =>
    have hnone := List.find?_eq_none.mp hl (C.metadata n)
      (List.mem_map_of_mem (mem_rangeIncl.mpr h))
    simp [Chain.metadata] at hnone
  | some m =>
    obtain ⟨hm, hn⟩ := lookupBlock_eq_some hl
    obtain ⟨k, -, hk⟩ := List.mem_map.mp hm
    subst hk
    simp only [Chain.metadata] at hn
    rw [hn]

/-- On the chain's metadata the loop makes of a log of the range its record. -/
theorem recordAt_metadata {log : Log} (h : log ∈ C.getLogs filter first last) :
    recordAt ((rangeIncl first last).map C.metadata) log = Chain.record C log := by
  obtain ⟨n, hn, hl⟩ := Chain.mem_getLogs.mp h
  have hb := (C.logs_mined n log (Chain.mem_transferLogs hl)).1
  simp only [recordAt, Chain.record, hb, lookupBlock_metadata hn, bind, Option.bind_some]

/-- **A payload off one chain** holds the records and the hashes of its range. -/
theorem rangeOn_payload {metas : Fetched first last} {ls : List Log} {p : RangePayload first last}
    (hm : metas.val = (rangeIncl first last).map C.metadata)
    (hls : ls.Perm (C.getLogs filter first last)) (h : buildRangePayload metas ls = .ok p) :
    RangeOn C filter (.commit p) := by
  obtain ⟨-, hr, hb⟩ := buildRangePayload_ok h
  refine ⟨?_, ?_⟩
  · rw [hr, hm]
    refine (hls.filterMap _).trans (List.Perm.of_eq ?_)
    exact List.filterMap_congr fun log hl => recordAt_metadata hl
  · rw [hb, hm]
    simp only [indexedBlocksOf, Chain.blocks, List.map_map]
    rfl

theorem rangeOn_step {hashOf : Nat → Option Bytes} {pc pc' : RangePc first last} {e : Event}
    (h : RangeOn C filter pc) (he : e.OnChain C filter)
    (hs : RangeStep hashOf first last pc e (.goto pc')) : RangeOn C filter pc' := by
  cases hs with
  | @block got n hash timestamp _ =>
    obtain ⟨hh, ht⟩ := he
    refine rangeOn_enterBlocks fun m hm => ?_
    rcases List.mem_append.mp hm with hm | hm
    · exact h m hm
    · rw [List.mem_singleton.mp hm, hh, ht]
      rfl
  | logs hp => exact rangeOn_enterCheck (rangeOn_payload h he hp)
  | agree _ _ => exact rangeOn_enterCheck h

/-! ## Chains whose batches can be committed -/

/-- Block numbers fit an `i64`, the last partition has no transfers, and ten blocks
in a row never have more than one `INSERT` carries. -/
structure BatchesFit (C : Chain) (filter : Option Bytes) : Prop where
  height : C.height < 2 ^ 63
  partitioned : ∀ n, n ≤ C.height → lastPartition ≤ (n : Int) → Chain.records C filter n n = []
  binds : ∀ first last, last < first + BLOCK_BATCH_SIZE → last ≤ C.height →
    9 * (Chain.records C filter first last).length ≤ MAX_BIND_PARAMETERS

/-- A batch off such a chain is committed. -/
theorem BatchesFit.committable (h : BatchesFit C filter) {p : RangePayload first last}
    (hp : RangeOn C filter (.commit p)) (hl : last ≤ C.height)
    (hsize : last < first + BLOCK_BATCH_SIZE) : p.Committable where
  transferBinds := by rw [hp.1.length_eq]; exact h.binds first last hsize hl
  blockBinds := by
    rw [p.length_indexedBlocks]
    simp only [BLOCK_BATCH_SIZE] at hsize
    simp only [MAX_BIND_PARAMETERS]
    omega
  partitioned r hr := by
    obtain ⟨n, hn, he, hrec⟩ := Chain.mem_records.mp (hp.1.mem_iff.mp hr)
    have hlt : n < 2 ^ 63 := by have := h.height; omega
    rw [he, toInt_asI64 hlt]
    refine ⟨Int.natCast_nonneg n, Int.not_le.mp fun hlast => ?_⟩
    rw [h.partitioned n (hn.2.trans hl) hlast] at hrec
    cases hrec

/-- It is enough that the chain is below the last partition and no block has more
than 728 logs. -/
theorem batchesFit_of_logs (hheight : (C.height : Int) < lastPartition)
    (hlogs : ∀ n, (C.logs n).length ≤ 728) : BatchesFit C filter where
  height := by simp only [lastPartition] at hheight; omega
  partitioned n hn hlast := by omega
  binds first last hsize _ := by
    have hblocks : (rangeIncl first last).length ≤ 10 := by
      rw [rangeIncl, List.length_range']
      simp only [BLOCK_BATCH_SIZE] at hsize
      omega
    have hblock : ∀ k ∈ (rangeIncl first last).map fun n => (C.transferLogs filter n).length,
        k ≤ 728 := by
      intro k hk
      obtain ⟨n, -, rfl⟩ := List.mem_map.mp hk
      exact (List.length_filter_le _ _).trans (hlogs n)
    have hsum := List.sum_le_card_nsmul _ 728 hblock
    rw [List.length_map, ← List.length_flatMap, Nat.nsmul_eq_mul] at hsum
    have hrecords : (Chain.records C filter first last).length ≤
        (Chain.getLogs C filter first last).length := List.length_filterMap_le _ _
    simp only [Chain.getLogs] at hrecords
    simp only [MAX_BIND_PARAMETERS]
    omega

theorem batchesFit_fork {height f : Nat} {branch : UInt8} (h : (height : Int) < lastPartition) :
    BatchesFit (.fork height f branch) filter :=
  batchesFit_of_logs h fun _ => Nat.zero_le _

end
end EthIndexer.L3
