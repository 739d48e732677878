import EthIndexer.Core.Cast
import EthIndexer.L1Chain.Decoder

/-!
# The chain behind the RPC

`Chain` is what one canonical chain answers: its height (`eth_blockNumber`),
the hash and timestamp of each block (`eth_getBlockByNumber`) and the logs of
each block (`eth_getLogs`). A log of a mined block names its block, its
transaction and its index; this is a field of the chain (`logs_mined`).

`getLogs` is the answer to the filter `fetch_erc20_transfer_logs` builds: the
`Transfer` signature as first topic, and the configured contract if any.
-/
namespace EthIndexer.L1

/-- mirrors crates/rpc/src/lib.rs:16-21 -/
structure BlockMetadata where
  number : Nat
  hash : Bytes
  timestamp : Nat
  deriving DecidableEq

structure Chain where
  height : Nat
  hash : Nat → B256
  timestamp : Nat → Nat
  logs : Nat → List Log
  logs_mined : ∀ n, ∀ l ∈ logs n, l.blockNumber = some n ∧ l.blockHash = some (hash n) ∧
    l.transactionHash.isSome ∧ l.logIndex.isSome

namespace Chain

/-- What `get_block_metadata` returns for a block of the chain. -/
def metadata (C : Chain) (n : Nat) : BlockMetadata := ⟨n, (C.hash n).val, C.timestamp n⟩

/-- mirrors crates/rpc/src/lib.rs:53-60 -/
def matchesFilter (contractAddress : Option Bytes) (log : Log) : Bool :=
  decide (log.topics.head? = some ERC20_TRANSFER_EVENT_SIGNATURE) &&
    match contractAddress with
    | none => true
    | some a => decide (log.address.val = a)

/-- The logs of block `n` that pass the filter. -/
def transferLogs (C : Chain) (contractAddress : Option Bytes) (n : Nat) : List Log :=
  (C.logs n).filter (matchesFilter contractAddress)

/-- The answer to `eth_getLogs` for the range `first..=last`. -/
def getLogs (C : Chain) (contractAddress : Option Bytes) (first last : Nat) : List Log :=
  (rangeIncl first last).flatMap (C.transferLogs contractAddress)

theorem mem_transferLogs {C : Chain} {f : Option Bytes} {n : Nat} {l : Log}
    (h : l ∈ C.transferLogs f n) : l ∈ C.logs n :=
  (List.mem_filter.mp h).1

theorem mem_getLogs {C : Chain} {f : Option Bytes} {a b : Nat} {l : Log} :
    l ∈ C.getLogs f a b ↔ ∃ n, (a ≤ n ∧ n ≤ b) ∧ l ∈ C.transferLogs f n := by
  simp only [getLogs, List.mem_flatMap, mem_rangeIncl]

/-- A chain without logs: block hash 0 below `f`, `branch` from `f` on. Two of
them agree exactly below the smaller `f`. -/
def fork (height f : Nat) (branch : UInt8) : Chain where
  height := height
  hash n := B256.ofByte (if n < f then 0 else branch)
  timestamp _ := 0
  logs _ := []
  logs_mined := by simp

end Chain

/-- `Transfer(0, 0, 5)`, the only log of block 1. -/
def transferLog : Log where
  address := ⟨List.replicate 20 7, rfl⟩
  topics := [ERC20_TRANSFER_EVENT_SIGNATURE, .ofByte 0, .ofByte 0]
  data := (B256.ofByte 5).val
  blockNumber := some 1
  blockHash := some (.ofByte 1)
  transactionHash := some (.ofByte 9)
  logIndex := some 0

/-- Three blocks, one transfer in block 1. -/
def oneTransfer : Chain where
  height := 3
  hash _ := .ofByte 1
  timestamp _ := 0
  logs n := if n = 1 then [transferLog] else []
  logs_mined := by
    intro n l hl
    split at hl
    · rename_i hn
      simp only [List.mem_singleton] at hl
      subst hn hl
      exact ⟨rfl, rfl, rfl, rfl⟩
    · cases hl

end EthIndexer.L1
