import Mathlib.Data.List.Basic

/-!
# Logs and the ERC-20 `Transfer` decoder

`Log` has the fields of an RPC log the indexer reads; what the RPC may leave
out is an `Option`. Hashes and addresses are byte strings of fixed length, the
length being part of the type (alloy's `B256` and `Address`).

`decodeErc20Transfer` accepts a log with three topics, 32 bytes of data and the
`Transfer` signature, and reads sender, receiver and value off it.
-/
namespace EthIndexer.L1

abbrev Bytes := List UInt8

/-- alloy's `FixedBytes<n>`. -/
abbrev FixedBytes (n : Nat) := { b : Bytes // b.length = n }

abbrev B256 := FixedBytes 32

abbrev Address := FixedBytes 20

/-- A 32-byte word with one significant byte. -/
def B256.ofByte (b : UInt8) : B256 := ⟨List.replicate 31 0 ++ [b], by simp⟩

structure Log where
  address : Address
  topics : List B256
  data : Bytes
  blockNumber : Option Nat
  blockHash : Option B256
  transactionHash : Option B256
  logIndex : Option Nat
  deriving DecidableEq

/-- mirrors crates/decoder/src/lib.rs:15-18 and crates/rpc/src/lib.rs:11-14 -/
def ERC20_TRANSFER_EVENT_SIGNATURE : B256 :=
  ⟨[0xdd, 0xf2, 0x52, 0xad, 0x1b, 0xe2, 0xc8, 0x9b, 0x69, 0xc2, 0xb0, 0x68, 0xfc, 0x37, 0x8d, 0xaa,
    0x95, 0x2b, 0xa7, 0xf1, 0x63, 0xc4, 0xa1, 0x16, 0x28, 0xf5, 0x5a, 0x4d, 0xf5, 0x23, 0xb3, 0xef],
    rfl⟩

/-- The fields `from`, `to` and `value`.
mirrors crates/decoder/src/lib.rs:5-10 -/
structure Erc20TransferEvent where
  fromAddress : Address
  toAddress : Address
  value : Nat
  deriving DecidableEq

/-- `Address::from_slice(&topic.0[12..])`. -/
def addressOfTopic (t : B256) : Address := ⟨t.val.drop 12, by simp [t.2]⟩

/-- `U256::from_be_slice`. -/
def fromBeSlice (b : Bytes) : Nat := b.foldl (fun acc x => acc * 256 + x.toNat) 0

/-- mirrors crates/decoder/src/lib.rs:20-40 -/
def decodeErc20Transfer (log : Log) : Option Erc20TransferEvent :=
  match log.topics with
  | [signature, sender, receiver] =>
    if log.data.length ≠ 32 then none
    else if signature ≠ ERC20_TRANSFER_EVENT_SIGNATURE then none
    else some ⟨addressOfTopic sender, addressOfTopic receiver, fromBeSlice log.data⟩
  | _ => none

end EthIndexer.L1
