import EthIndexer.Core.Positional
import EthIndexer.L1Chain.Decoder

/-!
# The `Transfer` event's encoding

`Encodes log e`: the topics and the data of `log` are those a contract emits for
the event `e`, by the Solidity ABI: the signature and the two addresses padded to
32 bytes as topics, the value as one big-endian word.

* `decode_of_encodes`: the decoder inverts the encoding.
* `reencodes_of_decode`: what the decoder returns encodes to the log it was given,
  but for the padding of the two addresses (`Reencodes`).
* `decode_eq_none`: the logs it rejects.
-/
namespace EthIndexer.L1

/-! ## Encoding -/

/-- The word of a 256-bit value. -/
def wordOf (value : Nat) : B256 := ⟨(Positional.toBe 256 32 value).map UInt8.ofNat, by simp⟩

theorem wordOf_val (value : Nat) :
    (wordOf value).val = (Positional.toBe 256 32 value).map UInt8.ofNat := by
  rw [wordOf]

/-- The word of an address. -/
def topicOf (a : Address) : B256 := ⟨List.replicate 12 0 ++ a.val, by simp [a.2]⟩

def encodeTopics (e : Erc20TransferEvent) : List B256 :=
  [ERC20_TRANSFER_EVENT_SIGNATURE, topicOf e.fromAddress, topicOf e.toAddress]

def encodeData (e : Erc20TransferEvent) : Bytes := (wordOf e.value).val

def Encodes (log : Log) (e : Erc20TransferEvent) : Prop :=
  log.topics = encodeTopics e ∧ log.data = encodeData e

/-- The same topic but for the 12 bytes before an address. -/
def SameAddress (t t' : B256) : Prop := t.val.drop 12 = t'.val.drop 12

/-- `e` encodes to `log`, but for the high 12 bytes of the topics 1 and 2. -/
def Reencodes (log : Log) (e : Erc20TransferEvent) : Prop :=
  log.data = encodeData e ∧ ∃ sender receiver,
    log.topics = [ERC20_TRANSFER_EVENT_SIGNATURE, sender, receiver] ∧
    SameAddress sender (topicOf e.fromAddress) ∧ SameAddress receiver (topicOf e.toAddress)

/-! ## Words -/

/-- The big-endian integer of a byte string. -/
def beValue (b : Bytes) : Nat := Nat.ofDigits 256 (b.reverse.map UInt8.toNat)

theorem fromBeSlice_eq_ofBe (b : Bytes) :
    fromBeSlice b = Positional.ofBe 256 (b.map UInt8.toNat) := by
  rw [fromBeSlice, Positional.ofBe, List.foldl_map]

/-- `U256::from_be_slice` reads the big-endian integer. -/
theorem fromBeSlice_eq_beValue (b : Bytes) : fromBeSlice b = beValue b := by
  rw [fromBeSlice_eq_ofBe, Positional.ofBe_eq_ofDigits, beValue, List.map_reverse]

theorem bytes_toNat_lt (b : Bytes) : ∀ d ∈ b.map UInt8.toNat, d < 256 := by
  intro d hd
  obtain ⟨x, -, rfl⟩ := List.mem_map.mp hd
  exact x.toNat_lt

theorem fromBeSlice_lt (b : Bytes) : fromBeSlice b < 256 ^ b.length := by
  have h := Positional.ofBe_lt (b := 256) (by decide) (bytes_toNat_lt b)
  rwa [← fromBeSlice_eq_ofBe, List.length_map] at h

/-- Bytes and digits below 256 are the same. -/
theorem map_toNat_ofNat {ds : List Nat} (h : ∀ d ∈ ds, d < 256) :
    (ds.map UInt8.ofNat).map UInt8.toNat = ds := by
  rw [List.map_map]
  refine (List.map_congr_left fun d hd => ?_).trans (List.map_id ds)
  simpa using h d hd

theorem map_ofNat_toNat (b : Bytes) : (b.map UInt8.toNat).map UInt8.ofNat = b := by
  rw [List.map_map]
  refine (List.map_congr_left fun x _ => ?_).trans (List.map_id b)
  exact UInt8.ofNat_toNat

theorem fromBeSlice_wordOf {value : Nat} (h : value < 2 ^ 256) :
    fromBeSlice (wordOf value).val = value := by
  have hdigits : ∀ d ∈ Positional.toBe 256 32 value, d < 256 := Positional.toBe_lt (by decide) _ _
  have hpow : (256 : Nat) ^ 32 = 2 ^ 256 := by norm_num
  rw [fromBeSlice_eq_ofBe, wordOf_val, map_toNat_ofNat hdigits]
  exact Positional.ofBe_toBe (hpow ▸ h)

example : (wordOf 258).val = List.replicate 30 0 ++ [1, 2] := by decide

theorem wordOf_fromBeSlice {b : Bytes} (h : b.length = 32) :
    (wordOf (fromBeSlice b)).val = b := by
  have hr := Positional.toBe_ofBe (b := 256) (by decide) (bytes_toNat_lt b)
  rw [List.length_map, h, ← fromBeSlice_eq_ofBe] at hr
  rw [wordOf_val, hr, map_ofNat_toNat]

@[simp] theorem addressOfTopic_topicOf (a : Address) : addressOfTopic (topicOf a) = a := by
  refine Subtype.ext ?_
  simp [addressOfTopic, topicOf]

theorem sameAddress_topicOf (t : B256) : SameAddress t (topicOf (addressOfTopic t)) := by
  simp [SameAddress, addressOfTopic, topicOf]

/-! ## The decoder -/

/-- What the decoder accepts, and what it returns. -/
theorem decode_eq_some {log : Log} {e : Erc20TransferEvent} :
    decodeErc20Transfer log = some e ↔ log.data.length = 32 ∧ ∃ sender receiver,
      log.topics = [ERC20_TRANSFER_EVENT_SIGNATURE, sender, receiver] ∧
      e = ⟨addressOfTopic sender, addressOfTopic receiver, fromBeSlice log.data⟩ := by
  unfold decodeErc20Transfer
  split
  next signature sender receiver ht =>
    constructor
    · intro h
      split at h
      · cases h
      · split at h
        · cases h
        · next hd hs =>
          exact ⟨not_not.mp hd, sender, receiver, by rw [ht, not_not.mp hs],
            (Option.some.inj h).symm⟩
    · intro ⟨hd, s, r, htopics, he⟩
      rw [ht] at htopics
      cases htopics
      rw [if_neg (not_not.mpr hd), if_neg (not_not.mpr rfl), he]
  next hne =>
    refine ⟨fun h => (Option.some_ne_none _ h.symm).elim, fun ⟨_, s, r, htopics, _⟩ => ?_⟩
    exact absurd htopics (hne _ _ _)

/-- The logs the decoder rejects. -/
theorem decode_eq_none {log : Log} :
    decodeErc20Transfer log = none ↔ log.topics.length ≠ 3 ∨ log.data.length ≠ 32 ∨
      log.topics.head? ≠ some ERC20_TRANSFER_EVENT_SIGNATURE := by
  unfold decodeErc20Transfer
  split
  next signature sender receiver ht =>
    by_cases hd : log.data.length = 32
    · by_cases hs : signature = ERC20_TRANSFER_EVENT_SIGNATURE <;> simp [ht, hd, hs]
    · simp [ht, hd]
  next hne =>
    have hlen : log.topics.length ≠ 3 := fun h => by
      obtain ⟨a, b, c, he⟩ := List.length_eq_three.mp h
      exact hne a b c he
    exact ⟨fun _ => .inl hlen, fun _ => rfl⟩

/-- The value of an accepted log is a 256-bit integer, the one its data denotes. -/
theorem value_of_decode {log : Log} {e : Erc20TransferEvent}
    (h : decodeErc20Transfer log = some e) : e.value = beValue log.data ∧ e.value < 2 ^ 256 := by
  obtain ⟨hd, _, _, -, rfl⟩ := decode_eq_some.mp h
  refine ⟨fromBeSlice_eq_beValue _, ?_⟩
  have hlt := fromBeSlice_lt log.data
  rw [hd] at hlt
  simpa using hlt

theorem decode_of_encodes {log : Log} {e : Erc20TransferEvent} (hv : e.value < 2 ^ 256)
    (h : Encodes log e) : decodeErc20Transfer log = some e := by
  obtain ⟨ht, hd⟩ := h
  refine decode_eq_some.mpr ⟨?_, topicOf e.fromAddress, topicOf e.toAddress, ht, ?_⟩
  · rw [hd]
    exact (wordOf e.value).2
  · rw [hd, encodeData, fromBeSlice_wordOf hv, addressOfTopic_topicOf, addressOfTopic_topicOf]

theorem reencodes_of_decode {log : Log} {e : Erc20TransferEvent}
    (h : decodeErc20Transfer log = some e) : Reencodes log e := by
  obtain ⟨hd, sender, receiver, ht, rfl⟩ := decode_eq_some.mp h
  exact ⟨(wordOf_fromBeSlice hd).symm, sender, receiver, ht, sameAddress_topicOf sender,
    sameAddress_topicOf receiver⟩

end EthIndexer.L1
