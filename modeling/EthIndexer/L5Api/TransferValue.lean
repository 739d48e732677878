import EthIndexer.L1Chain.Encoding
import EthIndexer.L3Engine.Payload
import EthIndexer.L5Api.TransferQuery

/-!
# The value of a transfer, from the log to the API

The 256-bit value of an accepted log is printed (`U256::to_string`), parsed
(`BigDecimal::from_str`), stored in a `NUMERIC(78,0)` column, selected as
`value::text` and copied into the answer. `Decimals` has what the crates and
PostgreSQL do there, `Decimals.Documented` what their documentation says of it.

`apiRecord_ok`: for every 256-bit value the way succeeds and the answer has its
decimal digits; a value has up to 78 of them, so a `NUMERIC(77,0)` would not do
(`storeValue_narrow`). `transfer_exact`: the decoder is the inverse of the event's
encoding, and the text of the answer denotes the integer in the log's data.
-/
namespace EthIndexer.L5
open EthIndexer.L1 EthIndexer.L2 EthIndexer.L3

/-! ## The crates and the column -/

/-- A value of a `NUMERIC(precision, scale)` column, in units of `10 ^ -scale`. -/
structure Numeric (precision scale : Nat) where
  units : Int
  fits : units.natAbs < 10 ^ precision

structure Decimals (BigDecimal : Type) where
  /-- `U256::to_string` -/
  toString : Nat → String
  /-- `BigDecimal::from_str` -/
  fromStr : String → Except String BigDecimal
  /-- the number is the integer times 10 to the minus exponent -/
  asBigintAndExponent : BigDecimal → Int × Int
  /-- the assignment of a bound value to a column -/
  assign : (precision scale : Nat) → BigDecimal → Except String (Numeric precision scale)
  /-- `::text` -/
  text : {precision scale : Nat} → Numeric precision scale → String

/-- `d` is the integer `m`, without an exponent. -/
def Decimals.IsInteger {BigDecimal : Type} (E : Decimals BigDecimal) (d : BigDecimal) (m : Int) :
    Prop :=
  E.asBigintAndExponent d = (m, 0)

structure Decimals.Documented {BigDecimal : Type} (E : Decimals BigDecimal) : Prop where
  /-- an integer is displayed in base 10 -/
  toString_digits : ∀ n < 2 ^ 256, (E.toString n).toList = Nat.toDigits 10 n
  /-- a non-empty string of digits is an integer -/
  fromStr_digits : ∀ s : String, s.toList ≠ [] → s.toList.all Char.isDigit →
    ∃ d, E.fromStr s = .ok d ∧ E.IsInteger d (Nat.ofDigitChars 10 s.toList 0)
  /-- an integer of at most `precision - scale` digits is stored exactly -/
  assign_fits : ∀ precision scale d m, scale ≤ precision → precision ≤ 1000 →
    E.IsInteger d m → m.natAbs < 10 ^ (precision - scale) →
    ∃ v, E.assign precision scale d = .ok v ∧ v.units = m * 10 ^ scale
  /-- more digits are an error -/
  assign_overflow : ∀ precision scale d m, scale ≤ precision → precision ≤ 1000 →
    E.IsInteger d m → 10 ^ (precision - scale) ≤ m.natAbs →
    ∃ e, E.assign precision scale d = .error e
  /-- without a scale there is no point -/
  text_digits : ∀ precision (v : Numeric precision 0), 0 ≤ v.units →
    (E.text v).toList = Nat.toDigits 10 v.units.natAbs

/-! ## The way of a value -/

/-- Where a value may be lost. -/
inductive Fault where
  /-- `.unwrap()` of a parse error -/
  | unwrap (error : String)
  /-- the `INSERT` fails -/
  | insert (error : String)
  /-- `Address::from_slice` of another length -/
  | slice (length : Nat)

section
variable {BigDecimal : Type} (E : Decimals BigDecimal)

/-- `BigDecimal::from_str(&value.to_string()).unwrap()`.
mirrors crates/ingestion/src/lib.rs:415 -/
def recordValue (value : Nat) : Except Fault BigDecimal :=
  (E.fromStr (E.toString value)).mapError .unwrap

/-- mirrors migrations/001_create_erc20_transfers.sql:12 and 004_create_hot_storage.sql:11 -/
def VALUE_PRECISION : Nat := 78

def VALUE_SCALE : Nat := 0

/-- `push_bind(&record.value)`, into the column.
mirrors crates/storage/src/lib.rs:319 -/
def storeValue (d : BigDecimal) : Except Fault (Numeric VALUE_PRECISION VALUE_SCALE) :=
  (E.assign VALUE_PRECISION VALUE_SCALE d).mapError .insert

end

/-- mirrors crates/api/src/schema.rs:36-47 -/
structure Erc20TransferRow where
  blockNumber : Int64
  blockHash : Bytes
  txnHash : Bytes
  logIndex : Int32
  contractAddress : Bytes
  fromAddress : Bytes
  toAddress : Bytes
  value : String
  timestamp : Int64

/-- mirrors crates/api/src/schema.rs:11-23 -/
structure Erc20TransferEventRecord where
  blockNumber : Int64
  blockHash : String
  txnHash : String
  logIndex : Int32
  contractAddress : String
  fromAddress : String
  toAddress : String
  value : String
  timestamp : Int64
  deriving DecidableEq

/-- `{:#x}` of an `Address` or a `B256`. -/
def lowerHex (bytes : Bytes) : String := "0x" ++ .ofList (Hex.encode bytes)

/-- `Address::from_slice` panics unless there are 20 bytes.
mirrors crates/api/src/schema.rs:271-273 -/
def formatAddress (bytes : Bytes) : Except Fault String :=
  if bytes.length = 20 then .ok (lowerHex bytes) else .error (.slice bytes.length)

/-- mirrors crates/api/src/schema.rs:275-286 -/
def formatHash (bytes : Bytes) : String :=
  if bytes.length = 32 then lowerHex bytes
  else bytes.foldl (fun encoded b => encoded ++ .ofList (Hex.encodeByte b)) "0x"

/-- The two branches write the same. -/
theorem formatHash_eq (bytes : Bytes) : formatHash bytes = lowerHex bytes := by
  have hloop : ∀ encoded : String, bytes.foldl
      (fun encoded b => encoded ++ .ofList (Hex.encodeByte b)) encoded =
        encoded ++ .ofList (Hex.encode bytes) := by
    induction bytes with
    | nil => simp [Hex.encode]
    | cons b rest ih =>
      intro encoded
      rw [List.foldl_cons, ih, Hex.encode, Hex.encode, List.flatMap_cons, String.ofList_append,
        String.append_assoc]
  unfold formatHash
  split
  · rfl
  · exact hloop "0x"

/-- mirrors crates/api/src/schema.rs:213-227 -/
def Erc20TransferEventRecord.ofRow (row : Erc20TransferRow) :
    Except Fault Erc20TransferEventRecord := do
  let contractAddress ← formatAddress row.contractAddress
  let fromAddress ← formatAddress row.fromAddress
  let toAddress ← formatAddress row.toAddress
  pure ⟨row.blockNumber, formatHash row.blockHash, formatHash row.txnHash, row.logIndex,
    contractAddress, fromAddress, toAddress, row.value, row.timestamp⟩

/-- The row of a record, with its `value::text`. -/
def selectedRow (r : Erc20TransferRecord) (value : String) : Erc20TransferRow :=
  ⟨r.blockNumber, r.blockHash, r.txnHash, r.logIndex, r.contractAddress, r.fromAddress,
    r.toAddress, value, r.timestamp⟩

/-- A record on its way from the payload through the table to the answer. -/
def apiRecord {BigDecimal : Type} (E : Decimals BigDecimal) (r : Erc20TransferRecord) :
    Except Fault Erc20TransferEventRecord := do
  let d ← recordValue E r.value
  let v ← storeValue E d
  Erc20TransferEventRecord.ofRow (selectedRow r (E.text v))

/-! ## No value is lost -/

section
variable {BigDecimal : Type} {E : Decimals BigDecimal}

theorem recordValue_ok (hE : E.Documented) {value : Nat} (h : value < 2 ^ 256) :
    ∃ d, recordValue E value = .ok d ∧ E.IsInteger d value := by
  have htext := hE.toString_digits value h
  obtain ⟨hne, hdigits⟩ := Positional.digits_toDigits value
  obtain ⟨d, hd, hnum⟩ := hE.fromStr_digits (E.toString value) (htext ▸ hne) (htext ▸ hdigits)
  rw [htext, Nat.ofDigitChars_ten_toDigits] at hnum
  exact ⟨d, by rw [recordValue, hd]; rfl, hnum⟩

/-- A 256-bit value has at most 78 digits. -/
theorem value_digits {value : Nat} (h : value < 2 ^ 256) : value < 10 ^ 78 :=
  Nat.lt_of_lt_of_le h (by norm_num)

theorem storeValue_ok (hE : E.Documented) {value : Nat} (h : value < 2 ^ 256) {d : BigDecimal}
    (hd : E.IsInteger d value) :
    ∃ v, storeValue E d = .ok v ∧ v.units = value := by
  obtain ⟨v, hv, hu⟩ := hE.assign_fits VALUE_PRECISION VALUE_SCALE d value (by decide) (by decide)
    hd (value_digits h)
  exact ⟨v, by rw [storeValue, hv]; rfl, by simpa [VALUE_SCALE] using hu⟩

/-- The precision is the least one: with 77 digits, the values from `10 ^ 77` on fail. -/
theorem storeValue_narrow (hE : E.Documented) {value : Nat} (h : 10 ^ 77 ≤ value) {d : BigDecimal}
    (hd : E.IsInteger d value) : ∃ e, E.assign 77 0 d = .error e :=
  hE.assign_overflow 77 0 d value (by decide) (by decide) hd h

theorem text_of_units (hE : E.Documented) {v : Numeric VALUE_PRECISION VALUE_SCALE} {value : Nat}
    (h : v.units = value) : E.text v = toString value := by
  have ht := hE.text_digits VALUE_PRECISION v (by omega)
  rw [h, Int.natAbs_natCast] at ht
  exact String.toList_inj.mp (ht.trans Nat.toList_repr.symm)

theorem formatAddress_ok {bytes : Bytes} (h : bytes.length = 20) :
    formatAddress bytes = .ok (lowerHex bytes) :=
  if_pos h

/-- Nothing happens to a 256-bit value on the way. -/
theorem apiRecord_eq (hE : E.Documented) {r : Erc20TransferRecord} (h : r.value < 2 ^ 256) :
    apiRecord E r = Erc20TransferEventRecord.ofRow (selectedRow r (toString r.value)) := by
  obtain ⟨d, hd, hnum⟩ := recordValue_ok hE h
  obtain ⟨v, hv, hu⟩ := storeValue_ok hE h hnum
  rw [apiRecord, hd]
  simp only [bind, Except.bind, hv, text_of_units hE hu]

/-- A row with addresses of 20 bytes has an answer. -/
theorem ofRow_ok {row : Erc20TransferRow} (hc : row.contractAddress.length = 20)
    (hf : row.fromAddress.length = 20) (ht : row.toAddress.length = 20) :
    Erc20TransferEventRecord.ofRow row = .ok ⟨row.blockNumber, lowerHex row.blockHash,
      lowerHex row.txnHash, row.logIndex, lowerHex row.contractAddress, lowerHex row.fromAddress,
      lowerHex row.toAddress, row.value, row.timestamp⟩ := by
  simp only [Erc20TransferEventRecord.ofRow, formatAddress_ok hc, formatAddress_ok hf,
    formatAddress_ok ht, formatHash_eq]
  rfl

/-- The query's row of a record has the text the answer has. -/
theorem transferRow_value (r : Erc20TransferRecord) :
    (transferRow r)[7]? = some (.text (toString r.value)) :=
  rfl

/-- **Decoding is the inverse of the encoding, through to the API.** The decoder
returns the event a log encodes; what it returns encodes to the log but for the
padding of the addresses; it rejects every other log; and a record of an
accepted log reaches the API, with the decimal text of the integer in its data. -/
theorem transfer_exact (hE : E.Documented) :
    (∀ (e : Erc20TransferEvent) (log : Log), e.value < 2 ^ 256 → Encodes log e →
      decodeErc20Transfer log = some e) ∧
    (∀ log e, decodeErc20Transfer log = some e → Reencodes log e) ∧
    (∀ log : Log, log.topics.length ≠ 3 ∨ log.data.length ≠ 32 ∨
      log.topics.head? ≠ some ERC20_TRANSFER_EVENT_SIGNATURE → decodeErc20Transfer log = none) ∧
    ∀ log e, decodeErc20Transfer log = some e → ∀ txnHash logIndex n block, ∃ out,
      apiRecord E (recordOf log e txnHash logIndex n block) = .ok out ∧
      Positional.numeral? out.value = some (beValue log.data) := by
  refine ⟨fun e log hv h => decode_of_encodes hv h, fun log e h => reencodes_of_decode h,
    fun log h => decode_eq_none.mpr h, fun log e h txnHash logIndex n block => ?_⟩
  obtain ⟨hvalue, hlt⟩ := value_of_decode h
  refine ⟨_, (apiRecord_eq hE hlt).trans
    (ofRow_ok log.address.2 e.fromAddress.2 e.toAddress.2), ?_⟩
  rw [← hvalue]
  exact Positional.numeral_of_toDigits Nat.toList_repr

end

/-! ## A reference implementation -/

/-- `m` over `k`, rounded half away from zero. -/
def roundDiv (m : Int) (k : Nat) : Int := m.sign * ((2 * m.natAbs + k) / (2 * k) : Nat)

/-- A decimal as integer and exponent; parses unsigned integers only. -/
def reference : Decimals (Int × Int) where
  toString := Nat.repr
  fromStr s := match Positional.numeral? s with
    | some n => .ok (n, 0)
    | none => .error "invalid digit found in string"
  asBigintAndExponent := id
  assign precision scale d :=
    let units := if d.2 ≤ scale then d.1 * 10 ^ (scale - d.2).toNat
      else roundDiv d.1 (10 ^ (d.2 - scale).toNat)
    if h : units.natAbs < 10 ^ precision then .ok ⟨units, h⟩ else .error "numeric field overflow"
  text {_ scale} v :=
    let sign := if v.units < 0 then "-" else ""
    let whole := sign ++ Nat.repr (v.units.natAbs / 10 ^ scale)
    if scale = 0 then whole
    else whole ++ "." ++ .ofList ((Positional.toBe 10 scale v.units.natAbs).map Nat.digitChar)

theorem scaled_fits {precision scale : Nat} (h : scale ≤ precision) (m : Int) :
    (m * 10 ^ scale).natAbs < 10 ^ precision ↔ m.natAbs < 10 ^ (precision - scale) := by
  have hpos : 0 < 10 ^ scale := Nat.pow_pos (by decide)
  rw [Int.natAbs_mul, Int.natAbs_pow]
  conv_lhs => rw [← Nat.sub_add_cancel h, Nat.pow_add]
  exact Nat.mul_lt_mul_right hpos

theorem reference_documented : reference.Documented where
  toString_digits _ _ := Nat.toList_repr
  fromStr_digits s hne hd := by
    refine ⟨_, ?_, rfl⟩
    simp only [reference, Positional.numeral?, if_pos (And.intro hne hd)]
  assign_fits p s d m hs _ hd hm := by
    have hfits := (scaled_fits hs m).mpr hm
    obtain ⟨i, e⟩ := d
    cases hd
    exact ⟨⟨m * 10 ^ s, hfits⟩, by simp [reference, hfits], rfl⟩
  assign_overflow p s d m hs _ hd hm := by
    have hfits := (scaled_fits hs m).not.mpr (Nat.not_lt.mpr hm)
    obtain ⟨i, e⟩ := d
    cases hd
    exact ⟨"numeric field overflow", by simp [reference, hfits]⟩
  text_digits p v hv := by
    simp [reference, not_lt.mpr hv]

/-- A log of a transfer of `2 ^ 256 - 1`, with a padding that is not zero. -/
def maxTransfer : Log where
  address := ⟨List.replicate 20 1, rfl⟩
  topics := [ERC20_TRANSFER_EVENT_SIGNATURE, ⟨List.replicate 32 2, rfl⟩, ⟨List.replicate 32 3, rfl⟩]
  data := List.replicate 32 255
  blockNumber := some 1
  blockHash := none
  transactionHash := some (B256.ofByte 5)
  logIndex := some 0

/-- The largest value reaches the API. -/
theorem transfer_exact_max : ∃ out,
    apiRecord reference (recordOf maxTransfer ⟨⟨List.replicate 20 2, rfl⟩, ⟨List.replicate 20 3, rfl⟩,
      2 ^ 256 - 1⟩ (B256.ofByte 5) 0 1 ⟨1, List.replicate 32 7, 0⟩) = .ok out ∧
    Positional.numeral? out.value = some (2 ^ 256 - 1) := by
  have hdec : decodeErc20Transfer maxTransfer = some ⟨⟨List.replicate 20 2, rfl⟩,
      ⟨List.replicate 20 3, rfl⟩, 2 ^ 256 - 1⟩ := by decide +kernel
  have hdata : beValue maxTransfer.data = 2 ^ 256 - 1 := by decide +kernel
  obtain ⟨out, hout, hvalue⟩ := (transfer_exact reference_documented).2.2.2 maxTransfer _ hdec
    (B256.ofByte 5) 0 1 ⟨1, List.replicate 32 7, 0⟩
  rw [hdata] at hvalue
  exact ⟨out, hout, hvalue⟩

end EthIndexer.L5
