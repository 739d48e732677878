import EthIndexer.Core.Hex
import EthIndexer.L3Engine.BuildRange
import EthIndexer.L5Api.TransferValue

/-!
# Address filters and printed addresses

An address filter is white space, at most one prefix, 40 hex digits and white
space again (`Spells`); `parseAddress` accepts these strings and no others
(`parseAddress_ok`). Prefix, case and white space are all that two spellings of one
address may differ in, and a printed address is a spelling of itself
(`address_filter`).

alloy's parser is a parameter, of which `ParsesHex` is assumed; it does not check
the case of the digits.
-/
namespace EthIndexer.L5
open EthIndexer.L1 EthIndexer.L2 EthIndexer.L3

def hexPrefixes : List (List Char) := [[], ['0', 'x'], ['0', 'X']]

/-- The string is an address of these digits. -/
structure Spells (value : String) (digits : List Char) : Prop where
  parts : ∃ before zeroX after, value.toList = before ++ (zeroX ++ digits) ++ after ∧
    before.all isWhitespace ∧ zeroX ∈ hexPrefixes ∧ after.all isWhitespace
  length : digits.length = 40
  hex : digits.all isAsciiHexdigit

/-- `0x` and 40 hex digits of any case are the address they denote. -/
def ParsesHex (addressFromStr : String → Option Bytes) : Prop :=
  ∀ digits : List Char, digits.length = 40 → digits.all isAsciiHexdigit →
    addressFromStr ("0x" ++ String.ofList digits) = some (Hex.decode digits)

/-- `0x` and the digits in lower case. -/
def lowerCased (digits : List Char) : String := "0x" ++ String.ofList (digits.map Char.toLower)

/-! ## Trimming -/

theorem trim_parts (cs : List Char) : ∃ before after, cs = before ++ trim cs ++ after ∧
    before.all isWhitespace ∧ after.all isWhitespace := by
  refine ⟨cs.takeWhile isWhitespace,
    ((cs.dropWhile isWhitespace).reverse.takeWhile isWhitespace).reverse, ?_,
    List.all_takeWhile, by rw [List.all_reverse]; exact List.all_takeWhile⟩
  rw [trim, List.append_assoc, ← List.reverse_append, List.takeWhile_append_dropWhile,
    List.reverse_reverse, List.takeWhile_append_dropWhile]

/-- White space stops where the first other character stands. -/
theorem dropWhile_space {before : List Char} {c : Char} {rest : List Char}
    (hbefore : before.all isWhitespace) (hc : isWhitespace c = false) :
    (before ++ c :: rest).dropWhile isWhitespace = c :: rest := by
  rw [List.dropWhile_append_of_pos (List.all_eq_true.mp hbefore),
    List.dropWhile_cons_of_neg (by simp [hc])]

theorem trim_append {before core after : List Char} (hbefore : before.all isWhitespace)
    (hafter : after.all isWhitespace) (hne : core ≠ [])
    (hcore : ∀ c ∈ core, isWhitespace c = false) : trim (before ++ core ++ after) = core := by
  obtain ⟨c, rest, rfl⟩ := List.exists_cons_of_ne_nil hne
  obtain ⟨init, d, hd⟩ := List.eq_nil_or_concat' (c :: rest) |>.resolve_left (by simp)
  have hfirst := hcore c List.mem_cons_self
  have hlast : isWhitespace d = false := hcore d (by rw [hd]; simp)
  rw [trim, List.append_assoc, List.cons_append, dropWhile_space hbefore hfirst, ← List.cons_append,
    hd, List.reverse_append, List.reverse_append, List.reverse_singleton, List.singleton_append,
    dropWhile_space (by rw [List.all_reverse]; exact hafter) hlast, List.reverse_cons,
    List.reverse_reverse]

/-! ## The prefix -/

theorem stripHexPrefix_parts (cs : List Char) :
    ∃ zeroX ∈ hexPrefixes, cs = zeroX ++ stripHexPrefix cs := by
  unfold stripHexPrefix
  split
  · exact ⟨['0', 'x'], by decide, rfl⟩
  · exact ⟨['0', 'X'], by decide, rfl⟩
  · exact ⟨[], by decide, rfl⟩

/-- Digits have no prefix of their own: `x` is not a digit. -/
theorem stripHexPrefix_append {zeroX digits : List Char} (hz : zeroX ∈ hexPrefixes)
    (hd : digits.all isAsciiHexdigit) : stripHexPrefix (zeroX ++ digits) = digits := by
  simp only [hexPrefixes, List.mem_cons, List.not_mem_nil, or_false] at hz
  rcases hz with rfl | rfl | rfl
  · rw [List.nil_append]
    unfold stripHexPrefix
    split
    · simp [isAsciiHexdigit, Hex.isDigit] at hd
    · simp [isAsciiHexdigit, Hex.isDigit] at hd
    · rfl
  · rfl
  · rfl

/-! ## What is accepted -/

theorem not_space_of_hex {c : Char} (h : isAsciiHexdigit c) : isWhitespace c = false :=
  Hex.forall_digit (P := fun c => isWhitespace c = false) (by decide) h

theorem not_space_of_prefix {zeroX : List Char} (hz : zeroX ∈ hexPrefixes) {c : Char}
    (hc : c ∈ zeroX) : isWhitespace c = false := by
  have hall : (hexPrefixes.all fun zeroX => zeroX.all fun c => !isWhitespace c) = true := by decide
  have hzero := List.all_eq_true.mp hall zeroX hz
  simpa using List.all_eq_true.mp hzero c hc

/-- A hex digit is one byte long. -/
theorem utf8ByteSize_hex {digits : List Char} (h : digits.all isAsciiHexdigit) :
    (String.ofList digits).utf8ByteSize = digits.length := by
  induction digits with
  | nil => rfl
  | cons c rest ih =>
    simp only [List.all_cons, Bool.and_eq_true] at h
    have hc : c.utf8Size = 1 :=
      Hex.forall_digit (P := fun c => c.utf8Size = 1) (by decide) h.1
    rw [String.ofList_cons, String.utf8ByteSize_append, String.utf8ByteSize_singleton, hc, ih h.2,
      List.length_cons, Nat.add_comm]

/-- The digits of a spelling are what is left after trimming and stripping. -/
theorem spells_iff {value : String} {digits : List Char} : Spells value digits ↔
    stripHexPrefix (trim value.toList) = digits ∧ digits.length = 40 ∧
      digits.all isAsciiHexdigit := by
  constructor
  · intro ⟨⟨before, zeroX, after, hv, hb, hz, ha⟩, hlen, hhex⟩
    refine ⟨?_, hlen, hhex⟩
    have hcore : ∀ c ∈ zeroX ++ digits, isWhitespace c = false := by
      intro c hc
      rcases List.mem_append.mp hc with hc | hc
      · exact not_space_of_prefix hz hc
      · exact not_space_of_hex (List.all_eq_true.mp hhex c hc)
    have hne : zeroX ++ digits ≠ [] := by
      intro he
      rw [(List.append_eq_nil_iff.mp he).2] at hlen
      cases hlen
    rw [hv, trim_append hb ha hne hcore, stripHexPrefix_append hz hhex]
  · intro ⟨hstrip, hlen, hhex⟩
    obtain ⟨before, after, hv, hb, ha⟩ := trim_parts value.toList
    obtain ⟨zeroX, hz, hs⟩ := stripHexPrefix_parts (trim value.toList)
    rw [hstrip] at hs
    exact ⟨⟨before, zeroX, after, by rw [← hs]; exact hv, hb, hz, ha⟩, hlen, hhex⟩

/-! ## Printing -/

theorem length_decode_spells {value : String} {digits : List Char} (h : Spells value digits) :
    (Hex.decode digits).length = 20 := by
  rw [Hex.length_decode, h.length]

theorem toList_prefixed (cs : List Char) : ("0x" ++ String.ofList cs).toList = '0' :: 'x' :: cs := by
  simp only [String.toList_append, String.toList_ofList]
  rfl

/-- A printed address spells itself. -/
theorem spells_lowerHex {bytes : Bytes} (h : bytes.length = 20) :
    Spells (lowerHex bytes) (Hex.encode bytes) where
  parts := by
    refine ⟨[], ['0', 'x'], [], ?_, rfl, by decide, rfl⟩
    rw [lowerHex, toList_prefixed, List.nil_append, List.append_nil]
    rfl
  length := by rw [Hex.length_encode, h]
  hex := Hex.isDigit_encode bytes

theorem lowerHex_decode {value : String} {digits : List Char} (h : Spells value digits) :
    lowerHex (Hex.decode digits) = lowerCased digits := by
  rw [lowerHex, Hex.encode_decode h.hex (by rw [h.length]), lowerCased]

section
variable {addressFromStr : String → Option Bytes} (hparse : ParsesHex addressFromStr)
include hparse

theorem parseAddress_spells {value : String} {digits : List Char} (h : Spells value digits) :
    parseAddress addressFromStr value = .ok (Hex.decode digits) := by
  obtain ⟨hstrip, hlen, hhex⟩ := spells_iff.mp h
  have hcond : ¬ ((String.ofList digits).utf8ByteSize ≠ 40 ∨ ¬ digits.all isAsciiHexdigit) := by
    rw [utf8ByteSize_hex hhex]
    exact not_or.mpr ⟨not_not.mpr hlen, not_not.mpr hhex⟩
  simp only [parseAddress, hstrip]
  rw [if_neg hcond, hparse digits hlen hhex]

/-- The accepted strings and their bytes. -/
theorem parseAddress_ok {value : String} {bytes : Bytes} :
    parseAddress addressFromStr value = .ok bytes ↔
      ∃ digits, Spells value digits ∧ bytes = Hex.decode digits := by
  constructor
  · intro h
    by_cases hcond : (String.ofList (stripHexPrefix (trim value.toList))).utf8ByteSize ≠ 40 ∨
        ¬ (stripHexPrefix (trim value.toList)).all isAsciiHexdigit
    · simp only [parseAddress] at h
      rw [if_pos hcond] at h
      cases h
    · obtain ⟨hlen, hhex⟩ := not_or.mp hcond
      rw [not_not] at hlen hhex
      rw [utf8ByteSize_hex hhex] at hlen
      have hs : Spells value _ := spells_iff.mpr ⟨rfl, hlen, hhex⟩
      exact ⟨_, hs, Except.ok.inj (h.symm.trans (parseAddress_spells hparse hs))⟩
  · rintro ⟨digits, hs, rfl⟩
    exact parseAddress_spells hparse hs

/-- Two spellings are one filter when they differ in case at most. -/
theorem parseAddress_eq_iff {v w : String} {ds es : List Char} (hv : Spells v ds)
    (hw : Spells w es) : parseAddress addressFromStr v = parseAddress addressFromStr w ↔
      ds.map Char.toLower = es.map Char.toLower := by
  rw [parseAddress_spells hparse hv, parseAddress_spells hparse hw, Except.ok.injEq]
  exact Hex.decode_inj hv.hex hw.hex (by rw [hv.length]) (by rw [hw.length])

end

/-! ## Rows of a payload -/

/-- Each record of a payload is answered, with its addresses printed. -/
theorem ofRow_payload {engine : BackfillEngine} {rpc : RpcClient} {first last : Nat}
    {p : RangePayload first last} (hp : engine.buildRangePayload rpc first last = .ok p)
    {r : Erc20TransferRecord} (hr : r ∈ p.transferRecords) (value : String) :
    ∃ out, Erc20TransferEventRecord.ofRow (selectedRow r value) = .ok out := by
  obtain ⟨metas, logs, -, -, hb⟩ := BackfillEngine.buildRangePayload_ok.mp hp
  rw [(buildRangePayload_ok hb).2.1] at hr
  obtain ⟨log, -, hrec⟩ := List.mem_filterMap.mp hr
  obtain ⟨event, _, _, _, _, -, -, -, -, -, rfl⟩ := recordAt_eq_some.mp hrec
  exact ⟨_, ofRow_ok log.address.2 event.fromAddress.2 event.toAddress.2⟩

/-! ## Filters and printed addresses agree -/

/-- **Address filters and printed addresses agree.** A filter is accepted exactly when
it spells an address, and then is the bytes of its digits; two filters are the same
exactly when their digits are up to case; a printed address is read back; an accepted
filter is printed as its digits in lower case; and no record of a payload panics in
the printer. -/
theorem address_filter (addressFromStr : String → Option Bytes) (hparse : ParsesHex addressFromStr) :
    (∀ value bytes, parseAddress addressFromStr value = .ok bytes ↔
      ∃ digits, Spells value digits ∧ bytes = Hex.decode digits) ∧
    (∀ v w ds es, Spells v ds → Spells w es →
      (parseAddress addressFromStr v = parseAddress addressFromStr w ↔
        ds.map Char.toLower = es.map Char.toLower)) ∧
    (∀ b : Address, ∃ text, formatAddress b.val = .ok text ∧
      parseAddress addressFromStr text = .ok b.val) ∧
    (∀ value digits, Spells value digits → ∃ bytes, parseAddress addressFromStr value = .ok bytes ∧
      formatAddress bytes = .ok (lowerCased digits)) ∧
    (∀ (engine : BackfillEngine) (rpc : RpcClient) (first last : Nat) (p : RangePayload first last),
      engine.buildRangePayload rpc first last = .ok p → ∀ r ∈ p.transferRecords, ∀ value,
        ∃ out, Erc20TransferEventRecord.ofRow (selectedRow r value) = .ok out) := by
  refine ⟨fun value bytes => parseAddress_ok hparse,
    fun v w ds es hv hw => parseAddress_eq_iff hparse hv hw, fun b => ?_, fun value digits h => ?_,
    fun engine rpc first last p hp r hr value => ofRow_payload hp hr value⟩
  · have hs := spells_lowerHex b.2
    refine ⟨_, formatAddress_ok b.2, ?_⟩
    rw [parseAddress_spells hparse hs, Hex.decode_encode]
  · refine ⟨_, parseAddress_spells hparse h, ?_⟩
    rw [formatAddress_ok (length_decode_spells h), lowerHex_decode h]

/-! ## A reference parser -/

/-- Parses `0x` and 40 digits only. -/
def referenceAddress (s : String) : Option Bytes :=
  match s.toList with
  | '0' :: 'x' :: digits =>
    if digits.length = 40 ∧ digits.all isAsciiHexdigit then some (Hex.decode digits) else none
  | _ => none

theorem referenceAddress_parsesHex : ParsesHex referenceAddress := by
  intro digits hlen hhex
  rw [referenceAddress, toList_prefixed]
  exact if_pos ⟨hlen, hhex⟩

/-- Two spellings of one filter. -/
theorem address_filter_spellings :
    parseAddress referenceAddress "\u00a00XdAC17F958D2ee523a2206206994597C13D831ec7\n" =
      parseAddress referenceAddress "dac17f958d2ee523a2206206994597c13d831ec7" := by
  have hv : Spells "\u00a00XdAC17F958D2ee523a2206206994597C13D831ec7\n"
      "dAC17F958D2ee523a2206206994597C13D831ec7".toList := spells_iff.mpr (by decide)
  have hw : Spells "dac17f958d2ee523a2206206994597c13d831ec7"
      "dac17f958d2ee523a2206206994597c13d831ec7".toList := spells_iff.mpr (by decide)
  exact ((address_filter referenceAddress referenceAddress_parsesHex).2.1 _ _ _ _ hv hw).mpr
    (by decide)

end EthIndexer.L5
