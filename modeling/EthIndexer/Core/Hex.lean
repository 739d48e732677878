import Mathlib.Data.List.Basic
import Mathlib.Data.Nat.Notation

/-!
# Hexadecimal text

`encode` writes two lower-case digits for each byte, `decode` reads digits of
either case. Each is the inverse of the other, up to case (`decode_encode`,
`encode_decode`), so two texts denote the same bytes exactly when their lower-case
forms agree (`decode_inj`).
-/
namespace EthIndexer.Hex

def isDigit (c : Char) : Bool :=
  c.isDigit || decide ('a' ≤ c ∧ c ≤ 'f') || decide ('A' ≤ c ∧ c ≤ 'F')

/-- The value of a digit. -/
def value (c : Char) : Nat :=
  if c.isDigit then c.toNat - 48 else if 'a' ≤ c then c.toNat - 87 else c.toNat - 55

def encodeByte (b : UInt8) : List Char := [Nat.digitChar (b.toNat / 16), Nat.digitChar (b.toNat % 16)]

def encode (bytes : List UInt8) : List Char := bytes.flatMap encodeByte

/-- The bytes the digits denote, two digits each. -/
def decode : List Char → List UInt8
  | [] => []
  | [_] => []
  | hi :: lo :: cs => UInt8.ofNat (16 * value hi + value lo) :: decode cs

/-! ## Digits -/

/-- What holds of the ASCII digits holds of every digit. -/
theorem forall_digit {P : Char → Prop} (hP : ∀ n < 128, isDigit (Char.ofNat n) → P (Char.ofNat n))
    {c : Char} (h : isDigit c) : P c := by
  have hlt : c.toNat < 128 := by
    simp only [isDigit, Char.isDigit, Bool.or_eq_true, Bool.and_eq_true, decide_eq_true_eq] at h
    rcases h with (⟨-, h⟩ | ⟨-, h⟩) | ⟨-, h⟩
    all_goals exact Nat.lt_of_le_of_lt (show c.toNat ≤ _ from h) (by decide)
  have hc := hP c.toNat hlt
  rw [Char.ofNat_toNat] at hc
  exact hc h

theorem value_lt {c : Char} (h : isDigit c) : value c < 16 :=
  forall_digit (P := fun c => value c < 16) (by decide) h

theorem digitChar_value {c : Char} (h : isDigit c) : Nat.digitChar (value c) = c.toLower :=
  forall_digit (P := fun c => Nat.digitChar (value c) = c.toLower) (by decide) h

theorem isDigit_digitChar : ∀ n < 16, isDigit (Nat.digitChar n) := by decide

theorem value_digitChar : ∀ n < 16, value (Nat.digitChar n) = n := by decide

/-! ## Round trips -/

theorem length_encode (bytes : List UInt8) : (encode bytes).length = 2 * bytes.length := by
  simp [encode, encodeByte, List.length_flatMap, Nat.mul_comm]

theorem length_decode (cs : List Char) : (decode cs).length = cs.length / 2 := by
  induction cs using decode.induct with
  | case1 => rfl
  | case2 c => simp [decode]
  | case3 hi lo cs ih =>
    rw [decode, List.length_cons, ih, List.length_cons, List.length_cons]
    omega

/-- What is written consists of digits. -/
theorem isDigit_encode (bytes : List UInt8) : (encode bytes).all isDigit := by
  refine List.all_eq_true.mpr fun c hc => ?_
  obtain ⟨b, -, hb⟩ := List.mem_flatMap.mp hc
  have hlt := b.toNat_lt
  simp only [encodeByte, List.mem_cons, List.not_mem_nil, or_false] at hb
  rcases hb with rfl | rfl
  · exact isDigit_digitChar _ (by omega)
  · exact isDigit_digitChar _ (by omega)

theorem decode_encode (bytes : List UInt8) : decode (encode bytes) = bytes := by
  induction bytes with
  | nil => rfl
  | cons b rest ih =>
    have hlt := b.toNat_lt
    have hb : UInt8.ofNat (16 * value (Nat.digitChar (b.toNat / 16)) +
        value (Nat.digitChar (b.toNat % 16))) = b := by
      rw [value_digitChar _ (by omega), value_digitChar _ (by omega), Nat.div_add_mod,
        UInt8.ofNat_toNat]
    show _ :: decode (encode rest) = _
    rw [hb, ih]

/-- A byte of two digits is written with these digits, in lower case. -/
theorem encodeByte_ofDigits {hi lo : Char} (hhi : isDigit hi) (hlo : isDigit lo) :
    encodeByte (UInt8.ofNat (16 * value hi + value lo)) = [hi.toLower, lo.toLower] := by
  have h₁ := value_lt hhi
  have h₂ := value_lt hlo
  have hnat : (UInt8.ofNat (16 * value hi + value lo)).toNat = 16 * value hi + value lo := by
    rw [UInt8.toNat_ofNat']
    omega
  rw [encodeByte, hnat, show (16 * value hi + value lo) / 16 = value hi by omega,
    show (16 * value hi + value lo) % 16 = value lo by omega, digitChar_value hhi,
    digitChar_value hlo]

theorem encode_decode {cs : List Char} (hdigits : cs.all isDigit) (heven : cs.length % 2 = 0) :
    encode (decode cs) = cs.map Char.toLower := by
  induction cs using decode.induct with
  | case1 => rfl
  | case2 c => simp at heven
  | case3 hi lo cs ih =>
    simp only [List.all_cons, Bool.and_eq_true] at hdigits
    obtain ⟨hhi, hlo, hcs⟩ := hdigits
    have hrest := ih hcs (by simp only [List.length_cons] at heven; omega)
    rw [decode, encode, List.flatMap_cons, encodeByte_ofDigits hhi hlo]
    exact congrArg ([hi.toLower, lo.toLower] ++ ·) hrest

/-- Case is all that two texts of the same bytes may differ in. -/
theorem decode_inj {cs ds : List Char} (hcs : cs.all isDigit) (hds : ds.all isDigit)
    (hce : cs.length % 2 = 0) (hde : ds.length % 2 = 0) :
    decode cs = decode ds ↔ cs.map Char.toLower = ds.map Char.toLower := by
  constructor
  · intro h
    rw [← encode_decode hcs hce, ← encode_decode hds hde, h]
  · intro h
    rw [← decode_encode (decode cs), ← decode_encode (decode ds), encode_decode hcs hce,
      encode_decode hds hde, h]

end EthIndexer.Hex
