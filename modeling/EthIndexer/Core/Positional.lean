import Mathlib.Data.Nat.Digits.Lemmas

/-!
# Positional numerals

`ofBe b` reads a list of digits most significant first, `toBe b k` writes a
number with `k` digits. On digit lists of length `k` and numbers below `b ^ k` the
two are inverse to each other (`ofBe_toBe`, `toBe_ofBe`).

Decimal numerals are lists of `Char`: `numeral?` reads those whose characters
are all digits.
-/
namespace EthIndexer.Positional

def ofBe (b : Nat) (ds : List Nat) : Nat := ds.foldl (fun acc d => acc * b + d) 0

def toBe (b : Nat) : Nat → Nat → List Nat
  | 0, _ => []
  | k + 1, n => toBe b k (n / b) ++ [n % b]

variable {b : Nat}

@[simp] theorem ofBe_nil : ofBe b [] = 0 := rfl

theorem ofBe_concat (ds : List Nat) (d : Nat) : ofBe b (ds ++ [d]) = ofBe b ds * b + d := by
  simp [ofBe]

theorem ofBe_eq_ofDigits (ds : List Nat) : ofBe b ds = Nat.ofDigits b ds.reverse := by
  induction ds using List.reverseRecOn with
  | nil => rfl
  | append_singleton ds d ih =>
    rw [ofBe_concat, ih, List.reverse_append, List.reverse_singleton, List.singleton_append,
      Nat.ofDigits_cons, Nat.mul_comm, Nat.add_comm]

theorem ofBe_lt (hb : 1 < b) {ds : List Nat} (h : ∀ d ∈ ds, d < b) : ofBe b ds < b ^ ds.length := by
  have hr := Nat.ofDigits_lt_base_pow_length (l := ds.reverse) hb fun d hd =>
    h d (List.mem_reverse.mp hd)
  rwa [← ofBe_eq_ofDigits, List.length_reverse] at hr

/-- Digit lists of one length denote different numbers. -/
theorem ofBe_inj (hb : 1 < b) {ds es : List Nat} (hlen : ds.length = es.length)
    (hd : ∀ d ∈ ds, d < b) (he : ∀ e ∈ es, e < b) (h : ofBe b ds = ofBe b es) : ds = es := by
  rw [ofBe_eq_ofDigits, ofBe_eq_ofDigits] at h
  have hr := Nat.ofDigits_inj_of_len_eq hb (by simpa using hlen)
    (fun d hm => hd d (List.mem_reverse.mp hm)) (fun e hm => he e (List.mem_reverse.mp hm)) h
  exact List.reverse_inj.mp hr

@[simp] theorem length_toBe (b k n : Nat) : (toBe b k n).length = k := by
  induction k generalizing n with
  | zero => rfl
  | succ k ih => simp [toBe, ih]

theorem toBe_lt (hb : 0 < b) (k n : Nat) : ∀ d ∈ toBe b k n, d < b := by
  induction k generalizing n with
  | zero => simp [toBe]
  | succ k ih =>
    intro d hd
    rcases List.mem_append.mp hd with hd | hd
    · exact ih _ d hd
    · rw [List.mem_singleton.mp hd]
      exact Nat.mod_lt n hb

theorem ofBe_toBe {k n : Nat} (h : n < b ^ k) : ofBe b (toBe b k n) = n := by
  induction k generalizing n with
  | zero => simp at h; simp [toBe, h]
  | succ k ih =>
    have hdiv : n / b < b ^ k := by
      rw [Nat.pow_succ, Nat.mul_comm] at h
      exact Nat.div_lt_of_lt_mul h
    rw [toBe, ofBe_concat, ih hdiv]
    exact Nat.div_add_mod' n b

theorem toBe_ofBe (hb : 1 < b) {ds : List Nat} (h : ∀ d ∈ ds, d < b) :
    toBe b ds.length (ofBe b ds) = ds :=
  ofBe_inj hb (length_toBe ..) (toBe_lt (Nat.lt_of_succ_lt hb) _ _) h (ofBe_toBe (ofBe_lt hb h))

/-! ## Decimal numerals -/

/-- The number a non-empty string of decimal digits denotes. -/
def numeral? (s : String) : Option Nat :=
  if s.toList ≠ [] ∧ s.toList.all Char.isDigit then some (Nat.ofDigitChars 10 s.toList 0) else none

theorem digits_toDigits (n : Nat) :
    Nat.toDigits 10 n ≠ [] ∧ (Nat.toDigits 10 n).all Char.isDigit :=
  ⟨Nat.toDigits_ne_nil, List.all_eq_true.mpr fun _ hc =>
    Nat.isDigit_of_mem_toDigits (by decide) (by decide) hc⟩

/-- A numeral ends where its digits do. -/
theorem toDigits_append_inj {m n : Nat} {c : Char} {x y : List Char} (hc : c.isDigit = false)
    (h : Nat.toDigits 10 m ++ c :: x = Nat.toDigits 10 n ++ c :: y) : m = n := by
  have htake : ∀ k z, (Nat.toDigits 10 k ++ c :: z).takeWhile Char.isDigit = Nat.toDigits 10 k := by
    intro k z
    rw [List.takeWhile_append_of_pos (List.all_eq_true.mp (digits_toDigits k).2),
      List.takeWhile_cons_of_neg (by simp [hc]), List.append_nil]
  have hdigits := (htake m x).symm.trans ((congrArg (List.takeWhile Char.isDigit) h).trans (htake n y))
  have hread := congrArg (Nat.ofDigitChars 10 · 0) hdigits
  rwa [Nat.ofDigitChars_ten_toDigits, Nat.ofDigitChars_ten_toDigits] at hread

/-- The decimal digits of a number denote it. -/
theorem numeral_of_toDigits {s : String} {n : Nat} (h : s.toList = Nat.toDigits 10 n) :
    numeral? s = some n := by
  unfold numeral?
  rw [h, if_pos (digits_toDigits n), Nat.ofDigitChars_ten_toDigits]

end EthIndexer.Positional
