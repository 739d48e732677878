import Mathlib.Algebra.Group.Int.Defs
import Mathlib.Algebra.Group.Nat.Defs
import Mathlib.Data.List.Nodup

/-!
# Casts and fallible code

Block numbers are `u64` in the workers and `BIGINT` (`i64`) in the database.
The code moves between the two with `as` casts, which wrap modulo 2^64. Here a
`u64` is a natural number and a `BIGINT` an `Int64`.

Nothing of a `u64` is lost (`asU64_asI64`), but only below 2^63 does `asI64` keep
the order the SQL comparisons use (`asI64_le`, `le_asI64`, `lt_asI64`).
`rangeIncl a b` is the inclusive range `a..=b`.

A function that returns `Result` is an `Except`; `bind_ok` is the `?` operator.
-/
namespace EthIndexer

/-- `n as i64`. -/
def asI64 (n : Nat) : Int64 := Int64.ofNat n

/-- `i as u64`. -/
def asU64 (i : Int64) : Nat := i.toUInt64.toNat

/-- `n as i32`. -/
def asI32 (n : Nat) : Int32 := Int32.ofNat n

def u64Max : Nat := 2 ^ 64 - 1

/-- `a.saturating_add(b)` on `u64`; `saturating_sub` is `Nat` subtraction. -/
def saturatingAdd (a b : Nat) : Nat := min (a + b) u64Max

theorem saturatingAdd_eq {a b : Nat} (h : a + b < 2 ^ 64) : saturatingAdd a b = a + b :=
  Nat.min_eq_left (by unfold u64Max; omega)

theorem asU64_lt (i : Int64) : asU64 i < 2 ^ 64 := i.toUInt64.toNat_lt

theorem asU64_asI64 {n : Nat} (h : n < 2 ^ 64) : asU64 (asI64 n) = n := by
  unfold asU64 asI64
  rw [Int64.toUInt64_ofNat', UInt64.toNat_ofNat', Nat.mod_eq_of_lt h]

theorem asI64_inj {n m : Nat} (hn : n < 2 ^ 64) (hm : m < 2 ^ 64) (h : asI64 n = asI64 m) :
    n = m := by
  rw [← asU64_asI64 hn, h, asU64_asI64 hm]

theorem asI64_asU64 (i : Int64) : asI64 (asU64 i) = i := by
  rw [asI64, asU64, ← UInt64.toInt64_ofNat', UInt64.ofNat_toNat, Int64.toInt64_toUInt64]

theorem toInt_asI64_bmod (n : Nat) : (asI64 n).toInt = (n : Int).bmod (2 ^ 64) := by
  simp [asI64]

/-- The signed and the unsigned reading of a `BIGINT`. -/
theorem toInt_eq_asU64 (i : Int64) :
    (i.toInt = asU64 i ∧ asU64 i < 2 ^ 63) ∨ (i.toInt = asU64 i - 2 ^ 64 ∧ 2 ^ 63 ≤ asU64 i) := by
  have h := toInt_asI64_bmod (asU64 i)
  have hlt := asU64_lt i
  rw [asI64_asU64, Int.bmod_def] at h
  omega

/-- The numbers below a cast are at most the cast of the number before. -/
theorem le_pred_of_lt_asI64 {k : Int64} {n : Nat} (h : k < asI64 n) : k ≤ asI64 (n - 1) := by
  have hk := k.le_toInt
  rw [Int64.lt_iff_toInt_lt] at h
  rw [Int64.le_iff_toInt_le]
  rw [toInt_asI64_bmod, Int.bmod_def] at h ⊢
  omega

theorem toInt_max (a b : Int64) : (max a b).toInt = max a.toInt b.toInt := by
  show (if a ≤ b then b else a).toInt = _
  simp only [Int64.le_iff_toInt_le]
  split <;> omega

theorem toInt_min (a b : Int64) : (min a b).toInt = min a.toInt b.toInt := by
  show (if a ≤ b then a else b).toInt = _
  simp only [Int64.le_iff_toInt_le]
  split <;> omega

instance lawfulOrderMaxInt64 : Std.LawfulOrderMax Int64 where
  max_eq_or a b := by
    show (if a ≤ b then b else a) = a ∨ (if a ≤ b then b else a) = b
    split
    · exact .inr rfl
    · exact .inl rfl
  max_le_iff a b c := by
    simp only [Int64.le_iff_toInt_le, toInt_max]
    omega

instance lawfulOrderMinInt64 : Std.LawfulOrderMin Int64 where
  min_eq_or a b := by
    show (if a ≤ b then a else b) = a ∨ (if a ≤ b then a else b) = b
    split
    · exact .inl rfl
    · exact .inr rfl
  le_min_iff a b c := by
    simp only [Int64.le_iff_toInt_le, toInt_min]
    omega

theorem asI32_inj {n m : Nat} (hn : n < 2 ^ 31) (hm : m < 2 ^ 31) (h : asI32 n = asI32 m) :
    n = m := by
  have h := congrArg Int32.toInt h
  simp only [asI32, Int32.toInt_ofNat_of_lt hn, Int32.toInt_ofNat_of_lt hm] at h
  omega

/-! ## Below 2^63 -/

theorem toInt_asI64 {n : Nat} (h : n < 2 ^ 63) : (asI64 n).toInt = n := Int64.toInt_ofNat_of_lt h

theorem asI64_nonneg {n : Nat} (h : n < 2 ^ 63) : 0 ≤ (asI64 n).toInt := by
  rw [toInt_asI64 h]
  exact Int.natCast_nonneg n

theorem asU64_of_nonneg {i : Int64} (h : 0 ≤ i.toInt) : (asU64 i : Int) = i.toInt := by
  have hlt := i.toInt_lt
  have hi : i = asI64 i.toInt.toNat := by
    apply Int64.toInt_inj.mp
    rw [toInt_asI64 (by omega)]
    omega
  have hu : asU64 i = i.toInt.toNat := by
    conv => lhs; rw [hi]
    exact asU64_asI64 (by omega)
  omega

theorem eq_asI64 {i : Int64} {n : Nat} (h : n < 2 ^ 63) : i = asI64 n ↔ i.toInt = n := by
  rw [← Int64.toInt_inj, toInt_asI64 h]

theorem asI64_le {i : Int64} {n : Nat} (h : n < 2 ^ 63) : asI64 n ≤ i ↔ (n : Int) ≤ i.toInt := by
  rw [Int64.le_iff_toInt_le, toInt_asI64 h]

theorem le_asI64 {i : Int64} {n : Nat} (h : n < 2 ^ 63) : i ≤ asI64 n ↔ i.toInt ≤ n := by
  rw [Int64.le_iff_toInt_le, toInt_asI64 h]

theorem lt_asI64 {i : Int64} {n : Nat} (h : n < 2 ^ 63) : i < asI64 n ↔ i.toInt < n := by
  rw [Int64.lt_iff_toInt_lt, toInt_asI64 h]

/-- A cast keeps the integer exactly where it fits. -/
theorem toInt_asI64_iff {n : Nat} : (asI64 n).toInt = n ↔ n < 2 ^ 63 := by
  refine ⟨fun h => ?_, toInt_asI64⟩
  have hlt := (asI64 n).toInt_lt
  omega

theorem toInt_asI32_iff {n : Nat} : (asI32 n).toInt = n ↔ n < 2 ^ 31 := by
  refine ⟨fun h => ?_, fun h => Int32.toInt_ofNat_of_lt h⟩
  have hlt := (asI32 n).toInt_lt
  omega

/-! ## `a..=b` -/

def rangeIncl (a b : Nat) : List Nat := List.range' a (b + 1 - a)

theorem mem_rangeIncl {a b n : Nat} : n ∈ rangeIncl a b ↔ a ≤ n ∧ n ≤ b := by
  simp only [rangeIncl, List.mem_range'_1]
  omega

theorem rangeIncl_nodup (a b : Nat) : (rangeIncl a b).Nodup := List.nodup_range'

theorem rangeIncl_eq_nil {a b : Nat} (h : b < a) : rangeIncl a b = [] := by
  simp [rangeIncl, show b + 1 - a = 0 by omega]

theorem rangeIncl_append {a b c : Nat} (hab : a ≤ b + 1) (hbc : b ≤ c) :
    rangeIncl a b ++ rangeIncl (b + 1) c = rangeIncl a c := by
  unfold rangeIncl
  have h := List.range'_append_1 (s := a) (m := b + 1 - a) (n := c + 1 - (b + 1))
  rwa [show a + (b + 1 - a) = b + 1 by omega,
    show b + 1 - a + (c + 1 - (b + 1)) = c + 1 - a by omega] at h

/-- The casts of distinct `u64` values are distinct. -/
theorem asI64_nodup {l : List Nat} (hn : l.Nodup) (hl : ∀ n ∈ l, n < 2 ^ 64) :
    (l.map asI64).Nodup :=
  hn.map_on fun a ha b hb h => asI64_inj (hl a ha) (hl b hb) h

theorem bind_ok {α β : Type} {x : Except String α} {f : α → Except String β} {b : β} :
    (x >>= f) = .ok b ↔ ∃ a, x = .ok a ∧ f a = .ok b := by
  cases x <;> simp [bind, Except.bind]

end EthIndexer
