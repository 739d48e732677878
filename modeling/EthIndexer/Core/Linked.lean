import Mathlib.Data.Set.Basic

/-!
# Hash-linked chains

A chain gives a block hash to every number. In a hash-linked family the hash of
a block commits to the whole history below it: two chains that carry one hash
at `n` carry the same hashes at every number below `n`.

`Carries f E` says that a set of entries (number, hash) lies on the chain `f`.
`Carries.below` is the argument every reorganisation check rests on: a single
matching entry certifies all entries below it.
-/
namespace EthIndexer

variable {α : Type}

def HashLinked (F : Set (Nat → α)) : Prop :=
  ∀ f ∈ F, ∀ g ∈ F, ∀ n, f n = g n → ∀ m, m ≤ n → f m = g m

/-- Every entry of `E` is the hash `f` gives its number. -/
def Carries (f : Nat → α) (E : Nat → α → Prop) : Prop := ∀ n a, E n a → a = f n

/-- **A match certifies everything below it.** Entries up to `t` on one chain
of the family lie on any other chain of the family that agrees with it at `t`. -/
theorem Carries.below {F : Set (Nat → α)} (hF : HashLinked F) {f g : Nat → α} (hf : f ∈ F)
    (hg : g ∈ F) {E : Nat → α → Prop} {t : Nat} (hE : Carries f E) (hle : ∀ n a, E n a → n ≤ t)
    (ht : f t = g t) : Carries g E := by
  intro n a ha
  rw [hE n a ha]
  exact hF f hf g hg t ht n (hle n a ha)

end EthIndexer
