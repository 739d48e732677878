import Mathlib.Algebra.BigOperators.Group.List.Basic
import Mathlib.Data.List.Perm.Subperm
import Mathlib.Order.Lattice
import Mathlib.Order.Nat

/-!
# Rolling windows

Amounts are recorded at instants that never decrease. What is still in the window
is kept in a queue with one entry for each instant: an amount of the last instant is
merged into the last entry, and old entries leave at the front.

`Tallies c d l h`: read by `c`, the queue `l` has the amounts that the records `h`
have, read by `d`, at each set of instants. So nothing is lost or counted twice; a
new entry (`push`), a merge (`merge`) and the expiry of old entries (`filter`) keep
it.
-/
namespace EthIndexer

/-- How the entries of a list are read. -/
structure Clocked (β T M : Type) where
  time : β → T
  amount : β → M

namespace Clocked
variable {β γ T M : Type}

section
variable [AddCommMonoid M]

/-- The amounts at the instants satisfying `p`. -/
def total (c : Clocked β T M) (p : T → Bool) (l : List β) : M :=
  ((l.filter fun x => p (c.time x)).map c.amount).sum

section
variable {c : Clocked β T M}

theorem total_true (l : List β) : c.total (fun _ => true) l = (l.map c.amount).sum := by
  rw [total, List.filter_true]

theorem total_append (p : T → Bool) (l l' : List β) :
    c.total p (l ++ l') = c.total p l + c.total p l' := by
  simp only [total, List.filter_append, List.map_append, List.sum_append]

theorem total_singleton (p : T → Bool) (x : β) :
    c.total p [x] = if p (c.time x) then c.amount x else 0 := by
  simp only [total, List.filter_cons, List.filter_nil]
  split <;> simp

theorem total_filter (p q : T → Bool) (l : List β) :
    c.total p (l.filter fun x => q (c.time x)) = c.total (fun t => p t && q t) l := by
  rw [total, List.filter_filter, total]

end

/-! ## The queue and the records -/

def Tallies (c : Clocked β T M) (d : Clocked γ T M) (l : List β) (h : List γ) : Prop :=
  ∀ p, c.total p l = d.total p h

section
variable {c : Clocked β T M} {d : Clocked γ T M} {l : List β} {h : List γ}

theorem Tallies.nil : Tallies c d [] [] := fun _ => rfl

/-- An entry of its own. -/
theorem Tallies.push (ht : Tallies c d l h) {x : β} {y : γ} (htime : c.time x = d.time y)
    (hamount : c.amount x = d.amount y) : Tallies c d (l ++ [x]) (h ++ [y]) := by
  intro p
  rw [total_append, total_append, ht p, total_singleton, total_singleton, htime, hamount]

/-- A record of the instant of the last entry. -/
theorem Tallies.merge {x x' : β} {y : γ} (ht : Tallies c d (l ++ [x]) h)
    (htime : c.time x = d.time y) (htime' : c.time x' = d.time y)
    (hamount : c.amount x' = c.amount x + d.amount y) :
    Tallies c d (l ++ [x']) (h ++ [y]) := by
  intro p
  have hp := ht p
  rw [total_append, total_singleton, htime] at hp
  rw [total_append, total_append, ← hp, total_singleton, total_singleton, htime', hamount]
  split
  · exact (add_assoc _ _ _).symm
  · rw [add_zero, add_zero]

theorem Tallies.filter (ht : Tallies c d l h) (q : T → Bool) :
    Tallies c d (l.filter fun x => q (c.time x)) (h.filter fun y => q (d.time y)) := by
  intro p
  rw [total_filter, total_filter, ht]

theorem Tallies.sum_eq (ht : Tallies c d l h) : (l.map c.amount).sum = (h.map d.amount).sum := by
  rw [← total_true, ← total_true, ht]

end
end

/-! ## The order of the queue -/

section
variable [LinearOrder T] {c : Clocked β T M} {l : List β}

def Increasing (c : Clocked β T M) (l : List β) : Prop := l.Pairwise fun x y => c.time x < c.time y

theorem Increasing.push (h : c.Increasing l) {x : β} (hx : ∀ y ∈ l, c.time y < c.time x) :
    c.Increasing (l ++ [x]) :=
  List.pairwise_append.mpr ⟨h, List.pairwise_singleton _ _, fun y hy z hz => by
    rw [List.mem_singleton.mp hz]; exact hx y hy⟩

theorem Increasing.replace {x x' : β} (h : c.Increasing (l ++ [x])) (hx : c.time x' = c.time x) :
    c.Increasing (l ++ [x']) := by
  obtain ⟨hl, -, hlast⟩ := List.pairwise_append.mp h
  refine Increasing.push hl fun y hy => ?_
  rw [hx]
  exact hlast y hy x (List.mem_singleton.mpr rfl)

/-- Old entries are those at the front. -/
theorem Increasing.dropWhile_eq (h : c.Increasing l) (oldest : T) :
    l.dropWhile (fun x => decide (c.time x < oldest)) =
      l.filter fun x => decide (oldest ≤ c.time x) := by
  induction l with
  | nil => rfl
  | cons x l ih =>
    obtain ⟨hx, hl⟩ := List.pairwise_cons.mp h
    by_cases hlt : c.time x < oldest
    · rw [List.dropWhile_cons_of_pos (by simpa using hlt), ih hl,
        List.filter_cons_of_neg (by simpa using hlt)]
    · have hle : oldest ≤ c.time x := not_lt.mp hlt
      rw [List.dropWhile_cons_of_neg (by simpa using hle)]
      refine (List.filter_eq_self.mpr fun y hy => decide_eq_true ?_).symm
      rcases List.mem_cons.mp hy with rfl | hy
      · exact hle
      · exact le_of_lt (lt_of_le_of_lt hle (hx y hy))

end

/-- There is at most one entry for each second of the window. -/
theorem Increasing.length_le {c : Clocked β Nat M} {l : List β} (h : c.Increasing l) {lo w : Nat}
    (hl : ∀ x ∈ l, lo ≤ c.time x ∧ c.time x < lo + w) : l.length ≤ w := by
  have hnodup : (l.map c.time).Nodup :=
    List.pairwise_map.mpr (List.Pairwise.imp (fun hlt => Nat.ne_of_lt hlt) h)
  have hsub : l.map c.time ⊆ List.range' lo w := by
    intro t ht
    obtain ⟨x, hx, rfl⟩ := List.mem_map.mp ht
    exact List.mem_range'_1.mpr (hl x hx)
  have hlen := (List.subperm_of_subset hnodup hsub).length_le
  rwa [List.length_map, List.length_range'] at hlen

end Clocked
end EthIndexer
