import Mathlib.Data.List.Nodup
import Mathlib.Data.List.Pairwise
import Mathlib.Order.Lattice

/-!
# Tables partitioned by range

A `Catalog` is what the server knows of the partitions of one table. It keeps
their names distinct and their ranges apart, and refuses what would break that;
both are fields. `createIfNotExists` looks at the name alone: where it is taken,
whatever its range, nothing is created.

So a program that creates partitions on demand has to ask for ranges that agree
with their names and do not overlap. `Tiling` is this condition on all it may ever
ask for; under it a creation never fails (`createAll_ok`), and afterwards each
requested partition is there, and each key of it is in that partition only
(`existsUnique_covers`).
-/
namespace EthIndexer

/-- `name ... FOR VALUES FROM (lo) TO (hi)`; the upper bound is exclusive. -/
structure RangePartition (ν α : Type) where
  name : ν
  lo : α
  hi : α
  deriving DecidableEq

namespace RangePartition
variable {ν α : Type} [LinearOrder α]

def Covers (p : RangePartition ν α) (k : α) : Prop := p.lo ≤ k ∧ k < p.hi

/-- The ranges do not overlap. -/
def Apart (p q : RangePartition ν α) : Prop := p.hi ≤ q.lo ∨ q.hi ≤ p.lo

instance (p : RangePartition ν α) (k : α) : Decidable (p.Covers k) :=
  inferInstanceAs (Decidable (_ ∧ _))

instance (p q : RangePartition ν α) : Decidable (p.Apart q) :=
  inferInstanceAs (Decidable (_ ∨ _))

instance : Std.Symm (@Apart ν α _) := ⟨fun _ _ h => Or.symm h⟩

theorem Apart.not_covers {p q : RangePartition ν α} (h : p.Apart q) {k : α} (hp : p.Covers k) :
    ¬ q.Covers k := by
  intro hq
  rcases h with h | h
  · exact absurd (lt_of_le_of_lt hq.1 hp.2) (not_lt.mpr h)
  · exact absurd (lt_of_le_of_lt hp.1 hq.2) (not_lt.mpr h)

/-! ## Catalogs -/

structure Catalog (ν α : Type) [LinearOrder α] where
  partitions : List (RangePartition ν α)
  names : (partitions.map RangePartition.name).Nodup
  apart : partitions.Pairwise Apart

namespace Catalog

def empty : Catalog ν α := ⟨[], List.nodup_nil, .nil⟩

/-- The partition a row with this key is stored in. -/
def route (c : Catalog ν α) (k : α) : Option (RangePartition ν α) :=
  c.partitions.find? fun p => decide (p.Covers k)

theorem covers_unique {c : Catalog ν α} {p q : RangePartition ν α} {k : α}
    (hp : p ∈ c.partitions) (hq : q ∈ c.partitions) (hpk : p.Covers k) (hqk : q.Covers k) :
    p = q := by
  by_contra hne
  exact (c.apart.forall hp hq hne).not_covers hpk hqk

theorem route_eq_some {c : Catalog ν α} {p : RangePartition ν α} {k : α} :
    c.route k = some p ↔ p ∈ c.partitions ∧ p.Covers k := by
  refine ⟨fun h => ⟨List.mem_of_find?_eq_some h, by simpa using List.find?_some h⟩, ?_⟩
  intro ⟨hp, hk⟩
  cases hr : c.route k with
  | none => exact absurd hk (by simpa using List.find?_eq_none.mp hr p hp)
  | some q =>
    have hq : q.Covers k := by simpa using List.find?_some hr
    rw [covers_unique (List.mem_of_find?_eq_some hr) hp hq hk]

/-- A key of a partition that is there is in this partition only. -/
theorem existsUnique_covers {c : Catalog ν α} {p : RangePartition ν α} {k : α}
    (hp : p ∈ c.partitions) (hk : p.Covers k) :
    ∃! q, q ∈ c.partitions ∧ q.Covers k :=
  ⟨p, ⟨hp, hk⟩, fun _ hq => covers_unique hq.1 hp hq.2 hk⟩

/-! ## `CREATE TABLE IF NOT EXISTS ... PARTITION OF` -/

section
variable [DecidableEq ν]

def createIfNotExists (c : Catalog ν α) (p : RangePartition ν α) : Except String (Catalog ν α) :=
  if hname : p.name ∈ c.partitions.map RangePartition.name then .ok c
  else if p.hi ≤ p.lo then .error "empty range bound specified for partition"
  else if hapart : ∀ q ∈ c.partitions, p.Apart q then
    .ok ⟨p :: c.partitions, List.nodup_cons.mpr ⟨hname, c.names⟩,
      List.pairwise_cons.mpr ⟨hapart, c.apart⟩⟩
  else .error "partition would overlap"

def createAll (c : Catalog ν α) (ps : List (RangePartition ν α)) : Except String (Catalog ν α) :=
  ps.foldlM createIfNotExists c

/-- All that may ever be requested: no empty range, one range for each name, and
different partitions apart. -/
structure Tiling (P : RangePartition ν α → Prop) : Prop where
  nonempty : ∀ p, P p → p.lo < p.hi
  named : ∀ p q, P p → P q → p.name = q.name → p = q
  apart : ∀ p q, P p → P q → p = q ∨ p.Apart q

variable {P : RangePartition ν α → Prop}

theorem create_ok (hP : Tiling P) {c : Catalog ν α} (hc : ∀ q ∈ c.partitions, P q)
    {p : RangePartition ν α} (hp : P p) : ∃ c', c.createIfNotExists p = .ok c' ∧
      ∀ q, q ∈ c'.partitions ↔ q = p ∨ q ∈ c.partitions := by
  unfold createIfNotExists
  split
  · rename_i hname
    obtain ⟨r, hr, he⟩ := List.mem_map.mp hname
    have hmem : p ∈ c.partitions := hP.named r p (hc r hr) hp he ▸ hr
    exact ⟨c, rfl, fun q => ⟨.inr, fun h => h.elim (fun he => he ▸ hmem) id⟩⟩
  · rename_i hname
    have hapart : ∀ q ∈ c.partitions, p.Apart q := by
      intro q hq
      rcases hP.apart p q hp (hc q hq) with he | h
      · exact absurd (List.mem_map_of_mem (he ▸ hq)) hname
      · exact h
    rw [if_neg (not_le.mpr (hP.nonempty p hp)), dif_pos hapart]
    exact ⟨_, rfl, fun q => List.mem_cons⟩

theorem createAll_ok (hP : Tiling P) {c : Catalog ν α} (hc : ∀ q ∈ c.partitions, P q)
    {ps : List (RangePartition ν α)} (hps : ∀ p ∈ ps, P p) : ∃ c', c.createAll ps = .ok c' ∧
      ∀ q, q ∈ c'.partitions ↔ q ∈ ps ∨ q ∈ c.partitions := by
  induction ps generalizing c with
  | nil => exact ⟨c, rfl, fun q => by simp⟩
  | cons p ps ih =>
    obtain ⟨hp, hps⟩ := List.forall_mem_cons.mp hps
    obtain ⟨c₁, h₁, hmem₁⟩ := create_ok hP hc hp
    have hc₁ : ∀ q ∈ c₁.partitions, P q := fun q hq =>
      ((hmem₁ q).mp hq).elim (fun he => he ▸ hp) (hc q)
    obtain ⟨c₂, h₂, hmem₂⟩ := ih hc₁ hps
    refine ⟨c₂, ?_, fun q => ?_⟩
    · rw [createAll, List.foldlM_cons, h₁]
      exact h₂
    · rw [hmem₂, hmem₁, List.mem_cons, or_assoc]
      exact or_left_comm

end
end Catalog
end RangePartition
end EthIndexer
