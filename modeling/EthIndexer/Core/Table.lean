import Mathlib.Data.Finset.Card
import Mathlib.Data.List.Nodup

/-!
# Tables with a primary key

A table is a list of rows whose keys are pairwise distinct; the distinctness is
a field, so no operation can build a table that breaks its primary key. The
operations are the ones SQL gives a keyed table:

* `insertIgnore`: `INSERT ... ON CONFLICT DO NOTHING`,
* `upsert`: `INSERT ... ON CONFLICT DO UPDATE`,
* `deleteWhere`: `DELETE ... WHERE`.

Row order carries no meaning. Each operation has a lemma for its rows and one
for its keys; `insertAllIgnore_fresh` and `upsertAll_fresh` say that a batch of
fresh keys is appended as it is.
-/
namespace EthIndexer

structure Table {κ α : Type} (key : α → κ) where
  rows : List α
  nodup : (rows.map key).Nodup

namespace Table
variable {κ α : Type} {key : α → κ}

def empty : Table key := ⟨[], List.nodup_nil⟩

def keys (t : Table key) : List κ := t.rows.map key

theorem mem_keys {t : Table key} {k : κ} : k ∈ t.keys ↔ ∃ a ∈ t.rows, key a = k := List.mem_map

theorem key_mem {t : Table key} {a : α} (h : a ∈ t.rows) : key a ∈ t.keys :=
  List.mem_map_of_mem h

/-- Two rows with one key are one row. -/
theorem eq_of_key {t : Table key} {a b : α} (ha : a ∈ t.rows) (hb : b ∈ t.rows)
    (h : key a = key b) : a = b :=
  List.inj_on_of_nodup_map t.nodup ha hb h

theorem nodup_snoc {t : Table key} {a : α} (h : key a ∉ t.keys) :
    ((t.rows ++ [a]).map key).Nodup := by
  rw [List.map_append, List.map_singleton]
  exact List.nodup_append'.mpr ⟨t.nodup, List.nodup_singleton _, List.disjoint_singleton.mpr h⟩

/-! ## `DELETE ... WHERE` -/

def deleteWhere (t : Table key) (p : α → Bool) : Table key :=
  ⟨t.rows.filter fun a => !p a, (List.filter_sublist.map key).nodup t.nodup⟩

theorem mem_deleteWhere {t : Table key} {p : α → Bool} {a : α} :
    a ∈ (t.deleteWhere p).rows ↔ a ∈ t.rows ∧ p a = false := by
  simp [deleteWhere, List.mem_filter]

/-- A deletion by key: the keys that stay. -/
theorem keys_deleteWhere {t : Table key} {p : κ → Bool} {k : κ} :
    k ∈ (t.deleteWhere fun a => p (key a)).keys ↔ k ∈ t.keys ∧ p k = false := by
  simp only [mem_keys, mem_deleteWhere]
  constructor
  · rintro ⟨a, ⟨ha, hp⟩, rfl⟩; exact ⟨⟨a, ha, rfl⟩, hp⟩
  · rintro ⟨⟨a, ha, rfl⟩, hp⟩; exact ⟨a, ⟨ha, hp⟩, rfl⟩

theorem deleteWhere_idem (t : Table key) (p : α → Bool) :
    (t.deleteWhere p).deleteWhere p = t.deleteWhere p := by
  simp [deleteWhere, List.filter_filter]

section
variable [DecidableEq κ]

/-! ## Lookup -/

def get? (t : Table key) (k : κ) : Option α := t.rows.find? fun a => decide (key a = k)

theorem get?_eq_some {t : Table key} {k : κ} {a : α} :
    t.get? k = some a ↔ a ∈ t.rows ∧ key a = k := by
  constructor
  · intro h
    exact ⟨List.mem_of_find?_eq_some h, by simpa using List.find?_some h⟩
  · rintro ⟨ha, hk⟩
    cases hf : t.get? k with
    | none =>
      have := List.find?_eq_none.mp hf a ha
      simp [hk] at this
    | some b =>
      have hb := List.mem_of_find?_eq_some hf
      have hbk : key b = k := by simpa using List.find?_some hf
      rw [eq_of_key hb ha (hbk.trans hk.symm)]

theorem get?_eq_none {t : Table key} {k : κ} : t.get? k = none ↔ k ∉ t.keys := by
  simp only [get?, List.find?_eq_none, decide_eq_true_eq, mem_keys]
  exact ⟨fun h ⟨a, ha, hk⟩ => h a ha hk, fun h a ha hk => h ⟨a, ha, hk⟩⟩

/-! ## `INSERT ... ON CONFLICT DO NOTHING` -/

def insertIgnore (t : Table key) (a : α) : Table key :=
  if h : key a ∈ t.keys then t
  else ⟨t.rows ++ [a], nodup_snoc h⟩

def insertAllIgnore (t : Table key) (as : List α) : Table key := as.foldl insertIgnore t

theorem insertIgnore_rows (t : Table key) (a : α) :
    (t.insertIgnore a).rows = if key a ∈ t.keys then t.rows else t.rows ++ [a] := by
  unfold insertIgnore; split <;> rfl

theorem mem_of_insertIgnore {t : Table key} {a b : α} (h : b ∈ (t.insertIgnore a).rows) :
    b ∈ t.rows ∨ b = a := by
  rw [insertIgnore_rows] at h
  split at h
  · exact .inl h
  · simpa using h

theorem mem_of_insertAllIgnore {t : Table key} {as : List α} {b : α}
    (h : b ∈ (t.insertAllIgnore as).rows) : b ∈ t.rows ∨ b ∈ as := by
  induction as generalizing t with
  | nil => exact .inl h
  | cons a as ih =>
    rcases ih h with h | h
    · rcases mem_of_insertIgnore h with h | rfl
      · exact .inl h
      · exact .inr List.mem_cons_self
    · exact .inr (List.mem_cons_of_mem _ h)

theorem insertIgnore_of_mem {t : Table key} {a : α} (h : key a ∈ t.keys) : t.insertIgnore a = t := by
  unfold insertIgnore; rw [dif_pos h]

theorem keys_insertIgnore {t : Table key} {a : α} {k : κ} :
    k ∈ (t.insertIgnore a).keys ↔ k ∈ t.keys ∨ k = key a := by
  by_cases h : key a ∈ t.keys
  · rw [insertIgnore_of_mem h]
    exact ⟨.inl, fun hk => hk.elim id fun he => he ▸ h⟩
  · rw [keys, insertIgnore_rows, if_neg h]
    simp [keys]

theorem keys_insertAllIgnore {t : Table key} {as : List α} {k : κ} :
    k ∈ (t.insertAllIgnore as).keys ↔ k ∈ t.keys ∨ k ∈ as.map key := by
  induction as generalizing t with
  | nil => simp [insertAllIgnore]
  | cons a as ih =>
    have := ih (t := t.insertIgnore a)
    simp only [insertAllIgnore, List.foldl_cons, keys_insertIgnore, List.map_cons,
      List.mem_cons] at this ⊢
    rw [this, or_assoc]

/-- A batch whose keys are all there changes nothing. -/
theorem insertAllIgnore_of_mem {t : Table key} {as : List α} (h : ∀ a ∈ as, key a ∈ t.keys) :
    t.insertAllIgnore as = t := by
  induction as with
  | nil => rfl
  | cons a as ih =>
    rw [insertAllIgnore, List.foldl_cons, insertIgnore_of_mem (h a List.mem_cons_self)]
    exact ih fun b hb => h b (List.mem_cons_of_mem _ hb)

theorem insertAllIgnore_idem (t : Table key) (as : List α) :
    (t.insertAllIgnore as).insertAllIgnore as = t.insertAllIgnore as :=
  insertAllIgnore_of_mem fun _ ha => keys_insertAllIgnore.mpr (.inr (List.mem_map_of_mem ha))

/-- The keys a batch adds, each once. -/
def absentKeys (t : Table key) (as : List α) : Finset κ := (as.map key).toFinset \ t.keys.toFinset

theorem card_absentKeys_le (t : Table key) (as : List α) : (t.absentKeys as).card ≤ as.length := by
  have h := List.toFinset_card_le (as.map key)
  rw [List.length_map] at h
  exact (Finset.card_le_card Finset.sdiff_subset).trans h

theorem absentKeys_eq_empty {t : Table key} {as : List α} (h : ∀ a ∈ as, key a ∈ t.keys) :
    t.absentKeys as = ∅ := by
  rw [absentKeys, Finset.sdiff_eq_empty_iff_subset]
  intro k hk
  obtain ⟨a, ha, rfl⟩ := List.mem_map.mp (List.mem_toFinset.mp hk)
  exact List.mem_toFinset.mpr (h a ha)

theorem absentKeys_fresh {t : Table key} {as : List α} (h : ∀ a ∈ as, key a ∉ t.keys) :
    t.absentKeys as = (as.map key).toFinset := by
  rw [absentKeys, Finset.sdiff_eq_self_iff_disjoint, Finset.disjoint_left]
  intro k hk
  obtain ⟨a, ha, rfl⟩ := List.mem_map.mp (List.mem_toFinset.mp hk)
  exact fun hmem => h a ha (List.mem_toFinset.mp hmem)

/-- Two ways to name the elements of a list that tell the same elements apart. -/
theorem card_names_congr {ι μ : Type} [DecidableEq μ] {f : ι → κ} {g : ι → μ} {l : List ι}
    (h : ∀ a ∈ l, ∀ b ∈ l, f a = f b ↔ g a = g b) :
    (l.map f).toFinset.card = (l.map g).toFinset.card := by
  induction l with
  | nil => rfl
  | cons a l ih =>
    have ih := ih fun b hb c hc => h b (List.mem_cons_of_mem _ hb) c (List.mem_cons_of_mem _ hc)
    have hmem : f a ∈ (l.map f).toFinset ↔ g a ∈ (l.map g).toFinset := by
      simp only [List.mem_toFinset, List.mem_map]
      refine exists_congr fun b => and_congr_right fun hb => ?_
      exact h b (List.mem_cons_of_mem _ hb) a List.mem_cons_self
    simp only [List.map_cons, List.toFinset_cons, Finset.card_insert_eq_ite, hmem, ih]

/-- How many rows a batch adds, with repeated keys inside the batch. -/
theorem length_insertAllIgnore (t : Table key) (as : List α) :
    (t.insertAllIgnore as).rows.length = t.rows.length + (t.absentKeys as).card := by
  have hlen : ∀ u : Table key, u.rows.length = u.keys.toFinset.card := fun u => by
    rw [keys, List.toFinset_card_of_nodup u.nodup, List.length_map]
  have hkeys : (t.insertAllIgnore as).keys.toFinset = (as.map key).toFinset ∪ t.keys.toFinset := by
    ext k
    simp only [List.mem_toFinset, keys_insertAllIgnore, Finset.mem_union, or_comm]
  rw [hlen, hkeys, hlen t, absentKeys, ← Finset.card_sdiff_add_card, Nat.add_comm]

/-- The first element of each key. -/
def firstByKey (key : α → κ) : List α → List α
  | [] => []
  | a :: as => a :: (firstByKey key as).filter fun b => decide (key b ≠ key a)

/-- A batch appends the first element of each key that is not there. -/
theorem insertAllIgnore_rows (t : Table key) (as : List α) :
    (t.insertAllIgnore as).rows =
      t.rows ++ (firstByKey key as).filter fun b => decide (key b ∉ t.keys) := by
  induction as generalizing t with
  | nil => simp [insertAllIgnore, firstByKey]
  | cons a as ih =>
    rw [insertAllIgnore, List.foldl_cons]
    refine (ih (t.insertIgnore a)).trans ?_
    rw [firstByKey, insertIgnore_rows]
    by_cases h : key a ∈ t.keys
    · rw [insertIgnore_of_mem h, if_pos h, List.filter_cons_of_neg (by simpa using h),
        List.filter_filter]
      refine congrArg (t.rows ++ ·) (List.filter_congr fun b _ => ?_)
      have hne : key b ∉ t.keys → key b ≠ key a := fun hb he => hb (he ▸ h)
      by_cases hb : key b ∈ t.keys
      · simp [hb]
      · simp [hb, hne hb]
    · rw [if_neg h, List.filter_cons_of_pos (by simpa using h), List.filter_filter,
        List.append_assoc, List.singleton_append]
      refine congrArg (fun l => t.rows ++ a :: l) (List.filter_congr fun b _ => ?_)
      simp [keys_insertIgnore, not_or]

theorem firstByKey_sublist (as : List α) : (firstByKey key as).Sublist as := by
  induction as with
  | nil => exact .slnil
  | cons a as ih => exact (List.filter_sublist.trans ih).cons_cons a

theorem nodup_firstByKey (as : List α) : ((firstByKey key as).map key).Nodup := by
  have h := ((empty : Table key).insertAllIgnore as).nodup
  rw [insertAllIgnore_rows] at h
  simpa [empty, keys] using h

/-- A batch of distinct fresh keys is appended. -/
theorem insertAllIgnore_fresh {t : Table key} {as : List α} (hn : (as.map key).Nodup)
    (hf : ∀ a ∈ as, key a ∉ t.keys) : (t.insertAllIgnore as).rows = t.rows ++ as := by
  induction as generalizing t with
  | nil => simp [insertAllIgnore]
  | cons a as ih =>
    have ha : (t.insertIgnore a).rows = t.rows ++ [a] := by
      rw [insertIgnore_rows, if_neg (hf a List.mem_cons_self)]
    simp only [List.map_cons, List.nodup_cons, List.mem_map, not_exists, not_and] at hn
    have := ih (t := t.insertIgnore a) hn.2 (by
      intro b hb hk
      simp only [keys, ha, List.map_append, List.mem_append, List.map_singleton,
        List.mem_singleton] at hk
      rcases hk with hk | hk
      · exact hf b (List.mem_cons_of_mem _ hb) hk
      · exact hn.1 b hb hk)
    simpa [insertAllIgnore, ha] using this

/-! ## `INSERT ... ON CONFLICT DO UPDATE` -/

/-- The row with the key of `a` becomes `a`. -/
def replace (rows : List α) (key : α → κ) (a : α) : List α :=
  rows.map fun b => if key b = key a then a else b

theorem replace_keys (rows : List α) (a : α) : (replace rows key a).map key = rows.map key := by
  simp only [replace, List.map_map]
  apply List.map_congr_left
  intro b _
  simp only [Function.comp]
  split
  · rename_i h; exact h.symm
  · rfl

def upsert (t : Table key) (a : α) : Table key :=
  if h : key a ∈ t.keys then ⟨replace t.rows key a, by rw [replace_keys]; exact t.nodup⟩
  else ⟨t.rows ++ [a], nodup_snoc h⟩

def upsertAll (t : Table key) (as : List α) : Table key := as.foldl upsert t

theorem mem_upsert {t : Table key} {a b : α} :
    b ∈ (t.upsert a).rows ↔ b = a ∨ (b ∈ t.rows ∧ key b ≠ key a) := by
  unfold upsert
  split
  · rename_i h
    obtain ⟨c, hc, hck⟩ := mem_keys.mp h
    simp only [replace, List.mem_map]
    constructor
    · rintro ⟨d, hd, rfl⟩
      split
      · exact .inl rfl
      · rename_i hne; exact .inr ⟨hd, hne⟩
    · rintro (rfl | ⟨hb, hne⟩)
      · exact ⟨c, hc, by rw [if_pos hck]⟩
      · exact ⟨b, hb, by rw [if_neg hne]⟩
  · rename_i h
    simp only [List.mem_append, List.mem_singleton]
    constructor
    · rintro (hb | rfl)
      · refine .inr ⟨hb, fun he => h ?_⟩
        rw [← he]; exact key_mem hb
      · exact .inl rfl
    · rintro (rfl | ⟨hb, -⟩)
      · exact .inr rfl
      · exact .inl hb

theorem keys_upsert {t : Table key} {a : α} {k : κ} :
    k ∈ (t.upsert a).keys ↔ k ∈ t.keys ∨ k = key a := by
  simp only [mem_keys, mem_upsert]
  constructor
  · rintro ⟨b, rfl | ⟨hb, -⟩, rfl⟩
    · exact .inr rfl
    · exact .inl ⟨b, hb, rfl⟩
  · rintro (⟨b, hb, rfl⟩ | rfl)
    · by_cases h : key b = key a
      · exact ⟨a, .inl rfl, h.symm⟩
      · exact ⟨b, .inr ⟨hb, h⟩, rfl⟩
    · exact ⟨a, .inl rfl, rfl⟩

theorem keys_upsertAll {t : Table key} {as : List α} {k : κ} :
    k ∈ (t.upsertAll as).keys ↔ k ∈ t.keys ∨ k ∈ as.map key := by
  induction as generalizing t with
  | nil => simp [upsertAll]
  | cons a as ih =>
    have := ih (t := t.upsert a)
    simp only [upsertAll, List.foldl_cons, keys_upsert, List.map_cons, List.mem_cons] at this ⊢
    rw [this, or_assoc]

theorem mem_of_upsertAll {t : Table key} {as : List α} {b : α}
    (h : b ∈ (t.upsertAll as).rows) : b ∈ t.rows ∨ b ∈ as := by
  induction as generalizing t with
  | nil => exact .inl h
  | cons a as ih =>
    rcases ih h with h | h
    · rcases mem_upsert.mp h with h | ⟨h, -⟩
      · exact .inr (h ▸ List.mem_cons_self)
      · exact .inl h
    · exact .inr (List.mem_cons_of_mem _ h)

/-- A batch of distinct keys: its rows, and the old rows it does not name. -/
theorem mem_upsertAll {t : Table key} {as : List α} (hn : (as.map key).Nodup) {b : α} :
    b ∈ (t.upsertAll as).rows ↔ b ∈ as ∨ (b ∈ t.rows ∧ key b ∉ as.map key) := by
  induction as generalizing t with
  | nil => simp [upsertAll]
  | cons a as ih =>
    simp only [List.map_cons, List.nodup_cons] at hn
    have := ih (t := t.upsert a) hn.2
    simp only [upsertAll, List.foldl_cons, mem_upsert] at this ⊢
    rw [this]
    simp only [List.mem_cons, List.map_cons, not_or]
    constructor
    · rintro (h | ⟨rfl | ⟨h, hne⟩, hk⟩)
      · exact .inl (.inr h)
      · exact .inl (.inl rfl)
      · exact .inr ⟨h, hne, hk⟩
    · rintro ((rfl | h) | ⟨h, hne, hk⟩)
      · exact .inr ⟨.inl rfl, hn.1⟩
      · exact .inl h
      · exact .inr ⟨.inr ⟨h, hne⟩, hk⟩

/-- Rows that are there stay as they are. -/
theorem upsert_of_mem {t : Table key} {a : α} (h : a ∈ t.rows) : t.upsert a = t := by
  have hr : replace t.rows key a = t.rows := by
    refine (List.map_congr_left fun b hb => ?_).trans (List.map_id _)
    split
    · rename_i he; exact eq_of_key h hb he.symm
    · rfl
  unfold upsert
  rw [dif_pos (key_mem h)]
  obtain ⟨rows, nodup⟩ := t
  congr

theorem upsertAll_of_mem {t : Table key} {as : List α} (h : ∀ a ∈ as, a ∈ t.rows) :
    t.upsertAll as = t := by
  induction as with
  | nil => rfl
  | cons a as ih =>
    rw [upsertAll, List.foldl_cons, upsert_of_mem (h a List.mem_cons_self)]
    exact ih fun b hb => h b (List.mem_cons_of_mem _ hb)

theorem upsertAll_idem (t : Table key) {as : List α} (hn : (as.map key).Nodup) :
    (t.upsertAll as).upsertAll as = t.upsertAll as :=
  upsertAll_of_mem fun _ ha => (mem_upsertAll hn).mpr (.inl ha)

theorem upsert_fresh {t : Table key} {a : α} (h : key a ∉ t.keys) :
    (t.upsert a).rows = t.rows ++ [a] := by
  unfold upsert; rw [dif_neg h]

/-- A batch of distinct fresh keys is appended. -/
theorem upsertAll_fresh {t : Table key} {as : List α} (hn : (as.map key).Nodup)
    (hf : ∀ a ∈ as, key a ∉ t.keys) : (t.upsertAll as).rows = t.rows ++ as := by
  induction as generalizing t with
  | nil => simp [upsertAll]
  | cons a as ih =>
    have ha := upsert_fresh (hf a List.mem_cons_self)
    simp only [List.map_cons, List.nodup_cons, List.mem_map, not_exists, not_and] at hn
    have := ih (t := t.upsert a) hn.2 (by
      intro b hb hk
      rcases keys_upsert.mp hk with hk | hk
      · exact hf b (List.mem_cons_of_mem _ hb) hk
      · exact hn.1 b hb hk)
    simpa [upsertAll, ha] using this

end
end Table
end EthIndexer
