import EthIndexer.Core.LTS

/-!
# Refinement by operations, and ledgers

`Refines M apply f op I`: under the invariant `I`, a step of `M` is, on the
abstract states `f` gives, the operation that `op` names for it, or nothing
where it names none. `Refines.run`: a run is the operations of its steps in
order (`opsOf`).

A ledger is a list that grows at its end and is cut back from its end. What lies
below every cut stays as it is (`Refines.take_run`).
-/
namespace EthIndexer

structure Refines {S L T K : Type} (M : LTS S L) (apply : T → K → T) (f : S → T)
    (op : S → L → Option K) (I : S → Prop) : Prop where
  inv : ∀ s l s', I s → M.step s l s' → I s'
  step : ∀ s l s', I s → M.step s l s' → f s' = (op s l).elim (f s) (apply (f s))

/-- The operations of a run of the step function `next`. -/
def opsOf {S L K : Type} (next : S → L → Option S) (op : S → L → Option K) : S → List L → List K
  | _, [] => []
  | s, l :: ls => (op s l).toList ++ (next s l).elim [] fun s' => opsOf next op s' ls

theorem Refines.run {S L T K : Type} {M : LTS S L} {next : S → L → Option S} {apply : T → K → T}
    {f : S → T} {op : S → L → Option K} {I : S → Prop} (h : Refines M apply f op I)
    (hM : ∀ s l s', M.step s l s' → next s l = some s') {s s' : S} {ls : List L}
    (hr : M.Run s ls s') (hI : I s) : f s' = (opsOf next op s ls).foldl apply (f s) := by
  induction hr with
  | nil => rfl
  | @cons s s₁ s₂ l ls hs _ ih =>
    have hstep := h.step s l s₁ hI hs
    rw [ih (h.inv s l s₁ hI hs), hstep, opsOf, hM s l s₁ hs, Option.elim_some, List.foldl_append]
    cases op s l <;> rfl

/-- **What no operation changes while it is there.** `g` reads a part of the
abstract state that an operation may take away or leave as it is; if it is there
in every state of a run, it is the same at both ends. -/
theorem Refines.kept {S L T K β : Type} {M : LTS S L} {apply : T → K → T} {f : S → T}
    {op : S → L → Option K} {I : S → Prop} (h : Refines M apply f op I) {g : T → Option β}
    (hg : ∀ t k, (g t).isSome → (g (apply t k)).isSome → g (apply t k) = g t) {s s' : S}
    {ls : List L} (hr : (M.restrict fun s _ => (g (f s)).isSome).Run s ls s') (hI : I s)
    (hs' : (g (f s')).isSome) : g (f s') = g (f s) := by
  induction hr with
  | nil => rfl
  | @cons s s₁ s₂ l ls hs hr ih =>
    have hs₁ : (g (f s₁)).isSome := by
      cases hr with
      | nil => exact hs'
      | cons hs'' _ => exact hs''.1
    rw [ih (h.inv s l s₁ hI hs.2) hs']
    have hstep := h.step s l s₁ hI hs.2
    cases hop : op s l with
    | none => rw [hstep, hop, Option.elim_none]
    | some k =>
      rw [hop, Option.elim_some] at hstep
      rw [hstep] at hs₁ ⊢
      exact hg _ k hs.1 hs₁

/-! ## Ledgers -/

/-- New entries at the end; only the first `k` entries stay. -/
inductive LedgerOp (α : Type) where
  | append (entries : List α)
  | cut (k : Nat)

namespace Ledger
variable {α : Type}

def apply (l : List α) : LedgerOp α → List α
  | .append entries => l ++ entries
  | .cut k => l.take k

/-- The entries that are there before and after an operation are the same. -/
theorem take_apply {l : List α} {op : LedgerOp α} {k : Nat} (h : k ≤ l.length)
    (h' : k ≤ (apply l op).length) : (apply l op).take k = l.take k := by
  cases op with
  | append entries => exact List.take_append_of_le_length h
  | cut n =>
    simp only [apply, List.length_take] at h' ⊢
    rw [List.take_take, Nat.min_eq_left (by omega)]

/-- The first `k` entries, where there are as many. -/
def lower (k : Nat) (l : List α) : Option (List α) := if k ≤ l.length then some (l.take k) else none

theorem lower_isSome {k : Nat} {l : List α} : (lower k l).isSome ↔ k ≤ l.length := by
  unfold lower
  split <;> simp_all

end Ledger

/-- **Below every cut.** The entries that are there in every state of a run stay as they are. -/
theorem Refines.take_run {S L α : Type} {M : LTS S L} {f : S → List α}
    {op : S → L → Option (LedgerOp α)} {I : S → Prop} (h : Refines M Ledger.apply f op I) {k : Nat}
    {s s' : S} {ls : List L} (hr : (M.restrict fun s _ => k ≤ (f s).length).Run s ls s') (hI : I s)
    (hk : k ≤ (f s').length) : (f s').take k = (f s).take k := by
  have hs : k ≤ (f s).length := by
    cases hr with
    | nil => exact hk
    | cons hs _ => exact hs.1
  have hlower : ∀ l op, (Ledger.lower k l).isSome → (Ledger.lower k (Ledger.apply l op)).isSome →
      Ledger.lower k (Ledger.apply l op) = Ledger.lower k (l : List α) := by
    intro l op hl hl'
    rw [Ledger.lower_isSome] at hl hl'
    rw [Ledger.lower, if_pos hl', Ledger.lower, if_pos hl, Ledger.take_apply hl hl']
  have hkept := h.kept hlower (by simpa only [Ledger.lower_isSome] using hr) hI
    (Ledger.lower_isSome.mpr hk)
  rw [Ledger.lower, if_pos hk, Ledger.lower, if_pos hs, Option.some.injEq] at hkept
  exact hkept

end EthIndexer
