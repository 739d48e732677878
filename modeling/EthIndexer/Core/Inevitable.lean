import Mathlib.Order.Basic
import EthIndexer.Core.LTS

/-!
# Inevitability

`M.Inevitable P s`: whatever steps are taken from `s`, a state with `P` comes.
Along the way some step is always enabled, and no run goes on forever without
`P`.

`inevitable_of_rank` is the rule: every step lowers a well-founded rank, and a
state without `P` has a step. `lex_of_le` compares lexicographic ranks whose
first component does not grow.
-/
namespace EthIndexer

theorem lex_of_le {α β : Type} [PartialOrder α] {r : β → β → Prop} {a a' : α} {b b' : β}
    (h : a' ≤ a) (hr : r b' b) : Prod.Lex (· < ·) r (a', b') (a, b) := by
  rcases h.lt_or_eq with h | h
  · exact .left _ _ h
  · subst h
    exact .right _ hr

namespace LTS
variable {S L : Type}

inductive Inevitable (M : LTS S L) (P : S → Prop) : S → Prop
  | now {s : S} (h : P s) : Inevitable M P s
  | later {s : S} (enabled : ∃ l s', M.step s l s')
      (next : ∀ l s', M.step s l s' → Inevitable M P s') : Inevitable M P s

/-- **Ranks.** Under an invariant that keeps the rank falling and a step enabled
short of `P`, a state with both comes. -/
theorem inevitable_of_rank {M : LTS S L} {α : Type} {r : α → α → Prop} (hr : WellFounded r)
    (rank : S → α) {I P : S → Prop}
    (hstep : ∀ s l s', I s → M.step s l s' → I s' ∧ r (rank s') (rank s))
    (hlive : ∀ s, I s → ¬ P s → ∃ l s', M.step s l s') {s : S} (h : I s) :
    M.Inevitable (fun s => I s ∧ P s) s := by
  induction hk : rank s using hr.induction generalizing s with
  | h a ih =>
    by_cases hP : P s
    · exact .now ⟨h, hP⟩
    · refine .later (hlive s h hP) fun l s' hs => ?_
      obtain ⟨h', hlt⟩ := hstep s l s' h hs
      exact ih (rank s') (hk ▸ hlt) h' rfl

theorem Inevitable.mono {M : LTS S L} {P Q : S → Prop} {s : S} (h : M.Inevitable P s)
    (hPQ : ∀ s, P s → Q s) : M.Inevitable Q s := by
  induction h with
  | now h => exact .now (hPQ _ h)
  | later he _ ih => exact .later he ih

theorem Inevitable.exists_run {M : LTS S L} {P : S → Prop} {s : S} (h : M.Inevitable P s) :
    ∃ ls s', M.Run s ls s' ∧ P s' := by
  induction h with
  | now h => exact ⟨[], _, .nil _, h⟩
  | later he _ ih =>
    obtain ⟨l, s', hs⟩ := he
    obtain ⟨ls, s'', hr, hP⟩ := ih l s' hs
    exact ⟨l :: ls, s'', .cons hs hr, hP⟩

end LTS
end EthIndexer
