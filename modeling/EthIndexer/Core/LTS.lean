/-!
# Labelled transition systems

The vocabulary every system model of this development is stated in: a set of
initial states and a labelled step relation, runs, reachable states and
inductive invariants.

* `Inductive.reachable`: an inductive predicate holds in every reachable state.
* `run_history`: the same for predicates of the state and of the labels taken
  so far.
* `restrict` keeps only the steps a condition admits, so "in every run whose
  steps all meet `C`" is reachability in `M.restrict C`; `reachable_restrict`:
  a condition that an invariant implies restricts nothing.
* `exec` runs a step function on a list of labels; `exec_run` turns an
  evaluation of it into a run.
-/
namespace EthIndexer

structure LTS (S L : Type) where
  init : S → Prop
  step : S → L → S → Prop

namespace LTS
variable {S L : Type}

inductive Run (M : LTS S L) : S → List L → S → Prop
  | nil (s : S) : Run M s [] s
  | cons {s s' s'' : S} {l : L} {ls : List L} :
      M.step s l s' → Run M s' ls s'' → Run M s (l :: ls) s''

def Reachable (M : LTS S L) (s : S) : Prop := ∃ s₀ ls, M.init s₀ ∧ M.Run s₀ ls s

theorem Run.append {M : LTS S L} {a b c : S} {l₁ l₂ : List L} (h₁ : M.Run a l₁ b)
    (h₂ : M.Run b l₂ c) : M.Run a (l₁ ++ l₂) c := by
  induction h₁ with
  | nil => exact h₂
  | cons hs _ ih => exact .cons hs (ih h₂)

theorem Run.single {M : LTS S L} {a b : S} {l : L} (h : M.step a l b) : M.Run a [l] b :=
  .cons h (.nil b)

theorem reachable_init {M : LTS S L} {s : S} (h : M.init s) : M.Reachable s :=
  ⟨s, [], h, .nil s⟩

theorem Reachable.step {M : LTS S L} {s s' : S} {l : L} (h : M.Reachable s) (hs : M.step s l s') :
    M.Reachable s' := by
  obtain ⟨s₀, ls, h₀, hr⟩ := h
  exact ⟨s₀, ls ++ [l], h₀, hr.append (.single hs)⟩

/-! ## Invariants -/

structure Inductive (M : LTS S L) (I : S → Prop) : Prop where
  init : ∀ s, M.init s → I s
  step : ∀ s l s', I s → M.step s l s' → I s'

/-- What one step preserves, a run preserves. -/
theorem run_preserves {M : LTS S L} {I : S → Prop}
    (hstep : ∀ s l s', I s → M.step s l s' → I s') {s s' : S} {ls : List L}
    (hr : M.Run s ls s') (h : I s) : I s' := by
  induction hr with
  | nil => exact h
  | cons hs _ ih => exact ih (hstep _ _ _ h hs)

theorem Inductive.reachable {M : LTS S L} {I : S → Prop} (hI : M.Inductive I) (s : S)
    (h : M.Reachable s) : I s := by
  obtain ⟨s₀, ls, h₀, hr⟩ := h
  exact run_preserves hI.step hr (hI.init s₀ h₀)

/-- Invariants of the labels taken so far and the state they lead to. -/
theorem run_history {M : LTS S L} {P : List L → S → Prop}
    (hstep : ∀ ls s l s', P ls s → M.step s l s' → P (ls ++ [l]) s') {s s' : S} {ls : List L}
    (hr : M.Run s ls s') : ∀ pre, P pre s → P (pre ++ ls) s' := by
  induction hr with
  | nil => intro pre h; simpa using h
  | cons hs _ ih =>
    intro pre h
    have := ih _ (hstep _ _ _ _ h hs)
    simpa using this

/-! ## Restricting the steps -/

/-- The runs of `M` whose steps all meet `C`. -/
def restrict (M : LTS S L) (C : S → L → Prop) : LTS S L where
  init := M.init
  step s l s' := C s l ∧ M.step s l s'

theorem Reachable.of_restrict {M : LTS S L} {C : S → L → Prop} {s : S}
    (h : (M.restrict C).Reachable s) : M.Reachable s := by
  obtain ⟨s₀, ls, h₀, hr⟩ := h
  refine ⟨s₀, ls, h₀, ?_⟩
  clear h₀
  induction hr with
  | nil => exact .nil _
  | cons hs _ ih => exact .cons hs.2 ih

/-- Along a run that keeps `I`, a condition that `I` implies is met. -/
theorem restrict_run_mono {M : LTS S L} {C D : S → L → Prop} {I : S → Prop}
    (hstep : ∀ s l s', I s → (M.restrict C).step s l s' → I s')
    (hD : ∀ s l, I s → C s l → D s l) {s s' : S} {ls : List L} (hr : (M.restrict C).Run s ls s')
    (h : I s) : (M.restrict D).Run s ls s' := by
  induction hr with
  | nil => exact .nil _
  | cons hs _ ih => exact .cons ⟨hD _ _ h hs.1, hs.2⟩ (ih (hstep _ _ _ h hs))

/-- A weaker condition admits the same runs. -/
theorem Run.weaken {M : LTS S L} {C D : S → L → Prop} {s s' : S} {ls : List L}
    (hr : (M.restrict C).Run s ls s') (hD : ∀ s l, C s l → D s l) : (M.restrict D).Run s ls s' :=
  restrict_run_mono (I := fun _ => True) (fun _ _ _ _ _ => trivial) (fun s l _ => hD s l) hr trivial

theorem Reachable.weaken {M : LTS S L} {C D : S → L → Prop} {s : S}
    (h : (M.restrict C).Reachable s) (hD : ∀ s l, C s l → D s l) : (M.restrict D).Reachable s := by
  obtain ⟨s₀, ls, h₀, hr⟩ := h
  exact ⟨s₀, ls, h₀, hr.weaken hD⟩

/-- Where an invariant of the restricted system implies the condition, it restricts nothing. -/
theorem reachable_restrict {M : LTS S L} {C : S → L → Prop} {I : S → Prop}
    (hI : (M.restrict C).Inductive I) (hC : ∀ s l, I s → C s l) {s : S} (h : M.Reachable s) :
    (M.restrict C).Reachable s := by
  obtain ⟨s₀, ls, h₀, hr⟩ := h
  have hrun : (M.restrict C).Run s₀ ls s := by
    have hi := hI.init s₀ h₀
    clear h₀
    induction hr with
    | nil => exact .nil _
    | @cons a b _ l _ hs _ ih =>
      have hs' : (M.restrict C).step a l b := ⟨hC a l hi, hs⟩
      exact .cons hs' (ih (hI.step a l b hi hs'))
  exact ⟨s₀, ls, h₀, hrun⟩

/-! ## Systems given by a step function -/

def ofFn (init : S → Prop) (f : S → L → Option S) : LTS S L where
  init := init
  step s l s' := f s l = some s'

/-- Take the labels in order; `none` when one is not enabled. -/
def exec (f : S → L → Option S) : S → List L → Option S
  | s, [] => some s
  | s, l :: ls => (f s l).bind fun s' => exec f s' ls

/-- The steps of `f` that meet `C`. -/
def restrictFn (f : S → L → Option S) (C : S → L → Prop) [∀ s l, Decidable (C s l)] (s : S)
    (l : L) : Option S :=
  if C s l then f s l else none

theorem restrictFn_step {init : S → Prop} {f : S → L → Option S} {C : S → L → Prop}
    [∀ s l, Decidable (C s l)] (s : S) (l : L) (s' : S) (h : restrictFn f C s l = some s') :
    ((ofFn init f).restrict C).step s l s' := by
  unfold restrictFn at h
  split at h
  · rename_i hC; exact ⟨hC, h⟩
  · cases h

theorem exec_run {M : LTS S L} {f : S → L → Option S}
    (hf : ∀ s l s', f s l = some s' → M.step s l s') :
    ∀ {s s' : S} {ls : List L}, exec f s ls = some s' → M.Run s ls s'
  | s, s', [], h => by simp only [exec, Option.some.injEq] at h; subst h; exact .nil _
  | s, s', l :: ls, h => by
    simp only [exec, Option.bind_eq_some_iff] at h
    obtain ⟨s₁, h₁, h₂⟩ := h
    exact .cons (hf _ _ _ h₁) (exec_run hf h₂)

/-- An evaluation from an initial state, with what it shows of the last state. -/
theorem reachable_of_exec {β : Type} {M : LTS S L} {f : S → L → Option S}
    (hf : ∀ s l s', f s l = some s' → M.step s l s') {s₀ : S} (hi : M.init s₀) {ls : List L}
    {g : S → β} {b : β} (h : (exec f s₀ ls).map g = some b) : ∃ s, M.Reachable s ∧ g s = b := by
  obtain ⟨s, hs, hg⟩ := Option.map_eq_some_iff.mp h
  exact ⟨s, ⟨s₀, ls, hi, exec_run hf hs⟩, hg⟩

end LTS
end EthIndexer
