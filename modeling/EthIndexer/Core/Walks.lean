import EthIndexer.Core.LTS
import EthIndexer.Core.Program

/-!
# Programs as runs

A program makes its calls one after the other; a labelled transition system has
every position between two calls as a state. `Walks M view P p T`: from a state
that satisfies `P`, whichever calls of `p` fail, what `p` does is a run of `M`.
The run ends with the committed state of `p`, where `p` succeeds with `a` in a
state that satisfies `T a`, and what another connection sees meanwhile are the
views of states of that run, in its order (`Meets`).

There is a rule for `bind`, for an answer from outside (`ofExcept`), for reads
and for what is atomic. `lives_meets` puts processes that end anywhere and start
again into one run.
-/
namespace EthIndexer

namespace LTS
variable {S L D : Type}

/-- On a run from `s` to `s'`, states with these views come in this order. -/
inductive Meets (M : LTS S L) (view : S → D) : S → List D → S → Prop
  | stop {s s' : S} {ls : List L} (h : M.Run s ls s') : Meets M view s [] s'
  | meet {s t s' : S} {ls : List L} {ds : List D} (h : M.Run s ls t) (hds : Meets M view t ds s') :
      Meets M view s (view t :: ds) s'

section
variable {S' L' : Type} {M : LTS S L} {M' : LTS S' L'} {view : S → D} {view' : S' → D} {s t s' : S}
  {ds ds' : List D} {f : S → S'} {g : L → L'}

/-- A run, seen from a system that has all of its steps. -/
theorem Run.map (hf : ∀ s l s', M.step s l s' → M'.step (f s) (g l) (f s')) {ls : List L}
    (h : M.Run s ls s') : M'.Run (f s) (ls.map g) (f s') := by
  induction h with
  | nil => exact .nil _
  | cons hs _ ih => exact .cons (hf _ _ _ hs) ih

theorem Meets.map (hf : ∀ s l s', M.step s l s' → M'.step (f s) (g l) (f s'))
    (hv : ∀ s, view' (f s) = view s) (h : M.Meets view s ds s') :
    M'.Meets view' (f s) ds (f s') := by
  induction h with
  | stop hr => exact .stop (hr.map hf)
  | meet hr _ ih => exact hv _ ▸ .meet (hr.map hf) ih

theorem Meets.refl (s : S) : M.Meets view s [] s := .stop (.nil s)

theorem Meets.after {ls : List L} (hr : M.Run s ls t) (h : M.Meets view t ds s') :
    M.Meets view s ds s' := by
  cases h with
  | stop h => exact .stop (hr.append h)
  | meet h hds => exact .meet (hr.append h) hds

theorem Meets.append (h : M.Meets view s ds t) (h' : M.Meets view t ds' s') :
    M.Meets view s (ds ++ ds') s' := by
  induction h with
  | stop hr => exact h'.after hr
  | meet hr _ ih => exact .meet hr (ih h')

/-- The same state is seen any number of times. -/
theorem Meets.stay (n : Nat) : M.Meets view s (List.replicate n (view s)) s := by
  induction n with
  | zero => exact .refl s
  | succ n ih => exact .meet (.nil s) ih

/-- What is met is the view of a state between the two ends. -/
theorem Meets.mem (h : M.Meets view s ds s') {d : D} (hd : d ∈ ds) :
    ∃ t ls ls', M.Run s ls t ∧ M.Run t ls' s' ∧ view t = d := by
  induction h with
  | stop => cases hd
  | @meet s t s' ls ds hr hds ih =>
    rcases List.mem_cons.mp hd with rfl | hd
    · obtain ⟨ls', hr'⟩ : ∃ ls', M.Run t ls' s' := by
        clear ih hd hr
        induction hds with
        | stop h => exact ⟨_, h⟩
        | meet h _ ih =>
          obtain ⟨ls', hr'⟩ := ih
          exact ⟨_, h.append hr'⟩
      exact ⟨t, ls, ls', hr, hr', rfl⟩
    · obtain ⟨u, ls₁, ls₂, h₁, h₂, he⟩ := ih hd
      exact ⟨u, ls ++ ls₁, ls₂, hr.append h₁, h₂, he⟩

end
end LTS

namespace Program
variable {S L D Q ε α β : Type}

/-- Whatever fails, `p` is a run of `M` from `P` to `T`. -/
def Walks (M : LTS S L) (view : S → D) (P : S → Prop) (p : Program D Q ε α) (T : α → S → Prop) :
    Prop :=
  ∀ fails s σ, P σ → view σ = s.db → ∃ ds σ', M.Meets view σ ds σ' ∧
    (p.run fails s).2.seen = s.seen ++ ds ∧ view σ' = (p.run fails s).2.db ∧
    ∀ a, (p.run fails s).1 = .ok a → T a σ'

/-- `M` gets from `σ` to a state of `T` that has the view `d`. -/
def Gets (M : LTS S L) (view : S → D) (σ : S) (d : D) (T : S → Prop) : Prop :=
  ∃ ls τ, M.Run σ ls τ ∧ view τ = d ∧ T τ

section
variable {M : LTS S L} {view : S → D} {P P' : S → Prop} {σ : S} {d : D}

theorem Gets.here (h : P σ) : Gets M view σ (view σ) P := ⟨[], σ, .nil σ, rfl, h⟩

theorem Gets.step {l : L} {τ : S} (hs : M.step σ l τ) (h : P τ) : Gets M view σ (view τ) P :=
  ⟨[l], τ, .single hs, rfl, h⟩

theorem Gets.mono (h : Gets M view σ d P) (hP : ∀ τ, view τ = d → P τ → P' τ) :
    Gets M view σ d P' := by
  obtain ⟨ls, τ, hr, hv, hτ⟩ := h
  exact ⟨ls, τ, hr, hv, hP τ hv hτ⟩

theorem Gets.trans {d' : D} (h : Gets M view σ d P)
    (h' : ∀ τ, view τ = d → P τ → Gets M view τ d' P') : Gets M view σ d' P' := by
  obtain ⟨ls, τ, hr, hv, hτ⟩ := h
  obtain ⟨ls', τ', hr', hv', hτ'⟩ := h' τ hv hτ
  exact ⟨ls ++ ls', τ', hr.append hr', hv', hτ'⟩

variable {p : Program D Q ε α} {k : α → Program D Q ε β} {T T' : α → S → Prop} {U : β → S → Prop}

theorem Walks.post (h : Walks M view P p T) (hT : ∀ a σ, T a σ → T' a σ) :
    Walks M view P p T' := by
  intro fails s σ hP hv
  obtain ⟨ds, σ', hm, hs, hd, ha⟩ := h fails s σ hP hv
  exact ⟨ds, σ', hm, hs, hd, fun a hr => hT a σ' (ha a hr)⟩

/-- Steps without a call may come first. -/
theorem Walks.pre (h : Walks M view P' p T) (hP : ∀ σ, P σ → Gets M view σ (view σ) P') :
    Walks M view P p T := by
  intro fails s σ hσ hv
  obtain ⟨ls, τ, hr, hvτ, hτ⟩ := hP σ hσ
  obtain ⟨ds, σ', hm, hs, hd, ha⟩ := h fails s τ hτ (hvτ.trans hv)
  exact ⟨ds, σ', hm.after hr, hs, hd, ha⟩

protected theorem Walks.pure {a : α} (h : ∀ σ, P σ → T a σ) :
    Walks M view P (pure a : Program D Q ε α) T := by
  intro fails s σ hσ hv
  refine ⟨[], σ, .refl σ, (List.append_nil _).symm, hv, fun b hb => ?_⟩
  cases hb
  exact h σ hσ

/-- The first error ends the run where it occurs. -/
theorem Walks.bind (hp : Walks M view P p T) (hk : ∀ a, Walks M view (T a) (k a) U) :
    Walks M view P (p >>= k) U := by
  intro fails s σ hσ hv
  obtain ⟨ds, τ, hm, hs, hd, ha⟩ := hp fails s σ hσ hv
  rcases bind_cases p k fails s with ⟨e, -, hr⟩ | ⟨a, hpa, hr⟩
  · refine ⟨ds, τ, hm, by rw [hr]; exact hs, by rw [hr]; exact hd, fun b hb => ?_⟩
    rw [hr] at hb
    cases hb
  · obtain ⟨ds', σ', hm', hs', hd', hb⟩ := hk a fails _ τ (ha a (by rw [hpa])) hd
    rw [hr]
    exact ⟨ds ++ ds', σ', hm.append hm', by rw [hs', hs, List.append_assoc], hd', hb⟩

/-- An answer from outside. -/
theorem Walks.ofExcept {x : Except ε α}
    (h : ∀ a, x = .ok a → ∀ σ, P σ → Gets M view σ (view σ) (T a)) :
    Walks M view P (ofExcept x : Program D Q ε α) T := by
  intro fails s σ hσ hv
  cases x with
  | error e => exact ⟨[], σ, .refl σ, (List.append_nil _).symm, hv, fun a ha => by cases ha⟩
  | ok a =>
    obtain ⟨ls, τ, hr, hvτ, hτ⟩ := h a rfl σ hσ
    refine ⟨[], τ, .stop hr, (List.append_nil _).symm, hvτ.trans hv, fun b hb => ?_⟩
    cases hb
    exact hτ

theorem Walks.reads {f : D → α} (hp : Reads p f)
    (h : ∀ σ, P σ → Gets M view σ (view σ) (T (f (view σ)))) : Walks M view P p T := by
  intro fails s σ hσ hv
  obtain ⟨n, hn⟩ := hp.seen fails s
  obtain ⟨ls, τ, hr, hvτ, hτ⟩ := h σ hσ
  have hm : M.Meets view σ (List.replicate n s.db) τ := by
    rw [← hv, ← List.append_nil (List.replicate n (view σ))]
    exact (LTS.Meets.stay n).append (.stop hr)
  refine ⟨_, τ, hm, hn, by rw [hvτ, hv, hp.db], fun a ha => ?_⟩
  rw [hp.result fails s a ha, ← hv]
  exact hτ

/-- A failure leaves the run where it is. -/
theorem Walks.atomic {R : D → α → D → Prop} (hp : Atomic p R)
    (h : ∀ σ a d', P σ → R (view σ) a d' → Gets M view σ d' (T a)) : Walks M view P p T := by
  intro fails s σ hσ hv
  obtain ⟨n, m, hn⟩ := hp.seen fails s
  cases hr : (p.run fails s).1 with
  | error e =>
    have hdb := hp.error fails s e hr
    have hm : M.Meets view σ (List.replicate n s.db ++ List.replicate m s.db) σ := by
      rw [← hv]
      exact (LTS.Meets.stay n).append (LTS.Meets.stay m)
    refine ⟨_, σ, hm, ?_, hv.trans hdb.symm, fun a ha => by cases ha⟩
    rw [hn, hdb, List.append_assoc]
  | ok a =>
    obtain ⟨ls, τ, hrun, hvτ, hτ⟩ := h σ a _ hσ (hv ▸ hp.ok fails s a hr)
    have hm : M.Meets view σ (List.replicate n s.db ++
        List.replicate m (p.run fails s).2.db) τ := by
      rw [← hv, ← hvτ]
      exact (LTS.Meets.stay n).append ((LTS.Meets.stay m).after hrun)
    refine ⟨_, τ, hm, by rw [hn, List.append_assoc], hvτ, fun b hb => ?_⟩
    cases hb
    exact hτ

/-- The same walk in a system that has all of the steps. -/
theorem Walks.map {S' L' : Type} {M' : LTS S' L'} {view' : S' → D} {f : S → S'} {g : L → L'}
    {P' : S' → Prop} {T' : α → S' → Prop} (h : Walks M view P p T)
    (hf : ∀ s l s', M.step s l s' → M'.step (f s) (g l) (f s')) (hv : ∀ s, view' (f s) = view s)
    (hP : ∀ σ', P' σ' → ∃ σ, f σ = σ' ∧ P σ) (hT : ∀ a σ, T a σ → T' a (f σ)) :
    Walks M' view' P' p T' := by
  intro fails s σ' hσ' hdb
  obtain ⟨σ, rfl, hσ⟩ := hP σ' hσ'
  obtain ⟨ds, τ, hm, hs, hd, ha⟩ := h fails s σ hσ ((hv σ).symm.trans hdb)
  exact ⟨ds, f τ, hm.map hf hv, hs, (hv τ).trans hd, fun a hr => hT a τ (ha a hr)⟩

/-! ## Processes one after the other -/

/-- A process: its program, and the calls of it that fail. -/
structure Life (D Q ε α : Type) where
  program : Program D Q ε α
  fails : Nat → Option ε

/-- What is seen, and the state left behind, when each process starts with what
the one before it committed. -/
def lives : List (Life D Q ε α) → D → List D × D
  | [], d => ([], d)
  | l :: ls, d =>
    let s := (l.program.run l.fails (.start d)).2
    (s.seen ++ (lives ls s.db).1, (lives ls s.db).2)

/-- **Processes that end anywhere and start again are one run**, where the system
can get from every state to the beginning of the next process. -/
theorem lives_meets {ι : Type} {is : List ι} {P : ι → S → Prop} (life : ι → Life D Q ε α)
    (hstart : ∀ i ∈ is, ∀ σ, Gets M view σ (view σ) (P i))
    (hp : ∀ i ∈ is, Walks M view (P i) (life i).program T) (σ : S) :
    ∃ σ', M.Meets view σ (lives (is.map life) (view σ)).1 σ' ∧
      view σ' = (lives (is.map life) (view σ)).2 := by
  induction is generalizing σ with
  | nil => exact ⟨σ, .refl σ, rfl⟩
  | cons i is ih =>
    obtain ⟨ls, τ, hr, hvτ, hτ⟩ := hstart i List.mem_cons_self σ
    obtain ⟨ds, τ', hm, hs, hd, -⟩ :=
      hp i List.mem_cons_self (life i).fails (.start (view σ)) τ hτ hvτ
    obtain ⟨σ', hm', hv'⟩ := ih (fun j hj => hstart j (List.mem_cons_of_mem _ hj))
      (fun j hj => hp j (List.mem_cons_of_mem _ hj)) τ'
    refine ⟨σ', ?_, ?_⟩
    · simp only [List.map_cons, lives]
      rw [hs, ← hd]
      exact (hm.after hr).append hm'
    · simp only [List.map_cons, lives]
      rw [← hd]
      exact hv'

end
end Program
end EthIndexer
