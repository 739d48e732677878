import EthIndexer.Core.LTS

/-!
# Reading a changing state

A reader looks at a system several times, and the system goes on in between. `next p`
is what a reader in the state `p` makes of the state it looks at next, and `none`
when it has finished. `Watched` is both of them with two ghosts: the states since the
reader began, and those among them it has read.

* `watching`: what the reader has read are states since it began, in order.
* `watch_snapshot`: where no step of the system changes what has been read so far,
  the reader is where it would be had it read everything just now.
-/
namespace EthIndexer

structure Watched (S D P : Type) where
  sys : S
  reader : P
  /-- ghost: the states since the reader began -/
  seen : List D
  /-- ghost: the states read -/
  reads : List D

namespace Watched
variable {S L D P : Type}

/-- The reader after these reads. -/
def after (next : P → Option (D → P)) : P → List D → Option P
  | p, [] => some p
  | p, d :: ds => (next p).bind fun k => after next (k d) ds

theorem after_concat (next : P → Option (D → P)) (p : P) (ds : List D) (d : D) :
    after next p (ds ++ [d]) = (after next p ds).bind fun q => (next q).map fun k => k d := by
  induction ds generalizing p with
  | nil =>
    simp only [List.nil_append, after, Option.bind_some]
    cases next p <;> rfl
  | cons e ds ih =>
    simp only [List.cons_append, after, ih]
    cases next p <;> rfl

/-- The states read are among those seen, at positions that do not decrease. -/
def InOrder (seen reads : List D) : Prop :=
  ∃ ps : List (Nat × D), ps.map Prod.snd = reads ∧ ps.Pairwise (fun x y => x.1 ≤ y.1) ∧
    ∀ x ∈ ps, seen[x.1]? = some x.2

theorem InOrder.nil (seen : List D) : InOrder seen [] := ⟨[], rfl, .nil, nofun⟩

theorem InOrder.grow {seen reads : List D} (h : InOrder seen reads) (d : D) :
    InOrder (seen ++ [d]) reads := by
  obtain ⟨ps, hmap, hle, hat⟩ := h
  refine ⟨ps, hmap, hle, fun x hx => ?_⟩
  rw [List.getElem?_append_left (List.getElem?_eq_some_iff.mp (hat x hx)).1]
  exact hat x hx

/-- The last state may be read, also when it has been read before. -/
theorem InOrder.read {init reads : List D} {d : D} (h : InOrder (init ++ [d]) reads) :
    InOrder (init ++ [d]) (reads ++ [d]) := by
  obtain ⟨ps, hmap, hle, hat⟩ := h
  refine ⟨ps ++ [(init.length, d)], by rw [List.map_append, hmap]; rfl, ?_, fun x hx => ?_⟩
  · refine List.pairwise_append.mpr ⟨hle, List.pairwise_singleton _ _, fun x hx y hy => ?_⟩
    have hlt := (List.getElem?_eq_some_iff.mp (hat x hx)).1
    rw [List.length_append, List.length_singleton] at hlt
    rw [List.mem_singleton.mp hy]
    exact Nat.lt_succ_iff.mp hlt
  · rcases List.mem_append.mp hx with hx | hx
    · exact hat x hx
    · rw [List.mem_singleton.mp hx]
      exact List.getElem?_concat_length

/-! ## The system and the reader -/

section
variable (M : LTS S L) (view : S → D) (p₀ : P) (next : P → Option (D → P))

/-- `some l` is a step of the system while the reader has not finished, `none` a read. -/
inductive Step : Watched S D P → Option L → Watched S D P → Prop
  | move {w : Watched S D P} {l : L} {s : S} (hn : (next w.reader).isSome) (h : M.step w.sys l s) :
      Step w (some l) { w with sys := s, seen := w.seen ++ [view s] }
  | read {w : Watched S D P} {k : D → P} (hk : next w.reader = some k) :
      Step w none { w with reader := k (view w.sys), reads := w.reads ++ [view w.sys] }

/-- The reader begins in any reachable state. -/
def watch : LTS (Watched S D P) (Option L) where
  init w := M.Reachable w.sys ∧ w.reader = p₀ ∧ w.seen = [view w.sys] ∧ w.reads = []
  step := Step M view next

/-- `Step` as a function, for a system given by one. -/
def stepFn (f : S → L → Option S) (w : Watched S D P) : Option L → Option (Watched S D P)
  | some l =>
    if (next w.reader).isSome then
      (f w.sys l).map fun s => { w with sys := s, seen := w.seen ++ [view s] }
    else none
  | none => (next w.reader).map fun k =>
    { w with reader := k (view w.sys), reads := w.reads ++ [view w.sys] }

end

section
variable {M : LTS S L} {view : S → D} {p₀ : P} {next : P → Option (D → P)}

theorem stepFn_step {f : S → L → Option S} (hf : ∀ s l s', f s l = some s' → M.step s l s')
    (w : Watched S D P) (l : Option L) (w' : Watched S D P)
    (h : stepFn view next f w l = some w') : (watch M view p₀ next).step w l w' := by
  cases l with
  | some l =>
    simp only [stepFn] at h
    split at h
    · rename_i hn
      obtain ⟨s, hs, rfl⟩ := Option.map_eq_some_iff.mp h
      exact .move hn (hf _ _ _ hs)
    · cases h
  | none =>
    obtain ⟨k, hk, rfl⟩ := Option.map_eq_some_iff.mp h
    exact .read hk

/-- An evaluation up to the first read, and from there on. -/
theorem watch_of_exec {β : Type} {f : S → L → Option S}
    (hf : ∀ s l s', f s l = some s' → M.step s l s') {s₀ : S} (h₀ : M.init s₀) {ls : List L}
    {rs : List (Option L)} {g : Watched S D P → β} {b : β}
    (h : ((LTS.exec f s₀ ls).bind fun s =>
      LTS.exec (stepFn view next f) ⟨s, p₀, [view s], []⟩ rs).map g = some b) :
    ∃ w, (watch M view p₀ next).Reachable w ∧ g w = b := by
  obtain ⟨w, hw, hg⟩ := Option.map_eq_some_iff.mp h
  obtain ⟨s, hs, hw⟩ := Option.bind_eq_some_iff.mp hw
  have hstart : (watch M view p₀ next).init ⟨s, p₀, [view s], []⟩ :=
    ⟨⟨s₀, ls, h₀, LTS.exec_run hf hs⟩, rfl, rfl, rfl⟩
  exact ⟨w, ⟨_, rs, hstart, LTS.exec_run (stepFn_step hf) hw⟩, hg⟩

structure Watching (M : LTS S L) (view : S → D) (p₀ : P) (next : P → Option (D → P))
    (w : Watched S D P) : Prop where
  reachable : M.Reachable w.sys
  seen : ∀ d ∈ w.seen, ∃ s, M.Reachable s ∧ view s = d
  last : ∃ init, w.seen = init ++ [view w.sys]
  reader : after next p₀ w.reads = some w.reader
  inOrder : InOrder w.seen w.reads

/-- What the reader has read are states of the system since it began, in order. -/
theorem watching : (watch M view p₀ next).Inductive (Watching M view p₀ next) where
  init := by
    intro w ⟨hr, hp, hseen, hreads⟩
    refine ⟨hr, fun d hd => ?_, ⟨[], hseen⟩, by rw [hreads, hp]; rfl, hreads ▸ .nil _⟩
    rw [hseen] at hd
    exact ⟨w.sys, hr, (List.mem_singleton.mp hd).symm⟩
  step := by
    intro w l w' I h
    cases h with
    | move hn h =>
      have hr := I.reachable.step h
      refine ⟨hr, fun d hd => ?_, ⟨_, rfl⟩, I.reader, I.inOrder.grow _⟩
      rcases List.mem_append.mp hd with hd | hd
      · exact I.seen d hd
      · exact ⟨_, hr, (List.mem_singleton.mp hd).symm⟩
    | read hk =>
      obtain ⟨init, hlast⟩ := I.last
      refine ⟨I.reachable, I.seen, ⟨init, hlast⟩, ?_, ?_⟩
      · rw [after_concat, I.reader, Option.bind_some, hk, Option.map_some]
      · have hin := I.inOrder
        simp only [hlast] at hin ⊢
        exact hin.read

/-! ## Undisturbed reading -/

/-- The step leaves what has been read so far as it is. -/
def Undisturbed (M : LTS S L) (view : S → D) (p₀ : P) (next : P → Option (D → P))
    (w : Watched S D P) : Option L → Prop
  | some l => ∀ s, M.step w.sys l s →
    after next p₀ (List.replicate w.reads.length (view s)) =
      after next p₀ (List.replicate w.reads.length (view w.sys))
  | none => True

theorem undisturbed_of_view {w : Watched S D P} {l : L}
    (h : ∀ s, M.step w.sys l s → view s = view w.sys) :
    Undisturbed M view p₀ next w (some l) :=
  fun s hs => by rw [h s hs]

/-- The reader is where it would be, had it read everything just now. -/
theorem watch_snapshot : ((watch M view p₀ next).restrict (Undisturbed M view p₀ next)).Inductive
    fun w => after next p₀ (List.replicate w.reads.length (view w.sys)) = some w.reader where
  init := by
    rintro w ⟨-, hp, -, hreads⟩
    rw [hreads, hp]
    rfl
  step := by
    intro w l w' I ⟨hC, h⟩
    cases h with
    | move hn h => exact (hC _ h).trans I
    | read hk =>
      simp only [List.length_append, List.length_singleton, List.replicate_succ', after_concat, I,
        Option.bind_some, hk, Option.map_some]

end
end Watched
end EthIndexer
