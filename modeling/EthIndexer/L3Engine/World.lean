import Mathlib.Data.Set.Image
import EthIndexer.Core.Linked
import EthIndexer.L3Engine.Answers

/-!
# Reorganisations

`World` is the system together with the canonical chain of the moment. A turn is
an event, answered by that chain, or a reorganisation to another chain of the
hash-linked family `Forks`; growth is a reorganisation to a longer chain. The
chain may change between any two events, except during a pass of
`reconcile_finalized_history`.
-/
namespace EthIndexer.L3
open EthIndexer.L1 EthIndexer.L2

/-- A hash-linked family of chains with heights that fit a `BIGINT`. -/
structure Forks where
  chains : Set Chain
  linked : HashLinked (Set.image Chain.hash chains)
  fits : ∀ C ∈ chains, C.height < 2 ^ 63

structure World where
  sys : Sys
  chain : Chain

inductive Turn where
  | event (l : Label)
  | reorg (C : Chain)

/-- The backfill worker is inside `reconcile_finalized_history`. -/
def BackfillPc.reconciling : BackfillPc → Bool
  | .history _ _ _ | .historyRow _ _ _ _ => true
  | _ => false

def turn (engine : BackfillEngine) (start : Nat) (w : World) : Turn → Option World
  | .event l =>
    if AnsweredBy w.chain engine.contractFilter l then
      (step engine start w.sys l).map fun s => { w with sys := s }
    else none
  | .reorg C => if w.sys.backfill.reconciling then none else some { w with chain := C }

/-- A reorganisation stays in the family. -/
def Turn.Within (F : Forks) : Turn → Prop
  | .event _ => True
  | .reorg C => C ∈ F.chains

def world (engine : BackfillEngine) (start : Nat) (F : Forks) : LTS World Turn where
  init w := w.sys = .init ∧ w.chain ∈ F.chains
  step w t w' := t.Within F ∧ turn engine start w t = some w'

/-- What a turn is: a step of the system on an answer of the chain, or a change
of the chain outside of a pass. -/
theorem turn_cases {engine : BackfillEngine} {start : Nat} {w w' : World} {t : Turn}
    (h : turn engine start w t = some w') :
    (∃ l s, t = .event l ∧ AnsweredBy w.chain engine.contractFilter l ∧
      step engine start w.sys l = some s ∧ w' = { w with sys := s }) ∨
    (∃ C, t = .reorg C ∧ w.sys.backfill.reconciling = false ∧ w' = { w with chain := C }) := by
  cases t with
  | event l =>
    simp only [turn] at h
    split at h
    · rename_i hl
      obtain ⟨s, hs, he⟩ := Option.map_eq_some_iff.mp h
      exact .inl ⟨l, s, rfl, hl, hs, he.symm⟩
    · cases h
  | reorg C =>
    simp only [turn] at h
    split at h
    · cases h
    · rename_i hr
      cases h
      exact .inr ⟨C, rfl, by simpa using hr, rfl⟩

theorem Forks.below (F : Forks) {C D : Chain} (hC : C ∈ F.chains) (hD : D ∈ F.chains)
    {E : Nat → B256 → Prop} {t : Nat} (hE : Carries C.hash E) (hle : ∀ n a, E n a → n ≤ t)
    (ht : C.hash t = D.hash t) : Carries D.hash E :=
  hE.below F.linked (Set.mem_image_of_mem _ hC) (Set.mem_image_of_mem _ hD) hle ht

/-! ## Runs -/

/-- Stretches of labels, each on a chain of its own. -/
def segments (segs : List (Chain × List Label)) : List Turn :=
  segs.flatMap fun g => .reorg g.1 :: g.2.map .event

theorem segments_within {F : Forks} {segs : List (Chain × List Label)}
    (h : ∀ g ∈ segs, g.1 ∈ F.chains) : ∀ t ∈ segments segs, t.Within F := by
  intro t ht
  obtain ⟨g, hg, hm⟩ := List.mem_flatMap.mp ht
  rcases List.mem_cons.mp hm with hm | hm
  · rw [hm]; exact h g hg
  · obtain ⟨l, -, hl⟩ := List.mem_map.mp hm
    rw [← hl]; trivial

theorem world_run {engine : BackfillEngine} {start : Nat} {F : Forks} {w w' : World}
    {ts : List Turn} (hF : ∀ t ∈ ts, t.Within F) (h : LTS.exec (turn engine start) w ts = some w') :
    (world engine start F).Run w ts w' := by
  induction ts generalizing w with
  | nil =>
    simp only [LTS.exec, Option.some.injEq] at h
    rw [h]; exact .nil _
  | cons t ts ih =>
    simp only [LTS.exec, Option.bind_eq_some_iff] at h
    obtain ⟨w₁, h₁, h₂⟩ := h
    exact .cons ⟨hF t List.mem_cons_self, h₁⟩ (ih (fun t ht => hF t (List.mem_cons_of_mem _ ht)) h₂)

/-! ## A family of forks -/

/-- All chains that share the blocks below `f`. -/
def forksAt (f : Nat) : Forks where
  chains := { C | ∃ height branch, height < 2 ^ 63 ∧ C = .fork height f branch }
  linked := by
    intro g hg g' hg' n hn m hm
    obtain ⟨C, ⟨_, b, -, hC⟩, hg⟩ := hg
    obtain ⟨C', ⟨_, b', -, hC'⟩, hg'⟩ := hg'
    subst hC hC' hg hg'
    by_cases h : m < f
    · simp only [Chain.fork, if_pos h]
    · have hn' : ¬ n < f := by omega
      simp only [Chain.fork, if_neg h, if_neg hn'] at hn ⊢
      exact hn
  fits := by
    intro C hC
    obtain ⟨height, branch, hh, he⟩ := hC
    subst he
    exact hh

theorem fork_mem {f height : Nat} {branch : UInt8} (h : height < 2 ^ 63) :
    Chain.fork height f branch ∈ (forksAt f).chains := ⟨height, branch, h, rfl⟩

end EthIndexer.L3
