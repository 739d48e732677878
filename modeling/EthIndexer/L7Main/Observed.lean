import EthIndexer.L6Calls.LoopRuns
import EthIndexer.L7Main.Operated

/-!
# What the database shows of `main`

A `Launch` is one start of the process in a mode with one worker: an environment
that `main` accepts, what the iterations are answered, and which calls fail. Its
program makes the calls of the worker one after the other.

`main_observed`: whatever the launches, all that another connection sees of them
are, in this order, the databases of one run of `operated`, on starts and answers
that are those of the launches; and every one of them is intact.
-/
namespace EthIndexer.L7
open EthIndexer.L1 EthIndexer.L2 EthIndexer.L3 EthIndexer.L4 EthIndexer.L6
open Program (Gets Walks)

structure Launch (addressFromStr : String → Except String Address) where
  env : Env
  config : Config
  accepted : L7.config addressFromStr env = .ok config
  single : config.mode ≠ .hybrid
  iterations : List Provider
  fails : Nat → Option Failure

namespace Launch
variable {addressFromStr : String → Except String Address} (l : Launch addressFromStr)

/-- mirrors indexer/src/main.rs:134-146 -/
def program : Calls Unit :=
  match l.config.mode, l.single with
  | .backfill, _ => runBackfill l.config.engine l.config.start l.iterations
  | .live, _ => runLive l.config.engine l.config.start l.iterations
  | .hybrid, h => absurd rfl h

def life : Program.Life Db Statement Failure Unit := ⟨l.program, l.fails⟩

/-- The launch, if `main` accepts the environment and it configures one worker. -/
def of? (addressFromStr : String → Except String Address) (env : Env) (iterations : List Provider)
    (fails : Nat → Option Failure) : Option (Launch addressFromStr) :=
  match h : L7.config addressFromStr env with
  | .ok c => if hs : c.mode ≠ .hybrid then some ⟨env, c, h, hs, iterations, fails⟩ else none
  | .error _ => none

end Launch

/-- A head, if one is answered, is below 2^63. -/
def headFits : Except String UInt64 → Bool
  | .ok n => decide (n.toNat < 2 ^ 63)
  | .error _ => true

def HeadsFit (p : Provider) : Prop := headFits p.head ∧ headFits p.historyHead

instance (p : Provider) : Decidable (HeadsFit p) :=
  inferInstanceAs (Decidable (headFits p.head ∧ headFits p.historyHead))

/-- A start with an environment of the launches, or an event that their iterations
are answered. -/
def Told {addressFromStr : String → Except String Address} (ls : List (Launch addressFromStr))
    (o : Operated) : Operation → Prop
  | .start env => ∃ l ∈ ls, l.env = env
  | .event e => ∃ worker ∈ [Label.backfill, Label.live], Given worker
      (Offered o.config.engine.contractFilter (ls.flatMap Launch.iterations)) e

section
variable {addressFromStr : String → Except String Address} {ls : List (Launch addressFromStr)}
  {l : Launch addressFromStr}

theorem offered_mono {filter : Option Bytes} {ps qs : List Provider} (h : ∀ p ∈ ps, p ∈ qs)
    {e : Event} (he : Offered filter ps e) : Offered filter qs e := by
  cases he with
  | sql => exact .sql
  | timer => exact .timer
  | head hp hn => exact .head (h _ hp) hn
  | block hp hn => exact .block (h _ hp) hn
  | logs hp hn => exact .logs (h _ hp) hn

theorem operationFits_told (hfit : ∀ l ∈ ls, ∀ p ∈ l.iterations, HeadsFit p) {o : Operated}
    {op : Operation} (h : Told ls o op) : OperationFits op := by
  cases op with
  | start env => trivial
  | event e =>
    obtain ⟨worker, hw, e', rfl, he⟩ := h
    have hn : ∀ n, (worker e').head? = some n → e' = .blockNumber n := by
      simp only [List.mem_cons, List.not_mem_nil, or_false] at hw
      intro n hn
      rcases hw with rfl | rfl <;>
        cases e' <;> simp only [Label.head?, Option.some.injEq, reduceCtorEq] at hn <;> rw [hn]
    intro n hhead
    rw [hn n hhead] at he
    cases he with
    | head hp h =>
      obtain ⟨l, hl, hp⟩ := List.mem_flatMap.mp hp
      obtain ⟨hf, hf'⟩ := hfit l hl _ hp
      rcases h with h | h
      · rw [h] at hf
        exact of_decide_eq_true hf
      · rw [h] at hf'
        exact of_decide_eq_true hf'

/-- A worker of the launch, in the process. -/
theorem walks_told {worker : Event → Label} {pc : Sys → Prop} {p : Calls Unit} {T : Unit → Sys → Prop}
    (hl : l ∈ ls) (hw : worker ∈ [Label.backfill, Label.live])
    (hmode : ∀ e, l.config.mode.Runs (worker e))
    (h : Walks (offeredRuns l.config.engine l.config.start worker l.iterations) Sys.db pc p T) :
    Walks ((operated addressFromStr).restrict (Told ls)) Operated.db
      (fun o => o.config = l.config ∧ pc o.sys) p fun _ _ => True := by
  refine h.map (f := fun s => ⟨l.config, s⟩) (g := .event) (fun s lab s' hs => ?_) (fun _ => rfl)
    (fun o ho => ?_) fun _ _ _ => trivial
  · obtain ⟨⟨e, rfl, he⟩, hstep⟩ := hs
    refine ⟨⟨worker, hw, e, rfl, offered_mono (fun p hp => List.mem_flatMap.mpr ⟨l, hl, hp⟩) he⟩, ?_⟩
    have hrun : step l.config.engine l.config.start s (worker e) = some s' := hstep
    show operate addressFromStr _ _ = _
    simp only [operate, if_pos (hmode e), hrun, Option.map_some]
  · obtain ⟨c, s⟩ := o
    obtain ⟨rfl, hs⟩ := ho
    exact ⟨s, rfl, hs⟩

/-- Both workers are where a process starts. -/
def Fresh (l : Launch addressFromStr) (o : Operated) : Prop :=
  o.config = l.config ∧ BackfillAt .resume o.sys ∧ LiveAt .resume o.sys

theorem launch_walks (hl : l ∈ ls) : Walks ((operated addressFromStr).restrict (Told ls))
    Operated.db (Fresh l) l.program fun _ _ => True := by
  obtain ⟨env, ⟨engine, start, mode, retry, window⟩, accepted, single, iterations, fails⟩ := l
  cases mode with
  | backfill =>
    have hw := walks_told hl List.mem_cons_self (fun _ => trivial)
      (runBackfill_walks engine start iterations)
    exact hw.pre fun o ho => .here ⟨ho.1, ho.2.1⟩
  | live =>
    have hw := walks_told hl (List.mem_cons_of_mem _ List.mem_cons_self) (fun _ => trivial)
      (runLive_walks engine start iterations)
    exact hw.pre fun o ho => .here ⟨ho.1, ho.2.2⟩
  | hybrid => exact absurd rfl single

theorem launch_gets (hl : l ∈ ls) (o : Operated) :
    Gets ((operated addressFromStr).restrict (Told ls)) Operated.db o o.db (Fresh l) := by
  refine ⟨[.start l.env], ⟨l.config, o.sys.restart⟩, .single ⟨⟨l, hl, rfl⟩, ?_⟩, rfl, rfl, rfl, rfl⟩
  show operate addressFromStr o (.start l.env) = _
  simp only [operate, l.accepted]

/-- **What another connection sees.** Start the process any number of times, in
backfill or in live mode, each time with an environment of its own, answers of its
own and calls that fail: what is seen of the database meanwhile are, in this order,
databases of one run of `operated`, told nothing that the launches were not; and
where the heads are below 2^63, every one of them is intact. -/
theorem main_observed (addressFromStr : String → Except String Address)
    (ls : List (Launch addressFromStr)) (o : Operated)
    (h : (operatedFits addressFromStr).Reachable o) :
    ∃ o', ((operated addressFromStr).restrict (Told ls)).Meets Operated.db o
        (Program.lives (ls.map Launch.life) o.db).1 o' ∧
      o'.db = (Program.lives (ls.map Launch.life) o.db).2 ∧
      ((∀ l ∈ ls, ∀ p ∈ l.iterations, HeadsFit p) →
        ∀ db ∈ (Program.lives (ls.map Launch.life) o.db).1, Intact db) := by
  obtain ⟨o', hm, hv⟩ := Program.lives_meets Launch.life (fun l hl o => launch_gets hl o)
    (fun l hl => launch_walks hl) o
  refine ⟨o', hm, hv, fun hfit db hdb => ?_⟩
  obtain ⟨t, ops, -, hr, -, rfl⟩ := hm.mem hdb
  have hr' : (operatedFits addressFromStr).Run o ops t :=
    hr.weaken fun _ _ h => operationFits_told hfit h
  have I := operatedInv_inductive.reachable o h
  exact (LTS.run_preserves operatedInv_inductive.step hr' I).intact

end
/-! ## A history -/

/-- One iteration on a chain of height `head`. -/
def onFork (head : UInt64) : List Provider :=
  [⟨.ok head, .ok head, .ofChain (.fork head.toNat 9 0), .ofChain (.fork head.toNat 9 0)⟩]

/-- Blocks 1 and 2 are indexed; at block 5 a statement fails, and block 5 is indexed
by the next process. -/
def launches : Option (List (Launch noAddress)) := do
  let first ← Launch.of? noAddress (startAt "1") (onFork 2) fun _ => none
  let failing ← Launch.of? noAddress (startAt "5") (onFork 5) fun k =>
    if k = 5 then some (.err "connection reset by peer") else none
  let last ← Launch.of? noAddress (startAt "5") (onFork 5) fun _ => none
  pure [first, failing, last]

/-- What is seen of `launches`: each commit, and nothing of the one that fails. -/
theorem main_observed_launches : ∃ ls, launches = some ls ∧
    ((Program.lives (ls.map Launch.life) .migrated).1.map fun db => db.cold.keys).dedup =
      [[], [1, 2], [1, 2, 5]] ∧
    ∀ db ∈ (Program.lives (ls.map Launch.life) .migrated).1, Intact db := by
  have hx : (launches.map fun ls =>
      (((Program.lives (ls.map Launch.life) .migrated).1.map fun db => db.cold.keys).dedup,
        ls.all fun l => l.iterations.all fun p => decide (HeadsFit p))) =
      some ([[], [1, 2], [1, 2, 5]], true) := by decide +kernel
  obtain ⟨ls, hls, hb⟩ := Option.map_eq_some_iff.mp hx
  obtain ⟨hkeys, hfit⟩ := Prod.mk.injEq .. ▸ hb
  have hfit' : ∀ l ∈ ls, ∀ p ∈ l.iterations, HeadsFit p := by
    simpa only [List.all_eq_true, decide_eq_true_eq] using hfit
  have hne : ls ≠ [] := by
    intro h
    rw [h] at hkeys
    cases hkeys
  obtain ⟨l, ls', he⟩ := List.exists_cons_of_ne_nil hne
  have hr : (operatedFits noAddress).Reachable ⟨l.config, .init⟩ :=
    LTS.reachable_init ⟨rfl, l.env, l.accepted⟩
  obtain ⟨-, -, -, hi⟩ := main_observed noAddress ls ⟨l.config, .init⟩ hr
  exact ⟨ls, hls, hkeys, hi hfit'⟩

end EthIndexer.L7
