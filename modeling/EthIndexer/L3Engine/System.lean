import EthIndexer.Core.LTS
import EthIndexer.L3Engine.Worker

/-!
# Both workers on one database

`Sys` is the process of hybrid mode: the database, the two workers and, as a
ghost, the greatest `live_start_block` handed to `prune_hot_before_block` so
far. A label is one event of one worker, so a run is an interleaving of single
RPC answers, `SELECT`s and committed transactions. Backfill mode is the runs
without `live` labels, live mode those without `backfill` labels.

A transaction is one label: the transactions of the two workers take effect one at
a time, in any order. This is the unit of the results about runs. The statements of
two open transactions do not alternate here, which PostgreSQL's READ COMMITTED
would let them do.

An RPC call or a statement that fails, a block the RPC does not find, a log
with a missing field, an overflow and a batch that cannot be committed all end the
worker; `try_join!` then drops the other one and the process ends. With the
operator's restart that is one label, `crash`, enabled in every state: both workers
begin at `resume`, and the database keeps exactly what was committed.

`step_cases` lists what a step of the system can be. The configuration and
`start_block` are parameters of the system, the same after every restart.
-/
namespace EthIndexer.L3
open EthIndexer.L1 EthIndexer.L2

inductive Label where
  | backfill (e : Event)
  | live (e : Event)
  | crash
  deriving DecidableEq

structure Sys where
  db : Db
  backfill : BackfillPc
  live : LivePc
  /-- ghost: the greatest `live_start_block` passed to `prune_hot_before_block` -/
  pruned : Option Nat

def Sys.init : Sys := ⟨.migrated, .resume, .resume, none⟩

/-- The process ends and is started again. -/
def Sys.restart (s : Sys) : Sys := { s with backfill := .resume, live := .resume }

/-- The ghost after an event of the live worker. -/
def prunedBy (engine : BackfillEngine) (start : Nat) (pc : LivePc) (w : Option Nat) : Option Nat :=
  match pc with
  | .prune latest => some (max (w.getD 0) (engine.computeLiveStartBlock start latest))
  | _ => w

def step (engine : BackfillEngine) (start : Nat) (s : Sys) : Label → Option Sys
  | .backfill e =>
    (backfillStep engine start s.db s.backfill e).map fun
      | .goto pc db => { s with db := db, backfill := pc }
      | .fail => s.restart
  | .live e =>
    (liveStep engine start s.db s.live e).map fun
      | .goto pc db => { s with db := db, live := pc, pruned := prunedBy engine start s.live s.pruned }
      | .fail => s.restart
  | .crash => some s.restart

def system (engine : BackfillEngine) (start : Nat) : LTS Sys Label :=
  .ofFn (· = .init) (step engine start)

theorem step_cases {engine : BackfillEngine} {start : Nat} {s s' : Sys} {l : Label}
    (h : step engine start s l = some s') :
    (∃ e pc db, l = .backfill e ∧ BackfillMove engine start s.db s.backfill e pc db ∧
      s' = { s with db := db, backfill := pc }) ∨
    (∃ e pc db, l = .live e ∧ LiveMove engine start s.db s.live e pc db ∧
      s' = { s with db := db, live := pc, pruned := prunedBy engine start s.live s.pruned }) ∨
    s' = s.restart := by
  cases l with
  | backfill e =>
    simp only [step, Option.map_eq_some_iff] at h
    obtain ⟨m, hm, hs⟩ := h
    cases m with
    | goto pc db => exact .inl ⟨e, pc, db, rfl, backfillStep_cases hm, hs.symm⟩
    | fail => exact .inr (.inr hs.symm)
  | live e =>
    simp only [step, Option.map_eq_some_iff] at h
    obtain ⟨m, hm, hs⟩ := h
    cases m with
    | goto pc db => exact .inr (.inl ⟨e, pc, db, rfl, liveStep_cases hm, hs.symm⟩)
    | fail => exact .inr (.inr hs.symm)
  | crash =>
    simp only [step, Option.some.injEq] at h
    exact .inr (.inr h.symm)

/-- The live worker leaves the cold lane and its checkpoint alone. -/
theorem LiveMove.frame {engine : BackfillEngine} {start : Nat} {db db' : Db} {pc pc' : LivePc}
    {e : Event} (h : LiveMove engine start db pc e pc' db') :
    db'.cold = db.cold ∧ db'.indexerCheckpoint = db.indexerCheckpoint := by
  cases h <;> exact ⟨rfl, rfl⟩

/-- The backfill worker adds no block to the hot lane. -/
theorem BackfillMove.hot_keys {engine : BackfillEngine} {start : Nat} {db db' : Db}
    {pc pc' : BackfillPc} {e : Event} (h : BackfillMove engine start db pc e pc' db') :
    ∀ k ∈ db'.hot.keys, k ∈ db.hot.keys := by
  cases h with
  | rollback | commit => exact fun k hk => (Lane.mem_keys_deleteNumbers.mp hk).1
  | _ => exact fun _ hk => hk

/-! ## Stretches of a run -/

/-- The answers of `C` that take a worker through `first..=last`, from the first
metadata request to the commit. -/
def rangeLabels (w : Event → Label) (C : Chain) (filter : Option Bytes) (first last : Nat) :
    List Label :=
  (rangeIncl first last).map (fun n => w (.block n (C.hash n) (C.timestamp n))) ++
    w (.logs first last (C.getLogs filter first last)) ::
    List.replicate (last + 2 - first) (w .sql)

/-- A pass of `reconcile_finalized_history` over `first..=last` on the answers of `C`. -/
def historyLabels (C : Chain) (first last : Nat) : List Label :=
  (rangeIncl first last).flatMap fun n =>
    [.backfill (.block n (C.hash n) (C.timestamp n)), .backfill .sql]

/-! ## Environments -/

/-- The head a label reports, if it answers `eth_blockNumber`. -/
def Label.head? : Label → Option Nat
  | .backfill (.blockNumber n) => some n
  | .live (.blockNumber n) => some n
  | _ => none

/-- Every head answered is below 2^63, so that it fits a `BIGINT`. -/
def HeadFits (l : Label) : Prop := ∀ n, l.head? = some n → n < 2 ^ 63

instance (l : Label) : Decidable (HeadFits l) :=
  match h : l.head? with
  | none => .isTrue fun n hn => by rw [h] at hn; cases hn
  | some m => decidable_of_iff (m < 2 ^ 63) (by simp [HeadFits, h])

/-- Every head answered to the backfill worker is below 2^63. -/
def BackfillHeadFits : Label → Prop
  | .live _ => True
  | l => HeadFits l

instance : (l : Label) → Decidable (BackfillHeadFits l)
  | .live _ => .isTrue trivial
  | .backfill e => inferInstanceAs (Decidable (HeadFits (.backfill e)))
  | .crash => inferInstanceAs (Decidable (HeadFits .crash))

theorem HeadFits.backfill {l : Label} (h : HeadFits l) : BackfillHeadFits l := by
  cases l with
  | live _ => trivial
  | _ => exact h

/-- The runs in which every label satisfies `E`. -/
def systemWith (engine : BackfillEngine) (start : Nat) (E : Label → Prop) : LTS Sys Label :=
  (system engine start).restrict fun _ l => E l

/-- `step` on labels that pass `E`. -/
def stepWith (engine : BackfillEngine) (start : Nat) (E : Sys → Label → Prop)
    [∀ s l, Decidable (E s l)] (s : Sys) (l : Label) : Option Sys :=
  if E s l then step engine start s l else none

theorem stepWith_step {engine : BackfillEngine} {start : Nat} {E : Sys → Label → Prop}
    [∀ s l, Decidable (E s l)] (s : Sys) (l : Label) (s' : Sys)
    (h : stepWith engine start E s l = some s') : ((system engine start).restrict E).step s l s' := by
  unfold stepWith at h
  split at h
  · rename_i hE; exact ⟨hE, h⟩
  · cases h

end EthIndexer.L3
