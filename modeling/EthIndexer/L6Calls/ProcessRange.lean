import EthIndexer.L3Engine.BuildRange
import EthIndexer.L3Engine.Iterate
import EthIndexer.L6Calls.Limits

/-!
# `process_finalized_range` and `process_hot_range`

One range from its RPC requests to its transaction, call by call. Any RPC
request, any field of a log, any `SELECT` and any statement may fail.

`process_all_or_nothing`: the call ends in exactly one of four ways. It returns an
error (`Failed`) or panics (`Panicked`), and the database is what it was; or the
payload is committed, and then no stored hash differs from it (`Committed`); or
the lane is rolled back from the lowest block whose stored hash differs
(`RolledBack`). It panics only over a payload that is not `Committable`, and where
no call fails it succeeds for every other payload (`AllOrNothing`).

`processFinalizedRange_refines`: on the provider of a chain the effect, if there is
one, is that of the iteration's `L3.processFinalizedRange`, and where no call
fails the two end in the same way.
-/
namespace EthIndexer.L6
open EthIndexer.L1 EthIndexer.L2 EthIndexer.L3

/-- The loop over `payload.indexed_blocks`: the block it stops at.
mirrors crates/ingestion/src/lib.rs:176-189 and :227-240 -/
def firstMismatch (lane : LaneName) : List (Nat × Bytes) → Calls (Option Nat)
  | [] => pure none
  | (n, hash) :: rest => do
    match ← getBlockHashFromTable lane n with
    | some existing => if existing ≠ hash then pure (some n) else firstMismatch lane rest
    | none => firstMismatch lane rest

/-- What the two functions share: `handle` is `handle_*_reorg`. -/
def processRange (engine : BackfillEngine) (rpc : RpcClient) (first last : Nat) (lane : LaneName)
    (handle : Nat → Calls Unit) (commit : RangePayload first last → Calls Unit) : Calls Unit := do
  let payload ← answer (engine.buildRangePayload rpc first last)
  let mismatch ← firstMismatch lane payload.indexedBlocks
  mismatch.elim (commit payload) handle

/-- mirrors crates/ingestion/src/lib.rs:166-215 and :267-274 -/
def processFinalizedRange (engine : BackfillEngine) (rpc : RpcClient) (first last : Nat) :
    Calls Unit :=
  processRange engine rpc first last .cold rollbackFromBlock fun payload => do
    let _ ← commitFinalizedRange payload.transferRecords payload.indexedBlocks first last
    pure ()

/-- mirrors crates/ingestion/src/lib.rs:217-265 and :276-283 -/
def processHotRange (engine : BackfillEngine) (rpc : RpcClient) (first last : Nat) : Calls Unit :=
  processRange engine rpc first last .hot rollbackHotFromBlock fun payload => do
    let _ ← commitHotRange payload.transferRecords payload.indexedBlocks last
    pure ()

theorem answer_ok {α : Type} {x : Except String α} {a : α} :
    x.mapError Failure.err = .ok a ↔ x = .ok a := by
  cases x with
  | error e => exact ⟨fun h => (by cases h), fun h => (by cases h)⟩
  | ok b => exact ⟨fun h => (by cases h; rfl), fun h => (by cases h; rfl)⟩

theorem answer_ends {α : Type} (x : Except String α) :
    (answer x).Ends fun db => (x.toOption, db) := by
  intro s
  cases x <;> exact ⟨rfl, rfl⟩

/-! ## The loop over the blocks -/

/-- The lane stores another hash for the block. -/
def Differs (l : Lane) (b : Nat × Bytes) : Prop :=
  ∃ existing, l.getBlockHash b.1 = some existing ∧ existing ≠ b.2

instance (l : Lane) (b : Nat × Bytes) : Decidable (Differs l b) :=
  inferInstanceAs (Decidable (∃ existing, l.getBlockHash b.1 = some existing ∧ existing ≠ b.2))

/-- The first block of the list that differs. -/
def mismatch (l : Lane) (blocks : List (Nat × Bytes)) : Option Nat :=
  (blocks.find? fun b => decide (Differs l b)).map Prod.fst

theorem mismatch_cons (l : Lane) (b : Nat × Bytes) (rest : List (Nat × Bytes)) :
    mismatch l (b :: rest) = if Differs l b then some b.1 else mismatch l rest := by
  unfold mismatch
  rw [List.find?_cons]
  by_cases h : Differs l b
  · simp [h]
  · simp [h]

theorem firstMismatch_reads (lane : LaneName) (blocks : List (Nat × Bytes)) :
    (firstMismatch lane blocks).Reads fun db => mismatch (lane.get db) blocks := by
  induction blocks with
  | nil => exact .pure none
  | cons b rest ih =>
    obtain ⟨n, hash⟩ := b
    have hk : ∀ stored : Option Bytes, Program.Reads
        (match stored with
          | some existing => if existing ≠ hash then pure (some n) else firstMismatch lane rest
          | none => firstMismatch lane rest : Calls (Option Nat))
        fun db => if ∃ existing, stored = some existing ∧ existing ≠ hash then some n
          else mismatch (lane.get db) rest := by
      intro stored
      cases stored with
      | none => simpa using ih
      | some existing =>
        by_cases he : existing = hash
        · simpa [he] using ih
        · simpa [he] using Program.Reads.pure (some n)
    refine ((getBlockHashFromTable_reads n lane).bind hk).congr fun db => ?_
    rw [mismatch_cons]
    rfl

theorem firstMismatch_raises {P : Failure → Prop} (lane : LaneName) (blocks : List (Nat × Bytes)) :
    (firstMismatch lane blocks).Raises P := by
  induction blocks with
  | nil => exact .pure none
  | cons b rest ih =>
    refine Program.Raises.bind (.select _ _) fun stored => ?_
    cases stored with
    | none => exact ih
    | some existing =>
      dsimp only
      split
      · exact .pure _
      · exact ih

/-- The block the loop stops at is the lowest one that differs. -/
theorem mismatch_eq_some {l : Lane} {first last n : Nat} {p : RangePayload first last}
    (h : mismatch l p.indexedBlocks = some n) :
    (∃ b ∈ p.indexedBlocks, b.1 = n ∧ Differs l b) ∧
      ∀ b ∈ p.indexedBlocks, Differs l b → n ≤ b.1 := by
  obtain ⟨b, hb, rfl⟩ := Option.map_eq_some_iff.mp h
  obtain ⟨hd, pre, post, hsplit, hpre⟩ := List.find?_eq_some_iff_append.mp hb
  have hmem : b ∈ p.indexedBlocks := List.mem_of_find?_eq_some hb
  refine ⟨⟨b, hmem, rfl, by simpa using hd⟩, fun c hc hdc => ?_⟩
  -- the blocks of a payload ascend, so what comes after `b` is not below it
  have hsorted : (p.indexedBlocks.map Prod.fst).Pairwise (· < ·) := by
    rw [p.blocks_exact]
    exact List.pairwise_lt_range'
  rw [hsplit, List.map_append, List.map_cons] at hsorted
  rw [hsplit] at hc
  rcases List.mem_append.mp hc with hc | hc
  · have hn := hpre c hc
    simp only [Bool.not_eq_true', decide_eq_false_iff_not] at hn
    exact absurd hdc hn
  · rcases List.mem_cons.mp hc with rfl | hc
    · exact Nat.le_refl _
    · have hb := (List.pairwise_cons.mp (List.pairwise_append.mp hsorted).2.1).1
      exact Nat.le_of_lt (hb _ (List.mem_map.mpr ⟨c, hc, rfl⟩))

theorem mismatch_eq_none {l : Lane} {blocks : List (Nat × Bytes)}
    (h : mismatch l blocks = none) : ∀ b ∈ blocks, ¬ Differs l b := by
  intro b hb
  simpa using List.find?_eq_none.mp (Option.map_eq_none_iff.mp h) b hb

/-! ## The four ends -/

abbrev Ended := Except Failure Unit × Session Db Statement

/-- `Err`, and the database is what it was. -/
def Failed (r : Ended) (db : Db) : Prop := (∃ e, r.1 = .error (.err e)) ∧ r.2.db = db

/-- A panic, and the database is what it was. -/
def Panicked (r : Ended) (db : Db) : Prop := r.1 = .error .panic ∧ r.2.db = db

section
variable {first last : Nat}

/-- `Ok`, with the commit of the payload; no block of it differs from the lane. -/
def Committed (r : Ended) (built : Except String (RangePayload first last)) (l : Lane)
    (commit : RangePayload first last → Db) : Prop :=
  r.1 = .ok () ∧ ∃ p, built = .ok p ∧ (∀ b ∈ p.indexedBlocks, ¬ Differs l b) ∧ r.2.db = commit p

/-- `Ok`, with the rollback from the lowest block of the payload that differs. -/
def RolledBack (r : Ended) (built : Except String (RangePayload first last)) (l : Lane)
    (rollback : Nat → Db) : Prop :=
  r.1 = .ok () ∧ ∃ p, built = .ok p ∧ ∃ n, (∃ b ∈ p.indexedBlocks, b.1 = n ∧ Differs l b) ∧
    (∀ b ∈ p.indexedBlocks, Differs l b → n ≤ b.1) ∧ r.2.db = rollback n

end

def ExactlyOne (a b c d : Prop) : Prop :=
  (a ∧ ¬ b ∧ ¬ c ∧ ¬ d) ∨ (¬ a ∧ b ∧ ¬ c ∧ ¬ d) ∨ (¬ a ∧ ¬ b ∧ c ∧ ¬ d) ∨ (¬ a ∧ ¬ b ∧ ¬ c ∧ d)

/-- The ends of a run on `db` in which the calls of `fails` return errors. -/
structure AllOrNothing {first last : Nat} (r : Ended) (fails : Nat → Option String)
    (built : Except String (RangePayload first last)) (db : Db) (l : Lane)
    (commit : RangePayload first last → Db) (rollback : Nat → Db) : Prop where
  ends : ExactlyOne (Failed r db) (Panicked r db) (Committed r built l commit)
    (RolledBack r built l rollback)
  panics : r.1 = .error .panic →
    ∃ p, built = .ok p ∧ ¬ p.Committable ∧ ∀ b ∈ p.indexedBlocks, ¬ Differs l b
  succeeds : (∀ k, fails k = none) → (r.1 = .ok () ↔
    ∃ p, built = .ok p ∧ (p.Committable ∨ ∃ b ∈ p.indexedBlocks, Differs l b))

/-- The calls of `fails` return `Err`. -/
def errs (fails : Nat → Option String) (k : Nat) : Option Failure := (fails k).map .err

/-! ## One range -/

/-- What the two functions need of the transactions they end with. -/
structure Transactions {first last : Nat} (handle : Nat → Calls Unit)
    (commit : RangePayload first last → Calls Unit) (rolled : Db → Nat → Db)
    (committed : Db → RangePayload first last → Db) : Prop where
  rollbackAtomic : ∀ n, (handle n).Atomic fun db _ db' => db' = rolled db n
  rollbackRaises : ∀ n P, (handle n).Raises P
  commitAtomic : ∀ p, (commit p).Atomic fun db _ db' => p.Committable ∧ db' = committed db p
  commitRaises : ∀ p, p.Committable → ∀ P, (commit p).Raises P
  commitFails : ∀ p, ¬ p.Committable → (commit p).Fails

section
variable {engine : BackfillEngine} {rpc : RpcClient} {first last : Nat} {lane : LaneName}
  {handle : Nat → Calls Unit} {commit : RangePayload first last → Calls Unit}
  {rolled : Db → Nat → Db} {committed : Db → RangePayload first last → Db}

/-- What the program does where it succeeds, and nothing where it fails. -/
theorem processRange_atomic (T : Transactions handle commit rolled committed) :
    (processRange engine rpc first last lane handle commit).Atomic fun db _ db' =>
      ∃ p, engine.buildRangePayload rpc first last = .ok p ∧
        (mismatch (lane.get db) p.indexedBlocks).elim (p.Committable ∧ db' = committed db p)
          fun n => db' = rolled db n := by
  have hend : ∀ (p : RangePayload first last) (o : Option Nat),
      Program.Atomic (o.elim (commit p) handle) fun db _ db' =>
        o.elim (p.Committable ∧ db' = committed db p) fun n => db' = rolled db n := by
    intro p o
    cases o with
    | some n => exact T.rollbackAtomic n
    | none => exact T.commitAtomic p
  have hloop := fun p : RangePayload first last =>
    Program.Quiet.atomic_bind (P := fun db o => o = mismatch (lane.get db) p.indexedBlocks)
      (firstMismatch_reads lane p.indexedBlocks).toQuiet
      (firstMismatch_reads lane p.indexedBlocks).result (hend p)
  refine (Program.Quiet.atomic_bind (.ofExcept _)
    (P := fun _ p => engine.buildRangePayload rpc first last = .ok p)
    (fun _ _ _ h => answer_ok.mp h) hloop).mono ?_
  intro db _ db' ⟨p, hp, o, ho, hdb⟩
  exact ⟨p, hp, ho ▸ hdb⟩

/-- How it ends where no call fails. -/
theorem processRange_ends (T : Transactions handle commit rolled committed) :
    (processRange engine rpc first last lane handle commit).Ends fun db =>
      (engine.buildRangePayload rpc first last).toOption.elim (none, db) fun p =>
        (mismatch (lane.get db) p.indexedBlocks).elim
          (if p.Committable then (some (), committed db p) else (none, db))
          fun n => (some (), rolled db n) := by
  have hend : ∀ (p : RangePayload first last) (o : Option Nat),
      Program.Ends (o.elim (commit p) handle) fun db =>
        o.elim (if p.Committable then (some (), committed db p) else (none, db))
          fun n => (some (), rolled db n) := by
    intro p o
    cases o with
    | some n => exact (T.rollbackAtomic n).ends (T.rollbackRaises n _) fun _ _ _ he => by rw [he]; rfl
    | none =>
      by_cases hc : p.Committable
      · simp only [Option.elim_none, if_pos hc]
        exact (T.commitAtomic p).ends (T.commitRaises p hc _) fun _ _ _ he => by rw [he.2]
      · simp only [Option.elim_none, if_neg hc]
        exact .of_fails (T.commitAtomic p) fun s => T.commitFails p hc _ s
  exact (answer_ends _).bind fun p => ((firstMismatch_reads lane p.indexedBlocks).ends
    (firstMismatch_raises lane _)).bind (hend p)

/-- Where calls return errors, only a commit that is not `Committable` panics. -/
theorem processRange_panics (T : Transactions handle commit rolled committed)
    {fails : Nat → Option String} {db : Db}
    (h : ((processRange engine rpc first last lane handle commit).run (errs fails)
      (.start db)).1 = .error .panic) :
    ∃ p, engine.buildRangePayload rpc first last = .ok p ∧ ¬ p.Committable ∧
      ∀ b ∈ p.indexedBlocks, ¬ Differs (lane.get db) b := by
  -- an error of a call is no panic
  have hcalls : ∀ k e, errs fails k = some e → e ≠ .panic := by
    intro k e he
    obtain ⟨text, -, rfl⟩ := Option.map_eq_some_iff.mp he
    exact fun h => by cases h
  have hnot : ∀ {α : Type} {p : Calls α} {s : Session Db Statement},
      p.Raises (· ≠ .panic) → (p.run (errs fails) s).1 ≠ .error .panic :=
    fun hp he => hp _ _ _ hcalls he rfl
  unfold processRange at h
  cases hb : engine.buildRangePayload rpc first last with
  | error e =>
    rw [hb] at h
    cases h
  | ok p =>
    rw [hb] at h
    rcases (firstMismatch_reads lane p.indexedBlocks).bind_error h with hl | ⟨s, hs⟩
    · exact absurd hl (hnot (firstMismatch_raises lane _))
    · have hdb : (Session.start db : Session Db Statement).db = db := rfl
      rw [hdb] at hs
      cases hm : mismatch (lane.get db) p.indexedBlocks with
      | some n =>
        rw [hm] at hs
        exact absurd hs (hnot (T.rollbackRaises n _))
      | none =>
        rw [hm] at hs
        exact ⟨p, rfl, fun hc => hnot (T.commitRaises p hc _) hs, mismatch_eq_none hm⟩

/-- What an atomic program that handles a mismatch ends with. -/
theorem ends_exactlyOne {r : Ended} {db : Db} {built : Except String (RangePayload first last)}
    (herr : ∀ e, r.1 = .error e → r.2.db = db)
    (hok : ∀ u, r.1 = .ok u → ∃ p, built = .ok p ∧
      (mismatch (lane.get db) p.indexedBlocks).elim (p.Committable ∧ r.2.db = committed db p)
        fun n => r.2.db = rolled db n) :
    ExactlyOne (Failed r db) (Panicked r db) (Committed r built (lane.get db) (committed db))
      (RolledBack r built (lane.get db) (rolled db)) := by
  obtain ⟨res, s⟩ := r
  cases res with
  | error e =>
    have hdb := herr e rfl
    have hc : ¬ Committed (.error e, s) built (lane.get db) (committed db) := fun h => by cases h.1
    have hr : ¬ RolledBack (.error e, s) built (lane.get db) (rolled db) := fun h => by cases h.1
    cases e with
    | err text => exact .inl ⟨⟨⟨text, rfl⟩, hdb⟩, fun h => (by cases h.1), hc, hr⟩
    | panic => exact .inr (.inl ⟨fun ⟨⟨_, h⟩, _⟩ => (by cases h), ⟨rfl, hdb⟩, hc, hr⟩)
  | ok u =>
    obtain ⟨p, hp, hdb⟩ := hok u rfl
    have hf : ¬ Failed (.ok u, s) db := fun ⟨⟨_, h⟩, _⟩ => by cases h
    have hpanic : ¬ Panicked (.ok u, s) db := fun h => by cases h.1
    have hsame : ∀ q, built = .ok q → q = p := fun q hq => Except.ok.inj (hq.symm.trans hp)
    cases hm : mismatch (lane.get db) p.indexedBlocks with
    | none =>
      rw [hm] at hdb
      have hnone := mismatch_eq_none hm
      refine .inr (.inr (.inl ⟨hf, hpanic, ⟨rfl, p, hp, hnone, hdb.2⟩, fun hr => ?_⟩))
      obtain ⟨-, q, hq, n, ⟨b, hb, -, hd⟩, -⟩ := hr
      rw [hsame q hq] at hb
      exact hnone b hb hd
    | some n =>
      rw [hm] at hdb
      obtain ⟨hn, hlow⟩ := mismatch_eq_some hm
      refine .inr (.inr (.inr ⟨hf, hpanic, fun hc => ?_, ⟨rfl, p, hp, n, hn, hlow, hdb⟩⟩))
      obtain ⟨-, q, hq, hnone, -⟩ := hc
      obtain ⟨b, hb, -, hd⟩ := hn
      exact hnone b (by rw [hsame q hq]; exact hb) hd

theorem processRange_allOrNothing (T : Transactions handle commit rolled committed)
    (fails : Nat → Option String) (db : Db) :
    AllOrNothing ((processRange engine rpc first last lane handle commit).run (errs fails)
      (.start db)) fails (engine.buildRangePayload rpc first last) db (lane.get db)
      (committed db) (rolled db) where
  ends := ends_exactlyOne ((processRange_atomic T).error _ _) ((processRange_atomic T).ok _ _)
  panics := processRange_panics T
  succeeds hnever := by
    have hcalls : ∀ k, errs fails k = none := fun k => Option.map_eq_none_iff.mpr (hnever k)
    have hends : (processRange engine rpc first last lane handle commit).Ends _ :=
      processRange_ends T
    obtain ⟨hr, -⟩ := hends.of_never hcalls (.start db)
    rw [← Program.toOption_eq_some, hr]
    cases engine.buildRangePayload rpc first last with
    | error e => exact ⟨fun h => (by cases h), fun ⟨p, hp, _⟩ => (by cases hp)⟩
    | ok p =>
      have hone : (∃ q, (.ok p : Except String _) = .ok q ∧
          (q.Committable ∨ ∃ b ∈ q.indexedBlocks, Differs (lane.get db) b)) ↔
          p.Committable ∨ ∃ b ∈ p.indexedBlocks, Differs (lane.get db) b :=
        ⟨fun ⟨q, hq, h⟩ => Except.ok.inj hq ▸ h, fun h => ⟨p, rfl, h⟩⟩
      rw [hone]
      simp only [Except.toOption, Option.elim_some, Session.start]
      cases hm : mismatch (lane.get db) p.indexedBlocks with
      | some n =>
        obtain ⟨⟨b, hb, -, hd⟩, -⟩ := mismatch_eq_some hm
        exact ⟨fun _ => .inr ⟨b, hb, hd⟩, fun _ => rfl⟩
      | none =>
        have hnone := mismatch_eq_none hm
        by_cases hc : p.Committable
        · rw [Option.elim_none, if_pos hc]
          exact ⟨fun _ => .inl hc, fun _ => rfl⟩
        · rw [Option.elim_none, if_neg hc]
          refine ⟨fun h => (by cases h), fun h => ?_⟩
          rcases h with h | ⟨b, hb, hd⟩
          · exact absurd h hc
          · exact absurd hd (hnone b hb)

end

theorem finalized_transactions : Transactions rollbackFromBlock
    (fun p : RangePayload first last => do
      let _ ← commitFinalizedRange p.transferRecords p.indexedBlocks first last
      pure ()) L2.rollbackFromBlock
    fun db p => (L2.commitFinalizedRange db p.transferRecords p.indexedBlocks first last).1 where
  rollbackAtomic := rollbackFromBlock_atomic
  rollbackRaises n _ := rollbackFromBlock_raises n
  commitAtomic _ := (((commitFinalizedRange_atomic ..).and_of_fails commit_fails).map fun _ => ()).mono
    fun _ _ _ ⟨_, _, hc, he⟩ => ⟨hc, congrArg Prod.fst he⟩
  commitRaises _ hc _ := (commitFinalizedRange_raises (fun r hr => (hc.partitioned r hr).1)
    (.inr hc)).bind fun _ => .pure ()
  commitFails _ hc := Program.Fails.bind_left (commit_fails hc) _

theorem hot_transactions : Transactions rollbackHotFromBlock
    (fun p : RangePayload first last => do
      let _ ← commitHotRange p.transferRecords p.indexedBlocks last
      pure ()) L2.rollbackHotFromBlock
    fun db p => (L2.commitHotRange db p.transferRecords p.indexedBlocks last).1 where
  rollbackAtomic := rollbackHotFromBlock_atomic
  rollbackRaises n _ := rollbackHotFromBlock_raises n
  commitAtomic _ := (((commitHotRange_atomic ..).and_of_fails commit_fails).map fun _ => ()).mono
    fun _ _ _ ⟨_, _, hc, he⟩ => ⟨hc, congrArg Prod.fst he⟩
  commitRaises _ hc _ := (commitHotRange_raises (fun r hr => (hc.partitioned r hr).1)
    (.inr hc)).bind fun _ => .pure ()
  commitFails _ hc := Program.Fails.bind_left (commit_fails hc) _

/-- **All or nothing.** From every database state, for every range and all
answers of the RPC, and whichever `SELECT`s and statements return errors, each of
the two functions ends in exactly one of four ways. It panics only over a payload
that cannot be committed, and where no call fails every other payload succeeds. -/
theorem process_all_or_nothing (engine : BackfillEngine) (rpc : RpcClient) (first last : Nat)
    (fails : Nat → Option String) (db : Db) :
    AllOrNothing ((processFinalizedRange engine rpc first last).run (errs fails) (.start db)) fails
      (engine.buildRangePayload rpc first last) db db.cold
      (fun p => (L2.commitFinalizedRange db p.transferRecords p.indexedBlocks first last).1)
      (L2.rollbackFromBlock db) ∧
    AllOrNothing ((processHotRange engine rpc first last).run (errs fails) (.start db)) fails
      (engine.buildRangePayload rpc first last) db db.hot
      (fun p => (L2.commitHotRange db p.transferRecords p.indexedBlocks last).1)
      (L2.rollbackHotFromBlock db) :=
  ⟨processRange_allOrNothing finalized_transactions fails db,
    processRange_allOrNothing hot_transactions fails db⟩

/-- A batch with one transfer, on the empty database. -/
theorem process_all_or_nothing_oneTransfer :
    let r := (processFinalizedRange (.ofDepths 0 1) (.ofChain oneTransfer) 1 1).run
      (errs fun _ => none) (.start .migrated)
    r.1 = .ok () ∧ r.2.db.cold.keys = [1] := by
  obtain ⟨p, hp, hfits⟩ := oneTransfer_payload
  have hc : p.Committable := hfits
  exact ⟨((process_all_or_nothing (.ofDepths 0 1) (.ofChain oneTransfer) 1 1 (fun _ => none)
    .migrated).1.succeeds fun _ => rfl).mpr ⟨p, hp, .inl hc⟩, by decide +kernel⟩

/-- What always panics is no other end. -/
theorem panicked_only {first last : Nat} {r : Ended} {db : Db} {l : Lane}
    {built : Except String (RangePayload first last)} {commit : RangePayload first last → Db}
    {rollback : Nat → Db} (h : Panicked r db) :
    ¬ Failed r db ∧ ¬ Committed r built l commit ∧ ¬ RolledBack r built l rollback := by
  have hr := h.1
  refine ⟨fun ⟨⟨_, he⟩, _⟩ => ?_, fun he => ?_, fun he => ?_⟩
  · rw [hr] at he
    cases he
  · exact absurd (hr.symm.trans he.1) fun he => by cases he
  · exact absurd (hr.symm.trans he.1) fun he => by cases he

/-- Where no call fails and no block differs, a payload that is not `Committable` is
a panic. -/
theorem processFinalizedRange_panicked {engine : BackfillEngine} {rpc : RpcClient}
    {first last : Nat} {p : RangePayload first last} {db : Db}
    (hp : engine.buildRangePayload rpc first last = .ok p) (hlast : last < lastPartition)
    (hc : ¬ p.Committable) (hnone : ∀ b ∈ p.indexedBlocks, ¬ Differs db.cold b) :
    Panicked ((processFinalizedRange engine rpc first last).run (errs fun _ => none) (.start db))
      db := by
  -- nothing of the program fails but the commit, and that with a panic
  have hraises : (processFinalizedRange engine rpc first last).Raises (· = .panic) := by
    unfold processFinalizedRange processRange
    rw [hp]
    refine Program.Raises.bind (.pure p) fun p => Program.Raises.bind (firstMismatch_raises _ _)
      fun o => ?_
    cases o with
    | some n => exact rollbackFromBlock_raises n
    | none =>
      exact (commitFinalizedRange_raises (P := (· = .panic))
        (fun r hr => (p.partitioned hlast r hr).1) (.inl rfl)).bind fun _ => .pure ()
  have ha : (processFinalizedRange engine rpc first last).Atomic _ :=
    processRange_atomic finalized_transactions
  have hall : AllOrNothing ((processFinalizedRange engine rpc first last).run _ (.start db)) _ _ db
      db.cold _ _ := processRange_allOrNothing finalized_transactions (fun _ => none) db
  cases hr : ((processFinalizedRange engine rpc first last).run (errs fun _ => none)
      (.start db)).1 with
  | ok u =>
    obtain ⟨q, hq, h⟩ := (hall.succeeds fun _ => rfl).mp hr
    have hqp : q = p := Except.ok.inj (hq.symm.trans hp)
    rcases h with h | ⟨b, hb, hd⟩
    · exact absurd (hqp ▸ h) hc
    · exact absurd hd (hnone b (hqp ▸ hb))
  | error e =>
    have he : e = .panic := hraises _ _ e (fun _ _ h => by cases h) hr
    exact ⟨he ▸ hr, ha.error _ _ e hr⟩

/-- **Counterexample.** 7282 transfers in one block: no call returns an error, and
the client library panics. -/
theorem process_panics :
    let r := (processFinalizedRange (.ofDepths 0 1) (.ofChain (busyChain 7282)) 1 1).run
      (errs fun _ => none) (.start .migrated)
    let built := (BackfillEngine.ofDepths 0 1).buildRangePayload (.ofChain (busyChain 7282)) 1 1
    Panicked r .migrated ∧ ¬ Failed r .migrated ∧
      ¬ Committed r built Db.migrated.cold (fun p => (L2.commitFinalizedRange .migrated
        p.transferRecords p.indexedBlocks 1 1).1) ∧
      ¬ RolledBack r built Db.migrated.cold (L2.rollbackFromBlock .migrated) := by
  intro r built
  obtain ⟨p, hp, hlen⟩ := busyChain_payload 7282
  have hr : Panicked r .migrated := by
    refine processFinalizedRange_panicked hp (by decide) (fun hc => ?_) fun b _ hd => ?_
    · have hlim := hc.transferBinds
      rw [hlen] at hlim
      exact absurd hlim (by decide)
    · obtain ⟨existing, hex, -⟩ := hd
      cases hex
  exact ⟨hr, panicked_only hr⟩

/-! ## On the provider of a chain -/

section
variable {engine : BackfillEngine} {C : Chain} {first last : Nat}

theorem fetched_ofChain (h : last ≤ C.height) :
    (RpcClient.ofChain C).fetchBlockMetadataRange first last = .ok (fetched C first last).val := by
  refine mapM_ok.mpr (List.forall₂_map_right_iff.mpr (List.forall₂_same.mpr fun n hn => ?_))
  have hle : n ≤ C.height := Nat.le_trans (mem_rangeIncl.mp hn).2 h
  exact ((RpcClient.ofChain C).fetchBlockMetadata_ok).mpr ⟨_, _, RpcClient.finds_ofChain hle, rfl⟩

/-- The block the loop stops at is the one the iteration rolls back from. -/
theorem mismatch_eq_firstReorg (db : Db) (p : RangePayload first last) :
    mismatch db.cold p.indexedBlocks = (firstReorg db p).map Prod.fst := by
  unfold mismatch firstReorg
  congr 2
  funext b
  have hdb : L2.getBlockHash db b.1 = db.cold.getBlockHash b.1 := rfl
  cases hs : db.cold.getBlockHash b.1 <;> simp [Differs, hdb, hs]

/-- On the chain the program builds the payload of the iteration. -/
theorem buildRangePayload_ofChain (h : last ≤ C.height) {p : RangePayload first last} :
    engine.buildRangePayload (.ofChain C) first last = .ok p ↔
      buildRangePayload (fetched C first last) (C.getLogs engine.contractFilter first last) =
        .ok p := by
  rw [BackfillEngine.buildRangePayload_ok]
  constructor
  · intro ⟨metas, logs, hm, hl, hbuild⟩
    have hmetas : metas = fetched C first last :=
      Subtype.ext (Except.ok.inj (hm.symm.trans (fetched_ofChain h)))
    have hlogs : logs = C.getLogs engine.contractFilter first last := (Except.ok.inj hl).symm
    subst hmetas hlogs
    exact hbuild
  · exact fun hbuild => ⟨_, _, fetched_ofChain h, rfl, hbuild⟩

/-- An iteration that fails has no result. -/
def result : Outcome → Option Unit
  | .failed => none
  | _ => some ()

/-- Where no call fails, the program ends as the iteration's `processFinalizedRange`. -/
theorem processFinalizedRange_ends (h : last ≤ C.height) :
    (processFinalizedRange engine (.ofChain C) first last).Ends fun db =>
      (result (L3.processFinalizedRange engine C db first last).1,
        (L3.processFinalizedRange engine C db first last).2) := by
  refine (processRange_ends finalized_transactions).congr fun db => ?_
  have hbuilt : (engine.buildRangePayload (.ofChain C) first last).toOption =
      (buildRangePayload (fetched C first last)
        (C.getLogs engine.contractFilter first last)).toOption := by
    refine Option.ext fun p => ?_
    rw [Program.toOption_eq_some, Program.toOption_eq_some, buildRangePayload_ofChain h]
  rw [hbuilt, L3.processFinalizedRange]
  cases buildRangePayload (fetched C first last)
      (C.getLogs engine.contractFilter first last) with
  | error e => rfl
  | ok p =>
    have hm : mismatch (LaneName.cold.get db) p.indexedBlocks = (firstReorg db p).map Prod.fst :=
      mismatch_eq_firstReorg db p
    simp only [Except.toOption, Option.elim_some, hm]
    cases firstReorg db p with
    | some b => rfl
    | none =>
      simp only [Option.map_none, Option.elim_none]
      split <;> rfl

/-- **Refinement.** Where the whole range is on the chain, the program either fails
without an effect or has the effect of the iteration's `processFinalizedRange`. -/
theorem processFinalizedRange_refines (h : last ≤ C.height) (fails : Nat → Option Failure)
    (db : Db) :
    let r := (processFinalizedRange engine (.ofChain C) first last).run fails (.start db)
    (∀ e, r.1 = .error e → r.2.db = db) ∧
      (∀ u, r.1 = .ok u → r.2.db = (L3.processFinalizedRange engine C db first last).2) := by
  intro r
  have ha : (processFinalizedRange engine (.ofChain C) first last).Atomic _ :=
    processRange_atomic finalized_transactions
  refine ⟨fun e he => ha.error _ _ e he, fun u hu => ?_⟩
  obtain ⟨p, hp, hdb⟩ := ha.ok _ _ u hu
  have hm : mismatch (LaneName.cold.get db) p.indexedBlocks = (firstReorg db p).map Prod.fst :=
    mismatch_eq_firstReorg db p
  have hstart : (Session.start db : Session Db Statement).db = db := rfl
  rw [hstart, hm] at hdb
  rw [L3.processFinalizedRange, (buildRangePayload_ofChain h).mp hp]
  dsimp only
  cases hr : firstReorg db p with
  | some b =>
    rw [hr] at hdb
    exact hdb
  | none =>
    rw [hr] at hdb
    obtain ⟨hc, hdb⟩ := hdb
    rw [if_pos hc]
    exact hdb

end

end EthIndexer.L6
