import Mathlib.Data.Int.Interval
import EthIndexer.Core.Watch
import EthIndexer.L4Lanes.ColdLane

/-!
# `indexerStatus`

The status is put together from five `SELECT`s, each on a connection of its own and
not in a transaction, while the workers commit. `statusSystem` is one such request in
the system of both workers; a request that outlives a restart of the process is more
than there can be.

The five values are those of states during the request, in order, but need not be
those of one state: `status_torn` commits a range between the first and the second
`SELECT`. They are where no commit changes a value already read
(`status_reads`), and a status of one state is coherent: `latest_finalized_block` and
the count follow from `last_processed_block` (`coherent_of_coldKeys`).
-/
namespace EthIndexer.L5
open EthIndexer.L1 EthIndexer.L2 EthIndexer.L3 EthIndexer.L4

/-- mirrors crates/api/src/schema.rs:27-34 -/
structure IndexerStatus where
  lastProcessedBlock : Int64
  latestFinalizedBlock : Option Int64
  latestHotBlock : Option Int64
  latestAvailableBlock : Option Int64
  finalizedBlockCount : Nat
  hotBlockCount : Nat
  deriving DecidableEq

/-- `SELECT MAX(block_number)`. -/
def maxBlock (l : Lane) : Option Int64 := l.keys.max?

/-- `SELECT COUNT(*)`. -/
def blockCount (l : Lane) : Nat := l.blocks.rows.length

/-- `Option::max`; `None` is the least. -/
def optionMax : Option Int64 → Option Int64 → Option Int64
  | none, b => b
  | some a, none => some a
  | some a, some b => some (max a b)

/-- The request before its next `SELECT`, with the local variables it has. -/
inductive StatusPc where
  | lastProcessed
  | latestFinalized (lastProcessed : Int64)
  | latestHot (lastProcessed : Int64) (latestFinalized : Option Int64)
  | finalizedCount (lastProcessed : Int64) (latestFinalized latestHot latestAvailable : Option Int64)
  | hotCount (lastProcessed : Int64) (latestFinalized latestHot latestAvailable : Option Int64)
      (finalizedCount : Nat)
  | done (status : IndexerStatus)
  deriving DecidableEq

/-- What the request makes of the next `SELECT`.
mirrors crates/api/src/schema.rs:165-210 -/
def StatusPc.next : StatusPc → Option (Db → StatusPc)
  | lastProcessed => some fun db => latestFinalized db.indexerCheckpoint
  | latestFinalized last => some fun db => latestHot last (maxBlock db.cold)
  | latestHot last finalized => some fun db =>
    finalizedCount last finalized (maxBlock db.hot) (optionMax finalized (maxBlock db.hot))
  | finalizedCount last finalized hot available => some fun db =>
    hotCount last finalized hot available (blockCount db.cold)
  | hotCount last finalized hot available count => some fun db =>
    done ⟨last, finalized, hot, available, count, blockCount db.hot⟩
  | done _ => none

abbrev StatusRun := Watched Sys Db StatusPc

/-- A request among the steps of both workers. -/
def statusSystem (M : LTS Sys Label) : LTS StatusRun (Option Label) :=
  Watched.watch M Sys.db .lastProcessed StatusPc.next

/-- The status of one database state. -/
def statusOf (db : Db) : IndexerStatus where
  lastProcessedBlock := db.indexerCheckpoint
  latestFinalizedBlock := maxBlock db.cold
  latestHotBlock := maxBlock db.hot
  latestAvailableBlock := optionMax (maxBlock db.cold) (maxBlock db.hot)
  finalizedBlockCount := blockCount db.cold
  hotBlockCount := blockCount db.hot

/-- The status of five states, one for each `SELECT`. -/
def statusOfReads (d₁ d₂ d₃ d₄ d₅ : Db) : IndexerStatus where
  lastProcessedBlock := d₁.indexerCheckpoint
  latestFinalizedBlock := maxBlock d₂.cold
  latestHotBlock := maxBlock d₃.hot
  latestAvailableBlock := optionMax (maxBlock d₂.cold) (maxBlock d₃.hot)
  finalizedBlockCount := blockCount d₄.cold
  hotBlockCount := blockCount d₅.hot

/-- The numbers agree: with blocks stored, the latest one is the last processed, and
their count is what `start_block` and the last processed block make it. -/
def Coherent (start : Nat) (status : IndexerStatus) : Prop :=
  0 < status.finalizedBlockCount →
    status.latestFinalizedBlock = some status.lastProcessedBlock ∧
    (status.finalizedBlockCount : Int) = status.lastProcessedBlock.toInt - (max start 1 : Nat) + 1

/-! ## The reads of a request -/

/-- A finished request has made five reads. -/
theorem reads_of_done {reads : List Db} {status : IndexerStatus}
    (h : Watched.after StatusPc.next .lastProcessed reads = some (.done status)) :
    ∃ d₁ d₂ d₃ d₄ d₅, reads = [d₁, d₂, d₃, d₄, d₅] ∧ status = statusOfReads d₁ d₂ d₃ d₄ d₅ := by
  rcases reads with _ | ⟨d₁, _ | ⟨d₂, _ | ⟨d₃, _ | ⟨d₄, _ | ⟨d₅, _ | ⟨d₆, rest⟩⟩⟩⟩⟩⟩
  · cases h
  · cases h
  · cases h
  · cases h
  · cases h
  · cases h
    exact ⟨d₁, d₂, d₃, d₄, d₅, rfl, rfl⟩
  · cases h

theorem statusOfReads_self (db : Db) : statusOfReads db db db db db = statusOf db := rfl

/-! ## One state -/

theorem maxBlock_eq {start : Nat} {db : Db} (h : ColdKeys start db) (hne : 0 < blockCount db.cold) :
    maxBlock db.cold = some db.indexerCheckpoint := by
  have hlen : 0 < db.cold.keys.length := by
    rw [Lane.keys, Table.keys, List.length_map]
    exact hne
  obtain ⟨k, hk⟩ := List.exists_mem_of_length_pos hlen
  have hbounds := (h k).mp hk
  refine List.max?_eq_some_iff.mpr ⟨(h _).mpr ⟨by omega, Int.le_refl _⟩, fun j hj => ?_⟩
  exact Int64.le_iff_toInt_le.mpr ((h j).mp hj).2

/-- The cold lane has one block for each number up to the checkpoint. -/
theorem blockCount_eq {start : Nat} {db : Db} (h : ColdKeys start db)
    (hne : 0 < blockCount db.cold) :
    (blockCount db.cold : Int) = db.indexerCheckpoint.toInt - (max start 1 : Nat) + 1 := by
  have hlen : blockCount db.cold = (db.cold.keys.map Int64.toInt).length := by
    rw [List.length_map, Lane.keys, Table.keys, List.length_map, blockCount]
  have hnodup : (db.cold.keys.map Int64.toInt).Nodup :=
    db.cold.blocks.nodup.map fun _ _ => Int64.toInt_inj.mp
  have hset : (db.cold.keys.map Int64.toInt).toFinset =
      Finset.Icc ((max start 1 : Nat) : Int) db.indexerCheckpoint.toInt := by
    ext i
    rw [List.mem_toFinset, List.mem_map, Finset.mem_Icc]
    constructor
    · rintro ⟨k, hk, rfl⟩
      exact (h k).mp hk
    · intro hi
      have hlt := db.indexerCheckpoint.toInt_lt
      have hcast : (Int64.ofInt i).toInt = i :=
        Int64.toInt_ofInt_of_le (by omega) (by omega)
      exact ⟨.ofInt i, (h _).mpr (by rwa [hcast]), hcast⟩
  have hcard := List.toFinset_card_of_nodup hnodup
  rw [hset, Int.card_Icc, ← hlen] at hcard
  omega

theorem coherent_of_coldKeys {start : Nat} {db : Db} (h : ColdKeys start db) :
    Coherent start (statusOf db) :=
  fun hne => ⟨maxBlock_eq h hne, blockCount_eq h hne⟩

/-! ## Any interleaving -/

section
variable {M : LTS Sys Label} {w : StatusRun} {status : IndexerStatus}

/-- No step between the first and the last `SELECT` changes a value already read. -/
abbrev Undisturbed (M : LTS Sys Label) : StatusRun → Option Label → Prop :=
  Watched.Undisturbed M Sys.db .lastProcessed StatusPc.next

theorem status_inOrder (h : (statusSystem M).Reachable w) (hdone : w.reader = .done status) :
    ∃ d₁ d₂ d₃ d₄ d₅, Watched.InOrder w.seen [d₁, d₂, d₃, d₄, d₅] ∧
      status = statusOfReads d₁ d₂ d₃ d₄ d₅ := by
  have I := Watched.watching.reachable w h
  have hreads := I.reader
  rw [hdone] at hreads
  obtain ⟨d₁, d₂, d₃, d₄, d₅, hr, hs⟩ := reads_of_done hreads
  exact ⟨d₁, d₂, d₃, d₄, d₅, hr ▸ I.inOrder, hs⟩

theorem status_undisturbed (h : ((statusSystem M).restrict (Undisturbed M)).Reachable w)
    (hdone : w.reader = .done status) : ∃ d ∈ w.seen, status = statusOf d := by
  have hsnap := Watched.watch_snapshot.reachable w h
  rw [hdone] at hsnap
  obtain ⟨d₁, d₂, d₃, d₄, d₅, hr, hs⟩ := reads_of_done hsnap
  have hall : ∀ d ∈ [d₁, d₂, d₃, d₄, d₅], d = w.sys.db := fun d hd =>
    List.eq_of_mem_replicate (hr ▸ hd)
  simp only [List.forall_mem_cons] at hall
  obtain ⟨rfl, rfl, rfl, rfl, rfl, -⟩ := hall
  obtain ⟨init, hlast⟩ := (Watched.watching.reachable w h.of_restrict).last
  exact ⟨w.sys.db, by rw [hlast]; simp, hs.trans (statusOfReads_self _)⟩

/-- A status of the states of a request, heads below 2^63. -/
theorem coherent_seen {engine : BackfillEngine} {start : Nat}
    (h : (statusSystem (systemWith engine start BackfillHeadFits)).Reachable w) :
    ∀ d ∈ w.seen, Coherent start (statusOf d) := by
  intro d hd
  obtain ⟨s, hs, rfl⟩ := (Watched.watching.reachable w h).seen d hd
  exact coherent_of_coldKeys ((coldInv_inductive engine start).reachable s hs).keys

end

/-- **Status reads.** In every interleaving of a request with the steps of both
workers, the five values are those of states during the request, in the order of the
`SELECT`s. Where no step changes a value already read (a step that leaves the
database alone does not), they are those of one of these states; and with
heads below 2^63 they are then coherent. -/
theorem status_reads (engine : BackfillEngine) (start : Nat) :
    (∀ w, (statusSystem (system engine start)).Reachable w →
      ∀ status, w.reader = .done status → ∃ d₁ d₂ d₃ d₄ d₅,
        Watched.InOrder w.seen [d₁, d₂, d₃, d₄, d₅] ∧ status = statusOfReads d₁ d₂ d₃ d₄ d₅) ∧
    (∀ w, ((statusSystem (system engine start)).restrict
        (Undisturbed (system engine start))).Reachable w →
      ∀ status, w.reader = .done status → ∃ d ∈ w.seen, status = statusOf d) ∧
    (∀ w l, (∀ s, (system engine start).step w.sys l s → s.db = w.sys.db) →
      Undisturbed (system engine start) w (some l)) ∧
    (∀ w, ((statusSystem (systemWith engine start BackfillHeadFits)).restrict
        (Undisturbed (systemWith engine start BackfillHeadFits))).Reachable w →
      ∀ status, w.reader = .done status → Coherent start status) := by
  refine ⟨fun w h status hdone => status_inOrder h hdone,
    fun w h status hdone => status_undisturbed h hdone,
    fun w l h => Watched.undisturbed_of_view h, fun w h status hdone => ?_⟩
  obtain ⟨d, hd, rfl⟩ := status_undisturbed h hdone
  exact coherent_seen h.of_restrict d hd

/-- Block 1 is indexed and the range of block 2 is about to be committed. -/
def beforeRequest : List Label :=
  [.backfill .sql, .backfill (.blockNumber 1), .backfill .sql, .backfill .sql] ++
    rangeLabels .backfill (.fork 2 9 0) none 1 1 ++
    [.backfill (.blockNumber 2), .backfill .sql] ++ historyLabels (.fork 2 9 0) 1 1 ++
    [.backfill .sql] ++ (rangeLabels .backfill (.fork 2 9 0) none 2 2).dropLast

/-- **Counterexample.** The commit of block 2 between the first and the second
`SELECT`: block 1 is the last processed one, block 2 the latest finalized one, and two
blocks are counted. No state of the request has this status. -/
theorem status_torn : ∃ w status, (statusSystem (system (.ofDepths 0 1) 1)).Reachable w ∧
    w.reader = .done status ∧ status = ⟨1, some 2, none, some 2, 2, 0⟩ ∧
    (∀ d ∈ w.seen, status ≠ statusOf d) ∧ ¬ Coherent 1 status := by
  have hx : ((LTS.exec (step (.ofDepths 0 1) 1) .init beforeRequest).bind fun s =>
      LTS.exec (Watched.stepFn Sys.db StatusPc.next (step (.ofDepths 0 1) 1))
        ⟨s, .lastProcessed, [s.db], []⟩ [none, some (.backfill .sql), none, none, none, none]).map
          (fun w => (w.reader, w.seen.map statusOf)) =
      some (.done ⟨1, some 2, none, some 2, 2, 0⟩,
        [⟨1, some 1, none, some 1, 1, 0⟩, ⟨2, some 2, none, some 2, 2, 0⟩]) := by
    decide +kernel
  obtain ⟨w, hw, he⟩ := Watched.watch_of_exec (M := system (.ofDepths 0 1) 1) (fun _ _ _ h => h) rfl hx
  obtain ⟨hdone, hseen⟩ := Prod.mk.injEq .. ▸ he
  refine ⟨w, _, hw, hdone, rfl, fun d hd hs => ?_, fun hc => ?_⟩
  · have hmem := List.mem_map_of_mem (f := statusOf) hd
    rw [hseen, ← hs] at hmem
    revert hmem
    decide
  · have hfin := (hc (by decide)).1
    revert hfin
    decide

end EthIndexer.L5
