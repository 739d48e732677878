import EthIndexer.L3Engine.Iterate

/-!
# The iteration as a run

`iterate` is what the small-step backfill worker does when nothing disturbs it:
`iterate_run` takes an iteration that does not fail to a run of the system from
`head`, on labels that are all answers of the chain (`Undisturbed`).

The run is put together from three loops: the walk over the history
(`goes_history`), the metadata requests, answered in order (`goes_blocks`), and
the comparison with the stored hashes (`goes_check`).
-/
namespace EthIndexer.L3
open EthIndexer.L1 EthIndexer.L2

/-- The backfill worker alone, answered by `C` at its height. -/
def Undisturbed (C : Chain) (filter : Option Bytes) : Label → Prop
  | .backfill (.blockNumber latest) => latest = C.height
  | .backfill (.block n hash timestamp) =>
    n ≤ C.height ∧ hash = C.hash n ∧ timestamp = C.timestamp n
  | .backfill (.logs first last ls) => ls = C.getLogs filter first last
  | .backfill .sql | .backfill .timer => True
  | .live _ | .crash => False

def undisturbed (engine : BackfillEngine) (start : Nat) (C : Chain) : LTS Sys Label :=
  systemWith engine start (Undisturbed C engine.contractFilter)

/-- The system with the backfill worker at `pc` on the database `db`. -/
def Sys.at (s : Sys) (db : Db) (pc : BackfillPc) : Sys := { s with db := db, backfill := pc }

/-- The backfill worker gets from `pc` on `db` to `pc'` on `db'`. -/
def Goes (engine : BackfillEngine) (start : Nat) (C : Chain) (s : Sys) (db : Db) (pc : BackfillPc)
    (db' : Db) (pc' : BackfillPc) : Prop :=
  ∃ ls, (undisturbed engine start C).Run (s.at db pc) ls (s.at db' pc')

section
variable {engine : BackfillEngine} {start : Nat} {C : Chain} {s : Sys} {db db' db'' : Db}
  {pc pc' pc'' : BackfillPc}

theorem Goes.refl : Goes engine start C s db pc db pc := ⟨[], .nil _⟩

theorem Goes.trans (h : Goes engine start C s db pc db' pc')
    (h' : Goes engine start C s db' pc' db'' pc'') : Goes engine start C s db pc db'' pc'' := by
  obtain ⟨ls, hr⟩ := h
  obtain ⟨ls', hr'⟩ := h'
  exact ⟨ls ++ ls', hr.append hr'⟩

theorem Goes.step {e : Event} (hE : Undisturbed C engine.contractFilter (.backfill e))
    (h : backfillStep engine start db pc e = some (.goto pc' db')) :
    Goes engine start C s db pc db' pc' := by
  refine ⟨[.backfill e], .single ⟨hE, ?_⟩⟩
  show L3.step engine start (s.at db pc) (.backfill e) = some (s.at db' pc')
  simp only [L3.step, Sys.at, h, Option.map_some]

/-! ## `reconcile_finalized_history` -/

theorem goes_historyRow {latest checkpoint n : Nat} (hn : n ≤ C.height) :
    Goes engine start C s db (.history latest checkpoint n) db
      (.historyRow latest checkpoint n (C.hash n)) := by
  refine Goes.step (e := .block n (C.hash n) (C.timestamp n)) ⟨hn, rfl, rfl⟩ ?_
  simp only [backfillStep, if_true]

/-- The walk passes every block that is stored with the hash of the chain. -/
theorem goes_history {latest checkpoint n m : Nat} (hnm : n ≤ m) (hm : m ≤ checkpoint)
    (h : ∀ j, n ≤ j → j < m → j ≤ C.height ∧ getBlockHash db j = some (C.hash j).val) :
    Goes engine start C s db (.history latest checkpoint n) db (.history latest checkpoint m) := by
  obtain ⟨d, hd⟩ := Nat.exists_eq_add_of_le hnm
  subst hd
  induction d with
  | zero => exact .refl
  | succ d ih =>
    obtain ⟨hh, hs⟩ := h (n + d) (by omega) (by omega)
    have hwalk := ih (by omega) (by omega) fun j hj hjm => h j hj (by omega)
    refine (hwalk.trans (goes_historyRow hh)).trans (Goes.step (e := .sql) trivial ?_)
    simp only [backfillStep, hs, if_true]
    rw [if_pos (by omega)]
    rfl

/-- From the checkpoint read to the plan, or to the rollback. -/
theorem goes_reconcile (latest : Nat)
    (hf : ∀ n, reconcile engine start C db = some n → n ≤ C.height) :
    Goes engine start C s db (.checkpoint latest) db
      (match reconcile engine start C db with
        | some n => .rollback n
        | none => .plan latest) := by
  by_cases hle : start ≤ getCheckpoint db
  · have hread : Goes engine start C s db (.checkpoint latest) db (.history latest
        (getCheckpoint db) (engine.validationStart start (getCheckpoint db))) := by
      refine Goes.step (e := .sql) trivial ?_
      simp only [backfillStep, if_pos hle]
    refine hread.trans ?_
    have hv := engine.validationStart_le hle
    cases hr : reconcile engine start C db with
    | none =>
      have hall := reconcile_eq_none.mp hr
      obtain ⟨hh, hs⟩ := hall _ hv (Nat.le_refl _)
      refine ((goes_history hv (Nat.le_refl _) fun j hj hjm => hall j hj (by omega)).trans
        (goes_historyRow hh)).trans (Goes.step (e := .sql) trivial ?_)
      simp only [backfillStep, hs, if_true, Nat.lt_irrefl, if_false]
    | some n =>
      have hn := hf n hr
      obtain ⟨-, hnc, hbad⟩ := reconcile_eq_some hr
      unfold reconcile at hr
      rw [if_pos hle, rangeIncl, List.find?_range'_eq_some] at hr
      obtain ⟨-, hmem, hbefore⟩ := hr
      have hgood : ∀ j, engine.validationStart start (getCheckpoint db) ≤ j → j < n →
          j ≤ C.height ∧ getBlockHash db j = some (C.hash j).val := by
        intro j hj hjn
        simpa only [Bool.not_eq_true', decide_eq_false_iff_not, not_or, Nat.not_lt, ne_eq,
          Decidable.not_not] using hbefore j hj hjn
      have hne : getBlockHash db n ≠ some (C.hash n).val := by
        rcases hbad with hbad | hbad
        · omega
        · exact hbad
      have hvn := (List.mem_range'_1.mp hmem).1
      refine ((goes_history hvn hnc hgood).trans (goes_historyRow hn)).trans
        (Goes.step (e := .sql) trivial ?_)
      simp only [backfillStep, if_neg hne]
  · have hr : reconcile engine start C db = none := by unfold reconcile; rw [if_neg hle]
    rw [hr]
    refine Goes.step (e := .sql) trivial ?_
    simp only [backfillStep, if_neg hle]

/-! ## The metadata of a range -/

/-- The metadata of the first `k` blocks from `first` on. -/
def prefixMetas (C : Chain) (first k : Nat) : List BlockMetadata :=
  (List.range' first k).map C.metadata

theorem lookupBlock_prefixMetas (first k n : Nat) : lookupBlock (prefixMetas C first k) n =
    if first ≤ n ∧ n < first + k then some (C.metadata n) else none := by
  split
  · rename_i h
    have hk : prefixMetas C first k = (rangeIncl first (first + k - 1)).map C.metadata := by
      rw [prefixMetas, rangeIncl, show first + k - 1 + 1 - first = k by omega]
    rw [hk]
    exact lookupBlock_metadata (by omega)
  · rename_i h
    refine List.find?_eq_none.mpr fun m hm => ?_
    obtain ⟨j, hj, he⟩ := List.mem_map.mp hm
    have hj := List.mem_range'_1.mp hj
    subst he
    have hne : j ≠ n := by omega
    exact fun h => hne (of_decide_eq_true h)

theorem collect_prefixMetas (first last k : Nat) (hk : k ≤ last + 1 - first) :
    (rangeIncl first last).filterMap (lookupBlock (prefixMetas C first k)) =
      prefixMetas C first k := by
  have hsplit : rangeIncl first last =
      List.range' first k ++ List.range' (first + k) (last + 1 - first - k) := by
    rw [rangeIncl, List.range'_append_1, show k + (last + 1 - first - k) = last + 1 - first by omega]
  have hin : (List.range' first k).filterMap (lookupBlock (prefixMetas C first k)) =
      (List.range' first k).map C.metadata := by
    rw [← List.filterMap_eq_map]
    refine List.filterMap_congr fun n hn => ?_
    have hn := List.mem_range'_1.mp hn
    rw [lookupBlock_prefixMetas, if_pos (by omega)]
    rfl
  have hout : (List.range' (first + k) (last + 1 - first - k)).filterMap
      (lookupBlock (prefixMetas C first k)) = [] := by
    rw [List.filterMap_eq_nil_iff]
    intro n hn
    have hn := List.mem_range'_1.mp hn
    rw [lookupBlock_prefixMetas, if_neg (by omega)]
  rw [hsplit, List.filterMap_append, hin, hout, List.append_nil]
  rfl

theorem prefixMetas_numbers (first k : Nat) :
    (prefixMetas C first k).map BlockMetadata.number = List.range' first k := by
  rw [prefixMetas, List.map_map]
  exact List.map_id _

theorem enterBlocks_prefixMetas {first last k : Nat} (hk : k < last + 1 - first) :
    enterBlocks first last (prefixMetas C first k) = .blocks (prefixMetas C first k) := by
  have hne : ¬ ((rangeIncl first last).filterMap (lookupBlock (prefixMetas C first k))).map
      BlockMetadata.number = rangeIncl first last := by
    rw [collect_prefixMetas first last k (by omega), prefixMetas_numbers, rangeIncl]
    intro h
    have := congrArg List.length h
    simp only [List.length_range'] at this
    omega
  unfold enterBlocks collect
  rw [dif_neg hne]

theorem enterBlocks_all {first last : Nat} :
    enterBlocks first last (prefixMetas C first (last + 1 - first)) =
      .logs (fetched C first last) := by
  have hall := collect_prefixMetas (C := C) first last (last + 1 - first) (Nat.le_refl _)
  have hnum : ((rangeIncl first last).filterMap
      (lookupBlock (prefixMetas C first (last + 1 - first)))).map BlockMetadata.number =
      rangeIncl first last := by
    rw [hall, prefixMetas_numbers, rangeIncl]
  unfold enterBlocks collect
  rw [dif_pos hnum]
  simp only [fetched, RangePc.logs.injEq, Subtype.mk.injEq]
  exact hall

theorem inFlight_prefixMetas {first last k : Nat} (hk : k < last + 1 - first) :
    inFlight first last (prefixMetas C first k) (first + k) = true := by
  have hfind : (rangeIncl first last).find?
      (fun m => (lookupBlock (prefixMetas C first k) m).isNone) = some (first + k) := by
    rw [rangeIncl, List.find?_range'_eq_some]
    refine ⟨?_, List.mem_range'_1.mpr (by omega), fun j hj hjk => ?_⟩
    · rw [lookupBlock_prefixMetas, if_neg (by omega)]
      rfl
    · rw [lookupBlock_prefixMetas, if_pos (by omega)]
      rfl
  unfold inFlight
  rw [hfind]
  simp only [Bool.and_eq_true, decide_eq_true_eq]
  refine ⟨by simp only [MAX_CONCURRENT_BLOCK_FETCHES]; omega, ?_⟩
  rw [lookupBlock_prefixMetas, if_neg (by omega)]
  rfl

/-- The answers come in request order. -/
theorem goes_blocks {first last latest k : Nat} (hl : last ≤ C.height)
    (hk : k ≤ last + 1 - first) :
    Goes engine start C s db (.range first last latest (enterBlocks first last [])) db
      (.range first last latest (enterBlocks first last (prefixMetas C first k))) := by
  induction k with
  | zero => exact .refl
  | succ k ih =>
    refine (ih (by omega)).trans ?_
    rw [enterBlocks_prefixMetas (k := k) (by omega)]
    refine Goes.step (e := .block (first + k) (C.hash (first + k)) (C.timestamp (first + k)))
      ⟨by omega, rfl, rfl⟩ ?_
    have hsnoc : prefixMetas C first k ++ [C.metadata (first + k)] = prefixMetas C first (k + 1) := by
      rw [prefixMetas, prefixMetas, List.range'_concat, List.map_append, Nat.one_mul]
      rfl
    simp only [backfillStep, rangeStep, inFlight_prefixMetas (C := C) (k := k) (by omega : k < last + 1 - first),
      if_true, Option.map_some]
    rw [← hsnoc]
    rfl

/-! ## The comparison with the stored hashes -/

theorem goes_check {first last latest i : Nat} (p : RangePayload first last)
    (hi : i ≤ p.indexedBlocks.length)
    (h : ∀ (j : Nat) (hj : j < p.indexedBlocks.length), j < i →
      getBlockHash db (p.indexedBlocks[j]).1 = none ∨
        getBlockHash db (p.indexedBlocks[j]).1 = some (p.indexedBlocks[j]).2) :
    Goes engine start C s db (.range first last latest (enterCheck p 0)) db
      (.range first last latest (enterCheck p i)) := by
  induction i with
  | zero => exact .refl
  | succ i ih =>
    have hlt : i < p.indexedBlocks.length := hi
    refine (ih (by omega) fun j hj hji => h j hj (by omega)).trans ?_
    have henter : enterCheck p i = .check p i := if_pos hlt
    rw [henter]
    refine Goes.step (e := .sql) trivial ?_
    simp only [backfillStep, rangeStep, List.getElem?_eq_getElem hlt]
    rcases h i hlt (Nat.lt_succ_self i) with hs | hs
    · simp only [hs, Option.map_some]
    · simp only [hs, ne_eq, not_true_eq_false, if_false, Option.map_some]

/-- From the payload to the commit, or to the rollback. -/
theorem goes_compare {first last latest : Nat} (p : RangePayload first last) :
    Goes engine start C s db (.range first last latest (enterCheck p 0)) db
      (match firstReorg db p with
        | some b => .rollback b.1
        | none => .range first last latest (.commit p)) := by
  cases hf : firstReorg db p with
  | none =>
    have hall := List.find?_eq_none.mp hf
    have hend : enterCheck p p.indexedBlocks.length = .commit p := if_neg (Nat.lt_irrefl _)
    refine hend ▸ goes_check p (Nat.le_refl _) fun j hj _ => ?_
    have hgood := hall _ (List.getElem_mem hj)
    split at hgood
    · rename_i existing hs
      exact .inr (by simpa [hs] using hgood)
    · rename_i hs; exact .inl hs
  | some b =>
    obtain ⟨hb, i, hi, he, hbefore⟩ := List.find?_eq_some_iff_getElem.mp hf
    refine (goes_check p (Nat.le_of_lt hi) fun j hj hji => ?_).trans ?_
    · have hgood := hbefore j hji
      simp only [Bool.not_eq_true'] at hgood
      split at hgood
      · rename_i existing hs
        exact .inr (by simpa [hs] using hgood)
      · rename_i hs; exact .inl hs
    · have henter : enterCheck p i = .check p i := if_pos hi
      rw [henter]
      refine Goes.step (e := .sql) trivial ?_
      simp only [backfillStep, rangeStep, List.getElem?_eq_getElem hi, he]
      cases hs : getBlockHash db b.1 with
      | none => rw [hs] at hb; cases hb
      | some existing =>
        rw [hs] at hb
        have hne : existing ≠ b.2 := of_decide_eq_true hb
        simp only [if_pos hne, Option.map_some]

/-! ## The iteration -/

/-- Where the worker stands after an iteration. -/
def pcAfter (C : Chain) : Outcome → BackfillPc
  | .caughtUp => .sleep C.height
  | _ => .head

theorem goes_rollback {n : Nat} : Goes engine start C s db (.rollback n) (rollbackFromBlock db n)
    .head :=
  Goes.step (e := .sql) trivial rfl

theorem goes_range {first last latest : Nat} (hl : last ≤ C.height)
    (hf : (processFinalizedRange engine C db first last).1 ≠ .failed) :
    Goes engine start C s db (.range first last latest (enterBlocks first last []))
      (processFinalizedRange engine C db first last).2
      (pcAfter C (processFinalizedRange engine C db first last).1) := by
  unfold processFinalizedRange at hf ⊢
  cases hp : buildRangePayload (fetched C first last) (C.getLogs engine.contractFilter first last) with
  | error e => rw [hp] at hf; exact absurd rfl hf
  | ok p =>
    refine (goes_blocks hl (Nat.le_refl _)).trans ?_
    rw [enterBlocks_all]
    simp only
    have hlogs : Goes engine start C s db (.range first last latest (.logs (fetched C first last)))
        db (.range first last latest (enterCheck p 0)) := by
      refine Goes.step (e := .logs first last (C.getLogs engine.contractFilter first last)) rfl ?_
      simp only [backfillStep, rangeStep, and_self, if_true, hp, Option.map_some]
    have hcompare := hlogs.trans (goes_compare p)
    cases hb : firstReorg db p with
    | some b =>
      simp only [hb] at hcompare ⊢
      exact hcompare.trans goes_rollback
    | none =>
      simp only [hp, hb] at hcompare hf ⊢
      have hc : p.Committable := by
        by_contra hc
        rw [if_neg hc] at hf
        exact hf rfl
      rw [if_pos hc]
      refine hcompare.trans (Goes.step (e := .sql) trivial ?_)
      simp only [backfillStep, rangeStep, if_pos hc, Option.map_some]
      rfl

/-- **The iteration is a run** of the backfill worker, from the loop head back
to it or to the sleep of the caught-up branch. -/
theorem iterate_run (hC : C.height < 2 ^ 64) (s : Sys)
    (hf : (iterate engine start C db).1 ≠ .failed) :
    Goes engine start C s db .head (iterate engine start C db).2
      (pcAfter C (iterate engine start C db).1) := by
  have hhead : Goes engine start C s db .head db (.checkpoint C.height) := by
    refine Goes.step (e := .blockNumber C.height) rfl ?_
    simp only [backfillStep, if_pos hC]
  refine hhead.trans ?_
  unfold iterate at hf ⊢
  cases hr : reconcile engine start C db with
  | some n =>
    simp only [hr] at hf ⊢
    by_cases hn : n ≤ C.height
    · have hrec := goes_reconcile (s := s) C.height fun m hm => by
        rw [hr] at hm; cases hm; exact hn
      simp only [hr] at hrec
      rw [if_pos hn]
      exact hrec.trans goes_rollback
    · rw [if_neg hn] at hf
      exact absurd rfl hf
  | none =>
    have hrec := goes_reconcile (s := s) C.height fun m hm => by rw [hr] at hm; cases hm
    simp only [hr] at hf hrec ⊢
    refine hrec.trans ?_
    by_cases hs : nextFinalizedBlock start db ≤ engine.safeHead C.height
    · by_cases hov : nextFinalizedBlock start db + BLOCK_BATCH_SIZE < 2 ^ 64
      · rw [if_pos hs, if_pos hov] at hf ⊢
        have hplan : Goes engine start C s db (.plan C.height) db
            (.range (nextFinalizedBlock start db) (batchEnd engine start C db) C.height
              (enterBlocks (nextFinalizedBlock start db) (batchEnd engine start C db) [])) := by
          refine Goes.step (e := .sql) trivial ?_
          simp only [backfillStep, if_pos hs, if_pos hov]
          rfl
        exact hplan.trans (goes_range (Nat.le_trans batchEnd_le (Nat.sub_le _ _)) hf)
      · rw [if_pos hs, if_neg hov] at hf
        exact absurd rfl hf
    · rw [if_neg hs]
      refine Goes.step (e := .sql) trivial ?_
      simp only [backfillStep, if_neg hs]
      rfl

end
end EthIndexer.L3
