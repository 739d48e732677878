import EthIndexer.L4Lanes.Stable
import EthIndexer.L5Api.TransferQuery

/-!
# Reading the transfers page by page

A client that asks `erc20Transfers` for one page after the other, with a fixed
`limit` and offsets that go up by it. `ORDER BY block_number DESC, log_index DESC`
leaves the order of equal keys open, and two pages may be cut from different
orders; on rows with distinct order keys there is one order only (`page_eq`), so
the pages follow on one another (`pages_append`).

`served_pages`: on a chain that does not reorganise, with both workers caught up,
the pages are the transfers of the chain, newest first. `eventually_served` puts
the whole program together: both workers are bound to catch up.
-/
namespace EthIndexer.L5
open EthIndexer.L1 EthIndexer.L2 EthIndexer.L3 EthIndexer.L3.Chain EthIndexer.L4

/-! ## Pages of a list -/

/-- Page `k` of `l`, with `size` elements a page. -/
def page {α : Type} (l : List α) (size k : Nat) : List α := (l.drop (k * size)).take size

theorem pages_append {α : Type} (l : List α) (size n : Nat) :
    (List.range n).flatMap (page l size) = l.take (n * size) := by
  induction n with
  | zero => simp
  | succ n ih =>
    rw [List.range_succ, List.flatMap_append, ih, List.flatMap_singleton, page, Nat.succ_mul,
      List.take_add]

/-! ## Requests -/

/-- The request is accepted, its text is a statement, and `out` is a result of it. -/
def Answered (addressFromStr : String → Option Bytes) (db : Db) (args : Erc20TransfersArgs)
    (out : List (List Sql.Value)) : Prop :=
  ∃ q s, erc20Transfers addressFromStr args = .ok q ∧ Sql.parse q.query = some s ∧
    s.Answers (catalog db) q.arguments out

/-- Page `k` without a filter. -/
def pageRequest (size : Int32) (k : Nat) : Erc20TransfersArgs :=
  ⟨none, none, none, none, none, some size, some (.ofNat (k * size.toInt.toNat))⟩

/-- `(block_number, log_index)` tells the rows apart. -/
def OrderKeys (rows : List Erc20TransferRecord) : Prop :=
  ∀ r ∈ rows, ∀ r' ∈ rows, r.blockNumber = r'.blockNumber → r.logIndex = r'.logIndex → r = r'

section
variable {rows listing : List Erc20TransferRecord} {addressFromStr : String → Option Bytes} {db : Db}

theorem newestFirst_antisymm (h : OrderKeys rows) {r r' : Erc20TransferRecord} (hr : r ∈ rows)
    (hr' : r' ∈ rows) (h₁ : NewestFirst r r') (h₂ : NewestFirst r' r) : r = r' := by
  rcases h₁ with h₁ | ⟨hb, h₁⟩ <;> rcases h₂ with h₂ | ⟨hb', h₂⟩
  · omega
  · rw [hb'] at h₁
    omega
  · rw [hb] at h₂
    omega
  · exact h r hr r' hr' hb.symm (Int32.toInt_inj.mp (Int.le_antisymm h₂ h₁))

theorem erc20Transfers_ok {args : Erc20TransfersArgs} {q : QueryBuilder}
    (h : erc20Transfers addressFromStr args = .ok q) : ∃ f limit offset,
    args.validate addressFromStr = .ok (f, limit, offset) ∧ q = transfersQuery f limit offset := by
  unfold erc20Transfers at h
  cases hval : args.validate addressFromStr with
  | error e => rw [hval] at h; cases h
  | ok a => rw [hval] at h; cases h; exact ⟨_, _, _, rfl, rfl⟩

/-- A page request passes the checks. -/
theorem validate_pageRequest (addressFromStr : String → Option Bytes) {size : Int32} {k m : Nat}
    (hsize : 0 < size.toInt ∧ size.toInt ≤ 500)
    (hoff : (Int32.ofNat (k * size.toInt.toNat)).toInt = m) : ∃ f limit offset,
      (pageRequest size k).validate addressFromStr = .ok (f, limit, offset) := by
  have hl : ¬ size ≤ 0 := by
    rw [Int32.le_iff_toInt_le]
    exact Int.not_le.mpr hsize.1
  have ho : ¬ Int32.ofNat (k * size.toInt.toNat) < 0 := by
    rw [Int32.lt_iff_toInt_lt, hoff]
    exact Int.not_lt.mpr (Int.natCast_nonneg m)
  refine ⟨⟨none, none, none, none, none⟩, min size.toInt64 MAX_LIMIT,
    (Int32.ofNat (k * size.toInt.toNat)).toInt64, ?_⟩
  simp only [Erc20TransfersArgs.validate, pageRequest, checkBlockRange, normalizeLimit,
    normalizeOffset, if_neg hl, if_neg ho]
  rfl

/-- A request without a filter asks for a page of all rows. -/
theorem answered_page {size : Int32} {k : Nat} (hsize : 0 < size.toInt ∧ size.toInt ≤ 500)
    (hk : k * size.toInt.toNat < 2 ^ 31) {out : List (List Sql.Value)} :
    Answered addressFromStr db (pageRequest size k) out ↔
      ∃ sorted : List Erc20TransferRecord, sorted.Perm (combinedTransfers db) ∧
        sorted.Pairwise NewestFirst ∧ out = (page sorted size.toInt.toNat k).map transferRow := by
  have hoff : (Int32.ofNat (k * size.toInt.toNat)).toInt = (k * size.toInt.toNat : Nat) :=
    Int32.toInt_ofNat_of_lt hk
  have hlimit : pageLimit (pageRequest size k).limit = size.toInt.toNat := by
    simp only [pageLimit, pageRequest, Option.elim]
    omega
  have hoffset : pageOffset (pageRequest size k).offset = k * size.toInt.toNat := by
    simp only [pageOffset, pageRequest, Option.elim, hoff]
    omega
  have hpage : ∀ f : TransferFilter, f.hasFilters = false → (Page f size.toInt.toNat
      (k * size.toInt.toNat) db out ↔ ∃ sorted : List Erc20TransferRecord,
        sorted.Perm (combinedTransfers db) ∧ sorted.Pairwise NewestFirst ∧
          out = (page sorted size.toInt.toNat k).map transferRow) := by
    intro f hf
    have haccepts : f.accepts = fun _ => true := by
      funext r
      simp [TransferFilter.accepts, TransferFilter.hasFilters_eq_false.mp hf]
    rw [Page, haccepts, List.filter_true]
    rfl
  constructor
  · rintro ⟨q, s, hq, hs, hout⟩
    obtain ⟨f, limit, offset, hval, rfl⟩ := erc20Transfers_ok hq
    obtain ⟨hnone, hl, ho⟩ := validate_ok hval
    have hf : f.hasFilters = false := hnone.mpr ⟨rfl, rfl, rfl, rfl, rfl⟩
    rw [parse_of_noFilter hf] at hs
    cases hs
    rw [query_of_noFilter hf, normalizeLimit_ok hl, normalizeOffset_ok ho, hlimit, hoffset] at hout
    exact (hpage f hf).mp ((answers_pageStatement hf _ _ db out).mp hout)
  · intro h
    obtain ⟨f, limit, offset, hval⟩ := validate_pageRequest addressFromStr hsize hoff
    obtain ⟨hnone, hl, ho⟩ := validate_ok hval
    have hf : f.hasFilters = false := hnone.mpr ⟨rfl, rfl, rfl, rfl, rfl⟩
    refine ⟨transfersQuery f limit offset, pageStatement, by rw [erc20Transfers, hval]; rfl,
      parse_of_noFilter hf limit offset, ?_⟩
    rw [query_of_noFilter hf, normalizeLimit_ok hl, normalizeOffset_ok ho, hlimit, hoffset]
    exact (answers_pageStatement hf _ _ db out).mpr ((hpage f hf).mpr h)

/-- Rows with distinct order keys have one order, and each page one answer. -/
theorem answered_iff {size : Int32} {k : Nat} (hsize : 0 < size.toInt ∧ size.toInt ≤ 500)
    (hk : k * size.toInt.toNat < 2 ^ 31) (hrows : OrderKeys (combinedTransfers db))
    (hperm : listing.Perm (combinedTransfers db)) (hsorted : listing.Pairwise NewestFirst)
    {out : List (List Sql.Value)} :
    Answered addressFromStr db (pageRequest size k) out ↔
      out = (page listing size.toInt.toNat k).map transferRow := by
  rw [answered_page hsize hk]
  constructor
  · intro ⟨sorted, hp, hs, he⟩
    have heq : sorted = listing := by
      refine (hp.trans hperm.symm).eq_of_pairwise (fun a b ha hb => ?_) hs hsorted
      exact newestFirst_antisymm hrows (hp.mem_iff.mp ha) (hperm.mem_iff.mp hb)
    rw [he, heq]
  · exact fun he => ⟨listing, hperm, hsorted, he⟩

end

/-! ## The chain's transfers -/

/-- On a chain, block and log index name a transfer. -/
theorem orderKeys_records {C : Chain} {filter : Option Bytes} {a b : Nat} (hC : Indexed C)
    (hb : b < 2 ^ 64) : OrderKeys (records C filter a b) := by
  intro r hr r' hr' hn hi
  obtain ⟨log, hl, hrec⟩ := List.mem_filterMap.mp hr
  obtain ⟨log', hl', hrec'⟩ := List.mem_filterMap.mp hr'
  obtain ⟨n, hna, hm⟩ := Chain.mem_getLogs.mp hl
  obtain ⟨n', hna', hm'⟩ := Chain.mem_getLogs.mp hl'
  have hm := Chain.mem_transferLogs hm
  have hm' := Chain.mem_transferLogs hm'
  obtain ⟨event, k, txnHash, i, -, hk, -, hlog, rfl⟩ := record_eq_some.mp hrec
  obtain ⟨event', k', txnHash', i', -, hk', -, hlog', rfl⟩ := record_eq_some.mp hrec'
  rw [(C.logs_mined n log hm).1] at hk
  rw [(C.logs_mined n' log' hm').1] at hk'
  cases hk
  cases hk'
  have hnn : n = n' := asI64_inj (by omega) (by omega) hn
  subst hnn
  have hii : i = i' := asI32_inj (hC.small n log hm i hlog) (hC.small n log' hm' i' hlog') hi
  have he : log = log' := List.inj_on_of_nodup_map (hC.unique n) hm hm' (by rw [hlog, hlog', hii])
  subst he
  exact Option.some.inj (hrec.symm.trans hrec')

/-- **Page by page.** On a chain that does not reorganise, with both workers
caught up and no block in both lanes, a page has exactly one answer, its part of
the transfers of `max(start, 1)..=height`, newest first; and the pages put end to
end leave none out and repeat none. -/
theorem served_pages (C : Chain) (hC : Indexed C) (hH : C.height < 2 ^ 63)
    (engine : BackfillEngine) (start : Nat) (hs : start ≠ 0)
    (hw : engine.confirmationDepth ≤ hotWindowLength engine) (s : Sys)
    (h : (stable C engine start).Reachable s) (hup : CaughtUp engine start C s.db)
    (ha : Apart s.db) (addressFromStr : String → Option Bytes) (listing : List Erc20TransferRecord)
    (hperm : listing.Perm (records C engine.contractFilter (max start 1) C.height))
    (hsorted : listing.Pairwise NewestFirst) (size : Int32)
    (hsize : 0 < size.toInt ∧ size.toInt ≤ 500) :
    (∀ k out, k * size.toInt.toNat < 2 ^ 31 →
      (Answered addressFromStr s.db (pageRequest size k) out ↔
        out = (page listing size.toInt.toNat k).map transferRow)) ∧
    ∀ n, (List.range n).flatMap (page listing size.toInt.toNat) =
      listing.take (n * size.toInt.toNat) := by
  have I := (stableInv_inductive hs hC hH).reachable s h
  have hrows := I.perm_served hC hH hw hup ha
  have hkeys : OrderKeys (combinedTransfers s.db) := fun r hr r' hr' =>
    orderKeys_records hC (by omega) r (hrows.mem_iff.mp hr) r' (hrows.mem_iff.mp hr')
  exact ⟨fun _ _ hk => answered_iff hsize hk hkeys (hperm.trans hrows.symm) hsorted,
    pages_append listing _⟩

/-- The pages of one transfer each that `caughtUpRun` leaves: the transfer, then nothing. -/
theorem served_pages_caughtUpRun : ∃ s r, (stable oneTransfer (.ofDepths 1 2) 1).Reachable s ∧
    records oneTransfer none 1 3 = [r] ∧
    Answered (fun _ => none) s.db (pageRequest 1 0) [transferRow r] ∧
    ∀ out, Answered (fun _ => none) s.db (pageRequest 1 1) out ↔ out = [] := by
  obtain ⟨s, hr, -, hup, ha⟩ := caughtUpRun_ends
  have hlist : ∃ r, records oneTransfer none 1 3 = [r] := List.length_eq_one_iff.mp (by decide)
  obtain ⟨r, hlist⟩ := hlist
  have h := (served_pages oneTransfer oneTransfer_indexed (by decide) (.ofDepths 1 2) 1 (by decide)
    (by decide) s hr hup ha (fun _ => none) [r] (hlist ▸ .refl _) (List.pairwise_singleton _ _) 1
    (by decide)).1
  exact ⟨s, r, hr, hlist, (h 0 _ (by decide)).mpr rfl, fun out => h 1 out (by decide)⟩

/-! ## From the first start on -/

/-- Page requests are answered the pages of the chain's transfers, newest first. -/
def ServesChain (engine : BackfillEngine) (start : Nat) (C : Chain) (db : Db) : Prop :=
  ∃ rows : List Erc20TransferRecord,
    (∀ r, r ∈ rows ↔ r ∈ records C engine.contractFilter (max start 1) C.height) ∧
    (Apart db → rows.Perm (records C engine.contractFilter (max start 1) C.height)) ∧
    ∀ addressFromStr (size : Int32) k out, 0 < size.toInt ∧ size.toInt ≤ 500 →
      k * size.toInt.toNat < 2 ^ 31 →
      (Answered addressFromStr db (pageRequest size k) out ↔
        ∃ sorted : List Erc20TransferRecord, sorted.Perm rows ∧ sorted.Pairwise NewestFirst ∧
          out = (page sorted size.toInt.toNat k).map transferRow)

theorem headUpTo_of_answeredBy {C : Chain} {filter : Option Bytes} {l : Label}
    (h : AnsweredBy C filter l) : HeadUpTo C l := by
  intro n hn
  cases l with
  | crash => cases hn
  | backfill e | live e =>
    cases e with
    | blockNumber latest =>
      have hl : latest = C.height := h.2
      cases hn
      exact Nat.le_of_eq hl
    | _ => cases hn

/-- **Bound to serve the chain.** After any history on a chain that does not
reorganise, with heads up to its height and batches that can be committed, the
process is started again: under every interleaving and every order of answers it
comes to rest, and there the requests for a page are answered the transfers of
`max(start, 1)..=height` and no others, newest first. -/
theorem eventually_served (C : Chain) (hC : Indexed C) (engine : BackfillEngine)
    (hfit : BatchesFit C engine.contractFilter) (start : Nat) (hs : start ≠ 0)
    (hw : engine.confirmationDepth ≤ hotWindowLength engine) (s : Sys)
    (h : (stable C engine start).Reachable s) :
    (settling engine start C).Inevitable
      (fun t => AtRest engine start C t ∧ ServesChain engine start C t.db) s.restart := by
  have hH := hfit.height
  have I := (stableInv_inductive hs hC hH).reachable s h
  have hfits : (systemWith engine start HeadFits).Reachable s :=
    h.weaken fun _ _ hE => hE.2.headFits hH
  have hrestart : (stable C engine start).Reachable s.restart :=
    h.step (l := .crash) ⟨⟨trivial, fun n hn => by cases hn⟩, rfl⟩
  have hkeep : ∀ t l t', StableInv engine start C t → (settling engine start C).step t l t' →
      StableInv engine start C t' := fun _ _ _ I hstep =>
    stableInv_step hs hC hH I hstep.1.1.1 (headUpTo_of_answeredBy hstep.1.1) hstep.2
  have hrest := settles hs hfit hkeep (settlingInv_restart hfits (I.below.trans (Nat.sub_le _ _)))
    ((stableInv_inductive hs hC hH).reachable _ hrestart)
  refine hrest.mono fun t ⟨ht, I⟩ => ⟨ht, combinedTransfers t.db, fun r => ?_, fun ha => ?_,
    fun addressFromStr size k out hsize hk => answered_page hsize hk⟩
  · rw [combinedTransfers, List.mem_append]
    exact I.mem_served hH hw ht.caughtUp
  · exact I.perm_served hC hH hw ht.caughtUp ha

theorem oneTransfer_fits : BatchesFit oneTransfer none := by
  refine batchesFit_of_logs (by decide) fun n => ?_
  simp only [oneTransfer]
  split
  · decide
  · exact Nat.zero_le _

/-- From the empty database to the one transfer of a chain. -/
theorem eventually_served_oneTransfer : ∃ ls t,
    (settling (.ofDepths 1 2) 1 oneTransfer).Run Sys.init.restart ls t ∧
      AtRest (.ofDepths 1 2) 1 oneTransfer t ∧ ServesChain (.ofDepths 1 2) 1 oneTransfer t.db :=
  (eventually_served oneTransfer oneTransfer_indexed (.ofDepths 1 2) oneTransfer_fits 1 (by decide)
    (by decide) .init (LTS.reachable_init rfl)).exists_run

end EthIndexer.L5
