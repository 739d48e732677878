import EthIndexer.Core.Inevitable
import EthIndexer.L3Engine.BuildRange

/-!
# The concurrent metadata requests of a range

`fetch_block_metadata_range` keeps up to four requests in flight and takes their
answers in any order. `fetching` is that: a step is the answer to one block in
flight. `unanswered` are the blocks still missing; each answer takes one away
(`unanswered_block`), and short of the last one some block is in flight
(`exists_inFlight`).

`fetch_any_order`: whatever the order, it ends with what the requests one after
the other return, and never ends with anything else.
-/
namespace EthIndexer.L3
open EthIndexer.L1 EthIndexer.L2

/-- The blocks of the range without an answer. -/
def unanswered (first last : Nat) (got : List BlockMetadata) : List Nat :=
  (rangeIncl first last).filter fun n => (lookupBlock got n).isNone

/-- The blocks being fetched. -/
def outstanding (first last : Nat) (got : List BlockMetadata) : List Nat :=
  (rangeIncl first last).filter (inFlight first last got)

section
variable {first last n : Nat} {got : List BlockMetadata}

theorem mem_unanswered :
    n ∈ unanswered first last got ↔ (first ≤ n ∧ n ≤ last) ∧ lookupBlock got n = none := by
  simp [unanswered, List.mem_filter, mem_rangeIncl]

theorem length_unanswered_le : (unanswered first last got).length ≤ last + 1 - first := by
  refine (List.length_filter_le _ _).trans ?_
  simp [rangeIncl]

theorem inFlight_eq_true : inFlight first last got n = true ↔
    ∃ m, (unanswered first last got).head? = some m ∧ (m ≤ n ∧ n < m + MAX_CONCURRENT_BLOCK_FETCHES) ∧
      n ∈ unanswered first last got := by
  have hhead : (rangeIncl first last).find? (fun m => (lookupBlock got m).isNone) =
      (unanswered first last got).head? := List.head?_filter.symm
  unfold inFlight
  rw [hhead]
  cases hm : (unanswered first last got).head? with
  | none => simp
  | some m =>
    have hmem := mem_unanswered.mp (List.mem_of_mem_head? (Option.mem_def.mpr hm))
    simp only [Bool.and_eq_true, decide_eq_true_eq, Option.isNone_iff_eq_none, Option.some.injEq,
      exists_eq_left', mem_unanswered]
    constructor
    · intro ⟨⟨h1, h2, h3⟩, h4⟩
      exact ⟨⟨h1, h2⟩, ⟨by omega, h3⟩, h4⟩
    · intro ⟨⟨h1, h2⟩, ⟨_, h3⟩, h4⟩
      exact ⟨⟨h1, h2, h3⟩, h4⟩

/-- The first unanswered block is in flight. -/
theorem exists_inFlight (h : unanswered first last got ≠ []) :
    ∃ n, inFlight first last got n = true := by
  obtain ⟨n, ns, he⟩ := List.exists_cons_of_ne_nil h
  refine ⟨n, inFlight_eq_true.mpr ⟨n, by rw [he]; rfl, ⟨Nat.le_refl n, ?_⟩, by rw [he]; simp⟩⟩
  simp [MAX_CONCURRENT_BLOCK_FETCHES]

/-- **Four requests.** The blocks in flight lie within four of the first unanswered one. -/
theorem length_outstanding_le :
    (outstanding first last got).length ≤ MAX_CONCURRENT_BLOCK_FETCHES := by
  cases hm : (unanswered first last got).head? with
  | none =>
    have : outstanding first last got = [] := by
      refine List.filter_eq_nil_iff.mpr fun n _ h => ?_
      obtain ⟨m, hm', -⟩ := inFlight_eq_true.mp h
      rw [hm] at hm'
      cases hm'
    simp [this]
  | some m =>
    have hsub : outstanding first last got ⊆ List.range' m MAX_CONCURRENT_BLOCK_FETCHES := by
      intro n hn
      obtain ⟨m', hm', hn', -⟩ := inFlight_eq_true.mp (List.mem_filter.mp hn).2
      rw [hm] at hm'
      cases hm'
      exact List.mem_range'_1.mpr hn'
    have hnd : (outstanding first last got).Nodup := (rangeIncl_nodup first last).filter _
    simpa using (List.subperm_of_subset hnd hsub).length_le

/-! ## One answer -/

theorem lookupBlock_append {m : BlockMetadata} :
    lookupBlock (got ++ [m]) n = none ↔ lookupBlock got n = none ∧ m.number ≠ n := by
  simp [lookupBlock]

/-- **One answer** takes its block away, and no other. -/
theorem unanswered_block {m : BlockMetadata} (h : inFlight first last got m.number = true) :
    (unanswered first last (got ++ [m])).length + 1 = (unanswered first last got).length := by
  obtain ⟨-, -, -, hmem⟩ := inFlight_eq_true.mp h
  have hnd : (unanswered first last got).Nodup := (rangeIncl_nodup first last).filter _
  have he : unanswered first last (got ++ [m]) = (unanswered first last got).erase m.number := by
    rw [hnd.erase_eq_filter, unanswered, unanswered, List.filter_filter]
    refine List.filter_congr fun n _ => ?_
    rw [Bool.eq_iff_iff]
    simp only [Option.isNone_iff_eq_none, lookupBlock_append, Bool.and_eq_true, bne_iff_ne, ne_eq]
    rw [and_comm, eq_comm]
  have := List.length_pos_of_mem hmem
  rw [he, List.length_erase_of_mem hmem]
  omega

/-- All answers are there exactly when none is missing. -/
theorem collect_eq_none : collect first last got = none ↔ unanswered first last got ≠ [] := by
  have hnum : ∀ n m, lookupBlock got n = some m → m.number = n := fun _ _ h =>
    (lookupBlock_eq_some h).2
  have hlen : ((rangeIncl first last).filterMap (lookupBlock got)).map BlockMetadata.number =
      (rangeIncl first last).filter fun n => (lookupBlock got n).isSome := by
    generalize rangeIncl first last = ns
    induction ns with
    | nil => rfl
    | cons n ns ih =>
      cases h : lookupBlock got n with
      | none => simp [h, ih]
      | some m => simp [h, ih, hnum n m h]
  simp only [collect, hlen, dite_eq_right_iff, reduceCtorEq, imp_false, List.filter_eq_self, ne_eq,
    unanswered, List.filter_eq_nil_iff, Option.isNone_iff_eq_none, Option.isSome_iff_ne_none]

/-! ## Any order -/

/-- The answers of `rpc` to the requests of a range, in any order. -/
def fetching (rpc : RpcClient) (first last : Nat) : LTS (RangePc first last) Event where
  init pc := pc = enterBlocks first last []
  step pc e pc' := (∃ n hash timestamp, e = .block n hash timestamp ∧ rpc.Finds n hash timestamp) ∧
    rangeStep (fun _ => none) first last pc e = some (.goto pc')

/-- How many answers are missing. -/
def missing : RangePc first last → Nat
  | .blocks got => (unanswered first last got).length
  | _ => 0

/-- What has come is what `rpc` answers, and short of the last answer one is missing. -/
def FetchedPc (rpc : RpcClient) : RangePc first last → Prop
  | .blocks got =>
    (∀ m ∈ got, rpc.fetchBlockMetadata m.number = .ok m) ∧ unanswered first last got ≠ []
  | .logs metas => rpc.fetchBlockMetadataRange first last = .ok metas.val
  | _ => False

theorem missing_enterBlocks :
    missing (enterBlocks first last got) = (unanswered first last got).length := by
  unfold enterBlocks
  split
  · rename_i metas h
    have : unanswered first last got = [] := by
      by_contra hne
      rw [collect_eq_none.mpr hne] at h
      cases h
    simp [missing, this]
  · rfl

theorem fetches_of_numbers {rpc : RpcClient} {ms : List BlockMetadata} {ns : List Nat}
    (hn : ms.map BlockMetadata.number = ns)
    (h : ∀ m ∈ ms, rpc.fetchBlockMetadata m.number = .ok m) : Fetches rpc ns ms := by
  subst hn
  exact List.forall₂_map_left_iff.mpr (List.forall₂_same.mpr h)

theorem fetchedPc_enterBlocks {rpc : RpcClient}
    (h : ∀ m ∈ got, rpc.fetchBlockMetadata m.number = .ok m) :
    FetchedPc rpc (enterBlocks first last got) := by
  unfold enterBlocks
  split
  · rename_i metas hm
    refine mapM_ok.mpr (fetches_of_numbers metas.2 fun m hmem => ?_)
    unfold collect at hm
    split at hm
    · cases hm
      obtain ⟨n, -, hn⟩ := List.mem_filterMap.mp hmem
      exact h m (lookupBlock_eq_some hn).1
    · cases hm
  · rename_i hc
    exact ⟨h, collect_eq_none.mp hc⟩

theorem fetching_cases {rpc : RpcClient} {pc pc' : RangePc first last} {e : Event}
    (h : (fetching rpc first last).step pc e pc') :
    ∃ got n hash timestamp, pc = .blocks got ∧ rpc.Finds n hash timestamp ∧
      inFlight first last got n = true ∧
      pc' = enterBlocks first last (got ++ [⟨n, hash.val, timestamp⟩]) := by
  obtain ⟨⟨n, hash, timestamp, rfl, hf⟩, hs⟩ := h
  cases rangeStep_cases hs with
  | block hfl => exact ⟨_, n, hash, timestamp, rfl, hf, hfl, rfl⟩

theorem fetching_step {rpc : RpcClient} {pc pc' : RangePc first last} {e : Event}
    (I : FetchedPc rpc pc) (h : (fetching rpc first last).step pc e pc') :
    FetchedPc rpc pc' ∧ missing pc' + 1 = missing pc := by
  obtain ⟨got, n, hash, timestamp, rfl, hf, hfl, rfl⟩ := fetching_cases h
  refine ⟨fetchedPc_enterBlocks fun m hm => ?_, ?_⟩
  · rcases List.mem_append.mp hm with hm | hm
    · exact I.1 m hm
    · rw [List.mem_singleton.mp hm]
      exact rpc.fetchBlockMetadata_ok.mpr ⟨hash, timestamp, hf, rfl⟩
  · rw [missing_enterBlocks]
    exact unanswered_block hfl

theorem fetching_run {rpc : RpcClient} {pc pc' : RangePc first last} {es : List Event}
    (I : FetchedPc rpc pc) (h : (fetching rpc first last).Run pc es pc') :
    FetchedPc rpc pc' ∧ es.length + missing pc' = missing pc := by
  induction h with
  | nil => exact ⟨I, Nat.zero_add _⟩
  | cons hs _ ih =>
    obtain ⟨I', hm⟩ := fetching_step I hs
    obtain ⟨I'', hl⟩ := ih I'
    exact ⟨I'', by rw [List.length_cons]; omega⟩

/-- Where every block is found, the answers come to an end. -/
theorem fetching_ends {rpc : RpcClient}
    (hf : ∀ n, first ≤ n → n ≤ last → ∃ hash timestamp, rpc.Finds n hash timestamp) :
    (fetching rpc first last).Inevitable (fun pc => FetchedPc rpc pc ∧ ∃ metas, pc = .logs metas)
      (enterBlocks first last []) := by
  refine LTS.inevitable_of_rank (r := (· < ·)) Nat.lt_wfRel.wf missing
    (fun _ _ _ I hs => ?_) (fun pc I hP => ?_) (fetchedPc_enterBlocks fun _ hm => by cases hm)
  · obtain ⟨I', hm⟩ := fetching_step I hs
    exact ⟨I', by omega⟩
  · cases pc with
    | blocks got =>
      obtain ⟨n, hn⟩ := exists_inFlight I.2
      obtain ⟨-, -, -, hmem⟩ := inFlight_eq_true.mp hn
      obtain ⟨⟨h1, h2⟩, -⟩ := mem_unanswered.mp hmem
      obtain ⟨hash, timestamp, hb⟩ := hf n h1 h2
      exact ⟨_, _, ⟨n, hash, timestamp, rfl, hb⟩, by rw [rangeStep, if_pos hn]⟩
    | logs metas => exact absurd ⟨metas, rfl⟩ hP
    | check p i => exact absurd I id
    | commit p => exact absurd I id

/-- **Any order.** With up to four requests in flight and their answers taken in
any order, the fetch is bound to end with `ms` if and only if the requests made
one after the other return `ms`; each block is answered once, and never are more
than four in flight. -/
theorem fetch_any_order (rpc : RpcClient) (first last : Nat) :
    (∀ ms, rpc.fetchBlockMetadataRange first last = .ok ms ↔
      (fetching rpc first last).Inevitable (fun pc => ∃ metas, pc = .logs metas ∧ metas.val = ms)
        (enterBlocks first last [])) ∧
    ∀ es pc, (fetching rpc first last).Run (enterBlocks first last []) es pc →
      es.length + missing pc = last + 1 - first ∧
      ∀ got, pc = .blocks got → (outstanding first last got).length ≤ MAX_CONCURRENT_BLOCK_FETCHES := by
  have h₀ : FetchedPc rpc (enterBlocks first last []) := fetchedPc_enterBlocks fun _ hm => by cases hm
  refine ⟨fun ms => ⟨fun hms => ?_, fun hi => ?_⟩, fun es pc hr => ?_⟩
  · refine (fetching_ends (fetched_iff.mp ⟨ms, hms⟩)).mono fun pc hpc => ?_
    obtain ⟨I, metas, rfl⟩ := hpc
    exact ⟨metas, rfl, Except.ok.inj (Eq.trans (Eq.symm I) hms)⟩
  · obtain ⟨es, pc, hr, metas, rfl, rfl⟩ := hi.exists_run
    exact (fetching_run h₀ hr).1
  · have hall : unanswered first last [] = rangeIncl first last :=
      List.filter_eq_self.mpr fun _ _ => rfl
    have hm := (fetching_run h₀ hr).2
    rw [missing_enterBlocks, hall, rangeIncl, List.length_range'] at hm
    exact ⟨hm, fun got _ => length_outstanding_le⟩

end
end EthIndexer.L3
