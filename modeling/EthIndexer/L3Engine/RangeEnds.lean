import EthIndexer.L3Engine.Fetch
import EthIndexer.L3Engine.Iterate

/-!
# A range off one chain comes to an end

On the answers of one chain whose batches fit, a range neither fails nor waits for
good: in every state it can be in (`Waiting`) some answer or statement is next
(`range_enabled`), none ends it with an error (`range_not_fail`), and each brings the
commit or the rollback nearer (`rangeRank_step`).
-/
namespace EthIndexer.L3
open EthIndexer.L1 EthIndexer.L2

section
variable {C : Chain} {filter : Option Bytes} {first last : Nat} {hashOf : Nat → Option Bytes}

/-- The range waits for something that is still to come. -/
def Waiting : RangePc first last → Prop
  | .blocks got => unanswered first last got ≠ []
  | .check p i => i < p.indexedBlocks.length
  | .logs _ | .commit _ => True

theorem waiting_enterBlocks (got : List BlockMetadata) : Waiting (enterBlocks first last got) := by
  unfold enterBlocks
  split
  · trivial
  · rename_i h; exact collect_eq_none.mp h

theorem waiting_enterCheck (p : RangePayload first last) (i : Nat) : Waiting (enterCheck p i) := by
  unfold enterCheck
  split
  · rename_i h; exact h
  · trivial

theorem waiting_step {pc pc' : RangePc first last} {e : Event}
    (hs : RangeStep hashOf first last pc e (.goto pc')) : Waiting pc' := by
  cases hs with
  | block _ => exact waiting_enterBlocks _
  | logs _ => exact waiting_enterCheck _ _
  | agree _ _ => exact waiting_enterCheck _ _

/-- The logs of the chain have every field the loop reads. -/
theorem buildRangePayload_onChain {metas : Fetched first last} {ls : List Log}
    (hm : RangeOn C filter (.logs metas)) (hls : ls.Perm (C.getLogs filter first last)) :
    ∃ p, buildRangePayload metas ls = .ok p := by
  refine buildRangePayload_of_complete metas fun log hlog => ?_
  have hv : metas.val = (fetched C first last).val := hm
  rw [hv]
  exact complete_getLogs log (hls.mem_iff.mp hlog)

theorem range_not_fail {pc : RangePc first last} {e : Event} (hfit : BatchesFit C filter)
    (hl : last ≤ C.height) (hsize : last < first + BLOCK_BATCH_SIZE) (h : RangeOn C filter pc)
    (he : e.OnChain C filter) : ¬ RangeStep hashOf first last pc e .fail := by
  intro hs
  cases hs with
  | refused hc => exact hc (hfit.committable h hl hsize)
  | badLogs hb =>
    obtain ⟨p, hp⟩ := buildRangePayload_onChain h he
    rw [hp] at hb
    cases hb

/-- What the range waits for is an answer of the chain. -/
theorem range_enabled (filter : Option Bytes) (hashOf : Nat → Option Bytes)
    {pc : RangePc first last} (hw : Waiting pc) (hl : last ≤ C.height) :
    ∃ e, (e.OnChain C filter ∧ e.AtHeight C ∧ e ≠ .timer) ∧
      (rangeStep hashOf first last pc e).isSome := by
  cases pc with
  | blocks got =>
    obtain ⟨n, hn⟩ := exists_inFlight hw
    obtain ⟨-, -, -, hmem⟩ := inFlight_eq_true.mp hn
    have hle := (mem_unanswered.mp hmem).1.2
    refine ⟨.block n (C.hash n) (C.timestamp n), ⟨⟨rfl, rfl⟩, Nat.le_trans hle hl, by simp⟩, ?_⟩
    simp [rangeStep, hn]
  | logs metas =>
    refine ⟨.logs first last (C.getLogs filter first last), ⟨List.Perm.refl _, trivial, by simp⟩, ?_⟩
    simp only [rangeStep, and_self, if_true]
    cases buildRangePayload metas (C.getLogs filter first last) <;> rfl
  | check p i =>
    refine ⟨.sql, ⟨trivial, trivial, by simp⟩, ?_⟩
    have hi : p.indexedBlocks[i]? = some p.indexedBlocks[i] := List.getElem?_eq_getElem hw
    simp only [rangeStep, hi]
    split
    · split <;> rfl
    · rfl
  | commit p =>
    refine ⟨.sql, ⟨trivial, trivial, by simp⟩, ?_⟩
    simp only [rangeStep]
    split <;> rfl

/-- How far the range is from its commit. -/
def rangeRank : RangePc first last → Nat
  | .blocks got => (unanswered first last got).length + (last + 1 - first) + 3
  | .logs _ => last + 1 - first + 3
  | .check _ i => last + 1 - first - i + 1
  | .commit _ => 1

theorem rangeRank_le (pc : RangePc first last) : rangeRank pc ≤ 2 * (last + 1 - first) + 3 := by
  cases pc with
  | blocks got =>
    have := @length_unanswered_le first last got
    simp only [rangeRank]
    omega
  | _ => simp only [rangeRank]; omega

theorem rangeRank_enterBlocks (got : List BlockMetadata) : rangeRank (enterBlocks first last got) =
    (unanswered first last got).length + (last + 1 - first) + 3 := by
  have h := @missing_enterBlocks first last got
  unfold enterBlocks at h ⊢
  split
  · rename_i hc
    simp only [hc, missing] at h
    simp only [rangeRank, ← h, Nat.zero_add]
  · rfl

theorem rangeRank_enterCheck (p : RangePayload first last) (i : Nat) :
    rangeRank (enterCheck p i) ≤ last + 1 - first - i + 1 := by
  unfold enterCheck
  split
  · exact Nat.le_refl _
  · simp only [rangeRank]; omega

theorem rangeRank_step {pc pc' : RangePc first last} {e : Event}
    (hs : RangeStep hashOf first last pc e (.goto pc')) : rangeRank pc' < rangeRank pc := by
  cases hs with
  | @block got n hash timestamp h =>
    have := unanswered_block (m := ⟨n, hash.val, timestamp⟩) h
    rw [rangeRank_enterBlocks, rangeRank]
    omega
  | @logs metas ls p _ =>
    have hle := rangeRank_enterCheck p 0
    exact Nat.lt_of_le_of_lt hle (by rw [rangeRank]; omega)
  | @agree p i _ _ hi _ =>
    have hlt := (List.getElem?_eq_some_iff.mp hi).1
    rw [p.length_indexedBlocks] at hlt
    have hle := rangeRank_enterCheck p (i + 1)
    exact Nat.lt_of_le_of_lt hle (by rw [rangeRank]; omega)

end
end EthIndexer.L3
