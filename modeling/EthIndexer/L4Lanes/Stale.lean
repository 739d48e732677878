import EthIndexer.L3Engine.Answers

/-!
# Stale blocks

`stale C l a b`: how many blocks of `a..b` a lane stores under another hash than
the chain `C` has for them. Deletions and commits of blocks of `C` do not raise
it, and a rollback from a stale block lowers it (`stale_succ_le`,
`stale_deleteRangeFrom`).
-/
namespace EthIndexer.L4
open EthIndexer.L1 EthIndexer.L2 EthIndexer.L3

/-- The lane stores another hash than the chain's for block `n`. -/
def staleAt (C : Chain) (l : Lane) (n : Nat) : Bool :=
  match l.getBlockHash n with
  | some h => decide (h ≠ (C.hash n).val)
  | none => false

/-- How many blocks of `a..b` are stale. -/
def stale (C : Chain) (l : Lane) (a b : Nat) : Nat := (List.range' a (b - a)).countP (staleAt C l)

section
variable {C : Chain} {l l' : Lane} {a b n : Nat}

theorem staleAt_iff :
    staleAt C l n = true ↔ ∃ h, l.getBlockHash n = some h ∧ h ≠ (C.hash n).val := by
  unfold staleAt
  cases l.getBlockHash n <;> simp

theorem stale_mono (h : ∀ m, m < b → staleAt C l' m = true → staleAt C l m = true) :
    stale C l' a b ≤ stale C l a b := by
  refine List.countP_mono_left fun m hm => h m ?_
  have := List.mem_range'_1.mp hm
  omega

theorem stale_split (ha : a ≤ n) (hb : n ≤ b) : stale C l a b = stale C l a n + stale C l n b := by
  have happ := List.range'_append_1 (s := a) (m := n - a) (n := b - n)
  rw [show a + (n - a) = n by omega, show n - a + (b - n) = b - a by omega] at happ
  rw [stale, ← happ, List.countP_append]
  rfl

/-- A stale block counts. -/
theorem stale_succ_le (ha : a ≤ n) (hb : n < b) (h : staleAt C l n = true) :
    stale C l a n + 1 ≤ stale C l a b := by
  have hpos : 0 < stale C l n b :=
    List.countP_pos_iff.mpr ⟨n, List.mem_range'_1.mpr ⟨Nat.le_refl n, by omega⟩, h⟩
  rw [stale_split ha (Nat.le_of_lt hb)]
  omega

theorem stale_deleteNumbers (p : Int64 → Bool) :
    stale C (l.deleteNumbers p) a b ≤ stale C l a b := by
  refine stale_mono fun m _ hs => ?_
  obtain ⟨h, hh, hne⟩ := staleAt_iff.mp hs
  exact staleAt_iff.mpr ⟨h, (Lane.getBlockHash_deleteNumbers.mp hh).1, hne⟩

/-- After a deletion from `n` on only the blocks below `n` can be stale. -/
theorem stale_deleteRangeFrom (ha : a ≤ n) (hb : n ≤ b) (h63 : b ≤ 2 ^ 63) (hn : n < 2 ^ 63) :
    stale C (l.deleteRangeFrom n) a b ≤ stale C l a n := by
  have hzero : stale C (l.deleteRangeFrom n) n b = 0 := by
    refine List.countP_eq_zero.mpr fun m hm hs => ?_
    have hm := List.mem_range'_1.mp hm
    obtain ⟨h, hh, -⟩ := staleAt_iff.mp hs
    have hlt := ((Lane.getBlockHash_deleteRangeFrom (by omega) hn).mp hh).2
    omega
  rw [stale_split ha hb, hzero]
  exact stale_deleteNumbers _

/-- Blocks of the chain are not stale. -/
theorem stale_insertRange {first last : Nat} (p : RangePayload first last)
    (hp : p.indexedBlocks = Chain.blocks C first last) (hl : last < 2 ^ 64) (hb : b ≤ 2 ^ 64) :
    stale C (l.insertRange p.transferRecords p.indexedBlocks) a b ≤ stale C l a b := by
  refine stale_mono fun m hm hs => ?_
  obtain ⟨h, hh, hne⟩ := staleAt_iff.mp hs
  rcases (p.getBlockHash_insertRange hl (by omega)).mp hh with hmem | ⟨-, hh⟩
  · rw [hp] at hmem
    exact absurd (Chain.mem_blocks.mp hmem).2 hne
  · exact staleAt_iff.mpr ⟨h, hh, hne⟩

end
end EthIndexer.L4
