import EthIndexer.Core.Cast
import EthIndexer.Core.RollingWindow
import Mathlib.Algebra.Group.Prod
import Mathlib.Algebra.GroupWithZero.Nat
import Mathlib.Algebra.Order.BigOperators.Group.List
import Mathlib.Algebra.Order.Group.Nat
import Mathlib.Data.List.Induction
import Mathlib.Data.List.TakeWhile

/-!
# Rolling throughput

`RollingThroughput` keeps one bucket for each second in which batches were
recorded and drops those older than the window at every call. The rates are the
buckets' totals over a number of seconds; the division is in floating point and left
out.

`rolling_exact`: whatever the calls and the pauses between them, as long as the clock
does not go back, the totals are those of the records of the last seconds. The
counters are `u64` and overflow is checked, as `cargo build` and `cargo run` build it:
a call whose totals do not fit panics, and no call returns after it (the lock is
poisoned).
-/
namespace EthIndexer.L3

/-- mirrors crates/observability/src/lib.rs:506-510 -/
structure Bucket where
  second : Nat
  blocks : Nat
  events : Nat
  deriving DecidableEq

/-- mirrors crates/observability/src/lib.rs:499-503 -/
structure RollingThroughput where
  windowSecs : Nat
  startedAtSec : Option Nat
  buckets : List Bucket
  deriving DecidableEq

/-- The operands of the two rates of a `RollingSnapshot`. -/
structure RollingSnapshot where
  totalBlocks : Nat
  totalEvents : Nat
  denominator : Nat
  deriving DecidableEq

/-- `a + b` on `u64`. -/
def addU64 (a b : Nat) : Except String Nat :=
  if a + b < 2 ^ 64 then .ok (a + b) else .error "attempt to add with overflow"

/-- `.sum()` of `u64`. -/
def sumU64 (l : List Nat) : Except String Nat := l.foldlM addU64 0

namespace RollingThroughput

/-- mirrors crates/observability/src/lib.rs:513-519 -/
def new (windowSecs : Nat) : RollingThroughput := ⟨max windowSecs 1, none, []⟩

/-- mirrors crates/observability/src/lib.rs:547-552 -/
def prune (s : RollingThroughput) (now : Nat) : RollingThroughput :=
  let oldestSecond := now - (s.windowSecs - 1)
  { s with buckets := s.buckets.dropWhile fun bucket => decide (bucket.second < oldestSecond) }

/-- mirrors crates/observability/src/lib.rs:554-568 -/
def snapshotFor (s : RollingThroughput) (now : Nat) : Except String RollingSnapshot := do
  let totalBlocks ← sumU64 (s.buckets.map Bucket.blocks)
  let totalEvents ← sumU64 (s.buckets.map Bucket.events)
  let denominator := max (min ((s.startedAtSec.map fun started =>
    saturatingAdd (now - started) 1).getD 1) s.windowSecs) 1
  pure ⟨totalBlocks, totalEvents, denominator⟩

/-- The `match` on the last bucket.
mirrors crates/observability/src/lib.rs:525-535 -/
def addRecord (buckets : List Bucket) (now blocks events : Nat) : Except String (List Bucket) :=
  match buckets.getLast? with
  | some bucket =>
    if bucket.second = now then do
      let blocks ← addU64 bucket.blocks blocks
      let events ← addU64 bucket.events events
      pure (buckets.dropLast ++ [⟨now, blocks, events⟩])
    else pure (buckets ++ [⟨now, blocks, events⟩])
  | none => pure (buckets ++ [⟨now, blocks, events⟩])

/-- mirrors crates/observability/src/lib.rs:521-539 -/
def record (s : RollingThroughput) (now blocks events : Nat) :
    Except String (RollingSnapshot × RollingThroughput) := do
  let buckets ← addRecord s.buckets now blocks events
  let s := prune ⟨s.windowSecs, some (s.startedAtSec.getD now), buckets⟩ now
  let snapshot ← s.snapshotFor now
  pure (snapshot, s)

/-- mirrors crates/observability/src/lib.rs:541-545 -/
def snapshot (s : RollingThroughput) (now : Nat) :
    Except String (RollingSnapshot × RollingThroughput) := do
  let s := s.prune now
  let snapshot ← s.snapshotFor now
  pure (snapshot, s)

end RollingThroughput

/-! ## Sequences of calls -/

/-- A call with the second the clock shows. -/
inductive RollingCall where
  | record (now blocks events : Nat)
  | snapshot (now : Nat)

namespace RollingCall

def now : RollingCall → Nat
  | record now _ _ => now
  | snapshot now => now

def run (s : RollingThroughput) : RollingCall → Except String (RollingSnapshot × RollingThroughput)
  | record now blocks events => s.record now blocks events
  | snapshot now => s.snapshot now

/-- What a call records. -/
def recorded : RollingCall → Option Bucket
  | record now blocks events => some ⟨now, blocks, events⟩
  | snapshot _ => none

end RollingCall

/-- The calls one after the other; a panic poisons the lock. -/
def runCalls (windowSecs : Nat) (calls : List RollingCall) : Except String RollingThroughput :=
  calls.foldlM (fun s call => (call.run s).map Prod.snd) (.new windowSecs)

/-- The last of the calls, after the others. -/
def lastCall (windowSecs : Nat) (calls : List RollingCall) (call : RollingCall) :
    Except String (RollingSnapshot × RollingThroughput) :=
  runCalls windowSecs calls >>= call.run

/-- The records of the last `max(windowSecs, 1)` seconds up to `now`. -/
def inWindow (windowSecs now : Nat) (calls : List RollingCall) : List Bucket :=
  (calls.filterMap RollingCall.recorded).filter fun r =>
    decide (r.second ≤ now ∧ now < r.second + max windowSecs 1)

/-- The divisor of the rates. -/
def elapsed (windowSecs now : Nat) (calls : List RollingCall) : Nat :=
  match (calls.filterMap RollingCall.recorded).head? with
  | none => 1
  | some first => min (max windowSecs 1) (now - first.second + 1)

/-- What a call leaves and returns, from the history alone. -/
structure Exact (windowSecs now : Nat) (calls : List RollingCall) (snapshot : RollingSnapshot)
    (s : RollingThroughput) : Prop where
  increasing : s.buckets.Pairwise fun b b' => b.second < b'.second
  few : s.buckets.length ≤ max windowSecs 1
  blocks : snapshot.totalBlocks = ((inWindow windowSecs now calls).map Bucket.blocks).sum
  events : snapshot.totalEvents = ((inWindow windowSecs now calls).map Bucket.events).sum
  divisor : snapshot.denominator = elapsed windowSecs now calls

/-- The totals fit a `u64`. -/
def TotalsFit (windowSecs now : Nat) (calls : List RollingCall) : Prop :=
  ((inWindow windowSecs now calls).map Bucket.blocks).sum < 2 ^ 64 ∧
    ((inWindow windowSecs now calls).map Bucket.events).sum < 2 ^ 64

/-! ## Sums -/

theorem addU64_ok {a b n : Nat} : addU64 a b = .ok n ↔ n = a + b ∧ a + b < 2 ^ 64 := by
  unfold addU64
  split
  · rename_i h
    rw [Except.ok.injEq, eq_comm]
    exact (and_iff_left h).symm
  · rename_i h
    exact ⟨nofun, fun hn => absurd hn.2 h⟩

theorem foldlM_addU64 {l : List Nat} {a n : Nat} (ha : a < 2 ^ 64) :
    l.foldlM addU64 a = .ok n ↔ n = a + l.sum ∧ a + l.sum < 2 ^ 64 := by
  induction l generalizing a with
  | nil =>
    rw [List.foldlM_nil, List.sum_nil, Nat.add_zero]
    exact ⟨fun h => ⟨(Except.ok.inj h).symm, ha⟩, fun h => congrArg Except.ok h.1.symm⟩
  | cons b l ih =>
    rw [List.foldlM_cons, List.sum_cons, ← Nat.add_assoc]
    by_cases hb : a + b < 2 ^ 64
    · rw [addU64_ok.mpr ⟨rfl, hb⟩]
      exact ih hb
    · have hadd : addU64 a b = .error "attempt to add with overflow" := if_neg hb
      rw [hadd]
      exact ⟨nofun, fun h => absurd h.2 (by omega)⟩

theorem sumU64_ok {l : List Nat} {n : Nat} : sumU64 l = .ok n ↔ n = l.sum ∧ l.sum < 2 ^ 64 := by
  have h := foldlM_addU64 (l := l) (n := n) (a := 0) (by decide)
  rwa [Nat.zero_add] at h

/-! ## One call -/

def clock : Clocked Bucket Nat (Nat × Nat) := ⟨Bucket.second, fun b => (b.blocks, b.events)⟩

/-- The buckets with one more record. -/
def merged (buckets : List Bucket) (r : Bucket) : List Bucket :=
  match buckets.getLast? with
  | some bucket =>
    if bucket.second = r.second then
      buckets.dropLast ++ [⟨r.second, bucket.blocks + r.blocks, bucket.events + r.events⟩]
    else buckets ++ [r]
  | none => buckets ++ [r]

namespace RollingThroughput

/-- The state after a call. -/
def advanced (s : RollingThroughput) (call : RollingCall) : RollingThroughput :=
  match call.recorded with
  | none => s.prune call.now
  | some r => prune ⟨s.windowSecs, some (s.startedAtSec.getD r.second), merged s.buckets r⟩ call.now

/-- What `snapshotFor` reads. -/
def operands (s : RollingThroughput) (now : Nat) : RollingSnapshot where
  totalBlocks := (s.buckets.map Bucket.blocks).sum
  totalEvents := (s.buckets.map Bucket.events).sum
  denominator := max (min ((s.startedAtSec.map fun started =>
    saturatingAdd (now - started) 1).getD 1) s.windowSecs) 1

def Fits (s : RollingThroughput) : Prop :=
  (s.buckets.map Bucket.blocks).sum < 2 ^ 64 ∧ (s.buckets.map Bucket.events).sum < 2 ^ 64

/-- Adding a record merges it, or overflows in the bucket of the current second. -/
theorem addRecord_cases (buckets : List Bucket) (now blocks events : Nat) :
    addRecord buckets now blocks events = .ok (merged buckets ⟨now, blocks, events⟩) ∨
    (∃ e, addRecord buckets now blocks events = .error e) ∧
      ∃ b ∈ merged buckets ⟨now, blocks, events⟩, b.second = now ∧
        (2 ^ 64 ≤ b.blocks ∨ 2 ^ 64 ≤ b.events) := by
  unfold addRecord merged
  split
  · rename_i bucket hlast
    split
    · have hmem : (⟨now, bucket.blocks + blocks, bucket.events + events⟩ : Bucket) ∈
          buckets.dropLast ++ [⟨now, bucket.blocks + blocks, bucket.events + events⟩] :=
        List.mem_append_right _ (List.mem_singleton.mpr rfl)
      by_cases hb : bucket.blocks + blocks < 2 ^ 64
      · rw [addU64_ok.mpr ⟨rfl, hb⟩]
        by_cases he : bucket.events + events < 2 ^ 64
        · rw [addU64_ok.mpr ⟨rfl, he⟩]
          exact .inl rfl
        · have hadd : addU64 bucket.events events = .error "attempt to add with overflow" := if_neg he
          rw [hadd]
          exact .inr ⟨⟨_, rfl⟩, _, hmem, rfl, .inr (Nat.not_lt.mp he)⟩
      · have hadd : addU64 bucket.blocks blocks = .error "attempt to add with overflow" := if_neg hb
        rw [hadd]
        exact .inr ⟨⟨_, rfl⟩, _, hmem, rfl, .inl (Nat.not_lt.mp hb)⟩
    · exact .inl rfl
  · exact .inl rfl

theorem snapshotFor_ok {s : RollingThroughput} {now : Nat} {snapshot : RollingSnapshot} :
    s.snapshotFor now = .ok snapshot ↔ snapshot = s.operands now ∧ s.Fits := by
  rw [snapshotFor, bind_ok]
  constructor
  · intro ⟨totalBlocks, hb, h⟩
    obtain ⟨totalEvents, he, h⟩ := bind_ok.mp h
    obtain ⟨rfl, hblt⟩ := sumU64_ok.mp hb
    obtain ⟨rfl, helt⟩ := sumU64_ok.mp he
    exact ⟨(Except.ok.inj h).symm, hblt, helt⟩
  · rintro ⟨rfl, hb, he⟩
    exact ⟨_, sumU64_ok.mpr ⟨rfl, hb⟩, bind_ok.mpr ⟨_, sumU64_ok.mpr ⟨rfl, he⟩, rfl⟩⟩

/-- The bucket of the current second is kept. -/
theorem mem_prune {s : RollingThroughput} {now : Nat} {b : Bucket} (h : b ∈ s.buckets)
    (hb : now ≤ b.second) : b ∈ (s.prune now).buckets := by
  rw [← List.takeWhile_append_dropWhile
    (p := fun bucket : Bucket => decide (bucket.second < now - (s.windowSecs - 1)))
    (l := s.buckets)] at h
  rcases List.mem_append.mp h with h | h
  · have hlt : b.second < now - (s.windowSecs - 1) := by simpa using List.mem_takeWhile_imp h
    omega
  · exact h

theorem not_fits {s : RollingThroughput} {b : Bucket} (h : b ∈ s.buckets)
    (hb : 2 ^ 64 ≤ b.blocks ∨ 2 ^ 64 ≤ b.events) : ¬ s.Fits := by
  intro ⟨hblocks, hevents⟩
  rcases hb with hb | hb
  · have hle := List.le_sum_of_mem (List.mem_map_of_mem (f := Bucket.blocks) h)
    omega
  · have hle := List.le_sum_of_mem (List.mem_map_of_mem (f := Bucket.events) h)
    omega

/-- A call returns exactly when the totals it is to return fit, and then advances. -/
theorem run_ok {s s' : RollingThroughput} {call : RollingCall} {snapshot : RollingSnapshot} :
    call.run s = .ok (snapshot, s') ↔
      s' = s.advanced call ∧ snapshot = s'.operands call.now ∧ s'.Fits := by
  -- pruning and reading the buckets that the call has left
  have hread : ∀ s₁ : RollingThroughput, (do
      let snapshot ← s₁.snapshotFor call.now
      pure (snapshot, s₁)) = Except.ok (snapshot, s') ↔
        s' = s₁ ∧ snapshot = s'.operands call.now ∧ s'.Fits := by
    intro s₁
    rw [bind_ok]
    constructor
    · intro ⟨_, hs, h⟩
      cases h
      exact ⟨rfl, snapshotFor_ok.mp hs⟩
    · rintro ⟨rfl, h⟩
      exact ⟨snapshot, snapshotFor_ok.mpr h, rfl⟩
  cases call with
  | snapshot now => exact hread (s.prune now)
  | record now blocks events =>
    rcases addRecord_cases s.buckets now blocks events with hok | ⟨⟨e, he⟩, b, hb, hnow, hbig⟩
    · rw [RollingCall.run, record, hok]
      exact hread _
    · have hfit : ¬ (s.advanced (.record now blocks events)).Fits :=
        not_fits (mem_prune (s := ⟨s.windowSecs, some (s.startedAtSec.getD now),
          merged s.buckets ⟨now, blocks, events⟩⟩) hb hnow.ge) hbig
      rw [RollingCall.run, record, he]
      exact ⟨nofun, fun h => absurd (h.1 ▸ h.2.2) hfit⟩

end RollingThroughput

/-! ## The history -/

/-- The first second of the window. -/
def oldest (windowSecs now : Nat) : Nat := now - (max windowSecs 1 - 1)

theorem oldest_mono {windowSecs now now' : Nat} (h : now ≤ now') :
    oldest windowSecs now ≤ oldest windowSecs now' :=
  Nat.sub_le_sub_right h _

/-- The buckets are the records from the second `lo` on; the last call was at `now`. -/
structure Kept (windowSecs lo now : Nat) (calls : List RollingCall) (s : RollingThroughput) :
    Prop where
  window : s.windowSecs = max windowSecs 1
  started : s.startedAtSec = ((calls.filterMap RollingCall.recorded).head?).map Bucket.second
  increasing : clock.Increasing s.buckets
  recent : ∀ b ∈ s.buckets, lo ≤ b.second ∧ b.second ≤ now
  past : ∀ r ∈ calls.filterMap RollingCall.recorded, r.second ≤ now
  tallies : clock.Tallies clock s.buckets ((calls.filterMap RollingCall.recorded).filter fun r =>
    decide (lo ≤ r.second))

theorem Kept.new (windowSecs : Nat) : Kept windowSecs 0 0 [] (.new windowSecs) where
  window := rfl
  started := rfl
  increasing := .nil
  recent := nofun
  past := nofun
  tallies := .nil

/-- A record at or after the last bucket. -/
theorem merged_spec {buckets history : List Bucket} {r : Bucket} (hinc : clock.Increasing buckets)
    (hle : ∀ b ∈ buckets, b.second ≤ r.second) (ht : clock.Tallies clock buckets history) :
    clock.Increasing (merged buckets r) ∧ clock.Tallies clock (merged buckets r) (history ++ [r]) ∧
      ∀ b ∈ merged buckets r, b ∈ buckets ∨ b.second = r.second := by
  rcases List.eq_nil_or_concat' buckets with rfl | ⟨init, last, rfl⟩
  · exact ⟨hinc.push nofun, ht.push rfl rfl, fun b hb => .inr (by rw [List.mem_singleton.mp hb])⟩
  · simp only [merged, List.getLast?_concat, List.dropLast_concat]
    split
    · rename_i heq
      refine ⟨hinc.replace heq.symm, ht.merge heq rfl rfl, fun b hb => ?_⟩
      rcases List.mem_append.mp hb with hb | hb
      · exact .inl (List.mem_append_left _ hb)
      · exact .inr (by rw [List.mem_singleton.mp hb])
    · rename_i hne
      have hlast : last.second < r.second :=
        Nat.lt_of_le_of_ne (hle last (List.mem_append_right _ (List.mem_singleton.mpr rfl))) hne
      have hlt : ∀ b ∈ init ++ [last], b.second < r.second := by
        intro b hb
        rcases List.mem_append.mp hb with hb | hb
        · exact Nat.lt_trans ((List.pairwise_append.mp hinc).2.2 b hb last
            (List.mem_singleton.mpr rfl)) hlast
        · rwa [List.mem_singleton.mp hb]
      refine ⟨hinc.push hlt, ht.push rfl rfl, fun b hb => ?_⟩
      rcases List.mem_append.mp hb with hb | hb
      · exact .inl hb
      · exact .inr (by rw [List.mem_singleton.mp hb])

section
variable {windowSecs lo now : Nat} {calls : List RollingCall} {s : RollingThroughput}

theorem Kept.snapshot (h : Kept windowSecs lo now calls s) {now' : Nat} (hnow : now ≤ now') :
    Kept windowSecs lo now' (calls ++ [.snapshot now']) s := by
  have hhist : (calls ++ [RollingCall.snapshot now']).filterMap RollingCall.recorded =
      calls.filterMap RollingCall.recorded := by
    rw [List.filterMap_append]
    exact List.append_nil _
  refine ⟨h.window, ?_, h.increasing, fun b hb => ?_, fun r hr => ?_, ?_⟩
  · rw [hhist]
    exact h.started
  · exact ⟨(h.recent b hb).1, Nat.le_trans (h.recent b hb).2 hnow⟩
  · rw [hhist] at hr
    exact Nat.le_trans (h.past r hr) hnow
  · rw [hhist]
    exact h.tallies

theorem Kept.record (h : Kept windowSecs lo now calls s) (hlo : lo ≤ now) {r : Bucket}
    (hnow : now ≤ r.second) : Kept windowSecs lo r.second
      (calls ++ [.record r.second r.blocks r.events])
      ⟨s.windowSecs, some (s.startedAtSec.getD r.second), merged s.buckets r⟩ := by
  have hle : ∀ b ∈ s.buckets, b.second ≤ r.second := fun b hb =>
    Nat.le_trans (h.recent b hb).2 hnow
  have hhist : (calls ++ [RollingCall.record r.second r.blocks r.events]).filterMap RollingCall.recorded =
      calls.filterMap RollingCall.recorded ++ [r] := by
    rw [List.filterMap_append]
    rfl
  obtain ⟨hinc, ht, hmem⟩ := merged_spec h.increasing hle h.tallies
  refine ⟨h.window, ?_, hinc, fun b hb => ?_, fun r' hr => ?_, ?_⟩
  · rw [hhist, h.started]
    cases calls.filterMap RollingCall.recorded <;> rfl
  · rcases hmem b hb with hb | hb
    · exact ⟨(h.recent b hb).1, hle b hb⟩
    · exact ⟨by omega, hb.le⟩
  · rw [hhist] at hr
    rcases List.mem_append.mp hr with hr | hr
    · exact Nat.le_trans (h.past r' hr) hnow
    · rw [List.mem_singleton.mp hr]
  · have hr : [r] = [r].filter fun r => decide (lo ≤ r.second) :=
      (List.filter_eq_self.mpr fun x hx => by
        rw [List.mem_singleton.mp hx]; exact decide_eq_true (Nat.le_trans hlo hnow)).symm
    rw [hhist, List.filter_append, ← hr]
    exact ht

/-- What is in the later window is in the earlier one. -/
theorem filter_window {lo' : Nat} (h : lo ≤ lo') (l : List Bucket) :
    ((l.filter fun r => decide (lo ≤ r.second)).filter fun r => decide (lo' ≤ r.second)) =
      l.filter fun r => decide (lo' ≤ r.second) := by
  rw [List.filter_filter]
  refine List.filter_congr fun r _ => ?_
  rw [← Bool.decide_and]
  exact decide_eq_decide.mpr ⟨And.left, fun hr => ⟨hr, Nat.le_trans h hr⟩⟩

/-- Expiry moves the lower bound up. -/
theorem Kept.prune (h : Kept windowSecs lo now calls s) (hlo : lo ≤ oldest windowSecs now) :
    Kept windowSecs (oldest windowSecs now) now calls (s.prune now) := by
  have hbuckets : (s.prune now).buckets =
      s.buckets.filter fun b => decide (oldest windowSecs now ≤ b.second) := by
    rw [oldest, ← h.window]
    exact h.increasing.dropWhile_eq (now - (s.windowSecs - 1))
  refine ⟨h.window, h.started, ?_, ?_, h.past, ?_⟩
  · rw [hbuckets]
    exact h.increasing.filter _
  · rw [hbuckets]
    intro b hb
    obtain ⟨hb, hold⟩ := List.mem_filter.mp hb
    exact ⟨of_decide_eq_true hold, (h.recent b hb).2⟩
  · rw [hbuckets, ← filter_window hlo (calls.filterMap RollingCall.recorded)]
    exact h.tallies.filter fun t => decide (oldest windowSecs now ≤ t)

/-- Each call keeps the window. -/
theorem Kept.call (h : Kept windowSecs (oldest windowSecs now) now calls s) {call : RollingCall}
    (hnow : now ≤ call.now) : Kept windowSecs (oldest windowSecs call.now) call.now
      (calls ++ [call]) (s.advanced call) := by
  have hlo : oldest windowSecs now ≤ oldest windowSecs call.now := oldest_mono hnow
  cases call with
  | snapshot now' => exact (h.snapshot hnow).prune hlo
  | record now' blocks events =>
    exact (h.record (Nat.sub_le _ _) (r := ⟨now', blocks, events⟩) hnow).prune hlo

/-! ## What is read -/

theorem inWindow_eq (h : Kept windowSecs lo now calls s) (hlo : lo = oldest windowSecs now) :
    inWindow windowSecs now calls =
      (calls.filterMap RollingCall.recorded).filter fun r => decide (lo ≤ r.second) := by
  refine List.filter_congr fun r hr => decide_eq_decide.mpr ?_
  have hpast := h.past r hr
  simp only [hlo, oldest]
  omega

theorem Kept.sums (h : Kept windowSecs (oldest windowSecs now) now calls s) :
    (s.buckets.map Bucket.blocks).sum = ((inWindow windowSecs now calls).map Bucket.blocks).sum ∧
      (s.buckets.map Bucket.events).sum =
        ((inWindow windowSecs now calls).map Bucket.events).sum := by
  have hsum := h.tallies.sum_eq
  rw [← inWindow_eq h rfl] at hsum
  have hfst := congrArg (AddMonoidHom.fst Nat Nat) hsum
  have hsnd := congrArg (AddMonoidHom.snd Nat Nat) hsum
  rw [map_list_sum, map_list_sum, List.map_map, List.map_map] at hfst hsnd
  exact ⟨hfst, hsnd⟩

theorem Kept.fits_iff (h : Kept windowSecs (oldest windowSecs now) now calls s) :
    s.Fits ↔ TotalsFit windowSecs now calls := by
  rw [RollingThroughput.Fits, TotalsFit, h.sums.1, h.sums.2]

theorem Kept.exact (h : Kept windowSecs (oldest windowSecs now) now calls s)
    (hw : windowSecs < 2 ^ 64) : Exact windowSecs now calls (s.operands now) s where
  increasing := h.increasing
  few := by
    have hspan : ∀ b ∈ s.buckets, oldest windowSecs now ≤ clock.time b ∧
        clock.time b < oldest windowSecs now + max windowSecs 1 := by
      intro b hb
      have hrecent := h.recent b hb
      simp only [oldest, clock] at hrecent ⊢
      omega
    exact h.increasing.length_le hspan
  blocks := h.sums.1
  events := h.sums.2
  divisor := by
    simp only [RollingThroughput.operands, elapsed, h.started, h.window, saturatingAdd,
      u64Max]
    cases (calls.filterMap RollingCall.recorded).head? with
    | none => simp only [Option.map_none, Option.getD_none]; omega
    | some first => simp only [Option.map_some, Option.getD_some]; omega

end

/-! ## Any sequence of calls -/

/-- The clock does not go back. -/
def ClockForward (calls : List RollingCall) : Prop := (calls.map RollingCall.now).Pairwise (· ≤ ·)

theorem runCalls_concat (windowSecs : Nat) (calls : List RollingCall) (call : RollingCall) :
    runCalls windowSecs (calls ++ [call]) = (lastCall windowSecs calls call).map Prod.snd := by
  rw [runCalls, List.foldlM_append, lastCall, runCalls]
  simp only [List.foldlM_cons, List.foldlM_nil, bind_pure]
  cases calls.foldlM (fun s call => (RollingCall.run s call).map Prod.snd) (.new windowSecs) <;> rfl

theorem runCalls_concat_ok (windowSecs : Nat) (calls : List RollingCall) (call : RollingCall) :
    (∃ s, runCalls windowSecs (calls ++ [call]) = .ok s) ↔
      ∃ r, lastCall windowSecs calls call = .ok r := by
  rw [runCalls_concat]
  cases lastCall windowSecs calls call <;> simp [Except.map]

theorem ClockForward.init {calls : List RollingCall} {call : RollingCall}
    (h : ClockForward (calls ++ [call])) : ClockForward calls := by
  rw [ClockForward, List.map_append] at h
  exact (List.pairwise_append.mp h).1

theorem ClockForward.le {calls : List RollingCall} {c call : RollingCall}
    (h : ClockForward (calls ++ [c] ++ [call])) : c.now ≤ call.now := by
  rw [ClockForward, List.map_append] at h
  exact (List.pairwise_append.mp h).2.2 c.now (List.mem_map_of_mem (by simp)) call.now
    (List.mem_singleton.mpr rfl)

/-- The invariant of a run, by induction on the last call. -/
theorem kept_run {windowSecs : Nat} {calls : List RollingCall} (hclock : ClockForward calls)
    {s : RollingThroughput} (h : runCalls windowSecs calls = .ok s) :
    ∃ now, (∀ call, ClockForward (calls ++ [call]) → now ≤ call.now) ∧
      Kept windowSecs (oldest windowSecs now) now calls s := by
  induction calls using List.reverseRecOn generalizing s with
  | nil =>
    cases h
    exact ⟨0, fun call _ => Nat.zero_le _, (Kept.new windowSecs).prune (Nat.zero_le _)⟩
  | append_singleton calls call ih =>
    rw [runCalls_concat] at h
    cases hlast : lastCall windowSecs calls call with
    | error e => rw [hlast] at h; cases h
    | ok r =>
      rw [hlast] at h
      cases h
      obtain ⟨s₀, h₀, hrun⟩ := bind_ok.mp hlast
      obtain ⟨now, hnow, hkept⟩ := ih hclock.init h₀
      rw [(RollingThroughput.run_ok.mp hrun).1]
      exact ⟨call.now, fun c hc => hc.le, hkept.call (hnow call hclock)⟩

section
variable {windowSecs : Nat} {calls : List RollingCall} {call : RollingCall}

/-- The state of the last call, where the earlier ones returned. -/
theorem lastCall_spec (hclock : ClockForward (calls ++ [call])) {s : RollingThroughput}
    (h : runCalls windowSecs calls = .ok s) :
    ∃ s', Kept windowSecs (oldest windowSecs call.now) call.now (calls ++ [call]) s' ∧
      ∀ snapshot s'', lastCall windowSecs calls call = .ok (snapshot, s'') ↔
        s'' = s' ∧ snapshot = s'.operands call.now ∧ s'.Fits := by
  obtain ⟨now, hnow, hkept⟩ := kept_run hclock.init h
  refine ⟨s.advanced call, hkept.call (hnow call hclock), fun snapshot s'' => ?_⟩
  have he : lastCall windowSecs calls call = call.run s := by rw [lastCall, h]; rfl
  rw [he, RollingThroughput.run_ok]
  constructor
  · rintro ⟨rfl, h⟩
    exact ⟨rfl, h⟩
  · rintro ⟨rfl, h⟩
    exact ⟨rfl, h⟩

theorem lastCall_returns (hclock : ClockForward (calls ++ [call])) :
    (∃ r, lastCall windowSecs calls call = .ok r) ↔
      (∃ s, runCalls windowSecs calls = .ok s) ∧ TotalsFit windowSecs call.now (calls ++ [call]) := by
  constructor
  · intro ⟨⟨snapshot, s''⟩, hr⟩
    obtain ⟨s, hs, -⟩ := bind_ok.mp hr
    obtain ⟨s', hkept, hiff⟩ := lastCall_spec hclock hs
    exact ⟨⟨s, hs⟩, hkept.fits_iff.mp ((hiff snapshot s'').mp hr).2.2⟩
  · intro ⟨⟨s, hs⟩, hfit⟩
    obtain ⟨s', hkept, hiff⟩ := lastCall_spec hclock hs
    exact ⟨_, (hiff _ _).mpr ⟨rfl, rfl, hkept.fits_iff.mpr hfit⟩⟩

/-- The calls return as long as the totals fit. -/
theorem runCalls_returns (hclock : ClockForward calls) : (∃ s, runCalls windowSecs calls = .ok s) ↔
    ∀ before c, before ++ [c] <+: calls → TotalsFit windowSecs c.now (before ++ [c]) := by
  induction calls using List.reverseRecOn with
  | nil =>
    refine ⟨fun _ before c h => ?_, fun _ => ⟨_, rfl⟩⟩
    have hnil := List.prefix_nil.mp h
    simp at hnil
  | append_singleton calls call ih =>
    rw [runCalls_concat_ok, lastCall_returns hclock, ih hclock.init]
    constructor
    · intro ⟨hearlier, hfit⟩ before c hpre
      rcases List.prefix_concat_iff.mp hpre with he | hpre
      · obtain ⟨rfl, hc⟩ := List.append_inj' he rfl
        cases hc
        exact hfit
      · exact hearlier before c hpre
    · intro hall
      exact ⟨fun before c hpre => hall before c (hpre.trans (List.prefix_append _ _)),
        hall calls call List.prefix_rfl⟩

end

/-- **Rolling throughput is exact.** For every window and every sequence of calls at
seconds that do not decrease: a call that returns leaves at most one bucket for each
second of the window, in increasing order, and its totals are the sums over the
records of the last `max(window, 1)` seconds; and the calls all return as long as
these sums fit a `u64`. -/
theorem rolling_exact (windowSecs : Nat) (hw : windowSecs < 2 ^ 64) (calls : List RollingCall)
    (call : RollingCall) (hclock : ClockForward (calls ++ [call])) :
    (∀ snapshot s, lastCall windowSecs calls call = .ok (snapshot, s) →
      Exact windowSecs call.now (calls ++ [call]) snapshot s) ∧
    ((∃ r, lastCall windowSecs calls call = .ok r) ↔
      ∀ before c, before ++ [c] <+: calls ++ [call] →
        TotalsFit windowSecs c.now (before ++ [c])) := by
  refine ⟨fun snapshot s h => ?_, by rw [← runCalls_concat_ok, runCalls_returns hclock]⟩
  obtain ⟨s₀, h₀, -⟩ := bind_ok.mp h
  obtain ⟨s', hkept, hiff⟩ := lastCall_spec hclock h₀
  obtain ⟨rfl, rfl, -⟩ := (hiff snapshot s).mp h
  exact hkept.exact hw

/-- At second 105 a window of 5 seconds has lost the record of second 100. -/
theorem rolling_exact_expiry :
    Exact 5 105 ([.record 100 10 40, .record 101 1 2, .record 101 3 4] ++ [.snapshot 105]) ⟨4, 6, 5⟩
      ⟨5, some 100, [⟨101, 4, 6⟩]⟩ := by
  have hclock : ClockForward ([.record 100 10 40, .record 101 1 2, .record 101 3 4] ++
      [.snapshot 105]) := by
    show List.Pairwise _ [100, 101, 101, 105]
    decide
  exact (rolling_exact 5 (by decide) _ _ hclock).1 _ _ (by rfl)

end EthIndexer.L3
