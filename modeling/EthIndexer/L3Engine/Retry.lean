import Mathlib.Data.ENat.Lattice
import EthIndexer.L3Engine.BuildRange

/-!
# The retry loop of the RPC client

Every answer of the provider passes through `with_retry`. The operation is any
sequence of outcomes, one for each call number from 1 on; `firstSuccess` is the
position of the first success in it.

`retry_contract`: the loop ends after `min(firstSuccess, max_retries + 1)` calls with
the outcome of the last one, and between two calls there is one sleep. The sleep is
`retry_backoff` times the number of the call that failed, but at most
`Duration::MAX`; and the call number is a `usize`, so a client that is allowed
`usize::MAX` retries panics instead of making the last call (`retry_saturates`).

`transient_failures`: a client whose provider fails for at most `max_retries` calls in
a row returns what the provider answers.
-/
namespace EthIndexer.L3
open EthIndexer.L1 EthIndexer.L2

/-- `usize::MAX` of a 64-bit target. -/
def USIZE_MAX : Nat := 2 ^ 64 - 1

/-- `Duration::MAX` in nanoseconds. -/
def DURATION_MAX : Nat := 2 ^ 64 * 1000000000 - 1

structure Duration where
  nanos : Nat
  le_max : nanos ≤ DURATION_MAX
  deriving DecidableEq

namespace Duration

/-- `Duration::from_millis`. -/
def fromMillis (millis : UInt64) : Duration where
  nanos := millis.toNat * 1000000
  le_max := by
    have h := millis.toNat_lt
    simp only [DURATION_MAX]
    omega

/-- `Duration::saturating_mul`. -/
def saturatingMul (d : Duration) (k : Nat) : Duration :=
  ⟨min (d.nanos * k) DURATION_MAX, Nat.min_le_right _ _⟩

end Duration

/-! ## Metrics and events -/

/-- The two counters of `IndexerMetrics` that the client writes.
mirrors crates/observability/src/lib.rs:90-91 -/
structure RpcMetrics where
  rpcFailures : UInt64
  rpcRetries : UInt64
  deriving DecidableEq

namespace RpcMetrics

/-- mirrors crates/observability/src/lib.rs:122-137 -/
def recordRpcResult (m : RpcMetrics) (success : Bool) : RpcMetrics :=
  if !success then { m with rpcFailures := m.rpcFailures + 1 } else m

/-- mirrors crates/observability/src/lib.rs:139-148 -/
def recordRpcRetry (m : RpcMetrics) : RpcMetrics := { m with rpcRetries := m.rpcRetries + 1 }

end RpcMetrics

/-- What the loop awaits: call number `attempt`, or a pause. -/
inductive RetryEvent where
  | call (attempt : Nat)
  | sleep (backoff : Duration)
  deriving DecidableEq

/-- How the loop ends; `overflow` is the panic of `attempt += 1`. -/
inductive RetryEnd (ε T : Type) where
  | ok (result : T)
  | error (error : ε)
  | overflow
  deriving DecidableEq

structure RetryRun (ε T : Type) where
  result : RetryEnd ε T
  metrics : RpcMetrics
  events : List RetryEvent
  deriving DecidableEq

/-! ## The loop -/

/-- The fields of `RpcClient` that the loop reads.
mirrors crates/rpc/src/lib.rs:23-28 -/
structure RetryPolicy where
  maxRetries : Nat
  le_max : maxRetries ≤ USIZE_MAX
  retryBackoff : Duration

namespace RetryPolicy
variable {ε T : Type} (p : RetryPolicy) (operation : Nat → Except ε T)

/-- The pause after a call, `attempt as u32` included. -/
def backoff (attempt : Nat) : Duration := p.retryBackoff.saturatingMul (attempt % 2 ^ 32)

/-- The rounds of the loop after `attempt` calls; `room` is `usize::MAX - attempt`.
mirrors crates/rpc/src/lib.rs:112-151 -/
def retryFrom : (room attempt : Nat) → RpcMetrics → RetryRun ε T
  | 0, _, metrics => ⟨.overflow, metrics, []⟩
  | room + 1, attempt, metrics =>
    match operation (attempt + 1) with
    | .ok result => ⟨.ok result, metrics.recordRpcResult true, [.call (attempt + 1)]⟩
    | .error error =>
      let metrics := metrics.recordRpcResult false
      if attempt + 1 > p.maxRetries then ⟨.error error, metrics, [.call (attempt + 1)]⟩
      else
        let rest := retryFrom room (attempt + 1) metrics.recordRpcRetry
        { rest with
          events := .call (attempt + 1) :: .sleep (p.backoff (attempt + 1)) :: rest.events }

/-- mirrors crates/rpc/src/lib.rs:101-152 -/
def withRetry (metrics : RpcMetrics) : RetryRun ε T := p.retryFrom operation USIZE_MAX 0 metrics

end RetryPolicy

/-! ## The contract -/

section
variable {ε T : Type}

/-- The position of the first success, `⊤` if there is none. -/
noncomputable def firstSuccess (operation : Nat → Except ε T) : ℕ∞ :=
  ⨅ n ∈ {n : ℕ | 1 ≤ n ∧ (operation n).isOk}, (n : ℕ∞)

/-- The number of failures in `n` calls from call `first` on. -/
def failures (operation : Nat → Except ε T) (first n : Nat) : Nat :=
  (List.range' first n).countP fun i => !(operation i).isOk

/-- `n` calls from call `first` on, and a pause between two of them. -/
def rounds (p : RetryPolicy) (first : Nat) : Nat → List RetryEvent
  | 0 => []
  | 1 => [.call first]
  | n + 2 => .call first :: .sleep (p.backoff first) :: rounds p (first + 1) (n + 1)

/-- A run of `n` calls. -/
structure Contract (p : RetryPolicy) (operation : Nat → Except ε T) (metrics : RpcMetrics) (n : Nat)
    (run : RetryRun ε T) : Prop where
  events : run.events = rounds p 1 n
  ok : firstSuccess operation ≤ p.maxRetries + 1 →
    ∃ result, operation n = .ok result ∧ run.result = .ok result
  error : p.maxRetries + 1 < firstSuccess operation →
    ∃ e, operation n = .error e ∧ run.result = .error e
  rpcFailures : run.metrics.rpcFailures =
    metrics.rpcFailures + .ofNat (failures operation 1 n)
  rpcRetries : run.metrics.rpcRetries = metrics.rpcRetries + .ofNat (n - 1)

/-- The loop ends at call `n`, if it gets there. -/
structure LastCall (p : RetryPolicy) (operation : Nat → Except ε T) (n : Nat) : Prop where
  pos : 1 ≤ n
  le : n ≤ p.maxRetries + 1
  before : ∀ i, 1 ≤ i → i < n → (operation i).isOk = false
  last : n = p.maxRetries + 1 ∨ (operation n).isOk = true

variable {p : RetryPolicy} {operation : Nat → Except ε T} {n : Nat}

theorem exists_lastCall (p : RetryPolicy) (operation : Nat → Except ε T) :
    ∃ n, LastCall p operation n := by
  classical
  have hex : ∃ n, 1 ≤ n ∧ (n = p.maxRetries + 1 ∨ (operation n).isOk = true) :=
    ⟨p.maxRetries + 1, Nat.le_add_left _ _, .inl rfl⟩
  obtain ⟨hpos, hlast⟩ := Nat.find_spec hex
  refine ⟨Nat.find hex, hpos, Nat.find_min' hex ⟨Nat.le_add_left _ _, .inl rfl⟩,
    fun i hi hlt => ?_, hlast⟩
  have hmin := Nat.find_min hex hlt
  exact eq_false_of_ne_true fun h => hmin ⟨hi, .inr h⟩

/-- Every success comes at call `n` or later. -/
theorem LastCall.le_firstSuccess (h : LastCall p operation n) : (n : ℕ∞) ≤ firstSuccess operation := by
  refine le_iInf₂ fun i hi => Nat.cast_le.mpr (Nat.le_of_not_lt fun hlt => ?_)
  have hfail := h.before i hi.1 hlt
  rw [hi.2] at hfail
  cases hfail

theorem firstSuccess_le (hpos : 1 ≤ n) (h : (operation n).isOk = true) :
    firstSuccess operation ≤ n :=
  iInf₂_le n ⟨hpos, h⟩

/-- It is the first success, or the last call the policy allows. -/
theorem LastCall.eq_min (h : LastCall p operation n) :
    (n : ℕ∞) = min (firstSuccess operation) (p.maxRetries + 1) := by
  have hle : (n : ℕ∞) ≤ p.maxRetries + 1 := by exact_mod_cast h.le
  refine le_antisymm (le_min h.le_firstSuccess hle) ?_
  rcases h.last with hn | hok
  · rw [hn]
    exact min_le_right _ _
  · exact (min_le_left _ _).trans (firstSuccess_le h.pos hok)

/-- Within the allowed calls there is a success exactly when the last call is one. -/
theorem LastCall.ok_iff (h : LastCall p operation n) :
    firstSuccess operation ≤ p.maxRetries + 1 ↔ (operation n).isOk = true := by
  constructor
  · intro hle
    rcases h.last with hn | hok
    · by_contra hfail
      -- then every success comes after call `n`
      have hlt : ((n + 1 : ℕ) : ℕ∞) ≤ firstSuccess operation := by
        refine le_iInf₂ fun i hi => Nat.cast_le.mpr (Nat.lt_of_not_le fun hin => ?_)
        rcases Nat.lt_or_eq_of_le hin with hlt | heq
        · have hf := h.before i hi.1 hlt
          rw [hi.2] at hf
          cases hf
        · exact hfail (heq ▸ hi.2)
      have hcontra := hlt.trans hle
      rw [hn] at hcontra
      exact absurd (by exact_mod_cast hcontra : p.maxRetries + 1 + 1 ≤ p.maxRetries + 1) (by omega)
    · exact hok
  · intro hok
    exact (firstSuccess_le h.pos hok).trans (by exact_mod_cast h.le)

/-! ## Runs -/

theorem failures_succ_of_fails {first : Nat} (h : (operation first).isOk = false) (n : Nat) :
    failures operation first (n + 1) = failures operation (first + 1) n + 1 := by
  rw [failures, List.range'_succ, List.countP_cons_of_pos (by rw [h]; rfl)]
  rfl

theorem ofNat_succ_assoc (x : UInt64) (n : Nat) : x + 1 + .ofNat n = x + .ofNat (n + 1) := by
  rw [Nat.add_comm n 1, UInt64.ofNat_add, UInt64.add_assoc]
  rfl

/-- The end of the run, as the last outcome has it. -/
def endOf : Except ε T → RetryEnd ε T
  | .ok result => .ok result
  | .error error => .error error

/-- A call that fails and is to be retried: both counters go up, and the loop pauses. -/
theorem retryFrom_retry {room attempt : Nat} (m : RpcMetrics)
    (hfail : (operation (attempt + 1)).isOk = false) (hle : attempt + 1 ≤ p.maxRetries) :
    p.retryFrom operation (room + 1) attempt m =
      let rest := p.retryFrom operation room (attempt + 1) ⟨m.rpcFailures + 1, m.rpcRetries + 1⟩
      ⟨rest.result, rest.metrics, .call (attempt + 1) :: .sleep (p.backoff (attempt + 1)) ::
        rest.events⟩ := by
  rw [RetryPolicy.retryFrom]
  cases hop : operation (attempt + 1) with
  | ok result => rw [hop] at hfail; cases hfail
  | error e =>
    simp only
    rw [if_neg (Nat.not_lt.mpr hle)]
    rfl

/-- The last call ends the loop with its outcome. -/
theorem retryFrom_last (hn : LastCall p operation n) {room attempt : Nat} (hcall : attempt + 1 = n)
    (m : RpcMetrics) : p.retryFrom operation (room + 1) attempt m = ⟨endOf (operation n),
      ⟨m.rpcFailures + .ofNat (failures operation n 1), m.rpcRetries⟩, [.call n]⟩ := by
  rw [RetryPolicy.retryFrom, hcall]
  cases hop : operation n with
  | ok result =>
    have hf : failures operation n 1 = 0 := by simp [failures, hop, Except.isOk, Except.toBool]
    simp [hf, endOf, RpcMetrics.recordRpcResult]
  | error e =>
    have hmax : n = p.maxRetries + 1 := hn.last.resolve_right (by simp [hop, Except.isOk, Except.toBool])
    have hf : failures operation n 1 = 1 := by simp [failures, hop, Except.isOk, Except.toBool]
    simp only [hf]
    rw [if_pos (by omega)]
    rfl

/-- The run from call `attempt + 1` to the last call, by induction on the retries that
are left. -/
theorem retryFrom_spec (hn : LastCall p operation n) {retries room attempt : Nat}
    (hcall : attempt + retries + 1 = n) (hroom : retries < room) (m : RpcMetrics) :
    p.retryFrom operation room attempt m = ⟨endOf (operation n),
      ⟨m.rpcFailures + .ofNat (failures operation (attempt + 1) (retries + 1)),
        m.rpcRetries + .ofNat retries⟩, rounds p (attempt + 1) (retries + 1)⟩ := by
  induction retries generalizing room attempt m with
  | zero =>
    obtain ⟨room, rfl⟩ := Nat.exists_eq_succ_of_ne_zero (Nat.ne_of_gt hroom)
    have hzero : m.rpcRetries + .ofNat 0 = m.rpcRetries := UInt64.add_zero _
    rw [retryFrom_last hn hcall m, ← hcall, hzero]
    rfl
  | succ retries ih =>
    obtain ⟨room, rfl⟩ := Nat.exists_eq_succ_of_ne_zero (Nat.ne_of_gt (Nat.zero_lt_of_lt hroom))
    have hfail := hn.before (attempt + 1) (Nat.le_add_left _ _) (by omega)
    have hle := hn.le
    rw [retryFrom_retry m hfail (by omega), ih (by omega) (Nat.lt_of_succ_lt_succ hroom),
      failures_succ_of_fails hfail]
    simp only [ofNat_succ_assoc, rounds]

/-- Where all calls that `attempt` can count are to be retried, it overflows. -/
theorem retryFrom_overflow {room attempt : Nat} (m : RpcMetrics)
    (h : ∀ i, attempt < i → i ≤ attempt + room → (operation i).isOk = false ∧ i ≤ p.maxRetries) :
    (p.retryFrom operation room attempt m).result = .overflow := by
  induction room generalizing attempt m with
  | zero => rfl
  | succ room ih =>
    obtain ⟨hfail, hle⟩ := h (attempt + 1) (Nat.lt_succ_self _) (by omega)
    rw [retryFrom_retry m hfail hle]
    exact ih _ fun i hlo hhi => h i (Nat.lt_of_succ_lt hlo) (by omega)

theorem contract_of_lastCall (hn : LastCall p operation n) (hle : n ≤ USIZE_MAX) (m : RpcMetrics) :
    Contract p operation m n (p.withRetry operation m) := by
  have hpos := hn.pos
  have hcall : 0 + (n - 1) + 1 = n := by omega
  have hroom : n - 1 < USIZE_MAX := by omega
  have hrun := retryFrom_spec hn hcall hroom m
  rw [Nat.sub_add_cancel hpos] at hrun
  have hiff := hn.ok_iff
  rw [RetryPolicy.withRetry, hrun]
  refine ⟨rfl, fun hok => ?_, fun herr => ?_, rfl, rfl⟩
  · cases hop : operation n with
    | ok result => exact ⟨result, rfl, rfl⟩
    | error e =>
      have hcontra := hiff.mp hok
      rw [hop] at hcontra
      cases hcontra
  · cases hop : operation n with
    | ok result => exact absurd (hiff.mpr (by rw [hop]; rfl)) (not_le.mpr herr)
    | error e => exact ⟨e, rfl, rfl⟩

theorem overflow_of_lastCall (hn : LastCall p operation n) (hlt : USIZE_MAX < n) (m : RpcMetrics) :
    (p.withRetry operation m).result = .overflow := by
  refine retryFrom_overflow m fun i hlo hhi => ⟨hn.before i hlo (by omega), ?_⟩
  have hle := hn.le
  omega

/-- The pause is a multiple of `retry_backoff`, up to the longest `Duration`. -/
theorem backoff_nanos (p : RetryPolicy) {attempt : Nat} (h : attempt < 2 ^ 32) :
    (p.backoff attempt).nanos = min (p.retryBackoff.nanos * attempt) DURATION_MAX := by
  rw [RetryPolicy.backoff, Nat.mod_eq_of_lt h]
  rfl

/-- Between call `i` and the next one there is the pause after call `i`. -/
theorem rounds_pause (p : RetryPolicy) {first n i : Nat} (hlo : first ≤ i) (hhi : i + 1 < first + n) :
    [.call i, .sleep (p.backoff i), .call (i + 1)] <:+: rounds p first n := by
  induction n generalizing first with
  | zero => omega
  | succ n ih =>
    obtain ⟨n, rfl⟩ : ∃ k, n = k + 1 := ⟨n - 1, by omega⟩
    rcases Nat.eq_or_lt_of_le hlo with rfl | hlt
    · cases n with
      | zero => exact List.infix_rfl
      | succ n =>
        exact ⟨[], .sleep (p.backoff (first + 1)) :: rounds p (first + 1 + 1) (n + 1), rfl⟩
    · exact List.infix_cons (List.infix_cons (ih hlt (by omega)))

end

/-- **Retry loop contract.** For every policy and every sequence of outcomes, with `n`
the smaller of `firstSuccess` and `max_retries + 1`: if `n` is a `usize`, the loop
ends after `n` calls with the contract's outcome, counters and pauses; if not, the
call number overflows. -/
theorem retry_contract {ε T : Type} (p : RetryPolicy) (operation : Nat → Except ε T)
    (m : RpcMetrics) :
    (∃ n : ℕ, (n : ℕ∞) = min (firstSuccess operation) (p.maxRetries + 1) ∧
      (n ≤ USIZE_MAX → Contract p operation m n (p.withRetry operation m)) ∧
      (USIZE_MAX < n → (p.withRetry operation m).result = .overflow)) ∧
    ∀ attempt < 2 ^ 32,
      (p.backoff attempt).nanos = min (p.retryBackoff.nanos * attempt) DURATION_MAX := by
  refine ⟨?_, fun attempt h => backoff_nanos p h⟩
  obtain ⟨n, hn⟩ := exists_lastCall p operation
  exact ⟨n, hn.eq_min, fun hle => contract_of_lastCall hn hle m,
    fun hlt => overflow_of_lastCall hn hlt m⟩

/-- A provider that is down. -/
def unreachable : Nat → Except String Unit := fun _ => .error "connection refused"

/-- 1001 retries, and the longest pause that can be configured. -/
def longestBackoff : RetryPolicy := ⟨1001, by decide, .fromMillis 18446744073709551615⟩

/-- As many retries as can be configured. -/
def mostRetries : RetryPolicy := ⟨USIZE_MAX, Nat.le_refl _, .fromMillis 500⟩

theorem lastCall_unreachable (p : RetryPolicy) : LastCall p unreachable (p.maxRetries + 1) :=
  ⟨Nat.le_add_left _ _, Nat.le_refl _, fun _ _ _ => rfl, .inl rfl⟩

/-- **Counterexample.** With the longest pause, the one after call 1001 is not 1001
times `retry_backoff`; and with `usize::MAX` retries of a provider that is down, the
client does not return the error of the last call. -/
theorem retry_saturates :
    (∃ d : Duration, [.call 1001, .sleep d, .call 1002] <:+:
        (longestBackoff.withRetry unreachable ⟨0, 0⟩).events ∧
      d.nanos = DURATION_MAX ∧ d.nanos < longestBackoff.retryBackoff.nanos * 1001) ∧
    (mostRetries.withRetry unreachable ⟨0, 0⟩).result = .overflow := by
  refine ⟨⟨longestBackoff.backoff 1001, ?_, ?_⟩, ?_⟩
  · rw [(contract_of_lastCall (lastCall_unreachable longestBackoff) (by decide) _).events]
    exact rounds_pause longestBackoff (by decide) (by decide)
  · rw [backoff_nanos _ (by decide)]
    exact ⟨by decide, by decide⟩
  · exact overflow_of_lastCall (lastCall_unreachable mostRetries) (by decide) _

/-! ## The client -/

def RetryEnd.answer {T : Type} : RetryEnd String T → Except String T
  | .ok result => .ok result
  | .error e => .error e
  | .overflow => .error "attempt to add with overflow"

/-- The client over a provider whose answer to each request depends on the number of
the call. -/
def RpcClient.retrying (p : RetryPolicy) (m : RpcMetrics) (provider : Nat → RpcClient) :
    RpcClient where
  getBlockByNumber n :=
    (p.withRetry (fun attempt => (provider attempt).getBlockByNumber n) m).result.answer
  fetchErc20TransferLogs first last filter :=
    (p.withRetry (fun attempt => (provider attempt).fetchErc20TransferLogs first last filter)
      m).result.answer

/-- The operation fails at most `max_retries` times and then gives the answer. -/
def Transient {T : Type} (p : RetryPolicy) (operation : Nat → Except String T)
    (answer : Except String T) : Prop :=
  ∃ n, n ≤ p.maxRetries ∧ n < USIZE_MAX ∧ (∀ i, 1 ≤ i → i ≤ n → (operation i).isOk = false) ∧
    operation (n + 1) = answer ∧ answer.isOk = true

theorem Transient.answer {T : Type} {p : RetryPolicy} {operation : Nat → Except String T}
    {answer : Except String T} (h : Transient p operation answer) (m : RpcMetrics) :
    (p.withRetry operation m).result.answer = answer := by
  obtain ⟨n, hle, hlt, hfail, hop, hok⟩ := h
  have hlast : LastCall p operation (n + 1) :=
    ⟨Nat.le_add_left _ _, Nat.succ_le_succ hle, fun i hi hin => hfail i hi (Nat.lt_succ_iff.mp hin),
      .inr (hop ▸ hok)⟩
  obtain ⟨result, hr, he⟩ := (contract_of_lastCall hlast hlt m).ok (hlast.ok_iff.mpr (hop ▸ hok))
  rw [he, ← hop, hr]
  rfl

/-- **Transient failures do not show.** -/
theorem transient_failures (p : RetryPolicy) (m : RpcMetrics) (provider : Nat → RpcClient)
    (rpc : RpcClient)
    (hblock : ∀ n, Transient p (fun attempt => (provider attempt).getBlockByNumber n)
      (rpc.getBlockByNumber n))
    (hlogs : ∀ first last filter, Transient p
      (fun attempt => (provider attempt).fetchErc20TransferLogs first last filter)
      (rpc.fetchErc20TransferLogs first last filter)) :
    RpcClient.retrying p m provider = rpc := by
  have hb : (RpcClient.retrying p m provider).getBlockByNumber = rpc.getBlockByNumber :=
    funext fun n => (hblock n).answer m
  have hl : (RpcClient.retrying p m provider).fetchErc20TransferLogs = rpc.fetchErc20TransferLogs :=
    funext fun first => funext fun last => funext fun filter => (hlogs first last filter).answer m
  cases rpc
  simp only [RpcClient.retrying] at hb hl ⊢
  rw [hb, hl]

end EthIndexer.L3
