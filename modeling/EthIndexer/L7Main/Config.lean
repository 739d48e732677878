import EthIndexer.Core.Positional
import EthIndexer.L3Engine.Retry
import EthIndexer.L3Engine.System
import EthIndexer.L5Api.Schema

/-!
# The configuration of `main`

What `main` reads from its environment before it starts the workers. A number
that does not parse is its default, like one that is not set; a contract address
that does not parse ends the process. `HOT_WINDOW_SIZE` counts only where
`LIVE_START_DEPTH` is not set at all, and the engine's two window fields get the
same number.

`parseU64_iff` says which strings are numbers: one plus sign at most, and decimal
digits of a number below 2^64, leading zeros included.
-/
namespace EthIndexer.L7
open EthIndexer.L1 EthIndexer.L3

/-- `std::env::var`, with `None` for a variable that is not set. -/
abbrev Env := String → Option String

/-- What `u64::from_str` leaves after the sign. -/
def stripPlus : List Char → List Char
  | '+' :: cs => cs
  | cs => cs

/-- `str::parse::<u64>`, and on a 64-bit target `str::parse::<usize>`. -/
def parseU64 (value : String) : Option Nat :=
  (Positional.numeral? (String.ofList (stripPlus value.toList))).filter fun n => decide (n < 2 ^ 64)

/-- A variable that is not set or does not parse is its default. -/
def Env.number (env : Env) (name : String) (default : Nat) : Nat :=
  ((env name).bind parseU64).getD default

/-- mirrors indexer/src/main.rs:14-18 -/
inductive IndexerMode where
  | backfill
  | live
  | hybrid
  deriving DecidableEq

/-- `Char.toLower` is `to_ascii_lowercase`.
mirrors indexer/src/main.rs:20-33 -/
def IndexerMode.fromEnv (value : Option String) : IndexerMode :=
  match String.ofList ((L5.trim (value.getD "hybrid").toList).map Char.toLower) with
  | "backfill" => .backfill
  | "live" => .live
  | _ => .hybrid

/-- What the environment configures of the workers, the RPC client and the metrics. -/
structure Config where
  engine : BackfillEngine
  start : Nat
  mode : IndexerMode
  retry : RetryPolicy
  rollingWindowSecs : Nat

theorem parseU64_lt {value : String} {n : Nat} (h : parseU64 value = some n) : n < 2 ^ 64 := by
  simpa using (Option.filter_eq_some_iff.mp h).2

theorem Env.number_lt (env : Env) (name : String) {default : Nat} (hd : default < 2 ^ 64) :
    env.number name default < 2 ^ 64 := by
  unfold Env.number
  cases h : (env name).bind parseU64 with
  | none => exact hd
  | some n =>
    obtain ⟨value, -, hv⟩ := Option.bind_eq_some_iff.mp h
    exact parseU64_lt hv

/-- `LIVE_START_DEPTH`, or where it is not set `HOT_WINDOW_SIZE`.
mirrors indexer/src/main.rs:80-84 -/
def liveStartDepth (env : Env) : Nat :=
  (((env "LIVE_START_DEPTH").or (env "HOT_WINDOW_SIZE")).bind parseU64).getD 256

/-- The retries and the pause of the RPC client.
mirrors indexer/src/main.rs:47-54 and :93-98 -/
def retryPolicy (env : Env) : RetryPolicy where
  maxRetries := env.number "RPC_MAX_RETRIES" 3
  le_max := Nat.le_pred_of_lt (env.number_lt _ (by decide))
  retryBackoff := .fromMillis (.ofNat (env.number "RPC_RETRY_BACKOFF_MS" 500))

/-- `addressFromStr` is alloy's `str::parse::<Address>`.
mirrors indexer/src/main.rs:85-90 -/
def contractAddress (addressFromStr : String → Except String Address) (env : Env) :
    Except String Bytes :=
  match env "CONTRACT_ADDRESS" with
  | none => .ok []
  | some value => (addressFromStr value).map Subtype.val

/-- A variable that must be set panics where it is not.
mirrors indexer/src/main.rs:36-132 -/
def config (addressFromStr : String → Except String Address) (env : Env) : Except String Config :=
  match env "SEPOLIA_RPC_URL", env "DATABASE_URL" with
  | none, _ => .error "RPC_URL env-var not set!"
  | some _, none => .error "DATABASE_URL env-var not set!"
  | some _, some _ => do
    let contractAddress ← contractAddress addressFromStr env
    pure {
      engine := {
        contractAddress
        confirmationDepth := env.number "CONFIRMATION_DEPTH" 12
        reorgLookback := env.number "REORG_LOOKBACK" 24
        hotWindowSize := liveStartDepth env
        liveStartDepth := liveStartDepth env }
      start := env.number "START_BLOCK" 10463971
      mode := .fromEnv (env "INDEXER_MODE")
      retry := retryPolicy env
      rollingWindowSecs := env.number "METRICS_ROLLING_WINDOW_SECS" 60 }

/-! ## Numbers -/

theorem numeral_iff {cs : List Char} {n : Nat} : Positional.numeral? (String.ofList cs) = some n ↔
    cs ≠ [] ∧ cs.all Char.isDigit ∧ Nat.ofDigitChars 10 cs 0 = n := by
  unfold Positional.numeral?
  rw [String.toList_ofList]
  split
  · rename_i h
    simp [h.1, h.2]
  · rename_i h
    simp only [reduceCtorEq, false_iff]
    exact fun hn => h ⟨hn.1, hn.2.1⟩

/-- No digit is a sign. -/
theorem stripPlus_digits {cs : List Char} (h : cs.all Char.isDigit) : stripPlus cs = cs := by
  unfold stripPlus
  split
  · simp [Char.isDigit] at h
  · rfl

theorem parseU64_iff {value : String} {n : Nat} : parseU64 value = some n ↔
    ∃ sign ∈ [[], ['+']], ∃ digits : List Char, value.toList = sign ++ digits ∧ digits ≠ [] ∧
      digits.all Char.isDigit ∧ Nat.ofDigitChars 10 digits 0 = n ∧ n < 2 ^ 64 := by
  simp only [parseU64, Option.filter_eq_some_iff, numeral_iff, decide_eq_true_eq]
  constructor
  · intro ⟨⟨hne, hd, hn⟩, hlt⟩
    have hsplit : ∃ sign ∈ [[], ['+']], value.toList = sign ++ stripPlus value.toList := by
      unfold stripPlus
      split
      · rename_i cs hv
        exact ⟨['+'], by simp, hv⟩
      · exact ⟨[], by simp, rfl⟩
    obtain ⟨sign, hs, hv⟩ := hsplit
    exact ⟨sign, hs, _, hv, hne, hd, hn, hlt⟩
  · intro ⟨sign, hs, digits, hv, hne, hd, hn, hlt⟩
    have hstrip : stripPlus value.toList = digits := by
      rw [hv]
      simp only [List.mem_cons, List.not_mem_nil, or_false] at hs
      rcases hs with rfl | rfl
      · exact stripPlus_digits hd
      · rfl
    rw [hstrip]
    exact ⟨⟨hne, hd, hn⟩, hlt⟩

/-- **Round trip.** A number below 2^64 is read back from its decimal digits. -/
theorem parseU64_repr {n : Nat} (h : n < 2 ^ 64) : parseU64 n.repr = some n := by
  obtain ⟨hne, hd⟩ := Positional.digits_toDigits n
  exact parseU64_iff.mpr ⟨[], by simp, _, Nat.toList_repr, hne, hd, Nat.ofDigitChars_ten_toDigits, h⟩

/-! ## What a configuration is -/

section
variable {addressFromStr : String → Except String Address} {env : Env} {c : Config}

/-- The parts of a configuration. -/
theorem config_ok (h : config addressFromStr env = .ok c) :
    c.engine.hotWindowSize = c.engine.liveStartDepth ∧ c.start < 2 ^ 64 ∧
      c.engine.confirmationDepth < 2 ^ 64 ∧ c.engine.reorgLookback < 2 ^ 64 ∧
      c.mode = .fromEnv (env "INDEXER_MODE") := by
  unfold config at h
  split at h
  · cases h
  · cases h
  · obtain ⟨address, -, h⟩ := bind_ok.mp h
    cases h
    exact ⟨rfl, env.number_lt _ (by decide), env.number_lt _ (by decide),
      env.number_lt _ (by decide), rfl⟩

/-- The hot window of a configured engine: the larger of its two depths, and at
least one block. -/
theorem config_liveStart (h : config addressFromStr env = .ok c) (start latest : Nat) :
    c.engine.computeLiveStartBlock start latest =
      max (latest - (max (max c.engine.liveStartDepth c.engine.reorgLookback) 1 - 1)) start := by
  simp only [BackfillEngine.computeLiveStartBlock, (config_ok h).1, Nat.max_self]

end
end EthIndexer.L7
