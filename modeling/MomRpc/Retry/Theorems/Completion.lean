import MomRpc.Retry.Nanos
import MomRpc.Retry.Theorems.Loop

namespace MomRpc

variable {D M T : Type} [Delays D M] {cfg : RetryConfig D} {operation : ℕ → Except RpcError T}
  {hash : ℕ → UInt64}

namespace RetryLoop

-- All delays fit up to the first outcome that ends the call, and there is one if `attempt` would
-- overflow otherwise.
structure Unhindered (cfg : RetryConfig D) (operation : ℕ → Except RpcError T) (Fits : ℕ → Prop) :
    Prop where
  fits : ∀ n < cfg.maxAttempts.toNat, (∀ i ≤ n, Retryable (operation i)) → Fits n
  ends : cfg.maxAttempts.toNat + 1 = UInt32.size →
    ∃ i ≤ cfg.maxAttempts.toNat, ¬Retryable (operation i)

theorem completes_iff : (∃ result, ((init cfg).run cfg operation hash).outcome = some result) ↔
    Unhindered cfg operation fun n => cfg.Converts (hash n) n := by
  have ⟨last, at'⟩ := attempts cfg operation hash
  generalize (init cfg).run cfg operation hash = trace at at' ⊢
  constructor
  case mp =>
    intro ⟨result, ho⟩
    have ⟨_, exhausted⟩ := at'.returned result ho
    refine ⟨fun n hn hr => ?_, fun hs => ?_⟩
    · by_cases lt : n < last
      · exact (at'.retried n (Nat.zero_le _) lt).right
      · have := (exhausted <| hr last <| not_lt.mp lt).left
        omega
    · refine ⟨last, at'.within, fun retryable => ?_⟩
      have ⟨eq, room⟩ := exhausted retryable
      exact room <| eq ▸ hs
  case mpr =>
    intro unhindered
    cases ho : trace.outcome
    case some result => exact ⟨result, rfl⟩
    case none =>
      have ⟨retryable, why⟩ := at'.panicked ho
      have all (i : ℕ) (le : i ≤ last) : Retryable (operation i) := by
        rcases le.eq_or_lt with rfl | lt
        · exact retryable
        · exact (at'.retried i (Nat.zero_le _) lt).left
      rcases why with limit | ⟨lt, unfit⟩
      · have within := at'.within
        have size : cfg.maxAttempts.toNat < UInt32.size := cfg.maxAttempts.toNat_lt
        have ⟨i, le, final⟩ := unhindered.ends (by omega)
        exact absurd (all i <| by omega) final
      · exact absurd (unhindered.fits last lt all) unfit

-- The call makes an attempt for every outcome up to the first one that is not retryable, but no
-- more than one and `max_attempts` retries, and returns the outcome of the last attempt.
structure Specified (cfg : RetryConfig D) (operation : ℕ → Except RpcError T)
    (trace : Trace T D) : Prop where
  returns  : ∀ j ≤ cfg.maxAttempts.toNat, ¬Retryable (operation j) →
    (∀ i < j, Retryable (operation i)) →
    trace.operations = j + 1 ∧ trace.outcome = some (operation j)
  exhausts : (∀ i ≤ cfg.maxAttempts.toNat, Retryable (operation i)) →
    trace.operations = cfg.maxAttempts.toNat + 1 ∧
      trace.outcome = some (operation cfg.maxAttempts.toNat)

theorem Specified.completes {trace : Trace T D} (specified : Specified cfg operation trace) :
    ∃ result, trace.outcome = some result := by
  by_cases all : ∀ i ≤ cfg.maxAttempts.toNat, Retryable (operation i)
  case pos => exact ⟨_, (specified.exhausts all).right⟩
  case neg =>
    classical
    have final : ∃ i, i ≤ cfg.maxAttempts.toNat ∧ ¬Retryable (operation i) := by simpa using all
    have ⟨le, hf⟩ := Nat.find_spec final
    refine ⟨_, (specified.returns _ le hf fun i lt => ?_).right⟩
    have := Nat.find_min final lt
    by_contra hr
    exact this ⟨lt.le.trans le, hr⟩

theorem specified_iff : Specified cfg operation ((init cfg).run cfg operation hash) ↔
    Unhindered cfg operation fun n => cfg.Converts (hash n) n := by
  rw [← completes_iff]
  refine ⟨Specified.completes, fun ⟨result, ho⟩ => ?_⟩
  have ⟨last, at'⟩ := attempts cfg operation hash
  generalize (init cfg).run cfg operation hash = trace at at' ho ⊢
  obtain ⟨rfl, exhausted⟩ := at'.returned result ho
  have operations := at'.operations
  constructor
  case returns =>
    intro j le final first
    have eq : last = j := by
      rcases lt_trichotomy last j with lt | eq | gt
      · have := (exhausted <| first last lt).left
        omega
      · exact eq
      · exact absurd (at'.retried j (Nat.zero_le _) gt).left final
    subst eq
    exact ⟨by omega, ho⟩
  case exhausts =>
    intro all
    have ⟨eq, _⟩ := exhausted (all last at'.within)
    exact ⟨by omega, eq ▸ ho⟩

end RetryLoop

open Binary RetryLoop

def RetriesAsSpecified (retryConfig : Option (RetryConfig D)) (operation : ℕ → Except RpcError T)
    (trace : Trace T D) : Prop :=
  match retryConfig with
  | none     => trace.operations = 1 ∧ trace.outcome = some (operation 0)
  | some cfg => Specified cfg operation trace

theorem retriesAsSpecified_iff (retryConfig : Option (RetryConfig D)) :
    RetriesAsSpecified retryConfig operation (retryWithBackoff retryConfig operation hash) ↔
      ∀ cfg, retryConfig = some cfg →
        Unhindered cfg operation fun n => cfg.Converts (hash n) n := by
  cases retryConfig
  case none     => simp [RetriesAsSpecified, retryWithBackoff]
  case some cfg => simpa [RetriesAsSpecified, retryWithBackoff] using specified_iff

-- The numbers of seconds that the `n`-th delay becomes, once jittered and once multiplied, are in
-- the domain of `Duration::from_secs_f64`.
def RetryConfig.InDomain (cfg : RetryConfig Nanos) (hash : UInt64) (n : ℕ) : Prop :=
  ∃ d, cfg.delay? n = some d ∧
    Nanos.InDomain (binary64.mul d.asSecsF64 (Nanos.jitterMultiplier hash)) ∧
    Nanos.InDomain (binary64.mul d.asSecsF64 cfg.multiplier)

theorem RetryConfig.converts_iff_inDomain {cfg : RetryConfig Nanos} {h : UInt64} {n : ℕ} :
    cfg.Converts h n ↔ cfg.InDomain h n := by
  simp only [InDomain, ← Nanos.fromSecsF64_ne_none_iff]
  rfl

-- In the arithmetic of the code, a call does what the outcomes of its attempts ask for exactly if
-- nothing panics on the way.
theorem retries_as_specified (retryConfig : Option (RetryConfig Nanos))
    (operation : ℕ → Except RpcError T) (hash : ℕ → UInt64) :
    RetriesAsSpecified retryConfig operation (retryWithBackoff retryConfig operation hash) ↔
      ∀ cfg, retryConfig = some cfg →
        Unhindered cfg operation fun n => cfg.InDomain (hash n) n := by
  simp only [← RetryConfig.converts_iff_inDomain]
  exact retriesAsSpecified_iff retryConfig

def largestConfig : RetryConfig Nanos where
  maxAttempts := 4294967295

-- With the largest number of attempts the counter of a call that is never answered overflows.
theorem largest_max_attempts_overflows :
    ¬RetriesAsSpecified (some largestConfig)
      (fun _ => (.error (.transportRetryable "request timeout") : Except RpcError Unit))
      (retryWithBackoff (some largestConfig)
        (fun _ => .error (.transportRetryable "request timeout")) fun _ => 0) := by
  intro specified
  have ⟨_, _, final⟩ := (specified_iff.mp specified).ends rfl
  exact final ⟨_, rfl⟩

end MomRpc
