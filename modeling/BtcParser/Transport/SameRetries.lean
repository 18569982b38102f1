import BtcParser.Rpc.Transport

/-!
Both transports retry in the same way.

* `Invocation.outcome` and `Attempt.outcome` say what one attempt amounts to, and `call_outcome`
  that the silent reconnect of `call` does not count as another attempt.
* `report` is how a call ends, from the outcomes of its attempts alone.
* `same_retries`: both loops end that way.
-/

namespace BtcParser.Transport

open Sanctions (strip)

variable {V : Type}

/-! ### Attempts -/

/-- What a subprocess amounts to. -/
def Invocation.outcome : Invocation → Outcome (List Char)
  | .completed stdout => .success (strip stdout)
  | .calledProcessError stderr => if errorCode <:+: stderr then .rpcError else .transportFailure
  | .timeoutExpired => .transportFailure
  | .osError => .transportFailure

/-- What a response amounts to. -/
def Response.outcome (r : Response V) : Outcome V :=
  match r.body with
  | .reply error v =>
      if r.status = 401 then .transportFailure else if error then .rpcError else .success v
  | _ => .transportFailure

/-- The round trip that decides: the second one if a connection was there and has been dropped. -/
def Attempt.deciding (connected : Bool) (a : Attempt V) : Exchange V :=
  if connected && a.first.answer.isNone then a.second else a.first

/-- The round trip that decides has to connect. -/
def Attempt.connects (connected : Bool) (a : Attempt V) : Bool :=
  !connected || a.first.answer.isNone

/-- What an attempt over HTTP amounts to. -/
def Attempt.outcome (connected : Bool) (a : Attempt V) : Outcome V :=
  if a.connects connected && !(a.deciding connected).cookieReadable then .transportFailure
  else
    match (a.deciding connected).answer with
    | none => .transportFailure
    | some r => r.outcome

lemma readReply_outcome (r : Response V) : (readReply r).1 = r.outcome := by
  rw [readReply, Response.outcome]
  cases r.body with
  | reply error v =>
      simp only
      split_ifs <;> simp_all
  | _ => simp

/-- A dropped connection is replaced within the attempt. -/
lemma call_outcome (connected : Bool) (a : Attempt V) :
    (call connected a).1 = a.outcome connected := by
  obtain ⟨⟨cookie, answer⟩, ⟨cookie', answer'⟩⟩ := a
  rw [call, Attempt.outcome]
  cases connected <;> cases answer with
  | none =>
      cases cookie <;> cases cookie' <;> cases answer' <;>
        simp [roundtrip, Attempt.connects, Attempt.deciding, readReply_outcome]
  | some r =>
      cases cookie <;>
        simp [roundtrip, Attempt.connects, Attempt.deciding, readReply_outcome]

/-- Whether there is a connection before each attempt. -/
def connections (connected : Bool) (http : ℕ → Attempt V) : ℕ → Bool
  | 0 => connected
  | k + 1 => (call (connections connected http k) (http k)).2

/-! ### Calls -/

/-- The outcome ends a call. -/
def Outcome.ends (retryRpcErrors : Bool) : Outcome V → Bool
  | .success _ => true
  | .rpcError => !retryRpcErrors
  | .transportFailure => false

/-- The end of a call whose last attempt came to this. -/
def Outcome.ending : Outcome V → Ending V
  | .success v => .value v
  | .rpcError => .rpcError
  | .transportFailure => .rpcCliError

variable (maxCliRetries : ℕ) (retryRpcErrors : Bool)

/-- How a call ends: with the first attempt that ends it, or else after all attempts. -/
def report (outcomes : ℕ → Outcome V) : Report V :=
  match (List.range (maxCliRetries + 1)).find? fun k => (outcomes k).ends retryRpcErrors with
  | some k => ⟨k + 1, k, (outcomes k).ending⟩
  | none => ⟨maxCliRetries + 1, maxCliRetries, .rpcCliError⟩

variable {maxCliRetries retryRpcErrors} {outcomes : ℕ → Outcome V}

lemma report_of_ends {k : ℕ} (hk : k ≤ maxCliRetries)
    (hbefore : ∀ j < k, (outcomes j).ends retryRpcErrors = false)
    (hends : (outcomes k).ends retryRpcErrors = true) :
    report maxCliRetries retryRpcErrors outcomes = ⟨k + 1, k, (outcomes k).ending⟩ := by
  have hfind : (List.range (maxCliRetries + 1)).find? (fun k => (outcomes k).ends retryRpcErrors)
      = some k := by
    rw [List.find?_range_eq_some]
    exact ⟨hends, List.mem_range.mpr (by omega), fun j hj => by rw [hbefore j hj]; rfl⟩
  rw [report, hfind]

lemma report_of_never (hnever : ∀ k ≤ maxCliRetries, (outcomes k).ends retryRpcErrors = false) :
    report maxCliRetries retryRpcErrors outcomes
      = ⟨maxCliRetries + 1, maxCliRetries, .rpcCliError⟩ := by
  have hfind : (List.range (maxCliRetries + 1)).find? (fun k => (outcomes k).ends retryRpcErrors)
      = none := by
    rw [List.find?_range_eq_none]
    intro j hj
    rw [hnever j (by omega)]
    rfl
  rw [report, hfind]

/-- A loop over the attempts that takes the next one unless an outcome ends the call. -/
lemma eq_report_of_step (loop : ℕ → ℕ → Report V)
    (hdone : loop 0 (maxCliRetries + 1) = ⟨maxCliRetries + 1, maxCliRetries, .rpcCliError⟩)
    (hstep : ∀ left k, k ≤ maxCliRetries → loop (left + 1) k
      = if (outcomes k).ends retryRpcErrors = true then ⟨k + 1, k, (outcomes k).ending⟩
        else loop left (k + 1)) :
    loop (maxCliRetries + 1) 0 = report maxCliRetries retryRpcErrors outcomes := by
  have hloop : ∀ left k, k + left = maxCliRetries + 1 →
      (∀ j < k, (outcomes j).ends retryRpcErrors = false) →
      loop left k = report maxCliRetries retryRpcErrors outcomes := by
    intro left
    induction left with
    | zero =>
        intro k hk hbefore
        obtain rfl : k = maxCliRetries + 1 := hk
        rw [hdone, report_of_never fun j hj => hbefore j (by omega)]
    | succ left ih =>
        intro k hk hbefore
        rw [hstep left k (by omega)]
        split_ifs with hends
        · rw [report_of_ends (by omega) hbefore hends]
        · refine ih (k + 1) (by omega) fun j hj => ?_
          rcases Nat.lt_succ_iff_lt_or_eq.mp hj with hj | rfl
          · exact hbefore j hj
          · exact Bool.eq_false_iff.mpr hends
  exact hloop (maxCliRetries + 1) 0 (Nat.zero_add _) fun j hj => absurd hj (Nat.not_lt_zero j)

/-- The number of waits behind an attempt that does not end the call. -/
lemma backoffs_succ (k : ℕ) :
    (if k < maxCliRetries then min k maxCliRetries + 1 else min k maxCliRetries)
      = min (k + 1) maxCliRetries := by
  split_ifs <;> omega

/-! ### The two loops -/

/-- One attempt of `run_cli`. -/
lemma runCliLoop_succ (cli : ℕ → Invocation) (left k backoffs : ℕ) :
    runCliLoop maxCliRetries retryRpcErrors cli (left + 1) k backoffs
      = if (cli k).outcome.ends retryRpcErrors = true
        then ⟨k + 1, backoffs, (cli k).outcome.ending⟩
        else runCliLoop maxCliRetries retryRpcErrors cli left (k + 1)
          (if k < maxCliRetries then backoffs + 1 else backoffs) := by
  rw [runCliLoop]
  cases cli k with
  | completed stdout => rfl
  | calledProcessError stderr =>
      by_cases h : errorCode <:+: stderr <;> cases retryRpcErrors <;>
        simp [isRpcError, Invocation.outcome, h, Outcome.ends, Outcome.ending]
  | timeoutExpired => simp [isRpcError, Invocation.outcome, Outcome.ends]
  | osError => simp [isRpcError, Invocation.outcome, Outcome.ends]

lemma runCli_eq (cli : ℕ → Invocation) : runCli maxCliRetries retryRpcErrors cli
    = report maxCliRetries retryRpcErrors fun k => (cli k).outcome := by
  refine eq_report_of_step
    (fun left k => runCliLoop maxCliRetries retryRpcErrors cli left k (min k maxCliRetries)) ?_
    fun left k hk => ?_
  · simp only [runCliLoop, min_eq_right (Nat.le_succ maxCliRetries)]
  · rw [runCliLoop_succ, backoffs_succ, min_eq_left hk]

/-- One attempt of `_http_call`. -/
lemma httpCallLoop_succ (http : ℕ → Attempt V) (left k backoffs : ℕ) (connected : Bool) :
    httpCallLoop maxCliRetries retryRpcErrors http (left + 1) k backoffs connected
      = if ((http k).outcome connected).ends retryRpcErrors = true
        then ⟨k + 1, backoffs, ((http k).outcome connected).ending⟩
        else httpCallLoop maxCliRetries retryRpcErrors http left (k + 1)
          (if k < maxCliRetries then backoffs + 1 else backoffs) (call connected (http k)).2 := by
  rw [httpCallLoop, ← call_outcome]
  rcases call connected (http k) with ⟨_ | _ | _, connected'⟩
  · rfl
  · cases retryRpcErrors <;> rfl
  · rfl

lemma httpCall_eq (connected : Bool) (http : ℕ → Attempt V) :
    httpCall maxCliRetries retryRpcErrors connected http
      = report maxCliRetries retryRpcErrors
          fun k => (http k).outcome (connections connected http k) := by
  refine eq_report_of_step (fun left k => httpCallLoop maxCliRetries retryRpcErrors http left k
    (min k maxCliRetries) (connections connected http k)) ?_ fun left k hk => ?_
  · simp only [httpCallLoop, min_eq_right (Nat.le_succ maxCliRetries)]
  · rw [httpCallLoop_succ, backoffs_succ, min_eq_left hk, connections]

/-! ### Values -/

/-- The values of an outcome, converted. -/
def Outcome.map {W : Type} (f : W → V) : Outcome W → Outcome V
  | .success w => .success (f w)
  | .rpcError => .rpcError
  | .transportFailure => .transportFailure

/-- The value of an end, converted. -/
def Ending.map {W : Type} (f : W → V) : Ending W → Ending V
  | .value w => .value (f w)
  | .rpcError => .rpcError
  | .rpcCliError => .rpcCliError

/-- The value of a call, converted. -/
def Report.map {W : Type} (f : W → V) (r : Report W) : Report V :=
  ⟨r.attempts, r.backoffs, r.ending.map f⟩

lemma report_map {W : Type} (f : W → V) (outcomes : ℕ → Outcome W) :
    (report maxCliRetries retryRpcErrors outcomes).map f
      = report maxCliRetries retryRpcErrors fun k => (outcomes k).map f := by
  have hends : ∀ o : Outcome W, (o.map f).ends retryRpcErrors = o.ends retryRpcErrors := by
    intro o
    cases o <;> rfl
  have hending : ∀ o : Outcome W, (o.map f).ending = o.ending.map f := by
    intro o
    cases o <;> rfl
  rw [report, report]
  simp only [hends]
  cases (List.range (maxCliRetries + 1)).find? fun k => (outcomes k).ends retryRpcErrors with
  | none => rfl
  | some k => simp only [Report.map, hending]

lemma report_congr {o o' : ℕ → Outcome V} (h : ∀ k ≤ maxCliRetries, o k = o' k) :
    report maxCliRetries retryRpcErrors o = report maxCliRetries retryRpcErrors o' := by
  by_cases hstop : ∃ k, k ≤ maxCliRetries ∧ (o k).ends retryRpcErrors = true
  · obtain ⟨hk, hends⟩ := Nat.find_spec hstop
    have hbefore : ∀ j < Nat.find hstop, (o j).ends retryRpcErrors = false := fun j hj =>
      Bool.eq_false_iff.mpr fun hj' => Nat.find_min hstop hj ⟨by omega, hj'⟩
    rw [report_of_ends hk hbefore hends, report_of_ends hk
      (fun j hj => by rw [← h j (by omega), hbefore j hj]) (by rw [← h _ hk, hends]), h _ hk]
  · have hnever : ∀ k ≤ maxCliRetries, (o k).ends retryRpcErrors = false := fun k hk =>
      Bool.eq_false_iff.mpr fun hends => hstop ⟨k, hk, hends⟩
    rw [report_of_never hnever, report_of_never fun k hk => by rw [← h k hk, hnever k hk]]

/-- **One retry semantics for both transports**: if the attempts of both amount to the same
outcomes, the values of bitcoin-cli being read off its output, then `run_cli` and `_http_call` make
the same number of attempts and end in the same way, with the first success or with the first error
of the node that is not to be retried, whichever comes first within the attempts there are, and else
with `RpcCliError` after all of them. -/
theorem same_retries (maxCliRetries : ℕ) (retryRpcErrors : Bool) (decode : List Char → V)
    (cli : ℕ → Invocation) (connected : Bool) (http : ℕ → Attempt V) (outcomes : ℕ → Outcome V)
    (hcli : ∀ k ≤ maxCliRetries, (cli k).outcome.map decode = outcomes k)
    (hhttp : ∀ k ≤ maxCliRetries,
      (http k).outcome (connections connected http k) = outcomes k) :
    (runCli maxCliRetries retryRpcErrors cli).map decode
        = report maxCliRetries retryRpcErrors outcomes
      ∧ httpCall maxCliRetries retryRpcErrors connected http
        = report maxCliRetries retryRpcErrors outcomes := by
  rw [runCli_eq, report_map, httpCall_eq]
  exact ⟨report_congr hcli, report_congr hhttp⟩

/-- A timeout and then a value; over HTTP a dropped connection that cannot be replaced at once. -/
theorem same_retries_dropped :
    let cli : ℕ → Invocation := fun k => if k = 0 then .timeoutExpired else .completed ['7']
    let http : ℕ → Attempt ℕ := fun k =>
      if k = 0 then ⟨⟨true, none⟩, ⟨true, none⟩⟩
      else ⟨⟨true, some ⟨200, .reply false 1, false⟩⟩, ⟨true, none⟩⟩
    let outcomes : ℕ → Outcome ℕ := fun k => if k = 0 then .transportFailure else .success 1
    (runCli 1 false cli).map List.length = report 1 false outcomes
      ∧ httpCall 1 false true http = report 1 false outcomes :=
  same_retries 1 false List.length _ true _ _
    (fun k hk => by interval_cases k <;> rfl) fun k hk => by interval_cases k <;> rfl

/-- The report of these outcomes. -/
example : report 1 false (fun k => if k = 0 then .transportFailure else .success 1)
    = ⟨2, 1, .value 1⟩ := by
  decide

end BtcParser.Transport
