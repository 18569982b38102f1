import BtcParser.Rpc.SanctionsList

/-!
`rpc/client.py`: the two transports of a call, `run_cli` and `_http_call`, attempt by attempt.

What a subprocess or an exchange over HTTP comes to is an input. The texts of the exceptions and of
the log are left out, and a wait between two attempts is counted.
-/

namespace BtcParser.Transport

open Sanctions (strip)

/-- How a call ends: with a value, or with one of the two exceptions. -/
inductive Ending (V : Type) where
  | value (v : V)
  | rpcError
  | rpcCliError
  deriving DecidableEq

/-- The attempts of a call, the waits between them, and its end. -/
structure Report (V : Type) where
  attempts : ℕ
  backoffs : ℕ
  ending : Ending V
  deriving DecidableEq

/-! ### bitcoin-cli -/

/-- What `subprocess.run` comes to. -/
inductive Invocation where
  | completed (stdout : List Char)
  | calledProcessError (stderr : List Char)
  | timeoutExpired
  | osError

/-- The text that bitcoin-cli prints in front of the number of an error. -/
def errorCode : List Char := ['e', 'r', 'r', 'o', 'r', ' ', 'c', 'o', 'd', 'e', ':']

/-- `_is_rpc_error`. -/
def isRpcError : Invocation → Bool
  | .calledProcessError stderr => decide (errorCode <:+: stderr)
  | _ => false

variable (maxCliRetries : ℕ) (retryRpcErrors : Bool)

/-- The loop of `run_cli`, with this many attempts left. -/
def runCliLoop (cli : ℕ → Invocation) : ℕ → ℕ → ℕ → Report (List Char)
  | 0, attempt, backoffs => ⟨attempt, backoffs, .rpcCliError⟩
  | left + 1, attempt, backoffs =>
      match cli attempt with
      | .completed stdout => ⟨attempt + 1, backoffs, .value (strip stdout)⟩
      | failure =>
          -- an error of the node is final, unless the caller wants it retried
          if !retryRpcErrors && isRpcError failure then ⟨attempt + 1, backoffs, .rpcError⟩
          else
            runCliLoop cli left (attempt + 1)
              -- no wait behind the last attempt
              (if attempt < maxCliRetries then backoffs + 1 else backoffs)

/-- `run_cli`. -/
def runCli (cli : ℕ → Invocation) : Report (List Char) :=
  runCliLoop maxCliRetries retryRpcErrors cli (maxCliRetries + 1) 0 0

/-! ### HTTP -/

variable {V : Type}

/-- What `json.loads` makes of a body: an error, something else than an object with a `result`, or
the `result` of an object, and whether its `error` is there. -/
inductive Body (V : Type) where
  | notJson
  | unexpected
  | reply (error : Bool) (result : V)

/-- A response. -/
structure Response (V : Type) where
  status : ℕ
  body : Body V
  willClose : Bool

/-- What a round trip meets: whether the cookie file can be read, and the response, or `none` for an
`OSError` or an `HTTPException`. -/
structure Exchange (V : Type) where
  cookieReadable : Bool
  answer : Option (Response V)

/-- What `_roundtrip` comes to. -/
inductive Sent (V : Type) where
  | cookieError
  | raised
  | answered (r : Response V)

/-- `_roundtrip`: the cookie is read if there is no connection. -/
def roundtrip (connected : Bool) (x : Exchange V) : Sent V :=
  if !connected && !x.cookieReadable then .cookieError
  else
    match x.answer with
    | none => .raised
    | some r => .answered r

/-- What `call` returns or raises: the result, an `_HttpRpcCallError`, or an `_HttpRpcError`. -/
inductive Outcome (V : Type) where
  | success (v : V)
  | rpcError
  | transportFailure
  deriving DecidableEq

/-- The end of `call`, and whether there is a connection afterwards. -/
def readReply (r : Response V) : Outcome V × Bool :=
  -- the cookie is stale: it is read again for the next attempt
  if r.status = 401 then (.transportFailure, false)
  else
    match r.body with
    | .notJson => (.transportFailure, false)
    | .unexpected => (.transportFailure, false)
    -- the connection is kept, the answer was read to its end
    | .reply true _ => (.rpcError, true)
    | .reply false v => (.success v, !r.willClose)

/-- The round trips of one attempt; the second is for a connection that turns out to be dropped. -/
structure Attempt (V : Type) where
  first : Exchange V
  second : Exchange V

/-- `call`. -/
def call (connected : Bool) (a : Attempt V) : Outcome V × Bool :=
  match roundtrip connected a.first with
  | .cookieError => (.transportFailure, false)
  | .answered r => readReply r
  | .raised =>
      -- a kept connection may have been dropped by the node: once more, with a new one
      if !connected then (.transportFailure, false)
      else
        match roundtrip false a.second with
        | .cookieError => (.transportFailure, false)
        | .raised => (.transportFailure, false)
        | .answered r => readReply r

/-- The loop of `_http_call`, with this many attempts left. -/
def httpCallLoop (http : ℕ → Attempt V) : ℕ → ℕ → ℕ → Bool → Report V
  | 0, attempt, backoffs, _ => ⟨attempt, backoffs, .rpcCliError⟩
  | left + 1, attempt, backoffs, connected =>
      match call connected (http attempt) with
      | (.success v, _) => ⟨attempt + 1, backoffs, .value v⟩
      | (.rpcError, connected') =>
          if !retryRpcErrors then ⟨attempt + 1, backoffs, .rpcError⟩
          else
            httpCallLoop http left (attempt + 1)
              (if attempt < maxCliRetries then backoffs + 1 else backoffs) connected'
      | (.transportFailure, connected') =>
          httpCallLoop http left (attempt + 1)
            (if attempt < maxCliRetries then backoffs + 1 else backoffs) connected'

/-- `_http_call`, on a connection that is there or not. -/
def httpCall (connected : Bool) (http : ℕ → Attempt V) : Report V :=
  httpCallLoop maxCliRetries retryRpcErrors http (maxCliRetries + 1) 0 0 connected

end BtcParser.Transport
