import FastdlMm.Files.PathResolver
import FastdlMm.Limits.RateLimiter
import FastdlMm.Server.Delivery
import FastdlMm.Server.TransferMetrics
import Mathlib.Data.List.Infix

namespace FastdlMm.FastdlServer

/-- The settings that `dispatch` reads. -/
structure DispatchConfig extends FastdlConfig where
  steamOnly : Bool
  requestsPerMinute : Nat
  denialsPerMinute : Nat
  blockSeconds : Nat

structure RequestState where
  handled : Bool := false
  invalidTarget : Bool := false
  fileResponse : Bool := false
  activeTransfer : Bool := false
  status : Nat := 0
  responseSize : Nat := 0
  bytesSupplied : Nat := 0
  ip : Ip := []
  method : Text := []
  url : Text := []
  userAgent : Text := []
  reason : Text := []

/-- What libmicrohttpd passes to `handleRequest`. -/
structure Incoming where
  ip : Ip
  method : Option Text
  url : Option Text
  userAgent : Option Text
  uploadDataSize : Nat := 0

/-- The state that the first call of `handleRequest` makes. -/
def Incoming.fresh (i : Incoming) : RequestState where
  ip := i.ip
  method := (boundedCopy i.method 16).getD (text "<overlong>")
  invalidTarget := (boundedCopy i.url 2048).isNone
  url := (boundedCopy i.url 2048).getD (text "<overlong>")
  userAgent := (boundedCopy i.userAgent 200).getD []

def steamClient (userAgent : Text) : Bool :=
  (text "Valve/Steam HTTP Client").isPrefixOf userAgent || (text "Steam/").isPrefixOf userAgent ||
    decide (text "Steam" <:+: userAgent ∧ text "HTTP" <:+: userAgent ∧ text "Client" <:+: userAgent)

/-- What libmicrohttpd makes of a response that it is given. -/
inductive MhdAnswer where
  | queued
  | notQueued
  | notCreated
  deriving DecidableEq

/-- What the calls in `dispatch` meet: the clock of the limiter, what the path resolves to, the
headers, what `serveFile` finds, and the answer of libmicrohttpd. -/
structure Surroundings where
  blockedAt : Int
  exceededAt : Int
  deniedAt : Int
  resolved : ResolveStatus
  headers : Headers
  encounter : Encounter
  answer : MhdAnswer

namespace RequestState

def note (state : RequestState) (r : Response) : RequestState :=
  { state with
    fileResponse := r.fileResponse
    status := r.status
    responseSize := r.responseSize
    reason := r.reason }

/-- `respondText` notes its response before it makes it. -/
def respondText (state : RequestState) (status : Nat) (body reason : Text) (answer : MhdAnswer) :
    RequestState × Option Response :=
  ({ state with
      fileResponse := false
      status := status
      responseSize := body.length
      reason := reason },
    if answer = .queued then FastdlServer.respondText status body reason else none)

/-- A text is noted before it is made, a 304 before it is queued, a file once it is queued. -/
def serveFile (lib : CLibrary) (config : FastdlConfig) (state : RequestState) (headers : Headers)
    (e : Encounter) (answer : MhdAnswer) : RequestState × Option Response :=
  let method := if state.method = text "GET" then .get else .head
  match FastdlServer.serveFile lib config method headers e with
  | none => (state, none)
  | some r =>
      if answer = .queued then ({ state.note r with activeTransfer := r.activeTransfer }, some r)
      else if r.status = 200 ∨ r.status = 206 ∨ (r.status = 304 ∧ answer = .notCreated) then
        (state, none)
      else (state.note r, none)

end RequestState

/-- `dispatch` returns, or has called `failure` and is about to answer with an internal error. -/
inductive Dispatched where
  | answered (state : RequestState) (response : Option Response)
  | failing (state : RequestState) (reason : Text)

def Dispatched.ofText (r : RequestState × Option Response) : Dispatched := .answered r.1 r.2

def deny (config : DispatchConfig) (limiter : RateLimiter.State) (state : RequestState)
    (reason : Text) (strike : Bool) (s : Surroundings) : RateLimiter.State × Dispatched :=
  (if strike then
      (RateLimiter.recordDenial limiter state.ip config.denialsPerMinute config.blockSeconds
        s.deniedAt).1
    else limiter,
    .ofText (state.respondText 403 (text "403 Forbidden\n") reason s.answer))

/-- `dispatch` after `requestStarted`. -/
def dispatch (lib : CLibrary) (config : DispatchConfig) (limiter : RateLimiter.State)
    (state : RequestState) (s : Surroundings) : RateLimiter.State × Dispatched :=
  if state.method ≠ text "GET" ∧ state.method ≠ text "HEAD" then
    deny config limiter state (text "invalid method") true s
  else
    let blocked := RateLimiter.blocked limiter state.ip s.blockedAt
    if blocked.2 then deny config blocked.1 state (text "blocked") false s
    else if config.steamOnly && !steamClient state.userAgent then
      deny config blocked.1 state (text "non-steam client denied") true s
    else
      let exceeded :=
        RateLimiter.requestExceeded blocked.1 state.ip config.requestsPerMinute s.exceededAt
      if exceeded.2 then deny config exceeded.1 state (text "rate limit") false s
      else if state.invalidTarget then deny config exceeded.1 state (text "invalid path") true s
      else
        match s.resolved with
        | .ok =>
            match state.serveFile lib config.toFastdlConfig s.headers s.encounter s.answer with
            | (state, some r) => (exceeded.1, .answered state (some r))
            | (state, none) => (exceeded.1, .failing state (text "open or response failure"))
        | .notFound | .notAFile =>
            (exceeded.1,
              .ofText (state.respondText 404 (text "404 Not Found\n") (text "not found") s.answer))
        | .tooLarge =>
            (exceeded.1, .ofText (state.respondText 403 (text "403 Forbidden\n")
              (text "file too large") s.answer))
        | .ioError => (exceeded.1, .failing state (text "file error"))
        | .outsideRoot => deny config exceeded.1 state (text "outside root") true s
        | .directoryDenied => deny config exceeded.1 state (text "directory not served") true s
        | .extensionDenied => deny config exceeded.1 state (text "invalid extension") true s
        | .invalidPath => deny config exceeded.1 state (text "invalid path") true s

/-- `MHD_RequestTerminationCode`. -/
inductive TerminationCode where
  | completedOk
  | withError
  | timeoutReached
  | daemonShutdown
  | readError
  | clientAbort
  deriving DecidableEq

/-- The outcome that `requestCompleted` counts. -/
def RequestState.outcome (state : RequestState) (code : TerminationCode) : TransferOutcome :=
  if code = .completedOk ∧ state.bytesSupplied = state.responseSize then .completed
  else if code = .clientAbort then .aborted
  else if code = .timeoutReached then .timedOut
  else .failed

/-- Where the handler of a request stands. -/
inductive Point where
  | idle
  | dispatching
  | failing (reason : Text)

/-- A request between its first call of `handleRequest` and `requestCompleted`. History is the
response that was queued for it. -/
structure Request where
  state : RequestState
  point : Point := .idle
  queued : Option Response := none

/-- A transfer that `requestCompleted` has counted. -/
structure Ended where
  response : Option Response
  code : TerminationCode
  bytesSupplied : Nat
  outcome : TransferOutcome

/-- The server, with its requests by an id of their connection. History is what happened since the
last `reset`: the calls of `transferStarted`, those of `failure` in `dispatch`, and the ends. -/
structure Server where
  limiter : RateLimiter.State := {}
  metrics : TransferMetrics := {}
  requests : Table Nat Request := ∅
  started : Nat := 0
  dispatchFailures : Nat := 0
  ended : List Ended := []

/-- The calls into the server, by whichever thread of libmicrohttpd. Each step of a handler calls
the metrics at most once. -/
inductive ServerStep where
  /-- `start`, which has waited for the requests of an earlier run to complete. -/
  | reset (now : Int)
  /-- Somebody else uses the limiter. -/
  | limiter (limiter : RateLimiter.State)
  | handleRequest (id : Nat) (incoming : Incoming)
  | dispatch (id : Nat) (surroundings : Surroundings)
  | respondFailure (id : Nat) (answer : MhdAnswer)
  /-- An exception ends the handler, with what it had noted of a response by then. -/
  | throws (id : Nat) (noted : Option Response)
  | fileReader (id pos max : Nat) (acquire : Nat → Nat) (pread : Nat → Option Nat) (second : Int)
  | requestCompleted (id : Nat) (code : TerminationCode)

namespace Server

def put (s : Server) (id : Nat) (r : Request) : Server :=
  { s with requests := s.requests.insert id r }

/-- libmicrohttpd calls the handler of a request again and again, and one call after the other. -/
def handleRequest (s : Server) (id : Nat) (incoming : Incoming) : Option Server :=
  match s.requests.lookup id with
  | none => some (s.put id { state := incoming.fresh })
  | some r =>
      match r.point with
      | .idle =>
          if incoming.uploadDataSize ≠ 0 then some s
          else if r.state.handled then some s
          else
            some { s.put id { r with
                state := { r.state with handled := true }
                point := .dispatching } with
              metrics := s.metrics.requestStarted }
      | _ => none

def dispatchStep (lib : CLibrary) (config : DispatchConfig) (s : Server) (id : Nat) (r : Request)
    (surroundings : Surroundings) : Server :=
  match dispatch lib config s.limiter r.state surroundings with
  | (limiter, .answered state response) =>
      let s := { s.put id { state := state, queued := response } with limiter := limiter }
      if response.any (fun queued => queued.activeTransfer) then
        { s with metrics := s.metrics.transferStarted, started := s.started + 1 }
      else s
  | (limiter, .failing state reason) =>
      { s.put id { r with state := state, point := .failing reason } with
        limiter := limiter
        metrics := s.metrics.failure
        dispatchFailures := s.dispatchFailures + 1 }

/-- The reader of a queued response. -/
def fileReader (s : Server) (id : Nat) (r : Request) (response : Response) (pos max : Nat)
    (acquire : Nat → Nat) (pread : Nat → Option Nat) (second : Int) : Option Server :=
  match response.body with
  | .fixed _ => none
  | .file descriptor sourceOffset length =>
      match FastdlServer.fileReader ⟨some descriptor, sourceOffset, length⟩ r.state.bytesSupplied
          pos max acquire pread with
      | (.supplied block, bytesSupplied) =>
          some { s.put id { r with state := { r.state with bytesSupplied := bytesSupplied } } with
            metrics := s.metrics.bytesSupplied block.length second }
      | _ => some s

def requestCompleted (s : Server) (id : Nat) (r : Request) (code : TerminationCode) : Server :=
  let s' := { s with requests := s.requests.erase id }
  if r.state.activeTransfer then
    let outcome := r.state.outcome code
    { s' with
      metrics := s.metrics.transferFinished outcome
      ended := ⟨r.queued, code, r.state.bytesSupplied, outcome⟩ :: s.ended }
  else s'

/-- One step; `none` where it cannot happen. -/
def step (lib : CLibrary) (config : DispatchConfig) (s : Server) : ServerStep → Option Server
  | .reset now =>
      if s.requests.entries = [] then
        some { limiter := s.limiter, metrics := TransferMetrics.reset now }
      else none
  | .limiter limiter => some { s with limiter := limiter }
  | .handleRequest id incoming => s.handleRequest id incoming
  | .dispatch id surroundings =>
      match s.requests.lookup id with
      | some ⟨state, .dispatching, queued⟩ =>
          some (s.dispatchStep lib config id ⟨state, .dispatching, queued⟩ surroundings)
      | _ => none
  | .respondFailure id answer =>
      match s.requests.lookup id with
      | some ⟨state, .failing reason, _⟩ =>
          let answered :=
            state.respondText 500 (text "500 Internal Server Error\n") reason answer
          some (s.put id { state := answered.1, queued := answered.2 })
      | _ => none
  | .throws id noted =>
      match s.requests.lookup id with
      | some ⟨_, .idle, _⟩ => none
      | some ⟨state, _, queued⟩ =>
          some (s.put id
            { state := noted.elim state (fun response => state.note response), queued := queued })
      | none => none
  | .fileReader id pos max acquire pread second =>
      match s.requests.lookup id with
      | some ⟨state, .idle, some response⟩ =>
          s.fileReader id ⟨state, .idle, some response⟩ response pos max acquire pread second
      | _ => none
  | .requestCompleted id code =>
      match s.requests.lookup id with
      | some ⟨state, .idle, queued⟩ => some (s.requestCompleted id ⟨state, .idle, queued⟩ code)
      | _ => none

end Server
end FastdlMm.FastdlServer
