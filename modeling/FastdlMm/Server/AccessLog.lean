import FastdlMm.Config.ConfigFile
import FastdlMm.Logging.LoggerAccounting
import FastdlMm.Server.RequestLog
import FastdlMm.Server.TransferAccounting

namespace FastdlMm.FastdlServer

/-- The server with its logger, from a `start` to the end of `stop`. The daemon is up until
`MHD_stop_daemon` returns. History: the lines given to the logger, and how many were lost to an
exception on the way there. -/
structure LoggedServer where
  server : Server := {}
  logger : AsyncLogger.Logger := {}
  daemonUp : Bool := true
  lines : List Text := []
  swallowed : Nat := 0

inductive LoggedStep where
  /-- A step of the server other than its start and `requestCompleted`. -/
  | server (x : ServerStep)
  /-- `logCompleted` runs at a local time, unless an exception ends it. -/
  | requestCompleted (id : Nat) (code : TerminationCode) (day : AsyncLogger.Tm) (throws : Bool)
  /-- `MHD_stop_daemon` returns once every request has completed. -/
  | daemonStopped
  /-- A step of the logger other than `write`; the server stops it after the daemon. -/
  | logger (x : AsyncLogger.Step)

namespace LoggedServer

/-- `requestCompleted` logs what was handled. -/
def complete (s : LoggedServer) (server : Server) (r : Request) (code : TerminationCode)
    (day : AsyncLogger.Tm) (throws : Bool) : LoggedServer :=
  if !r.state.handled then { s with server := server }
  else if throws then { s with server := server, swallowed := s.swallowed + 1 }
  else
    let line := logCompleted day r.state code
    { s with server := server, logger := s.logger.write line, lines := s.lines ++ [line] }

/-- One step; `none` where it cannot happen. -/
def step (lib : CLibrary) (config : DispatchConfig) (s : LoggedServer) : LoggedStep → Option LoggedServer
  | .server (.reset _) | .server (.requestCompleted _ _) | .logger (.write _) => none
  | .server x =>
      if s.daemonUp then
        (s.server.step lib config x).map (fun server => { s with server := server })
      else none
  | .requestCompleted id code day throws =>
      match s.server.requests.lookup id with
      | none => none
      | some r =>
          (s.server.step lib config (.requestCompleted id code)).map
            (fun server => s.complete server r code day throws)
  | .daemonStopped => if s.server.requests.entries = [] then some { s with daemonUp := false } else none
  | .logger .stop =>
      if s.daemonUp then none
      else (s.logger.step .stop).map (fun logger => { s with logger := logger })
  | .logger x => (s.logger.step x).map (fun logger => { s with logger := logger })

end LoggedServer

/-- A response was noted with what an exception leaves noted, and an opened log file takes what it
is given. -/
def LoggedStep.Proper : LoggedStep → Prop
  | .server (.throws _ (some noted)) => noted.reason ∈ reasons
  | .logger x => x.Succeeds
  | _ => True

/-- The states that a start leads to. -/
inductive LoggedServer.Reaches (lib : CLibrary) (config : DispatchConfig) : LoggedServer → Prop
  | start (limiter : RateLimiter.State) (now : Int) : Reaches lib config
      { server := { limiter := limiter, metrics := TransferMetrics.reset now } }
  | step {s s' : LoggedServer} (x : LoggedStep) : Reaches lib config s → x.Proper →
      s.step lib config x = some s' → Reaches lib config s'

/-- `dispatch` leaves `handled` as it is and notes one of its reasons. -/
def Dispatched.Noted (handled : Bool) : Dispatched → Prop
  | .answered state _ => state.handled = handled ∧ state.reason ∈ reasons
  | .failing state reason => state.handled = handled ∧ state.reason ∈ reasons ∧ reason ∈ reasons

theorem serveRange_reason {lib : CLibrary} {config : FastdlConfig} {method : Method}
    {headers : Headers} {e : Encounter} {opened : OpenFile} {range : ByteRange} {r : Response}
    (h : serveRange lib config method headers e opened range = some r) : r.reason ∈ reasons := by
  unfold serveRange at h
  simp only at h
  split_ifs at h <;> rw [queue_eq_some h] <;> simp [reasons]

theorem serveFile_reason {lib : CLibrary} {config : FastdlConfig} {method : Method}
    {headers : Headers} {e : Encounter} {r : Response}
    (h : FastdlServer.serveFile lib config method headers e = some r) : r.reason ∈ reasons := by
  unfold FastdlServer.serveFile at h
  split at h
  · cases h
  · simp only at h
    split_ifs at h
    · rw [queue_eq_some h]
      simp [reasons]
    · rw [queue_eq_some h]
      simp [reasons]
    · exact serveRange_reason h
    · exact serveRange_reason h

theorem RequestState.serveFile_noted (lib : CLibrary) (config : FastdlConfig) {state : RequestState}
    (h : state.reason ∈ reasons) (headers : Headers) (e : Encounter) (answer : MhdAnswer) :
    (state.serveFile lib config headers e answer).1.handled = state.handled ∧
      (state.serveFile lib config headers e answer).1.reason ∈ reasons := by
  unfold RequestState.serveFile
  simp only
  split
  · exact ⟨rfl, h⟩
  · rename_i r hr
    have hreason := serveFile_reason hr
    split_ifs
    · exact ⟨rfl, hreason⟩
    · exact ⟨rfl, h⟩
    · exact ⟨rfl, hreason⟩

theorem dispatch_noted (lib : CLibrary) (config : DispatchConfig) (limiter : RateLimiter.State)
    {state : RequestState} (h : state.reason ∈ reasons) (s : Surroundings) :
    (dispatch lib config limiter state s).2.Noted state.handled := by
  have htext (limiter : RateLimiter.State) (status : Nat) (body : Text) {reason : Text}
      (hreason : reason ∈ reasons) :
      Dispatched.Noted state.handled
        (limiter, Dispatched.ofText (state.respondText status body reason s.answer)).2 :=
    ⟨rfl, hreason⟩
  have hdeny (limiter : RateLimiter.State) {reason : Text} (hreason : reason ∈ reasons)
      (strike : Bool) : (deny config limiter state reason strike s).2.Noted state.handled :=
    ⟨rfl, hreason⟩
  have hserve := state.serveFile_noted lib config.toFastdlConfig h s.headers s.encounter s.answer
  unfold dispatch
  simp only
  split_ifs
  · exact hdeny _ (by simp [reasons]) _
  · exact hdeny _ (by simp [reasons]) _
  · exact hdeny _ (by simp [reasons]) _
  · exact hdeny _ (by simp [reasons]) _
  · exact hdeny _ (by simp [reasons]) _
  · split
    · split
      · rename_i state' r heq
        rw [heq] at hserve
        exact hserve
      · rename_i state' heq
        rw [heq] at hserve
        exact ⟨hserve.1, hserve.2, by simp [reasons]⟩
    · exact htext _ _ _ (by simp [reasons])
    · exact htext _ _ _ (by simp [reasons])
    · exact htext _ _ _ (by simp [reasons])
    · exact ⟨rfl, h, by simp [reasons]⟩
    · exact hdeny _ (by simp [reasons]) _
    · exact hdeny _ (by simp [reasons]) _
    · exact hdeny _ (by simp [reasons]) _
    · exact hdeny _ (by simp [reasons]) _

structure Request.Noted (r : Request) : Prop where
  reason : r.state.reason ∈ reasons
  failing : ∀ reason, r.point = .failing reason → reason ∈ reasons

theorem Request.noted {state : RequestState} {point : Point} {queued : Option Response}
    (h : state.reason ∈ reasons) (hpoint : point = .idle ∨ point = .dispatching) :
    Noted ⟨state, point, queued⟩ := by
  refine ⟨h, fun reason hfailing => ?_⟩
  obtain rfl | rfl := hpoint
  · cases hfailing
  · cases hfailing

namespace Server

/-- The requests that have been dispatched and not completed. -/
def inHand (requests : Table Nat Request) : Nat :=
  Table.total (fun _ r => r.state.handled.toNat) requests

theorem inHand_insert {requests : Table Nat Request} {id : Nat} {r : Request}
    (h : requests.lookup id = some r) (r' : Request) :
    inHand (requests.insert id r') + r.state.handled.toNat =
      inHand requests + r'.state.handled.toNat :=
  Table.total_insert_some _ r' h

/-- `n` of the requests counted have completed. -/
structure Books (s : Server) (n : Nat) : Prop where
  counted : s.metrics.requests = min (n + inHand s.requests) uint64Max
  noted : ∀ id r, s.requests.lookup id = some r → r.Noted

theorem noted_insert {s : Server} {n : Nat} (h : s.Books n) {id : Nat} {r : Request} (hr : r.Noted) :
    ∀ id' r', (s.requests.insert id r).lookup id' = some r' → r'.Noted := by
  intro id' r' hlookup
  obtain ⟨-, rfl⟩ | ⟨-, hold⟩ := Table.lookup_insert_eq_some hlookup
  · exact hr
  · exact h.noted id' r' hold

/-- What changes a request without handling it, and counts none. -/
theorem Books.put {s s' : Server} {n : Nat} (h : s.Books n) {id : Nat} {r r' : Request}
    (hlookup : s.requests.lookup id = some r) (hr : r'.Noted)
    (hsame : r'.state.handled = r.state.handled) (hrequests : s'.requests = s.requests.insert id r')
    (hcount : s'.metrics.requests = s.metrics.requests) : s'.Books n where
  counted := by
    have hinsert := inHand_insert hlookup r'
    have hcounted := h.counted
    rw [hsame] at hinsert
    rw [hcount, hrequests]
    omega
  noted := hrequests ▸ noted_insert h hr

theorem requests_bytesSupplied (m : TransferMetrics) (bytes : Nat) (second : Int) :
    (m.bytesSupplied bytes second).requests = m.requests := by
  unfold TransferMetrics.bytesSupplied
  split_ifs <;> rfl

/-- For any values of the counters, which `rfl` would compute. -/
theorem requests_counters (m : TransferMetrics) (active completed aborted timedOut failed : Nat) :
    { m with active := active, completed := completed, aborted := aborted, timedOut := timedOut,
             failed := failed }.requests = m.requests := rfl

theorem requests_transferFinished (m : TransferMetrics) (outcome : TransferOutcome) :
    (m.transferFinished outcome).requests = m.requests := by
  cases outcome with
  | completed => exact requests_counters m _ (saturatingAdd m.completed 1) _ _ _
  | aborted => exact requests_counters m _ _ (saturatingAdd m.aborted 1) _ _
  | timedOut => exact requests_counters m _ _ _ (saturatingAdd m.timedOut 1) _
  | failed => exact requests_counters m _ _ _ _ (saturatingAdd m.failed 1)

theorem Books.handleRequest {s s' : Server} {n : Nat} (h : s.Books n) {id : Nat}
    {incoming : Incoming} (hstep : s.handleRequest id incoming = some s') : s'.Books n := by
  have hcounted := h.counted
  unfold Server.handleRequest at hstep
  split at hstep
  · rename_i hnone
    cases hstep
    have hinsert : inHand (s.requests.insert id { state := incoming.fresh }) =
        inHand s.requests + 0 :=
      Table.total_insert_none _ _ hnone
    have hr : Request.Noted { state := incoming.fresh } := by
      refine Request.noted ?_ (.inl rfl)
      show [] ∈ reasons
      simp [reasons]
    refine ⟨?_, noted_insert h hr⟩
    show s.metrics.requests =
      min (n + inHand (s.requests.insert id { state := incoming.fresh })) uint64Max
    rw [hcounted, hinsert, Nat.add_zero]
  · rename_i r hlookup
    split at hstep
    · split_ifs at hstep with hupload hhandled
      · cases hstep
        exact h
      · cases hstep
        exact h
      · cases hstep
        have hfalse : r.state.handled = false := Bool.eq_false_of_not_eq_true hhandled
        have hinsert : inHand (s.requests.insert id
              { r with state := { r.state with handled := true }, point := .dispatching }) +
            r.state.handled.toNat = inHand s.requests + 1 :=
          inHand_insert hlookup _
        rw [hfalse, Bool.toNat_false, Nat.add_zero] at hinsert
        have hr : Request.Noted
            { r with state := { r.state with handled := true }, point := .dispatching } :=
          Request.noted (h.noted id r hlookup).reason (.inr rfl)
        refine ⟨?_, noted_insert h hr⟩
        show saturatingAdd s.metrics.requests 1 = min (n + inHand (s.requests.insert id
          { r with state := { r.state with handled := true }, point := .dispatching })) uint64Max
        rw [hcounted, saturatingAdd_eq (Nat.min_le_right _ _), hinsert]
        omega
    · cases hstep

theorem Books.dispatchStep {s : Server} {n : Nat} (h : s.Books n) (lib : CLibrary)
    (config : DispatchConfig) {id : Nat} {r : Request} (hlookup : s.requests.lookup id = some r)
    (surroundings : Surroundings) : (s.dispatchStep lib config id r surroundings).Books n := by
  have hnoted := dispatch_noted lib config s.limiter (h.noted id r hlookup).reason surroundings
  unfold Server.dispatchStep
  split
  · rename_i limiter state response hdispatch
    rw [hdispatch] at hnoted
    have hr : Request.Noted ⟨state, .idle, response⟩ := Request.noted hnoted.2 (.inl rfl)
    dsimp only
    split_ifs
    · exact h.put hlookup hr hnoted.1 rfl rfl
    · exact h.put hlookup hr hnoted.1 rfl rfl
  · rename_i limiter state reason hdispatch
    rw [hdispatch] at hnoted
    have hr : Request.Noted ⟨state, .failing reason, r.queued⟩ := by
      refine ⟨hnoted.2.1, ?_⟩
      intro reason' hpoint
      cases hpoint
      exact hnoted.2.2
    exact h.put hlookup hr hnoted.1 rfl rfl

/-- A step within a run of the server completes no request. -/
theorem Books.step {s s' : Server} {n : Nat} (h : s.Books n) {lib : CLibrary}
    {config : DispatchConfig} {x : ServerStep} (hproper : (LoggedStep.server x).Proper)
    (hreset : ∀ now, x ≠ .reset now) (hcompleted : ∀ id code, x ≠ .requestCompleted id code)
    (hstep : s.step lib config x = some s') : s'.Books n := by
  cases x with
  | reset now => exact absurd rfl (hreset now)
  | requestCompleted id code => exact absurd rfl (hcompleted id code)
  | limiter limiter =>
    cases hstep
    exact ⟨h.counted, h.noted⟩
  | handleRequest id incoming => exact h.handleRequest hstep
  | dispatch id surroundings =>
    simp only [Server.step] at hstep
    split at hstep
    · rename_i state queued hlookup
      cases hstep
      exact h.dispatchStep lib config hlookup surroundings
    · cases hstep
  | respondFailure id answer =>
    simp only [Server.step] at hstep
    split at hstep
    · rename_i state reason queued hlookup
      cases hstep
      let answered := state.respondText 500 (text "500 Internal Server Error\n") reason answer
      have hr : Request.Noted { state := answered.1, queued := answered.2 } :=
        Request.noted ((h.noted id _ hlookup).failing reason rfl) (.inl rfl)
      exact h.put hlookup hr rfl rfl rfl
    · cases hstep
  | throws id noted =>
    simp only [Server.step] at hstep
    split at hstep
    · cases hstep
    · rename_i state point queued _ hlookup
      cases hstep
      cases noted with
      | none =>
        have hr : Request.Noted ⟨state, .idle, queued⟩ :=
          Request.noted (h.noted id _ hlookup).reason (.inl rfl)
        exact h.put hlookup hr rfl rfl rfl
      | some response =>
        have hr : Request.Noted ⟨state.note response, .idle, queued⟩ :=
          Request.noted hproper (.inl rfl)
        exact h.put hlookup hr rfl rfl rfl
    · cases hstep
  | fileReader id pos max acquire pread second =>
    simp only [Server.step] at hstep
    split at hstep
    · rename_i state response hlookup
      unfold Server.fileReader at hstep
      split at hstep
      · cases hstep
      · split at hstep
        · rename_i block bytesSupplied _
          cases hstep
          have hr : Request.Noted
              ⟨{ state with bytesSupplied := bytesSupplied }, .idle, some response⟩ :=
            Request.noted (h.noted id _ hlookup).reason (.inl rfl)
          exact h.put hlookup hr rfl rfl (requests_bytesSupplied _ _ _)
        · cases hstep
          exact h
    · cases hstep

/-- A completion takes its request off the hands of the server. -/
theorem Books.requestCompleted {s s' : Server} {n : Nat} (h : s.Books n) {lib : CLibrary}
    {config : DispatchConfig} {id : Nat} {code : TerminationCode} {r : Request}
    (hlookup : s.requests.lookup id = some r)
    (hstep : s.step lib config (.requestCompleted id code) = some s') :
    s'.Books (n + r.state.handled.toNat) := by
  have hcounted := h.counted
  simp only [Server.step] at hstep
  split at hstep
  · rename_i state queued hfound
    rw [hlookup] at hfound
    cases hfound
    cases hstep
    have herase : inHand (s.requests.erase id) + state.handled.toNat = inHand s.requests :=
      Table.total_erase (fun _ r => r.state.handled.toNat) hlookup
    have hnoted : ∀ id' r', (s.requests.erase id).lookup id' = some r' → r'.Noted := by
      intro id' r' hfound
      by_cases hid : id' = id
      · subst hid
        rw [AList.lookup_erase] at hfound
        cases hfound
      · rw [AList.lookup_erase_ne hid] at hfound
        exact h.noted id' r' hfound
    have htotal : s.metrics.requests =
        min (n + state.handled.toNat + inHand (s.requests.erase id)) uint64Max := by
      omega
    unfold Server.requestCompleted
    dsimp only
    split_ifs
    · exact ⟨(requests_transferFinished _ _).trans htotal, hnoted⟩
    · exact ⟨htotal, hnoted⟩
  · cases hstep

end Server

/-- The line of a request that was handled. -/
def IsRequestLine (line : Text) : Prop :=
  ∃ day state code, state.handled = true ∧ state.reason ∈ reasons ∧
    line = logCompleted day state code

namespace LoggedServer

/-- What each step keeps: the counter against the log, and what the log is made of. -/
structure Kept (s : LoggedServer) : Prop where
  books : s.server.Books (s.lines.length + s.swallowed)
  logger : s.logger.Accounted
  calls : s.logger.calls = s.lines.length
  accepted : s.logger.accepted.Sublist s.lines
  stopped : s.logger.stopping = true → s.daemonUp = false
  idle : s.daemonUp = false → s.server.requests.entries = []
  shown : ∀ line ∈ s.lines, IsRequestLine line

/-- A running logger counts each call of `write`. -/
theorem calls_write {l : AsyncLogger.Logger} (h : l.stopping = false) (line : Text) :
    (l.write line).calls = l.calls + 1 ∧ (l.write line).stopping = false ∧
      ((l.write line).accepted = l.accepted ∨ (l.write line).accepted = l.accepted ++ [line]) := by
  unfold AsyncLogger.Logger.write
  rw [if_neg (by simp [h])]
  split_ifs
  · exact ⟨rfl, h, .inl rfl⟩
  · exact ⟨rfl, h, .inr rfl⟩

/-- A step of the logger that is no call of `write` takes no line. -/
theorem logger_quiet {l l' : AsyncLogger.Logger} {x : AsyncLogger.Step}
    (hx : ∀ line, x ≠ .write line) (hstep : l.step x = some l') :
    l'.calls = l.calls ∧ l'.accepted = l.accepted ∧
      (x ≠ .stop → l'.stopping = l.stopping) := by
  have hemit (entry : AsyncLogger.Entry) (ok : Bool) : (l.emit entry ok).calls = l.calls ∧
      (l.emit entry ok).accepted = l.accepted ∧ (l.emit entry ok).stopping = l.stopping := by
    unfold AsyncLogger.Logger.emit
    split
    · split_ifs <;> exact ⟨rfl, rfl, rfl⟩
    · exact ⟨rfl, rfl, rfl⟩
  cases x with
  | write line => exact absurd rfl (hx line)
  | stop =>
    cases hstep
    exact ⟨rfl, rfl, fun h => absurd rfl h⟩
  | take =>
    obtain ⟨-, ⟨-, -, rfl⟩ | ⟨-, rfl⟩⟩ := AsyncLogger.Logger.step_take hstep
    · exact ⟨rfl, rfl, fun _ => rfl⟩
    · exact ⟨rfl, rfl, fun _ => rfl⟩
  | look today access =>
    have hopened : (l.reopen today access).calls = l.calls ∧
        (l.reopen today access).accepted = l.accepted ∧
        (l.reopen today access).stopping = l.stopping := by
      unfold AsyncLogger.Logger.reopen
      split_ifs <;> exact ⟨rfl, rfl, rfl⟩
    obtain ⟨_, _, -, ⟨-, rfl⟩ | ⟨-, rfl⟩⟩ := AsyncLogger.Logger.step_look hstep
    · exact ⟨hopened.1, hopened.2.1, fun _ => hopened.2.2⟩
    · exact ⟨hopened.1, hopened.2.1, fun _ => hopened.2.2⟩
  | carry =>
    obtain ⟨_, _, -, rfl⟩ := AsyncLogger.Logger.step_carry hstep
    exact ⟨rfl, rfl, fun _ => rfl⟩
  | report ok =>
    obtain ⟨_, dropped, _, -, -, -, rfl⟩ := AsyncLogger.Logger.step_report hstep
    obtain ⟨hcalls, haccepted, hstop⟩ := hemit (.report dropped) ok
    exact ⟨hcalls, haccepted, fun _ => hstop⟩
  | put ok =>
    obtain ⟨_, line, _, -, -, rfl⟩ := AsyncLogger.Logger.step_put hstep
    obtain ⟨hcalls, haccepted, hstop⟩ := hemit (.line line) ok
    exact ⟨hcalls, haccepted, fun _ => hstop⟩
  | flush ok =>
    obtain ⟨_, -, -, rfl⟩ := AsyncLogger.Logger.step_flush hstep
    exact ⟨rfl, rfl, fun _ => rfl⟩

theorem Kept.server {s : LoggedServer} (h : s.Kept) {server : Server}
    (hbooks : server.Books (s.lines.length + s.swallowed)) (hup : s.daemonUp = true) :
    Kept { s with server := server } where
  books := hbooks
  logger := h.logger
  calls := h.calls
  accepted := h.accepted
  stopped := h.stopped
  idle := fun hdown => by simp [hup] at hdown
  shown := h.shown

/-- A completion is logged while the logger runs: the daemon has not been stopped. -/
theorem Kept.complete {s : LoggedServer} (h : s.Kept) (hup : s.daemonUp = true) {server : Server}
    {r : Request} (hnoted : r.Noted)
    (hbooks : server.Books (s.lines.length + s.swallowed + r.state.handled.toNat))
    (code : TerminationCode) (day : AsyncLogger.Tm) (throws : Bool) :
    (s.complete server r code day throws).Kept := by
  have hrunning : s.logger.stopping = false := by
    cases hstop : s.logger.stopping with
    | false => rfl
    | true => exact absurd (h.stopped hstop) (by simp [hup])
  unfold LoggedServer.complete
  cases hhandled : r.state.handled with
  | false =>
    rw [hhandled] at hbooks
    exact h.server hbooks hup
  | true =>
    rw [hhandled, Bool.toNat_true] at hbooks
    cases throws with
    | true =>
      refine ⟨?_, h.logger, h.calls, h.accepted, h.stopped, fun hdown => ?_, h.shown⟩
      · simpa [Nat.add_assoc] using hbooks
      · exact absurd hdown (by simp [hup])
    | false =>
      obtain ⟨hcalls, hstop, haccepted⟩ := calls_write hrunning (logCompleted day r.state code)
      have hlength : (s.lines ++ [logCompleted day r.state code]).length = s.lines.length + 1 := by
        simp
      refine ⟨?_, h.logger.write _, ?_, ?_, fun htrue => ?_, fun hdown => ?_, ?_⟩
      · show server.Books ((s.lines ++ [logCompleted day r.state code]).length + s.swallowed)
        rwa [hlength, Nat.add_right_comm]
      · show (s.logger.write _).calls = (s.lines ++ [logCompleted day r.state code]).length
        rw [hcalls, hlength, h.calls]
      · show (s.logger.write _).accepted.Sublist (s.lines ++ [logCompleted day r.state code])
        obtain hsame | hmore := haccepted
        · rw [hsame]
          exact h.accepted.trans (List.sublist_append_left _ _)
        · rw [hmore]
          exact h.accepted.append_right _
      · exact absurd htrue (by simp [hstop])
      · exact absurd hdown (by simp [hup])
      · intro line hline
        obtain hold | hnew := List.mem_append.mp hline
        · exact h.shown line hold
        · rw [List.mem_singleton.mp hnew]
          exact ⟨day, r.state, code, hhandled, hnoted.reason, rfl⟩

theorem step_server {lib : CLibrary} {config : DispatchConfig} {s s' : LoggedServer} {x : ServerStep}
    (h : s.step lib config (.server x) = some s') :
    (∀ now, x ≠ .reset now) ∧ (∀ id code, x ≠ .requestCompleted id code) ∧ s.daemonUp = true ∧
      ∃ server, s.server.step lib config x = some server ∧ s' = { s with server := server } := by
  have hrun (h : (if s.daemonUp then (s.server.step lib config x).map
      (fun server => { s with server := server }) else none) = some s') : s.daemonUp = true ∧
      ∃ server, s.server.step lib config x = some server ∧ s' = { s with server := server } := by
    split_ifs at h with hup
    obtain ⟨server, hserver, rfl⟩ := Option.map_eq_some_iff.mp h
    exact ⟨hup, server, hserver, rfl⟩
  cases x with
  | reset | requestCompleted => cases h
  | _ => exact ⟨nofun, nofun, hrun h⟩

theorem step_requestCompleted {lib : CLibrary} {config : DispatchConfig} {s s' : LoggedServer} {id : Nat}
    {code : TerminationCode} {day : AsyncLogger.Tm} {throws : Bool}
    (h : s.step lib config (.requestCompleted id code day throws) = some s') :
    ∃ r server, s.server.requests.lookup id = some r ∧
      s.server.step lib config (.requestCompleted id code) = some server ∧
      s' = s.complete server r code day throws := by
  simp only [step] at h
  split at h
  · cases h
  · rename_i r hlookup
    obtain ⟨server, hserver, rfl⟩ := Option.map_eq_some_iff.mp h
    exact ⟨r, server, hlookup, hserver, rfl⟩

theorem step_logger {lib : CLibrary} {config : DispatchConfig} {s s' : LoggedServer}
    {x : AsyncLogger.Step} (h : s.step lib config (.logger x) = some s') :
    (∀ line, x ≠ .write line) ∧ (x = .stop → s.daemonUp = false) ∧
      ∃ logger, s.logger.step x = some logger ∧ s' = { s with logger := logger } := by
  have hrun (h : (s.logger.step x).map (fun logger => { s with logger := logger }) = some s') :
      ∃ logger, s.logger.step x = some logger ∧ s' = { s with logger := logger } := by
    obtain ⟨logger, hlogger, rfl⟩ := Option.map_eq_some_iff.mp h
    exact ⟨logger, hlogger, rfl⟩
  cases x with
  | write => cases h
  | stop =>
    simp only [step] at h
    split_ifs at h with hup
    exact ⟨nofun, fun _ => by simpa using hup, hrun h⟩
  | _ => exact ⟨nofun, nofun, hrun h⟩

theorem Kept.step {lib : CLibrary} {config : DispatchConfig} {s s' : LoggedServer} (h : s.Kept)
    {x : LoggedStep} (hproper : x.Proper) (hstep : s.step lib config x = some s') : s'.Kept := by
  cases x with
  | server x =>
    obtain ⟨hreset, hcompleted, hup, server, hserver, rfl⟩ := step_server hstep
    exact h.server (h.books.step hproper hreset hcompleted hserver) hup
  | requestCompleted id code day throws =>
    obtain ⟨r, server, hlookup, hserver, rfl⟩ := step_requestCompleted hstep
    have hup : s.daemonUp = true := by
      cases hup : s.daemonUp with
      | true => rfl
      | false =>
        have hmem := AList.mem_lookup_iff.mp hlookup
        rw [h.idle hup] at hmem
        cases hmem
    exact h.complete hup (h.books.noted id r hlookup) (h.books.requestCompleted hlookup hserver)
      code day throws
  | daemonStopped =>
    simp only [LoggedServer.step] at hstep
    split_ifs at hstep with hempty
    cases hstep
    exact ⟨h.books, h.logger, h.calls, h.accepted, fun _ => rfl, fun _ => hempty, h.shown⟩
  | logger x =>
    obtain ⟨hwrite, hstop, logger, hlogger, rfl⟩ := step_logger hstep
    obtain ⟨hcalls, haccepted, hkeeps⟩ := logger_quiet hwrite hlogger
    refine ⟨h.books, h.logger.step hproper hlogger, hcalls.trans h.calls,
      haccepted ▸ h.accepted, ?_, h.idle, h.shown⟩
    intro hstopping
    by_cases hx : x = .stop
    · exact hstop hx
    · exact h.stopped ((hkeeps hx).symm.trans hstopping)

theorem Reaches.kept {lib : CLibrary} {config : DispatchConfig} {s : LoggedServer}
    (h : Reaches lib config s) : s.Kept := by
  induction h with
  | start limiter now =>
    refine ⟨⟨by simp [TransferMetrics.reset, Server.inHand, Table.total], ?_⟩,
      ⟨rfl, List.Sublist.refl _, by simp, fun hd => absurd rfl hd⟩, rfl, List.Sublist.refl _,
      nofun, nofun, nofun⟩
    intro id r hlookup
    change (∅ : Table Nat Request).lookup id = some r at hlookup
    rw [AList.lookup_empty] at hlookup
    cases hlookup
  | step x _ hproper hstep ih => exact ih.step hproper hstep

end LoggedServer

/-- An entry of the log without its newline. -/
def lineOf : AsyncLogger.Entry → Text
  | .line content => content
  | .report dropped =>
      text "[fastdl] dropped " ++ decimal dropped ++ text " log lines (queue full)"

/-- What was written to the file of a day. -/
def entriesOf (l : AsyncLogger.Logger) (day : Int) : List AsyncLogger.Entry :=
  (l.log.filter (fun e => e.1 = day)).map Prod.snd

def fileText (l : AsyncLogger.Logger) (day : Int) : Text :=
  (entriesOf l day).flatMap AsyncLogger.Entry.text

theorem text_lineOf (entry : AsyncLogger.Entry) : entry.text = lineOf entry ++ ['\n'] := by
  cases entry with
  | line content => rfl
  | report dropped =>
    have hend : text " log lines (queue full)\n" = text " log lines (queue full)" ++ ['\n'] := by
      rw [text_eq (s := " log lines (queue full)\n") rfl, text_eq (s := " log lines (queue full)") rfl]
      rfl
    rw [AsyncLogger.Entry.text, hend, lineOf, List.append_assoc]
    simp only [List.append_assoc]

theorem clean_report (dropped : Nat) : Clean (lineOf (.report dropped)) := by
  have hfixed : Clean (text "[fastdl] dropped ") ∧ Clean (text " log lines (queue full)") := by
    refine ⟨?_, ?_⟩ <;> (rw [text_eq rfl]; exact clean_of_all rfl)
  simp only [lineOf, clean_append, clean_decimal, hfixed, and_self]

/-- A padded number begins with its sign or a digit. -/
theorem zeroPadded_head (width : Nat) (n : Int) :
    ∃ c rest, zeroPadded width n = c :: rest ∧ (c = '-' ∨ c.isDigit) := by
  by_cases hneg : n < 0
  · exact ⟨'-', _, by rw [zeroPadded, if_pos hneg], .inl rfl⟩
  · obtain ⟨k, rfl⟩ := Int.eq_ofNat_of_zero_le (Int.not_lt.mp hneg)
    cases hpadded : zeroPadded width (k : Int) with
    | nil =>
      rw [zeroPadded_natCast, List.append_eq_nil_iff] at hpadded
      exact absurd hpadded.2 (decimal_ne_nil k)
    | cons c rest =>
      exact ⟨c, rest, rfl, .inr (zeroPadded_digits width k c (hpadded ▸ List.mem_cons_self))⟩

/-- A request's line has its date where the report has its name. -/
theorem report_ne_requestLine {line : Text} (h : IsRequestLine line) (dropped : Nat) :
    line ≠ lineOf (.report dropped) := by
  obtain ⟨day, state, code, -, -, rfl⟩ := h
  intro heq
  have hname : text "[fastdl] dropped " = '[' :: 'f' :: text "astdl] dropped " := by
    rw [text_eq (s := "[fastdl] dropped ") rfl, text_eq (s := "astdl] dropped ") rfl]
  obtain ⟨c, rest, hdate, hc⟩ := zeroPadded_head 1 (day.year + 1900)
  simp only [logCompleted, logStamp, lineOf, hname, hdate, List.cons_append, List.cons.injEq,
    true_and] at heq
  rw [heq.1] at hc
  revert hc
  decide

/-- The dropped lines are counted in the report that names them. -/
theorem report_inj {m n : Nat} (h : lineOf (.report m) = lineOf (.report n)) : m = n := by
  simp only [lineOf, List.append_assoc] at h
  exact decimal_inj (List.append_cancel_right (List.append_cancel_left h))

theorem entry_written {l : AsyncLogger.Logger} {day : Int} {content : Text}
    (h : AsyncLogger.Entry.line content ∈ entriesOf l day) : content ∈ l.written := by
  obtain ⟨e, he, hentry⟩ := List.mem_map.mp h
  refine List.mem_flatMap.mpr ⟨e, (List.mem_filter.mp he).1, ?_⟩
  rw [hentry]
  exact List.mem_singleton_self content

namespace LoggedServer

variable {lib : CLibrary} {config : DispatchConfig} {s : LoggedServer}

theorem Kept.written (h : s.Kept) : s.logger.written.Sublist s.lines := by
  refine List.Sublist.trans ?_ (h.logger.ordered.trans h.accepted)
  rw [List.append_assoc]
  exact List.sublist_append_left _ _

/-- Whatever clients send, the file of each day reads back, line by line, as the entries written to
it: each is the line of one request that was handled, and none of these can pass for a report of
the logger. -/
theorem log_reads_back (h : Reaches lib config s) (day : Int) :
    Config.getLines (fileText s.logger day) = (entriesOf s.logger day).map lineOf ∧
      ∀ entry ∈ entriesOf s.logger day, Clean (lineOf entry) ∧
        (entry.lines ≠ [] → lineOf entry ∈ s.lines ∧ IsRequestLine (lineOf entry)) ∧
        ∀ dropped, lineOf entry = lineOf (.report dropped) → entry = .report dropped := by
  have hkept := h.kept
  have hentry : ∀ entry ∈ entriesOf s.logger day, Clean (lineOf entry) ∧
      (entry.lines ≠ [] → lineOf entry ∈ s.lines ∧ IsRequestLine (lineOf entry)) ∧
      ∀ dropped, lineOf entry = lineOf (.report dropped) → entry = .report dropped := by
    intro entry hmem
    cases entry with
    | line content =>
      have hline : content ∈ s.lines := hkept.written.subset (entry_written hmem)
      have hrequest := hkept.shown content hline
      refine ⟨?_, fun _ => ⟨hline, hrequest⟩, fun dropped heq => ?_⟩
      · obtain ⟨now, state, code, -, hreason, rfl⟩ := hrequest
        exact clean_logCompleted now hreason code
      · exact absurd heq (report_ne_requestLine hrequest dropped)
    | report dropped =>
      refine ⟨clean_report dropped, fun hlines => absurd rfl hlines, fun dropped' heq => ?_⟩
      rw [report_inj heq]
  refine ⟨?_, hentry⟩
  have htext : fileText s.logger day =
      ((entriesOf s.logger day).map lineOf).flatMap (fun line => line ++ ['\n']) := by
    rw [fileText, List.flatMap_map]
    exact List.flatMap_congr fun entry _ => text_lineOf entry
  rw [htext]
  apply Config.getLines_flatMap
  intro line hline
  obtain ⟨entry, hmem, rfl⟩ := List.mem_map.mp hline
  intro hnewline
  have hplain := (hentry entry hmem).1 '\n' hnewline
  revert hplain
  decide

/-- Every request that is counted is on its way or on record: in hand, lost to an exception, queued,
with the worker, in a file in its order, or counted in a report or as dropped. Once the worker
has ended, unless it gave up on its file, it is in a file or in a report. -/
theorem requests_logged (h : Reaches lib config s) :
    s.logger.written.Sublist s.lines ∧
    s.server.metrics.requests = min (s.logger.written.length + s.logger.reported +
      s.logger.queue.length + s.logger.dropped + s.logger.worker.lines.length +
      s.logger.worker.dropped + s.swallowed + Server.inHand s.server.requests) uint64Max ∧
    ∀ dropped, s.logger.worker = .exited dropped → ¬ s.logger.GaveUp →
      s.server.metrics.requests =
        min (s.logger.written.length + s.logger.reported + s.swallowed) uint64Max := by
  have hkept := h.kept
  have hcounted := hkept.books.counted
  have hbooks := hkept.logger.counted
  rw [hkept.calls] at hbooks
  refine ⟨hkept.written, ?_, ?_⟩
  · rw [hcounted, hbooks]
  · intro dropped hworker hfile
    have hsettled := hkept.logger.settled
    unfold AsyncLogger.Logger.Settled at hsettled
    rw [hworker] at hsettled hbooks
    obtain ⟨hqueue, hdropped, hstop, hgaveUp⟩ := hsettled
    have hidle := hkept.idle (hkept.stopped hstop)
    have hhand : Server.inHand s.server.requests = 0 := by
      simp [Server.inHand, Table.total, hidle]
    have hnone : dropped = 0 := by
      by_contra hne
      exact hfile (hgaveUp hne)
    simp only [hqueue, hdropped, hnone, AsyncLogger.Worker.lines, AsyncLogger.Worker.dropped,
      List.length_nil, Nat.add_zero] at hbooks
    rw [hcounted, hbooks, hhand, Nat.add_zero]

def run (lib : CLibrary) (config : DispatchConfig) : List LoggedStep → LoggedServer → Option LoggedServer
  | [], s => some s
  | x :: xs, s => (s.step lib config x).bind (run lib config xs)

theorem reaches_of_run (xs : List LoggedStep) {s' : LoggedServer} (h : Reaches lib config s)
    (hproper : ∀ x ∈ xs, x.Proper) (hrun : run lib config xs s = some s') :
    Reaches lib config s' := by
  induction xs generalizing s with
  | nil =>
    cases hrun
    exact h
  | cons x xs ih =>
    obtain ⟨s₁, hstep, hrest⟩ := Option.bind_eq_some_iff.mp hrun
    exact ih (h.step x (hproper x List.mem_cons_self) hstep)
      (fun y hy => hproper y (List.mem_cons_of_mem _ hy)) hrest

/-- A request with a line of its own in its URL, logged and written to the file of day 3, and then
the end of the server. -/
def forgedLine : List LoggedStep :=
  let incoming : Incoming :=
    ⟨text "10.0.0.1", some (text "GET"), some (text "/a\n[fastdl] dropped 9"), none, 0⟩
  [.server (.handleRequest 1 incoming), .server (.handleRequest 1 incoming),
    .server (.dispatch 1 ⟨1, 1, 1, .invalidPath, fun _ => none, sampleEncounter, .queued⟩),
    .requestCompleted 1 .completedOk ⟨⟨12, 30, 5, 0⟩, 27, 6, 126⟩ false,
    .logger .take, .logger (.look 3 .sound), .logger (.put true), .logger (.flush true),
    .daemonStopped, .logger .stop, .logger .take]

theorem forgedLine_proper : ∀ x ∈ forgedLine, x.Proper := by
  simp [forgedLine, LoggedStep.Proper, AsyncLogger.Step.Succeeds]

def atStart : LoggedServer := { server := { metrics := TransferMetrics.reset 0 } }

/-- The line that the forged one comes to. -/
def forgedLogged : Text :=
  text "[2026-07-27T12:30:05] GET /a\\x0a[fastdl] dropped 9 -> 403 0.0kB ok from 10.0.0.1 [] " ++
    text "invalid path"

theorem forgedLine_ends : ∃ s, run epochLibrary Server.sampleConfig forgedLine atStart = some s ∧
    (entriesOf s.logger 3).map lineOf = [forgedLogged] ∧ s.logger.worker = .exited 0 ∧
    s.logger.batches.map AsyncLogger.Batch.access = [.sound] := by
  have hends : (run epochLibrary Server.sampleConfig forgedLine atStart).any
      (fun s => decide ((entriesOf s.logger 3).map lineOf = [forgedLogged]) &&
        (match s.logger.worker with | .exited 0 => true | _ => false) &&
        decide (s.logger.batches.map AsyncLogger.Batch.access = [.sound])) = true := by
    decide +kernel
  cases hrun : run epochLibrary Server.sampleConfig forgedLine atStart with
  | none =>
    rw [hrun] at hends
    cases hends
  | some s =>
    rw [hrun, Option.any_some, Bool.and_eq_true, Bool.and_eq_true, decide_eq_true_eq,
      decide_eq_true_eq] at hends
    obtain ⟨⟨hlines, hworker⟩, hbatches⟩ := hends
    refine ⟨s, rfl, hlines, ?_, hbatches⟩
    split at hworker
    · assumption
    · cases hworker

theorem log_reads_back_forged :
    ∃ s : LoggedServer, Config.getLines (fileText s.logger 3) = [forgedLogged] := by
  obtain ⟨s, hrun, hlines, -⟩ := forgedLine_ends
  have hreach := reaches_of_run forgedLine (.start {} 0) forgedLine_proper hrun
  exact ⟨s, (log_reads_back hreach 3).1.trans hlines⟩

theorem requests_logged_forged : ∃ s : LoggedServer, s.logger.worker = .exited 0 ∧
    s.server.metrics.requests =
      min (s.logger.written.length + s.logger.reported + s.swallowed) uint64Max := by
  obtain ⟨s, hrun, -, hworker, hbatches⟩ := forgedLine_ends
  have hreach := reaches_of_run forgedLine (.start {} 0) forgedLine_proper hrun
  refine ⟨s, hworker, (requests_logged hreach).2.2 0 hworker ?_⟩
  intro hgaveUp
  obtain ⟨batch, batches, hbatch, -, hrefused⟩ := hgaveUp
  rw [hbatch, List.map_cons, hrefused] at hbatches
  cases hbatches

end LoggedServer
end FastdlMm.FastdlServer
