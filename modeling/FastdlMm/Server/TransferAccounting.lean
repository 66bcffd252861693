import FastdlMm.Server.Requests

namespace FastdlMm.FastdlServer

/-- What `dispatch` may make of a state: its response, if one is queued, is the one that is noted,
and an active transfer is a file for a GET. -/
def Dispatched.Keeps (state : RequestState) : Dispatched → Prop
  | .answered state' response =>
      state'.method = state.method ∧ state'.handled = state.handled ∧
        (response = none → state'.activeTransfer = state.activeTransfer) ∧
        ∀ queued, response = some queued → state'.activeTransfer = queued.activeTransfer ∧
          state'.responseSize = queued.responseSize ∧
          (queued.activeTransfer = true ↔
            (queued.status = 200 ∨ queued.status = 206) ∧ state.method = text "GET")
  | .failing state' _ =>
      state'.method = state.method ∧ state'.handled = state.handled ∧
        state'.activeTransfer = state.activeTransfer

theorem respondText_keeps {state : RequestState} (h : state.activeTransfer = false) {status : Nat}
    (hstatus : status ≠ 200 ∧ status ≠ 206) (body reason : Text) (answer : MhdAnswer) :
    (Dispatched.ofText (state.respondText status body reason answer)).Keeps state := by
  refine ⟨rfl, rfl, fun _ => rfl, ?_⟩
  intro queued hqueued
  simp only [RequestState.respondText] at hqueued
  split_ifs at hqueued
  have hresponse := queue_eq_some hqueued
  rw [hresponse]
  simp [RequestState.respondText, h, hstatus]

theorem deny_keeps {config : DispatchConfig} {limiter : RateLimiter.State} {state : RequestState}
    (h : state.activeTransfer = false) (reason : Text) (strike : Bool) (s : Surroundings) :
    (deny config limiter state reason strike s).2.Keeps state :=
  respondText_keeps h (by decide) _ _ _

/-- Nothing but a file is an active transfer. -/
theorem serveFile_quiet {lib : CLibrary} {config : FastdlConfig} {method : Method}
    {headers : Headers} {e : Encounter} {r : Response}
    (h : serveFile lib config method headers e = some r)
    (hs : ¬ (r.status = 200 ∨ r.status = 206)) : r.activeTransfer = false := by
  have hrange {opened : OpenFile} {range : ByteRange}
      (h : serveRange lib config method headers e opened range = some r) :
      r.activeTransfer = false := by
    obtain hst | hst := serveRange_status h
    · unfold serveRange at h
      simp only at h
      split_ifs at h <;> rw [queue_eq_some h] at hst ⊢ <;> simp at hst ⊢
      all_goals split at hst <;> cases hst
    · exact absurd (by rw [hst]; split <;> simp) hs
  unfold serveFile at h
  split at h
  · cases h
  · simp only at h
    split_ifs at h
    · rw [queue_eq_some h]
    · rw [queue_eq_some h]
    · exact hrange h
    · exact hrange h

theorem serveFile_active_iff {lib : CLibrary} {config : FastdlConfig} {method : Method}
    {headers : Headers} {e : Encounter} {r : Response}
    (h : serveFile lib config method headers e = some r) :
    r.activeTransfer = true ↔ (r.status = 200 ∨ r.status = 206) ∧ method = .get := by
  by_cases hs : r.status = 200 ∨ r.status = 206
  · obtain ⟨_, -, -, hactive, -⟩ := serveFile_transfer h hs
    simp [hactive, hs]
  · simp [serveFile_quiet h hs, hs]

theorem serveFile_keeps {lib : CLibrary} {config : FastdlConfig} {state state' : RequestState}
    {headers : Headers} {e : Encounter} {answer : MhdAnswer} {response : Option Response}
    (hserve : state.serveFile lib config headers e answer = (state', response)) :
    (Dispatched.answered state' response).Keeps state := by
  unfold RequestState.serveFile at hserve
  simp only at hserve
  split at hserve
  · cases hserve
    exact ⟨rfl, rfl, fun _ => rfl, nofun⟩
  · rename_i r hr
    split_ifs at hserve with hqueued
    · cases hserve
      refine ⟨rfl, rfl, nofun, ?_⟩
      intro queued hq
      cases hq
      refine ⟨rfl, rfl, ?_⟩
      rw [serveFile_active_iff hr]
      simp
    · cases hserve
      exact ⟨rfl, rfl, fun _ => rfl, nofun⟩
    · cases hserve
      exact ⟨rfl, rfl, fun _ => rfl, nofun⟩

theorem dispatch_keeps (lib : CLibrary) (config : DispatchConfig) (limiter : RateLimiter.State)
    {state : RequestState} (h : state.activeTransfer = false) (s : Surroundings) :
    (dispatch lib config limiter state s).2.Keeps state := by
  unfold dispatch
  simp only
  split_ifs
  · exact deny_keeps h _ _ _
  · exact deny_keeps h _ _ _
  · exact deny_keeps h _ _ _
  · exact deny_keeps h _ _ _
  · exact deny_keeps h _ _ _
  · split
    · split
      · rename_i state' r hserve
        exact serveFile_keeps hserve
      · rename_i state' hserve
        obtain ⟨hmethod, hhandled, hactive, -⟩ := serveFile_keeps hserve
        exact ⟨hmethod, hhandled, hactive rfl⟩
    · exact respondText_keeps h (by decide) _ _ _
    · exact respondText_keeps h (by decide) _ _ _
    · exact respondText_keeps h (by decide) _ _ _
    · exact ⟨rfl, rfl, rfl⟩
    · exact deny_keeps h _ _ _
    · exact deny_keeps h _ _ _
    · exact deny_keeps h _ _ _
    · exact deny_keeps h _ _ _

/-- Its 200 or 206 GET response was queued. -/
def Request.transfers (r : Request) : Bool :=
  r.queued.any fun queued =>
    decide ((queued.status = 200 ∨ queued.status = 206) ∧ r.state.method = text "GET")

/-- The flags of a request say what was queued for it. -/
structure Request.Sound (r : Request) : Prop where
  active : r.state.activeTransfer = r.transfers
  sized : ∀ queued, r.queued = some queued → r.state.activeTransfer = true →
    r.state.responseSize = queued.responseSize
  answered : ∀ queued, r.queued = some queued → r.point = .idle ∧ r.state.handled = true
  running : r.point ≠ .idle → r.state.handled = true

theorem Request.Sound.quiet {r : Request} (h : r.Sound) (hqueued : r.queued = none) :
    r.state.activeTransfer = false ∧ r.transfers = false := by
  have hnone : r.transfers = false := by simp [Request.transfers, hqueued]
  exact ⟨h.active.trans hnone, hnone⟩

/-- Nothing is queued for a request before it is handled, or while its handler runs. -/
theorem Request.Sound.unqueued {r : Request} (h : r.Sound)
    (hearly : r.point ≠ .idle ∨ r.state.handled = false) : r.queued = none := by
  cases hqueued : r.queued with
  | none => rfl
  | some queued =>
    obtain ⟨hidle, hhandled⟩ := h.answered queued hqueued
    obtain hpoint | hfresh := hearly
    · exact absurd hidle hpoint
    · rw [hhandled] at hfresh
      cases hfresh

/-- A state for which nothing is queued. -/
theorem Request.Sound.of_none {state : RequestState} (h : state.activeTransfer = false)
    {point : Point} (hrunning : point ≠ .idle → state.handled = true) :
    Request.Sound ⟨state, point, none⟩ :=
  ⟨h, nofun, nofun, hrunning⟩

theorem Dispatched.Keeps.sound {state state' : RequestState} {response : Option Response}
    (h : (Dispatched.answered state' response).Keeps state) (hquiet : state.activeTransfer = false)
    (hhandled : state.handled = true) :
    Request.Sound ⟨state', .idle, response⟩ ∧
      response.any (fun queued => queued.activeTransfer) =
        Request.transfers ⟨state', .idle, response⟩ := by
  obtain ⟨hmethod, hsame, hnone, hsome⟩ := h
  cases response with
  | none =>
    refine ⟨.of_none ?_ fun hidle => absurd rfl hidle, rfl⟩
    rw [hnone rfl, hquiet]
  | some queued =>
    obtain ⟨hactive, hsize, hiff⟩ := hsome queued rfl
    have htransfers : queued.activeTransfer =
        Request.transfers ⟨state', .idle, some queued⟩ := by
      rw [Bool.eq_iff_iff, hiff, ← hmethod]
      simp [Request.transfers]
    refine ⟨⟨hactive.trans htransfers, ?_, ?_, fun hidle => absurd rfl hidle⟩, htransfers⟩
    · intro queued' hq _
      cases hq
      exact hsize
    · intro queued' _
      exact ⟨rfl, hsame.trans hhandled⟩

namespace Server

/-- The transfers that have not completed. -/
def inFlight (requests : Table Nat Request) : Nat :=
  Table.total (fun _ r => r.transfers.toNat) requests

/-- A transfer that counts as completed ended well, with all of its bytes supplied. -/
def Ended.Honest (e : Ended) : Prop :=
  e.outcome = .completed → e.code = .completedOk ∧
    ∃ queued, e.response = some queued ∧ e.bytesSupplied = queued.responseSize

structure Accounted (s : Server) : Prop where
  sound : ∀ id r, s.requests.lookup id = some r → r.Sound
  active : s.metrics.active = inFlight s.requests
  started : s.started + s.dispatchFailures = s.metrics.active + s.metrics.finished
  failed : s.dispatchFailures ≤ s.metrics.failed
  completed : s.metrics.completed =
    (s.ended.filter (fun e => decide (e.outcome = .completed))).length
  honest : ∀ e ∈ s.ended, Ended.Honest e

/-- The states that steps lead to while no counter of the transfers is full. -/
inductive Reaches (lib : CLibrary) (config : DispatchConfig) : Server → Prop
  | start : Reaches lib config {}
  | step {s s' : Server} (x : ServerStep) : Reaches lib config s → s.metrics.Unsaturated →
      s.step lib config x = some s' → Reaches lib config s'

theorem accounted_reset (limiter : RateLimiter.State) (now : Int) :
    Accounted { limiter := limiter, metrics := TransferMetrics.reset now } where
  sound := by
    intro id r hlookup
    change (∅ : Table Nat Request).lookup id = some r at hlookup
    rw [AList.lookup_empty] at hlookup
    cases hlookup
  active := rfl
  started := rfl
  failed := Nat.le_refl 0
  completed := rfl
  honest := fun _ he => absurd he List.not_mem_nil

theorem inFlight_insert {requests : Table Nat Request} {id : Nat} {r : Request}
    (h : requests.lookup id = some r) (r' : Request) :
    inFlight (requests.insert id r') + r.transfers.toNat =
      inFlight requests + r'.transfers.toNat :=
  Table.total_insert_some _ r' h

/-- A transfer that is not completed is counted as active. -/
theorem Accounted.active_pos {s : Server} (h : s.Accounted) {id : Nat} {r : Request}
    (hlookup : s.requests.lookup id = some r) (hactive : r.state.activeTransfer = true) :
    0 < s.metrics.active := by
  have hone : r.transfers = true := (h.sound id r hlookup).active.symm.trans hactive
  have herase := Table.total_erase (fun _ r => r.transfers.toNat) hlookup
  have htotal := h.active
  simp only [hone, Bool.toNat_true] at herase
  unfold inFlight at htotal
  omega

theorem sound_insert {s : Server} (h : s.Accounted) {id : Nat} {r : Request} (hr : r.Sound) :
    ∀ id' r', (s.put id r).requests.lookup id' = some r' → r'.Sound := by
  intro id' r' hlookup
  obtain ⟨-, rfl⟩ | ⟨-, hold⟩ := Table.lookup_insert_eq_some hlookup
  · exact hr
  · exact h.sound id' r' hold

/-- What leaves the transfers and their counters alone. -/
theorem Accounted.keep {s s' : Server} (h : s.Accounted)
    (hsound : ∀ id r, s'.requests.lookup id = some r → r.Sound)
    (hflight : inFlight s'.requests = inFlight s.requests)
    (hactive : s'.metrics.active = s.metrics.active)
    (hfinished : s'.metrics.finished = s.metrics.finished)
    (hfailed : s'.metrics.failed = s.metrics.failed)
    (hcompleted : s'.metrics.completed = s.metrics.completed) (hstarted : s'.started = s.started)
    (hfailures : s'.dispatchFailures = s.dispatchFailures) (hended : s'.ended = s.ended) :
    s'.Accounted where
  sound := hsound
  active := by rw [hactive, hflight, h.active]
  started := by rw [hstarted, hfailures, hactive, hfinished, h.started]
  failed := by rw [hfailures, hfailed]; exact h.failed
  completed := by rw [hcompleted, hended, h.completed]
  honest := by rw [hended]; exact h.honest

theorem inFlight_same {requests : Table Nat Request} {id : Nat} {r r' : Request}
    (h : requests.lookup id = some r) (hsame : r'.transfers = r.transfers) :
    inFlight (requests.insert id r') = inFlight requests := by
  have hinsert := inFlight_insert h r'
  rw [hsame] at hinsert
  omega

theorem Accounted.handleRequest {s s' : Server} (h : s.Accounted) {id : Nat} {incoming : Incoming}
    (hstep : s.handleRequest id incoming = some s') : s'.Accounted := by
  unfold Server.handleRequest at hstep
  split at hstep
  · rename_i hnone
    cases hstep
    have hr : Request.Sound { state := incoming.fresh } := .of_none rfl fun hidle => absurd rfl hidle
    refine h.keep (sound_insert h hr) ?_ rfl rfl rfl rfl rfl rfl rfl
    exact Table.total_insert_none (fun _ r => r.transfers.toNat) _ hnone
  · rename_i r hlookup
    have hr := h.sound id r hlookup
    split at hstep
    · split_ifs at hstep with hupload hhandled
      · cases hstep
        exact h
      · cases hstep
        exact h
      · have hqueued := hr.unqueued (.inr (Bool.eq_false_of_not_eq_true hhandled))
        cases hstep
        have hr' : Request.Sound ⟨{ r.state with handled := true }, .dispatching, r.queued⟩ := by
          have hquiet : { r.state with handled := true }.activeTransfer = false :=
            (hr.quiet hqueued).1
          rw [hqueued]
          exact .of_none hquiet fun _ => rfl
        exact h.keep (sound_insert h hr') (inFlight_same hlookup rfl) rfl rfl rfl rfl rfl rfl rfl
    · cases hstep

theorem Accounted.dispatchStep {s : Server} (h : s.Accounted) (hlive : s.metrics.Unsaturated)
    {lib : CLibrary} {config : DispatchConfig} {id : Nat} {state : RequestState}
    {queued : Option Response} (hlookup : s.requests.lookup id = some ⟨state, .dispatching, queued⟩)
    (surroundings : Surroundings) :
    (s.dispatchStep lib config id ⟨state, .dispatching, queued⟩ surroundings).Accounted := by
  have hr := h.sound id _ hlookup
  obtain rfl : queued = none := hr.unqueued (.inl nofun)
  obtain ⟨hquiet, hout⟩ := hr.quiet rfl
  have hhandled := hr.running nofun
  have hkeeps := dispatch_keeps lib config s.limiter hquiet surroundings
  unfold Server.dispatchStep
  split
  · rename_i limiter state' response hdispatch
    rw [hdispatch] at hkeeps
    obtain ⟨hsound, htransfers⟩ := hkeeps.sound hquiet hhandled
    have hinsert := inFlight_insert hlookup ⟨state', .idle, response⟩
    rw [hout, ← htransfers] at hinsert
    simp only
    split_ifs with hbegins
    · rw [hbegins] at hinsert
      have hone := TransferMetrics.transferStarted_active hlive
      have hactive := h.active
      have hstarted := h.started
      refine ⟨sound_insert h hsound, ?_, ?_, h.failed, h.completed, h.honest⟩
      · change s.metrics.transferStarted.active = inFlight (s.requests.insert id _)
        rw [hone, hactive]
        exact hinsert.symm
      · change s.started + 1 + s.dispatchFailures =
          s.metrics.transferStarted.active + s.metrics.finished
        omega
    · rw [Bool.eq_false_of_not_eq_true hbegins] at hinsert
      exact h.keep (sound_insert h hsound) hinsert rfl rfl rfl rfl rfl rfl rfl
  · rename_i limiter state' reason hdispatch
    rw [hdispatch] at hkeeps
    have hone := TransferMetrics.failure_failed hlive
    have hstarted := h.started
    have hfailed := h.failed
    obtain ⟨-, hsame, hactive⟩ := hkeeps
    have hr' : Request.Sound ⟨state', .failing reason, none⟩ :=
      .of_none (hactive.trans hquiet) fun _ => hsame.trans hhandled
    have hout' : Request.transfers ⟨state', .failing reason, none⟩ =
        Request.transfers ⟨state, .dispatching, none⟩ := hout.symm
    refine ⟨sound_insert h hr', ?_, ?_, ?_, h.completed, h.honest⟩
    · exact h.active.trans (inFlight_same hlookup hout').symm
    · change s.started + (s.dispatchFailures + 1) = s.metrics.active +
        (s.metrics.completed + s.metrics.aborted + s.metrics.timedOut + s.metrics.failure.failed)
      rw [hone]
      unfold TransferMetrics.finished at hstarted
      omega
    · change s.dispatchFailures + 1 ≤ s.metrics.failure.failed
      omega

/-- A text instead of the file begins no transfer. -/
theorem Accounted.respondText {s : Server} (h : s.Accounted) {id : Nat} {state : RequestState}
    {reason : Text} {queued : Option Response}
    (hlookup : s.requests.lookup id = some ⟨state, .failing reason, queued⟩) {status : Nat}
    (hstatus : status ≠ 200 ∧ status ≠ 206) (body : Text) (answer : MhdAnswer) :
    (s.put id { state := (state.respondText status body reason answer).1
                queued := (state.respondText status body reason answer).2 }).Accounted := by
  have hr := h.sound id _ hlookup
  obtain rfl : queued = none := hr.unqueued (.inl nofun)
  obtain ⟨hquiet, hout⟩ := hr.quiet rfl
  have hkeeps := respondText_keeps hquiet hstatus body reason answer
  have hactive : (state.respondText status body reason answer).1.activeTransfer = false := hquiet
  obtain ⟨hsound, -⟩ := hkeeps.sound hquiet (hr.running nofun)
  generalize state.respondText status body reason answer = answered at hactive hsound ⊢
  have hout' : Request.transfers ⟨answered.1, .idle, answered.2⟩ =
      Request.transfers ⟨state, .failing reason, none⟩ := by
    rw [hout, ← hsound.active]
    exact hactive
  exact h.keep (sound_insert h hsound) (inFlight_same hlookup hout') rfl rfl rfl rfl rfl rfl rfl

theorem Accounted.fileReader {s s' : Server} (h : s.Accounted) {id : Nat} {state : RequestState}
    {response : Response} (hlookup : s.requests.lookup id = some ⟨state, .idle, some response⟩)
    {pos max : Nat} {acquire : Nat → Nat} {pread : Nat → Option Nat} {second : Int}
    (hstep : s.fileReader id ⟨state, .idle, some response⟩ response pos max acquire pread second =
      some s') : s'.Accounted := by
  have hr := h.sound id _ hlookup
  unfold Server.fileReader at hstep
  split at hstep
  · cases hstep
  · split at hstep
    · rename_i block bytesSupplied hread
      cases hstep
      have hr' : Request.Sound
          ⟨{ state with bytesSupplied := bytesSupplied }, .idle, some response⟩ :=
        ⟨hr.active, hr.sized, hr.answered, hr.running⟩
      have hmetrics : ∀ m : TransferMetrics, (m.bytesSupplied block.length second).active = m.active ∧
          (m.bytesSupplied block.length second).finished = m.finished ∧
          (m.bytesSupplied block.length second).failed = m.failed ∧
          (m.bytesSupplied block.length second).completed = m.completed := by
        intro m
        unfold TransferMetrics.bytesSupplied
        split <;> exact ⟨rfl, rfl, rfl, rfl⟩
      obtain ⟨hactive, hfinished, hfailed, hcompleted⟩ := hmetrics s.metrics
      exact h.keep (sound_insert h hr') (inFlight_same hlookup rfl) hactive hfinished hfailed
        hcompleted rfl rfl rfl
    · cases hstep
      exact h

/-- A transfer counts as completed if it ended well with as many bytes supplied as were noted. -/
theorem outcome_completed {state : RequestState} {code : TerminationCode}
    (h : state.outcome code = .completed) :
    code = .completedOk ∧ state.bytesSupplied = state.responseSize := by
  unfold RequestState.outcome at h
  split_ifs at h with hok
  exact hok

theorem ended_honest {r : Request} (h : r.Sound) (htransfer : r.state.activeTransfer = true)
    (code : TerminationCode) :
    Ended.Honest ⟨r.queued, code, r.state.bytesSupplied, r.state.outcome code⟩ := by
  intro houtcome
  obtain ⟨hok, hsupplied⟩ := outcome_completed houtcome
  have htransfers := h.active.symm.trans htransfer
  cases hqueued : r.queued with
  | none =>
    rw [(h.quiet hqueued).2] at htransfers
    cases htransfers
  | some queued => exact ⟨hok, queued, rfl, hsupplied.trans (h.sized queued hqueued htransfer)⟩

theorem Accounted.requestCompleted {s : Server} (h : s.Accounted)
    (hlive : s.metrics.Unsaturated) {id : Nat} {r : Request}
    (hlookup : s.requests.lookup id = some r) (code : TerminationCode) :
    (s.requestCompleted id r code).Accounted := by
  have hr := h.sound id r hlookup
  have hsound : ∀ id' r', (s.requests.erase id).lookup id' = some r' → r'.Sound := by
    intro id' r' hlookup'
    by_cases hid : id' = id
    · rw [hid, AList.lookup_erase] at hlookup'
      cases hlookup'
    · rw [AList.lookup_erase_ne hid] at hlookup'
      exact h.sound id' r' hlookup'
  have herase : inFlight (s.requests.erase id) + r.transfers.toNat = inFlight s.requests :=
    Table.total_erase _ hlookup
  have hactive := h.active
  have hstarted := h.started
  have hfailed := h.failed
  unfold Server.requestCompleted
  simp only
  split_ifs with htransfer
  · have hpos := h.active_pos hlookup htransfer
    rw [← hr.active, htransfer] at herase
    obtain ⟨hsub, hcount, hmore, hcompleted⟩ :=
      TransferMetrics.transferFinished_counts hlive hpos (r.state.outcome code)
    refine ⟨hsound, ?_, ?_, hfailed.trans hmore, ?_, ?_⟩
    · change (s.metrics.transferFinished _).active = inFlight (s.requests.erase id)
      simp only [Bool.toNat_true] at herase
      omega
    · change s.started + s.dispatchFailures =
        (s.metrics.transferFinished _).active + (s.metrics.transferFinished _).finished
      omega
    · change (s.metrics.transferFinished _).completed = _
      rw [hcompleted, h.completed, List.filter_cons]
      split <;> simp_all
    · intro e he
      obtain rfl | he := List.mem_cons.mp he
      · exact ended_honest hr htransfer code
      · exact h.honest e he
  · rw [← hr.active, Bool.eq_false_of_not_eq_true htransfer] at herase
    exact h.keep hsound herase rfl rfl rfl rfl rfl rfl rfl

theorem Accounted.step {s s' : Server} (h : s.Accounted) (hlive : s.metrics.Unsaturated)
    {lib : CLibrary} {config : DispatchConfig} {x : ServerStep}
    (hstep : s.step lib config x = some s') : s'.Accounted := by
  cases x with
  | reset now =>
    simp only [Server.step] at hstep
    split_ifs at hstep with hempty
    cases hstep
    exact accounted_reset s.limiter now
  | limiter limiter =>
    cases hstep
    exact h.keep h.sound rfl rfl rfl rfl rfl rfl rfl rfl
  | handleRequest id incoming => exact h.handleRequest hstep
  | dispatch id surroundings =>
    simp only [Server.step] at hstep
    split at hstep
    · rename_i state queued hlookup
      cases hstep
      exact h.dispatchStep hlive hlookup surroundings
    · cases hstep
  | respondFailure id answer =>
    simp only [Server.step] at hstep
    split at hstep
    · rename_i state reason queued hlookup
      cases hstep
      exact h.respondText hlookup (by decide) _ answer
    · cases hstep
  | throws id noted =>
    simp only [Server.step] at hstep
    split at hstep
    · cases hstep
    · rename_i state point queued hpoint hlookup
      cases hstep
      have hr := h.sound id _ hlookup
      obtain rfl : queued = none := hr.unqueued (.inl hpoint)
      obtain ⟨hquiet, hout⟩ := hr.quiet rfl
      have hquiet' : (noted.elim state fun response => state.note response).activeTransfer = false := by
        cases noted <;> exact hquiet
      have hsound : Request.Sound ⟨_, .idle, none⟩ := .of_none hquiet' fun hidle => absurd rfl hidle
      exact h.keep (sound_insert h hsound) (inFlight_same hlookup hout.symm)
        rfl rfl rfl rfl rfl rfl rfl
    · cases hstep
  | fileReader id pos max acquire pread second =>
    simp only [Server.step] at hstep
    split at hstep
    · rename_i state response hlookup
      exact h.fileReader hlookup hstep
    · cases hstep
  | requestCompleted id code =>
    simp only [Server.step] at hstep
    split at hstep
    · rename_i state queued hlookup
      cases hstep
      exact h.requestCompleted hlive hlookup code
    · cases hstep

/-- As long as no counter is full, the active counter is the number of transfers that were queued
and have not completed, its decrement does not wrap, every transfer started is active or has ended
in one of the four ways, and one that counts as completed ended well with all of its bytes. -/
theorem transfers_accounted {lib : CLibrary} {config : DispatchConfig} {s : Server}
    (h : Reaches lib config s) :
    s.metrics.active = inFlight s.requests ∧
    (∀ id r, s.requests.lookup id = some r → r.state.activeTransfer = true → 0 < s.metrics.active) ∧
    s.dispatchFailures ≤ s.metrics.failed ∧
    s.started = s.metrics.active + s.metrics.completed + s.metrics.aborted + s.metrics.timedOut +
      (s.metrics.failed - s.dispatchFailures) ∧
    s.metrics.completed = (s.ended.filter (fun e => decide (e.outcome = .completed))).length ∧
    ∀ e ∈ s.ended, Ended.Honest e := by
  have haccounted : s.Accounted := by
    induction h with
    | start => exact accounted_reset {} (-1)
    | step x _ hlive hstep ih => exact ih.step hlive hstep
  have hstarted := haccounted.started
  have hfailed := haccounted.failed
  unfold TransferMetrics.finished at hstarted
  refine ⟨haccounted.active, ?_, hfailed, by omega, haccounted.completed, haccounted.honest⟩
  intro id r hlookup hactive
  exact haccounted.active_pos hlookup hactive

instance (m : TransferMetrics) : Decidable m.Unsaturated :=
  decidable_of_iff (m.active < uint64Max ∧ m.completed < uint64Max ∧ m.aborted < uint64Max ∧
      m.timedOut < uint64Max ∧ m.failed < uint64Max)
    ⟨fun h => ⟨h.1, h.2.1, h.2.2.1, h.2.2.2.1, h.2.2.2.2⟩,
      fun h => ⟨h.active, h.completed, h.aborted, h.timedOut, h.failed⟩⟩

/-- A run, which ends where a counter is full. -/
def run (lib : CLibrary) (config : DispatchConfig) : List ServerStep → Server → Option Server
  | [], s => some s
  | x :: xs, s =>
      if s.metrics.Unsaturated then (s.step lib config x).bind (run lib config xs) else none

theorem reaches_of_run {lib : CLibrary} {config : DispatchConfig} (xs : List ServerStep)
    {s s' : Server} (h : Reaches lib config s) (hrun : run lib config xs s = some s') :
    Reaches lib config s' := by
  induction xs generalizing s with
  | nil =>
    cases hrun
    exact h
  | cons x xs ih =>
    unfold run at hrun
    split_ifs at hrun with hlive
    obtain ⟨s₁, hstep, hrest⟩ := Option.bind_eq_some_iff.mp hrun
    exact ih (h.step x hlive hstep) hrest

def sampleConfig : DispatchConfig := ⟨⟨false, false, 100⟩, false, 60, 10, 60⟩

/-- A download of the sample file while a second request has just begun. -/
def sampleDownload : List ServerStep :=
  [.reset 0,
    .handleRequest 1 ⟨text "10.0.0.1", some (text "GET"), some (text "/maps/a.bsp"), none, 0⟩,
    .handleRequest 1 ⟨text "10.0.0.1", some (text "GET"), some (text "/maps/a.bsp"), none, 0⟩,
    .handleRequest 2 ⟨text "10.0.0.2", some (text "POST"), some (text "/"), none, 4⟩,
    .dispatch 1 ⟨1, 1, 1, .ok, fun _ => none, sampleEncounter, .queued⟩,
    .fileReader 1 0 65536 id some 3,
    .requestCompleted 1 .completedOk]

theorem transfers_accounted_download :
    ∃ s, run epochLibrary sampleConfig sampleDownload {} = some s ∧ s.started = 1 ∧
      s.metrics.active = inFlight s.requests ∧ s.metrics.completed = 1 ∧
      ∀ e ∈ s.ended, Ended.Honest e := by
  have hends : (run epochLibrary sampleConfig sampleDownload {}).any
      (fun s => decide (s.started = 1 ∧ s.metrics.completed = 1)) = true := by
    decide +kernel
  cases hrun : run epochLibrary sampleConfig sampleDownload {} with
  | none =>
    rw [hrun] at hends
    cases hends
  | some s =>
    rw [hrun, Option.any_some, decide_eq_true_eq] at hends
    obtain ⟨hactive, -, -, -, -, hhonest⟩ := transfers_accounted (reaches_of_run _ .start hrun)
    exact ⟨s, rfl, hends.1, hactive, hends.2, hhonest⟩

end Server
end FastdlMm.FastdlServer
