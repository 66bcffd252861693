import FastdlMm.Server.Requests
import Mathlib.Logic.Function.Basic
import Mathlib.Logic.Relation

namespace FastdlMm.FastdlServer

/-- Where a worker stands in `dispatch`: outside, before `blocked`, before `requestExceeded`, before
`resolve`, or before the `recordDenial` of `deny`, for its path or for something else. -/
inductive Stage where
  | idle
  | checking (state : RequestState)
  | limiting (state : RequestState) (checked : Int)
  | resolving (state : RequestState) (checked : Int)
  | denying (state : RequestState) (reason : Text)
  | refusing (state : RequestState) (reason : Text) (checked : Int)

/-- A request that was denied for its path. -/
structure Refusal where
  ip : Ip
  reason : Text
  checked : Int
  denied : Int

/-- The workers of libmicrohttpd in `dispatch`, and the limiter. History are the latest reading of
the clock, the refusals, and the addresses that the operator has unblocked since which reading. -/
structure Handlers where
  limiter : RateLimiter.State := {}
  stages : Nat → Stage := fun _ => .idle
  clock : Int := 0
  refused : List Refusal := []
  unblocked : List (Ip × Int) := []

inductive HandlerStep where
  | take (state : RequestState)
  /-- The call of the limiter that is next. -/
  | call (now : Int)
  | resolve (status : ResolveStatus)

/-- Why `dispatch` denies a request for what its path resolves to. -/
def refusal : ResolveStatus → Option Text
  | .outsideRoot => some (text "outside root")
  | .directoryDenied => some (text "directory not served")
  | .extensionDenied => some (text "invalid extension")
  | .invalidPath => some (text "invalid path")
  | .ok | .notFound | .notAFile | .tooLarge | .ioError => none

namespace Handlers

def setStage (s : Handlers) (w : Nat) (stage : Stage) : Handlers :=
  { s with stages := Function.update s.stages w stage }

/-- `limiter_.recordDenial` of `deny`. -/
def strike (config : DispatchConfig) (s : Handlers) (ip : Ip) (now : Int) : Handlers :=
  { s with
    limiter :=
      (RateLimiter.recordDenial s.limiter ip config.denialsPerMinute config.blockSeconds now).1
    clock := now }

/-- One step of worker `w` in `dispatch`; `none` where it cannot take it. -/
def step (config : DispatchConfig) (s : Handlers) (w : Nat) : HandlerStep → Option Handlers
  | .take state =>
      match s.stages w with
      | .idle =>
          some (s.setStage w (if state.method ≠ text "GET" ∧ state.method ≠ text "HEAD" then
            .denying state (text "invalid method") else .checking state))
      | _ => none
  | .call now =>
      match s.stages w with
      | .checking state =>
          let blocked := RateLimiter.blocked s.limiter state.ip now
          some { s.setStage w (
              if blocked.2 then .idle
              else if config.steamOnly && !steamClient state.userAgent then
                .denying state (text "non-steam client denied")
              else .limiting state now) with
            limiter := blocked.1
            clock := now }
      | .limiting state checked =>
          let exceeded :=
            RateLimiter.requestExceeded s.limiter state.ip config.requestsPerMinute now
          some { s.setStage w (
              if exceeded.2 then .idle
              else if state.invalidTarget then .refusing state (text "invalid path") checked
              else .resolving state checked) with
            limiter := exceeded.1
            clock := now }
      | .denying state _ => some ((s.setStage w .idle).strike config state.ip now)
      | .refusing state reason checked =>
          some { (s.setStage w .idle).strike config state.ip now with
            refused := ⟨state.ip, reason, checked, now⟩ :: s.refused }
      | _ => none
  | .resolve status =>
      match s.stages w with
      | .resolving state checked =>
          some (s.setStage w
            ((refusal status).elim .idle fun reason => .refusing state reason checked))
      | _ => none

/-- The clock is steady. -/
def Steady (s : Handlers) : HandlerStep → Prop
  | .call now => s.clock ≤ now
  | _ => True

/-- The runs of a server with that many workers. -/
inductive Served (threads : Nat) (config : DispatchConfig) : Handlers → Prop
  | start : Served threads config {}
  | step {s s' : Handlers} {w : Nat} (x : HandlerStep) : Served threads config s → w < threads →
      s.Steady x → s.step config w x = some s' → Served threads config s'
  | unblock {s : Handlers} (ip : Ip) : Served threads config s → Served threads config
      { s with
        limiter := (RateLimiter.unblock s.limiter ip).1
        unblocked := (ip, s.clock) :: s.unblocked }

section Stages

variable {s : Handlers} {w : Nat} {stage : Stage}

theorem stages_setStage (v : Nat) :
    (s.setStage w stage).stages v = if v = w then stage else s.stages v :=
  Function.update_apply s.stages w stage v

theorem stages_setStage_self (s : Handlers) (w : Nat) (stage : Stage) :
    (s.setStage w stage).stages w = stage :=
  (stages_setStage w).trans (if_pos rfl)

theorem setStage_setStage (stage' : Stage) :
    (s.setStage w stage).setStage w stage' = s.setStage w stage' := by
  simp only [setStage, Function.update_idem]

end Stages

section Alone

variable {config : DispatchConfig} {s s' : Handlers} {w : Nat} {state : RequestState}
  {reason : Text} {checked : Int} {su : Surroundings} {r : RateLimiter.State × Dispatched}

/-- The steps of one worker while the others wait. -/
def Alone (config : DispatchConfig) (w : Nat) : Handlers → Handlers → Prop :=
  Relation.ReflTransGen fun s s' => ∃ x, s.step config w x = some s'

/-- A worker is done with a request as `dispatch` is with `r`. -/
structure Done (w : Nat) (state : RequestState) (su : Surroundings)
    (r : RateLimiter.State × Dispatched) (s s' : Handlers) : Prop where
  limiter : s'.limiter = r.1
  stages : s'.stages = Function.update s.stages w .idle
  refused : s'.refused = s.refused ∨ ∃ reason checked,
    s'.refused = ⟨state.ip, reason, checked, su.deniedAt⟩ :: s.refused ∧
      r.2 = .ofText (state.respondText 403 (text "403 Forbidden\n") reason su.answer)

theorem Done.after {stage : Stage} {limiter : RateLimiter.State} {now : Int}
    (h : Done w state su r { s.setStage w stage with limiter := limiter, clock := now } s') :
    Done w state su r s s' where
  limiter := h.limiter
  stages := h.stages.trans (Function.update_idem _ _ _)
  refused := h.refused

theorem alone_denying (config : DispatchConfig) (su : Surroundings)
    (h : s.stages w = .denying state reason) : ∃ s', Alone config w s s' ∧
    Done w state su (deny config s.limiter state reason true su) s s' := by
  refine ⟨(s.setStage w .idle).strike config state.ip su.deniedAt,
    .single ⟨.call su.deniedAt, ?_⟩, rfl, rfl, .inl rfl⟩
  simp only [step, h]

theorem alone_refusing (config : DispatchConfig) (su : Surroundings)
    (h : s.stages w = .refusing state reason checked) :
    ∃ s', Alone config w s s' ∧
      Done w state su (deny config s.limiter state reason true su) s s' := by
  refine ⟨{ (s.setStage w .idle).strike config state.ip su.deniedAt with
      refused := ⟨state.ip, reason, checked, su.deniedAt⟩ :: s.refused },
    .single ⟨.call su.deniedAt, ?_⟩, rfl, rfl, .inr ⟨reason, checked, rfl, rfl⟩⟩
  simp only [step, h]

/-- What `dispatch` does with a request that the limiter has let through. -/
theorem alone_resolving (h : s.stages w = .resolving state checked)
    (hr : ∀ reason, refusal su.resolved = some reason →
      r = deny config s.limiter state reason true su)
    (hserved : refusal su.resolved = none → r.1 = s.limiter) :
    ∃ s', Alone config w s s' ∧ Done w state su r s s' := by
  have hresolve : s.step config w (.resolve su.resolved) = some (s.setStage w
      ((refusal su.resolved).elim .idle fun reason => .refusing state reason checked)) := by
    simp only [step, h]
  cases hreason : refusal su.resolved with
  | none =>
    rw [hreason] at hresolve
    exact ⟨_, .single ⟨_, hresolve⟩, (hserved hreason).symm, rfl, .inl rfl⟩
  | some reason =>
    rw [hreason] at hresolve
    rw [hr reason hreason]
    obtain ⟨s', hs', hdone⟩ := alone_refusing config su
      (stages_setStage_self s w (.refusing state reason checked))
    exact ⟨s', .head ⟨_, hresolve⟩ hs', hdone.after⟩

/-- A worker alone does with a request what `dispatch` does. -/
theorem alone_dispatch (hidle : s.stages w = .idle) (lib : CLibrary) (state : RequestState)
    (su : Surroundings) : ∃ s', Alone config w s s' ∧
      Done w state su (dispatch lib config s.limiter state su) s s' := by
  have htake : s.step config w (.take state) =
      some (s.setStage w (if state.method ≠ text "GET" ∧ state.method ≠ text "HEAD" then
        .denying state (text "invalid method") else .checking state)) := by
    simp only [step, hidle]
  by_cases hmethod : state.method ≠ text "GET" ∧ state.method ≠ text "HEAD"
  · rw [if_pos hmethod] at htake
    rw [dispatch, if_pos hmethod]
    obtain ⟨s', hs', hdone⟩ := alone_denying config su
      (stages_setStage_self s w (.denying state (text "invalid method")))
    exact ⟨s', .head ⟨_, htake⟩ hs', hdone.after⟩
  rw [if_neg hmethod] at htake
  generalize hb : RateLimiter.blocked s.limiter state.ip su.blockedAt = b
  have hcheck : (s.setStage w (.checking state)).step config w (.call su.blockedAt) =
      some { s.setStage w (
          if b.2 then .idle
          else if config.steamOnly && !steamClient state.userAgent then
            .denying state (text "non-steam client denied")
          else .limiting state su.blockedAt) with
        limiter := b.1
        clock := su.blockedAt } := by
    simp only [step, stages_setStage_self, ← hb, setStage_setStage]
    rfl
  generalize he :
    RateLimiter.requestExceeded b.1 state.ip config.requestsPerMinute su.exceededAt = e
  have hcount : step config { s.setStage w (.limiting state su.blockedAt) with
      limiter := b.1
      clock := su.blockedAt } w (.call su.exceededAt) =
        some { s.setStage w (
            if e.2 then .idle
            else if state.invalidTarget then .refusing state (text "invalid path") su.blockedAt
            else .resolving state su.blockedAt) with
          limiter := e.1
          clock := su.exceededAt } := by
    simp only [step, stages_setStage_self, ← he]
    simp only [setStage, Function.update_idem]
  simp only [dispatch, if_neg hmethod, hb, he]
  by_cases hblocked : b.2 = true
  · rw [if_pos hblocked] at hcheck ⊢
    exact ⟨_, .head ⟨_, htake⟩ (.single ⟨_, hcheck⟩), rfl, rfl, .inl rfl⟩
  rw [if_neg hblocked] at hcheck ⊢
  by_cases hsteam : (config.steamOnly && !steamClient state.userAgent) = true
  · rw [if_pos hsteam] at hcheck ⊢
    obtain ⟨s', hs', hdone⟩ := alone_denying config su (s := {
      s.setStage w (.denying state (text "non-steam client denied")) with
        limiter := b.1
        clock := su.blockedAt }) (stages_setStage_self s w _)
    exact ⟨s', .head ⟨_, htake⟩ (.head ⟨_, hcheck⟩ hs'), hdone.after⟩
  rw [if_neg hsteam] at hcheck ⊢
  have hbefore : Alone config w s _ := .head ⟨_, htake⟩ (.single ⟨_, hcheck⟩)
  by_cases hexceeded : e.2 = true
  · rw [if_pos hexceeded] at hcount ⊢
    exact ⟨_, hbefore.tail ⟨_, hcount⟩, rfl, rfl, .inl rfl⟩
  rw [if_neg hexceeded] at hcount ⊢
  by_cases hinvalid : state.invalidTarget = true
  · rw [if_pos hinvalid] at hcount ⊢
    obtain ⟨s', hs', hdone⟩ := alone_refusing config su (s := {
      s.setStage w (.refusing state (text "invalid path") su.blockedAt) with
        limiter := e.1
        clock := su.exceededAt }) (stages_setStage_self s w _)
    exact ⟨s', (hbefore.tail ⟨_, hcount⟩).trans hs', hdone.after⟩
  rw [if_neg hinvalid] at hcount ⊢
  have hafter {r : RateLimiter.State × Dispatched}
      (hr : ∀ reason, refusal su.resolved = some reason → r = deny config e.1 state reason true su)
      (hserved : refusal su.resolved = none → r.1 = e.1) :
      ∃ s', Alone config w s s' ∧ Done w state su r s s' := by
    obtain ⟨s', hs', hdone⟩ := alone_resolving (s := {
      s.setStage w (.resolving state su.blockedAt) with
        limiter := e.1
        clock := su.exceededAt }) (stages_setStage_self s w _) hr hserved
    exact ⟨s', (hbefore.tail ⟨_, hcount⟩).trans hs', hdone.after⟩
  cases hstatus : su.resolved with
  | ok =>
    refine hafter (fun reason h => ?_) fun _ => ?_
    · rw [hstatus] at h
      cases h
    · dsimp only
      split <;> rfl
  | notFound | notAFile | tooLarge | ioError =>
    refine hafter (fun reason h => ?_) fun _ => rfl
    rw [hstatus] at h
    cases h
  | outsideRoot | directoryDenied | extensionDenied | invalidPath =>
    refine hafter (fun reason h => ?_) fun h => ?_
    · rw [hstatus] at h
      cases h
      rfl
    · rw [hstatus] at h
      cases h

end Alone

end Handlers
end FastdlMm.FastdlServer
