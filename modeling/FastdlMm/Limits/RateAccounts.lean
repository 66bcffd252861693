import FastdlMm.Limits.RateBlocks

namespace FastdlMm.RateLimiter

/-- What an address has coming by its own calls alone: a limiter for nobody else, which forgets
nothing and has no bounds. -/
structure Account where
  admitted : List Int := []
  denied : List Int := []
  blockedUntil : Int := 0

namespace Account

def requestExceeded (a : Account) (limit : Nat) (now : Int) : Account × Bool :=
  if limit ≤ (lastMinute now a.admitted).length then (a, true)
  else ({ a with admitted := a.admitted ++ [now] }, false)

def recordDenial (a : Account) (limit blockSeconds : Nat) (now : Int) : Account × DenialOutcome :=
  if limit ≤ (lastMinute now a.denied).length + 1 then
    ({ a with denied := [], blockedUntil := now + seconds blockSeconds }, .triggered)
  else ({ a with denied := a.denied ++ [now] }, .recorded)

def answer (a : Account) (now : Int) : Call → Account × Reply
  | .blocked _ => (a, .flag (decide (now < a.blockedUntil)))
  | .requestExceeded _ limit =>
      ((a.requestExceeded limit now).1, .flag (a.requestExceeded limit now).2)
  | .recordDenial _ limit blockSeconds =>
      ((a.recordDenial limit blockSeconds now).1, .denial (a.recordDenial limit blockSeconds now).2)
  | .unblock _ | .clear => ({}, .done)

end Account

/-- The call is about the address. -/
def Call.names (ip : Ip) : Call → Bool
  | .blocked ip' | .requestExceeded ip' _ | .recordDenial ip' _ _ | .unblock ip' =>
      decide (ip' = ip)
  | .clear => true

/-- The reply that counts. That of `unblock` only says whether the table still had an entry. -/
def Record.told (r : Record) : Reply :=
  match r.call with
  | .unblock _ => .done
  | _ => r.reply

section Own

variable (ip : Ip)

def ownCalls (h : List Record) : List (Int × Call) :=
  (h.filter fun r => r.call.names ip).map fun r => (r.now, r.call)

def ownReplies (h : List Record) : List Reply :=
  (h.filter fun r => r.call.names ip).map Record.told

/-- The account after some calls, newest first, and its replies to them. -/
def account (calls : List (Int × Call)) : Account :=
  calls.foldr (fun x a => (a.answer x.1 x.2).1) {}

def replies : List (Int × Call) → List Reply
  | [] => []
  | x :: calls => ((account calls).answer x.1 x.2).2 :: replies calls

/-- A call that counts for the address finds room in the table and among the events. -/
def Spacious (s : State) (now : Int) : Call → Prop
  | .requestExceeded ip' limit =>
      ip' = ip → 1 ≤ limit → Trackable s ip now ∧ eventsAfterRequestTrim s ip now < kMaximumEvents
  | .recordDenial ip' _ _ =>
      ip' = ip → Trackable s ip now ∧ eventsAfterDenialTrim s ip now < kMaximumEvents
  | _ => True

/-- A run in which the address is never turned away for want of room. -/
inductive SpaciousRun : State → List Record → Int → Prop
  | start : SpaciousRun {} [] 0
  | call {s : State} {h : List Record} {t : Int} (now : Int) (c : Call) :
      SpaciousRun s h t → t ≤ now → Spacious ip s now c →
        SpaciousRun (perform s now c).1 (⟨now, c, (perform s now c).2⟩ :: h) now

end Own

/-- The entry of an address replies as its account does from `t` on. -/
structure Reflects (t : Int) (c : Client) (a : Account) : Prop where
  agrees : Agrees t a.admitted a.denied c
  admitted : ∀ v ∈ a.admitted, v ≤ t
  denied : ∀ v ∈ a.denied, v ≤ t
  blocks : ∀ u, t ≤ u → (u < c.blockedUntil ↔ u < a.blockedUntil)

namespace Reflects

variable {t now : Int} {c c' : Client} {a : Account}

theorem fresh : Reflects t {} {} :=
  ⟨Agrees.fresh, by simp, by simp, fun _ _ => Iff.rfl⟩

theorem advance (h : Reflects t c a) (ht : t ≤ now) : Reflects now c a where
  agrees := h.agrees.advance ht
  admitted := fun v hv => (h.admitted v hv).trans ht
  denied := fun v hv => (h.denied v hv).trans ht
  blocks := fun u hu => h.blocks u (ht.trans hu)

/-- An entry is only dropped once its block is over. -/
theorem evict (h : Reflects now c a) (hn : 0 ≤ now) (he : Evicts now c c') :
    Reflects now c' a where
  agrees := h.agrees.evict he
  admitted := h.admitted
  denied := h.denied
  blocks := by
    obtain rfl | ⟨rfl, hst⟩ := he
    · exact h.blocks
    · intro u hu
      have hover : c.blockedUntil ≤ now := by
        simp only [stale, Bool.and_eq_true, decide_eq_true_eq] at hst
        exact hst.2
      have hzero : ({} : Client).blockedUntil = 0 := rfl
      rw [← h.blocks u hu, hzero]
      constructor <;> intro hlt <;> omega

theorem requests_length (h : Reflects now c a) :
    (trim c.requests (now - minutes 1)).1.length = (lastMinute now a.admitted).length := by
  rw [Agrees.trim_eq h.agrees.requests, lastMinute_eq_after h.admitted,
    h.agrees.requests.length_after]

theorem denials_length (h : Reflects now c a) :
    (trim c.denials (now - minutes 1)).1.length = (lastMinute now a.denied).length := by
  rw [Agrees.trim_eq h.agrees.denials, lastMinute_eq_after h.denied, h.agrees.denials.length_after]

theorem le_append {log : List Int} (h : ∀ v ∈ log, v ≤ now) : ∀ v ∈ log ++ [now], v ≤ now := by
  intro v hv
  obtain hv | hv := List.mem_append.mp hv
  · exact h v hv
  · exact (List.mem_singleton.mp hv).le

end Reflects

section Steps

variable {s : State} {ip : Ip} {now : Int} {a : Account}

/-- What a call about another address does to the entry. -/
theorem view_perform_ne {c : Call} (h : c.names ip = false) :
    Evicts now (view s ip) (view (perform s now c).1 ip) := by
  cases c with
  | blocked ip' => exact view_cleanup s now false ip
  | requestExceeded ip' limit =>
    exact view_requestExceeded_ne s limit now (Ne.symm (of_decide_eq_false h))
  | recordDenial ip' limit blockSeconds =>
    exact view_recordDenial_ne s limit blockSeconds now (Ne.symm (of_decide_eq_false h))
  | unblock ip' =>
    rw [perform, view_unblock, if_neg (Ne.symm (of_decide_eq_false h))]
    exact .inl rfl
  | clear => cases h

theorem requestExceeded_account (hr : Reflects now (view s ip) a) (hn : 0 ≤ now) (limit : Nat)
    (hroom : Spacious ip s now (.requestExceeded ip limit)) :
    (requestExceeded s ip limit now).2 = (a.requestExceeded limit now).2 ∧
      Reflects now (view (requestExceeded s ip limit now).1 ip)
        (a.requestExceeded limit now).1 := by
  have harrive := hr.evict hn (view_arrive s ip ip now)
  have hreply : (requestExceeded s ip limit now).2 = (a.requestExceeded limit now).2 := by
    obtain rfl | hl := Nat.eq_zero_or_pos limit
    · simp [requestExceeded, Account.requestExceeded]
    · obtain ⟨htrack, hevents⟩ := hroom rfl hl
      obtain ⟨c, hc⟩ := Option.isSome_iff_exists.mp ((arrive_isSome s ip now).mpr htrack)
      have hiff := requestExceeded_eq_false_iff s ip limit now hl
      rw [eventsAfterRequestTrim, arrive_client hc] at hevents
      rw [arrive_client hc] at harrive
      simp only [hc, Option.some.injEq, exists_eq_left', harrive.requests_length, hevents,
        true_and] at hiff
      rw [Account.requestExceeded]
      split_ifs with hfull
      · exact Bool.eq_true_of_not_eq_false (fun h => absurd (hiff.mp h) (not_lt.mpr hfull))
      · exact hiff.mpr (not_le.mp hfull)
  refine ⟨hreply, ?_⟩
  obtain ⟨c, he, hc⟩ := view_requestExceeded s ip limit now
  have hev := hr.evict hn he
  rw [hreply] at hc
  rw [Account.requestExceeded] at hc ⊢
  split_ifs at hc ⊢ with hfull
  · obtain ⟨hfalse, -⟩ | ⟨-, hview⟩ := hc
    · cases hfalse
    · obtain hview | hview := hview
      · rw [hview]
        exact hev
      · rw [hview]
        exact ⟨hev.agrees.reject, hev.admitted, hev.denied, hev.blocks⟩
  · obtain ⟨-, hview⟩ | ⟨hfalse, -⟩ := hc
    · rw [hview]
      exact ⟨hev.agrees.letThrough, Reflects.le_append hev.admitted, hev.denied, hev.blocks⟩
    · cases hfalse

theorem recordDenial_account (hr : Reflects now (view s ip) a) (hn : 0 ≤ now)
    (limit blockSeconds : Nat) (hroom : Spacious ip s now (.recordDenial ip limit blockSeconds)) :
    (recordDenial s ip limit blockSeconds now).2 = (a.recordDenial limit blockSeconds now).2 ∧
      Reflects now (view (recordDenial s ip limit blockSeconds now).1 ip)
        (a.recordDenial limit blockSeconds now).1 := by
  have harrive := hr.evict hn (view_arrive s ip ip now)
  obtain ⟨htrack, hevents⟩ := hroom rfl
  obtain ⟨c, hc⟩ := Option.isSome_iff_exists.mp ((arrive_isSome s ip now).mpr htrack)
  have hiff := recordDenial_triggered_iff s ip limit blockSeconds now
  rw [eventsAfterDenialTrim, arrive_client hc] at hevents
  rw [arrive_client hc] at harrive
  simp only [hc, Option.some.injEq, exists_eq_left', harrive.denials_length,
    not_le.mpr hevents, false_or] at hiff
  have htracked : (recordDenial s ip limit blockSeconds now).2 ≠ .untracked := by
    unfold recordDenial
    simp only
    rw [← arrive]
    generalize arrive s ip now = r at hc
    obtain ⟨s', client⟩ := r
    obtain rfl : client = some c := hc
    simp only
    split_ifs <;> simp
  have hreply : (recordDenial s ip limit blockSeconds now).2 =
      (a.recordDenial limit blockSeconds now).2 := by
    rw [Account.recordDenial]
    split_ifs with hfull
    · exact hiff.mpr hfull
    · cases hout : (recordDenial s ip limit blockSeconds now).2 with
      | untracked => exact absurd hout htracked
      | recorded => rfl
      | triggered => exact absurd (hiff.mp hout) hfull
  refine ⟨hreply, ?_⟩
  obtain ⟨c, he, hview⟩ := view_recordDenial s ip limit blockSeconds now
  have hev := hr.evict hn he
  rw [hreply] at hview
  rw [Account.recordDenial] at hview ⊢
  split_ifs at hview ⊢ with hfull
  · rw [show view _ ip = _ from hview]
    exact ⟨hev.agrees.trigger _, hev.admitted, by simp, fun _ _ => Iff.rfl⟩
  · rw [show view _ ip = _ from hview]
    exact ⟨hev.agrees.note, hev.admitted, Reflects.le_append hev.denied, hev.blocks⟩

/-- A call about the address is answered as its account answers it. -/
theorem perform_account (hr : Reflects now (view s ip) a) (hn : 0 ≤ now) {c : Call}
    (hnames : c.names ip = true) (hroom : Spacious ip s now c) :
    Record.told ⟨now, c, (perform s now c).2⟩ = (a.answer now c).2 ∧
      Reflects now (view (perform s now c).1 ip) (a.answer now c).1 := by
  cases c with
  | blocked ip' =>
    obtain rfl := of_decide_eq_true hnames
    have hev := hr.evict hn (view_cleanup s now false ip')
    refine ⟨congrArg Reply.flag (Bool.eq_iff_iff.mpr ?_), hev⟩
    rw [blocked_iff_view s ip' now hn, hev.blocks now le_rfl, decide_eq_true_eq]
  | requestExceeded ip' limit =>
    obtain rfl := of_decide_eq_true hnames
    obtain ⟨hreply, hkept⟩ := requestExceeded_account hr hn limit hroom
    exact ⟨congrArg Reply.flag hreply, hkept⟩
  | recordDenial ip' limit blockSeconds =>
    obtain rfl := of_decide_eq_true hnames
    obtain ⟨hreply, hkept⟩ := recordDenial_account hr hn limit blockSeconds hroom
    exact ⟨congrArg Reply.denial hreply, hkept⟩
  | unblock ip' =>
    obtain rfl := of_decide_eq_true hnames
    refine ⟨rfl, ?_⟩
    rw [perform, view_unblock, if_pos rfl]
    exact Reflects.fresh
  | clear => exact ⟨rfl, Reflects.fresh⟩

end Steps

section Runs

variable {ip : Ip} {s s' : State} {h h' : List Record} {t t' : Int}

theorem SpaciousRun.nonneg (hr : SpaciousRun ip s h t) : 0 ≤ t := by
  induction hr with
  | start => exact le_rfl
  | call now c _ ht _ ih => exact ih.trans ht

/-- The table is as good as an account for the address: whoever else calls, its entry reflects the
account, and its own calls were answered as the account answers them. -/
theorem SpaciousRun.reflects (hr : SpaciousRun ip s h t) :
    Reflects t (view s ip) (account (ownCalls ip h)) ∧
      ownReplies ip h = replies (ownCalls ip h) := by
  induction hr with
  | start => exact ⟨Reflects.fresh, rfl⟩
  | @call s h t now c hr ht hroom ih =>
    obtain ⟨hreflects, hreplies⟩ := ih
    have hnow := hreflects.advance ht
    have hn : 0 ≤ now := hr.nonneg.trans ht
    cases hnames : c.names ip with
    | true =>
      obtain ⟨hreply, hkept⟩ := perform_account hnow hn hnames hroom
      have hcalls : ownCalls ip (⟨now, c, (perform s now c).2⟩ :: h) = (now, c) :: ownCalls ip h := by
        simp [ownCalls, hnames]
      have hown : ownReplies ip (⟨now, c, (perform s now c).2⟩ :: h) =
          Record.told ⟨now, c, (perform s now c).2⟩ :: ownReplies ip h := by
        simp [ownReplies, hnames]
      rw [hcalls, hown, hreply, hreplies]
      exact ⟨hkept, rfl⟩
    | false =>
      have hcalls : ownCalls ip (⟨now, c, (perform s now c).2⟩ :: h) = ownCalls ip h := by
        simp [ownCalls, hnames]
      have hown : ownReplies ip (⟨now, c, (perform s now c).2⟩ :: h) = ownReplies ip h := by
        simp [ownReplies, hnames]
      rw [hcalls, hown]
      exact ⟨hnow.evict hn (view_perform_ne hnames), hreplies⟩

/-- Addresses do not disturb each other: as long as an address is not turned away for want of room,
whatever the others do, and whenever the table is cleaned, it gets the replies that its own calls
get it. -/
theorem replies_undisturbed (hr : SpaciousRun ip s h t) (hr' : SpaciousRun ip s' h' t')
    (hown : ownCalls ip h = ownCalls ip h') : ownReplies ip h = ownReplies ip h' := by
  rw [hr.reflects.2, hr'.reflects.2, hown]

end Runs

/-- The calls of a run, newest first, with their replies. -/
def performed : List (Int × Call) → State × List Record
  | [] => ({}, [])
  | (now, c) :: calls =>
      ((perform (performed calls).1 now c).1,
        ⟨now, c, (perform (performed calls).1 now c).2⟩ :: (performed calls).2)

/-- Another address fills its own window, and a quarter of an hour later makes the table forget the
first one. -/
theorem replies_undisturbed_cleanup :
    ownReplies ['a'] (performed [(1000000000006, .requestExceeded ['a'] 1),
      (1000000000005, .blocked ['b']), (4, .requestExceeded ['b'] 1),
      (3, .requestExceeded ['a'] 1)]).2 =
    ownReplies ['a'] (performed [(1000000000006, .requestExceeded ['a'] 1),
      (3, .requestExceeded ['a'] 1)]).2 := by
  have hstart : SpaciousRun ['a'] {} [] 0 := .start
  have hfirst := hstart.call 3 (.requestExceeded ['a'] 1) (by decide)
    fun _ _ => ⟨.inr (by decide), by decide⟩
  have hother := (hfirst.call 4 (.requestExceeded ['b'] 1) (by decide)
    fun h => absurd h (by decide)).call 1000000000005 (.blocked ['b']) (by decide) trivial
  exact replies_undisturbed
    (hother.call 1000000000006 (.requestExceeded ['a'] 1) (by decide)
      fun _ _ => ⟨.inr (by decide), by decide⟩)
    (hfirst.call 1000000000006 (.requestExceeded ['a'] 1) (by decide)
      fun _ _ => ⟨.inr (by decide), by decide⟩) rfl

end FastdlMm.RateLimiter
