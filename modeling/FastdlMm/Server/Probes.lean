import FastdlMm.Limits.RateEntries
import FastdlMm.Server.DispatchWorkers
import Mathlib.Data.Finset.Card
import Mathlib.Data.Finset.Range

namespace FastdlMm.FastdlServer

open RateLimiter (minutes seconds)

namespace Stage

/-- When the request of a worker was found not to be blocked. -/
def checked : Stage → Option (Ip × Int)
  | .limiting state checked | .resolving state checked | .refusing state _ checked =>
      some (state.ip, checked)
  | .idle | .checking _ | .denying _ _ => none

/-- The limiter has counted the request. -/
def counted : Stage → Bool
  | .resolving _ _ | .refusing _ _ _ => true
  | .idle | .checking _ | .limiting _ _ | .denying _ _ => false

/-- The request may still become one of the probes. -/
def Pends (ip : Ip) (first : Int) (stage : Stage) : Prop :=
  ∃ checked, stage.checked = some (ip, checked) ∧ first ≤ checked

instance (ip : Ip) (first : Int) (stage : Stage) : Decidable (stage.Pends ip first) :=
  decidable_of_iff (stage.checked.any fun x => decide (x.1 = ip ∧ first ≤ x.2)) <| by
    rw [Option.any_eq_true]
    simp [Pends]

end Stage

namespace Handlers

/-- The refusals of an address between two times: the request had asked whether it is blocked, and
was refused. -/
def probes (s : Handlers) (ip : Ip) (first last : Int) : List Refusal :=
  s.refused.filter fun r => decide (r.ip = ip ∧ first ≤ r.checked ∧ r.denied ≤ last)

/-- The workers whose request may still become a probe. -/
def pending (s : Handlers) (threads : Nat) (ip : Ip) (first : Int) : Finset Nat :=
  (Finset.range threads).filter fun w => (s.stages w).Pends ip first

section Pending

variable {s : Handlers} {threads : Nat} {ip : Ip} {first : Int} {w : Nat} {stage : Stage}

theorem pending_setStage (h : stage.Pends ip first → (s.stages w).Pends ip first) :
    (s.setStage w stage).pending threads ip first ⊆ s.pending threads ip first := by
  intro v hv
  obtain ⟨hlt, hpends⟩ := Finset.mem_filter.mp hv
  refine Finset.mem_filter.mpr ⟨hlt, ?_⟩
  rw [stages_setStage] at hpends
  split_ifs at hpends with heq
  · exact heq ▸ h hpends
  · exact hpends

theorem pending_idle (hw : w < threads) (h : (s.stages w).Pends ip first) :
    ((s.setStage w .idle).pending threads ip first).card + 1 ≤
      (s.pending threads ip first).card := by
  refine Finset.card_lt_card ((Finset.ssubset_iff_of_subset (pending_setStage fun _ => h)).mpr
    ⟨w, Finset.mem_filter.mpr ⟨Finset.mem_range.mpr hw, h⟩, fun hmem => ?_⟩)
  obtain ⟨checked, hchecked, -⟩ := (Finset.mem_filter.mp hmem).2
  rw [stages_setStage, if_pos rfl] at hchecked
  cases hchecked

theorem pending_lt (hw : w < threads) (h : ¬ (s.stages w).Pends ip first) :
    (s.pending threads ip first).card < threads := by
  have hlt := Finset.card_lt_card (Finset.filter_ssubset.mpr
    ⟨w, Finset.mem_range.mpr hw, h⟩ : s.pending threads ip first ⊂ Finset.range threads)
  rwa [Finset.card_range] at hlt

end Pending

section Window

open RateLimiter (Seen Evicts Client view stale)

variable (threads : Nat) (config : DispatchConfig) (ip : Ip) (first last : Int)

/-- What the entry of an address owes to its probes: it remembers them all, or blocks the address
until the window is over. -/
def Struck (probes pending : Nat) (clock : Int) (c : Client) : Prop :=
  (probes ≤ c.denials.countP (fun v => decide (first ≤ v)) ∧
      probes < max config.denialsPerMinute 1) ∨
    (first ≤ clock ∧ last < c.blockedUntil ∧
      probes + pending < max config.denialsPerMinute 1 + threads)

variable {threads config ip first last}

namespace Struck

variable {probes pending pending' : Nat} {clock now : Int} {c c' : Client}
  {limiter : RateLimiter.State}

theorem evict (h : Struck threads config first last probes pending clock c)
    (hkept : 0 < probes → stale now c = false) (hlast : now ≤ last) (he : Evicts now c c') :
    Struck threads config first last probes pending clock c' := by
  obtain rfl | ⟨rfl, hst⟩ := he
  · exact h
  · obtain ⟨-, hfew⟩ | ⟨-, hblock, -⟩ := h
    · obtain rfl | hpos := Nat.eq_zero_or_pos probes
      · exact .inl ⟨Nat.zero_le _, hfew⟩
      · rw [hkept hpos] at hst
        cases hst
    · have hover : c.blockedUntil ≤ now := by
        simp only [stale, Bool.and_eq_true, decide_eq_true_eq] at hst
        exact hst.2
      omega

theorem later (h : Struck threads config first last probes pending clock c) (hnow : clock ≤ now)
    (hpending : last < c.blockedUntil → pending' ≤ pending) (hdenials : c'.denials = c.denials)
    (hblock : c'.blockedUntil = c.blockedUntil) :
    Struck threads config first last probes pending' now c' := by
  rw [Struck, hdenials, hblock]
  obtain hfew | ⟨hfirst, hblocked, hbound⟩ := h
  · exact .inl hfew
  · have hle := hpending hblocked
    exact .inr ⟨hfirst.trans hnow, hblocked, by omega⟩

/-- A denial of anybody that is not a probe. -/
theorem strike (h : Struck threads config first last probes pending clock (view limiter ip))
    (hminute : last < first + minutes 1) (hblock : last < first + seconds config.blockSeconds)
    (hkept : 0 < probes → stale now (view limiter ip) = false) (hnow : clock ≤ now)
    (hlast : now ≤ last) (hpast : 0 < probes → first ≤ now) (hpending : pending' ≤ pending)
    (hfree : pending' < threads) (ip' : Ip) :
    Struck threads config first last probes pending' now
      (view (RateLimiter.recordDenial limiter ip' config.denialsPerMinute config.blockSeconds
        now).1 ip) := by
  obtain rfl | hne := eq_or_ne ip ip'
  · obtain ⟨c, he, hview⟩ := RateLimiter.view_recordDenial limiter ip config.denialsPerMinute
      config.blockSeconds now
    have hc := h.evict hkept hlast he
    cases hout : (RateLimiter.recordDenial limiter ip config.denialsPerMinute config.blockSeconds
      now).2 with
    | untracked =>
      rw [hout] at hview
      rw [show view _ ip = c from hview]
      exact hc.later hnow (fun _ => hpending) rfl rfl
    | recorded =>
      rw [hout] at hview
      rw [show view _ ip = _ from hview]
      have hold := RateLimiter.countP_trim c.denials (show now - minutes 1 < first by omega)
      obtain ⟨hcount, hfew⟩ | ⟨hfirst, hblocked, hbound⟩ := hc
      · refine .inl ⟨?_, hfew⟩
        rw [List.countP_append, hold]
        exact hcount.trans (Nat.le_add_right _ _)
      · exact .inr ⟨hfirst.trans hnow, hblocked, by omega⟩
    | triggered =>
      rw [hout] at hview
      rw [show view _ ip = _ from hview]
      obtain ⟨-, hfew⟩ | ⟨hfirst, -, hbound⟩ := hc
      · by_cases hfirst : first ≤ now
        · exact .inr ⟨hfirst, by dsimp only; omega, by omega⟩
        · obtain rfl : probes = 0 := Nat.eq_zero_of_not_pos fun hpos => hfirst (hpast hpos)
          exact .inl ⟨Nat.zero_le _, hfew⟩
      · exact .inr ⟨hfirst.trans hnow, by dsimp only; omega, by omega⟩
  · exact (h.evict hkept hlast (RateLimiter.view_recordDenial_ne limiter _ _ now hne)).later hnow
      (fun _ => hpending) rfl rfl

/-- One more probe. -/
theorem probe (h : Struck threads config first last probes pending clock (view limiter ip))
    (hminute : last < first + minutes 1) (hblock : last < first + seconds config.blockSeconds)
    (hseen : Seen limiter ip first) (hnow : clock ≤ now) (hlast : now ≤ last)
    (hpast : first ≤ now) (hpending : pending' + 1 ≤ pending) (hfree : pending' < threads) :
    Struck threads config first last (probes + 1) pending' now
      (view (RateLimiter.recordDenial limiter ip config.denialsPerMinute config.blockSeconds
        now).1 ip) := by
  have hquarter : now < first + minutes 15 := by
    simp only [minutes, seconds] at hminute ⊢
    omega
  obtain ⟨c, he, hview⟩ := RateLimiter.view_recordDenial limiter ip config.denialsPerMinute
    config.blockSeconds now
  have hc := h.evict (fun _ => hseen.stale_view hquarter) hlast he
  cases hout : (RateLimiter.recordDenial limiter ip config.denialsPerMinute config.blockSeconds
    now).2 with
  | untracked => exact absurd hout (RateLimiter.recordDenial_tracked (hseen.found hquarter))
  | recorded =>
    have hlt := RateLimiter.denials_lt hout
    rw [hout] at hview
    rw [show view _ ip = _ from hview] at hlt ⊢
    have hold := RateLimiter.countP_trim c.denials (show now - minutes 1 < first by omega)
    obtain ⟨hcount, -⟩ | ⟨hfirst, hblocked, hbound⟩ := hc
    · have hone : probes + 1 ≤ ((RateLimiter.trim c.denials (now - minutes 1)).1 ++ [now]).countP
          fun v => decide (first ≤ v) := by
        rw [List.countP_append, hold, List.countP_singleton, if_pos (decide_eq_true hpast)]
        omega
      have hlength := hone.trans List.countP_le_length
      exact .inl ⟨hone, by dsimp only at hlt; omega⟩
    · exact .inr ⟨hfirst.trans hnow, hblocked, by omega⟩
  | triggered =>
    rw [hout] at hview
    rw [show view _ ip = _ from hview]
    refine .inr ⟨hpast, by dsimp only; omega, ?_⟩
    obtain ⟨-, hfew⟩ | ⟨-, -, hbound⟩ := hc
    · omega
    · omega

end Struck

end Window

section Guard

open RateLimiter (Seen view)

variable {threads : Nat} {config : DispatchConfig} {ip : Ip} {first last : Int}
  {s s' : Handlers} {w : Nat}

/-- No worker has seen a reading after the latest one. -/
structure Past (s : Handlers) : Prop where
  epoch : 0 ≤ s.clock
  stages : ∀ w ip checked, (s.stages w).checked = some (ip, checked) → checked ≤ s.clock
  refused : ∀ r ∈ s.refused, r.checked ≤ s.clock ∧ r.denied ≤ s.clock

theorem Past.setStage (h : s.Past) {stage : Stage} {limiter : RateLimiter.State} {now : Int}
    {refused : List Refusal} (hnow : s.clock ≤ now)
    (hstage : ∀ ip checked, stage.checked = some (ip, checked) → checked ≤ now)
    (hrefused : ∀ r ∈ refused, r ∈ s.refused ∨ (r.checked ≤ now ∧ r.denied ≤ now)) :
    Past { s.setStage w stage with limiter := limiter, clock := now, refused := refused } where
  epoch := h.epoch.trans hnow
  stages := fun v ip checked hv => by
    have hv' : ((s.setStage w stage).stages v).checked = some (ip, checked) := hv
    rw [stages_setStage] at hv'
    split_ifs at hv'
    · exact hstage ip checked hv'
    · exact (h.stages v ip checked hv').trans hnow
  refused := fun r hr => by
    obtain hr | hr := hrefused r hr
    · exact ⟨(h.refused r hr).1.trans hnow, (h.refused r hr).2.trans hnow⟩
    · exact hr

theorem Past.step (h : s.Past) {x : HandlerStep} (hsteady : s.Steady x)
    (hx : s.step config w x = some s') : s'.Past := by
  cases x with
  | take state =>
    simp only [Handlers.step] at hx
    split at hx
    · cases hx
      refine h.setStage le_rfl (fun ip checked hc => ?_) fun r hr => .inl hr
      split_ifs at hc
      · cases hc
      · cases hc
    · cases hx
  | call now =>
    have hnow : s.clock ≤ now := hsteady
    simp only [Handlers.step] at hx
    split at hx
    · cases hx
      refine h.setStage hnow (fun ip checked hc => ?_) fun r hr => .inl hr
      split_ifs at hc
      · cases hc
      · cases hc
      · cases hc
        exact le_rfl
    · rename_i state checked hstage
      have hpast := (h.stages w state.ip checked (by rw [hstage]; rfl)).trans hnow
      cases hx
      refine h.setStage hnow (fun ip checked hc => ?_) fun r hr => .inl hr
      split_ifs at hc
      · cases hc
      · cases hc
        exact hpast
      · cases hc
        exact hpast
    · cases hx
      exact h.setStage hnow (fun ip checked hc => by cases hc) fun r hr => .inl hr
    · rename_i state reason checked hstage
      have hpast := (h.stages w state.ip checked (by rw [hstage]; rfl)).trans hnow
      cases hx
      refine h.setStage hnow (fun ip checked hc => by cases hc) fun r hr => ?_
      obtain rfl | hr := List.mem_cons.mp hr
      · exact .inr ⟨hpast, le_rfl⟩
      · exact .inl hr
    · cases hx
  | resolve status =>
    simp only [Handlers.step] at hx
    split at hx
    · rename_i state checked hstage
      have hpast := h.stages w state.ip checked (by rw [hstage]; rfl)
      cases hx
      refine h.setStage le_rfl (fun ip checked hc => ?_) fun r hr => .inl hr
      cases hreason : refusal status with
      | none =>
        rw [hreason] at hc
        cases hc
      | some reason =>
        rw [hreason] at hc
        cases hc
        exact hpast
    · cases hx

theorem Served.past (hr : Served threads config s) : s.Past := by
  induction hr with
  | start => exact ⟨le_rfl, fun _ _ _ hc => (by cases hc), fun _ hr => (by cases hr)⟩
  | step x _ _ hsteady hx ih => exact ih.step hsteady hx
  | unblock ip _ ih => exact ⟨ih.epoch, ih.stages, ih.refused⟩

variable (threads config ip first last) in
/-- The invariant of a window, as long as it lasts and the operator does not interfere: a request
that the limiter has counted, or a probe, has an entry in the table, which answers for the
probes. -/
structure Guarded (s : Handlers) : Prop where
  seen : ((∃ w, (s.stages w).counted = true ∧ (s.stages w).Pends ip first) ∨
    s.probes ip first last ≠ []) → Seen s.limiter ip first
  struck : Struck threads config first last (s.probes ip first last).length
    (s.pending threads ip first).card s.clock (view s.limiter ip)

theorem Guarded.kept (h : Guarded threads config ip first last s) {now : Int}
    (hnow : now < first + minutes 15) (hpos : 0 < (s.probes ip first last).length) :
    RateLimiter.stale now (view s.limiter ip) = false :=
  (h.seen (.inr (List.ne_nil_of_length_pos hpos))).stale_view hnow

theorem first_le_of_pends (hpast : s.Past) (h : (s.stages w).Pends ip first) : first ≤ s.clock := by
  obtain ⟨checked, hchecked, hfirst⟩ := h
  exact hfirst.trans (hpast.stages w ip checked hchecked)

theorem first_le_of_probes (hpast : s.Past) (h : s.probes ip first last ≠ []) :
    first ≤ s.clock := by
  obtain ⟨r, hr⟩ := List.exists_mem_of_ne_nil _ h
  obtain ⟨hmem, hprobe⟩ := List.mem_filter.mp hr
  exact (of_decide_eq_true hprobe).2.1.trans (hpast.refused r hmem).1

/-- A worker moves on in a call of the limiter that leaves the denials and the blocks. -/
theorem Guarded.moved (h : Guarded threads config ip first last s) (hpast : s.Past)
    {stage : Stage} {limiter : RateLimiter.State} {now : Int} (hnow : s.clock ≤ now)
    (hseen : first ≤ now → Seen s.limiter ip first → Seen limiter ip first)
    (hcounted : stage.counted = true → stage.Pends ip first → Seen limiter ip first)
    (hpends : last < (view limiter ip).blockedUntil → stage.Pends ip first →
      (s.stages w).Pends ip first)
    (hstruck : Struck threads config first last (s.probes ip first last).length
      (s.pending threads ip first).card s.clock (view limiter ip)) :
    Guarded threads config ip first last
      { s.setStage w stage with limiter := limiter, clock := now } where
  seen := fun hsome => by
    obtain ⟨v, hv, hvpends⟩ | hprobes := hsome
    · have hv' : ((s.setStage w stage).stages v).counted = true := hv
      have hvpends' : ((s.setStage w stage).stages v).Pends ip first := hvpends
      rw [stages_setStage] at hv' hvpends'
      split_ifs at hv' hvpends'
      · exact hcounted hv' hvpends'
      · exact hseen ((first_le_of_pends hpast hvpends').trans hnow)
          (h.seen (.inl ⟨v, hv', hvpends'⟩))
    · exact hseen ((first_le_of_probes hpast hprobes).trans hnow) (h.seen (.inr hprobes))
  struck := hstruck.later hnow
    (fun hblocked => Finset.card_le_card (pending_setStage (hpends hblocked))) rfl rfl

/-- Whoever is blocked until the window is over is told so. -/
theorem blocked_of_struck {limiter : RateLimiter.State} {now : Int} (hn : 0 ≤ now)
    (hlast : now ≤ last)
    (h : last < (view (RateLimiter.blocked limiter ip now).1 ip).blockedUntil) :
    (RateLimiter.blocked limiter ip now).2 = true :=
  (RateLimiter.blocked_iff_view limiter ip now hn).mpr (hlast.trans_lt h)

theorem Guarded.check (h : Guarded threads config ip first last s) (hpast : s.Past)
    (hminute : last < first + minutes 1) {now : Int} (hnow : s.clock ≤ now) (hlast : now ≤ last)
    {state : RequestState} {stage : Stage} (hstage : stage.counted = false)
    (hblocked : (RateLimiter.blocked s.limiter state.ip now).2 = true → stage = .idle)
    (hip : ∀ ip' checked, stage.checked = some (ip', checked) → ip' = state.ip) :
    Guarded threads config ip first last
      { s.setStage w stage with
        limiter := (RateLimiter.blocked s.limiter state.ip now).1
        clock := now } := by
  have hquarter : now < first + minutes 15 := by
    simp only [minutes, seconds] at hminute ⊢
    omega
  refine h.moved hpast hnow (fun _ hseen => hseen.cleanup hquarter false) (fun hc => ?_)
    (fun hblock hpends => ?_)
    (h.struck.evict (h.kept hquarter) hlast (RateLimiter.view_cleanup s.limiter now false ip))
  · rw [hstage] at hc
    cases hc
  · obtain ⟨checked, hchecked, -⟩ := hpends
    obtain rfl := hip ip checked hchecked
    rw [hblocked (blocked_of_struck (hpast.epoch.trans hnow) hlast hblock)] at hchecked
    cases hchecked

theorem Guarded.count (h : Guarded threads config ip first last s) (hpast : s.Past)
    (hminute : last < first + minutes 1) {now : Int} (hnow : s.clock ≤ now) (hlast : now ≤ last)
    {state : RequestState} {checked : Int} (hold : s.stages w = .limiting state checked)
    {stage : Stage}
    (hexceeded : (RateLimiter.requestExceeded s.limiter state.ip config.requestsPerMinute now).2 =
      true → stage = .idle)
    (hstage : stage = .idle ∨ stage.checked = some (state.ip, checked)) :
    Guarded threads config ip first last
      { s.setStage w stage with
        limiter :=
          (RateLimiter.requestExceeded s.limiter state.ip config.requestsPerMinute now).1
        clock := now } := by
  have hquarter : now < first + minutes 15 := by
    simp only [minutes, seconds] at hminute ⊢
    omega
  have hpends (hp : stage.Pends ip first) : (s.stages w).Pends ip first := by
    obtain ⟨checked', hchecked, hfirst⟩ := hp
    obtain rfl | hsame := hstage
    · cases hchecked
    · rw [hold]
      exact ⟨checked', hsame.symm.trans hchecked, hfirst⟩
  refine h.moved hpast hnow
    (fun hfirst hseen => hseen.requestExceeded hquarter hfirst state.ip config.requestsPerMinute)
    (fun hcounted hp => ?_) (fun _ => hpends) ?_
  · have hfirst := (first_le_of_pends hpast (hpends hp)).trans hnow
    obtain ⟨checked', hchecked, -⟩ := hp
    obtain rfl | hsame := hstage
    · cases hcounted
    · obtain rfl : state.ip = ip := congrArg Prod.fst (Option.some.inj (hsame.symm.trans hchecked))
      cases hadmitted : (RateLimiter.requestExceeded s.limiter state.ip config.requestsPerMinute
        now).2 with
      | true =>
        rw [hexceeded hadmitted] at hcounted
        cases hcounted
      | false =>
        obtain ⟨c, hc, hseen⟩ := RateLimiter.seen_of_admitted hadmitted
        exact ⟨c, hc, hfirst.trans hseen⟩
  · obtain ⟨c, he, hdenials, hblocked⟩ := RateLimiter.requestExceeded_denials s.limiter ip
      state.ip config.requestsPerMinute now
    exact (h.struck.evict (h.kept hquarter) hlast he).later le_rfl (fun _ => le_rfl) hdenials
      hblocked

theorem not_pends_idle : ¬ Stage.idle.Pends ip first := fun hp => by
  obtain ⟨checked, hchecked, -⟩ := hp
  cases hchecked

theorem pending_idle_lt (hw : w < threads) :
    ((s.setStage w .idle).pending threads ip first).card < threads :=
  pending_lt hw (by rw [stages_setStage, if_pos rfl]; exact not_pends_idle)

/-- A worker that has made its denial has nothing more to do with the window. -/
theorem Guarded.seen_done (h : Guarded threads config ip first last s) (hpast : s.Past) {now : Int}
    (hminute : last < first + minutes 1) (hnow : s.clock ≤ now) (hlast : now ≤ last) {ip' : Ip}
    (hsome : (∃ v, ((s.setStage w .idle).stages v).counted = true ∧
      ((s.setStage w .idle).stages v).Pends ip first) ∨ s.probes ip first last ≠ []) :
    Seen ((s.setStage w .idle).strike config ip' now).limiter ip first := by
  have hquarter : now < first + minutes 15 := by
    simp only [minutes, seconds] at hminute ⊢
    omega
  obtain ⟨v, hv, hvpends⟩ | hprobes := hsome
  · rw [stages_setStage] at hv hvpends
    split_ifs at hv hvpends
    · cases hv
    · exact (h.seen (.inl ⟨v, hv, hvpends⟩)).recordDenial hquarter
        ((first_le_of_pends hpast hvpends).trans hnow) ip' _ _
  · exact (h.seen (.inr hprobes)).recordDenial hquarter
      ((first_le_of_probes hpast hprobes).trans hnow) ip' _ _

theorem Guarded.deny (h : Guarded threads config ip first last s) (hpast : s.Past)
    (hminute : last < first + minutes 1) (hblock : last < first + seconds config.blockSeconds)
    (hw : w < threads) {now : Int} (hnow : s.clock ≤ now) (hlast : now ≤ last) (ip' : Ip) :
    Guarded threads config ip first last ((s.setStage w .idle).strike config ip' now) where
  seen := h.seen_done hpast hminute hnow hlast
  struck := by
    have hquarter : now < first + minutes 15 := by
      simp only [minutes, seconds] at hminute ⊢
      omega
    exact h.struck.strike hminute hblock (h.kept hquarter) hnow hlast
      (fun hpos => (first_le_of_probes hpast (List.ne_nil_of_length_pos hpos)).trans hnow)
      (Finset.card_le_card (pending_setStage fun hp => absurd hp not_pends_idle))
      (pending_idle_lt hw) ip'

theorem Guarded.refuse (h : Guarded threads config ip first last s) (hpast : s.Past)
    (hminute : last < first + minutes 1) (hblock : last < first + seconds config.blockSeconds)
    (hw : w < threads) {now : Int} (hnow : s.clock ≤ now) (hlast : now ≤ last)
    {state : RequestState} {reason : Text} {checked : Int}
    (hold : s.stages w = .refusing state reason checked) :
    Guarded threads config ip first last { (s.setStage w .idle).strike config state.ip now with
      refused := ⟨state.ip, reason, checked, now⟩ :: s.refused } := by
  have hprobes : Handlers.probes { (s.setStage w .idle).strike config state.ip now with
        refused := ⟨state.ip, reason, checked, now⟩ :: s.refused } ip first last =
      if state.ip = ip ∧ first ≤ checked then
        ⟨state.ip, reason, checked, now⟩ :: s.probes ip first last
      else s.probes ip first last := by
    rw [probes, List.filter_cons]
    simp only [hlast, and_true, decide_eq_true_eq]
    rfl
  split_ifs at hprobes with hprobe
  · obtain ⟨rfl, hfirst⟩ := hprobe
    have hpends : (s.stages w).Pends state.ip first := by
      rw [hold]
      exact ⟨checked, rfl, hfirst⟩
    have hseen := h.seen (.inl ⟨w, by rw [hold]; rfl, hpends⟩)
    have hlate := (first_le_of_pends hpast hpends).trans hnow
    have hquarter : now < first + minutes 15 := by
      simp only [minutes, seconds] at hminute ⊢
      omega
    refine ⟨fun _ => hseen.recordDenial hquarter hlate state.ip _ _, ?_⟩
    rw [hprobes, List.length_cons]
    exact h.struck.probe hminute hblock hseen hnow hlast hlate (pending_idle hw hpends)
      (pending_idle_lt hw)
  · have hdenied := h.deny hpast hminute hblock hw hnow hlast state.ip
    refine ⟨fun hsome => hdenied.seen ?_, ?_⟩
    · rw [hprobes] at hsome
      exact hsome
    · rw [hprobes]
      exact hdenied.struck

theorem Guarded.step (h : Guarded threads config ip first last s) (hpast : s.Past)
    (hminute : last < first + minutes 1) (hblock : last < first + seconds config.blockSeconds)
    (hw : w < threads) {x : HandlerStep} (hsteady : s.Steady x) (hx : s.step config w x = some s')
    (hlast : s'.clock ≤ last) : Guarded threads config ip first last s' := by
  cases x with
  | take state =>
    simp only [Handlers.step] at hx
    split at hx
    · cases hx
      refine h.moved hpast le_rfl (fun _ hseen => hseen) (fun hc => ?_) (fun _ hp => ?_) h.struck
      · split_ifs at hc
        · cases hc
        · cases hc
      · obtain ⟨checked, hchecked, -⟩ := hp
        split_ifs at hchecked
        · cases hchecked
        · cases hchecked
    · cases hx
  | call now =>
    have hnow : s.clock ≤ now := hsteady
    simp only [Handlers.step] at hx
    split at hx
    · cases hx
      refine h.check hpast hminute hnow hlast ?_ (fun hblocked => if_pos hblocked)
        (fun ip' checked hc => ?_)
      · split_ifs <;> rfl
      · split_ifs at hc <;> cases hc
        rfl
    · rename_i state checked hstage
      cases hx
      refine h.count hpast hminute hnow hlast hstage (fun hexceeded => if_pos hexceeded) ?_
      split_ifs
      · exact .inl rfl
      · exact .inr rfl
      · exact .inr rfl
    · cases hx
      exact h.deny hpast hminute hblock hw hnow hlast _
    · rename_i state reason checked hstage
      cases hx
      exact h.refuse hpast hminute hblock hw hnow hlast hstage
    · cases hx
  | resolve status =>
    simp only [Handlers.step] at hx
    split at hx
    · rename_i state checked hstage
      cases hx
      cases refusal status with
      | none =>
        exact h.moved hpast le_rfl (fun _ hseen => hseen) (fun hc => by cases hc)
          (fun _ hp => absurd hp not_pends_idle) h.struck
      | some reason =>
        have hpends : (Stage.refusing state reason checked).Pends ip first →
            (s.stages w).Pends ip first := by
          rw [hstage]
          exact id
        exact h.moved hpast le_rfl (fun _ hseen => hseen)
          (fun _ hp => h.seen (.inl ⟨w, by rw [hstage]; rfl, hpends hp⟩)) (fun _ => hpends) h.struck
    · cases hx

theorem step_frame {x : HandlerStep} (hsteady : s.Steady x) (hx : s.step config w x = some s') :
    s'.unblocked = s.unblocked ∧ s.clock ≤ s'.clock ∧
      (s'.refused = s.refused ∨
        ∃ r : Refusal, s'.refused = r :: s.refused ∧ r.denied = s'.clock) := by
  cases x with
  | take state =>
    simp only [Handlers.step] at hx
    split at hx <;> cases hx
    exact ⟨rfl, le_rfl, .inl rfl⟩
  | call now =>
    simp only [Handlers.step] at hx
    split at hx <;> cases hx
    · exact ⟨rfl, hsteady, .inl rfl⟩
    · exact ⟨rfl, hsteady, .inl rfl⟩
    · exact ⟨rfl, hsteady, .inl rfl⟩
    · exact ⟨rfl, hsteady, .inr ⟨_, rfl, rfl⟩⟩
  | resolve status =>
    simp only [Handlers.step] at hx
    split at hx <;> cases hx
    exact ⟨rfl, le_rfl, .inl rfl⟩

/-- What is refused after a window is over does not count. -/
theorem probes_late {x : HandlerStep} (hsteady : s.Steady x) (hx : s.step config w x = some s')
    (hlate : last < s'.clock) : s'.probes ip first last = s.probes ip first last := by
  obtain ⟨-, -, hsame | ⟨r, hnew, hdenied⟩⟩ := step_frame hsteady hx
  · rw [probes, hsame, probes]
  · rw [probes, hnew, List.filter_cons_of_neg, probes]
    simp only [decide_eq_true_eq]
    omega

theorem Guarded.unblock (h : Guarded threads config ip first last s) (hpast : s.Past) {ip' : Ip}
    (hbefore : ip' = ip → s.clock < first) :
    Guarded threads config ip first last { s with
      limiter := (RateLimiter.unblock s.limiter ip').1
      unblocked := (ip', s.clock) :: s.unblocked } := by
  obtain rfl | hne := eq_or_ne ip' ip
  · have hearly := hbefore rfl
    have hnone : s.probes ip' first last = [] := by
      by_contra hsome
      have hfirst := first_le_of_probes hpast hsome
      omega
    refine ⟨fun hsome => ?_, .inl ?_⟩
    · obtain ⟨v, -, hpends⟩ | hprobes := hsome
      · have hfirst := first_le_of_pends hpast (show (s.stages v).Pends ip' first from hpends)
        omega
      · exact absurd hnone hprobes
    · have hzero : (Handlers.probes { s with
          limiter := (RateLimiter.unblock s.limiter ip').1
          unblocked := (ip', s.clock) :: s.unblocked } ip' first last).length = 0 :=
        congrArg List.length hnone
      rw [hzero]
      exact ⟨Nat.zero_le _, by omega⟩
  · refine ⟨fun hsome => (h.seen hsome).unblock hne, ?_⟩
    dsimp only
    rw [RateLimiter.view_unblock, if_neg hne.symm]
    exact h.struck

theorem Guarded.few (h : Guarded threads config ip first last s) :
    (s.probes ip first last).length < max config.denialsPerMinute 1 + threads := by
  obtain ⟨-, hfew⟩ | ⟨-, -, hbound⟩ := h.struck
  · omega
  · omega

theorem Served.guarded (hr : Served threads config s) (hminute : last < first + minutes 1)
    (hblock : last < first + seconds config.blockSeconds)
    (hunblocked : ∀ time, (ip, time) ∈ s.unblocked → time < first ∨ last < time) :
    (s.probes ip first last).length < max config.denialsPerMinute 1 + threads ∧
      (s.clock ≤ last → Guarded threads config ip first last s) := by
  induction hr with
  | start =>
    have hguarded : Guarded threads config ip first last {} := by
      refine ⟨fun hsome => ?_, .inl ⟨Nat.zero_le _, ?_⟩⟩
      · obtain ⟨v, hv, -⟩ | hprobes := hsome
        · cases hv
        · exact absurd rfl hprobes
      · exact Nat.lt_of_lt_of_le Nat.zero_lt_one (le_max_right _ _)
    exact ⟨hguarded.few, fun _ => hguarded⟩
  | @step s s' w x hr hw hsteady hx ih =>
    obtain ⟨hsame, hclock, -⟩ := step_frame hsteady hx
    rw [hsame] at hunblocked
    obtain ⟨hfew, hguarded⟩ := ih hunblocked
    by_cases hlast : s'.clock ≤ last
    · have hnext := (hguarded (hclock.trans hlast)).step hr.past hminute hblock hw hsteady hx hlast
      exact ⟨hnext.few, fun _ => hnext⟩
    · rw [probes_late hsteady hx (lt_of_not_ge hlast)]
      exact ⟨hfew, fun hle => absurd hle hlast⟩
  | @unblock s ip' hr ih =>
    obtain ⟨hfew, hguarded⟩ := ih fun time htime => hunblocked time (List.mem_cons_of_mem _ htime)
    refine ⟨hfew, fun hlast => (hguarded hlast).unblock hr.past fun heq => ?_⟩
    obtain hbefore | hafter := hunblocked s.clock (heq ▸ List.mem_cons_self)
    · exact hbefore
    · exact absurd hlast (not_le.mpr hafter)

/-- Whoever tries out paths gets few tries: of the requests of an address that are handled in a
window shorter than a minute and than a block, less than the denial limit and the number of workers
together are refused for their path, however the workers interleave and whoever else asks. -/
theorem probes_bounded (hr : Served threads config s) (hminute : last < first + minutes 1)
    (hblock : last < first + seconds config.blockSeconds)
    (hunblocked : ∀ time, (ip, time) ∈ s.unblocked → time < first ∨ last < time) :
    (s.probes ip first last).length < max config.denialsPerMinute 1 + threads :=
  (hr.guarded hminute hblock hunblocked).1

end Guard

section Example

instance (s : Handlers) (x : HandlerStep) : Decidable (s.Steady x) :=
  match x with
  | .call now => inferInstanceAs (Decidable (s.clock ≤ now))
  | .take _ => .isTrue trivial
  | .resolve _ => .isTrue trivial

/-- The steps in turn, if there are such workers and the clock is steady. -/
def play (threads : Nat) (config : DispatchConfig) :
    List (Nat × HandlerStep) → Handlers → Option Handlers
  | [], s => some s
  | (w, x) :: xs, s =>
      if w < threads ∧ s.Steady x then (s.step config w x).bind (play threads config xs) else none

theorem served_of_play {threads : Nat} {config : DispatchConfig} {s s' : Handlers}
    {steps : List (Nat × HandlerStep)} (hr : Served threads config s)
    (h : play threads config steps s = some s') : Served threads config s' := by
  induction steps generalizing s with
  | nil =>
    cases h
    exact hr
  | cons x xs ih =>
    obtain ⟨w, x⟩ := x
    rw [play] at h
    split_ifs at h with hx
    obtain ⟨next, hstep, hplay⟩ := Option.bind_eq_some_iff.mp h
    exact ih (hr.step x hx.1 hx.2 hstep) hplay

/-- A second denial blocks for half a minute. -/
def strict : DispatchConfig := ⟨⟨false, false, 100⟩, false, 60, 2, 30⟩

def prober : RequestState := { ip := ['a'], method := text "GET" }

/-- Two workers, of which one is behind `blocked` when the other one has its address blocked. -/
def probed : Option Handlers :=
  play 2 strict [(0, .take prober), (1, .take prober), (0, .call 5), (1, .call 5), (0, .call 5),
    (1, .call 5), (0, .resolve .outsideRoot), (1, .resolve .extensionDenied), (0, .call 6),
    (0, .take prober), (0, .call 6), (0, .call 6), (0, .resolve .invalidPath), (0, .call 7),
    (1, .call 8)] {}

theorem probed_isSome : probed.isSome := by decide +kernel

/-- The bound is reached. -/
theorem probes_bounded_race :
    ((probed.get probed_isSome).probes ['a'] 5 9).length = 3 ∧
      ((probed.get probed_isSome).probes ['a'] 5 9).length < max strict.denialsPerMinute 1 + 2 := by
  have hr := served_of_play .start (Option.some_get probed_isSome).symm
  have hunblocked : (probed.get probed_isSome).unblocked = [] := by decide +kernel
  refine ⟨by decide +kernel, probes_bounded hr (by decide) (by decide) fun time htime => ?_⟩
  rw [hunblocked] at htime
  cases htime

end Example

end Handlers
end FastdlMm.FastdlServer
