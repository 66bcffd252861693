import FastdlMm.Limits.RateHistory

namespace FastdlMm.RateLimiter

variable {s : State} {h : List Record} {t : Int}

theorem run_nonneg (hr : Run s h t) : 0 ≤ t := by
  induction hr with
  | start => exact le_rfl
  | call now c _ ht ih => exact ih.trans ht

theorem run_past (hr : Run s h t) : ∀ r ∈ h, r.now ≤ t := by
  induction hr with
  | start => simp
  | call now c _ ht ih =>
    intro r hm
    rcases List.mem_cons.mp hm with rfl | hm
    · exact le_rfl
    · exact (ih r hm).trans ht

theorem timesSince_past (hr : Run s h t) (stop pick : Record → Bool) :
    ∀ v ∈ timesSince stop pick h, v ≤ t := by
  intro v hv
  obtain ⟨r, hm, rfl⟩ := List.mem_map.mp hv
  have hm' := List.mem_of_mem_filter (List.mem_reverse.mp hm)
  exact run_past hr r (List.takeWhile_subset _ hm')

/-- Under a steady clock the entry of every address agrees with the history of its calls. -/
theorem run_agrees (hr : Run s h t) (ip : Ip) :
    Agrees t (admittedSince ip h) (deniedSince ip h) (view s ip) := by
  induction hr with
  | start => exact Agrees.fresh
  | @call s h t now c hr ht ih =>
    have ih := ih.advance ht
    simp only [admittedSince, deniedSince, timesSince_cons] at ih ⊢
    cases c with
    | blocked ip' => simpa [perform, blocked] using ih.evict (view_cleanup s now false ip)
    | requestExceeded ip' limit =>
      by_cases hip : ip' = ip
      · subst hip
        obtain ⟨c, he, hc⟩ := view_requestExceeded s ip' limit now
        have hev := ih.evict he
        rcases hc with ⟨hf, hv⟩ | ⟨hf, hv | hv⟩
        · simpa [perform, hf, hv] using hev.letThrough
        · simpa [perform, hf, hv] using hev
        · simpa [perform, hf, hv] using hev.reject
      · have he := view_requestExceeded_ne s limit now (Ne.symm hip)
        cases hf : (requestExceeded s ip' limit now).2 <;>
          simpa [perform, hf, hip] using ih.evict he
    | recordDenial ip' limit blockSeconds =>
      by_cases hip : ip' = ip
      · subst hip
        obtain ⟨c, he, hc⟩ := view_recordDenial s ip' limit blockSeconds now
        have hev := ih.evict he
        cases hf : (recordDenial s ip' limit blockSeconds now).2 <;> rw [hf] at hc
        · simpa [perform, hf, hc] using hev
        · simpa [perform, hf, hc] using hev.note
        · simpa [perform, hf, hc] using hev.trigger (now + seconds blockSeconds)
      · have he := view_recordDenial_ne s limit blockSeconds now (Ne.symm hip)
        cases hf : (recordDenial s ip' limit blockSeconds now).2 <;>
          simpa [perform, hf, hip] using ih.evict he
    | unblock ip' =>
      by_cases hip : ip' = ip
      · subst hip
        simpa [perform, view_unblock] using Agrees.fresh
      · simpa [perform, view_unblock, hip, Ne.symm hip] using ih
    | clear => exact Agrees.fresh

/-- The counter that `requestExceeded(ip)` compares with its limit: after this client's requests
were trimmed. -/
def eventsAfterRequestTrim (s : State) (ip : Ip) (now : Int) : Nat :=
  wrapSub sizeBits (arrive s ip now).1.eventCount
    (trim (view (arrive s ip now).1 ip).requests (now - minutes 1)).2

/-- The counter that `recordDenial(ip)` compares with its limit: after this client's denials
were trimmed. -/
def eventsAfterDenialTrim (s : State) (ip : Ip) (now : Int) : Nat :=
  wrapSub sizeBits (arrive s ip now).1.eventCount
    (trim (view (arrive s ip now).1 ip).denials (now - minutes 1)).2

theorem arrive_client {s : State} {ip : Ip} {now : Int} {c : Client}
    (hc : (arrive s ip now).2 = some c) : view (arrive s ip now).1 ip = c :=
  findOrCreate_client hc

theorem lastMinute_eq_after {log : List Int} {now : Int} (hl : ∀ v ∈ log, v ≤ now) :
    lastMinute now log = after (now - minutes 1) log := by
  apply List.filter_congr
  intro v hv
  simp [hl v hv]

/-- What the code counts for an address is what its history holds, whoever else called and
whatever was evicted. -/
theorem trimmed_requests_length (hr : Run s h t) (ip : Ip) (now : Int) (ht : t ≤ now) :
    (trim (view (arrive s ip now).1 ip).requests (now - minutes 1)).1.length =
      (lastMinute now (admittedSince ip h)).length := by
  have ha := ((run_agrees hr ip).advance ht).evict (view_arrive s ip ip now)
  have hpast : ∀ v ∈ admittedSince ip h, v ≤ now :=
    fun v hv => (timesSince_past hr _ _ v hv).trans ht
  rw [Agrees.trim_eq ha.requests, lastMinute_eq_after hpast, ha.requests.length_after]

theorem trimmed_denials_length (hr : Run s h t) (ip : Ip) (now : Int) (ht : t ≤ now) :
    (trim (view (arrive s ip now).1 ip).denials (now - minutes 1)).1.length =
      (lastMinute now (deniedSince ip h)).length := by
  have ha := ((run_agrees hr ip).advance ht).evict (view_arrive s ip ip now)
  have hpast : ∀ v ∈ deniedSince ip h, v ≤ now :=
    fun v hv => (timesSince_past hr _ _ v hv).trans ht
  rw [Agrees.trim_eq ha.denials, lastMinute_eq_after hpast, ha.denials.length_after]

/-- A call has a table entry to count in: the address is tracked, or a forced cleanup leaves
room for it. -/
def Trackable (s : State) (ip : Ip) (now : Int) : Prop :=
  ip ∈ (cleanup s now).clients ∨
    Table.size (cleanup (cleanup s now) now true).clients < kMaximumClients

/-- `requestExceeded` is an exact sliding window over the last minute. -/
theorem requestExceeded_iff (hr : Run s h t) (ip : Ip) (limit : Nat) (now : Int) (ht : t ≤ now)
    (hl : 1 ≤ limit) :
    ((requestExceeded s ip limit now).2 = false ↔
      Trackable s ip now ∧ eventsAfterRequestTrim s ip now < kMaximumEvents ∧
        (lastMinute now (admittedSince ip h)).length < limit) ∧
    (trim (view (arrive s ip now).1 ip).requests (now - minutes 1)).1.length =
      (lastMinute now (admittedSince ip h)).length := by
  have hlen := trimmed_requests_length hr ip now ht
  refine ⟨?_, hlen⟩
  rw [requestExceeded_eq_false_iff s ip limit now hl, Trackable, ← arrive_isSome, ← hlen,
    eventsAfterRequestTrim]
  constructor
  · intro hclient
    obtain ⟨c, hc, hroom, hcount⟩ := hclient
    rw [arrive_client hc]
    exact ⟨by rw [hc]; rfl, hroom, hcount⟩
  · intro hcounted
    obtain ⟨hsome, hroom, hcount⟩ := hcounted
    obtain ⟨c, hc⟩ := Option.isSome_iff_exists.mp hsome
    rw [arrive_client hc] at hroom hcount
    exact ⟨c, hc, hroom, hcount⟩

/-- Two requests at a limit of two fill the minute, so a third is rejected. -/
theorem requestExceeded_iff_third :
    (requestExceeded (perform (perform {} 5 (.requestExceeded ['a'] 2)).1 6
      (.requestExceeded ['a'] 2)).1 ['a'] 2 7).2 ≠ false := by
  intro hf
  have hrun := Run.call 6 (.requestExceeded ['a'] 2)
    (Run.call 5 (.requestExceeded ['a'] 2) Run.start (by decide)) (by decide)
  have h := (requestExceeded_iff hrun ['a'] 2 7 (by decide) (by decide)).1.mp hf
  exact absurd h.2.2 (by decide)

end FastdlMm.RateLimiter
