import FastdlMm.Limits.RateAccounting

namespace FastdlMm.RateLimiter

namespace Record

@[simp] def asks (ip : Ip) : Record → Bool
  | ⟨_, .requestExceeded ip' limit, _⟩ => decide (ip' = ip ∧ limit ≠ 0)
  | _ => false

@[simp] def denies (ip : Ip) : Record → Bool
  | ⟨_, .recordDenial ip' _ _, _⟩ => decide (ip' = ip)
  | _ => false

/-- A request that was let through or a denial that was noted, of any address. -/
@[simp] def recorded : Record → Bool
  | ⟨_, .requestExceeded _ _, .flag false⟩ => true
  | ⟨_, .recordDenial _ _ _, .denial outcome⟩ => decide (outcome ≠ .untracked)
  | _ => false

end Record

/-- When requests of `ip` were let through, resets or not. -/
def admittedTimes (ip : Ip) (h : List Record) : List Int :=
  (h.filter (Record.admits ip)).reverse.map Record.now

def recordedTimes (h : List Record) : List Int :=
  (h.filter Record.recorded).reverse.map Record.now

/-- The picked events of one address that no later call of its own has dropped: a stop forgets
them all, and a visit forgets those that are then a minute old. -/
def standing (stop pick visit : Record → Bool) : List Record → List Int
  | [] => []
  | r :: h =>
      if stop r then []
      else
        (if visit r then after (r.now - minutes 1) (standing stop pick visit h)
          else standing stop pick visit h) ++ (if pick r then [r.now] else [])

def standingRequests (ip : Ip) : List Record → List Int :=
  standing (Record.resets ip) (Record.admits ip) (Record.asks ip)

def standingDenials (ip : Ip) : List Record → List Int :=
  standing (Record.restarts ip) (Record.notes ip) (Record.denies ip)

/-- The events of `x` that a request of `ip` at `now` still finds: its own requests are checked
for their age in this call, those of other addresses were checked in their own last one. -/
def standingEvents (now : Int) (ip : Ip) (h : List Record) (x : Ip) : Nat :=
  (if x = ip then after (now - minutes 1) (standingRequests x h) else standingRequests x h).length +
    (standingDenials x h).length

/-- A client's queues hold nothing but standing events. -/
structure Stands (requests denials : List Int) (c : Client) : Prop where
  requests : c.requests.Sublist requests
  denials : c.denials.Sublist denials

namespace Stands

variable {req den : List Int} {c c' : Client} {now : Int}

theorem fresh : Stands req den {} := ⟨List.nil_sublist _, List.nil_sublist _⟩

theorem evict (h : Stands req den c) (he : Evicts now c c') : Stands req den c' := by
  rcases he with rfl | ⟨rfl, -⟩
  · exact h
  · exact fresh

end Stands

theorem arrive_none {s : State} {ip : Ip} {now : Int} (h : (arrive s ip now).2 = none) :
    view (arrive s ip now).1 ip = {} := by
  have hlookup : (arrive s ip now).1.clients.lookup ip = none := by
    unfold arrive findOrCreate makeRoom at h ⊢
    cases hl : (cleanup s now).clients.lookup ip with
    | some c =>
      rw [hl] at h
      cases h
    | none =>
      rw [hl] at h
      simp only at h ⊢
      split_ifs at h ⊢ with hfull
      · rcases cleanup_lookup (cleanup s now) now true ip with hc | hc
        · exact hc.trans hl
        · exact hc.1
  rw [view, hlookup]
  rfl

/-- A request under a limit leaves a trimmed queue, and its own time if it was let through. -/
theorem requestExceeded_requests (s : State) (ip : Ip) {limit : Nat} (now : Int)
    (hl : limit ≠ 0) :
    ∃ c, Evicts now (view s ip) c ∧
      (view (requestExceeded s ip limit now).1 ip).denials = c.denials ∧
      (view (requestExceeded s ip limit now).1 ip).requests =
        (trim c.requests (now - minutes 1)).1 ++
          if (requestExceeded s ip limit now).2 = false then [now] else [] := by
  refine ⟨view (arrive s ip now).1 ip, view_arrive s ip ip now, ?_⟩
  have hnone := @arrive_none s ip now
  have hsome := fun c => @arrive_client s ip now c
  simp only [requestExceeded, hl, if_false]
  rw [← arrive]
  generalize arrive s ip now = r at hnone hsome
  obtain ⟨t, _ | c⟩ := r
  · have hfresh : view t ip = {} := hnone rfl
    simp [hfresh, trim]
  · have hc : view t ip = c := hsome c rfl
    simp only [hc]
    by_cases hfull : limit ≤ (trim c.requests (now - minutes 1)).1.length ∨
        kMaximumEvents ≤ wrapSub sizeBits t.eventCount (trim c.requests (now - minutes 1)).2
    · simp only [hfull, if_true, view_insert]
      simp
    · simp only [hfull, if_false, view_insert]
      simp

theorem recordDenial_untracked {s : State} {ip : Ip} {limit blockSeconds : Nat} {now : Int}
    (h : (recordDenial s ip limit blockSeconds now).2 = .untracked) :
    view (recordDenial s ip limit blockSeconds now).1 ip = {} := by
  have hnone := @arrive_none s ip now
  unfold recordDenial at h ⊢
  simp only at h ⊢
  rw [← arrive] at h ⊢
  generalize arrive s ip now = r at h hnone
  obtain ⟨t, _ | c⟩ := r
  · exact hnone rfl
  · simp only at h
    split_ifs at h

variable {s : State} {h : List Record} {t : Int}

/-- The entry of every address holds standing events only, whatever was evicted. -/
theorem run_stands (hr : Run s h t) (ip : Ip) :
    Stands (standingRequests ip h) (standingDenials ip h) (view s ip) := by
  induction hr with
  | start => exact Stands.fresh
  | @call s h t now c hr ht ih =>
    have hagrees := (run_agrees hr ip).advance ht
    simp only [standingRequests, standingDenials, standing] at ih ⊢
    cases c with
    | blocked ip' => simpa [perform, blocked] using ih.evict (view_cleanup s now false ip)
    | requestExceeded ip' limit =>
      by_cases hip : ip' = ip
      · subst hip
        by_cases h0 : limit = 0
        · simpa [perform, requestExceeded, h0] using ih.evict (view_cleanup s now false ip')
        · obtain ⟨c, he, hden, hreq⟩ := requestExceeded_requests s ip' now h0
          have hev := ih.evict he
          rw [Agrees.trim_eq (hagrees.evict he).requests] at hreq
          refine ⟨?_, ?_⟩
          · have htrim : (after (now - minutes 1) c.requests).Sublist
                (after (now - minutes 1) (standingRequests ip' h)) := hev.requests.filter _
            cases hf : (requestExceeded s ip' limit now).2 <;>
              simpa [perform, hf, h0, hreq, standingRequests] using htrim
          · simpa [perform, hden] using hev.denials
      · have he := view_requestExceeded_ne s limit now (Ne.symm hip)
        cases hf : (requestExceeded s ip' limit now).2 <;>
          simpa [perform, hf, hip] using ih.evict he
    | recordDenial ip' limit blockSeconds =>
      by_cases hip : ip' = ip
      · subst hip
        obtain ⟨c, he, hc⟩ := view_recordDenial s ip' limit blockSeconds now
        have hev := ih.evict he
        have htrim : (after (now - minutes 1) c.denials).Sublist
            (after (now - minutes 1) (standingDenials ip' h)) := hev.denials.filter _
        rw [Agrees.trim_eq (hagrees.evict he).denials] at hc
        cases hf : (recordDenial s ip' limit blockSeconds now).2 <;> rw [hf] at hc
        · simpa [perform, recordDenial_untracked hf] using Stands.fresh
        · refine ⟨?_, ?_⟩
          · simpa [perform, hf, hc] using hev.requests
          · simpa [perform, hf, hc, standingDenials] using htrim
        · refine ⟨?_, ?_⟩
          · simpa [perform, hf, hc] using hev.requests
          · simp [perform, hf, hc]
      · have he := view_recordDenial_ne s limit blockSeconds now (Ne.symm hip)
        cases hf : (recordDenial s ip' limit blockSeconds now).2 <;>
          simpa [perform, hf, hip] using ih.evict he
    | unblock ip' =>
      by_cases hip : ip' = ip
      · subst hip
        simpa [perform, view_unblock] using Stands.fresh
      · simpa [perform, view_unblock, hip, Ne.symm hip] using ih
    | clear => exact Stands.fresh

theorem cleanup_keys {s : State} {now : Int} {force : Bool} {x : Ip}
    (h : x ∈ (cleanup s now force).clients) : x ∈ s.clients := by
  rw [← AList.lookup_isSome] at h ⊢
  rcases cleanup_lookup s now force x with hc | ⟨hc, -⟩
  · rwa [hc] at h
  · rw [hc] at h
    cases h

theorem arrive_keys {s : State} {ip x : Ip} {now : Int} (h : x ∈ (arrive s ip now).1.clients) :
    x = ip ∨ x ∈ s.clients := by
  unfold arrive findOrCreate at h
  cases hl : (cleanup s now).clients.lookup ip with
  | some c =>
    rw [hl] at h
    exact .inr (cleanup_keys h)
  | none =>
    have hroom : ∀ y, y ∈ (makeRoom (cleanup s now) now).clients → y ∈ s.clients := by
      intro y hy
      unfold makeRoom at hy
      split at hy
      · exact cleanup_keys (cleanup_keys hy)
      · exact cleanup_keys hy
    rw [hl] at h
    simp only at h
    split_ifs at h with hfull
    · exact .inr (hroom x h)
    · rw [AList.mem_insert] at h
      exact h.imp_right (hroom x)

/-- A client of the table never lacks a place: a cleanup that drops it makes one. -/
theorem arrive_tracked {s : State} {ip : Ip} (now : Int) (ha : Accounted s)
    (hm : ip ∈ s.clients) : Trackable s ip now := by
  by_cases hkept : ip ∈ (cleanup s now).clients
  · exact .inl hkept
  · have hnodup : (ip :: (cleanup s now).clients.keys).Nodup :=
      List.nodup_cons.mpr ⟨hkept, AList.keys_nodup _⟩
    have hsub : (ip :: (cleanup s now).clients.keys) ⊆ s.clients.keys := by
      intro x hx
      rcases List.mem_cons.mp hx with rfl | hx
      · exact hm
      · exact cleanup_keys hx
    have hlen := (List.subperm_of_subset hnodup hsub).length_le
    have hkeys : ∀ m : Table Ip Client, m.keys.length = Table.size m :=
      fun m => List.length_map _
    simp only [List.length_cons, hkeys] at hlen
    have hforced : Table.size (cleanup (cleanup s now) now true).clients ≤
      Table.size (cleanup s now).clients := Table.size_keep_le _ _
    have hclients := ha.clients
    exact .inr (by omega)

theorem run_reaches (hr : Run s h t) : Reaches s := by
  induction hr with
  | start => exact .start
  | call now c _ _ ih => exact .call now c ih

/-- What a request of `ip` is charged for is at most what stands of the addresses in the table. -/
theorem eventsAfterRequestTrim_le (hr : Run s h t) (ip : Ip) (now : Int) (ht : t ≤ now)
    (hm : ip ∈ s.clients) :
    eventsAfterRequestTrim s ip now ≤ (s.clients.keys.map (standingEvents now ip h)).sum := by
  have hroom := arrive_tracked now (reaches_accounted (run_reaches hr)) hm
  rw [Trackable, ← arrive_isSome] at hroom
  obtain ⟨c, hc⟩ := Option.isSome_iff_exists.mp hroom
  have hacc := (arrive_charged (reaches_accounted (run_reaches hr)) (fun es => List.Perm.refl es)
    ip now).accounted
  have hl := arrive_lookup hc
  have hview := arrive_client hc
  have hagrees := ((run_agrees hr ip).advance ht).evict (view_arrive s ip ip now)
  have hstands := (run_stands hr ip).evict (view_arrive s ip ip now)
  rw [hview] at hagrees hstands
  have hlen := trim_length c.requests (now - minutes 1)
  -- The table once the call has trimmed its own client.
  let c' : Client := { c with requests := (trim c.requests (now - minutes 1)).1 }
  let m := (arrive s ip now).1.clients.insert ip c'
  have hcount : eventsAfterRequestTrim s ip now = Table.total (fun _ c => c.events) m := by
    have htotal := Table.total_insert_some (fun _ c => c.events) c' hl
    have hheld := hacc.events_le hl
    have hexact := hacc.exact
    have hc' : c'.events = (trim c.requests (now - minutes 1)).1.length + c.denials.length := rfl
    have hevents : c.events = c.requests.length + c.denials.length := rfl
    rw [eventsAfterRequestTrim, hview, wrapSub_of_le (by omega) (events_lt hacc.events)]
    change _ = Table.total (fun _ c => c.events) ((arrive s ip now).1.clients.insert ip c')
    omega
  have hentry : ∀ e ∈ m.entries, e.2.events ≤ standingEvents now ip h e.1 := by
    rintro ⟨x, d⟩ he
    rcases Table.lookup_insert_eq_some (AList.mem_lookup_iff.mpr he) with ⟨rfl, rfl⟩ | ⟨hx, hd⟩
    · have hreq : (after (now - minutes 1) c.requests).length ≤
          (after (now - minutes 1) (standingRequests x h)).length :=
        (hstands.requests.filter _).length_le
      have hden := hstands.denials.length_le
      simp only [c', Client.events, standingEvents, if_true, Agrees.trim_eq hagrees.requests]
      omega
    · have hdview : view (arrive s ip now).1 x = d := by rw [view, hd, Option.getD_some]
      have hother := (run_stands hr x).evict (view_arrive s ip x now)
      rw [hdview] at hother
      have hreq := hother.requests.length_le
      have hden := hother.denials.length_le
      simp only [Client.events, standingEvents, hx, if_false]
      omega
  have hkeys : m.keys ⊆ s.clients.keys := by
    intro x hx
    have hx' : x ∈ m := hx
    rw [AList.mem_insert] at hx'
    rcases hx' with rfl | hx'
    · exact hm
    · rcases arrive_keys hx' with rfl | hx'
      · exact hm
      · exact hx'
  calc eventsAfterRequestTrim s ip now
      = Table.total (fun _ c => c.events) m := hcount
    _ ≤ Table.total (fun x _ => standingEvents now ip h x) m := Table.total_mono hentry
    _ = (m.keys.map (standingEvents now ip h)).sum := by
      simp [Table.total, AList.keys, List.keys, Function.comp_def]
    _ ≤ (s.clients.keys.map (standingEvents now ip h)).sum := by
      obtain ⟨l, hperm, hsub⟩ := List.subperm_of_subset (AList.keys_nodup m) hkeys
      rw [← (hperm.map _).sum_eq]
      exact (hsub.map _).sum_le_sum (by simp)

/-- A limit that is not reached lets the request through, as long as the standing events of the
table leave room; events that expired since their address last called are among them. -/
theorem requestExceeded_standing (hr : Run s h t) (ip : Ip) (limit : Nat) (now : Int)
    (ht : t ≤ now) (hm : ip ∈ s.clients) (hl : 1 ≤ limit)
    (hcount : (lastMinute now (admittedTimes ip h)).length < limit)
    (hroom : (s.clients.keys.map (standingEvents now ip h)).sum < 131072) :
    (requestExceeded s ip limit now).2 = false := by
  have htracked := arrive_tracked now (reaches_accounted (run_reaches hr)) hm
  rw [Trackable, ← arrive_isSome] at htracked
  obtain ⟨c, hc⟩ := Option.isSome_iff_exists.mp htracked
  have hevents := eventsAfterRequestTrim_le hr ip now ht hm
  have hlen := trimmed_requests_length hr ip now ht
  rw [eventsAfterRequestTrim, arrive_client hc] at hevents
  rw [arrive_client hc] at hlen
  have hsub : (lastMinute now (admittedSince ip h)).Sublist (lastMinute now (admittedTimes ip h)) :=
    ((((List.takeWhile_sublist _).filter _).reverse).map _).filter _
  have hle := hsub.length_le
  rw [requestExceeded_eq_false_iff s ip limit now hl]
  exact ⟨c, hc, hevents.trans_lt hroom, by omega⟩

/-- A second request under a limit of two is let through. -/
theorem requestExceeded_standing_second :
    (requestExceeded (perform {} 5 (.requestExceeded ['a'] 2)).1 ['a'] 2 6).2 = false :=
  requestExceeded_standing (.call 5 (.requestExceeded ['a'] 2) .start (by decide)) ['a'] 2 6
    (by decide) (AList.lookup_isSome.mp (by decide)) (by decide) (by decide) (by decide)

/-- The table after one address alone was let through at the first moment. -/
def flooded (queue : List Int) : State where
  clients := (∅ : Table Ip Client).insert ['a'] { requests := queue, lastSeen := 1 }
  nextCleanup := 1 + minutes 10
  eventCount := queue.length

theorem trim_fresh {queue : List Int} {cutoff : Int} (h : ∀ v ∈ queue, cutoff < v) :
    trim queue cutoff = (queue, 0) := by
  cases queue with
  | nil => rfl
  | cons v vs => simp [trim, h v List.mem_cons_self]

theorem flooded_cleanup (queue : List Int) {now : Int} (h : now < 1 + minutes 10) :
    cleanup (flooded queue) now = flooded queue := by
  have hnext : (flooded queue).nextCleanup = 1 + minutes 10 := rfl
  have hset : (1 + minutes 10 : Int) ≠ 0 := by decide
  simp [cleanup, hnext, hset, h]

theorem flooded_request {n : Nat} (h : n < kMaximumEvents) :
    perform (flooded (List.replicate n 1)) 1 (.requestExceeded ['a'] 200000) =
      (flooded (List.replicate (n + 1) 1), .flag false) := by
  have hclean : cleanup (flooded (List.replicate n 1)) 1 = flooded (List.replicate n 1) :=
    flooded_cleanup _ (by decide)
  have hlookup : (flooded (List.replicate n 1)).clients.lookup ['a'] =
      some { requests := List.replicate n 1, lastSeen := 1 } := AList.lookup_insert _
  have htrim : trim (List.replicate n (1 : Int)) (1 - minutes 1) = (List.replicate n 1, 0) := by
    apply trim_fresh
    intro v hv
    rw [List.eq_of_mem_replicate hv]
    decide
  have hmax : kMaximumEvents = 131072 := rfl
  have hcount : (flooded (List.replicate n 1)).eventCount = n := List.length_replicate
  have hword := events_lt h
  have hsub : wrapSub sizeBits n 0 = n := wrapSub_of_le (Nat.zero_le n) (by omega)
  have hadd : wrapAdd sizeBits n 1 = n + 1 := wrapAdd_of_lt (by omega)
  have hroom : ¬ (200000 ≤ n ∨ kMaximumEvents ≤ n) := by omega
  have hpush : List.replicate n (1 : Int) ++ [1] = List.replicate (n + 1) 1 :=
    List.replicate_succ'.symm
  simp only [perform, requestExceeded, hclean, findOrCreate, hlookup, htrim, hcount, hsub, hadd,
    hpush, List.length_replicate, hroom, if_false]
  simp [flooded]

theorem flooded_run {n : Nat} (h : n + 1 ≤ kMaximumEvents) :
    ∃ log, Run (flooded (List.replicate (n + 1) 1)) log 1 ∧ ∀ r ∈ log, r.now = 1 := by
  induction n with
  | zero =>
    have hrun := Run.call 1 (.requestExceeded ['a'] 200000) Run.start (by decide)
    exact ⟨_, hrun, by simp⟩
  | succ n ih =>
    obtain ⟨log, hrun, hnow⟩ := ih (by omega)
    have hnext := Run.call 1 (.requestExceeded ['a'] 200000) hrun le_rfl
    rw [flooded_request (by omega)] at hnext
    exact ⟨_, hnext, by simpa using hnow⟩

/-- The flooded table once a second address was turned away for the lack of room. -/
def strangerSeen (queue : List Int) : State :=
  { flooded queue with clients := (flooded queue).clients.insert ['b'] { lastSeen := 1 } }

theorem flooded_stranger {queue : List Int} (hq : queue.length = kMaximumEvents) :
    perform (flooded queue) 1 (.requestExceeded ['b'] 1) = (strangerSeen queue, .flag true) := by
  have hclean : cleanup (flooded queue) 1 = flooded queue := flooded_cleanup queue (by decide)
  have hlookup : (flooded queue).clients.lookup ['b'] = none :=
    AList.lookup_insert_ne (by decide)
  have hsize : ¬ kMaximumClients ≤ Table.size (flooded queue).clients := by
    have hone : Table.size (flooded queue).clients = 1 := by
      simp [Table.size, flooded]
    rw [hone]
    decide
  have hcount : (flooded queue).eventCount = kMaximumEvents := hq
  have hsub : wrapSub sizeBits kMaximumEvents 0 = kMaximumEvents := by decide
  simp only [perform, requestExceeded, hclean, findOrCreate, hlookup, makeRoom, hsize, if_false,
    trim, hcount, hsub]
  simp [strangerSeen, hq, flooded]

theorem strangerSeen_rejects {queue : List Int} (hq : queue.length = kMaximumEvents) :
    (requestExceeded (strangerSeen queue) ['b'] 1 (1 + minutes 1)).2 = true := by
  have hclean : cleanup (strangerSeen queue) (1 + minutes 1) = strangerSeen queue := by
    have hnext : (strangerSeen queue).nextCleanup = 1 + minutes 10 := rfl
    have hset : (1 + minutes 10 : Int) ≠ 0 := by decide
    have hearly : (1 + minutes 1 : Int) < 1 + minutes 10 := by decide
    simp [cleanup, hnext, hset, hearly]
  have hlookup : (strangerSeen queue).clients.lookup ['b'] = some { lastSeen := 1 } :=
    AList.lookup_insert _
  have hcount : (strangerSeen queue).eventCount = kMaximumEvents := hq
  have hsub : wrapSub sizeBits kMaximumEvents 0 = kMaximumEvents := by decide
  simp [requestExceeded, hclean, findOrCreate, hlookup, trim, hcount, hsub]

/-- One address fills the event table within a minute and does not come back: a minute later
its events have expired, and another address, known by then, is still turned away. -/
theorem expired_events_lock_out :
    ¬ ∀ (s : State) (h : List Record) (t : Int), Run s h t → ∀ (ip : Ip) (limit : Nat) (now : Int),
      t ≤ now → ip ∈ s.clients → 1 ≤ limit →
      (lastMinute now (admittedTimes ip h)).length < limit →
      (lastMinute now (recordedTimes h)).length < 131072 →
      (requestExceeded s ip limit now).2 = false := by
  intro hclaim
  obtain ⟨log, hrun, hnow⟩ := flooded_run (n := 131071) (by decide)
  have hq : (List.replicate (131071 + 1) (1 : Int)).length = kMaximumEvents :=
    List.length_replicate
  generalize List.replicate (131071 + 1) (1 : Int) = queue at hrun hq
  have hseen := Run.call 1 (.requestExceeded ['b'] 1) hrun le_rfl
  rw [flooded_stranger hq] at hseen
  have hold : ∀ pick : Record → Bool, lastMinute (1 + minutes 1)
      (((⟨1, .requestExceeded ['b'] 1, .flag true⟩ :: log).filter pick).reverse.map
        Record.now) = [] := by
    intro pick
    rw [lastMinute, List.filter_eq_nil_iff]
    intro v hv
    obtain ⟨r, hr, rfl⟩ := List.mem_map.mp hv
    have hone : r.now = 1 := by
      rcases List.mem_cons.mp (List.mem_of_mem_filter (List.mem_reverse.mp hr)) with rfl | hr
      · rfl
      · exact hnow r hr
    rw [hone]
    decide
  have hknown : (['b'] : Ip) ∈ (strangerSeen queue).clients :=
    (AList.mem_insert _).mpr (.inl rfl)
  have hfalse := hclaim _ _ 1 hseen ['b'] 1 (1 + minutes 1) (by decide) hknown le_rfl
    (by rw [admittedTimes, hold]; decide) (by rw [recordedTimes, hold]; decide)
  rw [strangerSeen_rejects hq] at hfalse
  cases hfalse

end FastdlMm.RateLimiter
