import FastdlMm.Limits.RateWindow

namespace FastdlMm.RateLimiter

abbrev Entry := Sigma fun _ : Ip => Client

def Client.events (c : Client) : Nat := c.requests.length + c.denials.length

/-- Any calls under any clock readings: a thread takes its reading before it has the mutex. -/
inductive Reaches : State → Prop
  | start : Reaches {}
  | call {s : State} (now : Int) (c : Call) : Reaches s → Reaches (perform s now c).1

/-- One write to `eventCount_`. -/
inductive Update where
  | add (n : Nat)
  | sub (n : Nat)
  | reset

def Update.apply (count : Nat) : Update → Nat
  | .add n => wrapAdd sizeBits count n
  | .sub n => wrapSub sizeBits count n
  | .reset => 0

def Update.Fits (count : Nat) : Update → Prop
  | .sub n => n ≤ count
  | _ => True

/-- No update subtracts more than the counter holds at that moment. -/
def NoUnderflow : Nat → List Update → Prop
  | _, [] => True
  | count, u :: us => u.Fits count ∧ NoUnderflow (u.apply count) us

section Updates

-- The order in which a pass meets the entries of the hash map.
variable (order : List Entry → List Entry)

def cleanupUpdates (s : State) (now : Int) (force : Bool) : List Update :=
  if !force && s.nextCleanup ≠ 0 && now < s.nextCleanup then []
  else (((order s.clients.entries).filter (fun e => stale now e.2)).map
    (fun e => e.2.events)).map .sub

def arriveUpdates (s : State) (ip : Ip) (now : Int) : List Update :=
  cleanupUpdates order s now false ++
    if (cleanup s now).clients.lookup ip = none ∧
        kMaximumClients ≤ Table.size (cleanup s now).clients then
      cleanupUpdates order (cleanup s now) now true
    else []

/-- The writes to `eventCount_` that a call makes, in the order of the code. -/
def updates (s : State) (now : Int) : Call → List Update
  | .blocked _ => cleanupUpdates order s now false
  | .requestExceeded ip limit =>
      if limit = 0 then cleanupUpdates order s now false
      else arriveUpdates order s ip now ++
        match (arrive s ip now).2 with
        | none => []
        | some c =>
            .sub (trim c.requests (now - minutes 1)).2 ::
              if limit ≤ (trim c.requests (now - minutes 1)).1.length ∨
                  kMaximumEvents ≤ wrapSub sizeBits (arrive s ip now).1.eventCount
                    (trim c.requests (now - minutes 1)).2 then []
              else [.add 1]
  | .recordDenial ip limit _ =>
      arriveUpdates order s ip now ++
        match (arrive s ip now).2 with
        | none => []
        | some c =>
            .sub (trim c.denials (now - minutes 1)).2 ::
              if kMaximumEvents ≤ wrapSub sizeBits (arrive s ip now).1.eventCount
                  (trim c.denials (now - minutes 1)).2 then
                [.sub (trim c.denials (now - minutes 1)).1.length]
              else
                .add 1 ::
                  if limit = 0 ∨ limit ≤ (trim c.denials (now - minutes 1)).1.length + 1 then
                    [.sub ((trim c.denials (now - minutes 1)).1.length + 1)]
                  else []
  | .unblock ip =>
      match s.clients.lookup ip with
      | none => []
      | some c => [.sub c.events]
  | .clear => [.reset]

end Updates

/-- The counter is what the queues hold, and both bounds are kept. -/
structure Accounted (s : State) : Prop where
  exact : s.eventCount = Table.total (fun _ c => c.events) s.clients
  clients : Table.size s.clients ≤ kMaximumClients
  events : s.eventCount ≤ kMaximumEvents

/-- The updates of a step end in the new count, with no underflow on the way. -/
structure Charged (s : State) (us : List Update) (s' : State) : Prop where
  fits : NoUnderflow s.eventCount us
  counted : us.foldl Update.apply s.eventCount = s'.eventCount
  accounted : Accounted s'

theorem noUnderflow_append (n : Nat) (us vs : List Update) :
    NoUnderflow n (us ++ vs) ↔ NoUnderflow n us ∧ NoUnderflow (us.foldl Update.apply n) vs := by
  induction us generalizing n with
  | nil => simp [NoUnderflow]
  | cons u us ih => simp [NoUnderflow, ih, and_assoc]

theorem Charged.nil {s : State} (h : Accounted s) : Charged s [] s := ⟨trivial, rfl, h⟩

theorem Charged.append {s s' s'' : State} {us vs : List Update} (h : Charged s us s')
    (k : Charged s' vs s'') : Charged s (us ++ vs) s'' := by
  refine ⟨?_, ?_, k.accounted⟩
  · rw [noUnderflow_append, h.counted]
    exact ⟨h.fits, k.fits⟩
  · rw [List.foldl_append, h.counted, k.counted]

/-- Subtractions in a row, in whatever order, are exact when their sum is. -/
theorem subs_exact (xs : List Nat) (n : Nat) (hx : xs.sum ≤ n) (hn : n < 2 ^ sizeBits) :
    NoUnderflow n (xs.map .sub) ∧ (xs.map .sub).foldl Update.apply n = n - xs.sum := by
  induction xs generalizing n with
  | nil => simp [NoUnderflow]
  | cons x xs ih =>
    simp only [List.sum_cons] at hx
    have hstep : wrapSub sizeBits n x = n - x := wrapSub_of_le (by omega) hn
    obtain ⟨hfits, hfold⟩ := ih (n - x) (by omega) (by omega)
    simp only [List.map_cons, NoUnderflow, Update.Fits, Update.apply, hstep, List.foldl_cons,
      List.sum_cons, hfold]
    exact ⟨⟨by omega, hfits⟩, by omega⟩

theorem trim_length (queue : List Int) (cutoff : Int) :
    (trim queue cutoff).1.length + (trim queue cutoff).2 = queue.length := by
  induction queue with
  | nil => rfl
  | cons v vs ih =>
    by_cases hv : v ≤ cutoff
    · simp only [trim, hv, if_true, List.length_cons]
      omega
    · simp [trim, hv]

theorem events_lt {n : Nat} (h : n ≤ kMaximumEvents) : n < 2 ^ sizeBits := by
  have : kMaximumEvents < 2 ^ sizeBits := by decide
  omega

theorem cleanup_fold (now : Int) (es : List Entry) (n : Nat) :
    es.foldl (fun n e => if stale now e.2 then
        wrapSub sizeBits n (e.2.requests.length + e.2.denials.length) else n) n =
      (((es.filter (fun e => stale now e.2)).map (fun e => e.2.events)).map .sub).foldl
        Update.apply n := by
  induction es generalizing n with
  | nil => rfl
  | cons e es ih =>
    cases hs : stale now e.2 <;> simp [hs, ih, Update.apply, Client.events]

variable {order : List Entry → List Entry}

theorem cleanup_charged {s : State} (h : Accounted s) (ho : ∀ es, (order es).Perm es)
    (now : Int) (force : Bool) :
    Charged s (cleanupUpdates order s now force) (cleanup s now force) := by
  unfold cleanup cleanupUpdates
  split
  · exact Charged.nil h
  · have hsum : ((((order s.clients.entries).filter (fun e => stale now e.2)).map
          (fun e => e.2.events)).sum) =
        ((s.clients.entries.filter (fun e => stale now e.2)).map (fun e => e.2.events)).sum :=
      (((ho _).filter _).map _).sum_eq
    have htotal := Table.total_keep (fun _ c => c.events) (fun _ c => !stale now c) s.clients
    simp only [Bool.not_not] at htotal
    have hexact := h.exact
    have hn := events_lt h.events
    obtain ⟨hfits, hfold⟩ := subs_exact _ s.eventCount (by rw [hsum]; omega) hn
    obtain ⟨-, hmodel⟩ := subs_exact ((s.clients.entries.filter (fun e => stale now e.2)).map
      (fun e => e.2.events)) s.eventCount (by omega) hn
    refine ⟨hfits, ?_, ?_, ?_, ?_⟩
    · simp only
      rw [hfold, cleanup_fold, hmodel, hsum]
    · simp only
      rw [cleanup_fold, hmodel]
      omega
    · exact (Table.size_keep_le _ _).trans h.clients
    · simp only
      rw [cleanup_fold, hmodel]
      exact (Nat.sub_le _ _).trans h.events

theorem findOrCreate_charged {s : State} (h : Accounted s) (ho : ∀ es, (order es).Perm es)
    (ip : Ip) (now : Int) :
    Charged s
      (if s.clients.lookup ip = none ∧ kMaximumClients ≤ Table.size s.clients then
        cleanupUpdates order s now true else [])
      (findOrCreate s ip now).1 := by
  have hroom : Charged s (if kMaximumClients ≤ Table.size s.clients then
      cleanupUpdates order s now true else []) (makeRoom s now) := by
    unfold makeRoom
    split
    · exact cleanup_charged h ho now true
    · exact Charged.nil h
  unfold findOrCreate
  cases hl : s.clients.lookup ip with
  | some c => simpa using Charged.nil h
  | none =>
    by_cases hstill : kMaximumClients ≤ Table.size (makeRoom s now).clients
    · simpa only [true_and, hstill, if_true] using hroom
    · have hfresh : (makeRoom s now).clients.lookup ip = none := by
        unfold makeRoom
        split
        · rcases cleanup_lookup s now true ip with hc | hc
          · rw [hc, hl]
          · exact hc.1
        · exact hl
      have hsize := Table.total_insert_none (fun _ _ => 1) ({} : Client) hfresh
      have hevents := Table.total_insert_none (fun _ c => c.events) ({} : Client) hfresh
      simp only [Table.total_one] at hsize
      have hzero : ({} : Client).events = 0 := rfl
      have hacc := hroom.accounted
      simp only [true_and, hstill, if_false]
      refine ⟨hroom.fits, hroom.counted, ?_, ?_, hacc.events⟩
      · rw [hevents, hzero, hacc.exact, Nat.add_zero]
      · rw [hsize]
        omega

theorem arrive_charged {s : State} (h : Accounted s) (ho : ∀ es, (order es).Perm es) (ip : Ip)
    (now : Int) : Charged s (arriveUpdates order s ip now) (arrive s ip now).1 := by
  have hclean := cleanup_charged h ho now false
  exact hclean.append (findOrCreate_charged hclean.accounted ho ip now)

theorem arrive_lookup {s : State} {ip : Ip} {now : Int} {c : Client}
    (h : (arrive s ip now).2 = some c) : (arrive s ip now).1.clients.lookup ip = some c := by
  unfold arrive findOrCreate at h ⊢
  cases hl : (cleanup s now).clients.lookup ip with
  | some c' =>
    rw [hl] at h
    rw [← h]
    exact hl
  | none =>
    rw [hl] at h
    simp only at h ⊢
    split_ifs at h ⊢ with hfull
    cases h
    simp

/-- Storing a client's new queues keeps the account when the counter moved by as much. -/
theorem Accounted.store {s : State} (h : Accounted s) {ip : Ip} {c : Client} (c' : Client)
    {n : Nat} (hl : s.clients.lookup ip = some c)
    (hn : n + c.events = s.eventCount + c'.events) (hle : n ≤ kMaximumEvents) :
    Accounted { s with clients := s.clients.insert ip c', eventCount := n } := by
  have hsize := Table.total_insert_some (fun _ _ => 1) c' hl
  have hevents := Table.total_insert_some (fun _ c => c.events) c' hl
  have hexact := h.exact
  have hclients := h.clients
  simp only [Table.total_one] at hsize
  exact ⟨by simp only; omega, by simp only; omega, hle⟩

/-- A client's own queues are part of the count. -/
theorem Accounted.events_le {s : State} (h : Accounted s) {ip : Ip} {c : Client}
    (hl : s.clients.lookup ip = some c) : c.events ≤ s.eventCount := by
  have := Table.total_erase (fun _ c => c.events) hl
  have := h.exact
  omega

section Queues

variable {s : State} {ip : Ip} {c : Client}

/-- Events leave a queue of the client, and the counter with them. -/
theorem Accounted.sub (h : Accounted s) (hl : s.clients.lookup ip = some c) (c' : Client) {n : Nat}
    (hn : c'.events + n = c.events) :
    Charged s [.sub n] { s with clients := s.clients.insert ip c'
                                eventCount := wrapSub sizeBits s.eventCount n } := by
  have hheld := h.events_le hl
  have hmax := h.events
  have hsub : wrapSub sizeBits s.eventCount n = s.eventCount - n :=
    wrapSub_of_le (by omega) (events_lt h.events)
  refine ⟨⟨?_, trivial⟩, rfl, ?_⟩
  · change n ≤ s.eventCount
    omega
  · rw [hsub]
    apply h.store c' hl
    · omega
    · omega

/-- An event enters a queue of the client while there is room for one. -/
theorem Accounted.add (h : Accounted s) (hl : s.clients.lookup ip = some c) (c' : Client)
    (hroom : ¬ kMaximumEvents ≤ s.eventCount) (hn : c'.events = c.events + 1) :
    Charged s [.add 1] { s with clients := s.clients.insert ip c'
                                eventCount := wrapAdd sizeBits s.eventCount 1 } := by
  have hlt := Nat.lt_of_not_le hroom
  have hadd : wrapAdd sizeBits s.eventCount 1 = s.eventCount + 1 := wrapAdd_of_lt (events_lt hlt)
  refine ⟨⟨trivial, trivial⟩, rfl, ?_⟩
  rw [hadd]
  apply h.store c' hl
  · omega
  · exact hlt

/-- The same client is stored once more. -/
theorem Charged.again {us vs : List Update} {c₁ c₂ : Client} {n m : Nat}
    (h : Charged s us { s with clients := s.clients.insert ip c₁, eventCount := n })
    (k : Charged { s with clients := s.clients.insert ip c₁, eventCount := n } vs
      { s with clients := (s.clients.insert ip c₁).insert ip c₂, eventCount := m }) :
    Charged s (us ++ vs) { s with clients := s.clients.insert ip c₂, eventCount := m } := by
  rw [AList.insert_insert] at k
  exact h.append k

end Queues

/-- What is trimmed from a queue is what its client has less of. -/
theorem events_trim_requests (c : Client) (now cutoff : Int) :
    Client.events { c with lastSeen := now, requests := (trim c.requests cutoff).1 } +
      (trim c.requests cutoff).2 = c.events := by
  have hlen := trim_length c.requests cutoff
  simp only [Client.events]
  omega

theorem events_trim_denials (c : Client) (now cutoff : Int) :
    Client.events { c with lastSeen := now, denials := (trim c.denials cutoff).1 } +
      (trim c.denials cutoff).2 = c.events := by
  have hlen := trim_length c.denials cutoff
  simp only [Client.events]
  omega

theorem requestExceeded_charged {s : State} (h : Accounted s) (ho : ∀ es, (order es).Perm es)
    (ip : Ip) (limit : Nat) (now : Int) :
    Charged s (updates order s now (.requestExceeded ip limit))
      (requestExceeded s ip limit now).1 := by
  by_cases h0 : limit = 0
  · simpa [updates, requestExceeded, h0] using cleanup_charged h ho now false
  · have ha := arrive_charged h ho ip now
    have hlookup := fun c => @arrive_lookup s ip now c
    simp only [updates, requestExceeded, h0, if_false]
    rw [← arrive]
    generalize arrive s ip now = r at ha hlookup
    obtain ⟨t, _ | c⟩ := r
    · simpa using ha
    · have hl : t.clients.lookup ip = some c := hlookup c rfl
      have hacc : Accounted t := ha.accounted
      refine ha.append ?_
      change Charged t _ _
      have htrim := hacc.sub hl _ (events_trim_requests c now (now - minutes 1))
      dsimp only
      generalize trim c.requests (now - minutes 1) = trimmed at htrim ⊢
      obtain ⟨kept, old⟩ := trimmed
      split_ifs with hfull
      · exact htrim
      · apply htrim.again
        apply htrim.accounted.add (AList.lookup_insert _) _ (not_or.mp hfull).2
        simp only [Client.events, List.length_append, List.length_singleton]
        omega

theorem recordDenial_charged {s : State} (h : Accounted s) (ho : ∀ es, (order es).Perm es)
    (ip : Ip) (limit blockSeconds : Nat) (now : Int) :
    Charged s (updates order s now (.recordDenial ip limit blockSeconds))
      (recordDenial s ip limit blockSeconds now).1 := by
  have ha := arrive_charged h ho ip now
  have hlookup := fun c => @arrive_lookup s ip now c
  simp only [updates, recordDenial]
  rw [← arrive]
  generalize arrive s ip now = r at ha hlookup
  obtain ⟨t, _ | c⟩ := r
  · simpa using ha
  · have hl : t.clients.lookup ip = some c := hlookup c rfl
    have hacc : Accounted t := ha.accounted
    refine ha.append ?_
    change Charged t _ _
    have htrim := hacc.sub hl _ (events_trim_denials c now (now - minutes 1))
    dsimp only
    generalize trim c.denials (now - minutes 1) = trimmed at htrim ⊢
    obtain ⟨kept, old⟩ := trimmed
    simp only [List.length_append, List.length_singleton]
    by_cases hfull : kMaximumEvents ≤ wrapSub sizeBits t.eventCount old
    · simp only [hfull, if_true]
      apply htrim.again
      exact htrim.accounted.sub (AList.lookup_insert _) _ rfl
    · simp only [hfull, if_false]
      have hgrown : (Client.events { c with lastSeen := now, denials := kept ++ [now] }) =
          Client.events { c with lastSeen := now, denials := kept } + 1 := by
        simp only [Client.events, List.length_append, List.length_singleton]
        omega
      have hnoted := htrim.again (htrim.accounted.add (AList.lookup_insert _) _ hfull hgrown)
      by_cases hlimit : limit = 0 ∨ limit ≤ kept.length + 1
      · simp only [hlimit, if_true]
        apply hnoted.again
        apply hnoted.accounted.sub (AList.lookup_insert _)
        simp only [Client.events, List.length_append, List.length_singleton, List.length_nil]
        omega
      · simp only [hlimit, if_false]
        exact hnoted

theorem unblock_charged {s : State} (h : Accounted s) (ip : Ip) (now : Int) :
    Charged s (updates order s now (.unblock ip)) (unblock s ip).1 := by
  unfold unblock
  cases hl : s.clients.lookup ip with
  | none => simpa [updates, hl] using Charged.nil h
  | some c =>
    have hheld := h.events_le hl
    have hsize := Table.total_erase (fun _ _ => 1) hl
    have hevents := Table.total_erase (fun _ c => c.events) hl
    have hexact := h.exact
    have hclients := h.clients
    have hmax := h.events
    simp only [Table.total_one] at hsize
    have hsub : wrapSub sizeBits s.eventCount (c.requests.length + c.denials.length) =
        s.eventCount - c.events := wrapSub_of_le hheld (events_lt h.events)
    simp only [updates, hl, hsub]
    exact ⟨⟨hheld, trivial⟩, hsub, by simp only; omega, by simp only; omega, by simp only; omega⟩

theorem perform_charged {s : State} (h : Accounted s) (ho : ∀ es, (order es).Perm es)
    (now : Int) (c : Call) : Charged s (updates order s now c) (perform s now c).1 := by
  cases c with
  | blocked ip => exact cleanup_charged h ho now false
  | requestExceeded ip limit => exact requestExceeded_charged h ho ip limit now
  | recordDenial ip limit blockSeconds => exact recordDenial_charged h ho ip limit blockSeconds now
  | unblock ip => exact unblock_charged h ip now
  | clear => exact ⟨⟨trivial, trivial⟩, rfl, rfl, Nat.zero_le _, Nat.zero_le _⟩

theorem reaches_accounted {s : State} (hr : Reaches s) : Accounted s := by
  induction hr with
  | start => exact ⟨rfl, by decide, by decide⟩
  | call now c _ ih => exact (perform_charged ih (fun es => List.Perm.refl es) now c).accounted

/-- The counter is exact and bounded in every reachable state, and in every call made there each
subtraction from it is covered, in whatever order a pass meets the table. -/
theorem accounting_exact {s : State} (hr : Reaches s) :
    s.eventCount = (s.clients.entries.map (fun e =>
      e.2.requests.length + e.2.denials.length)).sum ∧
    Table.size s.clients ≤ 1024 ∧ s.eventCount ≤ 131072 ∧
    ∀ (order : List Entry → List Entry), (∀ es, (order es).Perm es) → ∀ (now : Int) (c : Call),
      NoUnderflow s.eventCount (updates order s now c) ∧
      (updates order s now c).foldl Update.apply s.eventCount = (perform s now c).1.eventCount := by
  have h := reaches_accounted hr
  refine ⟨h.exact, h.clients, h.events, ?_⟩
  intro order ho now c
  have hc := perform_charged h ho now c
  exact ⟨hc.fits, hc.counted⟩

/-- A denial at a limit of one is counted and taken back within the call. -/
theorem accounting_exact_denial :
    (perform {} 5 (.recordDenial ['a'] 1 3)).1.eventCount = 0 ∧
    NoUnderflow (perform {} 5 (.requestExceeded ['a'] 2)).1.eventCount
      (updates List.reverse (perform {} 5 (.requestExceeded ['a'] 2)).1 7
        (.recordDenial ['a'] 1 3)) := by
  have hdenied := accounting_exact (.call 5 (.recordDenial ['a'] 1 3) .start)
  have hasked := accounting_exact (.call 5 (.requestExceeded ['a'] 2) .start)
  refine ⟨hdenied.1.trans (by decide), ?_⟩
  exact (hasked.2.2.2 List.reverse List.reverse_perm 7 (.recordDenial ['a'] 1 3)).1

end FastdlMm.RateLimiter
