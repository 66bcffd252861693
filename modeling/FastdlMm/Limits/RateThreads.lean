import FastdlMm.Limits.RateBudget

namespace FastdlMm.RateLimiter

/-- Threads that call `requestExceeded` for one address: the limiter behind its mutex, the clock,
and the readings of the threads that wait for the mutex. History are the calls that took it, latest
first, each with its reading and whether the limit was exceeded. -/
structure Workers where
  limiter : State := {}
  clock : Int := 0
  reading : Nat → Option Int := fun _ => none
  calls : List (Int × Bool) := []

/-- A thread reads the clock at the start of a call, or takes the mutex for the rest of the call. -/
inductive WorkerStep where
  | read (thread : Nat) (now : Int)
  | enter (thread : Nat)

namespace Workers

variable (ip : Ip) (limit : Nat)

/-- What a step does, if the thread can take it and the clock does not go back. -/
def step (s : Workers) : WorkerStep → Option Workers
  | .read thread now =>
      if s.reading thread = none ∧ s.clock ≤ now then
        some { s with clock := now, reading := Function.update s.reading thread (some now) }
      else none
  | .enter thread =>
      match s.reading thread with
      | none => none
      | some now =>
          let r := requestExceeded s.limiter ip limit now
          some { s with limiter := r.1
                        reading := Function.update s.reading thread none
                        calls := (now, r.2) :: s.calls }

/-- The runs whose every step meets a condition on the state it starts from. -/
inductive Reaches (meets : Workers → WorkerStep → Prop) : Workers → Prop
  | start : Reaches meets {}
  | step {s s' : Workers} (x : WorkerStep) : Reaches meets s → meets s x →
      s.step ip limit x = some s' → Reaches meets s'

/-- The readings of the calls that were let through. -/
def admitted (s : Workers) : List Int := (s.calls.filter (fun c => !c.2)).map Prod.fst

/-- The reading of the call that took the mutex last. -/
def entered (s : Workers) : Int := (s.calls.head?.map Prod.fst).getD 0

/-- No minute of clock readings holds more admitted calls than the limit. -/
def Limited (s : Workers) : Prop := ∀ x, (lastMinute x s.admitted).length ≤ limit

/-- A thread enters in time: no call let through in the minute before its reading was followed by
one whose reading is a minute later or more, and after such a call none entered last whose reading
lies a quarter of an hour back. -/
def Timely (s : Workers) : WorkerStep → Prop
  | .enter thread => ∀ now ∈ s.reading thread,
      s.calls.Pairwise (fun later c => c.2 = false → now - minutes 1 < c.1 →
        later.1 - minutes 1 < c.1) ∧
      ∀ v ∈ s.admitted, now - minutes 1 < v → now - minutes 15 ≤ s.entered
  | .read _ _ => True

/-- The threads take the mutex in the order of their readings. -/
def InOrder (s : Workers) : WorkerStep → Prop
  | .enter thread => ∀ now ∈ s.reading thread, s.entered ≤ now
  | .read _ _ => True

end Workers

/-- Who is left with a queue by a request under a limit was seen at it. -/
theorem requestExceeded_seen (s : State) (ip : Ip) {limit : Nat} (now : Int) (hl : limit ≠ 0)
    (hne : (view (requestExceeded s ip limit now).1 ip).requests ≠ []) :
    (view (requestExceeded s ip limit now).1 ip).lastSeen = now := by
  have hnone := @arrive_none s ip now
  simp only [requestExceeded, hl, if_false] at hne ⊢
  rw [← arrive] at hne ⊢
  generalize arrive s ip now = r at hnone hne
  obtain ⟨t, _ | c⟩ := r
  · have hfresh : view t ip = {} := hnone rfl
    simp [hfresh] at hne
  · simp only
    split_ifs <;> simp [view_insert]

namespace Workers

/-- The readings of the calls let through that no later call has passed by a minute, latest first:
what trimming would leave of them at most. -/
def unpassed : List (Int × Bool) → List Int
  | [] => []
  | (now, exceeded) :: earlier =>
      (if exceeded then [] else [now]) ++ after (now - minutes 1) (unpassed earlier)

theorem mem_unpassed {calls : List (Int × Bool)} {v : Int} (h : v ∈ unpassed calls) :
    ∃ c ∈ calls, c.2 = false ∧ c.1 = v := by
  induction calls with
  | nil => cases h
  | cons c earlier ih =>
    rcases c with ⟨now, exceeded⟩
    rcases List.mem_append.mp h with hmem | hmem
    · cases exceeded
      · exact ⟨_, List.mem_cons_self, rfl, (List.mem_singleton.mp hmem).symm⟩
      · cases hmem
    · obtain ⟨c, hc, hlet, hv⟩ := ih (List.mem_of_mem_filter hmem)
      exact ⟨c, List.mem_cons_of_mem _ hc, hlet, hv⟩

/-- From a cutoff on, the calls let through are unpassed unless a later call has passed one. -/
theorem after_unpassed {cutoff : Int} {calls : List (Int × Bool)}
    (h : calls.Pairwise fun later c => c.2 = false → cutoff < c.1 → later.1 - minutes 1 < c.1) :
    after cutoff (unpassed calls) =
      after cutoff ((calls.filter (fun c => !c.2)).map Prod.fst) := by
  induction calls with
  | nil => rfl
  | cons c earlier ih =>
    obtain ⟨hpassed, hrest⟩ := List.pairwise_cons.mp h
    have hsame : after cutoff (after (c.1 - minutes 1) (unpassed earlier)) =
        after cutoff (unpassed earlier) := by
      rw [after, after, List.filter_filter]
      apply List.filter_congr
      intro v hv
      obtain ⟨e, he, hlet, rfl⟩ := mem_unpassed hv
      simpa using hpassed e he hlet
    rcases c with ⟨now, _ | _⟩
    · simp only [unpassed, Bool.false_eq_true, if_false, List.filter_cons, Bool.not_false, if_true,
        List.map_cons]
      rw [after_append, hsame, ih hrest, ← after_append, List.singleton_append]
    · simp only [unpassed, if_true, List.nil_append, List.filter_cons, Bool.not_true,
        Bool.false_eq_true, if_false]
      rw [hsame, ih hrest]

variable {ip : Ip} {limit : Nat}

/-- The queue holds every unpassed call in the order of entering, and the client was seen by the
last one that entered. -/
structure Queued (ip : Ip) (s : Workers) : Prop where
  kept : (unpassed s.calls).reverse.Sublist (view s.limiter ip).requests
  seen : (view s.limiter ip).requests ≠ [] → (view s.limiter ip).lastSeen = s.entered

theorem Queued.arrive {s : Workers} (h : Queued ip s) {thread : Nat} {now : Int}
    (hreading : s.reading thread = some now) (htimely : s.Timely (.enter thread)) {c : Client}
    (hc : Evicts now (view s.limiter ip) c) :
    (after (now - minutes 1) (unpassed s.calls)).reverse.Sublist
      (trim c.requests (now - minutes 1)).1 := by
  obtain ⟨hpairwise, hentered⟩ := htimely now hreading
  rw [trim_fst]
  rcases hc with rfl | ⟨rfl, hstale⟩
  · have hqueue := h.kept.filter fun v => decide (now - minutes 1 < v)
    rw [List.filter_reverse] at hqueue
    exact hqueue.trans (after_sublist_dropWhile _ _)
  · -- A client dropped as stale was last seen before the calls of this minute: there were none.
    have hnone : after (now - minutes 1) (unpassed s.calls) = [] := by
      rw [after_unpassed hpairwise]
      apply after_eq_nil
      intro v hv
      by_contra hlate
      have hrecent := hentered v hv (Int.not_le.mp hlate)
      have hunpassed : v ∈ unpassed s.calls := by
        have hmem : v ∈ after (now - minutes 1) s.admitted :=
          List.mem_filter.mpr ⟨hv, by simpa using hlate⟩
        rw [Workers.admitted, ← after_unpassed hpairwise] at hmem
        exact List.mem_of_mem_filter hmem
      have hqueued := h.kept.subset (List.mem_reverse.mpr hunpassed)
      have hseen := h.seen (List.ne_nil_of_mem hqueued)
      have hold : (view s.limiter ip).lastSeen < now - minutes 15 := by
        simp only [stale, Bool.and_eq_true, decide_eq_true_eq] at hstale
        exact hstale.1
      omega
    rw [hnone]
    exact List.nil_sublist _

/-- A call that is let through finds fewer admitted calls in its minute than the limit. -/
theorem admitted_lt {s : Workers} (h : Queued ip s) (hl : 1 ≤ limit) {thread : Nat} {now : Int}
    (hreading : s.reading thread = some now) (htimely : s.Timely (.enter thread))
    (hlet : (requestExceeded s.limiter ip limit now).2 = false) :
    (after (now - minutes 1) s.admitted).length < limit := by
  obtain ⟨c, harrive, -, hcount⟩ := (requestExceeded_eq_false_iff s.limiter ip limit now hl).mp hlet
  have hc : Evicts now (view s.limiter ip) c := by
    rw [← arrive_client harrive]
    exact view_arrive s.limiter ip ip now
  have hqueue := (h.arrive hreading htimely hc).length_le
  rw [List.length_reverse, after_unpassed (htimely now hreading).1] at hqueue
  exact Nat.lt_of_le_of_lt hqueue hcount

theorem Queued.step {s s' : Workers} {x : WorkerStep} (h : Queued ip s) (hl : 1 ≤ limit)
    (htimely : s.Timely x) (hs : s.step ip limit x = some s') : Queued ip s' := by
  cases x with
  | read thread now =>
    simp only [Workers.step] at hs
    split_ifs at hs
    cases hs
    exact ⟨h.kept, h.seen⟩
  | enter thread =>
    simp only [Workers.step] at hs
    cases hreading : s.reading thread with
    | none =>
      rw [hreading] at hs
      cases hs
    | some now =>
      rw [hreading] at hs
      cases hs
      have hpos : limit ≠ 0 := by omega
      obtain ⟨c, hc, -, hrequests⟩ := requestExceeded_requests s.limiter ip now hpos
      refine ⟨?_, requestExceeded_seen s.limiter ip now hpos⟩
      have hkept := h.arrive hreading htimely hc
      rw [hrequests, unpassed, List.reverse_append]
      apply hkept.append
      cases (requestExceeded s.limiter ip limit now).2 <;> exact List.Sublist.refl _

/-- One step keeps the limit in every minute. -/
theorem Limited.step {s s' : Workers} {x : WorkerStep} (h : s.Limited limit) (hl : 1 ≤ limit)
    (hqueued : Queued ip s) (htimely : s.Timely x) (hs : s.step ip limit x = some s') :
    s'.Limited limit := by
  cases x with
  | read thread now =>
    simp only [Workers.step] at hs
    split_ifs at hs
    cases hs
    exact h
  | enter thread =>
    simp only [Workers.step] at hs
    cases hreading : s.reading thread with
    | none =>
      rw [hreading] at hs
      cases hs
    | some now =>
      rw [hreading] at hs
      cases hs
      cases hlet : (requestExceeded s.limiter ip limit now).2 with
      | true =>
        intro x
        simpa [admitted] using h x
      | false =>
        have hfew := admitted_lt hqueued hl hreading htimely hlet
        intro x
        change (lastMinute x (now :: s.admitted)).length ≤ limit
        by_cases hx : x - minutes 1 < now ∧ now ≤ x
        · -- the minute up to `x` begins after the minute of the reading does
          have hle : (lastMinute x s.admitted).length ≤
              (after (now - minutes 1) s.admitted).length := by
            apply List.Sublist.length_le
            apply List.monotone_filter_right
            intro v hv
            have hv' : x - minutes 1 < v ∧ v ≤ x := by simpa using hv
            simp only [decide_eq_true_eq]
            omega
          have hcons : lastMinute x (now :: s.admitted) = now :: lastMinute x s.admitted := by
            simp [lastMinute, hx]
          rw [hcons, List.length_cons]
          omega
        · have hcons : lastMinute x (now :: s.admitted) = lastMinute x s.admitted := by
            simp [lastMinute, hx]
          rw [hcons]
          exact h x

theorem queued_limited (hl : 1 ≤ limit) {s : Workers} (hs : Reaches ip limit Timely s) :
    Queued ip s ∧ s.Limited limit := by
  induction hs with
  | start => exact ⟨⟨List.Sublist.refl _, fun hne => absurd rfl hne⟩, fun _ => Nat.zero_le _⟩
  | step x _ htimely hstep ih =>
    exact ⟨ih.1.step hl htimely hstep, ih.2.step hl ih.1 htimely hstep⟩

/-- The request limit holds with any number of threads in every run in which each call enters in
time for the calls of its minute. -/
theorem limited_of_timely (hl : 1 ≤ limit) {s : Workers} (hs : Reaches ip limit Timely s) :
    s.Limited limit :=
  (queued_limited hl hs).2

/-- In the order of their readings, no call has a later reading than the one that entered last. -/
theorem le_entered {s : Workers} (hs : Reaches ip limit InOrder s) :
    ∀ c ∈ s.calls, c.1 ≤ s.entered := by
  induction hs with
  | start => simp
  | @step s s' x _ horder hstep ih =>
    cases x with
    | read thread now =>
      simp only [Workers.step] at hstep
      split_ifs at hstep
      cases hstep
      exact ih
    | enter thread =>
      simp only [Workers.step] at hstep
      cases hreading : s.reading thread with
      | none =>
        rw [hreading] at hstep
        cases hstep
      | some now =>
        rw [hreading] at hstep
        cases hstep
        have hlate := horder now hreading
        intro c hc
        obtain rfl | hc := List.mem_cons.mp hc
        · exact le_rfl
        · exact (ih c hc).trans hlate

theorem timely_of_inOrder {s : Workers} {x : WorkerStep} (hs : Reaches ip limit InOrder s)
    (horder : s.InOrder x) : s.Timely x := by
  cases x with
  | read thread now => trivial
  | enter thread =>
    intro now hreading
    have hpast := le_entered hs
    have hlast : s.entered ≤ now := horder now hreading
    constructor
    · apply List.pairwise_of_forall_mem_list
      intro later hlater c _ _ hlate
      have hle := hpast later hlater
      omega
    · intro v hv hlate
      obtain ⟨c, hc, rfl⟩ := List.mem_map.mp hv
      have hle := hpast c (List.mem_of_mem_filter hc)
      have hgap : now - minutes 15 ≤ now - minutes 1 := by
        simp only [minutes, seconds]
        omega
      omega

/-- The limit holds as long as the mutex is taken in the order of the readings. -/
theorem limited_of_inOrder (hl : 1 ≤ limit) {s : Workers} (hs : Reaches ip limit InOrder s) :
    s.Limited limit := by
  have htimely : Reaches ip limit Timely s := by
    induction hs with
    | start => exact .start
    | step x hs horder hstep ih => exact .step x ih (timely_of_inOrder hs horder) hstep
  exact (queued_limited hl htimely).2

instance (s : Workers) (x : WorkerStep) : Decidable (s.Timely x) :=
  match x with
  | .enter thread => inferInstanceAs (Decidable (∀ now ∈ s.reading thread, _ ∧ _))
  | .read _ _ => inferInstanceAs (Decidable True)

/-- The steps one after the other, as long as each can be taken and meets the condition. -/
def play (ip : Ip) (limit : Nat) (meets : Workers → WorkerStep → Prop)
    [∀ s x, Decidable (meets s x)] : List WorkerStep → Workers → Option Workers
  | [], s => some s
  | x :: xs, s => if meets s x then (s.step ip limit x).bind (play ip limit meets xs) else none

theorem reaches_of_play {meets : Workers → WorkerStep → Prop} [∀ s x, Decidable (meets s x)]
    {xs : List WorkerStep} {s s' : Workers} (h : Reaches ip limit meets s)
    (hplay : play ip limit meets xs s = some s') : Reaches ip limit meets s' := by
  induction xs generalizing s with
  | nil =>
    cases hplay
    exact h
  | cons x xs ih =>
    rw [play] at hplay
    split_ifs at hplay with hmeets
    obtain ⟨next, hstep, hrest⟩ := Option.bind_eq_some_iff.mp hplay
    exact ih (.step x h hmeets hstep) hrest

/-- Two threads are let through in the other order of their readings. A third is refused in their
minute, a fourth is let through after it. -/
def crossed : List WorkerStep :=
  [.read 0 (seconds 20), .read 1 (seconds 30), .enter 1, .enter 0, .read 2 (seconds 31), .enter 2,
    .read 3 (seconds 91), .enter 3]

theorem limited_of_timely_crossed : ∃ s : Workers,
    s.calls = [(seconds 91, false), (seconds 31, true), (seconds 20, false), (seconds 30, false)] ∧
      s.Limited 2 := by
  have hplay : (play ['a'] 2 Timely crossed {}).map calls =
      some [(seconds 91, false), (seconds 31, true), (seconds 20, false), (seconds 30, false)] := by
    decide +kernel
  obtain ⟨s, hs, hcalls⟩ := Option.map_eq_some_iff.mp hplay
  exact ⟨s, hcalls, limited_of_timely (by decide) (reaches_of_play .start hs)⟩

/-- Two calls are let through at second 10. A thread reads second 69, another reads second 70 and
overtakes it to the mutex. -/
def overtaken : List WorkerStep :=
  [.read 0 (seconds 10), .enter 0, .read 1 (seconds 10), .enter 1, .read 2 (seconds 69),
    .read 3 (seconds 70), .enter 3, .enter 2]

/-- Three calls are let through in the minute up to second 69, at a limit of two. -/
theorem overtaken_exceeds : ∃ s, Reaches ['a'] 2 (fun _ _ => True) s ∧ ¬ s.Limited 2 := by
  have hplay : (play ['a'] 2 (fun _ _ => True) overtaken {}).map admitted =
      some [seconds 69, seconds 70, seconds 10, seconds 10] := by
    decide +kernel
  obtain ⟨s, hs, hadmitted⟩ := Option.map_eq_some_iff.mp hplay
  refine ⟨s, reaches_of_play .start hs, fun h => ?_⟩
  have hwindow := h (seconds 69)
  rw [hadmitted] at hwindow
  revert hwindow
  decide

end Workers

end FastdlMm.RateLimiter
