import FastdlMm.Framework.VirtualClock
import FastdlMm.Limits.BucketThreads

namespace FastdlMm.BandwidthLimiter

/-- A reservation of an acquire, with the time it is allowed at. -/
structure Reservation where
  acquire : Acquire
  allowed : Int

def Reservation.grant (r : Reservation) : Grant := ⟨r.allowed, r.acquire.granted⟩

/-- The reservations on each bucket, newest first, after an action of a thread. -/
def noted (s : Shared) (i : Nat) (x : Action) (log : BucketRef → List Reservation) :
    BucketRef → List Reservation :=
  match x, s.threads i with
  | .exchange false, .reserving a ref _ (some previous) =>
      if (s.buckets ref).theoreticalArrival = previous then
        Function.update log ref
          (⟨a, (reserveRound (s.buckets ref) a.granted a.now previous).1⟩ :: log ref)
      else log
  | _, _ => log

/-- The steady clock does not run before its epoch. -/
def Action.Timely : Action → Prop
  | .start _ _ now => 0 ≤ now
  | _ => True

/-- The runs of `Reaches` with their reservations. -/
inductive Recorded (s₀ : Shared) : Shared → (BucketRef → List Reservation) → Prop
  | start : Recorded s₀ s₀ fun _ => []
  | act {s s' : Shared} {log : BucketRef → List Reservation} (i : Nat) (x : Action) :
      Recorded s₀ s log → x.Timely → act s i x = some s' → Recorded s₀ s' (noted s i x log)

/-- The buckets an acquire reserves on. -/
def Acquire.refs (a : Acquire) : List BucketRef := .global :: a.client.toList.map .client

/-- By this time the bucket can have granted what it had when it was configured and what it has
granted since. -/
def Bucket.Affords (b₀ : Bucket) (log : List Reservation) (time : Int) : Prop :=
  WithinBurst b₀.burstNanoseconds b₀.theoreticalArrival time
    (log.map fun r => r.grant.booking b₀.bytesPerSecond)

/-- Every reservation on the bucket is allowed as soon as the bucket affords the earlier ones. -/
structure Bucket.Spent (b₀ b : Bucket) (log : List Reservation) : Prop where
  stamp : b.theoreticalArrival = timestamp b₀.theoreticalArrival
    (log.map fun r => r.grant.booking b₀.bytesPerSecond)
  earliest : ∀ r earlier, r :: earlier <:+ log →
    IsLeast {time | r.acquire.now ≤ time ∧ b₀.Affords earlier time} r.allowed

/-- What `reserve` returned to an acquire: its reservation, or its own clock reading where the
bucket has no limit. -/
def Returned (s₀ : Shared) (log : BucketRef → List Reservation) (a : Acquire) (ref : BucketRef)
    (time : Int) : Prop :=
  if (s₀.buckets ref).bytesPerSecond = 0 then time = a.now else ⟨a, time⟩ ∈ log ref

/-- The times a thread has in its locals are what its calls of `reserve` returned. -/
def Carries (s₀ : Shared) (log : BucketRef → List Reservation) : Thread → Prop
  | .returned _ => True
  | .reserving a ref fromGlobal loaded => 0 ≤ a.now ∧
      (loaded.isSome → (s₀.buckets ref).bytesPerSecond ≠ 0) ∧
      ((fromGlobal = none ∧ ref = .global) ∨
        ∃ id time, a.client = some id ∧ ref = .client id ∧ fromGlobal = some time ∧
          Returned s₀ log a .global time)
  | .waiting a fromGlobal fromClient deadline => Returned s₀ log a .global fromGlobal ∧
      ((a.client = none ∧ fromClient = none ∧ deadline = fromGlobal) ∨
        ∃ id time, a.client = some id ∧ fromClient = some time ∧
          Returned s₀ log a (.client id) time ∧ deadline = max fromGlobal time)

section Buckets

variable {b₀ b : Bucket} {log : List Reservation}

theorem reserveRound_allowed (b : Bucket) (bytes : Nat) {now : Int} (h : 0 ≤ now)
    (previous : Int) :
    (reserveRound b bytes now previous).1 = max now (previous - b.burstNanoseconds) := by
  simp only [reserveRound]
  split_ifs <;> omega

theorem Bucket.Affords.mono {time time' : Int} (h : b₀.Affords log time) (ht : time ≤ time') :
    b₀.Affords log time' := by
  rw [Affords, ← timestamp_le_iff] at h ⊢
  omega

theorem Bucket.Spent.fresh (b₀ : Bucket) : b₀.Spent b₀ [] := by
  refine ⟨rfl, fun r earlier h => ?_⟩
  exact absurd (List.suffix_nil.mp h) (List.cons_ne_nil _ _)

/-- A reservation is allowed as soon as the bucket affords it, and is the next to be afforded. -/
theorem Bucket.Spent.exchange (h : b₀.Spent b log) (hrate : b.bytesPerSecond = b₀.bytesPerSecond)
    (hburst : b.burstNanoseconds = b₀.burstNanoseconds) {a : Acquire} (ha : 0 ≤ a.now)
    (hlive : (reserveRound b a.granted a.now b.theoreticalArrival).2 < int64Max) :
    b₀.Spent
      { b with theoreticalArrival := (reserveRound b a.granted a.now b.theoreticalArrival).2 }
      (⟨a, (reserveRound b a.granted a.now b.theoreticalArrival).1⟩ :: log) := by
  have hallowed := reserveRound_allowed b a.granted ha b.theoreticalArrival
  refine ⟨?_, fun r earlier hr => ?_⟩
  · rw [List.map_cons, timestamp, ← h.stamp]
    dsimp only
    rw [reserveRound_next hlive, hrate]
    rfl
  · obtain heq | hr := List.suffix_cons_iff.mp hr
    · obtain ⟨rfl, rfl⟩ := List.cons.inj heq
      dsimp only
      rw [hallowed, hburst, h.stamp]
      exact isLeast_max_timestamp _ _ _ _
    · exact h.earliest r earlier hr

theorem reserveRound_le_next (b : Bucket) (bytes : Nat) (now previous : Int)
    (hlive : (reserveRound b bytes now previous).2 < int64Max) :
    previous ≤ (reserveRound b bytes now previous).2 := by
  have hcost := durationFor_nonneg bytes b.bytesPerSecond
  rw [reserveRound_next hlive]
  have := le_max_left previous (reserveRound b bytes now previous).1
  omega

end Buckets

section Threads

variable {s₀ s s' : Shared} {log log' : BucketRef → List Reservation} {t : Thread}

theorem Returned.mono {a : Acquire} {ref : BucketRef} {time : Int}
    (h : Returned s₀ log a ref time) (hlog : ∀ ref, log ref ⊆ log' ref) :
    Returned s₀ log' a ref time := by
  unfold Returned at h ⊢
  split_ifs at h ⊢
  · exact h
  · exact hlog ref h

theorem Carries.mono (h : Carries s₀ log t) (hlog : ∀ ref, log ref ⊆ log' ref) :
    Carries s₀ log' t := by
  cases t with
  | returned bytes => trivial
  | reserving a ref g l =>
    refine ⟨h.1, h.2.1, ?_⟩
    obtain hfirst | ⟨id, time, hid, href, hg, hreturned⟩ := h.2.2
    · exact .inl hfirst
    · exact .inr ⟨id, time, hid, href, hg, hreturned.mono hlog⟩
  | waiting a g c deadline =>
    refine ⟨h.1.mono hlog, ?_⟩
    obtain hnone | ⟨id, time, hid, hc, hreturned, hdeadline⟩ := h.2
    · exact .inl hnone
    · exact .inr ⟨id, time, hid, hc, hreturned.mono hlog, hdeadline⟩

/-- A reservation that is over hands its time to the next stage of `acquire`. -/
theorem Carries.reserved {a : Acquire} {ref : BucketRef} {g l : Option Int}
    (h : Carries s₀ log (.reserving a ref g l)) {time : Int} (ht : Returned s₀ log a ref time) :
    Carries s₀ log (a.reserved g time) := by
  obtain ⟨hnow, -, ⟨rfl, rfl⟩ | ⟨id, g, hid, rfl, rfl, hg⟩⟩ := h
  · unfold Acquire.reserved
    cases hc : a.client with
    | none => exact ⟨ht, .inl ⟨hc, rfl, rfl⟩⟩
    | some id => exact ⟨hnow, fun h => absurd h Bool.false_ne_true, .inr ⟨id, time, hc, rfl, rfl, ht⟩⟩
  · exact ⟨hg, .inr ⟨id, time, hid, rfl, ht, rfl⟩⟩

/-- What an action does to the reservations: nothing, where the buckets stay; or it adds one. -/
theorem noted_cases {i : Nat} {x : Action} (hx : act s i x = some s') (htimely : x.Timely) :
    (noted s i x log = log ∧ s'.buckets = s.buckets ∧ s'.granted = s.granted ∧
      (s'.threads = s.threads ∨ ∃ t, s' = s.setThread i t ∧
        ((∃ bytes, t = .returned bytes) ∨
          (∃ a, 0 ≤ a.now ∧ t = .reserving a .global none none) ∨
          (∃ a ref g l l', s.threads i = .reserving a ref g l ∧ t = .reserving a ref g l' ∧
            (l.isSome ∨ (s.buckets ref).bytesPerSecond ≠ 0)) ∨
          (∃ a ref g l, s.threads i = .reserving a ref g l ∧
            (s.buckets ref).bytesPerSecond = 0 ∧ t = a.reserved g a.now)))) ∨
    (∃ a ref g previous, s.threads i = .reserving a ref g (some previous) ∧
      noted s i x log = Function.update log ref (⟨a, (reserveRound (s.buckets ref) a.granted a.now
        (s.buckets ref).theoreticalArrival).1⟩ :: log ref) ∧
      s' = (s.exchanged ref a).setThread i (a.reserved g
        (reserveRound (s.buckets ref) a.granted a.now (s.buckets ref).theoreticalArrival).1)) := by
  cases x with
  | start desired client now =>
    simp only [act] at hx
    split at hx
    · split_ifs at hx <;> cases hx
      · exact .inl ⟨rfl, rfl, rfl, .inr ⟨_, rfl, .inl ⟨_, rfl⟩⟩⟩
      · exact .inl ⟨rfl, rfl, rfl, .inr ⟨_, rfl, .inl ⟨_, rfl⟩⟩⟩
      · refine .inl ⟨rfl, rfl, rfl, .inr ⟨_, rfl, .inr (.inl ⟨_, ?_, rfl⟩)⟩⟩
        exact htimely
    · cases hx
  | load =>
    simp only [act] at hx
    split at hx
    · rename_i a ref g ht
      split_ifs at hx with hz <;> cases hx
      · exact .inl ⟨rfl, rfl, rfl, .inr ⟨_, rfl, .inr (.inr (.inr ⟨a, ref, g, none, ht, hz, rfl⟩))⟩⟩
      · exact .inl ⟨rfl, rfl, rfl, .inr ⟨_, rfl,
          .inr (.inr (.inl ⟨a, ref, g, none, _, ht, rfl, .inr hz⟩))⟩⟩
    · cases hx
  | exchange spurious =>
    simp only [act] at hx
    split at hx
    · rename_i a ref g previous ht
      by_cases hmiss : spurious = true ∨ (s.buckets ref).theoreticalArrival ≠ previous
      · rw [if_pos hmiss] at hx
        cases hx
        have hsame : noted s i (.exchange spurious) log = log := by
          unfold noted
          rw [ht]
          obtain rfl | hne := hmiss
          · rfl
          · cases spurious
            · exact if_neg hne
            · rfl
        exact .inl ⟨hsame, rfl, rfl, .inr ⟨_, rfl,
          .inr (.inr (.inl ⟨a, ref, g, _, _, ht, rfl, .inl rfl⟩))⟩⟩
      · rw [if_neg hmiss] at hx
        cases hx
        obtain ⟨hspurious, hp⟩ := not_or.mp hmiss
        obtain rfl := Bool.eq_false_of_not_eq_true hspurious
        have hp := not_not.mp hp
        refine .inr ⟨a, ref, g, _, ht, ?_, by rw [hp]⟩
        unfold noted
        rw [ht]
        dsimp only
        rw [if_pos hp, hp]
    · cases hx
  | wake clock =>
    simp only [act] at hx
    split at hx
    · split_ifs at hx <;> cases hx
      · exact .inl ⟨rfl, rfl, rfl, .inr ⟨_, rfl, .inl ⟨_, rfl⟩⟩⟩
      · exact .inl ⟨rfl, rfl, rfl, .inr ⟨_, rfl, .inl ⟨_, rfl⟩⟩⟩
    · cases hx
  | stop =>
    cases hx
    exact .inl ⟨rfl, rfl, rfl, .inl rfl⟩

/-- The invariant: every bucket has been spent as soon as it could be, and the threads know. -/
structure Greedy (s₀ s : Shared) (log : BucketRef → List Reservation) : Prop where
  granted : ∀ ref, s.granted ref = (log ref).map Reservation.grant
  spent : ∀ ref, (s.buckets ref).theoreticalArrival < int64Max →
    (s₀.buckets ref).Spent (s.buckets ref) (log ref)
  threads : ∀ i, Carries s₀ log (s.threads i)

theorem Greedy.setThread (h : Greedy s₀ s log) {i : Nat} (ht : Carries s₀ log t) :
    Greedy s₀ (s.setThread i t) log := by
  refine ⟨h.granted, h.spent, fun j => ?_⟩
  by_cases hj : j = i
  · subst hj
    simpa [Shared.setThread] using ht
  · simpa [Shared.setThread, hj] using h.threads j

theorem Greedy.exchanged (h : Greedy s₀ s log) (hs : Sound s₀ s) {ref : BucketRef} {a : Acquire}
    (ha : 0 ≤ a.now) : Greedy s₀ (s.exchanged ref a) (Function.update log ref
      (⟨a, (reserveRound (s.buckets ref) a.granted a.now (s.buckets ref).theoreticalArrival).1⟩ ::
        log ref)) := by
  refine ⟨fun r => ?_, fun r hlive => ?_, fun j => (h.threads j).mono fun r => ?_⟩
  · obtain rfl | hr := eq_or_ne r ref
    · simp [Shared.exchanged, h.granted r, Reservation.grant]
    · simp [Shared.exchanged, hr, h.granted r]
  · obtain rfl | hr := eq_or_ne r ref
    · simp only [Shared.exchanged, Function.update_self] at hlive ⊢
      have hprevious := reserveRound_le_next _ _ _ _ hlive
      exact (h.spent r (by omega)).exchange (hs.rate r) (hs.burst r) ha hlive
    · simp only [Shared.exchanged, Function.update_of_ne hr] at hlive ⊢
      exact h.spent r hlive
  · obtain rfl | hr := eq_or_ne r ref
    · rw [Function.update_self]
      exact List.subset_cons_self _ _
    · rw [Function.update_of_ne hr]
      exact List.Subset.refl _

theorem Greedy.act (h : Greedy s₀ s log) (hs : Sound s₀ s) {i : Nat} {x : Action}
    (hx : act s i x = some s') (htimely : x.Timely) : Greedy s₀ s' (noted s i x log) := by
  have hi := h.threads i
  obtain ⟨hlog, hb, hg, ht | ⟨t, rfl, hcase⟩⟩ | ⟨a, ref, g, l, ht, hlog, rfl⟩ :=
    @noted_cases s s' log i x hx htimely
  · rw [hlog]
    exact ⟨by rw [hg]; exact h.granted, by rw [hb]; exact h.spent, by rw [ht]; exact h.threads⟩
  · rw [hlog]
    apply h.setThread
    obtain ⟨bytes, rfl⟩ | ⟨a, ha, rfl⟩ | ⟨a, ref, g, l, l', ht, rfl, hl⟩ |
      ⟨a, ref, g, l, ht, hz, rfl⟩ := hcase
    · trivial
    · exact ⟨ha, fun h => absurd h Bool.false_ne_true, .inl ⟨rfl, rfl⟩⟩
    · rw [ht] at hi
      refine ⟨hi.1, fun _ => ?_, hi.2.2⟩
      obtain hl | hl := hl
      · exact hi.2.1 hl
      · exact hs.rate ref ▸ hl
    · rw [ht] at hi
      have hfree : Returned s₀ log a ref a.now := by
        rw [Returned, if_pos ((hs.rate ref).symm.trans hz)]
      exact hi.reserved hfree
  · rw [ht] at hi
    rw [hlog]
    have he := @Greedy.exchanged _ _ _ h hs ref a hi.1
    apply he.setThread
    have hi' := he.threads i
    rw [show (s.exchanged ref a).threads i = s.threads i from rfl, ht] at hi'
    refine hi'.reserved ?_
    rw [Returned, if_neg (hi.2.1 rfl), Function.update_self]
    exact List.mem_cons_self

theorem Recorded.reaches (hr : Recorded s₀ s log) : Reaches s₀ s := by
  induction hr with
  | start => exact .refl
  | act i x _ _ hx ih => exact ih.step i x hx

end Threads

section Configured

variable {globalRate perIpRate : Nat} {now : Int} {clientNow : Nat → Int}

theorem recorded_greedy {s : Shared} {log : BucketRef → List Reservation}
    (hr : Recorded (configured globalRate perIpRate now clientNow) s log) :
    Greedy (configured globalRate perIpRate now clientNow) s log := by
  induction hr with
  | start => exact ⟨fun _ => rfl, fun ref _ => Bucket.Spent.fresh _, fun _ => trivial⟩
  | act i x hr htimely hx ih =>
    exact ih.act (reaches_sound configured_sound hr.reaches) hx htimely

/-- The time that a call of `reserve` returned is the first at which its bucket affords what it had
granted before. -/
theorem Returned.isLeast {s₀ s : Shared} {log : BucketRef → List Reservation} {a : Acquire}
    {ref : BucketRef} {time : Int} (h : Returned s₀ log a ref time) (hs : Greedy s₀ s log)
    (hlive : (s.buckets ref).theoreticalArrival < int64Max) : ∃ before,
      ((s₀.buckets ref).bytesPerSecond ≠ 0 → ⟨a, time⟩ :: before <:+ log ref) ∧
      IsLeast {u | a.now ≤ u ∧
        ((s₀.buckets ref).bytesPerSecond ≠ 0 → (s₀.buckets ref).Affords before u)} time := by
  by_cases hrate : (s₀.buckets ref).bytesPerSecond = 0
  · rw [Returned, if_pos hrate] at h
    refine ⟨[], fun hne => absurd hrate hne, ?_, fun u hu => ?_⟩
    · exact ⟨h.ge, fun hne => absurd hrate hne⟩
    · rw [h]
      exact hu.1
  · rw [Returned, if_neg hrate] at h
    obtain ⟨later, before, hlog⟩ := List.append_of_mem h
    have hsuffix : ⟨a, time⟩ :: before <:+ log ref := by
      rw [hlog]
      exact List.suffix_append _ _
    obtain ⟨hmem, hleast⟩ := (hs.spent ref hlive).earliest _ before hsuffix
    refine ⟨before, fun _ => hsuffix, ⟨hmem.1, fun _ => hmem.2⟩, fun u hu => ?_⟩
    exact hleast ⟨hu.1, hu.2 hrate⟩

/-- Under any interleaving no thread is made to wait longer than it has to: its deadline is the first
time, from its clock reading on, at which each bucket that it reserved on affords what had been
granted there before it. -/
theorem waits_no_longer {s : Shared} {log : BucketRef → List Reservation}
    (hr : Recorded (configured globalRate perIpRate now clientNow) s log) {i : Nat} {a : Acquire}
    {fromGlobal : Int} {fromClient : Option Int} {deadline : Int}
    (hw : s.threads i = .waiting a fromGlobal fromClient deadline)
    (hlive : ∀ ref ∈ a.refs, (s.buckets ref).theoreticalArrival < int64Max) :
    (∀ ref, s.granted ref = (log ref).map Reservation.grant) ∧
    ∃ before : BucketRef → List Reservation,
      (∀ ref ∈ a.refs, rateOf globalRate perIpRate ref ≠ 0 →
        ∃ time, ⟨a, time⟩ :: before ref <:+ log ref) ∧
      IsLeast {time | a.now ≤ time ∧ ∀ ref ∈ a.refs, rateOf globalRate perIpRate ref ≠ 0 →
        ((configured globalRate perIpRate now clientNow).buckets ref).Affords (before ref) time}
        deadline := by
  have hs := recorded_greedy hr
  refine ⟨hs.granted, ?_⟩
  have hi := hs.threads i
  rw [hw] at hi
  obtain ⟨hglobal, hrest⟩ := hi
  obtain ⟨beforeGlobal, hsuffix, hleast⟩ := hglobal.isLeast hs (hlive .global (by simp [Acquire.refs]))
  simp only [configured_rate] at hsuffix hleast
  obtain ⟨hnone, -, rfl⟩ | ⟨id, time, hid, -, hclient, rfl⟩ := hrest
  · refine ⟨fun _ => beforeGlobal, ?_, ?_⟩
    · simp only [Acquire.refs, hnone, Option.toList_none, List.map_nil, List.mem_singleton,
        forall_eq]
      exact fun hrate => ⟨_, hsuffix hrate⟩
    · simpa only [Acquire.refs, hnone, Option.toList_none, List.map_nil, List.mem_singleton,
        forall_eq] using hleast
  · obtain ⟨beforeClient, hsuffix', hleast'⟩ :=
      hclient.isLeast hs (hlive (.client id) (by simp [Acquire.refs, hid]))
    simp only [configured_rate] at hsuffix' hleast'
    refine ⟨fun ref => if ref = .global then beforeGlobal else beforeClient, ?_, ?_⟩
    · simp only [Acquire.refs, hid, Option.toList_some, List.map_cons, List.map_nil,
        List.mem_cons, List.not_mem_nil, or_false, forall_eq_or_imp, forall_eq, if_true,
        reduceCtorEq, if_false]
      exact ⟨fun hrate => ⟨_, hsuffix hrate⟩, fun hrate => ⟨_, hsuffix' hrate⟩⟩
    · simp only [Acquire.refs, hid, Option.toList_some, List.map_cons, List.map_nil,
        List.mem_cons, List.not_mem_nil, or_false, forall_eq_or_imp, forall_eq, if_true,
        reduceCtorEq, if_false]
      refine ⟨⟨?_, fun hrate => ?_, fun hrate => ?_⟩, fun u hu => ?_⟩
      · exact hleast.1.1.trans (le_max_left _ _)
      · exact (hleast.1.2 hrate).mono (le_max_left _ _)
      · exact (hleast'.1.2 hrate).mono (le_max_right _ _)
      · obtain ⟨hnow, hg, hc⟩ := hu
        exact max_le (hleast.2 ⟨hnow, hg⟩) (hleast'.2 ⟨hnow, hc⟩)

end Configured

section Example

variable {s₀ : Shared}

/-- An acquire on a client's bucket, with no limit on the global one and nobody in between. -/
def acquiring (i desired id : Nat) (now : Int) : List (Nat × Action) :=
  [(i, .start desired (some id) now), (i, .load), (i, .load), (i, .exchange false)]

def playAll : List (Nat × Action) → Shared × (BucketRef → List Reservation) →
    Option (Shared × (BucketRef → List Reservation))
  | [], r => some r
  | (i, x) :: xs, r => (act r.1 i x).bind fun s => playAll xs (s, noted r.1 i x r.2)

theorem recorded_of_playAll {xs : List (Nat × Action)} (htimely : ∀ x ∈ xs, x.2.Timely)
    {r r' : Shared × (BucketRef → List Reservation)} (h : Recorded s₀ r.1 r.2)
    (hr : playAll xs r = some r') : Recorded s₀ r'.1 r'.2 := by
  induction xs generalizing r with
  | nil =>
    cases hr
    exact h
  | cons x xs ih =>
    obtain ⟨s, hx, hrest⟩ := Option.bind_eq_some_iff.mp hr
    exact ih (fun y hy => htimely y (List.mem_cons_of_mem _ hy))
      (h.act x.1 x.2 (htimely x List.mem_cons_self) hx) hrest

deriving instance DecidableEq for Acquire, Thread

def burstSpent : Option (Shared × (BucketRef → List Reservation)) :=
  playAll (acquiring 0 1024 7 5 ++ acquiring 1 1024 7 5 ++ acquiring 2 1024 7 5)
    (configured 0 20000 5 fun _ => 5, fun _ => [])

theorem burstSpent_isSome : burstSpent.isSome := by decide +kernel

/-- Two acquires spend the burst of an address, and a third one has to wait. -/
theorem waits_no_longer_third : ∃ s log, Recorded (configured 0 20000 5 fun _ => 5) s log ∧
    s.threads 2 = .waiting ⟨some 7, 1024, 5⟩ 5 (some 2400005) 2400005 ∧
    ∃ before : BucketRef → List Reservation,
      IsLeast {time | 5 ≤ time ∧ ∀ ref ∈ [BucketRef.global, .client 7], rateOf 0 20000 ref ≠ 0 →
        ((configured 0 20000 5 fun _ => 5).buckets ref).Affords (before ref) time} 2400005 := by
  have hr := (Option.some_get burstSpent_isSome).symm
  have hrecorded := recorded_of_playAll (by simp [acquiring, Action.Timely]) .start hr
  have hwaits : (burstSpent.get burstSpent_isSome).1.threads 2 =
      .waiting ⟨some 7, 1024, 5⟩ 5 (some 2400005) 2400005 := by decide +kernel
  obtain ⟨-, before, -, hleast⟩ := waits_no_longer hrecorded hwaits (by decide +kernel)
  exact ⟨_, _, hrecorded, hwaits, before, hleast⟩

end Example
end FastdlMm.BandwidthLimiter
