import FastdlMm.Limits.Bucket
import Mathlib.Logic.Function.Basic

namespace FastdlMm.BandwidthLimiter

/-- The bucket an acquire reserves on: `global_`, or the one behind a lease. -/
inductive BucketRef where
  | global
  | client (id : Nat)
  deriving DecidableEq

/-- The locals of one `acquire`: its lease, `granted`, and the clock reading `now`. -/
structure Acquire where
  client : Option Nat
  granted : Nat
  now : Int

/-- Where a thread stands. Outside `acquire` it holds what the last call returned. In `reserving` it
is inside `reserve` on `ref`, `fromGlobal` is what the global bucket allowed before, and `loaded`
what the loop last read. In `waiting` it holds the deadline, next to the allowed times that went
into it. -/
inductive Thread where
  | returned (bytes : Nat)
  | reserving (a : Acquire) (ref : BucketRef) (fromGlobal loaded : Option Int)
  | waiting (a : Acquire) (fromGlobal : Int) (fromClient : Option Int) (deadline : Int)

/-- The shared state, and per bucket the reservations made so far, newest first. -/
structure Shared where
  quantum : Nat
  stopping : Bool
  buckets : BucketRef → Bucket
  threads : Nat → Thread
  granted : BucketRef → List Grant

/-- What `acquire` does once `reserve` has returned on `ref`. -/
def Acquire.reserved (a : Acquire) (fromGlobal : Option Int) (allowed : Int) : Thread :=
  match fromGlobal with
  | none =>
      match a.client with
      | some id => .reserving a (.client id) (some allowed) none
      | none => .waiting a allowed none allowed
  | some g => .waiting a g (some allowed) (max g allowed)

def Shared.setThread (s : Shared) (i : Nat) (t : Thread) : Shared :=
  { s with threads := Function.update s.threads i t }

/-- The exchange of a reservation succeeds: its bucket moves on and its grant is made. -/
def Shared.exchanged (s : Shared) (ref : BucketRef) (a : Acquire) : Shared :=
  let b := s.buckets ref
  let round := reserveRound b a.granted a.now b.theoreticalArrival
  { s with
    buckets := Function.update s.buckets ref { b with theoreticalArrival := round.2 }
    granted := Function.update s.granted ref (⟨round.1, a.granted⟩ :: s.granted ref) }

inductive Action where
  | start (desired : Nat) (client : Option Nat) (now : Int)
  | load
  | exchange (spurious : Bool)
  | wake (clock : Int)
  | stop

/-- One atomic step of thread `i`; `none` where the thread cannot take it. -/
def act (s : Shared) (i : Nat) : Action → Option Shared
  | .start desired client now =>
      match s.threads i with
      | .returned _ =>
          if desired = 0 ∨ s.stopping then some (s.setThread i (.returned 0))
          else if (s.buckets .global).bytesPerSecond = 0 ∧ client = none then
            some (s.setThread i (.returned desired))
          else
            let a : Acquire := ⟨client, min desired s.quantum, now⟩
            some (s.setThread i (.reserving a .global none none))
      | _ => none
  | .load =>
      match s.threads i with
      | .reserving a ref g none =>
          if (s.buckets ref).bytesPerSecond = 0 then some (s.setThread i (a.reserved g a.now))
          else some (s.setThread i (.reserving a ref g (some (s.buckets ref).theoreticalArrival)))
      | _ => none
  | .exchange spurious =>
      match s.threads i with
      | .reserving a ref g (some previous) =>
          if spurious ∨ (s.buckets ref).theoreticalArrival ≠ previous then
            some (s.setThread i (.reserving a ref g (some (s.buckets ref).theoreticalArrival)))
          else
            let round := reserveRound (s.buckets ref) a.granted a.now previous
            some ((s.exchanged ref a).setThread i (a.reserved g round.1))
      | _ => none
  | .wake clock =>
      match s.threads i with
      | .waiting a _ _ deadline =>
          -- `wait_until` is left at the deadline or on `stop`, and skipped when nothing is due.
          if s.stopping then some (s.setThread i (.returned 0))
          else if a.now < deadline ∧ clock < deadline then none
          else some (s.setThread i (.returned a.granted))
      | _ => none
  | .stop => some { s with stopping := true }

/-- The limiter as `configure` leaves it; client buckets are set up at their own moments. -/
def configured (globalRate perIpRate : Nat) (now : Int) (clientNow : Nat → Int) : Shared where
  quantum := quantumFor globalRate perIpRate
  stopping := false
  buckets := fun
    | .global => configureBucket globalRate (quantumFor globalRate perIpRate) now
    | .client id => configureBucket perIpRate (quantumFor globalRate perIpRate) (clientNow id)
  threads := fun _ => .returned 0
  granted := fun _ => []

/-- Any interleaving of the steps of any number of threads. -/
inductive Reaches (s₀ : Shared) : Shared → Prop
  | refl : Reaches s₀ s₀
  | step {s s' : Shared} (i : Nat) (x : Action) : Reaches s₀ s → act s i x = some s' →
      Reaches s₀ s'

/-- Everything a step can do: leave the buckets alone, move one thread on, or exchange. -/
theorem act_cases {s s' : Shared} {i : Nat} {x : Action} (h : act s i x = some s') :
    (s'.quantum = s.quantum ∧ s'.buckets = s.buckets ∧ s'.granted = s.granted ∧
      s'.threads = s.threads) ∨
    (∃ t, s' = s.setThread i t ∧
      ((∃ bytes, t = .returned bytes) ∨
        (∃ a, a.granted ≤ s.quantum ∧ t = .reserving a .global none none) ∨
        (∃ a ref g l l', s.threads i = .reserving a ref g l ∧ t = .reserving a ref g l') ∨
        (∃ a ref g l, s.threads i = .reserving a ref g l ∧
          (s.buckets ref).bytesPerSecond = 0 ∧ t = a.reserved g a.now))) ∨
    (∃ a ref g l, s.threads i = .reserving a ref g l ∧
      s' = (s.exchanged ref a).setThread i (a.reserved g
        (reserveRound (s.buckets ref) a.granted a.now (s.buckets ref).theoreticalArrival).1)) := by
  cases x with
  | start desired client now =>
    simp only [act] at h
    split at h
    · split_ifs at h <;> cases h
      · exact .inr (.inl ⟨_, rfl, .inl ⟨_, rfl⟩⟩)
      · exact .inr (.inl ⟨_, rfl, .inl ⟨_, rfl⟩⟩)
      · exact .inr (.inl ⟨_, rfl, .inr (.inl ⟨_, min_le_right _ _, rfl⟩)⟩)
    · cases h
  | load =>
    simp only [act] at h
    split at h
    · rename_i a ref g ht
      split_ifs at h with hz <;> cases h
      · exact .inr (.inl ⟨_, rfl, .inr (.inr (.inr ⟨a, ref, g, none, ht, hz, rfl⟩))⟩)
      · exact .inr (.inl ⟨_, rfl, .inr (.inr (.inl ⟨a, ref, g, none, _, ht, rfl⟩))⟩)
    · cases h
  | exchange spurious =>
    simp only [act] at h
    split at h
    · rename_i a ref g previous ht
      split_ifs at h with hmiss <;> cases h
      · exact .inr (.inl ⟨_, rfl, .inr (.inr (.inl ⟨a, ref, g, _, _, ht, rfl⟩))⟩)
      · have hp : (s.buckets ref).theoreticalArrival = previous := by
          by_contra hne
          exact hmiss (.inr hne)
        exact .inr (.inr ⟨a, ref, g, _, ht, by rw [hp]⟩)
    · cases h
  | wake clock =>
    simp only [act] at h
    split at h
    · split_ifs at h <;> cases h
      · exact .inr (.inl ⟨_, rfl, .inl ⟨_, rfl⟩⟩)
      · exact .inr (.inl ⟨_, rfl, .inl ⟨_, rfl⟩⟩)
    · cases h
  | stop =>
    cases h
    exact .inl ⟨rfl, rfl, rfl, rfl⟩

/-- What a thread's locals owe to the grants made: those it carries are among them. -/
def ThreadOk (quantum : Nat) (limited : BucketRef → Prop) (granted : BucketRef → List Grant) :
    Thread → Prop
  | .returned _ => True
  | .reserving a ref none _ => a.granted ≤ quantum ∧ ref = .global
  | .reserving a ref (some g) _ => a.granted ≤ quantum ∧
      (∃ id, a.client = some id ∧ ref = .client id) ∧
      (limited .global → ⟨g, a.granted⟩ ∈ granted .global)
  | .waiting a g c deadline => g ≤ deadline ∧
      (limited .global → ⟨g, a.granted⟩ ∈ granted .global) ∧
      ∀ x, c = some x → x ≤ deadline ∧ ∃ id, a.client = some id ∧
        (limited (.client id) → ⟨x, a.granted⟩ ∈ granted (.client id))

theorem ThreadOk.mono {quantum : Nat} {limited : BucketRef → Prop}
    {granted granted' : BucketRef → List Grant} {t : Thread}
    (h : ThreadOk quantum limited granted t) (hg : ∀ ref, granted ref ⊆ granted' ref) :
    ThreadOk quantum limited granted' t := by
  cases t with
  | returned bytes => trivial
  | reserving a ref g l =>
    cases g with
    | none => exact h
    | some g => exact ⟨h.1, h.2.1, fun hl => hg _ (h.2.2 hl)⟩
  | waiting a g c deadline =>
    refine ⟨h.1, fun hl => hg _ (h.2.1 hl), fun x hx => ?_⟩
    obtain ⟨hle, id, hid, hmem⟩ := h.2.2 x hx
    exact ⟨hle, id, hid, fun hl => hg _ (hmem hl)⟩

/-- A reservation that is over hands its allowed time to the next stage of `acquire`. -/
theorem ThreadOk.reserved {quantum : Nat} {limited : BucketRef → Prop}
    {granted : BucketRef → List Grant} {a : Acquire} {ref : BucketRef} {g l : Option Int}
    (h : ThreadOk quantum limited granted (.reserving a ref g l)) (allowed : Int)
    (hmem : limited ref → ⟨allowed, a.granted⟩ ∈ granted ref) :
    ThreadOk quantum limited granted (a.reserved g allowed) := by
  cases g with
  | none =>
    obtain ⟨hq, rfl⟩ := h
    unfold Acquire.reserved
    cases hc : a.client with
    | none => exact ⟨le_rfl, hmem, by simp⟩
    | some id => exact ⟨hq, ⟨id, hc, rfl⟩, hmem⟩
  | some g =>
    obtain ⟨_, ⟨id, hid, rfl⟩, hg⟩ := h
    refine ⟨le_max_left _ _, hg, fun x hx => ?_⟩
    cases hx
    exact ⟨le_max_right _ _, id, hid, hmem⟩

/-- The invariant of the threads: parameters stay, grants are booked and fit the quantum. -/
structure Sound (s₀ s : Shared) : Prop where
  quantum : s.quantum = s₀.quantum
  rate : ∀ ref, (s.buckets ref).bytesPerSecond = (s₀.buckets ref).bytesPerSecond
  burst : ∀ ref, (s.buckets ref).burstNanoseconds = (s₀.buckets ref).burstNanoseconds
  booked : ∀ ref, (s.buckets ref).Booked (s.granted ref)
  size : ∀ ref, ∀ g ∈ s.granted ref, g.bytes ≤ s₀.quantum
  threads : ∀ i, ThreadOk s₀.quantum (fun ref => (s₀.buckets ref).bytesPerSecond ≠ 0) s.granted
    (s.threads i)

theorem Sound.setThread {s₀ s : Shared} (h : Sound s₀ s) (i : Nat) (t : Thread)
    (ht : ThreadOk s₀.quantum (fun ref => (s₀.buckets ref).bytesPerSecond ≠ 0) s.granted t) :
    Sound s₀ (s.setThread i t) := by
  refine ⟨h.quantum, h.rate, h.burst, h.booked, h.size, fun j => ?_⟩
  by_cases hj : j = i
  · subst hj
    simpa [Shared.setThread] using ht
  · simpa [Shared.setThread, hj] using h.threads j

theorem Sound.exchanged {s₀ s : Shared} (h : Sound s₀ s) (ref : BucketRef) {a : Acquire}
    (ha : a.granted ≤ s₀.quantum) : Sound s₀ (s.exchanged ref a) := by
  have hgrow : ∀ r, s.granted r ⊆ (s.exchanged ref a).granted r := by
    intro r
    by_cases hr : r = ref
    · subst hr; simp [Shared.exchanged]
    · simp [Shared.exchanged, hr]
  refine ⟨h.quantum, fun r => ?_, fun r => ?_, fun r => ?_, fun r => ?_, fun j => ?_⟩
  · by_cases hr : r = ref
    · subst hr; simpa [Shared.exchanged] using h.rate r
    · simpa [Shared.exchanged, hr] using h.rate r
  · by_cases hr : r = ref
    · subst hr; simpa [Shared.exchanged] using h.burst r
    · simpa [Shared.exchanged, hr] using h.burst r
  · by_cases hr : r = ref
    · subst hr
      simpa [Shared.exchanged] using (h.booked r).exchange a.granted a.now
    · simpa [Shared.exchanged, hr] using h.booked r
  · by_cases hr : r = ref
    · subst hr
      simpa [Shared.exchanged] using And.intro ha (h.size r)
    · simpa [Shared.exchanged, hr] using h.size r
  · exact (h.threads j).mono hgrow

theorem act_sound {s₀ s s' : Shared} {i : Nat} {x : Action} (h : Sound s₀ s)
    (hx : act s i x = some s') : Sound s₀ s' := by
  have hi := h.threads i
  rcases act_cases hx with ⟨hq, hb, hg, ht⟩ | ⟨t, rfl, hcase⟩ | ⟨a, ref, g, l, ht, rfl⟩
  · exact ⟨hq.trans h.quantum, by rw [hb]; exact h.rate, by rw [hb]; exact h.burst,
      by rw [hb, hg]; exact h.booked, by rw [hg]; exact h.size, by rw [hg, ht]; exact h.threads⟩
  · apply h.setThread
    rcases hcase with ⟨bytes, rfl⟩ | ⟨a, ha, rfl⟩ | ⟨a, ref, g, l, l', ht, rfl⟩ | ⟨a, ref, g, l, ht, hz, rfl⟩
    · trivial
    · exact ⟨h.quantum ▸ ha, rfl⟩
    · rw [ht] at hi
      cases g <;> exact hi
    · rw [ht] at hi
      exact hi.reserved a.now fun hl => absurd (h.rate ref ▸ hz) hl
  · rw [ht] at hi
    have ha : a.granted ≤ s₀.quantum := by cases g <;> exact hi.1
    have he := h.exchanged ref ha
    apply he.setThread
    have hi' : ThreadOk s₀.quantum (fun ref => (s₀.buckets ref).bytesPerSecond ≠ 0)
        (s.exchanged ref a).granted (.reserving a ref g l) := by
      have := he.threads i
      rwa [show (s.exchanged ref a).threads i = s.threads i from rfl, ht] at this
    exact hi'.reserved _ fun _ => by simp [Shared.exchanged]

theorem reaches_sound {s₀ s : Shared} (h₀ : Sound s₀ s₀) (hr : Reaches s₀ s) : Sound s₀ s := by
  induction hr with
  | refl => exact h₀
  | step i x _ hx ih => exact act_sound ih hx

/-- The rate that `configure` set for a bucket. -/
def rateOf (globalRate perIpRate : Nat) : BucketRef → Nat
  | .global => globalRate
  | .client _ => perIpRate

section Configured

variable {globalRate perIpRate : Nat} {now : Int} {clientNow : Nat → Int}

theorem configured_rate (ref : BucketRef) :
    ((configured globalRate perIpRate now clientNow).buckets ref).bytesPerSecond =
      rateOf globalRate perIpRate ref := by
  cases ref <;> rfl

theorem configured_burst_nonneg (ref : BucketRef) :
    0 ≤ ((configured globalRate perIpRate now clientNow).buckets ref).burstNanoseconds := by
  cases ref <;> exact durationFor_nonneg _ _

theorem configured_sound : Sound (configured globalRate perIpRate now clientNow)
    (configured globalRate perIpRate now clientNow) where
  quantum := rfl
  rate := fun _ => rfl
  burst := fun _ => rfl
  booked := fun _ => Bucket.Booked.fresh _
  size := fun _ _ hg => absurd hg List.not_mem_nil
  threads := fun _ => trivial

/-- Under any interleaving each bucket keeps to its rate in every window, and no thread waits for
less than both its allowed times. -/
theorem bucket_conforms {s : Shared}
    (hr : Reaches (configured globalRate perIpRate now clientNow) s) :
    (∀ ref, 12500 ≤ rateOf globalRate perIpRate ref → rateOf globalRate perIpRate ref ≤ 1250000000 →
      (s.buckets ref).theoreticalArrival < int64Max → ∀ x y : Int, x ≤ y →
        (bytesWithin x y (s.granted ref) : Int) * kNanosecondsPerSecond ≤
          rateOf globalRate perIpRate ref * (y - x + (s.buckets ref).burstNanoseconds) +
            quantumFor globalRate perIpRate * kNanosecondsPerSecond) ∧
    (∀ i a fromGlobal fromClient deadline,
      s.threads i = .waiting a fromGlobal (some fromClient) deadline →
        fromGlobal ≤ deadline ∧ fromClient ≤ deadline ∧
        (globalRate ≠ 0 → ⟨fromGlobal, a.granted⟩ ∈ s.granted .global) ∧
        ∃ id, a.client = some id ∧
          (perIpRate ≠ 0 → ⟨fromClient, a.granted⟩ ∈ s.granted (.client id))) := by
  have hs := reaches_sound configured_sound hr
  constructor
  · intro ref hlow hhigh hlive x y hxy
    have hrate := (hs.rate ref).trans (configured_rate ref)
    have hburst : 0 ≤ (s.buckets ref).burstNanoseconds := by
      rw [hs.burst ref]
      exact configured_burst_nonneg ref
    have hconf := hs.booked ref hlive
    rw [hrate] at hconf
    have hq := quantumFor_le globalRate perIpRate
    have hquantum : quantumFor globalRate perIpRate < 2 ^ sizeBits := by
      simp only [sizeBits]
      omega
    have hpos : 0 < rateOf globalRate perIpRate ref := by omega
    have hwrap : Unwrapped (rateOf globalRate perIpRate ref) (quantumFor globalRate perIpRate) := by
      apply Unwrapped.of_le hpos
      calc min (rateOf globalRate perIpRate ref) (quantumFor globalRate perIpRate) *
            kNanosecondsPerSecond + rateOf globalRate perIpRate ref
          ≤ 64 * 1024 * kNanosecondsPerSecond + 1250000000 :=
            Nat.add_le_add (Nat.mul_le_mul_right _ ((min_le_right _ _).trans hq)) hhigh
        _ ≤ 2 ^ 64 := by decide
    exact bytesWithin_le hpos hquantum hwrap hburst hconf (hs.size ref) hxy
  · intro i a g c deadline ht
    have hi := hs.threads i
    rw [ht] at hi
    obtain ⟨hg, hgmem, hc⟩ := hi
    obtain ⟨hc, id, hid, hcmem⟩ := hc c rfl
    exact ⟨hg, hc, fun h0 => hgmem h0, id, hid, fun h0 => hcmem h0⟩

end Configured

/-- One acquire of 1000 bytes through both buckets, up to its wait. -/
theorem bucket_conforms_single :
    ∃ s a, Reaches (configured 1000000 1000000 5 (fun _ => 5)) s ∧
      s.threads 0 = .waiting a 5 (some 5) 5 ∧
      bytesWithin 5 5 (s.granted .global) = 1000 ∧
      (bytesWithin 5 5 (s.granted .global) : Int) * kNanosecondsPerSecond ≤
        1000000 * (5 - 5 + (s.buckets .global).burstNanoseconds) +
          quantumFor 1000000 1000000 * kNanosecondsPerSecond ∧ (5 : Int) ≤ 5 := by
  have hstart := Reaches.step 0 (.start 1000 (some 7) 5)
    (@Reaches.refl (configured 1000000 1000000 5 (fun _ => 5))) rfl
  have hglobal := (hstart.step 0 .load rfl).step 0 (.exchange false) rfl
  have hclient := (hglobal.step 0 .load rfl).step 0 (.exchange false) rfl
  have hbound := bucket_conforms hclient
  refine ⟨_, ⟨some 7, 1000, 5⟩, hclient, rfl, by decide, ?_, ?_⟩
  · exact hbound.1 .global (by decide) (by decide) (by decide) 5 5 le_rfl
  · exact (hbound.2 0 _ _ _ _ rfl).1

end FastdlMm.BandwidthLimiter
