import FastdlMm.Limits.BucketThreads

namespace FastdlMm.BandwidthLimiter

/-- Where a thread that has something to wait for stands in `wait_until`: before the lock, with
`waitMutex_` and about to test `stopping_`, with the test behind it and about to sleep, asleep on
`wake_`, awake and about to lock again, or behind the wait. A wakeup at the deadline is noted. -/
inductive Phase where
  | before
  | holding (timedOut : Bool)
  | tested
  | asleep
  | woken (timedOut : Bool)
  | over
  deriving DecidableEq

/-- How far `stop` has come. -/
inductive StopPhase where
  | running
  | stored
  | notified
  | returned
  deriving DecidableEq

/-- The limiter in the steps its waits are made of. -/
structure Waits where
  shared : Shared
  owner : Option Nat := none
  phase : Nat → Phase := fun _ => .before
  stop : StopPhase := .running

inductive WaitStep where
  /-- A step of thread `i` that is no part of its wait. -/
  | run (i : Nat) (x : Action)
  /-- The wait of thread `i`. -/
  | lock (i : Nat)
  | test (i : Nat)
  | sleep (i : Nat)
  | expire (i : Nat) (clock : Int)
  | wakeSpuriously (i : Nat)
  | relock (i : Nat)
  /-- Thread `i` reads `stopping_` a last time and returns from `acquire`. -/
  | finish (i : Nat)
  /-- `stop`: the store, `notify_all`, and the return. -/
  | store
  | notify
  | finishStop

namespace Waits

def setPhase (w : Waits) (i : Nat) (p : Phase) : Waits :=
  { w with phase := Function.update w.phase i p }

/-- `acquire` returns. -/
def leave (w : Waits) (i bytes : Nat) : Waits :=
  { w with shared := w.shared.setThread i (.returned bytes), phase := Function.update w.phase i .before }

/-- What `notify_all` does to a thread. -/
def notified : Phase → Phase
  | .asleep => .woken false
  | p => p

/-- One atomic step; `none` where it cannot be taken. -/
def step (w : Waits) : WaitStep → Option Waits
  | .run i x =>
      match x with
      | .start _ _ _ | .load | .exchange _ => (act w.shared i x).map fun s => { w with shared := s }
      | .wake _ | .stop => none
  | .lock i =>
      match w.shared.threads i, w.phase i, w.owner with
      | .waiting a _ _ deadline, .before, none =>
          if a.now < deadline then some { w.setPhase i (.holding false) with owner := some i } else none
      | _, _, _ => none
  | .test i =>
      match w.shared.threads i, w.phase i with
      | .waiting _ _ _ _, .holding timedOut =>
          if w.shared.stopping then some { w.leave i 0 with owner := none }
          else if timedOut then some { w.setPhase i .over with owner := none }
          else some (w.setPhase i .tested)
      | _, _ => none
  | .sleep i =>
      match w.phase i with
      | .tested => some { w.setPhase i .asleep with owner := none }
      | _ => none
  | .expire i clock =>
      match w.shared.threads i, w.phase i with
      | .waiting _ _ _ deadline, .asleep =>
          if deadline ≤ clock then some (w.setPhase i (.woken true)) else none
      | _, _ => none
  | .wakeSpuriously i =>
      match w.phase i with
      | .asleep => some (w.setPhase i (.woken false))
      | _ => none
  | .relock i =>
      match w.phase i, w.owner with
      | .woken timedOut, none => some { w.setPhase i (.holding timedOut) with owner := some i }
      | _, _ => none
  | .finish i =>
      match w.shared.threads i with
      | .waiting a _ _ deadline =>
          if w.phase i = .over ∨ (w.phase i = .before ∧ deadline ≤ a.now) then
            some (w.leave i (if w.shared.stopping then 0 else a.granted))
          else none
      | _ => none
  | .store =>
      if w.stop = .running then
        some { w with shared := { w.shared with stopping := true }, stop := .stored }
      else none
  | .notify =>
      if w.stop = .stored then
        some { w with phase := fun i => notified (w.phase i), stop := .notified }
      else none
  | .finishStop => if w.stop = .notified then some { w with stop := .returned } else none

/-- The states that steps meeting `meets` lead to. -/
inductive Reaches (meets : Waits → WaitStep → Prop) (w₀ : Waits) : Waits → Prop
  | refl : Reaches meets w₀ w₀
  | step {w w' : Waits} (x : WaitStep) : Reaches meets w₀ w → meets w x → w.step x = some w' →
      Reaches meets w₀ w'

theorem act_stopping {s s' : Shared} {i : Nat} {x : Action} (hx : x ≠ .stop)
    (h : act s i x = some s') : s'.stopping = s.stopping := by
  cases x with
  | stop => exact absurd rfl hx
  | start | load | exchange | wake =>
    simp only [act] at h
    (repeat' split at h) <;> cases h <;> rfl

/-- Everything a step does to the flag, to `stop` and to the waits. -/
theorem step_cases {w w' : Waits} {x : WaitStep} (h : w.step x = some w') :
    (x ≠ .notify ∧ w'.shared.stopping = w.shared.stopping ∧
      (w'.stop = w.stop ∨ (w.stop = .notified ∧ w'.stop = .returned)) ∧
      ∀ i, (w'.phase i = .tested → w.phase i = .tested ∨ w.shared.stopping = false) ∧
        (w'.phase i = .asleep → w.phase i = .asleep ∨ w.phase i = .tested)) ∨
    (w.stop = .running ∧ w'.shared.stopping = true ∧ w'.stop = .stored ∧ w'.phase = w.phase) ∨
    (x = .notify ∧ w.stop = .stored ∧ w'.shared = w.shared ∧ w'.stop = .notified ∧
      ∀ i, w'.phase i = notified (w.phase i)) := by
  have hset (i : Nat) (p : Phase) (ht : p = .tested → w.shared.stopping = false)
      (hs : p = .asleep → w.phase i = .tested) (j : Nat) :
      (Function.update w.phase i p j = .tested → w.phase j = .tested ∨ w.shared.stopping = false) ∧
        (Function.update w.phase i p j = .asleep → w.phase j = .asleep ∨ w.phase j = .tested) := by
    by_cases hj : j = i
    · subst hj
      rw [Function.update_self]
      exact ⟨fun hp => .inr (ht hp), fun hp => .inr (hs hp)⟩
    · rw [Function.update_of_ne hj]
      exact ⟨.inl, .inl⟩
  cases x with
  | run i x =>
    refine .inl ⟨by simp, ?_⟩
    simp only [step] at h
    split at h
    · obtain ⟨s, hact, rfl⟩ := Option.map_eq_some_iff.mp h
      exact ⟨act_stopping (by simp) hact, .inl rfl, fun j => ⟨.inl, .inl⟩⟩
    · obtain ⟨s, hact, rfl⟩ := Option.map_eq_some_iff.mp h
      exact ⟨act_stopping (by simp) hact, .inl rfl, fun j => ⟨.inl, .inl⟩⟩
    · obtain ⟨s, hact, rfl⟩ := Option.map_eq_some_iff.mp h
      exact ⟨act_stopping (by simp) hact, .inl rfl, fun j => ⟨.inl, .inl⟩⟩
    · cases h
    · cases h
  | lock i | expire i clock | wakeSpuriously i | relock i =>
    refine .inl ⟨by simp, ?_⟩
    simp only [step] at h
    (repeat' split at h) <;> cases h
    exact ⟨rfl, .inl rfl, hset i _ (by simp) (by simp)⟩
  | finish i =>
    refine .inl ⟨by simp, ?_⟩
    simp only [step] at h
    (repeat' split at h) <;> cases h
    · exact ⟨rfl, .inl rfl, hset i _ (by simp) (by simp)⟩
    · exact ⟨rfl, .inl rfl, hset i _ (by simp) (by simp)⟩
  | test i =>
    refine .inl ⟨by simp, ?_⟩
    simp only [step] at h
    split at h
    · split_ifs at h with hstop hout <;> cases h
      · exact ⟨rfl, .inl rfl, hset i _ (by simp) (by simp)⟩
      · exact ⟨rfl, .inl rfl, hset i _ (by simp) (by simp)⟩
      · exact ⟨rfl, .inl rfl, hset i _ (fun _ => by simpa using hstop) (by simp)⟩
    · cases h
  | sleep i =>
    refine .inl ⟨by simp, ?_⟩
    simp only [step] at h
    split at h
    · rename_i htested
      cases h
      exact ⟨rfl, .inl rfl, hset i _ (by simp) (fun _ => htested)⟩
    · cases h
  | store =>
    simp only [step] at h
    split_ifs at h with hrunning
    cases h
    exact .inr (.inl ⟨hrunning, rfl, rfl, rfl⟩)
  | notify =>
    simp only [step] at h
    split_ifs at h with hstored
    cases h
    exact .inr (.inr ⟨rfl, hstored, rfl, rfl, fun _ => rfl⟩)
  | finishStop =>
    simp only [step] at h
    split_ifs at h with hnotified
    cases h
    exact .inl ⟨by simp, rfl, .inr ⟨hnotified, rfl⟩, fun j => ⟨.inl, .inl⟩⟩

/-- A step is one of the limiter with the wait in one step, or leaves that as it is. -/
theorem step_shared {w w' : Waits} {x : WaitStep} (h : w.step x = some w') :
    w'.shared = w.shared ∨ ∃ i y, act w.shared i y = some w'.shared := by
  cases x with
  | run i x =>
    simp only [step] at h
    split at h
    · obtain ⟨s, hact, rfl⟩ := Option.map_eq_some_iff.mp h
      exact .inr ⟨i, _, hact⟩
    · obtain ⟨s, hact, rfl⟩ := Option.map_eq_some_iff.mp h
      exact .inr ⟨i, _, hact⟩
    · obtain ⟨s, hact, rfl⟩ := Option.map_eq_some_iff.mp h
      exact .inr ⟨i, _, hact⟩
    · cases h
    · cases h
  | test i =>
    simp only [step] at h
    split at h
    · rename_i a g c deadline timedOut ht hp
      split_ifs at h with hstop hout <;> cases h
      · exact .inr ⟨i, .wake 0, by simp [act, ht, hstop, leave]⟩
      · exact .inl rfl
      · exact .inl rfl
    · cases h
  | finish i =>
    simp only [step] at h
    split at h
    · rename_i a g c deadline ht
      split_ifs at h with hover hstop <;> cases h
      · exact .inr ⟨i, .wake deadline, by simp [act, ht, hstop, leave]⟩
      · exact .inr ⟨i, .wake deadline, by simp [act, ht, hstop, leave]⟩
    · cases h
  | store =>
    simp only [step] at h
    split_ifs at h
    cases h
    exact .inr ⟨0, .stop, rfl⟩
  | lock | sleep | expire | wakeSpuriously | relock | notify | finishStop =>
    simp only [step] at h
    (repeat' split at h) <;> cases h
    all_goals exact .inl rfl

/-- Whatever is proved of the limiter with its wait in one step holds here too. -/
theorem reaches_shared {meets : Waits → WaitStep → Prop} {s₀ : Shared} {w : Waits}
    (h : Reaches meets { shared := s₀ } w) : BandwidthLimiter.Reaches s₀ w.shared := by
  induction h with
  | refl => exact .refl
  | step x _ _ hstep ih =>
    rcases step_shared hstep with hsame | ⟨i, y, hact⟩
    · rwa [hsame]
    · exact ih.step i y hact

/-- `stop` has returned, and a thread sleeps on: only its deadline wakes it. Such a thread was in
`acquire` before the store, since later ones turn back at its first test. -/
def Lost (w : Waits) : Prop := w.stop = .returned ∧ ∃ i, w.phase i = .asleep

/-- `notify_all` comes at no moment when a thread has found `stopping_` unset and is not yet
asleep. -/
def Apart (w : Waits) (x : WaitStep) : Prop := x = .notify → ∀ i, w.phase i ≠ .tested

/-- Once `stopping_` is set it stays so, and after the wakeup nobody sleeps or is about to. -/
structure Awake (w : Waits) : Prop where
  stored : w.stop ≠ .running → w.shared.stopping = true
  awake : w.stop = .notified ∨ w.stop = .returned → ∀ i, w.phase i ≠ .tested ∧ w.phase i ≠ .asleep

theorem Awake.step {w w' : Waits} {x : WaitStep} (h : w.Awake) (hx : Apart w x)
    (hstep : w.step x = some w') : w'.Awake := by
  rcases step_cases hstep with ⟨-, hstopping, hstop, hphase⟩ | ⟨-, hstopping, hstop, -⟩ |
    ⟨rfl, hstored, hshared, hstop, hphase⟩
  · have hsame : w'.stop ≠ .running → w.stop ≠ .running := by
      rcases hstop with hstop | ⟨hstop, -⟩
      · rw [hstop]
        exact id
      · simp [hstop]
    refine ⟨fun hr => by rw [hstopping]; exact h.stored (hsame hr), fun hd i => ?_⟩
    have hdone : w.stop = .notified ∨ w.stop = .returned := by
      rcases hstop with hstop | ⟨hstop, -⟩
      · rwa [hstop] at hd
      · exact .inl hstop
    have hset : w.shared.stopping = true := h.stored fun hr => by simp [hr] at hdone
    obtain ⟨htested, hasleep⟩ := h.awake hdone i
    constructor
    · intro ht
      rcases (hphase i).1 ht with hold | hold
      · exact htested hold
      · simp [hset] at hold
    · intro hs
      rcases (hphase i).2 hs with hold | hold
      · exact hasleep hold
      · exact htested hold
  · exact ⟨fun _ => hstopping, fun hd => by simp [hstop] at hd⟩
  · refine ⟨fun _ => ?_, fun _ i => ?_⟩
    · rw [hshared]
      exact h.stored (by simp [hstored])
    · have hapart := hx rfl i
      rw [hphase i]
      cases hp : w.phase i <;> simp_all [notified]

/-- With every wakeup at such a moment, no thread is left asleep when `stop` has returned. -/
theorem not_lost_of_apart (s₀ : Shared) {w : Waits} (h : Reaches Apart { shared := s₀ } w) :
    ¬ w.Lost := by
  have hawake : w.Awake := by
    induction h with
    | refl => exact ⟨by simp, by simp⟩
    | step x _ hmeets hstep ih => exact ih.step hmeets hstep
  intro hlost
  obtain ⟨hreturned, i, hasleep⟩ := hlost
  exact (hawake.awake (.inr hreturned) i).2 hasleep

/-- A limiter of 1000 bytes a second whose threads have all come to their waits. -/
def throttled : Shared :=
  { configured 1000 0 0 (fun _ => 0) with threads := fun _ => .waiting ⟨none, 1024, 0⟩ 5 none 5 }

/-- A thread that sleeps when `notify_all` comes is awake when `stop` returns. -/
theorem not_lost_throttled :
    ∃ w, Reaches Apart { shared := throttled } w ∧ w.stop = .returned ∧
      w.phase 0 = .woken false ∧ ¬ w.Lost := by
  have hstart : Reaches Apart { shared := throttled } { shared := throttled } := .refl
  have hlocked := hstart.step (.lock 0) (by simp [Apart]) rfl
  have htested := hlocked.step (.test 0) (by simp [Apart]) rfl
  have hasleep := htested.step (.sleep 0) (by simp [Apart]) rfl
  have hstored := hasleep.step .store (by simp [Apart]) rfl
  have hapart : ∀ i, Function.update (Function.update (Function.update (fun _ => Phase.before) 0
      (.holding false)) 0 .tested) 0 .asleep i ≠ .tested := by
    intro i
    by_cases hi : i = 0 <;> simp [hi]
  have hnotified := hstored.step .notify (fun _ => hapart) rfl
  have hawake := hnotified.step .finishStop (by simp [Apart]) rfl
  exact ⟨_, hawake, rfl, rfl, not_lost_of_apart throttled hawake⟩

/-- A list of steps. -/
def runAll : List WaitStep → Waits → Option Waits
  | [], w => some w
  | x :: xs, w => (w.step x).bind (runAll xs)

theorem reaches_of_runAll {xs : List WaitStep} {w₀ w w' : Waits}
    (hw : Reaches (fun _ _ => True) w₀ w) (h : w.runAll xs = some w') :
    Reaches (fun _ _ => True) w₀ w' := by
  induction xs generalizing w with
  | nil =>
    cases h
    exact hw
  | cons x xs ih =>
    obtain ⟨w₁, hstep, hrest⟩ := Option.bind_eq_some_iff.mp h
    exact ih (hw.step x trivial hstep) hrest

/-- A call of `acquire` up to its wait. -/
def acquiring : List WaitStep := [.run 0 (.start 65536 none 0), .run 0 .load, .run 0 (.exchange false)]

/-- The burst is used up, the next call tests `stopping_`, `stop` runs, and the call goes to sleep. -/
def sleepTooLate : List WaitStep :=
  acquiring ++ [.finish 0] ++ acquiring ++ [.finish 0] ++ acquiring ++
    [.lock 0, .test 0, .store, .notify, .finishStop, .sleep 0]

/-- The wakeup can be missed: `stop` takes no lock, so it fits in between the test and the sleep. -/
theorem lost_sleepTooLate :
    ¬ ∀ (s₀ : Shared) (w : Waits), Reaches (fun _ _ => True) { shared := s₀ } w → ¬ w.Lost := by
  intro hclaim
  have hrun : ((({ shared := configured 1000 0 0 fun _ => 0 } : Waits).runAll sleepTooLate).any
      fun w => w.stop == .returned && w.phase 0 == .asleep) = true := by decide +kernel
  obtain ⟨w, hw, hlost⟩ := (Option.any_eq_true _ _).mp hrun
  simp only [Bool.and_eq_true, beq_iff_eq] at hlost
  exact hclaim _ w (reaches_of_runAll .refl hw) ⟨hlost.1, 0, hlost.2⟩

end Waits
end FastdlMm.BandwidthLimiter
