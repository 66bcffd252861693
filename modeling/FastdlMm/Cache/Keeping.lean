import FastdlMm.Cache.Bookkeeping
import FastdlMm.Cache.Counters

namespace FastdlMm.CompressionCache

variable {exact : Prop} {S : Settings} {s s' : Store}

/-- The artifacts on the disk are within the limits. -/
def Store.Within (S : Settings) (s : Store) : Prop :=
  artifactBytes s.disk ≤ S.maxBytes ∧ artifactCount s.disk ≤ kMaximumCacheEntries

theorem Tracks.within (h : Tracks exact S 0 0 s) : s.Within S :=
  ⟨h.bytes.trans h.small, h.count.trans h.few⟩

/-- The counters follow the disk wherever the worker asks for work, and no step of a worker without a
job takes the disk out of its limits. -/
def Rests (exact : Prop) (S : Settings) (q : Op) (s s' : Store) : Prop :=
  (q = .takeWork → Tracks exact S 0 0 s) ∧
    ((s.current = none → s.Within S) → s'.current = none → s'.Within S)

/-- `p` keeps to that. -/
abbrev Keeps {α : Type} (exact : Prop) (S : Settings) (p : CacheProgram α)
    (post : α → Store → Prop) (s : Store) : Prop :=
  p.Safe (Op.Course exact) (Rests exact S) post s

theorem course_maintains {q : Op} {x : q.Answer} (hq : q.Maintains) (h : q.Course exact s x s') :
    s'.current = s.current ∧ artifactBytes s'.disk ≤ artifactBytes s.disk ∧
      artifactCount s'.disk ≤ artifactCount s.disk := by
  cases q with
  | remove name =>
    rw [course_remove h]
    exact ⟨rfl, artifactSum_erase_le _ s.disk name, artifactSum_erase_le _ s.disk name⟩
  | setCounters entries bytes =>
    rw [course_setCounters h]
    exact ⟨rfl, le_rfl, le_rfl⟩
  | create | append | flush | rename | takeWork | claim | release | enqueue => cases hq
  | _ =>
    rw [course_reads (by trivial) h]
    exact ⟨rfl, le_rfl, le_rfl⟩

theorem rests_of_maintains {q : Op} {x : q.Answer} (hq : q.Maintains) (h : q.Course exact s x s') :
    Rests exact S q s s' := by
  obtain ⟨hcurrent, hbytes, hcount⟩ := course_maintains hq h
  refine ⟨?_, ?_⟩
  · rintro rfl
    cases hq
  · intro hwithin hnone
    obtain ⟨hb, hc⟩ := hwithin (hcurrent.symm.trans hnone)
    exact ⟨hbytes.trans hb, hcount.trans hc⟩

/-- What only removes files rests where it did. -/
theorem keeps_of_maintains {α : Type} {p : CacheProgram α} (hp : p.Asks Op.Maintains)
    {post : α → Store → Prop} (h : Goes exact p post s) :
    Keeps exact S p (fun a s' => post a s' ∧ s'.current = s.current) s := by
  have hrests : p.Safe (Op.Course exact) (Rests exact S) (fun _ s' => s'.current = s.current) s := by
    have hstep : ∀ (q : Op) (s₁ : Store) (x : q.Answer) (s₂ : Store), q.Maintains →
        s₁.current = s.current → q.Course exact s₁ x s₂ →
        Rests exact S q s₁ s₂ ∧ s₂.current = s.current := by
      intro q s₁ x s₂ hq hs hm
      exact ⟨rests_of_maintains hq hm, (course_maintains hq hm).1.trans hs⟩
    exact hp.safe hstep rfl
  apply (h.and hrests).mono (fun _ _ _ _ hm => hm) (fun _ _ _ hg => hg.2)
  intro a s' hpost
  exact hpost

/-- Which job is under way does not matter to them. -/
theorem Tracks.current {n b : Nat} (h : Tracks exact S n b s) (current : Option Job) :
    Tracks exact S n b { s with current := current } :=
  h.congr ⟨rfl, rfl, fun _ _ => rfl⟩

section Worker

variable {α : Type} {job : Job}

theorem maintainCache_keeps (h : artifactBytes s.disk < 2 ^ 64) :
    Keeps exact S (maintainCache S) (fun _ s' => Tracks exact S 0 0 s' ∧ s'.current = s.current) s :=
  keeps_of_maintains (maintainCache_asks S) (maintainCache_goes S h)

theorem keeps_reads {p : CacheProgram α} (hp : p.Asks Op.Reads) (s : Store) :
    Keeps exact S p (fun _ s' => s' = s) s := by
  apply (keeps_of_maintains (hp.mono maintains_of_reads) (goes_of_reads hp s)).mono (fun _ _ _ _ hm => hm)
    (fun _ _ _ hg => hg)
  intro a s' hpost
  exact hpost.1

/-- A question that changes nothing. -/
theorem keeps_read {q : Op} (hq : q.Reads) {f : q.Answer → CacheProgram α}
    {post : α → Store → Prop} (h : ∀ x, Keeps exact S (f x) post s) :
    Keeps exact S (ask q >>= f) post s := by
  intro x s' hm
  refine ⟨rests_of_maintains (maintains_of_reads q hq) hm, ?_⟩
  rw [course_reads hq hm]
  exact h x

/-- While a job is under way the disk may be out of its limits. -/
theorem compress_keeps (fuel : Nat) (hkey : IsKey job.key) (hbudget : S.maxBytes < 2 ^ 63)
    (h : Tracks exact S 0 0 s) (hs : s.current = some job) :
    Keeps exact S (compress S fuel job)
      (fun _ s' => Tracks exact S 0 0 s' ∧ s'.current = some job) s := by
  have hrests : (compress S fuel job).Safe (Op.Course exact) (Rests exact S)
      (fun _ s' => s'.current = some job) s := by
    have hstep : ∀ (q : Op) (s₁ : Store) (x : q.Answer) (s₂ : Store), q.Unqueued →
        s₁.current = some job → q.Course exact s₁ x s₂ →
        Rests exact S q s₁ s₂ ∧ s₂.current = some job := by
      intro q s₁ x s₂ hq hcurrent hm
      obtain ⟨c, u, u', -, -, -, -, hm⟩ := hm
      have hcurrent' : s₂.current = some job := (perform_unqueued hq hm).1.trans hcurrent
      refine ⟨⟨?_, ?_⟩, hcurrent'⟩
      · rintro rfl
        cases hq
      · intro _ hnone
        rw [hcurrent'] at hnone
        cases hnone
    exact (compress_asks S fuel job).safe hstep hs
  apply ((compress_goes fuel hkey hbudget h).and hrests).mono (fun _ _ _ _ hm => hm)
    (fun _ _ _ hg => hg.2)
  intro a s' hpost
  exact hpost

/-- A job is compressed and let go. -/
theorem compressAndRelease_keeps (fuel : Nat) (hkey : IsKey job.key)
    (hbudget : S.maxBytes < 2 ^ 63) (h : Tracks exact S 0 0 s) (hs : s.current = some job)
    {f : Bool → CacheProgram α} {post : α → Store → Prop}
    (hf : ∀ stopping s', Tracks exact S 0 0 s' → Keeps exact S (f stopping) post s') :
    Keeps exact S (compress S fuel job >>= fun _ => ask (.release job.key) >>= f) post s := by
  apply (compress_keeps fuel hkey hbudget h hs).bind
  intro _ s₁ h₁ stopping s₂ hm
  rw [effect_release hm.effect]
  have h₂ := h₁.1.current none
  refine ⟨⟨nofun, fun _ _ => h₂.within⟩, ?_⟩
  exact hf stopping _ h₂

theorem claimAndCompress_keeps (fuel : Nat) (hkey : IsKey job.key)
    (hbudget : S.maxBytes < 2 ^ 63) (h : Tracks exact S 0 0 s) :
    Keeps exact S (claimAndCompress S fuel job) (fun _ s' => Tracks exact S 0 0 s') s := by
  intro claimed s₁ hm
  obtain ⟨hx, rfl⟩ | ⟨rfl, rfl⟩ := effect_claim hm.effect
  · refine ⟨⟨nofun, fun hwithin => hwithin⟩, ?_⟩
    cases claimed with
    | stopping => exact h
    | pending => exact h
    | inserted => exact absurd rfl hx
  · refine ⟨⟨nofun, fun _ => nofun⟩, ?_⟩
    apply compressAndRelease_keeps fuel hkey hbudget (h.current (some job)) rfl
    intro _ s₂ h₂
    exact h₂

theorem processSource_keeps (hkeys : S.cacheKey = cacheKey) (fuel : Nat)
    (source : CompressionSource) (hbudget : S.maxBytes < 2 ^ 63) (h : Tracks exact S 0 0 s) :
    Keeps exact S (processSource S fuel source) (fun _ s' => Tracks exact S 0 0 s') s := by
  have hkey : IsKey (S.job source).key := by
    rw [Settings.job, hkeys]
    exact isKey_cacheKey _
  unfold processSource
  split
  · exact h
  apply (keeps_reads (hasArtifact_asks _) s).bind
  rintro present _ rfl
  split
  · exact h
  apply (keeps_reads (markerMatches_asks _ _) _).bind
  rintro skipped _ rfl
  split
  · exact h
  · exact claimAndCompress_keeps fuel hkey hbudget h

theorem scanFiles_keeps (hkeys : S.cacheKey = cacheKey) (fuel : Nat)
    (hbudget : S.maxBytes < 2 ^ 63) (h : Tracks exact S 0 0 s) :
    Keeps exact S (scanFiles S fuel) (fun _ s' => Tracks exact S 0 0 s') s := by
  induction fuel generalizing s with
  | zero => exact nofun
  | succ fuel ih =>
    refine keeps_read (by trivial) fun path => ?_
    cases path with
    | none => exact h
    | some path =>
      refine keeps_read (by trivial) fun stopping => ?_
      split
      · exact h
      refine keeps_read (by trivial) fun source => ?_
      cases source with
      | none => exact ih h
      | some source =>
        apply (processSource_keeps hkeys fuel source hbudget h).bind
        intro goOn s₁ h₁
        split
        · exact ih h₁
        · exact h₁

theorem scanAndBuild_keeps (hkeys : S.cacheKey = cacheKey) (fuel : Nat)
    (hbudget : S.maxBytes < 2 ^ 63) (h : Tracks exact S 0 0 s) :
    Keeps exact S (scanAndBuild S fuel) (fun _ s' => Tracks exact S 0 0 s') s := by
  unfold scanAndBuild
  split
  · exact h
  have hbytes : artifactBytes s.disk < 2 ^ 64 := by
    have hb := h.within.1
    omega
  apply (maintainCache_keeps hbytes).bind
  intro _ s₁ h₁
  refine keeps_read (by trivial) fun stopping => ?_
  split
  · exact h₁.1
  · exact scanFiles_keeps hkeys fuel hbudget h₁.1

theorem serveJobs_keeps (hkeys : S.cacheKey = cacheKey) (fuel : Nat)
    (hbudget : S.maxBytes < 2 ^ 63) (h : Tracks exact S 0 0 s) :
    Keeps exact S (serveJobs S fuel) (fun _ _ => True) s := by
  induction fuel generalizing s with
  | zero => exact nofun
  | succ fuel ih =>
    intro work s₁ hm
    obtain ⟨c, u, u', -, -, -, hjobs, hm⟩ := hm
    obtain ⟨rfl, rfl, -⟩ | ⟨rfl, rfl, -⟩ | ⟨job, jobs, hu, rfl, rfl, -⟩ := perform_takeWork hm
    · exact ⟨⟨fun _ => h, fun hwithin => hwithin⟩, trivial⟩
    · refine ⟨⟨fun _ => h, fun hwithin => hwithin⟩, ?_⟩
      apply (scanAndBuild_keeps hkeys fuel hbudget h).bind
      intro _ s₂ h₂
      exact ih h₂
    · refine ⟨⟨fun _ => h, fun _ => nofun⟩, ?_⟩
      have hkey : IsKey job.key := hjobs job (hu ▸ List.mem_cons_self)
      apply compressAndRelease_keeps fuel hkey hbudget (h.current (some job)) rfl
      intro _ s₂ h₂
      exact ih h₂

/-- From any directory on, as far as its sizes can be counted. -/
theorem run_keeps (hkeys : S.cacheKey = cacheKey) (fuel : Nat) (hbudget : S.maxBytes < 2 ^ 63)
    (h : artifactBytes s.disk < 2 ^ 64) : Keeps exact S (run S fuel) (fun _ _ => True) s := by
  apply (maintainCache_keeps h).bind
  intro _ s₁ h₁
  exact serveJobs_keeps hkeys fuel hbudget h₁.1

end Worker

/-- Nothing else writes the cache directory, what the worker does there succeeds, and `stop` is not
called. With `exact` everything it does succeeds, else its removals, renamings, listings and sizes. -/
def Undisturbed (exact : Prop) (c : Cache) : Event → Prop
  | .work choice => ∀ q next, c.worker = .ask q next → q.Succeeds exact choice
  | .halt | .withdraw | .join | .crash => False
  | _ => True

/-- The worker does not begin to publish under a key that has an artifact. -/
def Unreplaced (c : Cache) : Event → Prop
  | .work _ => ∀ q next, c.worker = .ask q next → q.Fresh c.store
  | _ => True

/-- What holds of the worker, the requests and the queue before `stop`. -/
structure Cache.Keeping (exact : Prop) (S : Settings) (c : Cache) : Prop where
  worker : Keeps exact S c.worker (fun _ _ => True) c.store
  requests : ∀ r ∈ c.requests, r.program.Asks Op.Looks
  keyed : c.Keyed S
  idle : c.control = .down ∨ c.control = .prepared →
    c.idle = true ∧ artifactBytes c.store.disk < 2 ^ 64
  stopping : c.control ≠ .down → c.queue.stopping = false

theorem start_keeping {disk : Directory} (h : artifactBytes disk < 2 ^ 64) :
    Cache.Keeping exact S { store := { disk := disk } } :=
  ⟨trivial, nofun, start_keyed disk, fun _ => ⟨rfl, h⟩, fun hno => absurd rfl hno⟩

theorem perform_stopping {q : Op} {choice : Choice} {u u' : Queue} {x : q.Answer}
    (h : q.perform choice s u = some (x, s', u')) : u'.stopping = u.stopping := by
  cases q with
  | takeWork =>
    obtain ⟨-, -, rfl⟩ | ⟨-, -, rfl⟩ | ⟨job, jobs, -, -, -, rfl⟩ := perform_takeWork h
    · rfl
    · rfl
    · rfl
  | claim job =>
    obtain ⟨-, -, rfl⟩ | ⟨-, -, -, rfl⟩ := perform_claim h
    · rfl
    · rfl
  | release key =>
    cases h
    rfl
  | enqueue job =>
    cases h
    unfold Queue.enqueue
    split_ifs
    · rfl
    · rfl
  | _ => rw [(perform_unqueued (by trivial) h).2]

theorem Cache.Keeping.course {c : Cache} {choice : Choice} {q : Op} {next : q.Answer → CacheProgram Unit}
    {x : q.Answer} {queue : Queue} (hkeys : S.cacheKey = cacheKey) (h : c.Keeping exact S)
    (hworker : c.worker = .ask q next) (hmeets : Undisturbed exact c (.work choice))
    (hfresh : exact → Unreplaced c (.work choice))
    (hperform : q.perform choice c.store c.queue = some (x, s', queue)) :
    q.Course exact c.store x s' ∧ c.control ≠ .down ∧ c.control ≠ .prepared := by
  have hbusy : ¬ (c.control = .down ∨ c.control = .prepared) := by
    intro hcontrol
    have hidle := (h.idle hcontrol).1
    rw [idle_of_ask hworker] at hidle
    cases hidle
  obtain ⟨hdown, hprepared⟩ := not_or.mp hbusy
  have hjobs : ∀ job ∈ c.queue.jobs, IsKey job.key := by
    intro job hjob
    rw [h.keyed.queued job hjob, hkeys]
    exact isKey_cacheKey _
  exact ⟨⟨choice, c.queue, queue, hmeets q next hworker, fun hexact => hfresh hexact q next hworker,
    h.stopping hdown, hjobs, hperform⟩, hdown, hprepared⟩

/-- No step without a `stop` in it takes the disk out of its limits while no job is under way. -/
theorem Cache.Keeping.step {c c' : Cache} {e : Event} (hkeys : S.cacheKey = cacheKey)
    (hbudget : S.maxBytes < 2 ^ 63) (h : c.Keeping exact S) (hmeets : Undisturbed exact c e)
    (hfresh : exact → Unreplaced c e) (hstep : c.step S e = some c') :
    c'.Keeping exact S ∧
      ((c.store.current = none → c.store.Within S) →
        c'.store.current = none → c'.store.Within S) := by
  have hkeyed : c'.Keyed S := h.keyed.step hstep
  cases e with
  | work choice =>
    obtain ⟨q, next, x, store, queue, hworker, hperform, rfl⟩ := work_eq_some hstep
    obtain ⟨hcourse, hdown, hprepared⟩ := h.course hkeys hworker hmeets hfresh hperform
    have hw := h.worker
    rw [hworker] at hw
    obtain ⟨hrests, hnext⟩ := hw x store hcourse
    refine ⟨⟨hnext, h.requests, hkeyed, ?_, ?_⟩, hrests.2⟩
    · rintro (hcontrol | hcontrol)
      · exact absurd hcontrol hdown
      · exact absurd hcontrol hprepared
    · intro _
      exact (perform_stopping hperform).trans (h.stopping hdown)
  | look i choice =>
    obtain ⟨source, q, next, x, store, queue, hrequest, hperform, rfl⟩ := look_eq_some hstep
    obtain ⟨hq, hnext⟩ := h.requests _ (List.mem_of_getElem? hrequest)
    have hstore : store = c.store := perform_looks hq hperform
    subst hstore
    refine ⟨⟨h.worker, ?_, hkeyed, h.idle, ?_⟩, fun hwithin => hwithin⟩
    · intro r hr
      obtain hr | rfl := List.mem_or_eq_of_mem_set hr
      · exact h.requests r hr
      · exact hnext x
    · intro hcontrol
      exact (perform_stopping hperform).trans (h.stopping hcontrol)
  | enter source =>
    cases hstep
    refine ⟨⟨h.worker, ?_, hkeyed, h.idle, h.stopping⟩, fun hwithin => hwithin⟩
    intro r hr
    obtain rfl | hr := List.mem_cons.mp hr
    · exact lookup_asks S source looks_of_reads trivial
    · exact h.requests r hr
  | leave i =>
    obtain rfl := leave_eq_some hstep
    refine ⟨⟨h.worker, ?_, hkeyed, h.idle, h.stopping⟩, fun hwithin => hwithin⟩
    intro r hr
    exact h.requests r (List.mem_of_mem_eraseIdx hr)
  | requestBuild =>
    cases hstep
    exact ⟨⟨h.worker, h.requests, hkeyed, h.idle, h.stopping⟩, fun hwithin => hwithin⟩
  | prepare =>
    simp only [Cache.step] at hstep
    split_ifs at hstep with hcontrol
    cases hstep
    obtain ⟨hidle, hsmall⟩ := h.idle (.inl (not_not.mp hcontrol))
    refine ⟨⟨?_, h.requests, hkeyed, fun _ => ⟨hidle, hsmall⟩, fun _ => rfl⟩, fun hwithin => hwithin⟩
    unfold Cache.idle at hidle
    split at hidle
    · rename_i hworker
      dsimp only
      rw [hworker]
      trivial
    · cases hidle
  | launch fuel =>
    simp only [Cache.step] at hstep
    split_ifs at hstep with hcontrol
    cases hstep
    have hprepared : c.control = .prepared := not_not.mp hcontrol
    obtain ⟨-, hsmall⟩ := h.idle (.inr hprepared)
    have hstopping : c.queue.stopping = false := h.stopping (by simp [hprepared])
    refine ⟨⟨run_keeps hkeys fuel hbudget hsmall, h.requests, hkeyed, ?_, fun _ => hstopping⟩,
      fun hwithin => hwithin⟩
    rintro (hno | hno)
    · cases hno
    · cases hno
  | announce =>
    simp only [Cache.step] at hstep
    split_ifs at hstep with hcontrol
    cases hstep
    have hlaunched : c.control = .launched := not_not.mp hcontrol
    have hstopping : c.queue.stopping = false := h.stopping (by simp [hlaunched])
    refine ⟨⟨h.worker, h.requests, hkeyed, ?_, fun _ => hstopping⟩, fun hwithin => hwithin⟩
    rintro (hno | hno)
    · cases hno
    · cases hno
  | halt | withdraw | join | crash => cases hmeets

theorem reaches_keeping {c₀ c : Cache} {meets : Cache → Event → Prop}
    (hkeys : S.cacheKey = cacheKey) (hbudget : S.maxBytes < 2 ^ 63)
    (hmeets : ∀ c e, meets c e → Undisturbed exact c e ∧ (exact → Unreplaced c e))
    (h₀ : c₀.Keeping exact S) (h : Reaches S meets c₀ c) :
    c.Keeping exact S ∧
      (c₀.store.Within S → c.store.current = none → c.store.Within S) := by
  induction h with
  | refl => exact ⟨h₀, fun hwithin _ => hwithin⟩
  | step e _ hm hstep ih =>
    obtain ⟨hkeeping, hbefore⟩ := ih
    obtain ⟨hundisturbed, hfresh⟩ := hmeets _ e hm
    obtain ⟨hkeeping', hafter⟩ := hkeeping.step hkeys hbudget hundisturbed hfresh hstep
    exact ⟨hkeeping', fun hwithin => hafter (hbefore hwithin)⟩

/-- The worker is through with its maintenance, its scan or its job, and asks for more. -/
def Cache.waiting (c : Cache) : Bool :=
  match c.worker with
  | .ask .takeWork _ => true
  | _ => false

theorem Cache.Keeping.tracks {c : Cache} (h : c.Keeping exact S) (hwaiting : c.waiting = true) :
    Tracks exact S 0 0 c.store := by
  have hworker := h.worker
  unfold Cache.waiting at hwaiting
  split at hwaiting
  · rename_i next hasks
    rw [hasks] at hworker
    -- asked to build, the worker would go on from here
    have hmove : Op.takeWork.Course exact c.store .build c.store :=
      ⟨{}, { stopping := false, buildRequested := true }, { stopping := false }, fun _ => rfl,
        fun _ => trivial, rfl, nofun, rfl⟩
    exact (hworker .build c.store hmove).1.1 rfl
  · cases hwaiting

end FastdlMm.CompressionCache
