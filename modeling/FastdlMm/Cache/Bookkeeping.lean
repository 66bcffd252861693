import FastdlMm.Cache.Keys

namespace FastdlMm.CompressionCache

/-- What holds of `jobs_` and `pending_` while the worker is at `current`. -/
structure Queue.Booked (u : Queue) (current : Option Job) : Prop where
  pending : ∀ key, key ∈ u.pending ↔ key ∈ (u.jobs ++ current.toList).map Job.key
  distinct : ((u.jobs ++ current.toList).map Job.key).Nodup
  bounded : u.jobs.length ≤ kMaximumQueuedJobs

namespace Queue.Booked

variable {u : Queue} {current : Option Job} {job : Job}

theorem empty (running stopping build : Bool) :
    Queue.Booked ⟨running, stopping, build, [], ∅⟩ none := by
  refine ⟨fun key => ?_, List.nodup_nil, Nat.zero_le _⟩
  simp

/-- The flags do not matter. -/
theorem flags (h : u.Booked current) (running stopping build : Bool) :
    Queue.Booked ⟨running, stopping, build, u.jobs, u.pending⟩ current :=
  ⟨h.pending, h.distinct, h.bounded⟩

theorem take {jobs : List Job} (h : u.Booked none) (hj : u.jobs = job :: jobs) :
    Queue.Booked { u with jobs := jobs } (some job) := by
  have hkeys : ((jobs ++ [job]).map Job.key).Perm ((u.jobs ++ []).map Job.key) := by
    rw [List.append_nil, hj]
    exact (List.perm_append_singleton job jobs).map _
  refine ⟨fun key => ?_, ?_, ?_⟩
  · exact (h.pending key).trans hkeys.mem_iff.symm
  · exact hkeys.nodup_iff.mpr h.distinct
  · have hb := h.bounded
    rw [hj, List.length_cons] at hb
    exact Nat.le_of_succ_le hb

theorem claim (h : u.Booked none) (hk : job.key ∉ u.pending) :
    Queue.Booked { u with pending := insert job.key u.pending } (some job) := by
  have hnew := hk
  rw [h.pending] at hnew
  simp only [Option.toList_none, List.append_nil] at hnew
  refine ⟨fun key => ?_, ?_, h.bounded⟩
  · have hold := h.pending key
    simp only [Option.toList_none, List.append_nil] at hold
    simp [hold, or_comm]
  · have hd := h.distinct
    simp only [Option.toList_none, List.append_nil] at hd
    simp only [Option.toList_some, List.map_append, List.map_cons, List.map_nil]
    exact List.Nodup.append hd (List.nodup_singleton _) (by simpa using hnew)

theorem release (h : u.Booked (some job)) : (u.release job.key).Booked none := by
  have hd := h.distinct
  simp only [Option.toList_some, List.map_append, List.map_cons, List.map_nil] at hd
  have hdone : job.key ∉ u.jobs.map Job.key := by
    have hdisj := (List.nodup_append'.mp hd).2.2
    exact fun hm => hdisj hm List.mem_cons_self
  refine ⟨fun key => ?_, ?_, h.bounded⟩
  · have hold := h.pending key
    simp only [Option.toList_some, List.map_append, List.map_cons, List.map_nil, List.mem_append,
      List.mem_singleton] at hold
    simp only [Queue.release, Finset.mem_erase, hold, Option.toList_none, List.append_nil]
    constructor
    · intro hkey
      exact hkey.2.resolve_right hkey.1
    · intro hkey
      exact ⟨fun he => hdone (he ▸ hkey), .inl hkey⟩
  · simpa [Queue.release] using (List.nodup_append'.mp hd).1

theorem enqueue (h : u.Booked current) : (u.enqueue job).Booked current := by
  unfold Queue.enqueue
  split_ifs with hfull
  · exact h
  · simp only [Bool.or_eq_true, decide_eq_true_eq, not_or, not_le] at hfull
    have hkeys : (((u.jobs ++ [job]) ++ current.toList).map Job.key).Perm
        (job.key :: (u.jobs ++ current.toList).map Job.key) := by
      rw [← List.map_cons, List.append_assoc, List.singleton_append]
      exact List.perm_middle.map _
    have hnew : job.key ∉ (u.jobs ++ current.toList).map Job.key := by
      rw [← h.pending]
      exact hfull.2
    refine ⟨fun key => ?_, ?_, ?_⟩
    · rw [hkeys.mem_iff, List.mem_cons, ← h.pending]
      simp
    · exact hkeys.nodup_iff.mpr (List.nodup_cons.mpr ⟨hnew, h.distinct⟩)
    · have hroom := hfull.1.2
      simp only [List.length_append, List.length_singleton]
      omega

end Queue.Booked

/-- A job is taken up by a worker without one, and let go by the worker at it. -/
def Op.Brackets (s : Store) : Op → Prop
  | .takeWork | .claim _ => s.current = none
  | .release key => ∃ job, s.current = some job ∧ job.key = key
  | .enqueue _ => False
  | _ => True

/-- From here on, the worker takes jobs up and lets them go in turn. -/
abbrev Bracketed {α : Type} (p : CacheProgram α) (post : α → Store → Prop) (s : Store) : Prop :=
  p.Safe Op.Effect (fun q s _ => q.Brackets s) post s

theorem brackets_of_unqueued {q : Op} (hq : q.Unqueued) (s : Store) : q.Brackets s := by
  cases q <;> trivial

theorem bracketed_of_asks {α : Type} {p : CacheProgram α} {s : Store} {current : Option Job}
    (hp : p.Asks Op.Unqueued) (hs : s.current = current) :
    Bracketed p (fun _ s' => s'.current = current) s := by
  refine hp.safe ?_ hs
  intro q s x s' hq hs hm
  obtain ⟨c, u, u', h⟩ := hm
  exact ⟨brackets_of_unqueued hq s, (perform_unqueued hq h).1.trans hs⟩

theorem unqueued_of_maintains (q : Op) (hq : q.Maintains) : q.Unqueued :=
  unqueued_of_harmless q (harmless_of_maintains q hq)

theorem unqueued_of_reads (q : Op) (hq : q.Reads) : q.Unqueued :=
  unqueued_of_maintains q (maintains_of_reads q hq)

/-- A job is compressed and let go. -/
theorem compressAndRelease_bracketed {α : Type} (S : Settings) (fuel : Nat) {job : Job}
    {s : Store} (hs : s.current = some job) {f : Bool → CacheProgram α} {post : α → Store → Prop}
    (hf : ∀ stopping s', s'.current = none → Bracketed (f stopping) post s') :
    Bracketed (compress S fuel job >>= fun _ => ask (.release job.key) >>= f) post s := by
  refine (bracketed_of_asks (compress_asks S fuel job) hs).bind fun _ s₁ h₁ => ?_
  refine .query fun stopping s₂ hm => ⟨⟨job, h₁, rfl⟩, ?_⟩
  apply hf
  rw [effect_release hm]

theorem claimAndCompress_bracketed (S : Settings) (fuel : Nat) (job : Job) {s : Store}
    (hs : s.current = none) :
    Bracketed (claimAndCompress S fuel job) (fun _ s' => s'.current = none) s := by
  refine .query fun claimed s₁ hm => ⟨hs, ?_⟩
  rcases effect_claim hm with ⟨hx, rfl⟩ | ⟨rfl, rfl⟩
  · cases claimed with
    | stopping => exact hs
    | pending => exact hs
    | inserted => exact absurd rfl hx
  · exact compressAndRelease_bracketed S fuel rfl fun _ _ h => h

theorem processSource_bracketed (S : Settings) (fuel : Nat) (source : CompressionSource)
    {s : Store} (hs : s.current = none) :
    Bracketed (processSource S fuel source) (fun _ s' => s'.current = none) s := by
  unfold processSource
  split
  · exact hs
  refine (bracketed_of_asks ((hasArtifact_asks _).mono unqueued_of_reads) hs).bind
    fun present s₁ h₁ => ?_
  split
  · exact h₁
  refine (bracketed_of_asks ((markerMatches_asks _ _).mono unqueued_of_reads) h₁).bind
    fun skipped s₂ h₂ => ?_
  split
  · exact h₂
  · exact claimAndCompress_bracketed S fuel _ h₂

theorem bracketed_query {α : Type} {q : Op} (hq : q.Unqueued) {f : q.Answer → CacheProgram α}
    {s : Store} {current : Option Job} (hs : s.current = current) {post : α → Store → Prop}
    (hf : ∀ x s', s'.current = current → Bracketed (f x) post s') :
    Bracketed (ask q >>= f) post s := by
  refine .query fun x s' hm => ⟨brackets_of_unqueued hq s, ?_⟩
  obtain ⟨c, u, u', h⟩ := hm
  exact hf x s' ((perform_unqueued hq h).1.trans hs)

theorem scanFiles_bracketed (S : Settings) (fuel : Nat) {s : Store} (hs : s.current = none) :
    Bracketed (scanFiles S fuel) (fun _ s' => s'.current = none) s := by
  induction fuel generalizing s with
  | zero => exact bracketed_of_asks (endless_asks _ trivial) hs
  | succ fuel ih =>
    refine bracketed_query (by trivial) hs fun path s₁ h₁ => ?_
    split
    · refine bracketed_query (by trivial) h₁ fun stopping s₂ h₂ => ?_
      split
      · exact h₂
      refine bracketed_query (by trivial) h₂ fun source s₃ h₃ => ?_
      split
      · refine (processSource_bracketed S fuel _ h₃).bind fun goOn s₄ h₄ => ?_
        split
        · exact ih h₄
        · exact h₄
      · exact ih h₃
    · exact h₁

theorem scanAndBuild_bracketed (S : Settings) (fuel : Nat) {s : Store} (hs : s.current = none) :
    Bracketed (scanAndBuild S fuel) (fun _ s' => s'.current = none) s := by
  unfold scanAndBuild
  split
  · exact hs
  refine (bracketed_of_asks ((maintainCache_asks S).mono unqueued_of_maintains) hs).bind
    fun _ s₁ h₁ => ?_
  refine bracketed_query (by trivial) h₁ fun stopping s₂ h₂ => ?_
  split
  · exact h₂
  · exact scanFiles_bracketed S fuel h₂

theorem serveJobs_bracketed (S : Settings) (fuel : Nat) {s : Store} (hs : s.current = none) :
    Bracketed (serveJobs S fuel) (fun _ s' => s'.current = none) s := by
  induction fuel generalizing s with
  | zero => exact bracketed_of_asks (endless_asks _ trivial) hs
  | succ fuel ih =>
    refine .query fun work s₁ hm => ⟨hs, ?_⟩
    rcases effect_takeWork hm with ⟨rfl | rfl, rfl⟩ | ⟨job, rfl, rfl⟩
    · exact hs
    · exact (scanAndBuild_bracketed S fuel hs).bind fun _ s₂ h₂ => ih h₂
    · exact compressAndRelease_bracketed S fuel rfl fun _ s₂ h₂ => ih h₂

theorem run_bracketed (S : Settings) (fuel : Nat) {s : Store} (hs : s.current = none) :
    Bracketed (run S fuel) (fun _ s' => s'.current = none) s :=
  (bracketed_of_asks ((maintainCache_asks S).mono unqueued_of_maintains) hs).bind
    fun _ _ h₁ => serveJobs_bracketed S fuel h₁

/-- What holds of the queue, the worker and the requests between any two steps. -/
structure Cache.Booked (c : Cache) : Prop where
  queue : c.queue.Booked c.store.current
  worker : Bracketed c.worker (fun _ s => s.current = none) c.store
  requests : ∀ r ∈ c.requests, r.program.Asks Op.Looks
  down : c.control = .down ∨ c.control = .prepared → c.idle = true

theorem perform_booked {q : Op} {choice : Choice} {s s' : Store} {u u' : Queue} {x : q.Answer}
    (hu : u.Booked s.current) (hq : q.Brackets s) (h : q.perform choice s u = some (x, s', u')) :
    u'.Booked s'.current := by
  cases q with
  | takeWork =>
    rcases perform_takeWork h with ⟨-, rfl, rfl⟩ | ⟨-, rfl, rfl⟩ | ⟨job, jobs, hjobs, -, rfl, rfl⟩
    · exact hu
    · exact hu.flags _ _ _
    · rw [show s.current = none from hq] at hu
      exact hu.take hjobs
  | claim job =>
    rcases perform_claim h with ⟨-, rfl, rfl⟩ | ⟨-, hk, rfl, rfl⟩
    · exact hu
    · rw [show s.current = none from hq] at hu
      exact hu.claim hk
  | release key =>
    obtain ⟨job, hc, rfl⟩ := hq
    cases h
    rw [hc] at hu
    exact hu.release
  | enqueue job => cases hq
  | _ =>
    obtain ⟨hc, hu'⟩ := perform_unqueued (by trivial) h
    rw [hc, hu']
    exact hu

theorem perform_looks_booked {q : Op} {choice : Choice} {s s' : Store} {u u' : Queue}
    {x : q.Answer} (hu : u.Booked s.current) (hq : q.Looks)
    (h : q.perform choice s u = some (x, s', u')) : u'.Booked s.current := by
  cases q with
  | enqueue job =>
    cases h
    exact hu.enqueue
  | takeWork | claim | release => cases hq
  | _ =>
    obtain ⟨-, hu'⟩ := perform_unqueued (by trivial) h
    rw [hu']
    exact hu

theorem start_booked (disk : Directory) : Cache.Booked { store := { disk := disk } } :=
  ⟨Queue.Booked.empty _ _ _, rfl, by simp, fun _ => rfl⟩

theorem Cache.Booked.idle {c : Cache} (h : c.Booked) (hi : c.idle = true) :
    c.store.current = none ∧ ∀ s : Store, s.current = none →
      Bracketed c.worker (fun _ s => s.current = none) s := by
  have hworker := h.worker
  unfold Cache.idle at hi
  split at hi
  · rename_i hd
    rw [hd] at hworker ⊢
    exact ⟨hworker, fun _ hs => hs⟩
  · cases hi

theorem Cache.Booked.step {S : Settings} {c c' : Cache} {e : Event} (h : c.Booked)
    (hstep : c.step S e = some c') : c'.Booked := by
  cases e with
  | work choice =>
    obtain ⟨q, next, x, store, queue, hworker, hperform, rfl⟩ := work_eq_some hstep
    have hw := h.worker
    rw [hworker] at hw
    obtain ⟨hq, hnext⟩ := hw x store ⟨choice, c.queue, queue, hperform⟩
    refine ⟨perform_booked h.queue hq hperform, hnext, h.requests, fun hd => ?_⟩
    have hidle := h.down hd
    rw [idle_of_ask hworker] at hidle
    cases hidle
  | look i choice =>
    obtain ⟨source, q, next, x, store, queue, hrequest, hperform, rfl⟩ := look_eq_some hstep
    obtain ⟨hq, hnext⟩ := h.requests _ (List.mem_of_getElem? hrequest)
    have hstore : store = c.store := perform_looks hq hperform
    subst hstore
    refine ⟨perform_looks_booked h.queue hq hperform, h.worker, fun r hr => ?_, h.down⟩
    rcases List.mem_or_eq_of_mem_set hr with hr | rfl
    · exact h.requests r hr
    · exact hnext x
  | enter source =>
    cases hstep
    refine ⟨h.queue, h.worker, fun r hr => ?_, h.down⟩
    rcases List.mem_cons.mp hr with rfl | hr
    · exact lookup_asks S source looks_of_reads trivial
    · exact h.requests r hr
  | leave i =>
    obtain rfl := leave_eq_some hstep
    exact ⟨h.queue, h.worker, fun r hr => h.requests r (List.mem_of_mem_eraseIdx hr), h.down⟩
  | requestBuild =>
    cases hstep
    exact ⟨h.queue.flags _ _ _, h.worker, h.requests, h.down⟩
  | prepare =>
    simp only [Cache.step] at hstep
    split_ifs at hstep with hcontrol
    cases hstep
    simp only [ne_eq, not_not] at hcontrol
    obtain ⟨hc, hworker⟩ := h.idle (h.down (.inl hcontrol))
    exact ⟨h.queue.flags _ _ _, hworker _ hc, h.requests, fun _ => h.down (.inl hcontrol)⟩
  | launch fuel =>
    simp only [Cache.step] at hstep
    split_ifs at hstep with hcontrol
    cases hstep
    simp only [ne_eq, not_not] at hcontrol
    obtain ⟨hc, -⟩ := h.idle (h.down (.inr hcontrol))
    exact ⟨h.queue, run_bracketed S fuel hc, h.requests, by simp⟩
  | announce | halt | withdraw =>
    simp only [Cache.step] at hstep
    split_ifs at hstep
    cases hstep
    exact ⟨h.queue.flags _ _ _, h.worker, h.requests, by simp⟩
  | join =>
    simp only [Cache.step] at hstep
    split_ifs at hstep with hcontrol
    cases hstep
    simp only [not_or, Bool.not_eq_true', Bool.not_eq_false] at hcontrol
    have hidle : c.idle = true := by simpa using hcontrol.2
    obtain ⟨hc, -⟩ := h.idle hidle
    refine ⟨?_, h.worker, h.requests, fun _ => hidle⟩
    simp only [hc]
    exact Queue.Booked.empty _ _ _
  | crash =>
    cases hstep
    exact start_booked _

/-- In every state the pending keys are those of the queued jobs and of the one being compressed,
no two of these jobs share a key or an identity, and the queue is bounded. -/
theorem pending_iff {S : Settings} {disk : Directory} {c : Cache}
    (h : Reaches S (fun _ _ => True) { store := { disk := disk } } c) :
    (∀ key, key ∈ c.queue.pending ↔
      key ∈ (c.queue.jobs ++ c.store.current.toList).map Job.key) ∧
    ((c.queue.jobs ++ c.store.current.toList).map Job.key).Nodup ∧
    ((c.queue.jobs ++ c.store.current.toList).map Job.identity).Nodup ∧
    c.queue.jobs.length ≤ 1024 := by
  have hboth : c.Booked ∧ c.Keyed S := by
    induction h with
    | refl => exact ⟨start_booked disk, start_keyed disk⟩
    | step e _ _ hstep ih => exact ⟨ih.1.step hstep, ih.2.step hstep⟩
  obtain ⟨hbooked, hkeyed⟩ := hboth
  refine ⟨hbooked.queue.pending, hbooked.queue.distinct, ?_, hbooked.queue.bounded⟩
  have hjobs : ∀ job ∈ c.queue.jobs ++ c.store.current.toList, job.Keyed S := by
    intro job hjob
    rcases List.mem_append.mp hjob with hjob | hjob
    · exact hkeyed.queued job hjob
    · exact hkeyed.current job (by simpa using hjob)
  have hkeys : (c.queue.jobs ++ c.store.current.toList).map Job.key =
      ((c.queue.jobs ++ c.store.current.toList).map Job.identity).map S.cacheKey := by
    rw [List.map_map]
    exact List.map_congr_left hjobs
  have hdistinct := hbooked.queue.distinct
  rw [hkeys] at hdistinct
  exact hdistinct.of_map _

/-- The worker has taken one source when another is handed in. -/
def takeThenQueue : List Event :=
  startUp ++ looking (sampleSource (text "/r/maps/a.bsp") 1) 4 ++ [.leave 0, .work {}] ++
    looking (sampleSource (text "/r/maps/b.bsp") 2) 4

theorem pending_iff_takeThenQueue :
    ∃ c, ({} : Cache).runIf (sampleSettings cacheKey) (fun _ _ => true) takeThenQueue = some c ∧
      c.store.current.isSome = true ∧ c.queue.jobs.length = 1 ∧
      ∀ key, key ∈ c.queue.pending ↔
        key ∈ (c.queue.jobs ++ c.store.current.toList).map Job.key := by
  have hrun : ((({} : Cache).runIf (sampleSettings cacheKey) (fun _ _ => true) takeThenQueue).any
      fun c => c.store.current.isSome && c.queue.jobs.length == 1) = true := by
    decide +kernel
  obtain ⟨c, hc, hcounts⟩ := (Option.any_eq_true _ _).mp hrun
  have hreach : Reaches (sampleSettings cacheKey) (fun _ _ => True) {} c :=
    reaches_of_runIf (fun _ _ _ => trivial) .refl hc
  simp only [Bool.and_eq_true, beq_iff_eq] at hcounts
  exact ⟨c, hc, hcounts.1, hcounts.2, (pending_iff hreach).1⟩

end FastdlMm.CompressionCache
