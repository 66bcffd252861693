import FastdlMm.Cache.LookupIdentity

namespace FastdlMm.CompressionCache

/-- The operations that leave jobs and keys alone. -/
def Op.Unqueued : Op → Prop
  | .takeWork | .claim _ | .release _ | .enqueue _ => False
  | _ => True

theorem unqueued_of_harmless (q : Op) (hq : q.Harmless) : q.Unqueued := by
  cases q <;> trivial

theorem unqueued_of_writes {name : Text} (q : Op) (hq : q.Writes name) : q.Unqueued := by
  cases q <;> trivial

theorem perform_unqueued {q : Op} {choice : Choice} {s s' : Store} {u u' : Queue} {x : q.Answer}
    (hq : q.Unqueued) (h : q.perform choice s u = some (x, s', u')) :
    s'.current = s.current ∧ u' = u := by
  cases q with
  | takeWork | claim | release | enqueue => cases hq
  | remove name =>
    have hu : u' = u := by
      cases h
      rfl
    rcases perform_remove h with rfl | rfl
    · exact ⟨rfl, hu⟩
    · exact ⟨rfl, hu⟩
  | regularArtifact | fileSize | read | lastWriteTime | create | append | flush | rename
  | listDirectory | nextEntry | oldest | inspect | readFileAt | describe | nextFile | running
  | stopping | counters | setCounters | spin =>
    simp only [Op.perform] at h
    (repeat' split at h) <;> cases h <;> exact ⟨rfl, rfl⟩

theorem publish_asks (S : Settings) (job : Job) (compressedSize : Nat) :
    (publish S job compressedSize).Asks Op.Unqueued := by
  have hrecord : (recordArtifact S compressedSize).Asks Op.Unqueued :=
    (recordArtifact_asks S compressedSize).mono fun q hq =>
      unqueued_of_harmless q (harmless_of_maintains q hq)
  refine ((writeMarker_asks _ _).mono unqueued_of_writes).bind fun written => ?_
  split
  · exact .query trivial fun _ => .query trivial fun _ => trivial
  refine .query trivial fun _ => .query trivial fun renamed => ?_
  split
  · trivial
  refine .query trivial fun _ => .query trivial fun marked => ?_
  split
  · exact .query trivial fun _ => trivial
  · exact .query trivial fun _ => hrecord.bind fun _ => trivial

/-- Compression has nothing to do with the queue. -/
theorem compress_asks (S : Settings) (fuel : Nat) (job : Job) :
    (compress S fuel job).Asks Op.Unqueued := by
  have hgive : (ask (.remove (artifact job.key .gzipTemp)) >>= fun _ => pure false).Asks
      Op.Unqueued := .query trivial fun _ => trivial
  refine .query trivial fun before => ?_
  split
  · split
    · trivial
    refine .query trivial fun _ => .query trivial fun _ => .query trivial fun _ =>
      .query trivial fun created => ?_
    split
    · trivial
    refine ((writeArtifact_asks S fuel job _).mono unqueued_of_writes).bind fun written => ?_
    split
    · exact hgive
    refine .query trivial fun after => ?_
    split
    · split
      · exact hgive
      refine .query trivial fun compressedSize => ?_
      split
      · split
        · exact (storeSkip_asks S job).mono unqueued_of_harmless
        · exact publish_asks S job _
      · trivial
    · exact hgive
  · trivial

/-- The key of the job is that of its identity. -/
def Job.Keyed (S : Settings) (job : Job) : Prop := job.key = S.cacheKey job.identity

/-- Jobs are handed in and claimed under their own key only. -/
def Op.Keyed (S : Settings) : Op → Prop
  | .claim job | .enqueue job => job.Keyed S
  | _ => True

section Asks

variable (S : Settings)

theorem job_keyed (source : CompressionSource) : (S.job source).Keyed S := rfl

theorem keyed_of_unqueued (q : Op) (hq : q.Unqueued) : q.Keyed S := by
  cases q <;> trivial

theorem keyed_of_maintains (q : Op) (hq : q.Maintains) : q.Keyed S :=
  keyed_of_unqueued S q (unqueued_of_harmless q (harmless_of_maintains q hq))

theorem keyed_of_reads (q : Op) (hq : q.Reads) : q.Keyed S :=
  keyed_of_maintains S q (maintains_of_reads q hq)

theorem compress_keyed (fuel : Nat) (job : Job) : (compress S fuel job).Asks (Op.Keyed S) :=
  (compress_asks S fuel job).mono (keyed_of_unqueued S)

theorem claimAndCompress_keyed (fuel : Nat) {job : Job} (h : job.Keyed S) :
    (claimAndCompress S fuel job).Asks (Op.Keyed S) := by
  refine .query h fun claimed => ?_
  cases claimed with
  | stopping => trivial
  | pending => trivial
  | inserted => exact (compress_keyed S fuel job).bind fun _ => .query trivial fun _ => trivial

theorem processSource_keyed (fuel : Nat) (source : CompressionSource) :
    (processSource S fuel source).Asks (Op.Keyed S) := by
  unfold processSource
  split
  · trivial
  refine ((hasArtifact_asks _).mono (keyed_of_reads S)).bind fun present => ?_
  split
  · trivial
  refine ((markerMatches_asks _ _).mono (keyed_of_reads S)).bind fun skipped => ?_
  split
  · trivial
  · exact claimAndCompress_keyed S fuel (job_keyed S source)

theorem scanFiles_keyed (fuel : Nat) : (scanFiles S fuel).Asks (Op.Keyed S) := by
  induction fuel with
  | zero => exact endless_asks _ trivial
  | succ fuel ih =>
    refine .query trivial fun path => ?_
    split
    · refine .query trivial fun stopping => ?_
      split
      · trivial
      refine .query trivial fun source => ?_
      split
      · refine (processSource_keyed S fuel _).bind fun goOn => ?_
        split
        · exact ih
        · trivial
      · exact ih
    · trivial

theorem scanAndBuild_keyed (fuel : Nat) : (scanAndBuild S fuel).Asks (Op.Keyed S) := by
  unfold scanAndBuild
  split
  · trivial
  refine ((maintainCache_asks S).mono (keyed_of_maintains S)).bind fun _ => ?_
  refine .query trivial fun stopping => ?_
  split
  · trivial
  · exact scanFiles_keyed S fuel

theorem serveJobs_keyed (fuel : Nat) : (serveJobs S fuel).Asks (Op.Keyed S) := by
  induction fuel with
  | zero => exact endless_asks _ trivial
  | succ fuel ih =>
    refine .query trivial fun work => ?_
    cases work with
    | stop => trivial
    | build => exact (scanAndBuild_keyed S fuel).bind fun _ => ih
    | job job =>
      exact (compress_keyed S fuel job).bind fun _ => .query trivial fun _ => ih

/-- The worker claims jobs under their own key only. -/
theorem run_keyed (fuel : Nat) : (run S fuel).Asks (Op.Keyed S) :=
  ((maintainCache_asks S).mono (keyed_of_maintains S)).bind fun _ => serveJobs_keyed S fuel

end Asks

/-- Every job on its way through the cache has the key of its identity. -/
structure Cache.Keyed (S : Settings) (c : Cache) : Prop where
  worker : c.worker.Asks (Op.Keyed S)
  requests : ∀ r ∈ c.requests, r.program.Asks (Op.Keyed S)
  queued : ∀ job ∈ c.queue.jobs, job.Keyed S
  current : ∀ job, c.store.current = some job → job.Keyed S

theorem perform_keyed {S : Settings} {q : Op} {choice : Choice} {s s' : Store} {u u' : Queue}
    {x : q.Answer} (hq : q.Keyed S) (h : q.perform choice s u = some (x, s', u'))
    (hqueued : ∀ job ∈ u.jobs, job.Keyed S)
    (hcurrent : ∀ job, s.current = some job → job.Keyed S) :
    (∀ job ∈ u'.jobs, job.Keyed S) ∧ ∀ job, s'.current = some job → job.Keyed S := by
  have hkept (hunqueued : q.Unqueued) :
      (∀ job ∈ u'.jobs, job.Keyed S) ∧ ∀ job, s'.current = some job → job.Keyed S := by
    obtain ⟨hc, hu⟩ := perform_unqueued hunqueued h
    rw [hc, hu]
    exact ⟨hqueued, hcurrent⟩
  cases q with
  | takeWork =>
    rcases perform_takeWork h with ⟨-, rfl, rfl⟩ | ⟨-, rfl, rfl⟩ | ⟨job, jobs, hjobs, -, rfl, rfl⟩
    · exact ⟨hqueued, hcurrent⟩
    · exact ⟨hqueued, hcurrent⟩
    · rw [hjobs] at hqueued
      refine ⟨fun job' hjob' => hqueued job' (List.mem_cons_of_mem _ hjob'), fun job' hjob' => ?_⟩
      cases hjob'
      exact hqueued job List.mem_cons_self
  | claim job =>
    rcases perform_claim h with ⟨-, rfl, rfl⟩ | ⟨-, -, rfl, rfl⟩
    · exact ⟨hqueued, hcurrent⟩
    · refine ⟨hqueued, fun job' hjob' => ?_⟩
      cases hjob'
      exact hq
  | release key =>
    cases h
    exact ⟨hqueued, nofun⟩
  | enqueue job =>
    cases h
    refine ⟨fun job' hjob' => ?_, hcurrent⟩
    simp only [Queue.enqueue] at hjob'
    split_ifs at hjob'
    · exact hqueued job' hjob'
    · rcases List.mem_append.mp hjob' with hold | hnew
      · exact hqueued job' hold
      · rw [List.mem_singleton.mp hnew]
        exact hq
  | _ => exact hkept trivial

theorem start_keyed {S : Settings} (disk : Directory) : Cache.Keyed S { store := { disk := disk } } := by
  refine ⟨trivial, ?_, ?_, ?_⟩ <;> simp

theorem Cache.Keyed.step {S : Settings} {c c' : Cache} {e : Event} (h : c.Keyed S)
    (hstep : c.step S e = some c') : c'.Keyed S := by
  cases e with
  | work choice =>
    obtain ⟨q, next, x, store, queue, hworker, hperform, rfl⟩ := work_eq_some hstep
    obtain ⟨hq, hnext⟩ := hworker ▸ h.worker
    obtain ⟨hqueued, hcurrent⟩ := perform_keyed hq hperform h.queued h.current
    exact ⟨hnext x, h.requests, hqueued, hcurrent⟩
  | look i choice =>
    obtain ⟨source, q, next, x, store, queue, hrequest, hperform, rfl⟩ := look_eq_some hstep
    obtain ⟨hq, hnext⟩ := h.requests _ (List.mem_of_getElem? hrequest)
    obtain ⟨hqueued, hcurrent⟩ := perform_keyed hq hperform h.queued h.current
    refine ⟨h.worker, fun r hr => ?_, hqueued, hcurrent⟩
    rcases List.mem_or_eq_of_mem_set hr with hr | rfl
    · exact h.requests r hr
    · exact hnext x
  | enter source =>
    cases hstep
    refine ⟨h.worker, fun r hr => ?_, h.queued, h.current⟩
    rcases List.mem_cons.mp hr with rfl | hr
    · exact lookup_asks S source (keyed_of_reads S) (job_keyed S source)
    · exact h.requests r hr
  | leave i =>
    obtain rfl := leave_eq_some hstep
    exact ⟨h.worker, fun r hr => h.requests r (List.mem_of_mem_eraseIdx hr), h.queued, h.current⟩
  | requestBuild =>
    cases hstep
    exact ⟨h.worker, h.requests, h.queued, h.current⟩
  | launch fuel =>
    simp only [Cache.step] at hstep
    split_ifs at hstep
    cases hstep
    exact ⟨run_keyed S fuel, h.requests, h.queued, h.current⟩
  | prepare | announce | halt | withdraw =>
    simp only [Cache.step] at hstep
    split_ifs at hstep
    cases hstep
    exact ⟨h.worker, h.requests, h.queued, h.current⟩
  | join =>
    simp only [Cache.step] at hstep
    split_ifs at hstep
    cases hstep
    exact ⟨h.worker, h.requests, by simp, h.current⟩
  | crash =>
    cases hstep
    exact start_keyed _

/-- A marker stands under the key of the identity in it. -/
def Store.MarkersKeyed (S : Settings) (s : Store) : Prop :=
  ∀ key m, s.file (artifact key .metadata) = some m → S.cacheKey m.data = key

theorem Store.MarkersKeyed.turn {S : Settings} {s s' : Store} {q : Op} (h : s.MarkersKeyed S)
    (hcurrent : ∀ job, s.current = some job → job.Keyed S) (hturn : ∀ key, Turn q s s' key) :
    s'.MarkersKeyed S := by
  intro key m hm'
  have hold (hsame : s'.file (artifact key .metadata) = none ∨
      s'.file (artifact key .metadata) = s.file (artifact key .metadata)) :
      S.cacheKey m.data = key := by
    rcases hsame with hnone | hsame
    · rw [hnone] at hm'
      cases hm'
    · exact h key m (hsame ▸ hm')
  cases hturn key with
  | kept hg hm => exact hold hm
  | marked job f hc hk hg hm hd hown =>
    rw [hm, Option.some.injEq] at hm'
    rw [← hm', hd, ← hk]
    exact (hcurrent job hc).symm
  | published job f hc hk hq hg hf hm =>
    rw [hm m hm', ← hk]
    exact (hcurrent job hc).symm

/-- With a key for each identity alone, the way is clear at every step. -/
theorem Cache.Keyed.clear {S : Settings} {c : Cache} (hkey : Function.Injective S.cacheKey)
    (h : c.Keyed S) (hm : c.store.MarkersKeyed S) : c.Clear S := by
  intro job next hc hworker
  have hjob : job.key = S.cacheKey job.identity := h.current job hc
  refine ⟨fun m hmarker => ?_, fun r _ hk hid => ?_⟩
  · exact hkey ((hm job.key m hmarker).trans hjob)
  · exact absurd (hkey (hk.trans hjob)) hid

theorem Cache.Sound.markersKeyed {S : Settings} {c c' : Cache} {e : Event} (h : c.Sound S)
    (hkeyed : c.Keyed S) (hm : c.store.MarkersKeyed S) (hclear : c.Clear S)
    (hstep : c.step S e = some c') : c'.store.MarkersKeyed S := by
  cases e with
  | work choice =>
    obtain ⟨q, next, x, -, -, -, hturn, -⟩ := h.turn (fun _ => hclear) hstep
    exact hm.turn hkeyed.current hturn
  | look i choice =>
    obtain ⟨source, q, next, x, store, queue, hrequest, hperform, rfl⟩ := look_eq_some hstep
    obtain ⟨hreads, -⟩ := (h.requests _ (List.mem_of_getElem? hrequest)).reads
    have hstore : store = c.store := perform_looks hreads hperform
    subst hstore
    exact hm
  | leave i =>
    obtain rfl := leave_eq_some hstep
    exact hm
  | enter | requestBuild | crash =>
    cases hstep
    exact hm
  | prepare | launch | announce | halt | withdraw | join =>
    simp only [Cache.step] at hstep
    split_ifs at hstep
    cases hstep
    exact hm

/-- Where no two identities share a key, every run puts artifacts in place where that is clear. -/
theorem reaches_of_injective {S : Settings} (hkey : Function.Injective S.cacheKey) {c : Cache}
    (h : Reaches S (fun _ _ => True) {} c) :
    Reaches S (Separate S) {} c ∧ c.Keyed S ∧ c.store.MarkersKeyed S := by
  induction h with
  | refl =>
    refine ⟨.refl, start_keyed ∅, fun key m hm => ?_⟩
    cases hm
  | @step c c' e _ _ hstep ih =>
    obtain ⟨hreach, hkeyed, hmarkers⟩ := ih
    have hclear : c.Clear S := hkeyed.clear hkey hmarkers
    have hseparate : Separate S c e := by
      cases e with
      | work choice => exact fun _ => hclear
      | _ => trivial
    have hsound : c.Sound S := reaches_sound hreach
    exact ⟨hreach.step e hseparate hstep, hkeyed.step hstep,
      hsound.markersKeyed hkeyed hmarkers hclear hstep⟩

/-- Every lookup then finds its own artifact, in every run. -/
theorem ownHits_of_injective {S : Settings} (hkey : Function.Injective S.cacheKey) {c : Cache}
    (h : Reaches S (fun _ _ => True) {} c) : c.OwnHits := by
  have hsound : c.Sound S := reaches_sound (reaches_of_injective hkey h).1
  exact hsound.ownHits

end FastdlMm.CompressionCache
