import FastdlMm.Cache.Publication

namespace FastdlMm.CompressionCache

/-- The answers a lookup can get while the marker of the key is missing or reads `marker`. -/
def Fits (key marker : Text) : (q : Op) → q.Answer → Prop
  | .fileSize name, x => name = artifact key .metadata → x = none ∨ x = some marker.length
  | .read name size, x =>
      name = artifact key .metadata → x = none ∨ (size ≤ marker.length ∧ x = some (marker.take size))
  | _, _ => True

/-- With no marker but that one, the lookup can only answer `false`. -/
def Declines (key marker : Text) (p : CacheProgram (Option CachedRepresentation)) : Prop :=
  p.Ends (Fits key marker) (· = none)

/-- Where the worker is about to put the artifact of a job in place, a marker of the key is the
job's, and no lookup of another identity is under way that could take the artifact for its own. -/
def Cache.Clear (S : Settings) (c : Cache) : Prop :=
  ∀ job next, c.store.current = some job →
    c.worker = .ask (.rename (artifact job.key .gzipTemp) (artifact job.key .gzip)) next →
    (∀ m, c.store.file (artifact job.key .metadata) = some m → m.data = job.identity) ∧
    ∀ r ∈ c.requests, (S.job r.source).key = job.key → sourceIdentity r.source ≠ job.identity →
      Declines job.key job.identity r.program

/-- The steps of a run in which artifacts are only put in place where that is clear. -/
def Separate (S : Settings) (c : Cache) : Event → Prop
  | .work choice => choice.fails = false → c.Clear S
  | _ => True

/-- The lookups that have answered `true`: the source and the path of the answer. -/
def Cache.hits (c : Cache) : List (CompressionSource × Text) :=
  c.requests.filterMap fun r =>
    match r.program with
    | .done (some cached) => some (r.source, cached.path)
    | _ => none

/-- What stands at the path of a hit was written to its end by a job of the same identity. -/
def Cache.OwnHits (c : Cache) : Prop :=
  ∀ hit ∈ c.hits, ∀ f ∈ c.store.file hit.2, f.completedFor = some (sourceIdentity hit.1)

instance (c : Cache) : Decidable c.OwnHits := by
  unfold Cache.OwnHits
  infer_instance

namespace Store

/-- The artifact of the key, if any, was written to its end by a job of that identity. -/
def WrittenFor (s : Store) (key identity : Text) : Prop :=
  ∀ f, s.file (artifact key .gzip) = some f → f.completedFor = some identity

def MarkedFor (s : Store) (key identity : Text) : Prop :=
  ∀ m, s.file (artifact key .metadata) = some m → m.data = identity

/-- Artifact and marker of every key belong together. -/
def InOrder (s : Store) : Prop := ∀ key, ∃ identity, s.WrittenFor key identity ∧ s.MarkedFor key identity

variable {s s' : Store} {key identity : Text} {f : File}

theorem WrittenFor.of_none (h : s.file (artifact key .gzip) = none) : s.WrittenFor key identity := by
  intro f hf
  rw [h] at hf
  cases hf

theorem WrittenFor.of_some (h : s.file (artifact key .gzip) = some f)
    (hf : f.completedFor = some identity) : s.WrittenFor key identity := by
  intro f' hf'
  rw [h, Option.some.injEq] at hf'
  rwa [← hf']

theorem WrittenFor.of_eq (hw : s.WrittenFor key identity)
    (h : s'.file (artifact key .gzip) = none ∨
      s'.file (artifact key .gzip) = s.file (artifact key .gzip)) :
    s'.WrittenFor key identity := by
  rcases h with h | h
  · exact .of_none h
  · exact fun f hf => hw f (h ▸ hf)

theorem MarkedFor.of_some (h : s.file (artifact key .metadata) = some f) :
    s.MarkedFor key f.data := by
  intro m hm
  rw [h, Option.some.injEq] at hm
  rw [hm]

theorem MarkedFor.of_eq (hm : s.MarkedFor key identity)
    (h : s'.file (artifact key .metadata) = none ∨
      s'.file (artifact key .metadata) = s.file (artifact key .metadata)) :
    s'.MarkedFor key identity := by
  intro m hm'
  rcases h with h | h
  · rw [h] at hm'
    cases hm'
  · exact hm m (h ▸ hm')

theorem InOrder.turn {q : Op} (h : s.InOrder) (hturn : ∀ key, Turn q s s' key) : s'.InOrder := by
  intro key
  obtain ⟨identity, hw, hm⟩ := h key
  cases hturn key with
  | kept hg hmeta => exact ⟨identity, hw.of_eq hg, hm.of_eq hmeta⟩
  | marked job m hc hk hg hmeta hd hown =>
    exact ⟨job.identity, WrittenFor.of_eq hown (.inr hg), hd ▸ .of_some hmeta⟩
  | published job f hc hk hq hg hf hmeta => exact ⟨job.identity, .of_some hg hf, hmeta⟩

end Store

/-- The lookup has only its own artifact in reach, or it cannot answer `true` as things stand. -/
def Store.Guards (S : Settings) (s : Store) (r : Request) : Prop :=
  s.WrittenFor (S.job r.source).key (sourceIdentity r.source) ∨
  ∃ marker, s.WrittenFor (S.job r.source).key marker ∧ s.MarkedFor (S.job r.source).key marker ∧
    Declines (S.job r.source).key marker r.program

theorem Store.Guards.turn {S : Settings} {s s' : Store} {q : Op} {r : Request} (h : s.Guards S r)
    (hturn : Turn q s s' (S.job r.source).key)
    (hclear : ∀ job, s.current = some job → (S.job r.source).key = job.key →
      q = .rename (artifact job.key .gzipTemp) (artifact job.key .gzip) →
      sourceIdentity r.source ≠ job.identity → Declines job.key job.identity r.program) :
    s'.Guards S r := by
  cases hturn with
  | kept hg hmeta =>
    rcases h with hw | ⟨marker, hw, hm, hd⟩
    · exact .inl (hw.of_eq hg)
    · exact .inr ⟨marker, hw.of_eq hg, hm.of_eq hmeta, hd⟩
  | marked job m hc hk hg hmeta hd hown =>
    rcases h with hw | ⟨marker, hw, hm, hdeclines⟩
    · exact .inl (hw.of_eq (.inr hg))
    · cases hf : s.file (artifact (S.job r.source).key .gzip) with
      | none => exact .inl (.of_none (hg.trans hf))
      | some f =>
        have hmarker : job.identity = marker := Option.some.inj ((hown f hf).symm.trans (hw f hf))
        have hm' : s'.MarkedFor (S.job r.source).key marker := hmarker ▸ hd ▸ .of_some hmeta
        exact .inr ⟨marker, hw.of_eq (.inr hg), hm', hdeclines⟩
  | published job f hc hk hq hg hf hmeta =>
    by_cases hid : sourceIdentity r.source = job.identity
    · exact .inl (.of_some hg (hid ▸ hf))
    · refine .inr ⟨job.identity, .of_some hg hf, hmeta, ?_⟩
      rw [← hk]
      exact hclear job hc hk.symm hq hid

/-- What the directory answers is fitting. -/
theorem perform_fits {q : Op} {c : Choice} {s s' : Store} {u u' : Queue} {x : q.Answer}
    {key marker : Text} (hm : s.MarkedFor key marker)
    (h : q.perform c s u = some (x, s', u')) : Fits key marker q x := by
  cases q with
  | fileSize name =>
    intro hname
    cases h
    split_ifs
    · exact .inl rfl
    · cases hf : s.file name with
      | none => exact .inl rfl
      | some m => exact .inr (by rw [← hm m (hname ▸ hf)]; rfl)
  | read name size =>
    intro hname
    simp only [Op.perform] at h
    split at h
    · rename_i m hf
      cases h
      rw [← hm m (hname ▸ hf)]
      split_ifs with hc
      · exact .inl rfl
      · simp only [Bool.or_eq_true, decide_eq_true_eq, not_or, Nat.not_lt] at hc
        exact .inr ⟨hc.2, rfl⟩
    · cases h
      exact .inl rfl
  | _ => trivial

theorem markerMatches_declines {key marker identity : Text} (h : marker ≠ identity) :
    (markerMatches (artifact key .metadata) identity).Ends (Fits key marker) (· = false) := by
  refine .query fun regular _ => ?_
  split
  · exact rfl
  refine .query fun size hsize => ?_
  split
  · split
    · exact rfl
    rename_i size hlength
    refine .query fun stored hstored => ?_
    split
    · rename_i stored
      -- a marker of the same length is read in full, so it would have to be the same one
      have hsize : size = marker.length := by simpa using hsize rfl
      have hstored : stored = marker.take identity.length := by
        simpa using ((hstored rfl).resolve_left nofun).2
      have hfull : stored = marker := by
        rw [hstored, ← not_not.mp hlength, hsize, List.take_length]
      rw [hfull]
      exact decide_eq_false h
    · exact rfl
  · exact rfl

/-- A lookup that starts beside the marker of another identity finds nothing. -/
theorem lookup_declines (S : Settings) {source : CompressionSource} {marker : Text}
    (h : marker ≠ sourceIdentity source) :
    Declines (S.job source).key marker (lookup S source) := by
  have hmiss : (miss S source).Ends (Fits (S.job source).key marker) (· = none) := by
    refine (Program.ends_trivial _ _).bind fun skipped _ => ?_
    split
    · exact .query fun _ _ => rfl
    · exact rfl
  refine .query fun running _ => ?_
  split
  · exact rfl
  have hpresent : (hasArtifact (S.job source)).Ends (Fits (S.job source).key marker) (· = false) := by
    refine (markerMatches_declines h).bind fun matched hmatched => ?_
    rw [hmatched]
    exact rfl
  refine hpresent.bind fun present hpresent => ?_
  rw [hpresent]
  exact hmiss

/-- The requests of a cache at work: they only read, they answer with the path of their own key, and
no artifact of another identity can pass for theirs. -/
structure Request.Sound (S : Settings) (s : Store) (r : Request) : Prop where
  reads : r.program.Asks Op.Looks
  path : r.program.Ends (fun _ _ => True) fun answer =>
    ∀ cached, answer = some cached → cached.path = artifact (S.job r.source).key .gzip
  guards : s.Guards S r

structure Cache.Sound (S : Settings) (c : Cache) : Prop where
  inOrder : c.store.InOrder
  worker : Orderly c.worker (fun _ _ => True) c.store
  requests : ∀ r ∈ c.requests, r.Sound S c.store
  idle : c.control = .down ∨ c.control = .prepared → c.idle

theorem lookup_path (S : Settings) (source : CompressionSource) :
    (lookup S source).Ends (fun _ _ => True) fun answer =>
      ∀ cached, answer = some cached → cached.path = artifact (S.job source).key .gzip := by
  have hmiss : (miss S source).Ends (fun _ _ => True) fun answer =>
      ∀ cached, answer = some cached → cached.path = artifact (S.job source).key .gzip := by
    refine (Program.ends_trivial _ _).bind fun skipped _ => ?_
    split
    · exact .query fun _ _ => nofun
    · exact nofun
  refine .query fun running _ => ?_
  split
  · exact nofun
  refine (Program.ends_trivial _ _).bind fun present _ => ?_
  split
  · exact hmiss
  refine .query fun size _ => ?_
  split
  · split
    · exact hmiss
    · intro cached hcached
      cases hcached
      rfl
  · exact hmiss

theorem lookup_sound {S : Settings} {s : Store} (h : s.InOrder) (source : CompressionSource) :
    Request.Sound S s ⟨source, lookup S source⟩ := by
  refine ⟨lookup_asks S source looks_of_reads trivial, lookup_path S source, ?_⟩
  obtain ⟨marker, hw, hm⟩ := h (S.job source).key
  by_cases hmarker : marker = sourceIdentity source
  · exact .inl (hmarker ▸ hw)
  · exact .inr ⟨marker, hw, hm, lookup_declines S hmarker⟩

/-- A step of the worker that finds the way clear keeps every representation in order. -/
theorem Cache.Sound.turn {S : Settings} {c c' : Cache} {choice : Choice} (h : c.Sound S)
    (hclear : choice.fails = false → c.Clear S) (hstep : c.work choice = some c') :
    ∃ q next x, c.worker = .ask q next ∧
      q.perform choice c.store c.queue = some (x, c'.store, c'.queue) ∧
      c' = { c with store := c'.store, queue := c'.queue, worker := next x } ∧
      (∀ key, Turn q c.store c'.store key) ∧
      Orderly (next x) (fun _ _ => True) c'.store := by
  obtain ⟨q, next, x, store, queue, hworker, hperform, rfl⟩ := work_eq_some hstep
  have hmoves : Moves q c.store x store := by
    refine ⟨choice, c.queue, queue, hperform, ?_⟩
    intro hfails job hc hq
    subst hq
    exact (hclear hfails job next hc hworker).1
  have horderly := h.worker
  rw [hworker] at horderly
  obtain ⟨hturn, hnext⟩ := horderly x store hmoves
  exact ⟨q, next, x, hworker, hperform, rfl, hturn, hnext⟩

theorem Cache.Sound.work {S : Settings} {c c' : Cache} {choice : Choice} (h : c.Sound S)
    (hclear : choice.fails = false → c.Clear S) (hstep : c.work choice = some c') : c'.Sound S := by
  obtain ⟨q, next, x, hworker, hperform, heq, hturn, hnext⟩ := h.turn hclear hstep
  generalize c'.store = store at *
  generalize c'.queue = queue at *
  subst heq
  refine ⟨h.inOrder.turn hturn, hnext, fun r hr => ?_, fun hcontrol => ?_⟩
  · obtain ⟨hreads, hpath, hguards⟩ := h.requests r hr
    refine ⟨hreads, hpath, ?_⟩
    by_cases hsame : store = c.store
    · rw [hsame]
      exact hguards
    apply hguards.turn (hturn _)
    intro job hc hk hq hid
    subst hq
    rcases perform_rename hperform with ⟨-, hstore⟩ | ⟨f, -, -, hfails, -⟩
    · exact absurd hstore hsame
    · exact (hclear hfails job next hc hworker).2 r hr hk hid
  · have hidle := h.idle hcontrol
    rw [idle_of_ask hworker] at hidle
    cases hidle

theorem Cache.Sound.look {S : Settings} {c c' : Cache} {i : Nat} {choice : Choice} (h : c.Sound S)
    (hstep : c.look i choice = some c') : c'.Sound S := by
  obtain ⟨source, q, next, x, store, queue, hrequest, hperform, rfl⟩ := look_eq_some hstep
  obtain ⟨hreads, hpath, hguards⟩ := h.requests _ (List.mem_of_getElem? hrequest)
  have hstore : store = c.store := perform_looks hreads.1 hperform
  subst hstore
  refine ⟨h.inOrder, h.worker, fun r hr => ?_, h.idle⟩
  rcases List.mem_or_eq_of_mem_set hr with hr | rfl
  · exact h.requests r hr
  · refine ⟨hreads.2 x, hpath x trivial, ?_⟩
    rcases hguards with hw | ⟨marker, hw, hm, hd⟩
    · exact .inl hw
    · exact .inr ⟨marker, hw, hm, hd x (perform_fits hm hperform)⟩

theorem Cache.Sound.step {S : Settings} {c c' : Cache} {e : Event} (h : c.Sound S)
    (hmeets : Separate S c e) (hstep : c.step S e = some c') : c'.Sound S := by
  cases e with
  | work choice => exact h.work hmeets hstep
  | look i choice => exact h.look hstep
  | enter source =>
    cases hstep
    refine ⟨h.inOrder, h.worker, fun r hr => ?_, h.idle⟩
    rcases List.mem_cons.mp hr with rfl | hr
    · exact lookup_sound h.inOrder source
    · exact h.requests r hr
  | leave i =>
    obtain rfl := leave_eq_some hstep
    exact ⟨h.inOrder, h.worker, fun r hr => h.requests r (List.mem_of_mem_eraseIdx hr), h.idle⟩
  | requestBuild =>
    cases hstep
    exact { h with }
  | prepare =>
    simp only [Cache.step] at hstep
    split_ifs at hstep with hcontrol
    cases hstep
    have hidle := h.idle (.inl (not_not.mp hcontrol))
    refine ⟨h.inOrder, ?_, fun r hr => ?_, fun _ => hidle⟩
    · unfold Cache.idle at hidle
      split at hidle
      · rename_i hworker
        dsimp only
        rw [hworker]
        trivial
      · cases hidle
    · obtain ⟨hreads, hpath, hguards⟩ := h.requests r hr
      exact ⟨hreads, hpath, hguards⟩
  | launch fuel =>
    simp only [Cache.step] at hstep
    split_ifs at hstep with hcontrol
    cases hstep
    exact ⟨h.inOrder, run_orderly S fuel _, h.requests, fun h => by simp at h⟩
  | announce | halt | withdraw =>
    simp only [Cache.step] at hstep
    split_ifs at hstep with hcontrol
    cases hstep
    exact ⟨h.inOrder, h.worker, h.requests, fun h => by simp at h⟩
  | join =>
    simp only [Cache.step] at hstep
    split_ifs at hstep with hcontrol
    cases hstep
    simp only [not_or, Bool.not_eq_true, Bool.not_eq_false'] at hcontrol
    exact ⟨h.inOrder, h.worker, h.requests, fun _ => hcontrol.2⟩
  | crash =>
    cases hstep
    exact ⟨h.inOrder, trivial, nofun, fun _ => rfl⟩

theorem start_sound (S : Settings) : Cache.Sound S {} := by
  refine ⟨fun key => ⟨[], ?_, ?_⟩, trivial, nofun, fun _ => rfl⟩
  · exact .of_none rfl
  · exact nofun

theorem reaches_sound {S : Settings} {c : Cache} (h : Reaches S (Separate S) {} c) : c.Sound S := by
  induction h with
  | refl => exact start_sound S
  | step e _ hmeets hstep ih => exact ih.step hmeets hstep

/-- A lookup that has answered `true` had only its own artifact in reach. -/
theorem Cache.Sound.ownHits {S : Settings} {c : Cache} (h : c.Sound S) : c.OwnHits := by
  intro hit hhit f hf
  obtain ⟨r, hr, hr'⟩ := List.mem_filterMap.mp hhit
  obtain ⟨hreads, hpath, hguards⟩ := h.requests r hr
  split at hr'
  · rename_i cached hprogram
    cases hr'
    rw [hprogram] at hpath
    rw [hpath cached rfl] at hf
    rcases hguards with hw | ⟨marker, -, -, hd⟩
    · exact hw f hf
    · rw [hprogram] at hd
      cases hd
  · cases hr'

/-- In a run that puts artifacts in place only where that is clear, whatever threads, jobs, failures
and crashes come in between, no lookup takes another identity's artifact for its own. -/
theorem ownHits_of_separate (S : Settings) {c : Cache} (h : Reaches S (Separate S) {} c) :
    c.OwnHits := by
  have hsound : c.Sound S := reaches_sound h
  exact hsound.ownHits

/-- A compressor that gives what a deflate stream of 1024 times `a` looks like. -/
def sampleMiniz : Miniz where
  Stream := Unit
  deflateInit := some ()
  deflate := fun _ mode input _ =>
    match mode with
    | .noFlush => ⟨.ok, input.length, [], ()⟩
    | .finish => ⟨.streamEnd, 0, bytes [75, 76, 28, 5, 163, 33, 48, 26, 2, 35, 53, 4, 0], ()⟩
  crc32 := fun crc input => if input = [] then crc else 0x7c5597b9

def sampleSettings (key : Text → Text) : Settings := ⟨key, sampleMiniz, 1048576, true⟩

def sampleSource (path : Text) (id : Nat) : CompressionSource :=
  ⟨path, text ".bsp", ⟨1024, 0, 7, id⟩⟩

/-- Start-up on an empty directory, until the worker waits for work. -/
def startUp : List Event := [.prepare, .launch 9, .announce, .work {}, .work {}]

/-- A lookup with `n` steps. -/
def looking (source : CompressionSource) (n : Nat) : List Event :=
  .enter source :: List.replicate n (.look 0 {})

/-- The worker takes a job on 1024 times `a`; `n` steps are left once the stream is complete. -/
def compressing (source : CompressionSource) (n : Nat) : List Event :=
  [.work {}, .work { info := some source.info }] ++ List.replicate 6 (.work {}) ++
    [.work { bytes := some (List.replicate 1024 'a') }] ++ List.replicate 5 (.work {}) ++
    [.work { info := some source.info }] ++ List.replicate n (.work {})

/-- The worker is not just putting an artifact in place, or it does so with no lookup under way and
no marker of another identity. -/
def Cache.publishesAlone (c : Cache) : Event → Bool
  | .work _ =>
      match c.worker with
      | .ask (.rename _ _) _ => c.requests.isEmpty &&
          c.store.current.all fun job =>
            (c.store.file (artifact job.key .metadata)).all fun m => m.data == job.identity
      | _ => true
  | _ => true

theorem separate_of_publishesAlone (S : Settings) (c : Cache) (e : Event)
    (h : c.publishesAlone e = true) : Separate S c e := by
  cases e with
  | work choice =>
    intro _ job next hc hworker
    simp only [Cache.publishesAlone, hworker, hc, Option.all_some, Bool.and_eq_true,
      List.isEmpty_iff] at h
    obtain ⟨hnone, hmarker⟩ := h
    refine ⟨fun m hm => ?_, fun r hr => ?_⟩
    · rw [hm, Option.all_some, beq_iff_eq] at hmarker
      exact hmarker
    · rw [hnone] at hr
      cases hr
  | _ => trivial

/-- A source is looked up and compressed; then another source with the same key is looked up, for
which the marker declines, and the first one again, which is found. -/
def findWithSharedKey : List Event :=
  startUp ++ looking (sampleSource (text "/r/maps/a.bsp") 1) 4 ++ [.leave 0] ++
    compressing (sampleSource (text "/r/maps/a.bsp") 1) 12 ++
    looking (sampleSource (text "/r/maps/b.bsp") 2) 6 ++
    looking (sampleSource (text "/r/maps/a.bsp") 1) 6

theorem ownHits_findWithSharedKey :
    ∃ c, ({} : Cache).runIf (sampleSettings fun _ => text "k") Cache.publishesAlone
      findWithSharedKey = some c ∧
      c.requests.length = 2 ∧ c.queue.jobs.length = 1 ∧ c.hits.length = 1 ∧ c.OwnHits := by
  have hrun : ((({} : Cache).runIf (sampleSettings fun _ => text "k") Cache.publishesAlone
      findWithSharedKey).any fun c =>
        c.requests.length == 2 && c.queue.jobs.length == 1 && c.hits.length == 1) = true := by
    decide +kernel
  obtain ⟨c, hc, hsame⟩ := (Option.any_eq_true _ _).mp hrun
  simp only [Bool.and_eq_true, beq_iff_eq] at hsame
  obtain ⟨⟨hrequests, hjobs⟩, hhits⟩ := hsame
  have hreach : Reaches (sampleSettings fun _ => text "k")
      (Separate (sampleSettings fun _ => text "k")) {} c :=
    reaches_of_runIf (separate_of_publishesAlone _) .refl hc
  exact ⟨c, hc, hrequests, hjobs, hhits, ownHits_of_separate _ hreach⟩

/-- A second source with the same key is compressed up to where its artifact is in place and its
marker is not, and then the first one is looked up. -/
def findBetweenRenames : List Event :=
  startUp ++ looking (sampleSource (text "/r/maps/a.bsp") 1) 4 ++ [.leave 0] ++
    compressing (sampleSource (text "/r/maps/a.bsp") 1) 12 ++
    looking (sampleSource (text "/r/maps/b.bsp") 2) 6 ++ [.leave 0] ++
    compressing (sampleSource (text "/r/maps/b.bsp") 2) 6 ++
    looking (sampleSource (text "/r/maps/a.bsp") 1) 6

/-- With one key for two sources, a lookup of the first finds the artifact of the second. -/
theorem not_ownHits_findBetweenRenames :
    ∃ c, Reaches (sampleSettings fun _ => text "k") (fun _ _ => True) {} c ∧ ¬ c.OwnHits := by
  have hrun : ((({} : Cache).runIf (sampleSettings fun _ => text "k") (fun _ _ => true)
      findBetweenRenames).any fun c => !decide c.OwnHits) = true := by decide +kernel
  obtain ⟨c, hc, hhits⟩ := (Option.any_eq_true _ _).mp hrun
  exact ⟨c, reaches_of_runIf (fun _ _ _ => trivial) .refl hc, by simpa using hhits⟩

end FastdlMm.CompressionCache
