import FastdlMm.Cache.Compress

namespace FastdlMm.CompressionCache

/-- The marker of the key is the job's own, and an artifact stands beside it. -/
def hasArtifact (job : Job) : CacheProgram Bool := do
  if !(← markerMatches (artifact job.key .metadata) job.identity) then return false
  ask (.regularArtifact (artifact job.key .gzip))

/-- The lookup finds no artifact of its own: unless a marker says not to, it asks for one. -/
def miss (s : Settings) (source : CompressionSource) :
    CacheProgram (Option CachedRepresentation) := do
  let job := s.job source
  if !(← markerMatches (artifact job.key .skip) (skipIdentity s.maxBytes source)) then
    ask (.enqueue job)
  return none

/-- What `lookup` answers, with the representation where that is `true`. -/
def lookup (s : Settings) (source : CompressionSource) :
    CacheProgram (Option CachedRepresentation) := do
  if !(← ask .running) || !eligible source then return none
  let job := s.job source
  if !(← hasArtifact job) then miss s source
  else
    let some size ← ask (.fileSize (artifact job.key .gzip)) | miss s source
    if size < 18 then miss s source
    else return some ⟨artifact job.key .gzip, size⟩

/-- The last part of `process`: the source is compressed unless its key is pending. -/
def claimAndCompress (s : Settings) (fuel : Nat) (job : Job) : CacheProgram Bool := do
  match ← ask (.claim job) with
  | .stopping => return false
  | .pending => return true
  | .inserted =>
      let _succeeded ← compress s fuel job
      let stopping ← ask (.release job.key)
      return !stopping

/-- `process` of the scan on a file that is served and described; `false` ends the scan. -/
def processSource (s : Settings) (fuel : Nat) (source : CompressionSource) :
    CacheProgram Bool := do
  if !eligible source then return true
  let job := s.job source
  if ← hasArtifact job then return true
  if ← markerMatches (artifact job.key .skip) (skipIdentity s.maxBytes source) then return true
  claimAndCompress s fuel job

/-- The walk over the served directories; every file it comes to goes through `process`. -/
def scanFiles (s : Settings) : Nat → CacheProgram Unit
  | 0 => endless
  | fuel + 1 => do
      let some path ← ask .nextFile | return ()
      if ← ask .stopping then return ()
      let some source ← ask (.describe path) | scanFiles s fuel
      if ← processSource s fuel source then scanFiles s fuel

def scanAndBuild (s : Settings) (fuel : Nat) : CacheProgram Unit := do
  if !s.hasResolver then return ()
  maintainCache s
  if ← ask .stopping then return ()
  scanFiles s fuel

/-- The loop of `run`. -/
def serveJobs (s : Settings) : Nat → CacheProgram Unit
  | 0 => endless
  | fuel + 1 => do
      match ← ask .takeWork with
      | .stop => return ()
      | .build =>
          scanAndBuild s fuel
          serveJobs s fuel
      | .job job =>
          let _succeeded ← compress s fuel job
          let _stopping ← ask (.release job.key)
          serveJobs s fuel

/-- The worker thread. Its loops go on for at most `fuel` rounds, however large. -/
def run (s : Settings) (fuel : Nat) : CacheProgram Unit := do
  maintainCache s
  serveJobs s fuel

/-- A request thread inside `lookup`. -/
structure Request where
  source : CompressionSource
  program : CacheProgram (Option CachedRepresentation)

/-- How far `start` and `stop` have come. -/
inductive Control where
  | down
  | prepared
  | launched
  | up
  | halting
  | withdrawn
  deriving DecidableEq

/-- The cache with all its threads, over its directory. -/
structure Cache where
  store : Store := {}
  queue : Queue := {}
  worker : CacheProgram Unit := .done ()
  requests : List Request := []
  control : Control := .down

inductive Event where
  /-- The worker takes a step. -/
  | work (c : Choice)
  /-- A request thread enters `lookup`, takes a step in it, or leaves it. -/
  | enter (source : CompressionSource)
  | look (i : Nat) (c : Choice)
  | leave (i : Nat)
  | requestBuild
  /-- `start`: the counters and flags, the worker thread, `running_`. -/
  | prepare
  | launch (fuel : Nat)
  | announce
  /-- `stop`: `stopping_`, `running_`, and the rest once the worker has ended. -/
  | halt
  | withdraw
  | join
  /-- The process dies; the directory stays as it is. -/
  | crash

def Cache.work (c : Cache) (choice : Choice) : Option Cache :=
  match c.worker with
  | .done _ => none
  | .ask q next =>
      match q.perform choice c.store c.queue with
      | some (x, store, queue) => some { c with store := store, queue := queue, worker := next x }
      | none => none

def Cache.look (c : Cache) (i : Nat) (choice : Choice) : Option Cache :=
  match c.requests[i]? with
  | some ⟨source, .ask q next⟩ =>
      match q.perform choice c.store c.queue with
      | some (x, store, queue) =>
          some { c with store := store, queue := queue, requests := c.requests.set i ⟨source, next x⟩ }
      | none => none
  | _ => none

def Cache.leave (c : Cache) (i : Nat) : Option Cache :=
  match c.requests[i]? with
  | some ⟨_, .done _⟩ => some { c with requests := c.requests.eraseIdx i }
  | _ => none

/-- The worker thread has not been started, or has ended. -/
def Cache.idle (c : Cache) : Bool :=
  match c.worker with
  | .done _ => true
  | .ask _ _ => false

/-- One step of one thread; `none` where it is not that thread's turn. -/
def Cache.step (s : Settings) (c : Cache) : Event → Option Cache
  | .work choice => c.work choice
  | .enter source => some { c with requests := ⟨source, lookup s source⟩ :: c.requests }
  | .look i choice => c.look i choice
  | .leave i => c.leave i
  | .requestBuild =>
      some { c with queue := { c.queue with buildRequested := c.queue.buildRequested || !c.queue.stopping } }
  | .prepare =>
      if c.control ≠ .down then none
      else some { c with store := { c.store with entries := 0, bytes := 0 }
                         queue := { c.queue with stopping := false, buildRequested := false }
                         control := .prepared }
  | .launch fuel =>
      if c.control ≠ .prepared then none
      else some { c with worker := run s fuel, control := .launched }
  | .announce =>
      if c.control ≠ .launched then none
      else some { c with queue := { c.queue with running := true }, control := .up }
  | .halt =>
      -- `start` falls back to `stop` when it cannot make the worker thread
      if c.control ≠ .up ∧ c.control ≠ .prepared then none
      else some { c with queue := { c.queue with stopping := true }, control := .halting }
  | .withdraw =>
      if c.control ≠ .halting then none
      else some { c with queue := { c.queue with running := false }, control := .withdrawn }
  | .join =>
      if c.control ≠ .withdrawn ∨ !c.idle then none
      else some { c with queue := { c.queue with jobs := [], pending := ∅, buildRequested := false }
                         control := .down }
  | .crash => some { store := { disk := c.store.disk } }

section Steps

variable {c c' : Cache} {i : Nat} {choice : Choice}

/-- A step of the worker is the operation it asks for. -/
theorem work_eq_some (h : c.work choice = some c') :
    ∃ q next x store queue, c.worker = .ask q next ∧
      q.perform choice c.store c.queue = some (x, store, queue) ∧
      c' = { c with store := store, queue := queue, worker := next x } := by
  unfold Cache.work at h
  split at h
  · cases h
  · rename_i q next hworker
    split at h
    · rename_i x store queue hperform
      cases h
      exact ⟨q, next, x, store, queue, hworker, hperform, rfl⟩
    · cases h

theorem look_eq_some (h : c.look i choice = some c') :
    ∃ source q next x store queue, c.requests[i]? = some ⟨source, .ask q next⟩ ∧
      q.perform choice c.store c.queue = some (x, store, queue) ∧
      c' = { c with store := store, queue := queue, requests := c.requests.set i ⟨source, next x⟩ } := by
  unfold Cache.look at h
  split at h
  · rename_i source q next hrequest
    split at h
    · rename_i x store queue hperform
      cases h
      exact ⟨source, q, next, x, store, queue, hrequest, hperform, rfl⟩
    · cases h
  · cases h

theorem leave_eq_some (h : c.leave i = some c') :
    c' = { c with requests := c.requests.eraseIdx i } := by
  unfold Cache.leave at h
  split at h
  · exact (Option.some.inj h).symm
  · cases h

theorem idle_of_ask {q : Op} {next : q.Answer → CacheProgram Unit} (h : c.worker = .ask q next) :
    c.idle = false := by
  rw [Cache.idle, h]

end Steps

/-- The states that steps meeting `meets` lead to. -/
inductive Reaches (s : Settings) (meets : Cache → Event → Prop) (c₀ : Cache) : Cache → Prop
  | refl : Reaches s meets c₀ c₀
  | step {c c' : Cache} (e : Event) : Reaches s meets c₀ c → meets c e → c.step s e = some c' →
      Reaches s meets c₀ c'

/-- A list of steps, each of which passes a test first. -/
def Cache.runIf (s : Settings) (test : Cache → Event → Bool) : List Event → Cache → Option Cache
  | [], c => some c
  | e :: es, c => if test c e then (c.step s e).bind (runIf s test es) else none

theorem reaches_of_runIf {s : Settings} {meets : Cache → Event → Prop} {test : Cache → Event → Bool}
    (htest : ∀ c e, test c e = true → meets c e) {es : List Event} {c₀ c c' : Cache}
    (hc : Reaches s meets c₀ c) (h : c.runIf s test es = some c') : Reaches s meets c₀ c' := by
  induction es generalizing c with
  | nil =>
    cases h
    exact hc
  | cons e es ih =>
    simp only [Cache.runIf] at h
    split_ifs at h with ht
    obtain ⟨c₁, hstep, hrest⟩ := Option.bind_eq_some_iff.mp h
    exact ih (hc.step e (htest c e ht) hstep) hrest

theorem hasArtifact_asks (job : Job) : (hasArtifact job).Asks Op.Reads := by
  refine (markerMatches_asks _ _).bind fun matched => ?_
  split
  · trivial
  · exact ⟨trivial, fun _ => trivial⟩

theorem miss_asks (s : Settings) (source : CompressionSource) {allowed : Op → Prop}
    (hreads : ∀ q, q.Reads → allowed q) (hjob : allowed (.enqueue (s.job source))) :
    (miss s source).Asks allowed := by
  refine ((markerMatches_asks _ _).mono hreads).bind fun skipped => ?_
  split
  · exact .query hjob fun _ => trivial
  · trivial

/-- A lookup reads, and hands in no job but that of its source. -/
theorem lookup_asks (s : Settings) (source : CompressionSource) {allowed : Op → Prop}
    (hreads : ∀ q, q.Reads → allowed q) (hjob : allowed (.enqueue (s.job source))) :
    (lookup s source).Asks allowed := by
  have hmiss := miss_asks s source hreads hjob
  refine .query (hreads .running trivial) fun running => ?_
  split
  · trivial
  refine ((hasArtifact_asks _).mono hreads).bind fun present => ?_
  split
  · exact hmiss
  refine .query (hreads (.fileSize _) trivial) fun size => ?_
  split
  · exact .ite hmiss trivial
  · exact hmiss

end FastdlMm.CompressionCache
