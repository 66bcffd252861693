import FastdlMm.Cache.CompressionCache

namespace FastdlMm.CompressionCache

/-- The artifact of a job does not come to stand beside the marker of another identity. -/
def Permits (q : Op) (s : Store) : Prop :=
  ∀ job, s.current = some job →
    q = .rename (artifact job.key .gzipTemp) (artifact job.key .gzip) →
    ∀ m, s.file (artifact job.key .metadata) = some m → m.data = job.identity

/-- What an operation may do where one that succeeds is permitted. -/
def Moves (q : Op) (s : Store) (x : q.Answer) (s' : Store) : Prop :=
  ∃ (c : Choice) (u u' : Queue), q.perform c s u = some (x, s', u') ∧
    (c.fails = false → Permits q s)

theorem Moves.effect {q : Op} {s s' : Store} {x : q.Answer} (h : Moves q s x s') :
    q.Effect s x s' := by
  obtain ⟨c, u, u', h, -⟩ := h
  exact ⟨c, u, u', h⟩

/-- What an operation of the worker does to the representation of one key: artifact and marker go or
stay, or the current job puts its artifact in place, or its marker beside that. -/
inductive Turn (q : Op) (s s' : Store) (key : Text) : Prop
  | kept (hg : s'.file (artifact key .gzip) = none ∨
        s'.file (artifact key .gzip) = s.file (artifact key .gzip))
      (hm : s'.file (artifact key .metadata) = none ∨
        s'.file (artifact key .metadata) = s.file (artifact key .metadata))
  | marked (job : Job) (m : File) (hc : s.current = some job) (hk : job.key = key)
      (hg : s'.file (artifact key .gzip) = s.file (artifact key .gzip))
      (hm : s'.file (artifact key .metadata) = some m) (hd : m.data = job.identity)
      (hown : ∀ f, s.file (artifact key .gzip) = some f → f.completedFor = some job.identity)
  | published (job : Job) (f : File) (hc : s.current = some job) (hk : job.key = key)
      (hq : q = .rename (artifact job.key .gzipTemp) (artifact job.key .gzip))
      (hg : s'.file (artifact key .gzip) = some f) (hf : f.completedFor = some job.identity)
      (hm : ∀ m, s'.file (artifact key .metadata) = some m → m.data = job.identity)

/-- A name that is neither of an artifact nor of its marker. -/
def Aside (name : Text) : Prop :=
  ∀ key, artifact key .gzip ≠ name ∧ artifact key .metadata ≠ name

theorem aside_gzipTemp (key : Text) : Aside (artifact key .gzipTemp) := fun _ => by simp

theorem aside_metadataTemp (key : Text) : Aside (artifact key .metadataTemp) := fun _ => by simp

theorem aside_skipTemp (key : Text) : Aside (artifact key .skipTemp) := fun _ => by simp

theorem aside_skip (key : Text) : Aside (artifact key .skip) := fun _ => by simp

namespace Turn

variable {q : Op} {s s' : Store} {key name : Text} {f : File}

theorem of_disk (h : s'.disk = s.disk) : Turn q s s' key :=
  .kept (.inr (by rw [Store.file, Store.file, h])) (.inr (by rw [Store.file, Store.file, h]))

theorem remove : Turn q s (s.remove name) key := by
  refine .kept ?_ ?_ <;> rw [Store.file_remove] <;> split_ifs <;> simp

theorem put (h : Aside name) : Turn q s (s.put name f) key :=
  .kept (.inr (by rw [Store.file_put, if_neg (h key).1]))
    (.inr (by rw [Store.file_put, if_neg (h key).2]))

theorem rename {source : Text} (h : Aside name) : Turn q s (s.rename source name f) key := by
  refine .kept ?_ ?_
  · rw [Store.file_rename, if_neg (h key).1]
    split_ifs <;> simp
  · rw [Store.file_rename, if_neg (h key).2]
    split_ifs <;> simp

/-- The marker of a job takes its place beside an artifact of that job. -/
theorem mark {job : Job} (hc : s.current = some job) (hf : f.data = job.identity)
    (hg : ∀ g, s.file (artifact job.key .gzip) = some g → g.completedFor = some job.identity) :
    Turn q s (s.rename (artifact job.key .metadataTemp) (artifact job.key .metadata) f) key := by
  have hgzip : (s.rename (artifact job.key .metadataTemp) (artifact job.key .metadata) f).file
      (artifact key .gzip) = s.file (artifact key .gzip) := by simp [Store.file_rename]
  by_cases hk : key = job.key
  · subst hk
    exact .marked job f hc rfl hgzip (by rw [Store.file_rename, if_pos rfl]) hf hg
  · exact .kept (.inr hgzip) (.inr (by simp [Store.file_rename, hk]))

/-- The artifact of the current job takes its place. -/
theorem publish {job : Job} (hc : s.current = some job)
    (hf : f.completedFor = some job.identity)
    (hm : ∀ m, s.file (artifact job.key .metadata) = some m → m.data = job.identity) :
    Turn (.rename (artifact job.key .gzipTemp) (artifact job.key .gzip)) s
      (s.rename (artifact job.key .gzipTemp) (artifact job.key .gzip) f) key := by
  have hmeta : (s.rename (artifact job.key .gzipTemp) (artifact job.key .gzip) f).file
      (artifact key .metadata) = s.file (artifact key .metadata) := by simp [Store.file_rename]
  by_cases hk : key = job.key
  · subst hk
    exact .published job f hc rfl rfl (by rw [Store.file_rename, if_pos rfl]) hf (by rwa [hmeta])
  · exact .kept (.inr (by simp [Store.file_rename, hk])) (.inr hmeta)

end Turn

/-- The operations that touch no artifact and no marker, other than to remove it. -/
def Op.Harmless : Op → Prop
  | .create name | .append name _ | .flush name => Aside name
  | .rename _ target => Aside target
  | q => q.Maintains

theorem harmless_of_writes {name : Text} (h : Aside name) (q : Op) (hq : q.Writes name) :
    q.Harmless := by
  cases q <;> simp only [Op.Writes] at hq <;> first | exact hq ▸ h | exact hq | cases hq

theorem harmless_of_maintains (q : Op) (hq : q.Maintains) : q.Harmless := by
  cases q <;> first | exact hq | cases hq

theorem harmless_of_reads (q : Op) (hq : q.Reads) : q.Harmless :=
  harmless_of_maintains q (maintains_of_reads q hq)

theorem harmless_step {q : Op} {s s' : Store} {x : q.Answer} (hq : q.Harmless)
    (h : Moves q s x s') : (∀ key, Turn q s s' key) ∧ s'.current = s.current := by
  obtain ⟨c, u, u', h, -⟩ := h
  cases q with
  | remove name =>
    rcases perform_remove h with rfl | rfl
    · exact ⟨fun _ => .of_disk rfl, rfl⟩
    · exact ⟨fun _ => .remove, rfl⟩
  | create name =>
    rcases perform_create h with ⟨-, rfl⟩ | ⟨-, rfl⟩
    · exact ⟨fun _ => .of_disk rfl, rfl⟩
    · exact ⟨fun _ => .put hq, rfl⟩
  | append name data =>
    rcases perform_append h with ⟨-, rfl⟩ | ⟨f, part, -, -, rfl⟩
    · exact ⟨fun _ => .of_disk rfl, rfl⟩
    · exact ⟨fun _ => .put hq, rfl⟩
  | flush name =>
    rcases perform_flush h with ⟨rfl, -⟩ | ⟨f, -, -, rfl⟩
    · exact ⟨fun _ => .of_disk rfl, rfl⟩
    · exact ⟨fun _ => .put hq, rfl⟩
  | rename source target =>
    rcases perform_rename h with ⟨-, rfl⟩ | ⟨f, -, -, -, rfl⟩
    · exact ⟨fun _ => .of_disk rfl, rfl⟩
    · exact ⟨fun _ => .rename hq, rfl⟩
  | setCounters entries bytes =>
    cases h
    exact ⟨fun _ => .of_disk rfl, rfl⟩
  | takeWork | claim | release | enqueue => cases hq
  | regularArtifact | fileSize | read | lastWriteTime | listDirectory | nextEntry | oldest | inspect
  | readFileAt | describe | nextFile | running | stopping | counters | spin =>
    rw [perform_reads (by trivial) h]
    exact ⟨fun _ => .of_disk rfl, rfl⟩

/-- The worker goes on to keep every representation in order. -/
abbrev Orderly {α : Type} (p : CacheProgram α) (post : α → Store → Prop) (s : Store) : Prop :=
  p.Safe Moves (fun q s s' => ∀ key, Turn q s s' key) post s

theorem orderly_of_asks {α : Type} {p : CacheProgram α} {s : Store} {job : Option Job}
    (hp : p.Asks Op.Harmless) (hs : s.current = job) :
    Orderly p (fun _ s' => s'.current = job) s := by
  refine hp.safe ?_ hs
  intro q s x s' hq hs hm
  obtain ⟨hturn, hcurrent⟩ := harmless_step hq hm
  exact ⟨hturn, hcurrent.trans hs⟩

theorem Runs.orderly {α : Type} {p : CacheProgram α} {post : α → Store → Prop} {s : Store}
    (h : Runs p post s) (hp : p.Asks Op.Harmless) : Orderly p post s :=
  (Program.Safe.and (h.mono (fun _ _ _ _ hm => hm.effect) (fun _ _ _ h => h) fun _ _ h => h)
    (orderly_of_asks hp rfl)).mono (fun _ _ _ _ h => h) (fun _ _ _ h => h.2) fun _ _ h => h.1

theorem orderly_query {α : Type} {q : Op} {f : q.Answer → CacheProgram α} {s : Store}
    {post : α → Store → Prop} (hq : q.Harmless)
    (h : ∀ x s', s'.current = s.current → Orderly (f x) post s') : Orderly (ask q >>= f) post s := by
  refine .query fun x s' hm => ?_
  obtain ⟨hturn, hcurrent⟩ := harmless_step hq hm
  exact ⟨hturn, h x s' hcurrent⟩

theorem orderly_read {α : Type} {q : Op} {f : q.Answer → CacheProgram α} {s : Store}
    {post : α → Store → Prop} (hq : q.Reads) (h : ∀ x, Orderly (f x) post s) :
    Orderly (ask q >>= f) post s := by
  refine .query fun x s' ⟨c, u, u', hm, _⟩ => ?_
  rw [perform_reads hq hm]
  exact ⟨fun _ => .of_disk rfl, h x⟩

/-- The artifact under its temporary name is one that the job has written to its end. -/
def Finished (job : Job) (s : Store) : Prop :=
  s.current = some job ∧ ∀ f, s.file (artifact job.key .gzipTemp) = some f →
    f.completedFor = some job.identity

theorem Finished.sameBut {job : Job} {name : Text} {s s' : Store} (h : Finished job s)
    (hn : artifact job.key .gzipTemp ≠ name) (hs : s.SameBut name s') : Finished job s' := by
  obtain ⟨hc, -, -, hfile⟩ := hs
  refine ⟨hc.trans h.1, fun f hf => h.2 f ?_⟩
  rwa [← hfile _ hn]

theorem writeArtifact_orderly (S : Settings) (fuel : Nat) (job : Job) (size : Nat) {s : Store}
    (hs : s.current = some job) :
    Orderly (writeArtifact S fuel job size)
      (fun ok s' => s'.current = some job ∧ (ok = true → Finished job s')) s := by
  have hwrite := (writeArtifact_runs S fuel job size s).orderly
    ((writeArtifact_asks S fuel job size).mono (harmless_of_writes (aside_gzipTemp job.key)))
  refine hwrite.mono (fun _ _ _ _ h => h) (fun _ _ _ h => h) fun ok s' ⟨hsame, hdone⟩ => ?_
  have hc := hsame.1.trans hs
  refine ⟨hc, fun hok => ⟨hc, fun f hf => ?_⟩⟩
  rw [(hdone hok f hf).1, hs]
  rfl

/-- With the artifact of a job in its place, its marker may follow. -/
theorem publishMarker_orderly (S : Settings) (job : Job) (compressedSize : Nat) {s : Store}
    (hc : s.current = some job)
    (hg : ∀ f, s.file (artifact job.key .gzip) = some f → f.completedFor = some job.identity)
    (hm : ∀ f, s.file (artifact job.key .metadataTemp) = some f → f.data = job.identity) :
    Orderly (publishMarker S job compressedSize) (fun _ s' => s'.current = some job) s := by
  have hdone {α : Type} {p : CacheProgram α} {s' : Store} (hp : p.Asks Op.Harmless)
      (hs : s'.current = some job) : Orderly p (fun _ s' => s'.current = some job) s' :=
    orderly_of_asks hp hs
  refine .query fun _ s₁ h₁ => ?_
  obtain ⟨hturn₁, hc₁⟩ := harmless_step (by trivial) h₁
  refine ⟨hturn₁, .query fun renamed s₂ h₂ => ?_⟩
  obtain ⟨c, u, u', h₁, -⟩ := h₁
  obtain ⟨c, u, u', h₂, -⟩ := h₂
  rcases perform_rename h₂ with ⟨rfl, rfl⟩ | ⟨f, hf, rfl, -, rfl⟩
  · exact ⟨fun _ => .of_disk rfl, hdone (.query trivial fun _ => trivial) (hc₁.trans hc)⟩
  · refine ⟨fun _ => .mark (hc₁.trans hc) ?_ ?_, hdone ?_ (hc₁.trans hc)⟩
    · exact hm f (file_of_remove h₁ hf)
    · exact fun g hg' => hg g (file_of_remove h₁ hg')
    · refine .query trivial fun _ => ?_
      exact ((recordArtifact_asks S _).mono harmless_of_maintains).bind fun _ => trivial

theorem publish_orderly (S : Settings) (job : Job) (compressedSize : Nat) {s : Store}
    (h : Finished job s) :
    Orderly (publish S job compressedSize) (fun _ s' => s'.current = some job) s := by
  have hmarker := (writeMarker_runs (artifact job.key .metadataTemp) job.identity s).orderly
    ((writeMarker_asks _ _).mono (harmless_of_writes (aside_metadataTemp job.key)))
  refine hmarker.bind fun ok s₁ ⟨h₁, hdata⟩ => ?_
  have h₁ := h.sameBut (by simp) h₁
  split
  · exact orderly_of_asks (.query trivial fun _ => .query trivial fun _ => trivial) h₁.1
  rename_i hok
  have hdata := hdata (by simpa using hok)
  refine .query fun _ s₂ h₂ => ?_
  obtain ⟨hturn₂, hc₂⟩ := harmless_step (by trivial) h₂
  have hc₂ := hc₂.trans h₁.1
  refine ⟨hturn₂, .query fun renamed s₃ h₃ => ?_⟩
  obtain ⟨c, u, u', h₂, -⟩ := h₂
  obtain ⟨c, u, u', h₃, hpermits⟩ := h₃
  rcases perform_rename h₃ with ⟨rfl, rfl⟩ | ⟨f, hf, rfl, hfails, rfl⟩
  · exact ⟨fun _ => .of_disk rfl, hc₂⟩
  · have hfinished := h₁.2 f (file_of_remove h₂ hf)
    refine ⟨fun _ => .publish hc₂ hfinished (hpermits hfails job hc₂ rfl), ?_⟩
    refine publishMarker_orderly S job compressedSize hc₂ ?_ ?_
    · intro g hg
      rw [Store.file_rename, if_pos rfl, Option.some.injEq] at hg
      rwa [← hg]
    · intro g hg
      simp only [Store.file_rename, artifact_inj, reduceCtorEq, and_false, if_false] at hg
      exact hdata g (file_of_remove h₂ hg)

theorem storeSkip_asks (S : Settings) (job : Job) : (storeSkip S job).Asks Op.Harmless := by
  refine .query trivial fun _ => ?_
  refine ((removedSize_asks job.key).mono harmless_of_reads).bind fun removed => ?_
  refine .query trivial fun _ => .query trivial fun _ => ?_
  refine ((writeMarker_asks _ _).mono (harmless_of_writes (aside_skipTemp job.key))).bind
    fun ok => ?_
  split
  · exact .query trivial fun _ => trivial
  refine .query trivial fun _ => .query (aside_skip job.key) fun renamed => ?_
  split
  · trivial
  split
  · exact .query trivial fun _ => .query trivial fun _ => trivial
  · trivial

theorem compress_orderly (S : Settings) (fuel : Nat) (job : Job) {s : Store}
    (hs : s.current = some job) :
    Orderly (compress S fuel job) (fun _ s' => s'.current = some job) s := by
  have hgive {s' : Store} (hs : s'.current = some job) :
      Orderly (ask (.remove (artifact job.key .gzipTemp)) >>= fun _ => pure false)
        (fun _ s' => s'.current = some job) s' :=
    orderly_of_asks (.query trivial fun _ => trivial) hs
  refine orderly_read trivial fun before => ?_
  split
  · split
    · exact hs
    refine orderly_query trivial fun _ s₁ h₁ => orderly_query trivial fun _ s₂ h₂ =>
      orderly_query trivial fun _ s₃ h₃ =>
        orderly_query (aside_gzipTemp job.key) fun created s₄ h₄ => ?_
    have h₄ := h₄.trans (h₃.trans (h₂.trans (h₁.trans hs)))
    split
    · exact h₄
    refine (writeArtifact_orderly S fuel job _ h₄).bind fun written s₅ ⟨h₅, hdone⟩ => ?_
    split
    · exact hgive h₅
    rename_i hwritten
    have hfinished := hdone (by simpa using hwritten)
    refine orderly_read trivial fun after => ?_
    split
    · split
      · exact hgive h₅
      refine orderly_read trivial fun compressedSize => ?_
      split
      · split
        · exact orderly_of_asks (storeSkip_asks S job) h₅
        · exact publish_orderly S job _ hfinished
      · exact h₅
    · exact hgive h₅
  · exact hs

theorem orderly_bind {α β : Type} {p : CacheProgram α} {f : α → CacheProgram β} {s : Store}
    {post : β → Store → Prop} (hp : p.Asks Op.Harmless)
    (hf : ∀ a s', s'.current = s.current → Orderly (f a) post s') : Orderly (p >>= f) post s :=
  (orderly_of_asks hp rfl).bind hf

theorem claimAndCompress_orderly (S : Settings) (fuel : Nat) (job : Job) (s : Store) :
    Orderly (claimAndCompress S fuel job) (fun _ _ => True) s := by
  refine .query fun claimed s₁ h₁ => ?_
  rcases effect_claim h₁.effect with ⟨hclaimed, rfl⟩ | ⟨rfl, rfl⟩
  · refine ⟨fun _ => .of_disk rfl, ?_⟩
    cases claimed with
    | stopping => trivial
    | pending => trivial
    | inserted => exact absurd rfl hclaimed
  · refine ⟨fun _ => .of_disk rfl, ?_⟩
    refine (compress_orderly S fuel job rfl).bind fun _ s₂ _ => .query fun _ s₃ h₃ => ?_
    rw [effect_release h₃.effect]
    exact ⟨fun _ => .of_disk rfl, trivial⟩

theorem processSource_orderly (S : Settings) (fuel : Nat) (source : CompressionSource) (s : Store) :
    Orderly (processSource S fuel source) (fun _ _ => True) s := by
  unfold processSource
  split
  · trivial
  refine orderly_bind ((hasArtifact_asks _).mono harmless_of_reads) fun present s₁ _ => ?_
  split
  · trivial
  refine orderly_bind ((markerMatches_asks _ _).mono harmless_of_reads) fun skipped s₂ _ => ?_
  split
  · trivial
  · exact claimAndCompress_orderly S fuel _ s₂

theorem scanFiles_orderly (S : Settings) (fuel : Nat) (s : Store) :
    Orderly (scanFiles S fuel) (fun _ _ => True) s := by
  induction fuel generalizing s with
  | zero => exact orderly_query trivial nofun
  | succ fuel ih =>
    refine orderly_read trivial fun path => ?_
    split
    · refine orderly_read trivial fun stopping => ?_
      split
      · trivial
      refine orderly_read trivial fun source => ?_
      split
      · refine (processSource_orderly S fuel _ s).bind fun goOn s₁ _ => ?_
        split
        · exact ih s₁
        · trivial
      · exact ih s
    · trivial

theorem scanAndBuild_orderly (S : Settings) (fuel : Nat) (s : Store) :
    Orderly (scanAndBuild S fuel) (fun _ _ => True) s := by
  unfold scanAndBuild
  split
  · trivial
  refine orderly_bind ((maintainCache_asks S).mono harmless_of_maintains) fun _ s₁ _ => ?_
  refine orderly_read trivial fun stopping => ?_
  split
  · trivial
  · exact scanFiles_orderly S fuel s₁

theorem serveJobs_orderly (S : Settings) (fuel : Nat) (s : Store) :
    Orderly (serveJobs S fuel) (fun _ _ => True) s := by
  induction fuel generalizing s with
  | zero => exact orderly_query trivial nofun
  | succ fuel ih =>
    refine .query fun work s₁ h₁ => ?_
    rcases effect_takeWork h₁.effect with ⟨rfl | rfl, rfl⟩ | ⟨job, rfl, rfl⟩
    · exact ⟨fun _ => .of_disk rfl, trivial⟩
    · refine ⟨fun _ => .of_disk rfl, ?_⟩
      exact (scanAndBuild_orderly S fuel s₁).bind fun _ s₂ _ => ih s₂
    · refine ⟨fun _ => .of_disk rfl, ?_⟩
      refine (compress_orderly S fuel job rfl).bind fun _ s₂ _ => .query fun _ s₃ h₃ => ?_
      rw [effect_release h₃.effect]
      exact ⟨fun _ => .of_disk rfl, ih _⟩

/-- From any store on, the whole life of the worker keeps every representation in order. -/
theorem run_orderly (S : Settings) (fuel : Nat) (s : Store) :
    Orderly (run S fuel) (fun _ _ => True) s :=
  orderly_bind ((maintainCache_asks S).mono harmless_of_maintains) fun _ s₁ _ =>
    serveJobs_orderly S fuel s₁

end FastdlMm.CompressionCache
