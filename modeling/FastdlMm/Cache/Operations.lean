import FastdlMm.Cache.Artifacts
import FastdlMm.Framework.Program
import Mathlib.Data.Finset.Basic

namespace FastdlMm.CompressionCache

/-- What the worker finds when `ready_` wakes it. -/
inductive Work where
  | stop
  | build
  | job (j : Job)

/-- How the scan fares when it marks a key as pending. -/
inductive Claim where
  | stopping
  | pending
  | inserted

/-- One atomic step of a thread of the cache: a file operation, or a section under `mutex_`. -/
inductive Op where
  | regularArtifact (name : Text)
  | fileSize (name : Text)
  | read (name : Text) (size : Nat)
  | lastWriteTime (name : Text)
  | remove (name : Text)
  | create (name : Text)
  | append (name data : Text)
  | flush (name : Text)
  | rename (source target : Text)
  | listDirectory
  | nextEntry (name : Text)
  | oldest (files : List Entry)
  | inspect (path : Text)
  | readFileAt (path : Text) (offset wanted : Nat)
  | describe (path : Text)
  | nextFile
  | running
  | stopping
  | counters
  | setCounters (entries bytes : Nat)
  | takeWork
  | claim (job : Job)
  | release (key : Text)
  | enqueue (job : Job)
  | spin

/-- What a thread learns from a step. A size, a text or a time is missing where the step failed. -/
@[reducible] def Op.Answer : Op → Type
  | .regularArtifact _ | .create _ | .append _ _ | .flush _ | .rename _ _ | .nextEntry _ => Bool
  | .running | .stopping | .release _ => Bool
  | .fileSize _ => Option Nat
  | .read _ _ | .readFileAt _ _ _ | .nextFile => Option Text
  | .lastWriteTime _ => Option Int
  | .listDirectory => Option (List Text)
  | .oldest _ => Entry
  | .inspect _ => Option OpenedFileInfo
  | .describe _ => Option CompressionSource
  | .counters => Nat × Nat
  | .takeWork => Work
  | .claim _ => Claim
  | .remove _ | .setCounters _ _ | .enqueue _ => Unit
  | .spin => Empty

abbrev CacheProgram (α : Type) := Program Op Op.Answer α

abbrev ask (q : Op) : CacheProgram q.Answer := .query q

/-- What only the worker changes: the cache directory and the counters over it. `current` is history:
the job being compressed. -/
structure Store where
  disk : Directory := ∅
  entries : Nat := 0
  bytes : Nat := 0
  current : Option Job := none

/-- What `mutex_` protects, with `running_`. -/
structure Queue where
  running : Bool := false
  stopping : Bool := true
  buildRequested : Bool := false
  jobs : List Job := []
  pending : Finset Text := ∅

/-- What a step leaves to the surroundings: whether it fails and after how much was written, the
time, the order of a directory, which of the oldest entries tops the heap, and the served files. -/
structure Choice where
  fails : Bool := false
  written : Nat := 0
  time : Int := 0
  names : List Text := []
  index : Nat := 0
  info : Option OpenedFileInfo := none
  source : Option CompressionSource := none
  bytes : Option Text := none

namespace Store

def file (s : Store) (name : Text) : Option File := s.disk.lookup name

def put (s : Store) (name : Text) (f : File) : Store := { s with disk := s.disk.insert name f }

def remove (s : Store) (name : Text) : Store := { s with disk := s.disk.erase name }

/-- `target` comes to name the file `f` that `source` named. -/
def rename (s : Store) (source target : Text) (f : File) : Store := (s.remove source).put target f

variable (s : Store) (name name' : Text) (f : File)

theorem file_put : (s.put name f).file name' = if name' = name then some f else s.file name' := by
  split_ifs with h
  · rw [h]
    exact AList.lookup_insert s.disk
  · exact AList.lookup_insert_ne h

theorem file_remove : (s.remove name).file name' = if name' = name then none else s.file name' := by
  split_ifs with h
  · rw [h]
    exact AList.lookup_erase name s.disk
  · exact AList.lookup_erase_ne h

theorem file_rename (source : Text) : (s.rename source name f).file name' =
    if name' = name then some f else if name' = source then none else s.file name' := by
  rw [rename, file_put, file_remove]

end Store

namespace Queue

def takeWork (u : Queue) : Option (Work × Queue) :=
  if u.stopping then some (.stop, u)
  else if u.buildRequested then some (.build, { u with buildRequested := false })
  else
    match u.jobs with
    | [] => none
    | job :: jobs => some (.job job, { u with jobs := jobs })

def claim (u : Queue) (job : Job) : Claim × Queue :=
  if u.stopping then (.stopping, u)
  else if job.key ∈ u.pending then (.pending, u)
  else (.inserted, { u with pending := insert job.key u.pending })

def release (u : Queue) (key : Text) : Queue := { u with pending := u.pending.erase key }

def enqueue (u : Queue) (job : Job) : Queue :=
  if u.stopping || kMaximumQueuedJobs ≤ u.jobs.length || job.key ∈ u.pending then u
  else { u with jobs := u.jobs ++ [job], pending := insert job.key u.pending }

end Queue

/-- One step as the surroundings choose; `none` where it cannot happen that way, or not yet. -/
def Op.perform : (q : Op) → Choice → Store → Queue → Option (q.Answer × Store × Queue)
  | .regularArtifact name, c, s, u => some (!c.fails && decide (name ∈ s.disk), s, u)
  | .fileSize name, c, s, u =>
      some (if c.fails then none else (s.file name).map fun f => f.data.length, s, u)
  | .read name size, c, s, u =>
      match s.file name with
      | some f =>
          some (if c.fails || f.data.length < size then none else some (f.data.take size), s, u)
      | none => some (none, s, u)
  | .lastWriteTime name, c, s, u =>
      some (if c.fails then none else (s.file name).map File.modified, s, u)
  | .remove name, c, s, u => some ((), if c.fails then s else s.remove name, u)
  | .create name, c, s, u =>
      if c.fails then some (false, s, u) else some (true, s.put name ⟨[], c.time, none⟩, u)
  | .append name data, c, s, u =>
      match s.file name with
      | some f =>
          let part := if c.fails then data.take c.written else data
          some (!c.fails, s.put name ⟨f.data ++ part, c.time, none⟩, u)
      | none => some (!c.fails, s, u)
  | .flush name, c, s, u =>
      match s.file name with
      | some f =>
          if c.fails then some (false, s, u)
          else some (true, s.put name { f with completedFor := s.current.map Job.identity }, u)
      | none => some (!c.fails, s, u)
  | .rename source target, c, s, u =>
      match s.file source with
      | some f => if c.fails then some (false, s, u) else some (true, s.rename source target f, u)
      | none => some (false, s, u)
  | .listDirectory, c, s, u =>
      if c.fails then some (none, s, u)
      else if c.names.Perm s.disk.keys then some (some c.names, s, u) else none
  | .nextEntry name, c, s, u =>
      -- an entry removed since the listing began may still come up, or not
      if c.fails then if name ∈ s.disk then none else some (false, s, u) else some (true, s, u)
  | .oldest files, c, s, u =>
      match files[c.index]? with
      | some e => if ∀ f ∈ files, e.modified ≤ f.modified then some (e, s, u) else none
      | none => none
  | .inspect _, c, s, u => some (c.info, s, u)
  | .readFileAt _ _ wanted, c, s, u =>
      match c.bytes with
      | some bytes =>
          if bytes = [] ∨ wanted < bytes.length then none else some (some bytes, s, u)
      | none => some (none, s, u)
  | .describe _, c, s, u => some (c.source, s, u)
  | .nextFile, c, s, u => some (c.bytes, s, u)
  | .running, _, s, u => some (u.running, s, u)
  | .stopping, _, s, u => some (u.stopping, s, u)
  | .counters, _, s, u => some ((s.entries, s.bytes), s, u)
  | .setCounters entries bytes, _, s, u => some ((), { s with entries := entries, bytes := bytes }, u)
  | .takeWork, _, s, u =>
      match u.takeWork with
      | some (.job job, u') => some (.job job, { s with current := some job }, u')
      | some (work, u') => some (work, s, u')
      | none => none
  | .claim job, _, s, u =>
      match u.claim job with
      | (.inserted, u') => some (.inserted, { s with current := some job }, u')
      | (claimed, u') => some (claimed, s, u')
  | .release key, _, s, u => some (u.stopping, { s with current := none }, u.release key)
  | .enqueue job, _, s, u => some ((), s, u.enqueue job)
  | .spin, _, _, _ => none

section Effects

variable {name data source target : Text} {c : Choice} {s s' : Store} {u u' : Queue}

theorem perform_remove {x : Unit} (h : (Op.remove name).perform c s u = some (x, s', u')) :
    s' = s ∨ s' = s.remove name := by
  simp only [Op.perform, Option.some.injEq, Prod.mk.injEq, true_and] at h
  rw [← h.1]
  split_ifs
  · exact .inl rfl
  · exact .inr rfl

theorem perform_remove_ok {x : Unit} (hfails : c.fails = false)
    (h : (Op.remove name).perform c s u = some (x, s', u')) : s' = s.remove name := by
  simp only [Op.perform, hfails, Bool.false_eq_true, if_false, Option.some.injEq, Prod.mk.injEq,
    true_and] at h
  exact h.1.symm

theorem perform_fileSize_ok {x : Option Nat} (hfails : c.fails = false)
    (h : (Op.fileSize name).perform c s u = some (x, s', u')) :
    s' = s ∧ x = (s.file name).map fun f => f.data.length := by
  simp only [Op.perform, hfails, Bool.false_eq_true, if_false, Option.some.injEq,
    Prod.mk.injEq] at h
  exact ⟨h.2.1.symm, h.1.symm⟩

theorem perform_listDirectory_ok {x : Option (List Text)} (hfails : c.fails = false)
    (h : Op.listDirectory.perform c s u = some (x, s', u')) :
    s' = s ∧ ∃ names, x = some names ∧ names.Perm s.disk.keys := by
  simp only [Op.perform, hfails, Bool.false_eq_true, if_false] at h
  split_ifs at h with hperm
  cases h
  exact ⟨rfl, c.names, rfl, hperm⟩

theorem perform_nextEntry {x : Bool} (h : (Op.nextEntry name).perform c s u = some (x, s', u')) :
    s' = s ∧ (x = false → name ∉ s.disk) := by
  simp only [Op.perform] at h
  split_ifs at h with hfails hmem
  · cases h
    exact ⟨rfl, fun _ => hmem⟩
  · cases h
    exact ⟨rfl, fun hx => by cases hx⟩

theorem perform_oldest {files : List Entry} {x : Entry}
    (h : (Op.oldest files).perform c s u = some (x, s', u')) :
    s' = s ∧ x ∈ files ∧ ∀ e ∈ files, x.modified ≤ e.modified := by
  simp only [Op.perform] at h
  split at h
  · rename_i e he
    split_ifs at h with hoff
    cases h
    exact ⟨rfl, List.mem_of_getElem? he, hoff⟩
  · cases h

/-- A removal, whether it succeeds or not, brings no file up. -/
theorem file_of_remove {x : Unit} (h : (Op.remove name).perform c s u = some (x, s', u'))
    {n : Text} {f : File} (hf : s'.file n = some f) : s.file n = some f := by
  rcases perform_remove h with rfl | rfl
  · exact hf
  · rw [Store.file_remove] at hf
    split_ifs at hf
    exact hf

theorem perform_create {x : Bool} (h : (Op.create name).perform c s u = some (x, s', u')) :
    (x = false ∧ s' = s) ∨ (x = true ∧ s' = s.put name ⟨[], c.time, none⟩) := by
  simp only [Op.perform] at h
  split_ifs at h <;> cases h
  · exact .inl ⟨rfl, rfl⟩
  · exact .inr ⟨rfl, rfl⟩

theorem perform_append {x : Bool} (h : (Op.append name data).perform c s u = some (x, s', u')) :
    (s.file name = none ∧ s' = s) ∨
    ∃ f part, s.file name = some f ∧ (x = true → part = data) ∧
      s' = s.put name ⟨f.data ++ part, c.time, none⟩ := by
  simp only [Op.perform] at h
  split at h
  · rename_i f hf
    cases h
    refine .inr ⟨f, _, hf, ?_, rfl⟩
    intro hx
    rw [Bool.not_eq_true'] at hx
    simp [hx]
  · rename_i hf
    cases h
    exact .inl ⟨hf, rfl⟩

theorem perform_flush {x : Bool} (h : (Op.flush name).perform c s u = some (x, s', u')) :
    (s' = s ∧ (x = true → s.file name = none)) ∨
    ∃ f, s.file name = some f ∧ x = true ∧
      s' = s.put name { f with completedFor := s.current.map Job.identity } := by
  simp only [Op.perform] at h
  split at h
  · rename_i f hf
    split_ifs at h <;> cases h
    · exact .inl ⟨rfl, fun hx => by cases hx⟩
    · exact .inr ⟨f, hf, rfl, rfl⟩
  · rename_i hf
    cases h
    exact .inl ⟨rfl, fun _ => hf⟩

theorem perform_rename {x : Bool}
    (h : (Op.rename source target).perform c s u = some (x, s', u')) :
    (x = false ∧ s' = s) ∨
    ∃ f, s.file source = some f ∧ x = true ∧ c.fails = false ∧ s' = s.rename source target f := by
  simp only [Op.perform] at h
  split at h
  · rename_i f hf
    split_ifs at h with hc <;> cases h
    · exact .inl ⟨rfl, rfl⟩
    · exact .inr ⟨f, hf, rfl, by simpa using hc, rfl⟩
  · cases h
    exact .inl ⟨rfl, rfl⟩

theorem perform_takeWork {x : Work} (h : Op.takeWork.perform c s u = some (x, s', u')) :
    (x = .stop ∧ s' = s ∧ u' = u) ∨
    (x = .build ∧ s' = s ∧ u' = { u with buildRequested := false }) ∨
    ∃ job jobs, u.jobs = job :: jobs ∧ x = .job job ∧ s' = { s with current := some job } ∧
      u' = { u with jobs := jobs } := by
  simp only [Op.perform, Queue.takeWork] at h
  split_ifs at h
  · cases h
    exact .inl ⟨rfl, rfl, rfl⟩
  · cases h
    exact .inr (.inl ⟨rfl, rfl, rfl⟩)
  · cases hjobs : u.jobs with
    | nil => simp [hjobs] at h
    | cons job jobs =>
      simp only [hjobs, Option.some.injEq, Prod.mk.injEq] at h
      exact .inr (.inr ⟨job, jobs, rfl, h.1.symm, h.2.1.symm, h.2.2.symm⟩)

theorem perform_claim {job : Job} {x : Claim}
    (h : (Op.claim job).perform c s u = some (x, s', u')) :
    (x ≠ .inserted ∧ s' = s ∧ u' = u) ∨
    (x = .inserted ∧ job.key ∉ u.pending ∧ s' = { s with current := some job } ∧
      u' = { u with pending := insert job.key u.pending }) := by
  simp only [Op.perform, Queue.claim] at h
  split_ifs at h with _ hpending <;> cases h
  · exact .inl ⟨nofun, rfl, rfl⟩
  · exact .inl ⟨nofun, rfl, rfl⟩
  · exact .inr ⟨rfl, hpending, rfl, rfl⟩

/-- The operations that change nothing. -/
def Op.Reads : Op → Prop
  | .regularArtifact _ | .fileSize _ | .read _ _ | .lastWriteTime _ | .listDirectory | .nextEntry _ => True
  | .oldest _ | .inspect _ | .readFileAt _ _ _ | .describe _ | .nextFile => True
  | .running | .stopping | .counters | .spin => True
  | _ => False

/-- The operations of a lookup, which leave the directory and the counters of the worker as they
are. -/
def Op.Looks : Op → Prop
  | .enqueue _ => True
  | q => q.Reads

theorem looks_of_reads (q : Op) (hq : q.Reads) : q.Looks := by
  cases q <;> first | exact hq | trivial

/-- The operations of `maintainCache`. -/
def Op.Maintains : Op → Prop
  | .remove _ | .setCounters _ _ => True
  | q => q.Reads

theorem maintains_of_reads (q : Op) (hq : q.Reads) : q.Maintains := by
  cases q <;> first | exact hq | cases hq

/-- The operations that look around in the cache, and never into a source that is compressed. -/
def Op.Checks : Op → Prop
  | .inspect _ | .readFileAt _ _ _ => False
  | q => q.Reads

theorem reads_of_checks (q : Op) (hq : q.Checks) : q.Reads := by
  cases q <;> first | exact hq | trivial

/-- The operations that find out about one file. -/
def Op.Peeks : Op → Prop
  | .regularArtifact _ | .fileSize _ | .read _ _ | .describe _ => True
  | _ => False

theorem checks_of_peeks (q : Op) (hq : q.Peeks) : q.Checks := by
  cases q <;> first | exact hq | cases hq

/-- The operations of `maintainCache` for which it does not look into a source either. -/
def Op.Sweeps : Op → Prop
  | .remove _ | .setCounters _ _ => True
  | q => q.Checks

theorem sweeps_of_checks (q : Op) (hq : q.Checks) : q.Sweeps := by
  cases q <;> first | exact hq | trivial

theorem maintains_of_sweeps (q : Op) (hq : q.Sweeps) : q.Maintains := by
  cases q <;> first | exact hq | trivial

/-- The operations of a stream that writes one file. -/
def Op.Writes (name : Text) : Op → Prop
  | .create n | .append n _ | .flush n => n = name
  | q => q.Reads

theorem perform_looks {q : Op} {x : q.Answer} (hq : q.Looks)
    (h : q.perform c s u = some (x, s', u')) : s' = s := by
  cases q <;> simp only [Op.Looks, Op.Reads] at hq <;> simp only [Op.perform] at h <;>
    (repeat' split at h) <;> cases h <;> rfl

theorem perform_reads {q : Op} {x : q.Answer} (hq : q.Reads)
    (h : q.perform c s u = some (x, s', u')) : s' = s := perform_looks (looks_of_reads q hq) h

/-- Nothing but the file `name` has changed. -/
def Store.SameBut (name : Text) (s s' : Store) : Prop :=
  s'.current = s.current ∧ s'.entries = s.entries ∧ s'.bytes = s.bytes ∧
    ∀ n, n ≠ name → s'.file n = s.file n

theorem Store.SameBut.refl (name : Text) (s : Store) : s.SameBut name s :=
  ⟨rfl, rfl, rfl, fun _ _ => rfl⟩

theorem Store.SameBut.trans {s₁ s₂ s₃ : Store} (h : s₁.SameBut name s₂) (h' : s₂.SameBut name s₃) :
    s₁.SameBut name s₃ := by
  obtain ⟨hc, he, hb, hf⟩ := h
  obtain ⟨hc', he', hb', hf'⟩ := h'
  exact ⟨hc'.trans hc, he'.trans he, hb'.trans hb, fun n hn => (hf' n hn).trans (hf n hn)⟩

theorem Store.sameBut_put (s : Store) (name : Text) (f : File) : s.SameBut name (s.put name f) :=
  ⟨rfl, rfl, rfl, fun n hn => by rw [Store.file_put, if_neg hn]⟩

end Effects

/-- What an operation may answer the worker and do to its store. -/
def Op.Effect (q : Op) (s : Store) (x : q.Answer) (s' : Store) : Prop :=
  ∃ (c : Choice) (u u' : Queue), q.perform c s u = some (x, s', u')

/-- The job that is taken from the queue is the current one from then on. -/
theorem effect_takeWork {s s' : Store} {x : Work} (h : Op.takeWork.Effect s x s') :
    ((x = .stop ∨ x = .build) ∧ s' = s) ∨
    ∃ job, x = .job job ∧ s' = { s with current := some job } := by
  obtain ⟨c, u, u', h⟩ := h
  rcases perform_takeWork h with ⟨hx, hs, -⟩ | ⟨hx, hs, -⟩ | ⟨job, jobs, -, hx, hs, -⟩
  · exact .inl ⟨.inl hx, hs⟩
  · exact .inl ⟨.inr hx, hs⟩
  · exact .inr ⟨job, hx, hs⟩

theorem effect_claim {job : Job} {s s' : Store} {x : Claim} (h : (Op.claim job).Effect s x s') :
    (x ≠ .inserted ∧ s' = s) ∨ (x = .inserted ∧ s' = { s with current := some job }) := by
  obtain ⟨c, u, u', h⟩ := h
  rcases perform_claim h with ⟨hx, hs, -⟩ | ⟨hx, -, hs, -⟩
  · exact .inl ⟨hx, hs⟩
  · exact .inr ⟨hx, hs⟩

theorem effect_release {key : Text} {s s' : Store} {x : Bool} (h : (Op.release key).Effect s x s') :
    s' = { s with current := none } := by
  obtain ⟨c, u, u', h⟩ := h
  cases h
  rfl

/-- A stream on one file leaves everything else as it is. -/
theorem effect_writes {name : Text} {q : Op} {s s' : Store} {x : q.Answer} (hq : q.Writes name)
    (h : q.Effect s x s') : s.SameBut name s' := by
  obtain ⟨c, u, u', h⟩ := h
  cases q with
  | create n =>
    cases hq
    rcases perform_create h with ⟨-, rfl⟩ | ⟨-, rfl⟩
    · exact .refl _ _
    · exact s.sameBut_put _ _
  | append n data =>
    cases hq
    rcases perform_append h with ⟨-, rfl⟩ | ⟨f, part, -, -, rfl⟩
    · exact .refl _ _
    · exact s.sameBut_put _ _
  | flush n =>
    cases hq
    rcases perform_flush h with ⟨rfl, -⟩ | ⟨f, -, -, rfl⟩
    · exact .refl _ _
    · exact s.sameBut_put _ _
  | remove | rename | setCounters | takeWork | claim | release | enqueue => cases hq
  | regularArtifact | fileSize | read | lastWriteTime | listDirectory | nextEntry | oldest | inspect
  | readFileAt | describe | nextFile | running | stopping | counters | spin =>
    rw [perform_reads (by trivial) h]
    exact .refl _ _

/-- Whatever happens, the program of the worker ends in `post`, if it ends. -/
abbrev Runs {α : Type} (p : CacheProgram α) (post : α → Store → Prop) (s : Store) : Prop :=
  p.Safe Op.Effect (fun _ _ _ => True) post s

theorem runs_of_writes {α : Type} {name : Text} {p : CacheProgram α} (hp : p.Asks (Op.Writes name))
    (s : Store) : Runs p (fun _ s' => s.SameBut name s') s :=
  hp.safe (fun _ _ _ _ hq hs hm => ⟨trivial, hs.trans (effect_writes hq hm)⟩) (.refl name s)

end FastdlMm.CompressionCache
