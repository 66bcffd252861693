import FastdlMm.Cache.Maintain

namespace FastdlMm.CompressionCache

/-- `write` on a `std::ofstream` over the file `name`. After the first failed write the stream is no
longer `good` and writes no more. -/
def write (name : Text) (good : Bool) (data : Text) : CacheProgram Bool :=
  if good then ask (.append name data) else return false

/-- `flush`, and whether the stream is still good after it. -/
def flush (name : Text) (good : Bool) : CacheProgram Bool :=
  if good then ask (.flush name) else return false

def bytes (values : List Nat) : Text := values.map Char.ofNat

def gzipHeader : Text := bytes [0x1f, 0x8b, 8, 0, 0, 0, 0, 0, 4, 255]

/-- The bytes that `writeLittleEndian` writes. -/
def littleEndian (value : Nat) : Text :=
  bytes [value % 256, value / 256 % 256, value / 65536 % 256, value / 16777216 % 256]

/-- The size of the input and of the output buffer. -/
def bufferSize : Nat := 64 * 1024

/-- A loop of the source that has not come to its end within `fuel` rounds. -/
def endless {α : Type} : CacheProgram α := .ask .spin nofun

section Stream

variable (z : Miniz) (name : Text)

/-- The loop that feeds one block of input; nothing comes back where `mz_deflate` fails. -/
def deflateInput : Nat → z.Stream → Text → Bool → CacheProgram (Option (z.Stream × Bool))
  | _, stream, [], good => return some (stream, good)
  | 0, _, _ :: _, _ => endless
  | fuel + 1, stream, c :: cs, good => do
      let r := z.deflate stream .noFlush (c :: cs) bufferSize
      if r.status ≠ .ok then return none
      let good ← write name good r.output
      deflateInput fuel r.stream ((c :: cs).drop r.consumed) good

/-- The locals of the loop that reads the source. -/
structure Streaming where
  stream : z.Stream
  good : Bool
  crc : Nat
  offset : Nat

/-- The loop that reads the source block by block. -/
def readSource (path : Text) (size : Nat) : Nat → Streaming z → CacheProgram (Option (Streaming z))
  | 0, t => if t.offset < size then endless else return some t
  | fuel + 1, t => do
      if ¬ t.offset < size then return some t
      if ← ask .stopping then return none
      let some input ← ask (.readFileAt path t.offset (min bufferSize (size - t.offset)))
        | return none
      let some (stream, good) ← deflateInput z name fuel t.stream input t.good | return none
      readSource path size fuel
        { stream := stream, good := good, crc := z.crc32 t.crc input
          offset := t.offset + input.length }

/-- The loop that lets the stream run out. -/
def finishStream : Nat → z.Stream → Bool → CacheProgram (Option Bool)
  | 0, _, _ => endless
  | fuel + 1, stream, good => do
      let r := z.deflate stream .finish [] bufferSize
      if r.status = .failed then return none
      let good ← write name good r.output
      if r.status = .streamEnd then return some good
      finishStream fuel r.stream good

end Stream

/-- Everything between the opened `.gz.tmp` and its `close`: whether the file is complete. -/
def writeArtifact (s : Settings) (fuel : Nat) (job : Job) (size : Nat) : CacheProgram Bool := do
  let name := artifact job.key .gzipTemp
  let good ← write name true gzipHeader
  let some stream := s.miniz.deflateInit | return false
  let start := { stream := stream, good := good, crc := s.miniz.crc32 0 [], offset := 0 }
  let some t ← readSource s.miniz name job.source.path size fuel start | return false
  let some good ← finishStream s.miniz name fuel t.stream t.good | return false
  let good ← write name good (littleEndian t.crc)
  let good ← write name good (littleEndian size)
  flush name good

/-- `marker` or `metadata` of the source: opened, written and flushed. -/
def writeMarker (name identity : Text) : CacheProgram Bool := do
  let good ← ask (.create name)
  let good ← write name good identity
  flush name good

def recordArtifact (s : Settings) (size : Nat) : CacheProgram Unit := do
  let (entries, bytes) ← ask .counters
  let entries := if entries = 2 ^ 64 - 1 then entries else entries + 1
  let bytes := if 2 ^ 64 - 1 - bytes < size then 2 ^ 64 - 1 else bytes + size
  ask (.setCounters entries bytes)
  if kMaximumCacheEntries < entries ∨ s.maxBytes < bytes then maintainCache s

/-- The size of an artifact that is about to go, or 0. -/
def removedSize (key : Text) : CacheProgram Nat := do
  if !(← ask (.regularArtifact (artifact key .gzip))) then return 0
  let size ← ask (.fileSize (artifact key .gzip))
  return size.getD 0

/-- Compression does not pay: a `.skip` marker takes the place of the artifact. -/
def storeSkip (s : Settings) (job : Job) : CacheProgram Bool := do
  ask (.remove (artifact job.key .gzipTemp))
  let removed ← removedSize job.key
  ask (.remove (artifact job.key .gzip))
  ask (.remove (artifact job.key .metadata))
  if !(← writeMarker (artifact job.key .skipTemp) (skipIdentity s.maxBytes job.source)) then
    ask (.remove (artifact job.key .skipTemp))
    return false
  ask (.remove (artifact job.key .skip))
  if !(← ask (.rename (artifact job.key .skipTemp) (artifact job.key .skip))) then return false
  if removed ≠ 0 then
    let (entries, bytes) ← ask .counters
    ask (.setCounters (entries - 1) (bytes - removed))
  return true

/-- The part of `publish` after the artifact is in its place. -/
def publishMarker (s : Settings) (job : Job) (compressedSize : Nat) : CacheProgram Bool := do
  ask (.remove (artifact job.key .metadata))
  if !(← ask (.rename (artifact job.key .metadataTemp) (artifact job.key .metadata))) then
    ask (.remove (artifact job.key .gzip))
    return false
  ask (.remove (artifact job.key .skip))
  recordArtifact s compressedSize
  return true

/-- The complete `.gz.tmp` becomes the artifact of the key, and its marker follows. -/
def publish (s : Settings) (job : Job) (compressedSize : Nat) : CacheProgram Bool := do
  if !(← writeMarker (artifact job.key .metadataTemp) job.identity) then
    ask (.remove (artifact job.key .gzipTemp))
    ask (.remove (artifact job.key .metadataTemp))
    return false
  ask (.remove (artifact job.key .gzip))
  if !(← ask (.rename (artifact job.key .gzipTemp) (artifact job.key .gzip))) then return false
  publishMarker s job compressedSize

/-- The comparison of two looks at the source. -/
def sameFile (a b : OpenedFileInfo) : Bool :=
  a.size == b.size && a.modifiedIdentity == b.modifiedIdentity && a.fileIdentity == b.fileIdentity

def compress (s : Settings) (fuel : Nat) (job : Job) : CacheProgram Bool := do
  let some before ← ask (.inspect job.source.path) | return false
  if !sameFile before job.source.info then return false
  ask (.remove (artifact job.key .gzipTemp))
  ask (.remove (artifact job.key .metadataTemp))
  ask (.remove (artifact job.key .skipTemp))
  if !(← ask (.create (artifact job.key .gzipTemp))) then return false
  if !(← writeArtifact s fuel job before.size) then
    ask (.remove (artifact job.key .gzipTemp))
    return false
  let some after ← ask (.inspect job.source.path) | do
    ask (.remove (artifact job.key .gzipTemp))
    return false
  if !sameFile after before then
    ask (.remove (artifact job.key .gzipTemp))
    return false
  let some compressedSize ← ask (.fileSize (artifact job.key .gzipTemp)) | return false
  if s.maxBytes < compressedSize ∨ before.size - before.size / 20 ≤ compressedSize then
    storeSkip s job
  else publish s job compressedSize

theorem write_asks (name : Text) (good : Bool) (data : Text) :
    (write name good data).Asks (Op.Writes name) := by
  unfold write
  split
  · exact ⟨rfl, fun _ => trivial⟩
  · trivial

theorem flush_asks (name : Text) (good : Bool) : (flush name good).Asks (Op.Writes name) := by
  unfold flush
  split
  · exact ⟨rfl, fun _ => trivial⟩
  · trivial

theorem endless_asks {α : Type} (allowed : Op → Prop) (h : allowed .spin) :
    (endless : CacheProgram α).Asks allowed := ⟨h, nofun⟩

theorem deflateInput_asks (z : Miniz) (name : Text) (fuel : Nat) (stream : z.Stream)
    (input : Text) (good : Bool) :
    (deflateInput z name fuel stream input good).Asks (Op.Writes name) := by
  induction fuel generalizing stream input good with
  | zero =>
    cases input with
    | nil => trivial
    | cons c cs => exact endless_asks _ trivial
  | succ fuel ih =>
    cases input with
    | nil => trivial
    | cons c cs =>
      unfold deflateInput
      dsimp only
      split
      · trivial
      · exact (write_asks name good _).bind fun good => ih _ _ good

theorem readSource_asks (z : Miniz) (name path : Text) (size fuel : Nat) (t : Streaming z) :
    (readSource z name path size fuel t).Asks (Op.Writes name) := by
  induction fuel generalizing t with
  | zero =>
    unfold readSource
    split
    · exact endless_asks _ trivial
    · trivial
  | succ fuel ih =>
    unfold readSource
    split
    · trivial
    refine .query trivial fun stopping => ?_
    split
    · trivial
    refine .query trivial fun input => ?_
    split
    · refine (deflateInput_asks z name fuel _ _ _).bind fun fed => ?_
      split
      · exact ih _
      · trivial
    · trivial

theorem finishStream_asks (z : Miniz) (name : Text) (fuel : Nat) (stream : z.Stream)
    (good : Bool) : (finishStream z name fuel stream good).Asks (Op.Writes name) := by
  induction fuel generalizing stream good with
  | zero => exact endless_asks _ trivial
  | succ fuel ih =>
    unfold finishStream
    dsimp only
    split
    · trivial
    refine (write_asks name good _).bind fun good => ?_
    split
    · trivial
    · exact ih _ good

theorem writeArtifact_asks (s : Settings) (fuel : Nat) (job : Job) (size : Nat) :
    (writeArtifact s fuel job size).Asks (Op.Writes (artifact job.key .gzipTemp)) := by
  refine (write_asks _ true gzipHeader).bind fun good => ?_
  dsimp only
  split
  · refine (readSource_asks _ _ _ _ _ _).bind fun t => ?_
    split
    · refine (finishStream_asks _ _ _ _ _).bind fun good => ?_
      split
      · exact (write_asks _ _ _).bind fun good => (write_asks _ _ _).bind fun good => flush_asks _ _
      · trivial
    · trivial
  · trivial

theorem writeMarker_asks (name identity : Text) :
    (writeMarker name identity).Asks (Op.Writes name) :=
  .query rfl fun _ => (write_asks _ _ _).bind fun _ => flush_asks _ _

theorem recordArtifact_sweeps (s : Settings) (size : Nat) :
    (recordArtifact s size).Asks Op.Sweeps :=
  .query trivial fun _ => .query trivial fun _ => .ite (maintainCache_sweeps s) trivial

theorem recordArtifact_asks (s : Settings) (size : Nat) :
    (recordArtifact s size).Asks Op.Maintains :=
  (recordArtifact_sweeps s size).mono maintains_of_sweeps

theorem removedSize_checks (key : Text) : (removedSize key).Asks Op.Checks := by
  refine .query trivial fun regular => ?_
  split
  · trivial
  · exact .query trivial fun size => trivial

theorem removedSize_asks (key : Text) : (removedSize key).Asks Op.Reads :=
  (removedSize_checks key).mono reads_of_checks

theorem write_runs (name : Text) (good : Bool) (data : Text) (s : Store) :
    Runs (write name good data) (fun good' s' => s.SameBut name s' ∧
      (good' = true → good = true ∧ ∀ f', s'.file name = some f' →
        ∃ f, s.file name = some f ∧ f'.data = f.data ++ data)) s := by
  unfold write
  split
  · intro x s' ⟨c, u, u', h⟩
    refine ⟨trivial, ?_⟩
    rcases perform_append h with ⟨hf, rfl⟩ | ⟨f, part, hf, hpart, rfl⟩
    · refine ⟨.refl name _, fun _ => ⟨‹_›, fun f' hf' => ?_⟩⟩
      rw [hf] at hf'
      cases hf'
    · refine ⟨s.sameBut_put name _, fun hx => ⟨‹_›, fun f' hf' => ⟨f, hf, ?_⟩⟩⟩
      rw [Store.file_put, if_pos rfl, Option.some.injEq] at hf'
      rw [← hf', hpart hx]
  · exact ⟨.refl name s, fun h => by cases h⟩

theorem flush_runs (name : Text) (good : Bool) (s : Store) :
    Runs (flush name good) (fun ok s' => s.SameBut name s' ∧
      (ok = true → good = true ∧ ∀ f', s'.file name = some f' →
        f'.completedFor = s.current.map Job.identity ∧
        ∃ f, s.file name = some f ∧ f'.data = f.data)) s := by
  unfold flush
  split
  · intro x s' ⟨c, u, u', h⟩
    refine ⟨trivial, ?_⟩
    rcases perform_flush h with ⟨rfl, hf⟩ | ⟨f, hf, -, rfl⟩
    · refine ⟨.refl name _, fun hx => ⟨‹_›, fun f' hf' => ?_⟩⟩
      rw [hf hx] at hf'
      cases hf'
    · refine ⟨s.sameBut_put name _, fun _ => ⟨‹_›, fun f' hf' => ?_⟩⟩
      rw [Store.file_put, if_pos rfl, Option.some.injEq] at hf'
      rw [← hf']
      exact ⟨rfl, f, hf, rfl⟩
  · exact ⟨.refl name s, fun h => by cases h⟩

/-- Where `writeArtifact` reports success, the job has written its file to the end, and that is not
empty: it closes with the check sum and the size. -/
theorem writeArtifact_runs (S : Settings) (fuel : Nat) (job : Job) (size : Nat) (s : Store) :
    Runs (writeArtifact S fuel job size) (fun ok s' =>
      s.SameBut (artifact job.key .gzipTemp) s' ∧
      (ok = true → ∀ f, s'.file (artifact job.key .gzipTemp) = some f →
        f.completedFor = s.current.map Job.identity ∧ f.data ≠ [])) s := by
  have hno {s' : Store} (h : s.SameBut (artifact job.key .gzipTemp) s') :
      s.SameBut (artifact job.key .gzipTemp) s' ∧
      (false = true → ∀ f, s'.file (artifact job.key .gzipTemp) = some f →
        f.completedFor = s.current.map Job.identity ∧ f.data ≠ []) := ⟨h, fun h => by cases h⟩
  refine (write_runs _ true gzipHeader s).bind fun good s₁ ⟨h₁, _⟩ => ?_
  dsimp only
  split
  · refine (runs_of_writes (readSource_asks _ _ _ _ _ _) s₁).bind fun t s₂ h₂ => ?_
    have h₂ := h₁.trans h₂
    split
    · refine (runs_of_writes (finishStream_asks _ _ _ _ _) s₂).bind fun good s₃ h₃ => ?_
      have h₃ := h₂.trans h₃
      split
      · refine (write_runs _ _ _ s₃).bind fun good s₄ ⟨h₄, _⟩ => ?_
        refine (write_runs _ _ _ s₄).bind fun good s₅ ⟨h₅, hwrite⟩ => ?_
        have h₅ := (h₃.trans h₄).trans h₅
        apply (flush_runs _ _ s₅).mono (fun _ _ _ _ h => h) (fun _ _ _ h => h)
        intro ok s₆ h₆
        obtain ⟨hsame, hflush⟩ := h₆
        refine ⟨h₅.trans hsame, ?_⟩
        intro hok f hf
        obtain ⟨hgood, hdata⟩ := hflush hok
        obtain ⟨hcompleted, f₅, hf₅, hflushed⟩ := hdata f hf
        obtain ⟨f₄, -, hwritten⟩ := (hwrite hgood).2 f₅ hf₅
        constructor
        · rw [hcompleted, h₅.1]
        · rw [hflushed, hwritten]
          exact List.append_ne_nil_of_right_ne_nil _ nofun
      · exact hno h₃
    · exact hno h₂
  · exact hno h₁

/-- A marker that was written well holds what was written. -/
theorem writeMarker_runs (name data : Text) (s : Store) :
    Runs (writeMarker name data) (fun ok s' => s.SameBut name s' ∧
      (ok = true → ∀ f, s'.file name = some f → f.data = data)) s := by
  refine .query fun created s₁ ⟨c, u, u', h⟩ => ⟨trivial, ?_⟩
  have hcreate : s.SameBut name s₁ ∧ (created = true → ∀ f, s₁.file name = some f → f.data = []) := by
    rcases perform_create h with ⟨rfl, rfl⟩ | ⟨-, rfl⟩
    · exact ⟨.refl name _, fun h => by cases h⟩
    · refine ⟨s.sameBut_put name _, fun _ f hf => ?_⟩
      rw [Store.file_put, if_pos rfl, Option.some.injEq] at hf
      rw [← hf]
  refine (write_runs name created data s₁).bind fun good s₂ ⟨hsame₂, hwrite⟩ => ?_
  refine (flush_runs name good s₂).mono (fun _ _ _ _ h => h) (fun _ _ _ h => h)
    fun ok s₃ ⟨hsame₃, hflush⟩ => ⟨(hcreate.1.trans hsame₂).trans hsame₃, fun hok f hf => ?_⟩
  obtain ⟨hgood, hdata⟩ := hflush hok
  obtain ⟨-, f₂, hf₂, hd₂⟩ := hdata f hf
  obtain ⟨hcreated, hdata⟩ := hwrite hgood
  obtain ⟨f₁, hf₁, hd₁⟩ := hdata f₂ hf₂
  rw [hd₂, hd₁, hcreate.2 hcreated f₁ hf₁, List.nil_append]

end FastdlMm.CompressionCache
