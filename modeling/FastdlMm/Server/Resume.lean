import FastdlMm.Server.Conditional

namespace FastdlMm.FastdlServer

/-- A client that got a whole body, lost it after `n` bytes, and asks for the rest under a validator
of what it got. -/
structure Resumes (lib : CLibrary) (config : FastdlConfig) (h₁ h₂ : Headers) (e₁ e₂ : Encounter)
    (n : Nat) (r₁ r₂ : Response) : Prop where
  unchanged : e₁.file = e₂.file
  whole : serveFile lib config .get h₁ e₁ = some r₁ ∧ r₁.status = 200
  held : n < r₁.body.bytes.length
  range : h₂ .range = some (openRange n)
  ifRange : ∃ v, h₂ .ifRange = some v ∧ ((.etag, v) ∈ r₁.fields ∨ (.lastModified, v) ∈ r₁.fields)
  rest : serveFile lib config .get h₂ e₂ = some r₂ ∧ r₂.status = 206

/-- The artifact that `compress` publishes is smaller than its source, and the cache serves no other
for the file. -/
def Shrunk (e : Encounter) : Prop :=
  ∀ artifact opened, cachedArtifact e = some artifact → e.file = some opened →
    artifact.info.size < opened.info.size

theorem bytes_whole (f : OpenFile) : (Body.file f 0 f.info.size).bytes = f.content := by
  rw [Body.bytes, List.drop_zero, ← f.sized, List.take_length]

variable {lib : CLibrary} {config : FastdlConfig} {h₁ h₂ : Headers} {e₁ e₂ : Encounter} {n : Nat}
  {r₁ r₂ : Response}

theorem gzipArtifact_isSome (lib : CLibrary) (config : FastdlConfig) (headers : Headers)
    (e : Encounter) : (gzipArtifact lib config headers e).isSome ↔
      config.gzip = true ∧ config.gzipCache = true ∧
        acceptsGzip lib (header headers .acceptEncoding 1024) = true ∧
        (cachedArtifact e).isSome = true := by
  unfold gzipArtifact
  split_ifs with h
  · simp only [Bool.and_eq_true] at h
    simp [h]
  · simp only [Bool.and_eq_true, not_and] at h
    simp only [Option.isSome_none, Bool.false_eq_true, false_iff, not_and]
    exact fun hg hc ha => absurd ha (h ⟨hg, hc⟩)

/-- The rest always comes from the file itself, whatever the first body was. -/
theorem Resumes.rest_bytes (h : Resumes lib config h₁ h₂ e₁ e₂ n r₁ r₂) {opened : OpenFile}
    (hf : e₁.file = some opened) (hn : n < opened.info.size) :
    r₂.body.bytes = opened.content.drop n := by
  obtain ⟨opened', hf', -, -, hsend⟩ := serveFile_transfer h.rest.1 (.inr h.rest.2)
  rw [← h.unchanged, hf, Option.some.injEq] at hf'
  subst hf'
  have hmax := opened.small
  have hlt : opened.info.size < 2 ^ 64 := by
    simp only [int64Max] at hmax
    omega
  rcases hsend with ⟨h200, _⟩ | ⟨_, _, hlen, hbody, _⟩
  · rw [h.rest.2] at h200
    cases h200
  · rw [header_openRange h.range (hn.trans hlt), parseRange_openRange hn hlt] at hlen hbody
    rw [hbody, hlen, Body.bytes, List.take_of_length_le]
    rw [List.length_drop, opened.sized]

/-- A resumed body is whole exactly when the first response was not the cached gzip artifact. -/
theorem resumed_iff (h : Resumes lib config h₁ h₂ e₁ e₂ n r₁ r₂) (hs : Shrunk e₁) :
    r₁.body.bytes.take n ++ r₂.body.bytes = r₁.body.bytes ↔
      ¬ (config.gzip = true ∧ config.gzipCache = true ∧
        acceptsGzip lib (header h₁ .acceptEncoding 1024) = true ∧
        (cachedArtifact e₁).isSome = true) := by
  obtain ⟨opened, hf, -, -, hsend⟩ := serveFile_transfer h.whole.1 (.inl h.whole.2)
  have hbytes : r₁.body.bytes = (wholeRepresentation lib config h₁ e₁ opened).content := by
    rcases hsend with ⟨_, hlen, hbody⟩ | ⟨h206, _⟩
    · rw [hbody, hlen, bytes_whole]
    · rw [h.whole.2] at h206
      cases h206
  have hheld := h.held
  rw [← gzipArtifact_isSome lib config h₁ e₁]
  rw [hbytes, (wholeRepresentation lib config h₁ e₁ opened).sized] at hheld
  rw [hbytes]
  unfold wholeRepresentation at hheld ⊢
  cases hart : gzipArtifact lib config h₁ e₁ with
  | none =>
    rw [hart] at hheld
    rw [h.rest_bytes hf hheld]
    simp
  | some artifact =>
    rw [hart] at hheld
    have hsmall : artifact.info.size < opened.info.size := by
      apply hs artifact opened _ hf
      unfold gzipArtifact at hart
      split_ifs at hart
      exact hart
    rw [h.rest_bytes hf (lt_trans hheld hsmall)]
    refine iff_of_false (fun heq => ?_) (by simp)
    have hlen := congrArg List.length heq
    simp only [Option.getD_some, List.length_append, List.length_take, List.length_drop,
      artifact.sized, opened.sized] at hlen hheld
    omega

/-- Both answers of a resumed download, as one evaluation finds them. -/
theorem resumes_of_run {v : Text} {test : Response → Response → Bool} (hfile : e₁.file = e₂.file)
    (hrange : h₂ .range = some (openRange n)) (hif : h₂ .ifRange = some v)
    (hrun : ((serveFile lib config .get h₁ e₁).any fun r₁ => r₁.status == 200 &&
      decide (n < r₁.body.bytes.length) && decide ((.lastModified, v) ∈ r₁.fields) &&
      (serveFile lib config .get h₂ e₂).any fun r₂ => r₂.status == 206 && test r₁ r₂) = true) :
    ∃ r₁ r₂, Resumes lib config h₁ h₂ e₁ e₂ n r₁ r₂ ∧ test r₁ r₂ = true := by
  obtain ⟨r₁, h₁', hwhole⟩ := (Option.any_eq_true _ _).mp hrun
  simp only [Bool.and_eq_true, beq_iff_eq, decide_eq_true_eq] at hwhole
  obtain ⟨⟨⟨h200, hheld⟩, hfield⟩, hrest⟩ := hwhole
  obtain ⟨r₂, h₂', hrest⟩ := (Option.any_eq_true _ _).mp hrest
  simp only [Bool.and_eq_true, beq_iff_eq] at hrest
  obtain ⟨h206, htest⟩ := hrest
  exact ⟨r₁, r₂, ⟨hfile, ⟨h₁', h200⟩, hheld, hrange, ⟨v, hif, .inr hfield⟩, h₂', h206⟩, htest⟩

/-- A request that accepts gzip. -/
def gzipRequest : Headers
  | .acceptEncoding => some (text "gzip")
  | _ => none

theorem resumed_iff_identity :
    ∃ r₁ r₂, Resumes epochLibrary ⟨true, true, 100⟩ (fun _ => none)
        (rangeRequest "bytes=1-" .ifRange "Thu, 01 Jan 1970 00:00:00 GMT") sampleEncounter
        sampleEncounter 1 r₁ r₂ ∧
      r₁.body.bytes.take 1 ++ r₂.body.bytes = r₁.body.bytes := by
  have hrange : rangeRequest "bytes=1-" .ifRange "Thu, 01 Jan 1970 00:00:00 GMT" .range =
      some (openRange 1) := by decide +kernel
  obtain ⟨r₁, r₂, hr, -⟩ := @resumes_of_run epochLibrary ⟨true, true, 100⟩ (fun _ => none) _
    sampleEncounter sampleEncounter 1 _ (fun _ _ => true) rfl hrange rfl (by decide +kernel)
  exact ⟨r₁, r₂, hr, (resumed_iff hr (fun _ _ h => by cases h)).mpr (by decide +kernel)⟩

/-- A file of 2000 equal bytes, and its artifact. -/
def evenFile : OpenFile :=
  ⟨⟨2000, 0, 0, 0⟩, List.replicate 2000 65, List.length_replicate, by decide⟩

def evenArtifact : OpenFile :=
  ⟨⟨41, 0, 0, 1⟩,
    [31, 139, 8, 0, 0, 0, 0, 0, 4, 255, 115, 116, 28, 5, 163, 33, 48, 26, 2, 163, 33, 48, 26,
     2, 163, 33, 48, 26, 2, 67, 61, 4, 0, 87, 0, 204, 255, 208, 7, 0, 0],
    rfl, by decide⟩

def evenEncounter : Encounter := ⟨some evenFile, text ".txt", some 41, some evenArtifact⟩

/-- A client that got the artifact and resumes it under its date is handed bytes of the file. -/
theorem gzip_resume_mixes :
    ∃ r₁ r₂, Resumes epochLibrary ⟨true, true, 10000⟩ gzipRequest
        (rangeRequest "bytes=20-" .ifRange "Thu, 01 Jan 1970 00:00:00 GMT") evenEncounter
        evenEncounter 20 r₁ r₂ ∧
      r₁.body.bytes.take 20 ++ r₂.body.bytes ≠ r₁.body.bytes := by
  have hrange : rangeRequest "bytes=20-" .ifRange "Thu, 01 Jan 1970 00:00:00 GMT" .range =
      some (openRange 20) := by decide +kernel
  obtain ⟨r₁, r₂, hr, hmixed⟩ := @resumes_of_run epochLibrary ⟨true, true, 10000⟩ gzipRequest _
    evenEncounter evenEncounter 20 _
    (fun r₁ r₂ => decide (r₁.body.bytes.take 20 ++ r₂.body.bytes ≠ r₁.body.bytes)) rfl hrange rfl
    (by decide +kernel)
  exact ⟨r₁, r₂, hr, of_decide_eq_true hmixed⟩

end FastdlMm.FastdlServer
