import FastdlMm.Server.ServeFileSpec
import Mathlib.Logic.Function.Basic

namespace FastdlMm.FastdlServer

variable {lib : CLibrary} {config : FastdlConfig} {method : Method} {headers : Headers}
  {e : Encounter}

/-- The request without its Range header. -/
def withoutRange (headers : Headers) : Headers := Function.update headers .range none

theorem header_withoutRange {name : HeaderName} (h : name ≠ .range) (limit : Nat) :
    header (withoutRange headers) name limit = header headers name limit := by
  rw [header, header, withoutRange, Function.update_of_ne h]

theorem header_range_withoutRange (limit : Nat) :
    header (withoutRange headers) .range limit = [] := by
  rw [header, withoutRange, Function.update_self]
  rfl

theorem serveRange_withoutRange (opened : OpenFile) (range : ByteRange) :
    serveRange lib config method (withoutRange headers) e opened range =
      serveRange lib config method headers e opened range := by
  have hgzip : gzipArtifact lib config (withoutRange headers) e =
      gzipArtifact lib config headers e := by
    unfold gzipArtifact
    rw [header_withoutRange (by decide)]
  have hcond (etag : Text) (modified : Int) :
      notModified lib (withoutRange headers) etag modified =
        notModified lib headers etag modified := by
    unfold notModified
    rw [header_withoutRange (by decide), header_withoutRange (by decide)]
  unfold serveRange
  rw [hgzip]
  simp only [hcond]

theorem serveFile_withoutRange {opened : OpenFile} (hf : e.file = some opened)
    (hsize : opened.info.size ≤ config.maxFileBytes) :
    serveFile lib config method (withoutRange headers) e =
      serveRange lib config method headers e opened {} := by
  rw [serveFile_eq hf hsize, header_range_withoutRange, parseRange_nil]
  simp only [serveRange_withoutRange]
  simp

/-- Serving never answers with the status of a range error. -/
theorem serveRange_ne_rangeError {opened : OpenFile} {range : ByteRange} (total : Nat) :
    serveRange lib config method headers e opened range ≠ respondRangeError total := by
  obtain ⟨r, hr, hst⟩ := respondRangeError_status total
  intro h
  rw [hr] at h
  rcases serveRange_status h with h304 | hother
  · omega
  · split_ifs at hother <;> omega

/-- Without gzip, an unmodified file is answered alike with and without a range. -/
theorem serveRange_of_notModified {opened : OpenFile} (range : ByteRange) {r : Response}
    (hgzip : config.gzip = false)
    (h : serveRange lib config method headers e opened {} = some r) (hr : r.status = 304) :
    serveRange lib config method headers e opened range = some r := by
  have hart : gzipArtifact lib config headers e = none := by simp [gzipArtifact, hgzip]
  have hcond : notModified lib headers (makeEtag opened.info) opened.info.modifiedSeconds := by
    by_contra hcond
    simp only [serveRange, hart, ite_self, Option.isSome_none, if_neg hcond] at h
    rw [queue_eq_some h] at hr
    simp at hr
  have hsame (range : ByteRange) : serveRange lib config method headers e opened range =
      respondNotModified config (makeEtag opened.info)
        (httpDate lib opened.info.modifiedSeconds) false := by
    simp only [serveRange, hart, ite_self, Option.isSome_none, if_pos hcond]
  rw [hsame, ← hsame {}, h]

/-- Under a stale `If-Range`, or when the file is unmodified and gzip is off, a Range header changes
nothing exactly when it is neither malformed nor past the end. -/
theorem serveFile_range_iff {opened : OpenFile} (hf : e.file = some opened)
    (hsize : opened.info.size ≤ config.maxFileBytes)
    (hidle : ifRangeMatches lib (header headers .ifRange 512) (makeEtag opened.info)
        opened.info.modifiedSeconds = false ∨
      (config.gzip = false ∧ ∃ r,
        serveFile lib config method (withoutRange headers) e = some r ∧ r.status = 304)) :
    serveFile lib config method headers e = serveFile lib config method (withoutRange headers) e ↔
      (parseRange (header headers .range 256) opened.info.size).status ≠ .invalid ∧
      (parseRange (header headers .range 256) opened.info.size).status ≠ .unsatisfiable := by
  rw [serveFile_withoutRange hf hsize] at hidle ⊢
  rw [serveFile_eq hf hsize]
  generalize parseRange (header headers .range 256) opened.info.size = range
  simp only
  split_ifs with hbad hstale
  · constructor
    · intro h
      exact absurd h.symm (serveRange_ne_rangeError _)
    · intro hkept
      obtain ⟨h₁, h₂⟩ := hkept
      exact absurd hbad (by simp [h₁, h₂])
  · simpa using hbad
  · refine iff_of_true ?_ (by simpa using hbad)
    by_cases hv : range.status = .valid
    · rcases hidle with hrej | ⟨hgzip, r, hr, h304⟩
      · exact absurd ⟨hv, hrej⟩ hstale
      · rw [hr]
        exact serveRange_of_notModified range hgzip hr h304
    · exact serveRange_of_ne_valid hv

theorem serveFile_range_iff_stale :
    serveFile epochLibrary ⟨false, false, 100⟩ .get
        (rangeRequest "bytes=0-1" .ifRange "stale") sampleEncounter =
      serveFile epochLibrary ⟨false, false, 100⟩ .get
        (withoutRange (rangeRequest "bytes=0-1" .ifRange "stale")) sampleEncounter :=
  (serveFile_range_iff rfl (by decide) (.inl (by decide +kernel))).mpr (by decide +kernel)

/-- A range past the end is refused though `If-Range` is stale, and though the file is unmodified. -/
theorem unsatisfiable_range_refused :
    (ifRangeMatches epochLibrary
        (header (rangeRequest "bytes=9-" .ifRange "stale") .ifRange 512)
        (makeEtag sampleFile.info) sampleFile.info.modifiedSeconds = false ∧
      serveFile epochLibrary ⟨false, false, 100⟩ .get
          (rangeRequest "bytes=9-" .ifRange "stale") sampleEncounter ≠
        serveFile epochLibrary ⟨false, false, 100⟩ .get
          (withoutRange (rangeRequest "bytes=9-" .ifRange "stale")) sampleEncounter) ∧
    ((serveFile epochLibrary ⟨false, false, 100⟩ .get
        (withoutRange (rangeRequest "bytes=9-" .ifModifiedSince "Thu, 01 Jan 1970 00:00:00 GMT"))
        sampleEncounter).map Response.status = some 304 ∧
      (serveFile epochLibrary ⟨false, false, 100⟩ .get
        (rangeRequest "bytes=9-" .ifModifiedSince "Thu, 01 Jan 1970 00:00:00 GMT")
        sampleEncounter).map Response.status = some 416) := by
  refine ⟨⟨by decide +kernel, fun h => ?_⟩, by decide +kernel, by decide +kernel⟩
  exact absurd (congrArg (Option.map Response.status) h) (by decide +kernel)

end FastdlMm.FastdlServer
