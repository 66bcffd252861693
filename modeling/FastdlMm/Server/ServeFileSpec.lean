import FastdlMm.Server.ServeFile

namespace FastdlMm.FastdlServer

variable {lib : CLibrary} {config : FastdlConfig} {method : Method} {headers : Headers}
  {e : Encounter}

theorem queue_eq_some {response r : Response} (h : queue response = some r) : r = response := by
  unfold queue at h
  split_ifs at h
  cases h
  rfl

theorem addHeader_decimal (v : Text) (h : addHeader v = true) (n : Nat) :
    addHeader (v ++ decimal n) = true := by
  simp only [addHeader, Bool.and_eq_true, decide_eq_true_eq, List.all_append] at h ⊢
  refine ⟨by simp [h.1], h.2, ?_⟩
  rw [List.all_eq_true]
  intro c hc
  have hd := decimal_digits n c hc
  have hne (d : Char) (h0 : d.isDigit = false) : c ≠ d := by
    intro heq
    rw [← heq, hd] at h0
    cases h0
  simp [hne '\t' (by decide), hne '\r' (by decide), hne '\n' (by decide)]

theorem respondRangeError_status (total : Nat) :
    ∃ r, respondRangeError total = some r ∧ r.status = 416 := by
  have hrange := addHeader_decimal (text "bytes */") (by decide +kernel) total
  have hfields : ∀ v ∈ [text "text/plain; charset=utf-8", text "no-store", text "bytes"],
      addHeader v = true := by decide +kernel
  refine ⟨_, if_pos ?_, rfl⟩
  simp [hrange, hfields]

/-- A range that is not valid makes no difference to what is served. -/
theorem serveRange_of_ne_valid {opened : OpenFile} {range : ByteRange}
    (h : range.status ≠ .valid) :
    serveRange lib config method headers e opened range =
      serveRange lib config method headers e opened {} := by
  simp [serveRange, respondFile, h]

theorem serveRange_status {opened : OpenFile} {range : ByteRange} {r : Response}
    (h : serveRange lib config method headers e opened range = some r) :
    r.status = 304 ∨ r.status = if range.status = .valid then 206 else 200 := by
  unfold serveRange at h
  by_cases hv : range.status = .valid
  · simp only [hv, decide_true, if_true] at h
    split_ifs at h
    · exact .inl (by rw [queue_eq_some h])
    · exact .inr (by rw [queue_eq_some h]; simp [hv])
  · simp only [hv, decide_false, Bool.false_eq_true, if_false] at h
    split_ifs at h
    · exact .inl (by rw [queue_eq_some h])
    · exact .inr (by rw [queue_eq_some h]; simp [hv])

theorem serveFile_eq {opened : OpenFile} (hf : e.file = some opened)
    (hsize : opened.info.size ≤ config.maxFileBytes) :
    serveFile lib config method headers e =
      let range := parseRange (header headers .range 256) opened.info.size
      if range.status = .invalid ∨ range.status = .unsatisfiable then
        respondRangeError opened.info.size
      else if range.status = .valid ∧
          ifRangeMatches lib (header headers .ifRange 512) (makeEtag opened.info)
            opened.info.modifiedSeconds = false then
        serveRange lib config method headers e opened {}
      else serveRange lib config method headers e opened range := by
  simp only [serveFile, hf, if_neg hsize.not_gt]

/-- The whole representation that goes out when no range is served. -/
def wholeRepresentation (lib : CLibrary) (config : FastdlConfig) (headers : Headers)
    (e : Encounter) (opened : OpenFile) : OpenFile :=
  (gzipArtifact lib config headers e).getD opened

/-- What a transfer sends: all of one representation, or the parsed range of the file itself. -/
def Sends (lib : CLibrary) (config : FastdlConfig) (headers : Headers) (e : Encounter)
    (opened : OpenFile) (r : Response) : Prop :=
  (r.status = 200 ∧ r.responseSize = (wholeRepresentation lib config headers e opened).info.size ∧
    r.body = .file (wholeRepresentation lib config headers e opened) 0 r.responseSize) ∨
  (r.status = 206 ∧ (parseRange (header headers .range 256) opened.info.size).status = .valid ∧
    r.responseSize = (parseRange (header headers .range 256) opened.info.size).length ∧
    r.body = .file opened (parseRange (header headers .range 256) opened.info.size).start
      r.responseSize ∧
    (.contentRange, contentRange (parseRange (header headers .range 256) opened.info.size).start
      r.responseSize opened.info.size) ∈ r.fields)

theorem serveRange_transfer {opened : OpenFile} {range : ByteRange} {r : Response}
    (h : serveRange lib config method headers e opened range = some r)
    (hs : r.status = 200 ∨ r.status = 206) :
    r.activeTransfer = decide (method = .get) ∧
    ((range.status ≠ .valid ∧ r.status = 200 ∧
      r.responseSize = (wholeRepresentation lib config headers e opened).info.size ∧
      r.body = .file (wholeRepresentation lib config headers e opened) 0 r.responseSize) ∨
    (range.status = .valid ∧ r.status = 206 ∧ r.responseSize = range.length ∧
      r.body = .file opened range.start r.responseSize ∧
      (.contentRange, contentRange range.start r.responseSize opened.info.size) ∈ r.fields)) := by
  have hnot {etag : Text} {compressed : Bool} (h : respondNotModified config etag
      (httpDate lib opened.info.modifiedSeconds) compressed = some r) : False := by
    rw [queue_eq_some h] at hs
    simp at hs
  unfold serveRange at h
  by_cases hv : range.status = .valid
  · simp only [hv, decide_true, if_true] at h
    split_ifs at h
    · exact (hnot h).elim
    · rw [queue_eq_some h]
      simp [hv]
  · simp only [hv, decide_false, Bool.false_eq_true, if_false] at h
    split_ifs at h
    · exact (hnot h).elim
    · rw [queue_eq_some h]
      simp [hv, wholeRepresentation]

theorem serveFile_transfer {r : Response} (h : serveFile lib config method headers e = some r)
    (hs : r.status = 200 ∨ r.status = 206) :
    ∃ opened, e.file = some opened ∧ opened.info.size ≤ config.maxFileBytes ∧
      r.activeTransfer = decide (method = .get) ∧ Sends lib config headers e opened r := by
  unfold serveFile at h
  split at h
  · cases h
  · rename_i opened hf
    refine ⟨opened, hf, ?_⟩
    simp only at h
    split_ifs at h with hsize
    · rw [queue_eq_some h] at hs
      simp at hs
    · rw [queue_eq_some h] at hs
      simp at hs
    · obtain ⟨hactive, ⟨_, hsend⟩ | ⟨hv, _⟩⟩ := serveRange_transfer h hs
      · exact ⟨by omega, hactive, .inl hsend⟩
      · cases hv
    · obtain ⟨hactive, ⟨_, hsend⟩ | ⟨hv, hst, hlen, hbody, hrange⟩⟩ := serveRange_transfer h hs
      · exact ⟨by omega, hactive, .inl hsend⟩
      · exact ⟨by omega, hactive, .inr ⟨hst, hv, hlen, hbody, hrange⟩⟩

/-- The C library at the epoch, the only date of the sample. -/
def epochLibrary : CLibrary where
  putTime := fun seconds => if seconds = 0 then some (text "Thu, 01 Jan 1970 00:00:00 GMT") else none
  getTime := fun value => if value = text "Thu, 01 Jan 1970 00:00:00 GMT" then some 0 else none
  strtod := fun _ => ⟨none, 0⟩

def sampleFile : OpenFile :=
  ⟨⟨4, 0, 0, 0⟩, [10, 20, 30, 40], rfl, by decide⟩

def sampleEncounter : Encounter := ⟨some sampleFile, text ".bsp", none, none⟩

/-- A request for a range, with one condition. -/
def rangeRequest (range : String) (name : HeaderName) (value : String) : Headers
  | .range => some (text range)
  | other => if other = name then some (text value) else none

end FastdlMm.FastdlServer
