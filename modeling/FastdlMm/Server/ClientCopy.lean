import FastdlMm.Server.EntityTags
import FastdlMm.Server.Identities
import FastdlMm.Server.Resume
import Mathlib.Data.List.Induction

namespace FastdlMm.FastdlServer

/-- How a client asks for a file: afresh, whether its copy is still current, or for what its copy
lacks. -/
inductive Plan where
  | fetch
  | revalidate
  | resume
  deriving DecidableEq

/-- What a client has of a file. -/
structure Copy where
  etag : Text
  gzip : Bool
  bytes : List UInt8
  complete : Bool

/-- One request of the client, what the server meets in it, and how much of the body arrives. -/
structure Exchange where
  plan : Plan
  acceptEncoding : Option Text
  config : FastdlConfig
  encounter : Encounter
  received : Nat

/-- The copy that the client names in its request. -/
def Exchange.named (x : Exchange) (copy : Option Copy) (complete : Bool) : Option Copy :=
  if x.plan = (if complete then .revalidate else .resume) then
    copy.filter (fun c => c.complete = complete)
  else none

def Exchange.headers (x : Exchange) (copy : Option Copy) : Headers
  | .acceptEncoding => x.acceptEncoding
  | .ifNoneMatch => (x.named copy true).map Copy.etag
  | .range => (x.named copy false).map (fun c => openRange c.bytes.length)
  | .ifRange => (x.named copy false).map Copy.etag
  | .ifModifiedSince => none

def Exchange.answer (lib : CLibrary) (x : Exchange) (copy : Option Copy) : Option Response :=
  serveFile lib x.config .get (x.headers copy) x.encounter

def fieldOf (r : Response) (name : Field) : Option Text :=
  (r.fields.find? (fun field => field.1 = name)).map Prod.snd

/-- The client keeps what a 200 brings, adds to its copy what a 206 brings, and else leaves it. -/
def Exchange.after (lib : CLibrary) (x : Exchange) (copy : Option Copy) : Option Copy :=
  match x.answer lib copy with
  | none => copy
  | some r =>
      let got := r.body.bytes.take x.received
      let complete := decide (r.body.bytes.length ≤ x.received)
      if r.status = 200 then
        some ⟨(fieldOf r .etag).getD [], (fieldOf r .contentEncoding).isSome, got, complete⟩
      else if r.status = 206 then
        copy.map (fun c => { c with bytes := c.bytes ++ got, complete := complete })
      else copy

/-- What the client has after its requests. -/
def clientRun (lib : CLibrary) (exchanges : List Exchange) : Option Copy :=
  exchanges.foldl (fun copy x => x.after lib copy) none

/-- No date is empty or begins with a quote. -/
structure CLibrary.Dates (lib : CLibrary) : Prop where
  empty : lib.getTime [] = none
  quoted : ∀ rest, lib.getTime ('"' :: rest) = none

/-- What the identities of files stand for, and what a client makes of a gzip member. -/
structure Contents where
  content : Nat → Nat → Nat → List UInt8
  gunzip : List UInt8 → Option (List UInt8)

namespace Contents

def of (w : Contents) (file : OpenedFileInfo) : List UInt8 :=
  w.content file.size file.modifiedIdentity file.fileIdentity

/-- The file has the content that its identity, in words of 64 bits, stands for, and the cache serves
no artifact of another one. -/
structure Fits (w : Contents) (e : Encounter) : Prop where
  file : ∀ opened, e.file = some opened → opened.content = w.of opened.info
  words : ∀ opened, e.file = some opened →
    opened.info.modifiedIdentity < 2 ^ 64 ∧ opened.info.fileIdentity < 2 ^ 64
  artifact : ∀ opened artifact, e.file = some opened → cachedArtifact e = some artifact →
    w.gunzip artifact.content = some opened.content

/-- The copy is one of this content, as far as it has come. -/
structure Shows (w : Contents) (c : Copy) (content : List UInt8) : Prop where
  identity : c.gzip = false → c.bytes <+: content ∧ (c.complete = true ↔ c.bytes = content)
  compressed : c.gzip = true → c.complete = true → w.gunzip c.bytes = some content

/-- The copy is one of the content that its tag stands for. -/
structure Kept (w : Contents) (c : Copy) (file : OpenedFileInfo) : Prop where
  size : file.size ≤ int64Max
  words : file.modifiedIdentity < 2 ^ 64 ∧ file.fileIdentity < 2 ^ 64
  etag : c.etag = makeEtag file c.gzip
  shows_content : w.Shows c (w.of file)

end Contents

section Tags

variable (file : OpenedFileInfo) (gzip : Bool)

/-- A tag of this server, as an entity tag. -/
def tagOf : EntityTag where
  weak := false
  content := hexadecimal file.size ++ ['-'] ++ hexadecimal file.modifiedIdentity ++ ['-'] ++
    hexadecimal file.fileIdentity ++ (if gzip then text "-gz" else [])
  plain := by
    have hmark : text "-gz" = ['-', 'g', 'z'] := text_eq rfl
    have hhex (n : Nat) : ∀ c ∈ hexadecimal n, c ≠ '"' ∧ isControl c = false := by
      intro c hc
      refine ⟨fun heq => not_mem_hexadecimal (by decide) n (heq ▸ hc), ?_⟩
      have hdigit := hexadecimal_digits n c hc
      simp only [Bool.or_eq_true, Bool.and_eq_true, decide_eq_true_eq, Char.isDigit_iff_toNat,
        Char.le_def, UInt32.le_iff_toNat_le] at hdigit
      have h0 : '0'.toNat = 48 ∧ '9'.toNat = 57 ∧ 'a'.val.toNat = 97 ∧ 'f'.val.toNat = 102 ∧
        'A'.val.toNat = 65 ∧ 'F'.val.toNat = 70 := by decide
      have hval : c.val.toNat = c.toNat := rfl
      simp only [isControl, Bool.or_eq_false_iff, decide_eq_false_iff_not]
      omega
    rw [hmark]
    intro c hc
    simp only [List.mem_append, List.mem_singleton] at hc
    obtain ((((hc | rfl) | hc) | rfl) | hc) | hc := hc
    · exact hhex _ c hc
    · decide
    · exact hhex _ c hc
    · decide
    · exact hhex _ c hc
    · split_ifs at hc
      · simp only [List.mem_cons, List.not_mem_nil, or_false] at hc
        obtain rfl | rfl | rfl := hc
        · decide
        · decide
        · decide
      · cases hc

theorem tagOf_strong : (tagOf file gzip).strong = makeEtag file gzip := by
  simp [tagOf, EntityTag.strong, makeEtag]

theorem trimAscii_makeEtag : trimAscii (makeEtag file gzip) = makeEtag file gzip := by
  rw [← tagOf_strong]
  exact trimAscii_eq_self (tagOf file gzip).bare_strong.1 (tagOf file gzip).bare_strong.2

/-- The tag of one file, sent alone, matches no tag but itself. -/
theorem etagMatches_makeEtag (file' : OpenedFileInfo) (gzip' : Bool) :
    etagMatches (makeEtag file gzip) (makeEtag file' gzip') = true ↔
      makeEtag file gzip = makeEtag file' gzip' := by
  obtain ⟨hquotes, hcomma⟩ := makeEtag_shape file' gzip'
  have hwritten : (tagOf file gzip).written = makeEtag file gzip := by
    rw [← tagOf_strong]
    rfl
  have hlist : ListsTags [tagOf file gzip] (makeEtag file gzip) :=
    ⟨[makeEtag file gzip], .cons (hwritten ▸ ⟨[], [], by simp, by simp, by simp⟩) .nil, by simp⟩
  have hplain : ',' ∉ (tagOf file gzip).content := by
    intro hmem
    apply (makeEtag_shape file gzip).2
    rw [← tagOf_strong]
    simp [EntityTag.strong, hmem]
  have hstarred : ¬ (tagOf file gzip).Starred := by
    intro h
    obtain ⟨part, hpart, -⟩ := h
    rw [List.splitOn_eq_singleton hplain] at hpart
    cases hpart
  rw [etagMatches_listsTags (List.cons_ne_nil _ _) hlist hquotes hcomma]
  simp [hstarred, tagOf_strong]

/-- A tag goes through a header whole. -/
theorem header_makeEtag {headers : Headers} {name : HeaderName} {maxLength : Nat}
    (h : headers name = some (makeEtag file gzip)) (hsize : file.size ≤ int64Max)
    (hwords : file.modifiedIdentity < 2 ^ 64 ∧ file.fileIdentity < 2 ^ 64)
    (hlong : 55 ≤ maxLength) : header headers name maxLength = makeEtag file gzip := by
  have hmark : (text "-gz").length = 3 := by
    rw [text_eq rfl]
    rfl
  apply header_eq h
  · intro c hc
    rw [← tagOf_strong] at hc
    simp only [EntityTag.strong, List.mem_append, List.mem_singleton] at hc
    obtain (rfl | hc) | rfl := hc
    · decide
    · have hplain := ((tagOf file gzip).plain c hc).2
      simp only [isControl, Bool.or_eq_false_iff, decide_eq_false_iff_not] at hplain
      omega
    · decide
  · simp only [int64Max] at hsize
    have hfirst := hexadecimal_length_le (show file.size < 2 ^ 64 by omega)
    have hsecond := hexadecimal_length_le hwords.1
    have hthird := hexadecimal_length_le hwords.2
    simp only [makeEtag, List.length_append, List.length_cons, List.length_nil]
    split_ifs
    · omega
    · simp only [List.length_nil]
      omega

end Tags

section Answers

variable {lib : CLibrary} {config : FastdlConfig} {method : Method} {headers : Headers}
  {e : Encounter} {opened : OpenFile} {range : ByteRange} {r : Response}

/-- A served answer is one for the parsed range, which `If-Range` then allows, or for none. -/
theorem serveFile_served (h : serveFile lib config method headers e = some r)
    (hs : r.status = 200 ∨ r.status = 206 ∨ r.status = 304) :
    ∃ opened range, e.file = some opened ∧
      serveRange lib config method headers e opened range = some r ∧
      (range.status = .valid → range = parseRange (header headers .range 256) opened.info.size ∧
        ifRangeMatches lib (header headers .ifRange 512) (makeEtag opened.info)
          opened.info.modifiedSeconds = true) := by
  unfold serveFile at h
  split at h
  · cases h
  · rename_i opened hf
    simp only at h
    split_ifs at h with hsize hbad hstale
    · rw [queue_eq_some h] at hs
      simp at hs
    · rw [queue_eq_some h] at hs
      simp at hs
    · exact ⟨opened, {}, hf, h, nofun⟩
    · refine ⟨opened, _, hf, h, fun hvalid => ⟨rfl, ?_⟩⟩
      by_contra hno
      exact hstale ⟨hvalid, Bool.eq_false_of_not_eq_true hno⟩

/-- Only a request that matches the tag or the date of what would be sent is answered with 304. -/
theorem serveRange_notModified
    (h : serveRange lib config method headers e opened range = some r) (hs : r.status = 304) :
    ∃ gzip, notModified lib headers (makeEtag opened.info gzip) opened.info.modifiedSeconds =
      true := by
  unfold serveRange at h
  by_cases hv : range.status = .valid
  · simp only [hv, decide_true, if_true] at h
    split_ifs at h with hcond
    · exact ⟨_, hcond⟩
    · rw [queue_eq_some h] at hs
      simp [hv] at hs
  · simp only [hv, decide_false, Bool.false_eq_true, if_false] at h
    split_ifs at h with hcond
    · exact ⟨_, hcond⟩
    · rw [queue_eq_some h] at hs
      simp [hv] at hs

/-- A whole answer tells by its fields which representation it brings. -/
theorem serveRange_whole (h : serveRange lib config method headers e opened range = some r)
    (hs : r.status = 200) : range.status ≠ .valid ∧
      fieldOf r .etag =
        some (makeEtag opened.info (gzipArtifact lib config headers e).isSome) ∧
      (fieldOf r .contentEncoding).isSome = (gzipArtifact lib config headers e).isSome ∧
      r.body.bytes = ((gzipArtifact lib config headers e).getD opened).content := by
  have hno : range.status ≠ .valid := by
    intro hvalid
    obtain h304 | hother := serveRange_status h
    · omega
    · rw [if_pos hvalid] at hother
      omega
  unfold serveRange at h
  simp only [hno, decide_false, Bool.false_eq_true, if_false] at h
  split_ifs at h with hcond
  · rw [queue_eq_some h] at hs
    cases hs
  · have hr := queue_eq_some h
    simp only [decide_eq_false hno, Bool.false_eq_true, if_false] at hr
    refine ⟨hno, ?_, ?_, ?_⟩
    · rw [hr]
      rfl
    · rw [hr]
      cases hgzip : config.gzip with
      | false =>
        have hnone : gzipArtifact lib config headers e = none := by simp [gzipArtifact, hgzip]
        simp [fieldOf, variantFields, hgzip, hnone]
      | true =>
        cases gzipArtifact lib config headers e with
        | none => simp [fieldOf, variantFields, hgzip]
        | some artifact => simp [fieldOf, variantFields, hgzip]
    · rw [hr]
      exact bytes_whole _

end Answers

section Exchanges

variable {lib : CLibrary} {w : Contents} {x : Exchange} {copy : Option Copy} {r : Response}

theorem named_some {complete : Bool} {c : Copy} (h : x.named copy complete = some c) :
    copy = some c ∧ c.complete = complete := by
  unfold Exchange.named at h
  by_cases hplan : x.plan = (if complete then .revalidate else .resume)
  · rw [if_pos hplan] at h
    obtain ⟨hcopy, hcomplete⟩ := Option.filter_eq_some_iff.mp h
    exact ⟨hcopy, of_decide_eq_true hcomplete⟩
  · rw [if_neg hplan] at h
    cases h

theorem Contents.of_congr {file file' : OpenedFileInfo} {gzip gzip' : Bool}
    (h : makeEtag file gzip = makeEtag file' gzip') : w.of file = w.of file' ∧ gzip = gzip' := by
  obtain ⟨hsize, hmodified, hfile, hgzip⟩ := makeEtag_inj h
  rw [Contents.of, Contents.of, hsize, hmodified, hfile]
  exact ⟨rfl, hgzip⟩

/-- A 304 tells the client that its complete copy is current. -/
theorem after_notModified (hlib : lib.Dates) (hfits : w.Fits x.encounter)
    (hkept : ∀ c, copy = some c → ∃ file, w.Kept c file) (hr : x.answer lib copy = some r)
    (hs : r.status = 304) : ∃ opened c, x.encounter.file = some opened ∧
      x.after lib copy = some c ∧ w.Kept c opened.info := by
  obtain ⟨opened, range, hfile, hserve, -⟩ := serveFile_served hr (.inr (.inr hs))
  obtain ⟨gzip, hmatch⟩ := serveRange_notModified hserve hs
  have hafter : x.after lib copy = copy := by
    simp [Exchange.after, hr, hs]
  unfold notModified at hmatch
  cases hnamed : x.named copy true with
  | none =>
    have hnone : (x.headers copy) .ifNoneMatch = none := by simp [Exchange.headers, hnamed]
    have hempty : header (x.headers copy) .ifNoneMatch 2048 = [] := by rw [header, hnone]; rfl
    have hdate : header (x.headers copy) .ifModifiedSince 128 = [] := rfl
    simp [hempty, hdate, parseHttpDate, hlib.empty] at hmatch
  | some c =>
    obtain ⟨hcopy, -⟩ := named_some hnamed
    obtain ⟨file, hsize, hwords, hetag, hshows⟩ := hkept c hcopy
    have hsent : (x.headers copy) .ifNoneMatch = some (makeEtag file c.gzip) := by
      simp [Exchange.headers, hnamed, hetag]
    have hheader := header_makeEtag file c.gzip hsent hsize hwords (show 55 ≤ 2048 by omega)
    have hsome : makeEtag file c.gzip ≠ [] := by simp [makeEtag]
    rw [hheader, if_neg hsome] at hmatch
    have hsame := (etagMatches_makeEtag file c.gzip opened.info gzip).mp hmatch
    obtain ⟨hcontent, rfl⟩ := @Contents.of_congr w _ _ _ _ hsame
    refine ⟨opened, c, hfile, hafter.trans hcopy, opened.small, hfits.words opened hfile,
      hetag.trans hsame, ?_⟩
    rwa [← hcontent]

/-- A 200 brings a copy of what there is. -/
theorem after_whole (hfits : w.Fits x.encounter) (hr : x.answer lib copy = some r)
    (hs : r.status = 200) : ∃ opened c, x.encounter.file = some opened ∧
      x.after lib copy = some c ∧ w.Kept c opened.info := by
  obtain ⟨opened, range, hfile, hserve, -⟩ := serveFile_served hr (.inl hs)
  obtain ⟨-, hetag, hgzip, hbytes⟩ := serveRange_whole hserve hs
  have hafter : x.after lib copy = some ⟨(fieldOf r .etag).getD [],
      (fieldOf r .contentEncoding).isSome, r.body.bytes.take x.received,
      decide (r.body.bytes.length ≤ x.received)⟩ := by
    simp [Exchange.after, hr, hs]
  refine ⟨opened, _, hfile, hafter, opened.small, hfits.words opened hfile, ?_, ?_⟩
  · simp only [hetag, hgzip, Option.getD_some]
  · rw [← hfits.file opened hfile]
    refine ⟨fun hplain => ?_, fun hcompressed hcomplete => ?_⟩
    · have hnone : gzipArtifact lib x.config (x.headers copy) x.encounter = none := by
        rw [← Option.not_isSome_iff_eq_none, ← hgzip]
        exact Bool.not_eq_true _ ▸ hplain
      rw [hnone, Option.getD_none] at hbytes
      dsimp only
      rw [hbytes]
      refine ⟨List.take_prefix _ _, ?_⟩
      rw [decide_eq_true_eq, List.take_eq_self_iff]
    · have hsome : (gzipArtifact lib x.config (x.headers copy) x.encounter).isSome = true :=
        hgzip ▸ hcompressed
      obtain ⟨artifact, hartifact⟩ := Option.isSome_iff_exists.mp hsome
      rw [hartifact, Option.getD_some] at hbytes
      have hcached : cachedArtifact x.encounter = some artifact := by
        unfold gzipArtifact at hartifact
        split_ifs at hartifact
        exact hartifact
      have hwhole : r.body.bytes.length ≤ x.received := of_decide_eq_true hcomplete
      dsimp only
      rw [List.take_of_length_le hwhole, hbytes]
      exact hfits.artifact opened artifact hfile hcached

/-- What `If-Range` lets through under a tag of this server is that tag. -/
theorem ifRangeMatches_makeEtag (hlib : lib.Dates) {file file' : OpenedFileInfo} {gzip : Bool}
    {modifiedSeconds : Int} (h : ifRangeMatches lib (makeEtag file gzip) (makeEtag file')
      modifiedSeconds = true) : makeEtag file gzip = makeEtag file' := by
  have hrest : makeEtag file gzip = '"' :: ((tagOf file gzip).content ++ ['"']) := by
    rw [← tagOf_strong]
    rfl
  have hdate : parseHttpDate lib (makeEtag file gzip) = none := by
    rw [hrest, parseHttpDate, hlib.quoted]
    rfl
  have hsome : makeEtag file gzip ≠ [] := by simp [hrest]
  simpa [ifRangeMatches, trimAscii_makeEtag, hdate, hsome] using h

/-- The rest of a file follows what the copy has of it. -/
theorem Contents.Shows.resumed {c : Copy} {content : List UInt8} (h : w.Shows c content)
    (hgzip : c.gzip = false) (received : Nat) :
    w.Shows { c with bytes := c.bytes ++ (content.drop c.bytes.length).take received
                     complete := decide ((content.drop c.bytes.length).length ≤ received) }
      content := by
  have hsofar : c.bytes = content.take c.bytes.length :=
    List.prefix_iff_eq_take.mp (h.identity hgzip).1
  have hnext : c.bytes ++ (content.drop c.bytes.length).take received =
      content.take (c.bytes.length + received) := by
    conv_lhs => rw [hsofar]
    rw [List.length_take, List.take_add, ← List.length_take, ← hsofar]
  refine ⟨fun _ => ?_, fun hcompressed => ?_⟩
  · dsimp only
    rw [hnext]
    refine ⟨List.take_prefix _ _, ?_⟩
    rw [decide_eq_true_eq, List.take_eq_self_iff, List.length_drop]
    omega
  · rw [hgzip] at hcompressed
    cases hcompressed

/-- A 206 goes on with the copy: it is of the file that there is. -/
theorem after_partial (hlib : lib.Dates) (hfits : w.Fits x.encounter)
    (hkept : ∀ c, copy = some c → ∃ file, w.Kept c file) (hr : x.answer lib copy = some r)
    (hs : r.status = 206) : ∃ opened c, x.encounter.file = some opened ∧
      x.after lib copy = some c ∧ w.Kept c opened.info := by
  obtain ⟨opened, range, hfile, hserve, hallowed⟩ := serveFile_served hr (.inr (.inl hs))
  have hvalid : range.status = .valid := by
    by_contra hno
    obtain h304 | hother := serveRange_status hserve
    · omega
    · rw [if_neg hno] at hother
      omega
  obtain ⟨hrange, hif⟩ := hallowed hvalid
  cases hnamed : x.named copy false with
  | none =>
    have hnone : (x.headers copy) .range = none := by simp [Exchange.headers, hnamed]
    have hempty : header (x.headers copy) .range 256 = [] := by
      rw [header, hnone]
      rfl
    rw [hrange, hempty, parseRange_nil] at hvalid
    cases hvalid
  | some c =>
    obtain ⟨rfl, hincomplete⟩ := named_some hnamed
    obtain ⟨file, hsize, hwords, hetag, hshows⟩ := hkept c rfl
    have htag : (x.headers (some c)) .ifRange = some (makeEtag file c.gzip) := by
      simp [Exchange.headers, hnamed, hetag]
    rw [header_makeEtag file c.gzip htag hsize hwords (show 55 ≤ 512 by omega)] at hif
    have hsame := ifRangeMatches_makeEtag hlib hif
    obtain ⟨hcontent, hgzip⟩ := @Contents.of_congr w _ _ _ _ hsame
    rw [hcontent, ← hfits.file opened hfile] at hshows
    obtain ⟨hsofar, hwhole⟩ := hshows.identity hgzip
    have hless : c.bytes.length < opened.info.size := by
      rw [← opened.sized]
      refine lt_of_le_of_ne hsofar.length_le fun hlen => ?_
      have hdone := hwhole.mpr (hsofar.eq_of_length hlen)
      rw [hincomplete] at hdone
      cases hdone
    have hsmall := opened.small
    have htotal : opened.info.size < 2 ^ 64 := by
      simp only [int64Max] at hsmall
      omega
    have hasked : (x.headers (some c)) .range = some (openRange c.bytes.length) := by
      simp [Exchange.headers, hnamed]
    rw [header_openRange hasked (hless.trans htotal), parseRange_openRange hless htotal] at hrange
    obtain ⟨-, ⟨hno, -⟩ | ⟨-, -, hlen, hbody, -⟩⟩ := serveRange_transfer hserve (.inr hs)
    · exact absurd hvalid hno
    · have hbytes : r.body.bytes = opened.content.drop c.bytes.length := by
        rw [hbody, hlen, hrange, Body.bytes, List.take_of_length_le]
        rw [List.length_drop, opened.sized]
      have hafter : x.after lib (some c) =
          some { c with bytes := c.bytes ++ (opened.content.drop c.bytes.length).take x.received
                        complete :=
                          decide ((opened.content.drop c.bytes.length).length ≤ x.received) } := by
        simp [Exchange.after, hr, hs, hbytes]
      refine ⟨opened, _, hfile, hafter, opened.small, hfits.words opened hfile,
        hetag.trans (hgzip ▸ hsame), ?_⟩
      rw [← hfits.file opened hfile]
      exact hshows.resumed hgzip x.received

/-- What the client has after an answer that serves the file, it has of the file that there is. -/
theorem after_current (hlib : lib.Dates) (hfits : w.Fits x.encounter)
    (hkept : ∀ c, copy = some c → ∃ file, w.Kept c file) (hr : x.answer lib copy = some r)
    (hs : r.status = 200 ∨ r.status = 206 ∨ r.status = 304) :
    ∃ opened c, x.encounter.file = some opened ∧ x.after lib copy = some c ∧
      w.Kept c opened.info := by
  obtain h200 | h206 | h304 := hs
  · exact after_whole hfits hr h200
  · exact after_partial hlib hfits hkept hr h206
  · exact after_notModified hlib hfits hkept hr h304

theorem after_kept (hlib : lib.Dates) (hfits : w.Fits x.encounter)
    (hkept : ∀ c, copy = some c → ∃ file, w.Kept c file) :
    ∀ c, x.after lib copy = some c → ∃ file, w.Kept c file := by
  intro c hc
  cases hr : x.answer lib copy with
  | none =>
    rw [Exchange.after, hr] at hc
    exact hkept c hc
  | some r =>
    by_cases hs : r.status = 200 ∨ r.status = 206 ∨ r.status = 304
    · obtain ⟨opened, c', -, hafter, hc'⟩ := after_current hlib hfits hkept hr hs
      rw [hc] at hafter
      cases hafter
      exact ⟨_, hc'⟩
    · obtain ⟨h200, hmore⟩ := not_or.mp hs
      obtain ⟨h206, -⟩ := not_or.mp hmore
      rw [Exchange.after, hr] at hc
      simp only [if_neg h200, if_neg h206] at hc
      exact hkept c hc

theorem clientRun_kept (hlib : lib.Dates) {exchanges : List Exchange}
    (hfits : ∀ y ∈ exchanges, w.Fits y.encounter) :
    ∀ c, clientRun lib exchanges = some c → ∃ file, w.Kept c file := by
  induction exchanges using List.reverseRecOn with
  | nil => exact nofun
  | append_singleton exchanges x ih =>
    rw [clientRun, List.foldl_append]
    exact after_kept hlib (hfits x (by simp)) (ih fun y hy => hfits y (by simp [hy]))

/-- A client that names its copy by the tag it came with, to revalidate it or to fetch the rest, is
never misled: whatever became of the file, of the settings and of the cache since, and wherever
earlier bodies broke off, after an answer that serves the file its copy is one of the file as it is
now, and whole if it is complete. -/
theorem copy_current (hlib : lib.Dates) (w : Contents) {exchanges : List Exchange} {x : Exchange}
    (hfits : ∀ y ∈ exchanges ++ [x], w.Fits y.encounter) {r : Response}
    (hr : x.answer lib (clientRun lib exchanges) = some r)
    (hs : r.status = 200 ∨ r.status = 206 ∨ r.status = 304) :
    ∃ opened c, x.encounter.file = some opened ∧ clientRun lib (exchanges ++ [x]) = some c ∧
      w.Shows c opened.content := by
  have hx : w.Fits x.encounter := hfits x (by simp)
  have hkept := clientRun_kept hlib fun y hy => hfits y (List.mem_append_left [x] hy)
  obtain ⟨opened, c, hfile, hafter, hc⟩ := after_current hlib hx hkept hr hs
  refine ⟨opened, c, hfile, ?_, ?_⟩
  · rw [clientRun, List.foldl_append]
    exact hafter
  · rw [hx.file opened hfile]
    exact hc.shows_content

end Exchanges

/-- The sample file after a change. -/
def changedFile : OpenFile := ⟨⟨3, 0, 1, 0⟩, [50, 60, 70], rfl, by decide⟩

def sampleContents : Contents where
  content _ modifiedIdentity _ := if modifiedIdentity = 0 then [10, 20, 30, 40] else [50, 60, 70]
  gunzip _ := none

def sampleExchange (plan : Plan) (file : OpenFile) (received : Nat) : Exchange :=
  ⟨plan, none, ⟨false, false, 100⟩, ⟨some file, text ".bsp", none, none⟩, received⟩

theorem sampleExchange_fits {plan : Plan} {file : OpenFile} {received : Nat}
    (h : file = sampleFile ∨ file = changedFile) :
    sampleContents.Fits (sampleExchange plan file received).encounter := by
  refine ⟨fun opened hopened => ?_, fun opened hopened => ?_, fun _ _ _ h => by cases h⟩
  · cases hopened
    obtain rfl | rfl := h
    · rfl
    · rfl
  · cases hopened
    obtain rfl | rfl := h
    · decide
    · decide

theorem epochLibrary_dates : epochLibrary.Dates := by
  have hdate : text "Thu, 01 Jan 1970 00:00:00 GMT" =
      'T' :: "hu, 01 Jan 1970 00:00:00 GMT".toList := text_eq rfl
  refine ⟨?_, fun rest => ?_⟩
  · simp [epochLibrary, hdate]
  · simp [epochLibrary, hdate]

/-- The file changes after two bytes of it, and the body of the new one breaks off after its first. -/
def brokenOff : List Exchange :=
  [sampleExchange .fetch sampleFile 2, sampleExchange .resume changedFile 1]

theorem copy_current_broken : ∃ c,
    clientRun epochLibrary (brokenOff ++ [sampleExchange .resume changedFile 9]) = some c ∧
      sampleContents.Shows c [50, 60, 70] := by
  have hr := (Option.some_get (show ((sampleExchange .resume changedFile 9).answer epochLibrary
    (clientRun epochLibrary brokenOff)).isSome by decide +kernel)).symm
  have hfits : ∀ y ∈ brokenOff ++ [sampleExchange .resume changedFile 9],
      sampleContents.Fits y.encounter := by
    intro y hy
    simp only [brokenOff, List.cons_append, List.nil_append, List.mem_cons, List.not_mem_nil,
      or_false] at hy
    obtain rfl | rfl | rfl := hy
    · exact sampleExchange_fits (.inl rfl)
    · exact sampleExchange_fits (.inr rfl)
    · exact sampleExchange_fits (.inr rfl)
  obtain ⟨opened, c, hfile, hrun, hshows⟩ :=
    copy_current epochLibrary_dates sampleContents hfits hr (by decide +kernel)
  cases hfile
  exact ⟨c, hrun, hshows⟩

end FastdlMm.FastdlServer
