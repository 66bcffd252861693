import FastdlMm.Server.Negotiation

namespace FastdlMm.FastdlServer

/-- The settings that `serveFile` reads. -/
structure FastdlConfig where
  gzip : Bool
  gzipCache : Bool
  maxFileBytes : Nat

inductive Method where
  | get
  | head
  deriving DecidableEq

inductive Field where
  | contentType
  | cacheControl
  | acceptRanges
  | etag
  | lastModified
  | vary
  | contentEncoding
  | contentRange
  deriving DecidableEq

/-- What a response is made of: a fixed text, or a slice of a descriptor for `fileReader`. -/
inductive Body where
  | fixed (value : Text)
  | file (descriptor : OpenFile) (sourceOffset length : Nat)

/-- The bytes that a client is to get. -/
def Body.bytes : Body → List UInt8
  | .fixed value => value.map (fun c => UInt8.ofNat c.toNat)
  | .file descriptor sourceOffset length => (descriptor.content.drop sourceOffset).take length

/-- A queued response, with what `RequestState` keeps of it. -/
structure Response where
  status : Nat
  fields : List (Field × Text)
  body : Body
  fileResponse : Bool
  responseSize : Nat
  reason : Text
  activeTransfer : Bool := false

/-- What one call of `serveFile` meets: the inspected descriptor of the resolved path, if it could be
opened, the size that a successful cache lookup gave, and what then lay at the cached path. -/
structure Encounter where
  file : Option OpenFile
  extension : Text
  lookup : Option Nat
  cachedFile : Option OpenFile

/-- libmicrohttpd refuses a header value that is empty or has a tab or a line end in it. -/
def addHeader (value : Text) : Bool :=
  value ≠ [] && value.all (fun c => c ≠ '\t' && c ≠ '\r' && c ≠ '\n')

def queue (response : Response) : Option Response :=
  if response.fields.all (fun f => addHeader f.2) then some response else none

def respondText (status : Nat) (body reason : Text) : Option Response :=
  queue
    { status := status
      fields := [(.contentType, text "text/plain; charset=utf-8"),
        (.cacheControl, text "no-store")]
      body := .fixed body
      fileResponse := false
      responseSize := body.length
      reason := reason }

def respondRangeError (totalSize : Nat) : Option Response :=
  let body := text "416 Range Not Satisfiable\n"
  queue
    { status := 416
      fields := [(.contentType, text "text/plain; charset=utf-8"),
        (.cacheControl, text "no-store"), (.acceptRanges, text "bytes"),
        (.contentRange, text "bytes */" ++ decimal totalSize)]
      body := .fixed body
      fileResponse := false
      responseSize := body.length
      reason := text "invalid or unsatisfiable range" }

def contentType (extension : Text) : Text :=
  if extension = text ".html" ∨ extension = text ".htm" then text "text/html"
  else if extension = text ".txt" ∨ extension = text ".res" then text "text/plain"
  else if extension = text ".wav" then text "audio/wav"
  else if extension = text ".mp3" then text "audio/mpeg"
  else if extension = text ".bmp" then text "image/bmp"
  else if extension = text ".tga" then text "image/x-tga"
  else if extension = text ".bz2" then text "application/x-bzip2"
  else if extension = text ".gz" then text "application/gzip"
  else text "application/octet-stream"

/-- The artifact of the cache, if the descriptor opened for it has the size the lookup gave. -/
def cachedArtifact (e : Encounter) : Option OpenFile :=
  match e.lookup, e.cachedFile with
  | some size, some artifact => if artifact.info.size = size then some artifact else none
  | _, _ => none

/-- The artifact that takes the place of the file when no range is served. -/
def gzipArtifact (lib : CLibrary) (config : FastdlConfig) (headers : Headers) (e : Encounter) :
    Option OpenFile :=
  if config.gzip && config.gzipCache && acceptsGzip lib (header headers .acceptEncoding 1024) then
    cachedArtifact e
  else none

def notModified (lib : CLibrary) (headers : Headers) (etag : Text) (modifiedSeconds : Int) : Bool :=
  let ifNoneMatch := header headers .ifNoneMatch 2048
  if ifNoneMatch = [] then
    match parseHttpDate lib (header headers .ifModifiedSince 128) with
    | some condition => modifiedSeconds ≤ condition
    | none => false
  else etagMatches ifNoneMatch etag

/-- The headers that depend on the configuration and the representation. -/
def variantFields (config : FastdlConfig) (compressed : Bool) : List (Field × Text) :=
  (if config.gzip then [(.vary, text "Accept-Encoding")] else []) ++
    (if compressed then [(.contentEncoding, text "gzip")] else [])

def respondNotModified (config : FastdlConfig) (etag lastModified : Text) (compressed : Bool) :
    Option Response :=
  queue
    { status := 304
      fields := [(.acceptRanges, text "bytes"),
        (.cacheControl, text "public, max-age=86400"), (.etag, etag),
        (.lastModified, lastModified)] ++ variantFields config compressed
      body := .fixed []
      fileResponse := true
      responseSize := 0
      reason := text "not modified" }

/-- The value of `Content-Range` on a partial response. -/
def contentRange (offset length total : Nat) : Text :=
  let last := wrapSub 64 (wrapAdd 64 offset length) 1
  text "bytes " ++ decimal offset ++ ['-'] ++ decimal last ++ ['/'] ++ decimal total

/-- The part of `serveFile` after the conditional headers. -/
def respondFile (config : FastdlConfig) (method : Method) (extension : Text) (total : Nat)
    (range : ByteRange) (descriptor : OpenFile) (length : Nat) (etag lastModified : Text)
    (compressed : Bool) : Option Response :=
  let isPartial := decide (range.status = .valid)
  let offset := if isPartial then range.start else 0
  queue
    { status := if isPartial then 206 else 200
      fields := [(.contentType, contentType extension),
        (.cacheControl, text "public, max-age=86400"), (.acceptRanges, text "bytes"),
        (.etag, etag), (.lastModified, lastModified)] ++ variantFields config compressed ++
        (if isPartial then [(.contentRange, contentRange offset length total)] else [])
      body := .file descriptor offset length
      fileResponse := true
      responseSize := length
      reason := []
      activeTransfer := decide (method = .get) }

/-- `serveFile` once the range to serve is known. -/
def serveRange (lib : CLibrary) (config : FastdlConfig) (method : Method) (headers : Headers)
    (e : Encounter) (opened : OpenFile) (range : ByteRange) : Option Response :=
  let isPartial := decide (range.status = .valid)
  let artifact := if isPartial then none else gzipArtifact lib config headers e
  let compressed := artifact.isSome
  let descriptor := artifact.getD opened
  let length := if isPartial then range.length else descriptor.info.size
  let etag := makeEtag opened.info compressed
  let lastModified := httpDate lib opened.info.modifiedSeconds
  if notModified lib headers etag opened.info.modifiedSeconds then
    respondNotModified config etag lastModified compressed
  else
    respondFile config method e.extension opened.info.size range descriptor length etag
      lastModified compressed

/-- `MHD_NO` is `none`; `dispatch` then answers with an internal error. -/
def serveFile (lib : CLibrary) (config : FastdlConfig) (method : Method) (headers : Headers)
    (e : Encounter) : Option Response :=
  match e.file with
  | none => none
  | some opened =>
      if config.maxFileBytes < opened.info.size then
        respondText 403 (text "403 Forbidden\n") (text "file too large")
      else
        let range := parseRange (header headers .range 256) opened.info.size
        if range.status = .invalid ∨ range.status = .unsatisfiable then
          respondRangeError opened.info.size
        else if range.status = .valid ∧
            ifRangeMatches lib (header headers .ifRange 512) (makeEtag opened.info)
              opened.info.modifiedSeconds = false then
          serveRange lib config method headers e opened {}
        else serveRange lib config method headers e opened range

end FastdlMm.FastdlServer
