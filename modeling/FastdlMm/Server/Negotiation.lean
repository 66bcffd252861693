import FastdlMm.Files.OpenedFile
import FastdlMm.Server.Headers

namespace FastdlMm.FastdlServer

/-- What `strtod` makes of a text: a finite value, if it is one, and how much of it was read. -/
structure Strtod where
  value : Option Rat
  consumed : Nat

/-- The parts of the C and C++ libraries behind dates and numbers: `put_time` after `gmtime_r`, which
may fail, `timegm` after `get_time`, and `strtod`. -/
structure CLibrary where
  putTime : Int → Option Text
  getTime : Text → Option Int
  strtod : Text → Strtod

def httpDate (lib : CLibrary) (seconds : Int) : Text := (lib.putTime seconds).getD []

def parseHttpDate (lib : CLibrary) (value : Text) : Option Int :=
  (lib.getTime value).filter (fun converted => 0 ≤ converted)

def makeEtag (file : OpenedFileInfo) (gzip : Bool := false) : Text :=
  ['"'] ++ hexadecimal file.size ++ ['-'] ++ hexadecimal file.modifiedIdentity ++ ['-'] ++
    hexadecimal file.fileIdentity ++ (if gzip then text "-gz" else []) ++ ['"']

def validQuality (lib : CLibrary) (value : Text) : Bool :=
  let value := cString value
  let read := lib.strtod value
  read.consumed ≠ 0 && read.consumed = value.length &&
    match read.value with
    | some quality => 0 < quality && quality ≤ 1
    | none => false

/-- Only a `q` parameter can forbid a coding. -/
def parameterAllows (lib : CLibrary) (raw : Text) : Bool :=
  let parameter := lowerAscii (trimAscii raw)
  if (text "q=").isPrefixOf parameter then validQuality lib (parameter.drop 2) else true

/-- The loop of `acceptsGzip` over the elements between commas. -/
def acceptsGzipFrom (lib : CLibrary) (wildcard wildcardAllowed : Bool) : List Text → Bool
  | [] => wildcard && wildcardAllowed
  | element :: rest =>
      let parts := (trimAscii element).splitOn ';'
      let coding := lowerAscii (trimAscii (parts.headD []))
      let allowed := parts.tail.all (parameterAllows lib)
      if coding = text "gzip" then allowed
      else if coding = text "*" then acceptsGzipFrom lib true allowed rest
      else acceptsGzipFrom lib wildcard wildcardAllowed rest

def acceptsGzip (lib : CLibrary) (raw : Text) : Bool :=
  acceptsGzipFrom lib false false (raw.splitOn ',')

/-- An entity tag without its mark of weakness. -/
def strongTag (candidate : Text) : Text :=
  if (text "W/").isPrefixOf candidate || (text "w/").isPrefixOf candidate then
    trimAscii (candidate.drop 2)
  else candidate

def etagMatches (raw etag : Text) : Bool :=
  (raw.splitOn ',').any (fun element =>
    trimAscii element = text "*" || strongTag (trimAscii element) = etag)

def ifRangeMatches (lib : CLibrary) (raw etag : Text) (modifiedSeconds : Int) : Bool :=
  let value := trimAscii raw
  value = [] || value = etag ||
    match parseHttpDate lib value with
    | some date => modifiedSeconds ≤ date
    | none => false

end FastdlMm.FastdlServer
