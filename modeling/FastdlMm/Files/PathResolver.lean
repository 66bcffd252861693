import FastdlMm.Framework.FileTree

namespace FastdlMm

inductive ResolveStatus where
  | ok
  | invalidPath
  | outsideRoot
  | notFound
  | notAFile
  | directoryDenied
  | extensionDenied
  | tooLarge
  | ioError
  deriving DecidableEq

structure ResolvedFile where
  status : ResolveStatus := .invalidPath
  path : Path := []
  size : Nat := 0
  extension : Text := []
  deriving DecidableEq

structure PathResolver where
  root : Path
  dirs : List Text
  types : List Text
  rootTypes : List Text
  allDirs : Bool
  allTypes : Bool
  allRootTypes : Bool
  deriving DecidableEq

namespace PathResolver

/-- The items between commas without their blanks, in lower case; empty ones are dropped. -/
def splitList (value : Text) : List Text :=
  (value.splitOn ',').filterMap (fun item =>
    if trimAscii item = [] then none else some (lowerAscii (trimAscii item)))

def withDot (item : Text) : Text := if item.head? = some '.' then item else '.' :: item

/-- The extensions of a list of types; `*` is not one of them. -/
def typeList (value : Text) : List Text :=
  ((splitList value).filter (· ≠ ['*'])).map withDot

def configure (t : Tree) (root : Path) (dirs types rootTypes : Text) : Except Text PathResolver :=
  match t.locate root with
  | .error _ => .error (text "root is not an accessible directory")
  | .ok canonical =>
      if t.entry canonical ≠ some .directory then
        .error (text "root is not an accessible directory")
      else
        .ok
          { root := canonical
            dirs := splitList dirs
            types := typeList types
            rootTypes := typeList rootTypes
            allDirs := decide (['*'] ∈ splitList dirs)
            allTypes := decide (['*'] ∈ splitList types)
            allRootTypes := decide (['*'] ∈ splitList rootTypes) }

def allowedDirectory (r : PathResolver) (name : Text) : Bool := r.allDirs || r.dirs.contains name

def allowedExtension (r : PathResolver) (extension : Text) : Bool :=
  r.allTypes || r.types.contains extension

def allowedRootExtension (r : PathResolver) (extension : Text) : Bool :=
  r.allRootTypes || r.rootTypes.contains extension

def servesRootFiles (r : PathResolver) : Bool := r.allRootTypes || !r.rootTypes.isEmpty

/-- A byte that no request path may have. -/
def unsafeByte (c : Char) : Bool :=
  c.toNat < 0x20 || c.toNat = 0x7f || c.toNat = 0x5c || c = ':' || c = '?' || c = '#'

/-- The loop of `validate` over the pieces between slashes. -/
def collectComponents (components : List Name) : List Text → Option (List Name)
  | [] => some components
  | piece :: rest =>
      if piece ≠ [] ∧ (piece = ['.'] ∨ piece = ['.', '.'] ∨ 255 < piece.length) then none
      else
        let components := if piece = [] then components else components ++ [piece]
        if 12 < components.length then none else collectComponents components rest

/-- The components of an acceptable URL. -/
def validate (rawUrl : Text) : Option Path :=
  let input := rawUrl.takeWhile (fun c => c.toNat ≠ 0)
  if input = [] ∨ 2048 < input.length ∨ input.head? ≠ some '/' then none
  else if input.any unsafeByte then none
  else (collectComponents [] (input.tail.splitOn '/')).filter (· ≠ [])

def containedBy (root candidate : Path) : Bool := root.isPrefixOf candidate

/-- Lowercase components below the root. -/
def componentsUnder (root candidate : Path) : List Text :=
  if candidate.length < root.length then [] else (candidate.drop root.length).map lowerAscii

/-- `path::extension` of a file name: from its last dot on, unless that is its first byte. -/
def extensionOf (filename : Name) : Text :=
  let tail := (filename.reverse.takeWhile (· ≠ '.')).reverse
  if filename = ['.', '.'] ∨ filename.length ≤ tail.length + 1 then [] else '.' :: tail

/-- The checks of `resolve` on a regular file below the root. -/
def checkFile (r : PathResolver) (relative candidate : Path) (size maxBytes : Nat) :
    ResolvedFile :=
  let parts := componentsUnder r.root candidate
  let extension := lowerAscii (extensionOf (candidate.getLastD []))
  let requestedRootLevel := decide (relative.length = 1)
  if (requestedRootLevel && (decide (parts.length ≠ 1) || !r.allowedRootExtension extension)) ||
      (!requestedRootLevel && (decide (parts.length < 2) || !r.allowedDirectory (parts.headD [])))
  then { status := .directoryDenied, extension := extension }
  else if !r.allowedExtension extension then
    { status := .extensionDenied, extension := extension }
  else if maxBytes < size then { status := .tooLarge, size := size, extension := extension }
  else { status := .ok, path := candidate, size := size, extension := extension }

def resolve (r : PathResolver) (t : Tree) (rawUrl : Text) (maxBytes : Nat) : ResolvedFile :=
  match validate rawUrl with
  | none => {}
  | some relative =>
      match t.locate (r.root ++ relative) with
      | .error .noEntry => { status := .notFound }
      | .error _ => { status := .ioError }
      | .ok candidate =>
          if !containedBy r.root candidate then { status := .outsideRoot }
          else
            match t.entry candidate with
            | some (.file _ size) => checkFile r relative candidate size maxBytes
            | _ => { status := .notAFile }

end PathResolver
end FastdlMm
