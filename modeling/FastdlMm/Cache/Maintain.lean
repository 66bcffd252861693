import FastdlMm.Cache.Operations

namespace FastdlMm.CompressionCache

def markerMatches (name identity : Text) : CacheProgram Bool := do
  if !(← ask (.regularArtifact name)) then return false
  let some size ← ask (.fileSize name) | return false
  if size ≠ identity.length then return false
  let some stored ← ask (.read name identity.length) | return false
  return stored = identity

/-- The path in the first line of a marker, if that line is ended and not empty. -/
def markerPath (stored : Text) : Option Text :=
  let line := stored.takeWhile (· ≠ '\n')
  if line.length = stored.length ∨ line = [] then none else some line

/-- `describe` is the way back from the stored path: `relative`, `resolve`, and a look at the file
that is served there now. -/
def markerCurrent (s : Settings) (name : Text) (skip : Bool) : CacheProgram Bool := do
  if !(← ask (.regularArtifact name)) then return false
  let some size ← ask (.fileSize name) | return false
  if size = 0 ∨ kMaximumMarkerBytes < size then return false
  let some stored ← ask (.read name size) | return false
  let some path := markerPath stored | return false
  if !s.hasResolver then return false
  let some source ← ask (.describe path) | return false
  return stored = if skip then skipIdentity s.maxBytes source else sourceIdentity source

def removeRepresentation (key : Text) : CacheProgram Unit := do
  ask (.remove (artifact key .gzip))
  ask (.remove (artifact key .metadata))

/-- `std::uint64_t` addition that stops at the largest value. -/
def addSize (left right : Nat) : Nat := min (left + right) (2 ^ 64 - 1)

/-- The entries `maintainCache` has kept so far, a heap in the source, and their total size. -/
structure Kept where
  files : List Entry := []
  total : Nat := 0

def Kept.push (k : Kept) (e : Entry) : Kept := ⟨e :: k.files, addSize k.total e.size⟩

def Kept.pop (k : Kept) (e : Entry) : Kept :=
  ⟨k.files.erase e, if k.total ≤ e.size then 0 else k.total - e.size⟩

/-- The key of a cache name. `replace_extension` finds the other files of the key from it. -/
def keyOf (name : Text) : Text := name.take 32

/-- A valid representation enters the heap, in the place of an older one when there are too many. -/
def keepNewest (k : Kept) (candidate : Entry) : CacheProgram Kept := do
  if k.files.length < kMaximumCacheEntries then return k.push candidate
  let oldest ← ask (.oldest k.files)
  if oldest.modified < candidate.modified then
    removeRepresentation (keyOf oldest.path)
    return (k.pop oldest).push candidate
  else
    removeRepresentation (keyOf candidate.path)
    return k

/-- What the walk does with a `.gz` file. -/
def considerArtifact (s : Settings) (name : Text) (k : Kept) : CacheProgram Kept := do
  let key := keyOf name
  if !(← ask (.regularArtifact name)) then
    removeRepresentation key
    return k
  if !(← markerCurrent s (artifact key .metadata) false) then
    removeRepresentation key
    return k
  let some size ← ask (.fileSize name) | do
    removeRepresentation key
    return k
  if size < 18 then
    removeRepresentation key
    return k
  let some modified ← ask (.lastWriteTime name) | do
    removeRepresentation key
    return k
  keepNewest k ⟨name, size, modified⟩

/-- One entry of the walk over the cache directory. -/
def considerEntry (s : Settings) (name : Text) (k : Kept) : CacheProgram Kept := do
  if cacheName name .gzipTemp || cacheName name .metadataTemp || cacheName name .skipTemp then
    ask (.remove name)
    return k
  if cacheName name .skip then
    if !(← markerCurrent s name true) then ask (.remove name)
    return k
  if cacheName name .metadata then
    if !(← ask (.regularArtifact (artifact (keyOf name) .gzip))) then ask (.remove name)
    return k
  if !cacheName name .gzip then return k
  considerArtifact s name k

/-- The walk; nothing comes back when `stop` cuts it short. -/
def walkCache (s : Settings) : List Text → Kept → CacheProgram (Option Kept)
  | [], k => return some k
  | name :: names, k => do
      if !(← ask (.nextEntry name)) then walkCache s names k
      else if ← ask .stopping then return none
      else
        let k ← considerEntry s name k
        walkCache s names k

/-- The oldest entries go until the total is down to `target`; `n` counts the entries. -/
def prune (target : Nat) : Nat → Kept → CacheProgram Kept
  | 0, k => return k
  | n + 1, k => do
      if k.total ≤ target ∨ k.files = [] then return k
      let oldest ← ask (.oldest k.files)
      removeRepresentation (keyOf oldest.path)
      prune target n (k.pop oldest)

/-- Over budget, the cache is cut back to a tenth below it. -/
def pruneToBudget (maxBytes : Nat) (k : Kept) : CacheProgram Kept :=
  if maxBytes < k.total then prune (maxBytes - maxBytes / 10) k.files.length k else return k

def maintainCache (s : Settings) : CacheProgram Unit := do
  let names ← ask .listDirectory
  let some k ← walkCache s (names.getD []) {} | return ()
  let k ← pruneToBudget s.maxBytes k
  ask (.setCounters k.files.length k.total)

theorem markerMatches_asks (name identity : Text) :
    (markerMatches name identity).Asks Op.Reads := by
  refine .query trivial fun regular => ?_
  split
  · trivial
  refine .query trivial fun size => ?_
  split
  · split
    · trivial
    refine .query trivial fun stored => ?_
    split <;> trivial
  · trivial

theorem markerCurrent_peeks (s : Settings) (name : Text) (skip : Bool) :
    (markerCurrent s name skip).Asks Op.Peeks := by
  refine .query trivial fun regular => ?_
  split
  · trivial
  refine .query trivial fun size => ?_
  split
  · split
    · trivial
    refine .query trivial fun stored => ?_
    split
    · split
      · split
        · trivial
        refine .query trivial fun source => ?_
        split <;> trivial
      · trivial
    · trivial
  · trivial

theorem markerCurrent_checks (s : Settings) (name : Text) (skip : Bool) :
    (markerCurrent s name skip).Asks Op.Checks :=
  (markerCurrent_peeks s name skip).mono checks_of_peeks

theorem markerCurrent_asks (s : Settings) (name : Text) (skip : Bool) :
    (markerCurrent s name skip).Asks Op.Reads :=
  (markerCurrent_checks s name skip).mono reads_of_checks

theorem removeRepresentation_sweeps (key : Text) :
    (removeRepresentation key).Asks Op.Sweeps :=
  .query trivial fun _ => ⟨trivial, fun _ => trivial⟩

theorem keepNewest_sweeps (k : Kept) (candidate : Entry) :
    (keepNewest k candidate).Asks Op.Sweeps := by
  unfold keepNewest
  split
  · trivial
  refine .query trivial fun oldest => ?_
  split
  · exact (removeRepresentation_sweeps _).bind fun _ => trivial
  · exact (removeRepresentation_sweeps _).bind fun _ => trivial

theorem considerArtifact_sweeps (s : Settings) (name : Text) (k : Kept) :
    (considerArtifact s name k).Asks Op.Sweeps := by
  have hremove : (removeRepresentation (keyOf name) >>= fun _ => pure k).Asks Op.Sweeps :=
    (removeRepresentation_sweeps _).bind fun _ => trivial
  refine .query trivial fun regular => ?_
  split
  · exact hremove
  refine ((markerCurrent_checks s _ false).mono sweeps_of_checks).bind fun current => ?_
  split
  · exact hremove
  refine .query trivial fun size => ?_
  split
  · split
    · exact hremove
    refine .query trivial fun modified => ?_
    split
    · exact keepNewest_sweeps k _
    · exact hremove
  · exact hremove

theorem considerEntry_sweeps (s : Settings) (name : Text) (k : Kept) :
    (considerEntry s name k).Asks Op.Sweeps := by
  have hremove : (ask (.remove name) >>= fun _ => pure k).Asks Op.Sweeps :=
    .query trivial fun _ => trivial
  unfold considerEntry
  split
  · exact hremove
  split
  · refine ((markerCurrent_checks s name true).mono sweeps_of_checks).bind fun current => ?_
    split
    · exact hremove
    · trivial
  split
  · refine .query trivial fun regular => ?_
    split
    · exact hremove
    · trivial
  split
  · trivial
  · exact considerArtifact_sweeps s name k

theorem walkCache_sweeps (s : Settings) (names : List Text) (k : Kept) :
    (walkCache s names k).Asks Op.Sweeps := by
  induction names generalizing k with
  | nil => trivial
  | cons name names ih =>
    refine .query trivial fun yielded => ?_
    split
    · exact ih k
    refine .query trivial fun stopping => ?_
    split
    · trivial
    · exact (considerEntry_sweeps s name k).bind ih

theorem prune_sweeps (target n : Nat) (k : Kept) : (prune target n k).Asks Op.Sweeps := by
  induction n generalizing k with
  | zero => trivial
  | succ n ih =>
    unfold prune
    split
    · trivial
    · exact .query trivial fun oldest => (removeRepresentation_sweeps _).bind fun _ => ih _

theorem maintainCache_sweeps (s : Settings) : (maintainCache s).Asks Op.Sweeps := by
  refine .query trivial fun names => ?_
  refine (walkCache_sweeps s _ _).bind fun k => ?_
  split
  · have hprune (k : Kept) : (pruneToBudget s.maxBytes k).Asks Op.Sweeps := by
      unfold pruneToBudget
      split
      · exact prune_sweeps _ _ k
      · trivial
    exact (hprune _).bind fun k => ⟨trivial, fun _ => trivial⟩
  · trivial

/-- Maintenance removes files and sets the counters, and changes nothing else. -/
theorem maintainCache_asks (s : Settings) : (maintainCache s).Asks Op.Maintains :=
  (maintainCache_sweeps s).mono maintains_of_sweeps

end FastdlMm.CompressionCache
