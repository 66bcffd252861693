import FastdlMm.Framework.Separated
import FastdlMm.Framework.Table
import FastdlMm.Framework.Text
import FastdlMm.Files.OpenedFile

namespace FastdlMm.CompressionCache

def kMaximumQueuedJobs : Nat := 1024
def kMaximumCacheEntries : Nat := 16384
def kMaximumMarkerBytes : Nat := 8192

structure CompressionSource where
  path : Text
  extension : Text
  info : OpenedFileInfo
  deriving DecidableEq

def extensions : List Text :=
  [text ".bsp", text ".wad", text ".mdl", text ".spr", text ".wav", text ".bmp", text ".tga",
    text ".txt", text ".res"]

def eligible (source : CompressionSource) : Bool :=
  decide (1024 ≤ source.info.size) && extensions.contains source.extension

def sourceIdentity (source : CompressionSource) : Text :=
  source.path ++ '\n' :: decimal source.info.size ++ '\n' ::
    decimal source.info.modifiedIdentity ++ '\n' :: decimal source.info.fileIdentity ++ ['\n']

def skipIdentity (maxBytes : Nat) (source : CompressionSource) : Text :=
  sourceIdentity source ++ text "skip-policy=5-percent,max-bytes=" ++ decimal maxBytes ++ ['\n']

section

variable {source source' : CompressionSource}

/-- An identity can be read back from its end, where the numbers are: a path may have lines of its
own. -/
theorem sourceIdentity_inj (h : sourceIdentity source = sourceIdentity source') :
    source.path = source'.path ∧ source.info.size = source'.info.size ∧
      source.info.modifiedIdentity = source'.info.modifiedIdentity ∧
      source.info.fileIdentity = source'.info.fileIdentity := by
  have hno (n : Nat) : '\n' ∉ decimal n := not_mem_decimal (by decide) n
  obtain ⟨hmore, hfile⟩ := append_cons_inj (hno _) (hno _) (List.append_cancel_right h)
  obtain ⟨hmore, hmodified⟩ := append_cons_inj (hno _) (hno _) hmore
  obtain ⟨hpath, hsize⟩ := append_cons_inj (hno _) (hno _) hmore
  exact ⟨hpath, decimal_inj hsize, decimal_inj hmodified, decimal_inj hfile⟩

/-- The limit stands behind the last equals sign. -/
theorem skipIdentity_inj {maxBytes maxBytes' : Nat}
    (h : skipIdentity maxBytes source = skipIdentity maxBytes' source') :
    sourceIdentity source = sourceIdentity source' ∧ maxBytes = maxBytes' := by
  have hpolicy : text "skip-policy=5-percent,max-bytes=" =
      text "skip-policy=5-percent,max-bytes" ++ ['='] := by
    rw [text_eq rfl, text_eq rfl]
    rfl
  have hno (n : Nat) : '=' ∉ decimal n := not_mem_decimal (by decide) n
  rw [skipIdentity, skipIdentity, hpolicy] at h
  simp only [← List.append_assoc] at h
  simp only [List.append_assoc _ ['='], List.singleton_append] at h
  obtain ⟨hmore, hmax⟩ := append_cons_inj (hno _) (hno _) (List.append_cancel_right h)
  exact ⟨List.append_cancel_right hmore, decimal_inj hmax⟩

end

def fnv1a (value : Text) (seed : Nat) : Nat :=
  value.foldl (fun hash byte => (hash ^^^ byte.toNat) * 1099511628211 % 2 ^ 64) seed

def cacheKey (identity : Text) : Text :=
  (hexadecimal (fnv1a identity 14695981039346656037)).leftpad 16 '0' ++
    (hexadecimal (fnv1a identity 7809847782465536322)).leftpad 16 '0'

/-- What the name of a cache file carries after its key. -/
inductive Suffix where
  | gzip | metadata | skip | gzipTemp | metadataTemp | skipTemp
  deriving DecidableEq

def Suffix.name : Suffix → Text
  | .gzip => text ".gz"
  | .metadata => text ".meta"
  | .skip => text ".skip"
  | .gzipTemp => text ".gz.tmp"
  | .metadataTemp => text ".meta.tmp"
  | .skipTemp => text ".skip.tmp"

/-- The name of a cache file. -/
def artifact (key : Text) (x : Suffix) : Text := key ++ x.name

/-- `cacheName` of `maintainCache`. -/
def cacheName (name : Text) (x : Suffix) : Bool :=
  name.length == 32 + x.name.length && name.drop 32 == x.name &&
    (name.take 32).all fun c => c.isDigit || ('a' ≤ c && c ≤ 'f') || ('A' ≤ c && c ≤ 'F')

/-- A file of the cache directory. `completedFor` is history: the identity of the job whose run wrote
the file to its end. -/
structure File where
  data : Text
  modified : Int
  completedFor : Option Text := none
  deriving DecidableEq

abbrev Directory := Table Text File

structure Job where
  source : CompressionSource
  identity : Text
  key : Text
  deriving DecidableEq

structure CachedRepresentation where
  path : Text
  size : Nat
  deriving DecidableEq

/-- What `maintainCache` keeps of a representation. -/
structure Entry where
  path : Text
  size : Nat
  modified : Int
  deriving DecidableEq

inductive Flush where
  | noFlush
  | finish

inductive DeflateStatus where
  | ok
  | streamEnd
  | failed
  deriving DecidableEq

/-- What one call of `mz_deflate` leaves behind. -/
structure Deflated (σ : Type) where
  status : DeflateStatus
  consumed : Nat
  output : Text
  stream : σ

/-- The compressor the cache links. `deflate` gets `next_in` and `avail_out`. -/
structure Miniz where
  Stream : Type
  deflateInit : Option Stream
  deflate : Stream → Flush → Text → Nat → Deflated Stream
  crc32 : Nat → Text → Nat

/-- What holds from one `start` to the next, with the hash that turns an identity into a key. -/
structure Settings where
  cacheKey : Text → Text
  miniz : Miniz
  maxBytes : Nat
  hasResolver : Bool

def Settings.job (s : Settings) (source : CompressionSource) : Job :=
  ⟨source, sourceIdentity source, s.cacheKey (sourceIdentity source)⟩

private theorem name_eq_of_suffix {x y : Suffix} (h : x.name <:+ y.name) : x = y := by
  revert h
  cases x <;> cases y <;> simp only [Suffix.name, text] <;> decide

@[simp] theorem artifact_inj {key key' : Text} {x y : Suffix} :
    artifact key x = artifact key' y ↔ key = key' ∧ x = y := by
  constructor
  · intro h
    have hx : x.name <:+ artifact key x := List.suffix_append _ _
    have hy : y.name <:+ artifact key x := h ▸ List.suffix_append _ _
    have hxy : x = y := by
      rcases List.suffix_or_suffix_of_suffix hx hy with hs | hs
      · exact name_eq_of_suffix hs
      · exact (name_eq_of_suffix hs).symm
    subst hxy
    exact ⟨List.append_cancel_right h, rfl⟩
  · intro ⟨hkey, hx⟩
    rw [hkey, hx]

end FastdlMm.CompressionCache
