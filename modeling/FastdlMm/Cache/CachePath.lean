import FastdlMm.Files.OwnUrl
import FastdlMm.Framework.MakeDirectories

namespace FastdlMm

/-- `lexically_normal`, with the components so far. A relative path keeps what leads above its
start. -/
def lexicallyNormal (absolute : Bool) : List Name → List Name → List Name
  | cur, [] => cur
  | cur, n :: rest =>
      if n = [] ∨ n = ['.'] then lexicallyNormal absolute cur rest
      else if n = ['.', '.'] then
        if cur = [] ∧ absolute = true then lexicallyNormal absolute cur rest
        else if cur = [] ∨ cur.getLast? = some ['.', '.'] then
          lexicallyNormal absolute (cur ++ [n]) rest
        else lexicallyNormal absolute cur.dropLast rest
      else lexicallyNormal absolute (cur ++ [n]) rest

/-- Components that lead upwards, if the path may be relative, and then names only. -/
def Normal (absolute : Bool) (names : List Name) : Prop :=
  ∃ ups below, names = List.replicate ups ['.', '.'] ++ below ∧ (∀ n ∈ below, Name.Plain n) ∧
    (absolute = true → ups = 0)

/-- A path that is not empty, made normal. -/
structure NormalPath where
  absolute : Bool
  names : List Name
  normal : Normal absolute names

theorem normal_nil (absolute : Bool) : Normal absolute [] := ⟨0, [], rfl, by simp, fun _ => rfl⟩

theorem Normal.snoc {absolute : Bool} {names : List Name} (h : Normal absolute names) {n : Name}
    (hn : n.Plain) : Normal absolute (names ++ [n]) := by
  obtain ⟨ups, below, rfl, hplain, habs⟩ := h
  refine ⟨ups, below ++ [n], List.append_assoc .., fun m hm => ?_, habs⟩
  obtain hm | hm := List.mem_append.mp hm
  · exact hplain m hm
  · rw [List.mem_singleton.mp hm]
    exact hn

/-- A step upwards takes a name back, or is kept. -/
theorem Normal.up {absolute : Bool} {names : List Name} (h : Normal absolute names) :
    Normal absolute names.dropLast ∧
      (¬ (names = [] ∧ absolute = true) → names = [] ∨ names.getLast? = some ['.', '.'] →
        Normal absolute (names ++ [['.', '.']])) := by
  obtain ⟨ups, below, rfl, hplain, habs⟩ := h
  obtain rfl | ⟨init, n, rfl⟩ := List.eq_nil_or_concat below
  · rw [List.append_nil]
    refine ⟨⟨ups - 1, [], ?_, by simp, fun h => by rw [habs h]⟩, fun hno _ => ?_⟩
    · rw [List.dropLast_replicate, List.append_nil]
    · refine ⟨ups + 1, [], ?_, by simp, fun h => ?_⟩
      · rw [List.append_nil, List.replicate_succ']
      · rw [habs h] at hno
        exact absurd ⟨rfl, h⟩ hno
  · rw [List.concat_eq_append, ← List.append_assoc, List.dropLast_concat, List.getLast?_concat]
    have hlast : Name.Plain n := hplain n (by simp)
    refine ⟨⟨ups, init, rfl, fun m hm => hplain m (by simp [hm]), habs⟩, fun _ hup => ?_⟩
    obtain hnil | hup := hup
    · simp at hnil
    · exact absurd (Option.some.inj hup) hlast.2.2

theorem normal_lexicallyNormal {absolute : Bool} (rest : List Name) {cur : List Name}
    (h : Normal absolute cur) : Normal absolute (lexicallyNormal absolute cur rest) := by
  induction rest generalizing cur with
  | nil => exact h
  | cons n rest ih =>
    rw [lexicallyNormal]
    split_ifs with hdot hup hroot hkeep
    · exact ih h
    · exact ih h
    · subst hup
      exact ih (h.up.2 hroot hkeep)
    · exact ih h.up.1
    · exact ih (h.snoc ⟨fun h => hdot (.inl h), fun h => hdot (.inr h), hup⟩)

/-- `absolute` of a path in a working directory. -/
def NormalPath.toAbsolute (p : NormalPath) (cwd : Path) : List Name :=
  if p.absolute then p.names else cwd ++ p.names

/-- The path that the server makes of a configured one; there is none of an empty one. -/
def FastdlServer.resolveAgainstBase (base path : Text) : Option NormalPath :=
  let joined := if path.head? = some '/' ∨ base = [] then path else base ++ '/' :: path
  if joined = [] then none
  else
    let absolute := decide (joined.head? = some '/')
    some ⟨absolute, lexicallyNormal absolute [] (joined.splitOn '/'),
      normal_lexicallyNormal _ (normal_nil absolute)⟩

def MakeError.message : MakeError → Text
  | .walk .noEntry => text "No such file or directory"
  | .walk .notDirectory | .notDirectory => text "Not a directory"
  | .walk .tooManyLinks => text "Too many levels of symbolic links"
  | .fileExists => text "File exists"

namespace CompressionCache

/-- `start` up to the choice of its directory: what it leaves behind in the file system, and the
directory or why there is none. -/
def start (t : Tree) (cwd : Path) (cachePath : Option NormalPath) (contentRoot : Path) :
    Tree × Except Text Path :=
  match t.locate contentRoot with
  | .error _ =>
      (t, .error (text "FastDL content root is not accessible for gzip cache validation"))
  | .ok canonicalContent =>
      match cachePath with
      | none => (t, .error (text "could not make gzip cache path absolute: Invalid argument"))
      | some cachePath =>
          let absoluteCache := cachePath.toAbsolute cwd
          match weaklyCanonical t absoluteCache with
          | .error _ => (t, .error (text "gzip cache must be outside the FastDL content root"))
          | .ok prospectiveCache =>
              if PathResolver.containedBy canonicalContent prospectiveCache ||
                  PathResolver.containedBy prospectiveCache canonicalContent then
                (t, .error (text "gzip cache must be outside the FastDL content root"))
              else
                match createDirectories t [] absoluteCache with
                | (t', some e) =>
                    (t', .error (text "could not create gzip cache: " ++ e.message))
                | (t', none) =>
                    match t'.locate absoluteCache with
                    | .error _ => (t', .error (text "gzip cache is not an accessible directory"))
                    | .ok canonicalCache =>
                        if t'.entry canonicalCache ≠ some .directory then
                          (t', .error (text "gzip cache is not an accessible directory"))
                        else if PathResolver.containedBy canonicalContent canonicalCache ||
                            PathResolver.containedBy canonicalCache canonicalContent then
                          (t', .error (text "gzip cache must be outside the FastDL content root"))
                        else (t', .ok canonicalCache)

end CompressionCache

section Upwards

variable {t : Tree}

theorem existing_suffix {front rest cur more : List Name}
    (h : existing t front rest = .ok (cur, more)) : more <:+ rest := by
  induction rest generalizing front with
  | nil =>
    cases h
    exact List.suffix_rfl
  | cons n rest ih =>
    rw [existing] at h
    split at h
    · exact (ih h).trans (List.suffix_cons n rest)
    · cases h
    · cases h
      exact List.suffix_rfl

/-- From a directory upwards all exists, so that what is missing does not lead upwards. -/
theorem existing_upwards {front below cur more : List Name} {q : Path} {ups : Nat}
    (hfront : t.locate front = .ok q) (hdir : t.entry q = some .directory)
    (hplain : ∀ n ∈ below, Name.Plain n)
    (h : existing t front (List.replicate ups ['.', '.'] ++ below) = .ok (cur, more)) :
    ['.', '.'] ∉ more := by
  induction ups generalizing front q with
  | zero =>
    rw [List.replicate_zero, List.nil_append] at h
    intro hmem
    exact (hplain _ ((existing_suffix h).mem hmem)).2.2 rfl
  | succ ups ih =>
    have hup : t.locate (front ++ [['.', '.']]) = .ok q.dropLast := by
      obtain ⟨left, hon⟩ := t.locate_onward hfront [['.', '.']]
      obtain ⟨expand, hwalk, -⟩ := walk_eq_follow t left
      rw [hon, hwalk]
      simp [follow, hdir]
    rw [List.replicate_succ, List.cons_append, existing, hup] at h
    exact ih hup (t.directory_of_prefix hdir q.dropLast_prefix) h

theorem NormalPath.not_mem_missing (p : NormalPath) {cwd : Path} (hreal : t.Real cwd)
    (hdir : t.entry cwd = some .directory) : ['.', '.'] ∉ missing t (p.toAbsolute cwd) := by
  obtain ⟨ups, below, hnames, hplain, habs⟩ := p.normal
  unfold missing
  split
  · rename_i cur more _ hexisting
    unfold NormalPath.toAbsolute at hexisting
    split_ifs at hexisting with habsolute
    · have hzero := habs habsolute
      subst hzero
      rw [hnames] at hexisting
      exact existing_upwards t.real_top.locate t.top hplain hexisting
    · have hself : t.Real ([] ++ cwd) := hreal
      have hcwd : existing t [] (cwd ++ p.names) = existing t cwd p.names := existing_real hself
      rw [hcwd, hnames] at hexisting
      exact existing_upwards hreal.locate hdir hplain hexisting
  · exact List.not_mem_nil

end Upwards

namespace CompressionCache

variable {t : Tree} {cwd : Path}

/-- A directory beside the content: neither lies in the other. -/
structure Apart (content cache : Path) : Prop where
  outside : ¬ content <+: cache
  around : ¬ cache <+: content

theorem apart_iff {content cache : Path} :
    (PathResolver.containedBy content cache || PathResolver.containedBy cache content) = false ↔
      Apart content cache := by
  rw [Bool.or_eq_false_iff, PathResolver.containedBy, PathResolver.containedBy,
    ← Bool.not_eq_true, ← Bool.not_eq_true, List.isPrefixOf_iff_prefix, List.isPrefixOf_iff_prefix]
  exact ⟨fun h => ⟨h.1, h.2⟩, fun h => ⟨h.outside, h.around⟩⟩

/-- Nothing in the one lies in the other. -/
theorem Apart.disjoint {content cache p : Path} (h : Apart content cache) (hp : content <+: p) :
    ¬ cache <+: p := by
  intro hcache
  obtain hlen | hlen := Nat.le_total content.length cache.length
  · exact h.outside (List.prefix_of_prefix_length_le hp hcache hlen)
  · exact h.around (List.prefix_of_prefix_length_le hcache hp hlen)

/-- What `start` creates lies on the way to a place beside the content, and the directory that it
chooses is such a place itself. -/
theorem start_cases (hreal : t.Real cwd) (hdir : t.entry cwd = some .directory)
    (cachePath : Option NormalPath) {root content : Path} (hroot : t.locate root = .ok content) :
    (∀ x, (start t cwd cachePath root).1.entry x ≠ t.entry x → t.entry x = none ∧
      (start t cwd cachePath root).1.entry x = some .directory ∧ ¬ content <+: x) ∧
    ∀ cache, (start t cwd cachePath root).2 = .ok cache →
      (start t cwd cachePath root).1.Real cache ∧
        (start t cwd cachePath root).1.entry cache = some .directory ∧ Apart content cache := by
  simp only [start, hroot]
  cases cachePath with
  | none => exact ⟨fun x h => absurd rfl h, nofun⟩
  | some p =>
    have hmissing := p.not_mem_missing hreal hdir
    simp only
    generalize p.toAbsolute cwd = absoluteCache at hmissing ⊢
    cases hweak : weaklyCanonical t absoluteCache with
    | error e => exact ⟨fun x h => absurd rfl h, nofun⟩
    | ok prospective =>
      simp only
      by_cases hcontained : (PathResolver.containedBy content prospective ||
          PathResolver.containedBy prospective content) = true
      · rw [if_pos hcontained]
        exact ⟨fun x h => absurd rfl h, nofun⟩
      · rw [if_neg hcontained]
        have hapart := apart_iff.mp (Bool.eq_false_of_not_eq_true hcontained)
        have hcreated : ∀ x, (createDirectories t [] absoluteCache).1.entry x ≠ t.entry x →
            t.entry x = none ∧
              (createDirectories t [] absoluteCache).1.entry x = some .directory ∧
                ¬ content <+: x := by
          intro x hx
          obtain ⟨hnone, hnew, hway⟩ := createDirectories_towards hweak hmissing x hx
          exact ⟨hnone, hnew, fun h => hapart.outside (h.trans hway)⟩
        generalize createDirectories t [] absoluteCache = created at hcreated ⊢
        obtain ⟨t', failed⟩ := created
        cases failed with
        | some e => exact ⟨hcreated, nofun⟩
        | none =>
          simp only
          cases hlocate : t'.locate absoluteCache with
          | error e => exact ⟨hcreated, nofun⟩
          | ok canonicalCache =>
            simp only
            by_cases hdirectory : t'.entry canonicalCache ≠ some .directory
            · rw [if_pos hdirectory]
              exact ⟨hcreated, nofun⟩
            · rw [if_neg hdirectory]
              by_cases hinside : (PathResolver.containedBy content canonicalCache ||
                  PathResolver.containedBy canonicalCache content) = true
              · rw [if_pos hinside]
                exact ⟨hcreated, nofun⟩
              · rw [if_neg hinside]
                refine ⟨hcreated, fun cache hcache => ?_⟩
                cases hcache
                exact ⟨t'.real_of_locate hlocate, not_not.mp hdirectory,
                  apart_iff.mp (Bool.eq_false_of_not_eq_true hinside)⟩

/-- Whatever the settings say, `start` leaves the content root as it is and creates directories
beside it only; and no request, however the file system changes later, is answered with a file of the
cache, nor does the cache write into the content. -/
theorem cache_beside_content (hreal : t.Real cwd) (hdir : t.entry cwd = some .directory)
    (base path : Text) {root content : Path} (hroot : t.locate root = .ok content) :
    (∀ x, (start t cwd (FastdlServer.resolveAgainstBase base path) root).1.entry x ≠ t.entry x →
      t.entry x = none ∧ ¬ content <+: x ∧
        (start t cwd (FastdlServer.resolveAgainstBase base path) root).1.entry x =
          some .directory) ∧
    ∀ cache, (start t cwd (FastdlServer.resolveAgainstBase base path) root).2 = .ok cache →
      (start t cwd (FastdlServer.resolveAgainstBase base path) root).1.Real cache ∧
      (start t cwd (FastdlServer.resolveAgainstBase base path) root).1.entry cache =
        some .directory ∧
      (∀ name, ¬ content <+: cache ++ [name]) ∧
      ∀ (r : PathResolver) (later : Tree) (url : Text) (maxFileBytes : Nat), r.root = content →
        (r.resolve later url maxFileBytes).status = .ok →
          ¬ cache <+: (r.resolve later url maxFileBytes).path := by
  obtain ⟨hcreated, hchosen⟩ := start_cases hreal hdir
    (FastdlServer.resolveAgainstBase base path) hroot
  constructor
  · intro x hx
    obtain ⟨hnone, hnew, hout⟩ := hcreated x hx
    exact ⟨hnone, hout, hnew⟩
  · intro cache hcache
    obtain ⟨hplace, hdirectory, hapart⟩ := hchosen cache hcache
    refine ⟨hplace, hdirectory, fun name hname => ?_, ?_⟩
    · exact hapart.disjoint hname (List.prefix_append cache [name])
    · intro r later url maxFileBytes hr hok
      obtain ⟨-, n, below, hbelow⟩ := PathResolver.resolve_real ⟨hok, rfl⟩
      rw [hbelow, hr]
      exact hapart.disjoint (List.prefix_append content (n :: below))

/-- A directory for the cache is created beside the content, for a path that leads upwards through
it. -/
theorem cache_beside_content_created :
    (start PathResolver.sampleTree [] (FastdlServer.resolveAgainstBase (text "/www/maps")
      (text "../../srv/cache")) [text "www"]).1.entry [text "srv", text "cache"] =
        some .directory ∧ ¬ [text "www"] <+: [text "srv", text "cache"] := by
  have hroot : PathResolver.sampleTree.locate [text "www"] = .ok [text "www"] := by decide +kernel
  have hcreated := (cache_beside_content PathResolver.sampleTree.real_top
    PathResolver.sampleTree.top (text "/www/maps") (text "../../srv/cache") hroot).1
    [text "srv", text "cache"] (by decide +kernel)
  exact ⟨hcreated.2.2, hcreated.2.1⟩

/-- On a path that is not normal, directories may be created on the way down and up again. -/
example : (createDirectories PathResolver.sampleTree []
    [text "a", ['.', '.'], text "www", text "b", ['.', '.'], ['.', '.'], text "cache"]).1.entry
      [text "www", text "b"] = some .directory := by decide +kernel

end CompressionCache
end FastdlMm
