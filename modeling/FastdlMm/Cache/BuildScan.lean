import FastdlMm.Cache.MarkerPath
import FastdlMm.Files.Allowlists
import FastdlMm.Framework.TreeWalk

namespace FastdlMm

namespace PathResolver

variable {t : Tree}

def containsPath (r : PathResolver) (t : Tree) (path : Path) : Bool :=
  match t.locate path with
  | .ok canonical => containedBy r.root canonical
  | .error _ => false

/-- What the loop of `scanDirectories` makes of one entry of the root. -/
def addDirectory (r : PathResolver) (t : Tree) (directories : List Path) (name : Name) :
    List Path :=
  match t.locate (r.root ++ [name]) with
  | .error _ => directories
  | .ok canonical =>
      if t.entry canonical ≠ some .directory ∨ !containedBy r.root canonical then directories
      else
        let parts := componentsUnder r.root canonical
        if parts.length ≠ 1 ∨ !r.allowedDirectory (parts.headD []) then directories
        else if canonical ∈ directories then directories
        else directories ++ [canonical]

/-- The names that a `directory_iterator` gives, wherever the path leads. -/
def readDirectory (l : Listing t) (path : Path) : List Name :=
  match t.locate path with
  | .ok place => l.names place
  | .error _ => []

def scanDirectories (r : PathResolver) (l : Listing t) : List Path :=
  (readDirectory l r.root).foldl (r.addDirectory t) []

end PathResolver

namespace CompressionCache

variable {t : Tree}

/-- The files in the root that the first loop of `scanAndBuild` comes to. -/
def rootFiles (r : PathResolver) (l : Listing t) : List Path :=
  match t.locate r.root with
  | .ok place =>
      ((l.names place).filter (fun n => t.isFile (place ++ [n]))).map (fun n => r.root ++ [n])
  | .error _ => []

/-- The paths that `scanAndBuild` calls `process` with, in order, until it is told to stop. -/
def scannedPaths (r : PathResolver) (l : Listing t) : List Path :=
  (if r.servesRootFiles then rootFiles r l else []) ++
    (r.scanDirectories l).flatMap (l.files (r.containsPath t) l.height)

/-- The URL that `process` makes of a path. -/
def ownUrl (r : PathResolver) (path : Path) : Text := '/' :: joined (lexicallyRelative path r.root)

/-- What `markerMatches` finds where no look at the directory fails. -/
def Store.holds (s : Store) (name identity : Text) : Bool :=
  (s.file name).any fun f => decide (f.data = identity)

/-- What `process` asks before it marks the key of a source: whether the source is eligible, has no
representation of its own, and is none to be skipped. -/
def wanted (S : Settings) (s : Store) (source : CompressionSource) : Bool :=
  let job := S.job source
  eligible source &&
    !(s.holds (artifact job.key .metadata) job.identity &&
      (s.file (artifact job.key .gzip)).isSome) &&
    !s.holds (artifact job.key .skip) (skipIdentity S.maxBytes source)

/-- The source that `process` makes of a path and goes on to compress, with the cache directory as
it is by then. -/
def processed (S : Settings) (r : PathResolver) (t : Tree) (times : Inode → Int × Nat)
    (maxFileBytes : Nat) (s : Store) (path : Path) : Option CompressionSource :=
  (resolvedSource r t times maxFileBytes (ownUrl r path)).filter (wanted S s)

/-- All that the scan goes on to compress, where `s` is the cache directory at the turn of each
path. -/
def compressed (S : Settings) (r : PathResolver) (l : Listing t) (times : Inode → Int × Nat)
    (maxFileBytes : Nat) (s : Path → Store) : List CompressionSource :=
  (scannedPaths r l).filterMap fun p => processed S r t times maxFileBytes (s p) p

end CompressionCache

namespace PathResolver

variable {t : Tree} {r : PathResolver}

/-- A directory that an entry of the root leads to and that is to be scanned. -/
structure Picks (r : PathResolver) (t : Tree) (name : Name) (p : Path) : Prop where
  locate : t.locate (r.root ++ [name]) = .ok p
  directory : t.entry p = some .directory
  inside : containedBy r.root p = true
  direct : (componentsUnder r.root p).length = 1
  allowed : r.allowedDirectory ((componentsUnder r.root p).headD []) = true

/-- An entry of the root adds the directory it leads to, unless that is there already. -/
theorem addDirectory_cases (r : PathResolver) (t : Tree) (directories : List Path) (name : Name) :
    ((∀ p, ¬ r.Picks t name p) ∧ r.addDirectory t directories name = directories) ∨
    ∃ p, r.Picks t name p ∧ (∀ q, r.Picks t name q → q = p) ∧
      ((p ∈ directories ∧ r.addDirectory t directories name = directories) ∨
        (p ∉ directories ∧ r.addDirectory t directories name = directories ++ [p])) := by
  unfold addDirectory
  split
  · rename_i hlocate
    refine .inl ⟨fun p h => ?_, rfl⟩
    rw [h.locate] at hlocate
    cases hlocate
  · rename_i canonical hlocate
    have hsame : ∀ p, r.Picks t name p → p = canonical := by
      intro p h
      rw [h.locate] at hlocate
      exact Except.ok.inj hlocate
    by_cases hplace : t.entry canonical ≠ some .directory ∨ (!containedBy r.root canonical) = true
    · refine .inl ⟨fun p h => ?_, if_pos hplace⟩
      obtain rfl := hsame p h
      simp [h.directory, h.inside] at hplace
    · simp only [if_neg hplace]
      by_cases hparts : (componentsUnder r.root canonical).length ≠ 1 ∨
          (!r.allowedDirectory ((componentsUnder r.root canonical).headD [])) = true
      · refine .inl ⟨fun p h => ?_, if_pos hparts⟩
        obtain rfl := hsame p h
        rw [h.direct, h.allowed] at hparts
        simp at hparts
      · simp only [if_neg hparts]
        obtain ⟨hdirectory, hinside⟩ := not_or.mp hplace
        obtain ⟨hdirect, hallowed⟩ := not_or.mp hparts
        refine .inr ⟨canonical, ⟨hlocate, not_not.mp hdirectory, ?_, not_not.mp hdirect, ?_⟩,
          hsame, ?_⟩
        · simpa using hinside
        · simpa using hallowed
        · by_cases hmem : canonical ∈ directories
          · exact .inl ⟨hmem, if_pos hmem⟩
          · exact .inr ⟨hmem, if_neg hmem⟩

theorem foldl_addDirectory (names : List Name) {directories : List Path} (h : directories.Nodup) :
    (names.foldl (r.addDirectory t) directories).Nodup ∧
      ∀ p, p ∈ names.foldl (r.addDirectory t) directories ↔
        p ∈ directories ∨ ∃ n ∈ names, r.Picks t n p := by
  induction names generalizing directories with
  | nil => exact ⟨h, fun p => by simp⟩
  | cons n names ih =>
    rw [List.foldl_cons]
    obtain ⟨hnone, heq⟩ | ⟨p, hpicks, hsame, hadd⟩ := addDirectory_cases r t directories n
    · rw [heq]
      refine ⟨(ih h).1, fun q => ?_⟩
      rw [(ih h).2]
      simp [hnone]
    · have hiff (q : Path) : r.Picks t n q ↔ q = p :=
        ⟨hsame q, fun heq => heq ▸ hpicks⟩
      obtain ⟨hmem, heq⟩ | ⟨hmem, heq⟩ := hadd
      · rw [heq]
        refine ⟨(ih h).1, fun q => ?_⟩
        rw [(ih h).2]
        simp only [List.exists_mem_cons_iff, hiff]
        constructor
        · intro hq
          exact hq.imp_right .inr
        · intro hq
          obtain hq | rfl | hq := hq
          · exact .inl hq
          · exact .inl hmem
          · exact .inr hq
      · have hmore : (directories ++ [p]).Nodup :=
          List.nodup_append.mpr ⟨h, List.nodup_singleton p, fun a ha b hb => by
            rw [List.mem_singleton.mp hb]
            exact fun heq => hmem (heq ▸ ha)⟩
        rw [heq]
        refine ⟨(ih hmore).1, fun q => ?_⟩
        rw [(ih hmore).2, List.mem_append, List.mem_singleton, or_assoc]
        simp only [List.exists_mem_cons_iff, hiff]

theorem readDirectory_real {l : Listing t} {p : Path} (h : t.Real p) :
    readDirectory l p = l.names p := by
  rw [readDirectory, h.locate]

theorem containsPath_real {q : Path} (h : t.Real q) (hin : r.root <+: q) :
    r.containsPath t q = true := by
  rw [containsPath, h.locate]
  exact List.isPrefixOf_iff_prefix.mpr hin

/-- Scanned are the served directories right below the root, wherever links to them stand. -/
theorem mem_scanDirectories {l : Listing t} (hroot : t.Real r.root) {p : Path} :
    p ∈ r.scanDirectories l ↔ t.entry p = some .directory ∧ t.Real p ∧
      ∃ n, p = r.root ++ [n] ∧ r.allowedDirectory (lowerAscii n) = true := by
  rw [scanDirectories, readDirectory_real hroot, (foldl_addDirectory _ List.nodup_nil).2]
  constructor
  · intro h
    obtain h | ⟨n, -, h⟩ := h
    · cases h
    · obtain ⟨below, rfl⟩ := List.isPrefixOf_iff_prefix.mp h.inside
      have hdirect := h.direct
      have hallowed := h.allowed
      rw [componentsUnder_append, List.length_map] at hdirect
      obtain ⟨m, rfl⟩ := List.length_eq_one_iff.mp hdirect
      rw [componentsUnder_append] at hallowed
      exact ⟨h.directory, t.real_of_locate h.locate, m, rfl, hallowed⟩
  · intro h
    obtain ⟨hdirectory, hreal, n, rfl, hallowed⟩ := h
    refine .inr ⟨n, ?_, hreal.locate, hdirectory, ?_, ?_, ?_⟩
    · exact (l.mem_names r.root n).mpr
        ⟨hreal.plain n (by simp), Option.isSome_of_eq_some hdirectory⟩
    · exact List.isPrefixOf_iff_prefix.mpr (List.prefix_append _ _)
    · rw [componentsUnder_append]
      rfl
    · rw [componentsUnder_append]
      exact hallowed

theorem nodup_scanDirectories {l : Listing t} : (r.scanDirectories l).Nodup :=
  (foldl_addDirectory _ List.nodup_nil).1

/-- The size and the extension of an answer are those of the file it names. -/
theorem resolve_fields {url : Text} {maxBytes : Nat} (h : (r.resolve t url maxBytes).status = .ok) :
    ∃ inode, t.entry (r.resolve t url maxBytes).path =
        some (.file inode (r.resolve t url maxBytes).size) ∧
      (r.resolve t url maxBytes).extension = fileExtension (r.resolve t url maxBytes).path := by
  revert h
  unfold resolve
  split
  · intro h
    cases h
  · split
    · intro h
      cases h
    · intro h
      cases h
    · split_ifs
      · intro h
        cases h
      · split
        · rename_i inode size hentry
          unfold checkFile
          dsimp only
          split_ifs
          · intro h
            cases h
          · intro h
            cases h
          · intro h
            cases h
          · intro _
            exact ⟨inode, hentry, rfl⟩
        · intro h
          cases h

/-- Answers with one and the same file are the same. -/
theorem resolve_eq_of_path {url url' : Text} {maxBytes : Nat}
    (h : (r.resolve t url maxBytes).status = .ok) (h' : (r.resolve t url' maxBytes).status = .ok)
    (hpath : (r.resolve t url maxBytes).path = (r.resolve t url' maxBytes).path) :
    r.resolve t url maxBytes = r.resolve t url' maxBytes := by
  obtain ⟨inode, hentry, hext⟩ := resolve_fields h
  obtain ⟨inode', hentry', hext'⟩ := resolve_fields h'
  generalize r.resolve t url maxBytes = file at h hpath hentry hext ⊢
  generalize r.resolve t url' maxBytes = file' at h' hpath hentry' hext' ⊢
  obtain ⟨status, path, size, extension⟩ := file
  obtain ⟨status', path', size', extension'⟩ := file'
  simp only at h h' hpath hentry hentry' hext hext'
  subst hpath
  rw [hentry] at hentry'
  cases hentry'
  rw [h, h', hext, hext']

end PathResolver

namespace CompressionCache

variable {t : Tree} {r : PathResolver} {l : Listing t}

theorem mem_rootFiles (hroot : t.Real r.root) {p : Path} :
    p ∈ rootFiles r l ↔ t.Real p ∧ t.isFile p = true ∧ ∃ n, p = r.root ++ [n] := by
  rw [rootFiles, hroot.locate]
  simp only [List.mem_map, List.mem_filter, l.mem_names]
  constructor
  · intro h
    obtain ⟨n, ⟨⟨hplain, -⟩, hfile⟩, rfl⟩ := h
    obtain ⟨inode, size, he⟩ := Tree.isFile_iff.mp hfile
    exact ⟨hroot.snoc hplain he nofun, hfile, n, rfl⟩
  · intro h
    obtain ⟨hreal, hfile, n, rfl⟩ := h
    obtain ⟨e, he, -⟩ := hreal.exists_entry
    exact ⟨n, ⟨⟨hreal.plain n (by simp), Option.isSome_of_eq_some he⟩, hfile⟩, rfl⟩

/-- The scan comes to the real files below the root that are in a served directory, or in the root
itself if such files are served at all. -/
theorem mem_scannedPaths (hroot : t.Real r.root) {p : Path} :
    p ∈ scannedPaths r l ↔ t.Real p ∧ t.isFile p = true ∧
      ((r.servesRootFiles = true ∧ ∃ n, p = r.root ++ [n]) ∨
        ∃ n m below, p = r.root ++ n :: m :: below ∧ r.allowedDirectory (lowerAscii n) = true) := by
  have hdeep (directory : Path) (hmem : directory ∈ r.scanDirectories l) :
      p ∈ l.files (r.containsPath t) l.height directory ↔
        directory <+: p ∧ t.Real p ∧ t.isFile p = true := by
    obtain ⟨hdir, hreal, n, hname, -⟩ := (PathResolver.mem_scanDirectories hroot).mp hmem
    refine Listing.mem_files_of_enter ?_ hreal hdir fun q hq hbelow => ?_
    · rw [hname, List.length_append, List.length_singleton]
      omega
    · refine PathResolver.containsPath_real hq ((List.prefix_append r.root [n]).trans ?_)
      rwa [← hname]
  have hflat : p ∈ (r.scanDirectories l).flatMap (l.files (r.containsPath t) l.height) ↔
      t.Real p ∧ t.isFile p = true ∧
        ∃ n m below, p = r.root ++ n :: m :: below ∧ r.allowedDirectory (lowerAscii n) = true := by
    rw [List.mem_flatMap]
    constructor
    · intro h
      obtain ⟨directory, hmem, hfound⟩ := h
      obtain ⟨⟨below, rfl⟩, hreal, hfile⟩ := (hdeep directory hmem).mp hfound
      obtain ⟨hdir, -, n, rfl, hallowed⟩ := (PathResolver.mem_scanDirectories hroot).mp hmem
      cases below with
      | nil =>
        rw [List.append_nil] at hfile
        obtain ⟨inode, size, he⟩ := Tree.isFile_iff.mp hfile
        rw [hdir] at he
        cases he
      | cons m below => exact ⟨hreal, hfile, n, m, below, by simp, hallowed⟩
    · intro h
      obtain ⟨hreal, hfile, n, m, below, rfl, hallowed⟩ := h
      have hcons : r.root ++ n :: m :: below = r.root ++ [n] ++ m :: below := by simp
      have hmem : r.root ++ [n] ∈ r.scanDirectories l := by
        refine (PathResolver.mem_scanDirectories hroot).mpr ⟨?_, ?_, n, rfl, hallowed⟩
        · exact (hcons ▸ hreal).directory
        · exact hreal.of_prefix ⟨m :: below, hcons.symm⟩
      exact ⟨_, hmem, (hdeep _ hmem).mpr ⟨⟨m :: below, hcons.symm⟩, hreal, hfile⟩⟩
  rw [scannedPaths, List.mem_append, hflat]
  by_cases hserves : r.servesRootFiles = true
  · rw [if_pos hserves, mem_rootFiles hroot]
    simp only [hserves, true_and]
    rw [← and_or_left, ← and_or_left]
  · rw [if_neg hserves]
    simp [hserves]

theorem nodup_scannedPaths (hroot : t.Real r.root) : (scannedPaths r l).Nodup := by
  have hfirst : (if r.servesRootFiles then rootFiles r l else []).Nodup := by
    split_ifs
    · rw [rootFiles, hroot.locate]
      refine ((l.once r.root).filter _).map fun n m heq => ?_
      exact List.singleton_inj.mp (List.append_cancel_left heq)
    · exact List.nodup_nil
  have hdeep : ((r.scanDirectories l).flatMap (l.files (r.containsPath t) l.height)).Nodup := by
    rw [List.nodup_flatMap]
    refine ⟨fun directory _ => Listing.nodup_files _ _, ?_⟩
    refine (PathResolver.nodup_scanDirectories).imp_of_mem ?_
    intro d d' hd hd' hne q hq hq'
    obtain ⟨-, -, n, rfl, -⟩ := (PathResolver.mem_scanDirectories hroot).mp hd
    obtain ⟨-, -, m, rfl, -⟩ := (PathResolver.mem_scanDirectories hroot).mp hd'
    have hsame := Listing.snoc_prefix_inj (Listing.prefix_of_mem_files hq)
      (Listing.prefix_of_mem_files hq')
    exact hne (hsame ▸ rfl)
  refine List.nodup_append.mpr ⟨hfirst, hdeep, ?_⟩
  intro p hp q hq heq
  subst heq
  split_ifs at hp
  · -- what the root has itself, no directory in it has
    obtain ⟨-, -, n, rfl⟩ := (mem_rootFiles hroot).mp hp
    obtain ⟨directory, hmem, hfound⟩ := List.mem_flatMap.mp hq
    obtain ⟨hdir, -, m, rfl, -⟩ := (PathResolver.mem_scanDirectories hroot).mp hmem
    have hsame := (Listing.prefix_of_mem_files hfound).eq_of_length (by simp)
    rw [hsame] at hdir
    obtain ⟨-, hfile, -⟩ := (mem_rootFiles hroot).mp hp
    obtain ⟨inode, size, he⟩ := Tree.isFile_iff.mp hfile
    rw [hdir] at he
    cases he
  · cases hp

section Wanted

variable {S : Settings} {served : Text → Option CompressionSource} {s : Store}

theorem markerMatches_calm (name identity : Text) (s : Store) :
    Calm served (markerMatches name identity)
      (fun x s' => s' = s ∧ x = s.holds name identity) s := by
  apply calm_query
  intro regular s₁ h₁
  obtain ⟨rfl, rfl⟩ := quiet_regularArtifact h₁
  unfold Store.holds
  cases hf : s₁.file name with
  | none => exact ⟨rfl, rfl⟩
  | some f =>
    simp only [Option.isSome_some, Bool.not_true, Bool.false_eq_true, if_false, Option.any_some]
    apply calm_query
    intro size s₂ h₂
    obtain ⟨rfl, rfl⟩ := quiet_fileSize h₂
    rw [hf]
    simp only [Option.map_some]
    by_cases hsize : f.data.length = identity.length
    · rw [if_neg (not_not.mpr hsize), ← hsize]
      apply calm_query
      intro stored s₃ h₃
      obtain ⟨rfl, rfl⟩ := quiet_read hf h₃
      exact ⟨rfl, rfl⟩
    · rw [if_pos hsize]
      refine ⟨rfl, ?_⟩
      rw [eq_comm, decide_eq_false_iff_not]
      exact fun heq => hsize (by rw [heq])

theorem hasArtifact_calm (job : Job) (s : Store) :
    Calm served (hasArtifact job) (fun x s' => s' = s ∧
      x = (s.holds (artifact job.key .metadata) job.identity &&
        (s.file (artifact job.key .gzip)).isSome)) s := by
  apply (markerMatches_calm _ _ s).bind
  rintro matched s₁ ⟨rfl, rfl⟩
  cases hmatches : s₁.holds (artifact job.key .metadata) job.identity with
  | false => exact ⟨rfl, rfl⟩
  | true =>
    intro regular s₂ h₂
    obtain ⟨rfl, rfl⟩ := quiet_regularArtifact h₂
    exact ⟨trivial, rfl, rfl⟩

/-- From the directory it finds, `process` does what the last part of it does on a source that is
wanted, and nothing on any other. -/
theorem processSource_calm {fuel : Nat} {source : CompressionSource} {post : Bool → Store → Prop}
    (h : Calm served
      (if wanted S s source then claimAndCompress S fuel (S.job source) else pure true) post s) :
    Calm served (processSource S fuel source) post s := by
  unfold processSource
  cases heligible : eligible source with
  | false =>
    simp only [wanted, heligible, Bool.false_and] at h
    exact h
  | true =>
    apply (hasArtifact_calm _ s).bind
    rintro present s₁ ⟨rfl, hpresent⟩
    cases present with
    | true =>
      simp only [wanted, ← hpresent, Bool.not_true, Bool.and_false, Bool.false_and] at h
      exact h
    | false =>
      apply (markerMatches_calm _ _ s₁).bind
      rintro skipped s₂ ⟨rfl, hskipped⟩
      simp only [wanted, heligible, ← hpresent, ← hskipped, Bool.not_false, Bool.true_and] at h
      cases skipped with
      | true => exact h
      | false => exact h

end Wanted

theorem below_of_mem_scannedPaths (hroot : t.Real r.root) {p : Path} (h : p ∈ scannedPaths r l) :
    t.Real p ∧ ∃ n below, p = r.root ++ n :: below := by
  obtain ⟨hreal, -, ⟨-, n, hname⟩ | ⟨n, m, below, hname, -⟩⟩ := (mem_scannedPaths hroot).mp h
  · exact ⟨hreal, n, [], hname⟩
  · exact ⟨hreal, n, m :: below, hname⟩

/-- A real path is looked at as itself or not at all. -/
theorem resolve_ownUrl_path (ht : t.Named) {maxFileBytes : Nat} {p : Path} (hp : t.Real p)
    {n : Name} {below : List Name} (hbelow : p = r.root ++ n :: below)
    (h : (r.resolve t (ownUrl r p) maxFileBytes).status = .ok) :
    (r.resolve t (ownUrl r p) maxFileBytes).path = p := by
  obtain ⟨relative, hvalid, hlocate, -⟩ := (PathResolver.resolve_ok r t _ _ _).mp ⟨h, rfl⟩
  rw [ownUrl, hbelow, lexicallyRelative_append] at hvalid
  have hmem : ∀ m ∈ n :: below, m ∈ p := fun m hm => hbelow ▸ List.mem_append_right _ hm
  have hown : relative = n :: below := PathResolver.validate_joined (List.cons_ne_nil _ _)
    (fun m hm => hp.plain m (hmem m hm)) (fun m hm => hp.named ht m (hmem m hm)) hvalid
  rw [hown, ← hbelow, hp.locate] at hlocate
  exact (Except.ok.inj hlocate).symm

theorem real_root_of_ok {url : Text} {maxFileBytes : Nat}
    (h : (r.resolve t url maxFileBytes).status = .ok) : t.Real r.root := by
  obtain ⟨hreal, n, below, hbelow⟩ := PathResolver.resolve_real ⟨h, rfl⟩
  rw [hbelow] at hreal
  exact hreal.of_prefix (List.prefix_append _ _)

/-- What a request can be answered with, the scan comes to. -/
theorem scanned_of_served {url : Text} {maxFileBytes : Nat} {p : Path}
    (h : (r.resolve t url maxFileBytes).status = .ok ∧ (r.resolve t url maxFileBytes).path = p) :
    p ∈ scannedPaths r l := by
  obtain ⟨hreal, n, below, hbelow⟩ := PathResolver.resolve_real h
  obtain ⟨relative, -, -, -, ⟨inode, size, he, -⟩, ⟨hone, hmore⟩, -⟩ :=
    (PathResolver.resolve_ok r t url _ p).mp h
  refine (mem_scannedPaths (real_root_of_ok h.1)).mpr ⟨hreal, Tree.isFile_iff.mpr ⟨_, _, he⟩, ?_⟩
  rw [hbelow, PathResolver.componentsUnder_append, List.length_map] at hone hmore
  by_cases hlevel : relative.length = 1
  · obtain ⟨hlen, hallowed⟩ := hone hlevel
    obtain ⟨m, hm⟩ := List.length_eq_one_iff.mp hlen
    exact .inl ⟨(PathResolver.servesRootFiles_iff r).mpr ⟨_, hallowed⟩, m, hm ▸ hbelow⟩
  · obtain ⟨hlen, hallowed⟩ := hmore hlevel
    cases below with
    | nil => simp at hlen
    | cons m below => exact .inr ⟨n, m, below, hbelow, hallowed⟩

/-- The path of a request that ends at a served file leads, as a URL, to the same answer. -/
theorem resolve_ownUrl (ht : t.Named) {maxFileBytes : Nat} {url : Text}
    (hok : (r.resolve t url maxFileBytes).status = .ok)
    (hvalid : PathResolver.validate (ownUrl r (r.resolve t url maxFileBytes).path) ≠ none) :
    r.resolve t (ownUrl r (r.resolve t url maxFileBytes).path) maxFileBytes =
      r.resolve t url maxFileBytes := by
  obtain ⟨-, n, below, hbelow⟩ := PathResolver.resolve_real ⟨hok, rfl⟩
  have hurl : ownUrl r (r.resolve t url maxFileBytes).path = '/' :: joined (n :: below) := by
    rw [ownUrl, hbelow, lexicallyRelative_append]
  rw [hurl] at hvalid ⊢
  obtain ⟨hok', hpath'⟩ := PathResolver.resolve_own ht ⟨hok, rfl⟩ hbelow hvalid
  exact PathResolver.resolve_eq_of_path hok' hok hpath'

section Compressed

variable {S : Settings} {times : Inode → Int × Nat} {maxFileBytes : Nat} {s : Store}
  {source : CompressionSource}

theorem processed_eq_some {p : Path} :
    processed S r t times maxFileBytes s p = some source ↔
      resolvedSource r t times maxFileBytes (ownUrl r p) = some source ∧
        wanted S s source = true := by
  rw [processed, Option.filter_eq_some_iff]

theorem ok_of_resolvedSource {url : Text}
    (h : resolvedSource r t times maxFileBytes url = some source) :
    (r.resolve t url maxFileBytes).status = .ok := (resolvedSource_some h).1.1

/-- What is scanned and processed is the file at the scanned path. -/
theorem path_of_processed (ht : t.Named) {p : Path} (hp : p ∈ scannedPaths r l)
    (h : resolvedSource r t times maxFileBytes (ownUrl r p) = some source) :
    (r.resolve t (ownUrl r p) maxFileBytes).path = p := by
  have hok := ok_of_resolvedSource h
  obtain ⟨hreal, n, below, hname⟩ := below_of_mem_scannedPaths (real_root_of_ok hok) hp
  exact resolve_ownUrl_path ht hreal hname hok

theorem pathText_scannedPaths (ht : t.Named) (hroot : t.Real r.root) :
    ((scannedPaths r l).map pathText).Nodup := by
  refine (nodup_scannedPaths hroot).map_on fun p hp q hq heq => ?_
  obtain ⟨hreal, n, below, hname⟩ := below_of_mem_scannedPaths hroot hp
  obtain ⟨hreal', n', below', hname'⟩ := below_of_mem_scannedPaths hroot hq
  exact pathText_inj ht hreal hreal' (by simp [hname]) (by simp [hname']) heq

/-- The paths of what comes out of a list are among those that the list stands for, in order. -/
theorem filterMap_map_sublist {α β γ : Type} {f : α → Option β} {g : β → γ} {h : α → γ}
    {xs : List α} (hfg : ∀ x ∈ xs, ∀ y, f x = some y → g y = h x) :
    ((xs.filterMap f).map g).Sublist (xs.map h) := by
  induction xs with
  | nil => exact .slnil
  | cons x xs ih =>
    have hrest := ih fun y hy => hfg y (List.mem_cons_of_mem _ hy)
    rw [List.filterMap_cons, List.map_cons]
    split
    · exact hrest.cons (h x)
    · rename_i y hy
      rw [List.map_cons, hfg x List.mem_cons_self y hy]
      exact hrest.cons_cons (h x)

/-- No file comes twice. -/
theorem nodup_compressed (ht : t.Named) (s : Path → Store) :
    ((compressed S r l times maxFileBytes s).map CompressionSource.path).Nodup := by
  by_cases hroot : t.Real r.root
  · refine (pathText_scannedPaths ht hroot).sublist (filterMap_map_sublist fun p hp source h => ?_)
    obtain ⟨hsource, -⟩ := processed_eq_some.mp h
    rw [(resolvedSource_some hsource).1.2, path_of_processed ht hp hsource]
  · have hnone : compressed S r l times maxFileBytes s = [] := by
      rw [compressed, List.filterMap_eq_nil_iff]
      intro p _
      rw [Option.eq_none_iff_forall_ne_some]
      intro source h
      exact hroot (real_root_of_ok (ok_of_resolvedSource (processed_eq_some.mp h).1))
    rw [hnone]
    exact List.nodup_nil

theorem mem_compressed (ht : t.Named) {s : Path → Store} :
    source ∈ compressed S r l times maxFileBytes s ↔
      ∃ url, resolvedSource r t times maxFileBytes url = some source ∧
        PathResolver.validate (ownUrl r (r.resolve t url maxFileBytes).path) ≠ none ∧
        wanted S (s (r.resolve t url maxFileBytes).path) source = true := by
  rw [compressed, List.mem_filterMap]
  constructor
  · intro h
    obtain ⟨p, hp, hprocessed⟩ := h
    obtain ⟨hsource, hwanted⟩ := processed_eq_some.mp hprocessed
    have hpath := path_of_processed ht hp hsource
    refine ⟨ownUrl r p, hsource, fun hnone => ?_, ?_⟩
    · have hok := ok_of_resolvedSource hsource
      rw [hpath] at hnone
      rw [PathResolver.resolve, hnone] at hok
      cases hok
    · rw [hpath]
      exact hwanted
  · intro h
    obtain ⟨url, hsource, hvalid, hwanted⟩ := h
    have hok := ok_of_resolvedSource hsource
    refine ⟨_, scanned_of_served ⟨hok, rfl⟩, processed_eq_some.mpr ⟨?_, hwanted⟩⟩
    rw [resolvedSource, resolve_ownUrl ht hok hvalid]
    exact hsource

end Compressed

end CompressionCache
end FastdlMm
