import FastdlMm.Files.PathResolver

namespace FastdlMm.PathResolver

/-- An item of a comma-separated list, up to blanks and letter case. -/
def Listed (value x : Text) : Prop :=
  ∃ item ∈ value.splitOn ',', trimAscii item ≠ [] ∧ lowerAscii (trimAscii item) = x

def Wild (value : Text) : Prop := Listed value ['*']

/-- An extension in a list of types, which may be written without the leading dot. -/
def ListedType (value extension : Text) : Prop :=
  ∃ x, Listed value x ∧ x ≠ ['*'] ∧ withDot x = extension

/-- The lowercase extension of the file at a path. -/
def fileExtension (p : Path) : Text := lowerAscii (extensionOf (p.getLastD []))

/-- What the operator's settings permit: which place a URL may name, and what may lie there. -/
structure Permitted (t : Tree) (root : Path) (dirs types rootTypes url : Text) (maxBytes : Nat)
    (relative p : Path) : Prop where
  valid : validate url = some relative
  place : Leads t ([], root ++ relative) p
  below : root <+: p
  file : ∃ inode size, t.entry p = some (.file inode size) ∧ size ≤ maxBytes
  atRoot : relative.length = 1 → p.length = root.length + 1 ∧
    (ListedType rootTypes (fileExtension p) ∨ Wild rootTypes)
  inDirectory : relative.length ≠ 1 → ∃ directory name rest,
    p = root ++ directory :: name :: rest ∧ (Listed dirs (lowerAscii directory) ∨ Wild dirs)
  type : ListedType types (fileExtension p) ∨ Wild types

theorem mem_splitList (value x : Text) : x ∈ splitList value ↔ Listed value x := by
  simp only [splitList, List.mem_filterMap, Listed]
  constructor
  · intro hmem
    obtain ⟨item, hi, hx⟩ := hmem
    split_ifs at hx with hnil
    exact ⟨item, hi, hnil, Option.some.inj hx⟩
  · intro hlisted
    obtain ⟨item, hi, hnil, rfl⟩ := hlisted
    exact ⟨item, hi, if_neg hnil⟩

theorem mem_typeList (value x : Text) : x ∈ typeList value ↔ ListedType value x := by
  simp only [typeList, List.mem_map, List.mem_filter, mem_splitList, decide_eq_true_eq, and_assoc,
    ListedType]

/-- What `configure` makes of the settings. -/
structure Configured (r : PathResolver) (dirs types rootTypes : Text) : Prop where
  directory : ∀ name, r.allowedDirectory name = true ↔ Listed dirs name ∨ Wild dirs
  extension : ∀ ext, r.allowedExtension ext = true ↔ ListedType types ext ∨ Wild types
  rootExtension : ∀ ext, r.allowedRootExtension ext = true ↔ ListedType rootTypes ext ∨ Wild rootTypes

theorem configure_configured {t : Tree} {root : Path} {dirs types rootTypes : Text}
    {r : PathResolver} (h : configure t root dirs types rootTypes = .ok r) :
    Configured r dirs types rootTypes := by
  unfold configure at h
  split at h
  · cases h
  · split_ifs at h
    cases h
    refine ⟨fun name => ?_, fun ext => ?_, fun ext => ?_⟩
    · simp only [allowedDirectory, Bool.or_eq_true, decide_eq_true_eq, List.contains_iff_mem,
        mem_splitList]
      exact or_comm
    · simp only [allowedExtension, Bool.or_eq_true, decide_eq_true_eq, List.contains_iff_mem,
        mem_splitList, mem_typeList]
      exact or_comm
    · simp only [allowedRootExtension, Bool.or_eq_true, decide_eq_true_eq, List.contains_iff_mem,
        mem_splitList, mem_typeList]
      exact or_comm

/-- Below the root, the components of a place are what follows the root. -/
theorem componentsUnder_append (root rest : Path) :
    componentsUnder root (root ++ rest) = rest.map lowerAscii := by
  have hlen : ¬ (root ++ rest).length < root.length := by
    rw [List.length_append]
    omega
  rw [componentsUnder, if_neg hlen, List.drop_left]

/-- The checks that `resolve` makes on the components of a place below the root. -/
def Placed (r : PathResolver) (relative p : Path) : Prop :=
  (relative.length = 1 → (componentsUnder r.root p).length = 1 ∧
    r.allowedRootExtension (fileExtension p) = true) ∧
  (relative.length ≠ 1 → 2 ≤ (componentsUnder r.root p).length ∧
    r.allowedDirectory ((componentsUnder r.root p).headD []) = true)

/-- The test for `DirectoryDenied` as the source writes it. -/
private theorem denied_iff (r : PathResolver) (relative candidate : Path) :
    ((decide (relative.length = 1) &&
        (decide ((componentsUnder r.root candidate).length ≠ 1) ||
          !r.allowedRootExtension (fileExtension candidate))) ||
      (!decide (relative.length = 1) && (decide ((componentsUnder r.root candidate).length < 2) ||
        !r.allowedDirectory ((componentsUnder r.root candidate).headD [])))) = true ↔
      ¬ Placed r relative candidate := by
  by_cases h1 : relative.length = 1
  · simp only [h1, decide_true, ne_eq, decide_not, Bool.true_and, Bool.not_true, Bool.false_and,
      Bool.or_false, Bool.or_eq_true, Bool.not_eq_true', decide_eq_false_iff_not,
      or_iff_not_imp_left, Decidable.not_not, Placed, forall_const, not_true_eq_false,
      IsEmpty.forall_iff, and_true, not_and, Bool.not_eq_true]
  · simp only [h1, decide_false, ne_eq, Bool.false_and, Bool.not_false, Bool.true_and,
      Bool.false_or, Bool.or_eq_true, decide_eq_true_eq, Bool.not_eq_true', or_iff_not_imp_left,
      Nat.not_lt, Placed, IsEmpty.forall_iff, not_false_eq_true, forall_const, true_and, not_and,
      Bool.not_eq_true]

theorem checkFile_ok (r : PathResolver) (relative candidate p : Path) (size maxBytes : Nat) :
    ((checkFile r relative candidate size maxBytes).status = .ok ∧
      (checkFile r relative candidate size maxBytes).path = p) ↔
    candidate = p ∧ Placed r relative p ∧ r.allowedExtension (fileExtension p) = true ∧
      size ≤ maxBytes := by
  have hplaced := denied_iff r relative candidate
  have heq : lowerAscii (extensionOf (candidate.getLastD [])) = fileExtension candidate := rfl
  unfold checkFile
  simp only [heq]
  split_ifs with hdenied hext hsize
  · have hno := hplaced.mp hdenied
    apply iff_of_false (by simp)
    intro hok
    obtain ⟨rfl, hp, -⟩ := hok
    exact hno hp
  · apply iff_of_false (by simp)
    intro hok
    obtain ⟨rfl, -, ha, -⟩ := hok
    simp [ha] at hext
  · apply iff_of_false (by simp)
    intro hok
    obtain ⟨-, -, -, hle⟩ := hok
    omega
  · have hp : Placed r relative candidate := by
      by_contra hno
      exact hdenied (hplaced.mpr hno)
    have ha : r.allowedExtension (fileExtension candidate) = true := by simpa using hext
    have hle : size ≤ maxBytes := by omega
    simp only [true_and]
    constructor
    · intro hcandidate
      subst hcandidate
      exact ⟨rfl, hp, ha, hle⟩
    · intro h
      exact h.1

/-- `resolve` answers with a place exactly when every one of its checks has passed. -/
theorem resolve_ok (r : PathResolver) (t : Tree) (url : Text) (maxBytes : Nat) (p : Path) :
    ((resolve r t url maxBytes).status = .ok ∧ (resolve r t url maxBytes).path = p) ↔
      ∃ relative, validate url = some relative ∧ t.locate (r.root ++ relative) = .ok p ∧
        containedBy r.root p = true ∧ (∃ inode size, t.entry p = some (.file inode size) ∧
          size ≤ maxBytes) ∧ Placed r relative p ∧ r.allowedExtension (fileExtension p) = true := by
  unfold resolve
  split
  · rename_i hv
    simp [hv]
  · rename_i relative hv
    simp only [hv, Option.some.injEq, exists_eq_left']
    split
    · rename_i hl
      simp [hl]
    · rename_i e _ hl
      simp [hl]
    · rename_i candidate hl
      simp only [hl, Except.ok.injEq]
      split_ifs with hin
      · apply iff_of_false (by simp)
        intro hok
        obtain ⟨rfl, hc, -⟩ := hok
        simp [hc] at hin
      · split
        · rename_i inode size hentry
          rw [checkFile_ok]
          constructor
          · intro hok
            obtain ⟨rfl, hp, ha, hle⟩ := hok
            exact ⟨rfl, by simpa using hin, ⟨inode, size, hentry, hle⟩, hp, ha⟩
          · intro hok
            obtain ⟨rfl, -, ⟨inode', size', hentry', hle⟩, hp, ha⟩ := hok
            rw [hentry] at hentry'
            cases hentry'
            exact ⟨rfl, hp, ha, hle⟩
        · rename_i hnot
          apply iff_of_false (by simp)
          intro hok
          obtain ⟨rfl, -, ⟨inode, size, hentry, -⟩, -⟩ := hok
          exact hnot inode size hentry

/-- A place below the root has one component there, or a directory and more. -/
theorem placed_iff {r : PathResolver} {dirs types rootTypes : Text}
    (hc : Configured r dirs types rootTypes) {relative p : Path} (hb : r.root <+: p) :
    Placed r relative p ↔
      (relative.length = 1 → p.length = r.root.length + 1 ∧
        (ListedType rootTypes (fileExtension p) ∨ Wild rootTypes)) ∧
      (relative.length ≠ 1 → ∃ directory name rest,
        p = r.root ++ directory :: name :: rest ∧
          (Listed dirs (lowerAscii directory) ∨ Wild dirs)) := by
  obtain ⟨below, rfl⟩ := hb
  rw [Placed, componentsUnder_append, hc.rootExtension, hc.directory]
  have hone : ((below.map lowerAscii).length = 1) ↔
      (r.root ++ below).length = r.root.length + 1 := by
    rw [List.length_map, List.length_append]
    omega
  rw [hone]
  refine and_congr Iff.rfl (imp_congr Iff.rfl ?_)
  constructor
  · intro hplaced
    obtain ⟨hlen, hd⟩ := hplaced
    match below, hlen with
    | directory :: name :: rest, _ => exact ⟨directory, name, rest, rfl, hd⟩
  · intro hplaced
    obtain ⟨directory, name, rest, heq, hd⟩ := hplaced
    rw [List.append_cancel_left heq]
    exact ⟨by simp, hd⟩

/-- The access contract: with no I/O error, `resolve` answers `Ok` with a path exactly when that is
the real path the URL stands for and the settings permit it. -/
theorem resolve_ok_iff {t₀ t : Tree} {rootPath : Path} {dirs types rootTypes url : Text}
    {maxBytes : Nat} {r : PathResolver}
    (hr : configure t₀ rootPath dirs types rootTypes = .ok r)
    (hio : ∀ relative, validate url = some relative →
      t.locate (r.root ++ relative) ≠ .error .tooManyLinks) (p : Path) :
    ((resolve r t url maxBytes).status = .ok ∧ (resolve r t url maxBytes).path = p) ↔
      ∃ relative, Permitted t r.root dirs types rootTypes url maxBytes relative p := by
  have hc := configure_configured hr
  rw [resolve_ok]
  constructor
  · intro hok
    obtain ⟨relative, hv, hl, hin, hfile, hp, ha⟩ := hok
    have hb : r.root <+: p := List.isPrefixOf_iff_prefix.mp hin
    obtain ⟨hroot, hdir⟩ := (placed_iff hc hb).mp hp
    exact ⟨relative, hv, (Tree.locate_iff (hio relative hv)).mp hl, hb, hfile, hroot, hdir,
      (hc.extension _).mp ha⟩
  · intro hpermitted
    obtain ⟨relative, h⟩ := hpermitted
    refine ⟨relative, h.valid, (Tree.locate_iff (hio relative h.valid)).mpr h.place,
      List.isPrefixOf_iff_prefix.mpr h.below, h.file, ?_, (hc.extension _).mpr h.type⟩
    exact (placed_iff hc h.below).mpr ⟨h.atRoot, h.inDirectory⟩

/-- A root with one served directory and a link beside it. -/
def sampleTree : Tree :=
  Tree.ofEntries
    [([text "www"], .directory), ([text "www", text "maps"], .directory),
      ([text "www", text "maps", text "a.bsp"], .file ⟨1, 7⟩ 2000),
      ([text "www", text "new"], .symlink ⟨false, [text "maps"]⟩)] 40 (by decide +kernel)

def sampleResolver : PathResolver :=
  ⟨[text "www"], [text "maps", text "sound"], [text ".bsp"], [], false, false, false⟩

/-- A request through the link is answered with the real path. -/
theorem resolve_ok_iff_link :
    ∃ relative, Permitted sampleTree [text "www"] (text " Maps, sound") (text "bsp") []
      (text "/new//a.bsp") 5000 relative [text "www", text "maps", text "a.bsp"] := by
  have hr : configure sampleTree [text "www"] (text " Maps, sound") (text "bsp") [] =
      .ok sampleResolver := by decide +kernel
  have hv : validate (text "/new//a.bsp") = some [text "new", text "a.bsp"] := by decide +kernel
  have hio : ∀ relative, validate (text "/new//a.bsp") = some relative →
      sampleTree.locate (sampleResolver.root ++ relative) ≠ .error .tooManyLinks := by
    intro relative h
    rw [hv, Option.some.injEq] at h
    subst h
    decide +kernel
  exact (resolve_ok_iff hr hio _).mp (by decide +kernel)

end FastdlMm.PathResolver
