import FastdlMm.Files.PathAccess

namespace FastdlMm.PathResolver

/-- Two spellings of the three lists with the same items: order, repetitions, empty items, blanks,
letter case and, in the lists of types, the leading dot are not part of an item. -/
structure SameItems (dirs types rootTypes dirs' types' rootTypes' : Text) : Prop where
  directories : ∀ x, Listed dirs x ↔ Listed dirs' x
  extensions : ∀ extension, ListedType types extension ↔ ListedType types' extension
  anyExtension : Wild types ↔ Wild types'
  rootExtensions : ∀ extension, ListedType rootTypes extension ↔ ListedType rootTypes' extension
  anyRootExtension : Wild rootTypes ↔ Wild rootTypes'

/-- Two resolvers that ask the same of every place. -/
structure Agrees (r r' : PathResolver) : Prop where
  root : r.root = r'.root
  directory : ∀ name, r.allowedDirectory name = r'.allowedDirectory name
  extension : ∀ extension, r.allowedExtension extension = r'.allowedExtension extension
  rootExtension : ∀ extension, r.allowedRootExtension extension = r'.allowedRootExtension extension

/-- The lists have no say in whether the root is accepted. -/
theorem configure_error_iff {t : Tree} {root : Path} {dirs types rootTypes message : Text} :
    configure t root dirs types rootTypes = .error message ↔
      (∀ canonical, t.locate root = .ok canonical → t.entry canonical ≠ some .directory) ∧
        message = text "root is not an accessible directory" := by
  unfold configure
  cases hroot : t.locate root with
  | error e => simp [eq_comm]
  | ok canonical =>
    have hone : (∀ place, (.ok canonical : Except WalkError Path) = .ok place →
        t.entry place ≠ some .directory) ↔ t.entry canonical ≠ some .directory := by
      simp
    rw [hone]
    by_cases hentry : t.entry canonical = some .directory
    · simp [hentry]
    · simp only [ne_eq, hentry, not_false_eq_true, if_true, Except.error.injEq, true_and]
      exact eq_comm

theorem configure_root {t : Tree} {root : Path} {dirs types rootTypes : Text} {r : PathResolver}
    (h : configure t root dirs types rootTypes = .ok r) : t.locate root = .ok r.root := by
  unfold configure at h
  cases hroot : t.locate root with
  | error e =>
    rw [hroot] at h
    cases h
  | ok canonical =>
    rw [hroot] at h
    simp only at h
    split_ifs at h
    cases h
    rfl

/-- Two spellings of the lists leave resolvers that ask the same. -/
theorem SameItems.agrees {dirs types rootTypes dirs' types' rootTypes' : Text}
    (h : SameItems dirs types rootTypes dirs' types' rootTypes') {t : Tree} {root : Path}
    {r r' : PathResolver} (hr : configure t root dirs types rootTypes = .ok r)
    (hr' : configure t root dirs' types' rootTypes' = .ok r') : Agrees r r' := by
  have hc := configure_configured hr
  have hc' := configure_configured hr'
  have hroot : (.ok r.root : Except WalkError Path) = .ok r'.root :=
    (configure_root hr).symm.trans (configure_root hr')
  constructor
  · exact Except.ok.inj hroot
  · intro name
    rw [Bool.eq_iff_iff, hc.directory, hc'.directory, h.directories, Wild, h.directories, Wild]
  · intro extension
    rw [Bool.eq_iff_iff, hc.extension, hc'.extension, h.extensions, h.anyExtension]
  · intro extension
    rw [Bool.eq_iff_iff, hc.rootExtension, hc'.rootExtension, h.rootExtensions, h.anyRootExtension]

theorem Agrees.resolve {r r' : PathResolver} (h : Agrees r r') (t : Tree) (url : Text)
    (maxBytes : Nat) : r.resolve t url maxBytes = r'.resolve t url maxBytes := by
  have hcheck (relative candidate : Path) (size : Nat) :
      checkFile r relative candidate size maxBytes =
        checkFile r' relative candidate size maxBytes := by
    simp only [checkFile, h.root, h.directory, h.extension, h.rootExtension]
  simp only [PathResolver.resolve, h.root, hcheck]

/-- Root files are served if some extension passes for one. -/
theorem servesRootFiles_iff (r : PathResolver) :
    r.servesRootFiles = true ↔ ∃ extension, r.allowedRootExtension extension = true := by
  simp only [servesRootFiles, allowedRootExtension, Bool.or_eq_true]
  constructor
  · intro h
    obtain hall | hsome := h
    · exact ⟨[], .inl hall⟩
    · cases hlist : r.rootTypes with
      | nil => simp [hlist] at hsome
      | cons extension rest => exact ⟨extension, .inr (by simp)⟩
  · intro h
    obtain ⟨extension, hall | hlisted⟩ := h
    · exact .inl hall
    · cases hlist : r.rootTypes with
      | nil => simp [hlist] at hlisted
      | cons first rest => exact .inr rfl

theorem Agrees.servesRootFiles {r r' : PathResolver} (h : Agrees r r') :
    r.servesRootFiles = r'.servesRootFiles := by
  rw [Bool.eq_iff_iff, servesRootFiles_iff, servesRootFiles_iff]
  simp only [h.rootExtension]

/-- Lists with the same items are refused alike, or their resolvers answer every request alike. -/
theorem configure_sameItems {dirs types rootTypes dirs' types' rootTypes' : Text}
    (h : SameItems dirs types rootTypes dirs' types' rootTypes') (t : Tree) (root : Path) :
    (∀ message, configure t root dirs types rootTypes = .error message ↔
      configure t root dirs' types' rootTypes' = .error message) ∧
    ∀ r r', configure t root dirs types rootTypes = .ok r →
      configure t root dirs' types' rootTypes' = .ok r' →
        r.servesRootFiles = r'.servesRootFiles ∧
          ∀ now url maxBytes, r.resolve now url maxBytes = r'.resolve now url maxBytes := by
  constructor
  · intro message
    rw [configure_error_iff, configure_error_iff]
  · intro r r' hr hr'
    have hagrees := h.agrees hr hr'
    exact ⟨hagrees.servesRootFiles, hagrees.resolve⟩

/-- `sampleResolver` answers as the one from a less tidy list. -/
theorem configure_sameItems_sample :
    sampleResolver.resolve sampleTree (text "/new/a.bsp") 5000 =
      PathResolver.resolve { sampleResolver with dirs := [text "sound", text "maps", text "maps"] }
        sampleTree (text "/new/a.bsp") 5000 := by
  have hdirs : splitList (text " Maps, sound") = [text "maps", text "sound"] := by decide +kernel
  have hdirs' : splitList (text "sound,,MAPS ,maps") = [text "sound", text "maps", text "maps"] := by
    decide +kernel
  have htypes : typeList (text "bsp") = typeList (text ".BSP, ") := by decide +kernel
  have hany : ['*'] ∉ splitList (text "bsp") ∧ ['*'] ∉ splitList (text ".BSP, ") := by
    decide +kernel
  have hsame : SameItems (text " Maps, sound") (text "bsp") [] (text "sound,,MAPS ,maps")
      (text ".BSP, ") [] := by
    constructor
    · intro x
      rw [← mem_splitList, ← mem_splitList, hdirs, hdirs']
      simp only [List.mem_cons, List.not_mem_nil, or_false, or_self]
      exact or_comm
    · intro extension
      rw [← mem_typeList, ← mem_typeList, htypes]
    · rw [Wild, Wild, ← mem_splitList, ← mem_splitList]
      exact iff_of_false hany.1 hany.2
    · exact fun _ => Iff.rfl
    · exact Iff.rfl
  exact ((configure_sameItems hsame sampleTree [text "www"]).2 _ _ (by decide +kernel)
    (by decide +kernel)).2 _ _ _

end FastdlMm.PathResolver
