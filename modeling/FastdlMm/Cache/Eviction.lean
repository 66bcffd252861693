import FastdlMm.Cache.LookupIdentity
import FastdlMm.Cache.Maintenance

namespace FastdlMm.CompressionCache

/-- `markerCurrent` on a marker that holds `stored`. `served` is the way back from a stored path to
the file that is served there. -/
def isCurrent (S : Settings) (served : Text → Option CompressionSource) (skip : Bool)
    (stored : Text) : Bool :=
  stored ≠ [] && decide (stored.length ≤ kMaximumMarkerBytes) && S.hasResolver &&
    ((markerPath stored).bind served).any fun source =>
      stored = if skip then skipIdentity S.maxBytes source else sourceIdentity source

/-- A `.gz` of at least 18 bytes beside a current marker. -/
def isPair (S : Settings) (served : Text → Option CompressionSource) (d : Directory)
    (name : Text) : Bool :=
  cacheName name .gzip && (d.lookup name).any (fun f => decide (18 ≤ f.data.length)) &&
    (d.lookup (artifact (keyOf name) .metadata)).any fun m => isCurrent S served false m.data

/-- The representations of a directory. -/
def pairs (S : Settings) (served : Text → Option CompressionSource) (d : Directory) : List Text :=
  d.keys.filter (isPair S served d)

def sizeAt (d : Directory) (name : Text) : Nat := (d.lookup name).elim 0 fun f => f.data.length

def modifiedAt (d : Directory) (name : Text) : Int := (d.lookup name).elim 0 File.modified

def Suffix.Temporary : Suffix → Prop
  | .gzipTemp | .metadataTemp | .skipTemp => True
  | _ => False

/-- What maintenance leaves of the directory `d₀`. -/
structure Maintained (S : Settings) (served : Text → Option CompressionSource) (d₀ : Directory)
    (s : Store) : Prop where
  removes : ∀ name f, s.file name = some f → d₀.lookup name = some f
  others : ∀ name, (∀ x, cacheName name x = false) → s.file name = d₀.lookup name
  gzip : ∀ name ∈ s.disk, cacheName name .gzip = true → isPair S served s.disk name = true
  metadata : ∀ name ∈ s.disk, cacheName name .metadata = true →
    isPair S served s.disk (artifact (keyOf name) .gzip) = true
  skip : ∀ name f, d₀.lookup name = some f → cacheName name .skip = true →
    (name ∈ s.disk ↔ isCurrent S served true f.data = true)
  temporary : ∀ name x, Suffix.Temporary x → cacheName name x = true → name ∉ s.disk
  few : artifactCount s.disk ≤ kMaximumCacheEntries
  small : artifactBytes s.disk ≤ S.maxBytes
  entries : s.entries = artifactCount s.disk
  bytes : s.bytes = artifactBytes s.disk
  newest : ∀ evicted kept, isPair S served d₀ evicted = true → evicted ∉ s.disk →
    isPair S served s.disk kept = true → modifiedAt d₀ evicted ≤ modifiedAt d₀ kept
  spared : (pairs S served d₀).length ≤ kMaximumCacheEntries →
    ((pairs S served d₀).map (sizeAt d₀)).sum ≤ S.maxBytes →
      ∀ name, isPair S served d₀ name = true → isPair S served s.disk name = true

/-- No operation fails; whether an entry that is gone by then still comes up in the walk is open. -/
def Op.Undisturbed (served : Text → Option CompressionSource) (c : Choice) : Op → Prop
  | .nextEntry _ => True
  | .describe path => c.source = served path
  | _ => c.fails = false

/-- What an operation does before `stop`, where nothing fails and nobody else writes. -/
def Op.Quiet (served : Text → Option CompressionSource) (q : Op) (s : Store) (x : q.Answer)
    (s' : Store) : Prop :=
  ∃ (c : Choice) (u u' : Queue), q.Undisturbed served c ∧ u.stopping = false ∧
    q.perform c s u = some (x, s', u')

abbrev Calm {α : Type} (served : Text → Option CompressionSource) (p : CacheProgram α)
    (post : α → Store → Prop) (s : Store) : Prop :=
  p.Safe (Op.Quiet served) (fun _ _ _ => True) post s

section Quiet

variable {served : Text → Option CompressionSource} {name : Text} {s s' : Store}

theorem quiet_regularArtifact {x : Bool} (h : (Op.regularArtifact name).Quiet served s x s') :
    s' = s ∧ x = (s.file name).isSome := by
  obtain ⟨c, u, u', hfails, -, h⟩ := h
  have hfails : c.fails = false := hfails
  simp only [Op.perform, hfails, Bool.not_false, Bool.true_and, Option.some.injEq,
    Prod.mk.injEq] at h
  refine ⟨h.2.1.symm, h.1.symm.trans ?_⟩
  rw [Bool.eq_iff_iff, decide_eq_true_iff]
  exact AList.lookup_isSome.symm

theorem quiet_fileSize {x : Option Nat} (h : (Op.fileSize name).Quiet served s x s') :
    s' = s ∧ x = (s.file name).map fun f => f.data.length := by
  obtain ⟨c, u, u', hfails, -, h⟩ := h
  exact perform_fileSize_ok hfails h

/-- A file that is read in its whole length comes back whole. -/
theorem quiet_read {f : File} (hf : s.file name = some f) {x : Option Text}
    (h : (Op.read name f.data.length).Quiet served s x s') : s' = s ∧ x = some f.data := by
  obtain ⟨c, u, u', hfails, -, h⟩ := h
  have hfails : c.fails = false := hfails
  simp only [Op.perform, hf, hfails, Bool.false_or, lt_irrefl, decide_false, Bool.false_eq_true,
    if_false, List.take_length, Option.some.injEq, Prod.mk.injEq] at h
  exact ⟨h.2.1.symm, h.1.symm⟩

theorem quiet_lastWriteTime {x : Option Int} (h : (Op.lastWriteTime name).Quiet served s x s') :
    s' = s ∧ x = (s.file name).map File.modified := by
  obtain ⟨c, u, u', hfails, -, h⟩ := h
  have hfails : c.fails = false := hfails
  simp only [Op.perform, hfails, Bool.false_eq_true, if_false, Option.some.injEq,
    Prod.mk.injEq] at h
  exact ⟨h.2.1.symm, h.1.symm⟩

theorem quiet_describe {path : Text} {x : Option CompressionSource}
    (h : (Op.describe path).Quiet served s x s') : s' = s ∧ x = served path := by
  obtain ⟨c, u, u', hsource, -, h⟩ := h
  cases h
  exact ⟨rfl, hsource⟩

theorem quiet_remove {x : Unit} (h : (Op.remove name).Quiet served s x s') :
    s' = s.remove name := by
  obtain ⟨c, u, u', hfails, -, h⟩ := h
  exact perform_remove_ok hfails h

theorem quiet_listDirectory {x : Option (List Text)}
    (h : Op.listDirectory.Quiet served s x s') :
    s' = s ∧ ∃ names, x = some names ∧ names.Perm s.disk.keys := by
  obtain ⟨c, u, u', hfails, -, h⟩ := h
  exact perform_listDirectory_ok hfails h

theorem quiet_nextEntry {x : Bool} (h : (Op.nextEntry name).Quiet served s x s') :
    s' = s ∧ (x = false → name ∉ s.disk) := by
  obtain ⟨c, u, u', -, -, h⟩ := h
  exact perform_nextEntry h

theorem quiet_stopping {x : Bool} (h : Op.stopping.Quiet served s x s') : s' = s ∧ x = false := by
  obtain ⟨c, u, u', -, hstopping, h⟩ := h
  cases h
  exact ⟨rfl, hstopping⟩

theorem quiet_oldest {files : List Entry} {x : Entry} (h : (Op.oldest files).Quiet served s x s') :
    s' = s ∧ x ∈ files ∧ ∀ e ∈ files, x.modified ≤ e.modified := by
  obtain ⟨c, u, u', -, -, h⟩ := h
  exact perform_oldest h

theorem quiet_setCounters {entries bytes : Nat} {x : Unit}
    (h : (Op.setCounters entries bytes).Quiet served s x s') :
    s' = { s with entries := entries, bytes := bytes } := by
  obtain ⟨c, u, u', -, -, h⟩ := h
  cases h
  rfl

end Quiet

section Files

variable {S : Settings} {served : Text → Option CompressionSource} {d d₀ : Directory}
  {name key : Text} {names : List Text} {f : File}

theorem keyOf_artifact {x : Suffix} (h : cacheName (artifact key x) x = true) :
    keyOf (artifact key x) = key := (artifact_inj.mp (artifact_keyOf h)).1

theorem ne_of_cacheName {name' : Text} {x y : Suffix} (h : cacheName name x = true)
    (h' : cacheName name' y = true) (hne : x ≠ y) : name ≠ name' := by
  rintro rfl
  rw [cacheName_other h hne] at h'
  cases h'

/-- The directory after both files of a representation are gone. -/
def erasePair (d : Directory) (key : Text) : Directory :=
  (d.erase (artifact key .gzip)).erase (artifact key .metadata)

theorem lookup_erasePair (hgzip : name ≠ artifact key .gzip) (hmeta : name ≠ artifact key .metadata) :
    (erasePair d key).lookup name = d.lookup name := by
  rw [erasePair, AList.lookup_erase_ne hmeta, AList.lookup_erase_ne hgzip]

theorem of_lookup_erasePair (h : (erasePair d key).lookup name = some f) :
    d.lookup name = some f ∧ name ≠ artifact key .gzip ∧ name ≠ artifact key .metadata := by
  have hmeta : name ≠ artifact key .metadata := by
    rintro rfl
    rw [erasePair, AList.lookup_erase] at h
    cases h
  rw [erasePair, AList.lookup_erase_ne hmeta] at h
  have hgzip : name ≠ artifact key .gzip := by
    rintro rfl
    rw [AList.lookup_erase] at h
    cases h
  rw [AList.lookup_erase_ne hgzip] at h
  exact ⟨h, hgzip, hmeta⟩

theorem mem_of_lookup (h : d.lookup name = some f) : name ∈ d :=
  AList.lookup_isSome.mp (Option.isSome_of_eq_some h)

theorem lookup_of_mem (h : name ∈ d) : ∃ f, d.lookup name = some f :=
  Option.isSome_iff_exists.mp (AList.lookup_isSome.mpr h)

theorem isPair_named (h : isPair S served d name = true) : cacheName name .gzip = true := by
  simp only [isPair, Bool.and_eq_true] at h
  exact h.1.1

/-- What is said of a pair depends on its two files. -/
theorem isPair_congr {d' : Directory} (hgzip : d'.lookup name = d.lookup name)
    (hmeta : d'.lookup (artifact (keyOf name) .metadata) =
      d.lookup (artifact (keyOf name) .metadata)) :
    isPair S served d' name = isPair S served d name := by
  rw [isPair, isPair, hgzip, hmeta]

theorem isPair_erasePair (hname : cacheName name .gzip = true) (hne : keyOf name ≠ key) :
    isPair S served (erasePair d key) name = isPair S served d name := by
  have hself := artifact_keyOf hname
  apply isPair_congr
  · apply lookup_erasePair
    · rw [← hself]
      simp [hne]
    · rw [← hself]
      simp
  · apply lookup_erasePair
    · simp
    · simp [hne]

/-- How far the directory `d` has been cleaned, with `names` still to come: what is removed, what of
each kind may only still be there because its turn has not come, and what has not changed. -/
structure Files (S : Settings) (served : Text → Option CompressionSource) (d₀ d : Directory)
    (names : List Text) : Prop where
  listed : ∀ name ∈ names, name ∈ d₀
  removes : ∀ name f, d.lookup name = some f → d₀.lookup name = some f
  others : ∀ name, (∀ x, cacheName name x = false) → d.lookup name = d₀.lookup name
  temporary : ∀ name x, Suffix.Temporary x → cacheName name x = true → name ∈ d → name ∈ names
  skip : ∀ name f, cacheName name .skip = true → d.lookup name = some f →
    name ∈ names ∨ isCurrent S served true f.data = true
  skipKept : ∀ name f, cacheName name .skip = true → d₀.lookup name = some f →
    name ∈ names ∨ isCurrent S served true f.data = true → d.lookup name = some f
  metadata : ∀ name, cacheName name .metadata = true → name ∈ d →
    name ∈ names ∨ artifact (keyOf name) .gzip ∈ d
  ahead : ∀ name ∈ names, cacheName name .gzip = true → d.lookup name = d₀.lookup name ∧
    d.lookup (artifact (keyOf name) .metadata) = d₀.lookup (artifact (keyOf name) .metadata)

theorem Files.start (hnames : ∀ name, name ∈ names ↔ name ∈ d) : Files S served d d names where
  listed := fun name => (hnames name).mp
  removes := fun _ _ h => h
  others := fun _ _ => rfl
  temporary := fun name _ _ _ h => (hnames name).mpr h
  skip := fun name _ _ h => .inl ((hnames name).mpr (mem_of_lookup h))
  skipKept := fun _ _ _ h _ => h
  metadata := fun name _ h => .inl ((hnames name).mpr h)
  ahead := fun _ _ _ => ⟨rfl, rfl⟩

/-- A name is passed that may stay, or is gone. -/
theorem Files.pass (h : Files S served d₀ d (name :: names))
    (htemp : ∀ x, Suffix.Temporary x → cacheName name x = true → name ∉ d)
    (hskip : ∀ f, cacheName name .skip = true → d.lookup name = some f →
      isCurrent S served true f.data = true)
    (hmeta : cacheName name .metadata = true → name ∈ d → artifact (keyOf name) .gzip ∈ d) :
    Files S served d₀ d names where
  listed := fun name' hnames => h.listed name' (List.mem_cons_of_mem name hnames)
  removes := h.removes
  others := h.others
  temporary := by
    intro name' x hx hname' hmem
    rcases List.mem_cons.mp (h.temporary name' x hx hname' hmem) with rfl | hnames
    · exact absurd hmem (htemp x hx hname')
    · exact hnames
  skip := by
    intro name' f hname' hf
    rcases h.skip name' f hname' hf with hnames | hcurrent
    · rcases List.mem_cons.mp hnames with rfl | hnames
      · exact .inr (hskip f hname' hf)
      · exact .inl hnames
    · exact .inr hcurrent
  skipKept := fun name' f hname' hf hor =>
    h.skipKept name' f hname' hf (hor.imp_left (List.mem_cons_of_mem name))
  metadata := by
    intro name' hname' hmem
    rcases h.metadata name' hname' hmem with hnames | hgzip
    · rcases List.mem_cons.mp hnames with rfl | hnames
      · exact .inr (hmeta hname' hmem)
      · exact .inl hnames
    · exact .inr hgzip
  ahead := fun name' hnames => h.ahead name' (List.mem_cons_of_mem name hnames)

theorem Files.pass_gzip (h : Files S served d₀ d (name :: names))
    (hname : cacheName name .gzip = true) : Files S served d₀ d names := by
  apply h.pass
  · intro x hx hname'
    have hne : Suffix.gzip ≠ x := by
      rintro rfl
      exact hx
    exact absurd rfl (ne_of_cacheName hname hname' hne)
  · exact fun _ hname' => absurd rfl (ne_of_cacheName hname hname' (by decide))
  · exact fun hname' => absurd rfl (ne_of_cacheName hname hname' (by decide))

/-- An artifact whose turn is to come is there. -/
theorem Files.mem_ahead (h : Files S served d₀ d names) (hnames : name ∈ names)
    (hname : cacheName name .gzip = true) : name ∈ d := by
  obtain ⟨f, hf⟩ := lookup_of_mem (h.listed name hnames)
  exact mem_of_lookup ((h.ahead name hnames hname).1.trans hf)

/-- A file goes in its turn: a temporary file, a stale `.skip`, or a `.meta` without its artifact. -/
theorem Files.erase {x : Suffix} (h : Files S served d₀ d (name :: names)) (hnames : name ∉ names)
    (hname : cacheName name x = true) (hgzip : x ≠ .gzip)
    (hskip : ∀ f, cacheName name .skip = true → d.lookup name = some f →
      isCurrent S served true f.data = false)
    (hmeta : cacheName name .metadata = true → artifact (keyOf name) .gzip ∉ d) :
    Files S served d₀ (d.erase name) names where
  listed := fun name' hnames' => h.listed name' (List.mem_cons_of_mem name hnames')
  removes := by
    intro name' f hf
    apply h.removes
    rwa [AList.lookup_erase_ne] at hf
    rintro rfl
    rw [AList.lookup_erase] at hf
    cases hf
  others := by
    intro name' hnone
    rw [AList.lookup_erase_ne]
    · exact h.others name' hnone
    · rintro rfl
      rw [hnone x] at hname
      cases hname
  temporary := by
    intro name' y hy hname' hmem
    obtain ⟨hne, hmem⟩ := AList.mem_erase.mp hmem
    exact (List.mem_cons.mp (h.temporary name' y hy hname' hmem)).resolve_left hne
  skip := by
    intro name' f hname' hf
    have hne : name' ≠ name := (AList.mem_erase.mp (mem_of_lookup hf)).1
    rw [AList.lookup_erase_ne hne] at hf
    rcases h.skip name' f hname' hf with hmem | hcurrent
    · exact .inl ((List.mem_cons.mp hmem).resolve_left hne)
    · exact .inr hcurrent
  skipKept := by
    intro name' f hname' hf hor
    have hkept := h.skipKept name' f hname' hf (hor.imp_left (List.mem_cons_of_mem name))
    rw [AList.lookup_erase_ne]
    · exact hkept
    · rintro rfl
      rcases hor with hmem | hcurrent
      · exact hnames hmem
      · rw [hskip f hname' hkept] at hcurrent
        cases hcurrent
  metadata := by
    intro name' hname' hmem
    obtain ⟨hne, hmem⟩ := AList.mem_erase.mp hmem
    rcases h.metadata name' hname' hmem with hmem | hmem
    · exact .inl ((List.mem_cons.mp hmem).resolve_left hne)
    · refine .inr (AList.mem_erase.mpr ⟨?_, hmem⟩)
      exact (ne_of_cacheName hname (cacheName_keyOf hname' .gzip) hgzip).symm
  ahead := by
    intro name' hnames' hname'
    have hmem : name' ∈ name :: names := List.mem_cons_of_mem name hnames'
    obtain ⟨hg, hm⟩ := h.ahead name' hmem hname'
    constructor
    · rw [AList.lookup_erase_ne]
      · exact hg
      · exact (ne_of_cacheName hname hname' hgzip).symm
    · rw [AList.lookup_erase_ne]
      · exact hm
      · rintro rfl
        have hmark := cacheName_keyOf hname' .metadata
        have habsent := hmeta hmark
        rw [keyOf_artifact hmark, artifact_keyOf hname'] at habsent
        exact habsent (h.mem_ahead hmem hname')

/-- A representation goes whose turn is over. -/
theorem Files.erasePair (h : Files S served d₀ d names)
    (hkey : cacheName (artifact key .gzip) .gzip = true) (hnames : artifact key .gzip ∉ names) :
    Files S served d₀ (erasePair d key) names := by
  have hmark : cacheName (artifact key .metadata) .metadata = true := by
    have hmark := cacheName_keyOf hkey .metadata
    rwa [keyOf_artifact hkey] at hmark
  have hother {name' : Text} {x : Suffix} (hname' : cacheName name' x = true) (hg : x ≠ .gzip)
      (hm : x ≠ .metadata) :
      (CompressionCache.erasePair d key).lookup name' = d.lookup name' :=
    lookup_erasePair (ne_of_cacheName hname' hkey hg) (ne_of_cacheName hname' hmark hm)
  have hmem {name' : Text} (hmem : name' ∈ CompressionCache.erasePair d key) :
      name' ∈ d ∧ name' ≠ artifact key .gzip ∧ name' ≠ artifact key .metadata := by
    obtain ⟨f, hf⟩ := lookup_of_mem hmem
    obtain ⟨hf, hne⟩ := of_lookup_erasePair hf
    exact ⟨mem_of_lookup hf, hne⟩
  refine ⟨h.listed, ?_, ?_, ?_, ?_, ?_, ?_, ?_⟩
  · intro name' f hf
    exact h.removes name' f (of_lookup_erasePair hf).1
  · intro name' hnone
    rw [lookup_erasePair]
    · exact h.others name' hnone
    · rintro rfl
      rw [hnone .gzip] at hkey
      cases hkey
    · rintro rfl
      rw [hnone .metadata] at hmark
      cases hmark
  · exact fun name' x hx hname' hin => h.temporary name' x hx hname' (hmem hin).1
  · exact fun name' f hname' hf => h.skip name' f hname' (of_lookup_erasePair hf).1
  · intro name' f hname' hf hor
    rw [hother hname' (by decide) (by decide)]
    exact h.skipKept name' f hname' hf hor
  · intro name' hname' hin
    obtain ⟨hin, -, hne⟩ := hmem hin
    rcases h.metadata name' hname' hin with hnames' | hgzip
    · exact .inl hnames'
    · obtain ⟨f, hf⟩ := lookup_of_mem hgzip
      have hkept : (CompressionCache.erasePair d key).lookup (artifact (keyOf name') .gzip) = some f := by
        rw [lookup_erasePair]
        · exact hf
        · intro heq
          apply hne
          rw [← artifact_keyOf hname', (artifact_inj.mp heq).1]
        · simp
      exact .inr (mem_of_lookup hkept)
  · intro name' hnames' hname'
    have hne : keyOf name' ≠ key := by
      intro heq
      rw [← artifact_keyOf hname', heq] at hnames'
      exact hnames hnames'
    obtain ⟨hg, hm⟩ := h.ahead name' hnames' hname'
    constructor
    · rw [lookup_erasePair]
      · exact hg
      · rw [← artifact_keyOf hname']
        simp [hne]
      · rw [← artifact_keyOf hname']
        simp
    · rw [lookup_erasePair]
      · exact hm
      · simp
      · simp [hne]

end Files

/-- A run of maintenance on the directory `d₀`, with `names` still to come: every entry it has kept
is a pair, and a pair it has not kept gave way to `floor` entries that are no older. -/
structure Sweep (S : Settings) (served : Text → Option CompressionSource) (floor : Nat)
    (d₀ d : Directory) (names : List Text) (k : Kept) : Prop where
  walk : Walk d names k
  files : Files S served d₀ d names
  kept : ∀ e ∈ k.files, isPair S served d e.path = true ∧ e.modified = modifiedAt d₀ e.path
  evicted : ∀ name, isPair S served d₀ name = true → name ∈ names ∨ (∃ e ∈ k.files, e.path = name) ∨
    (floor ≤ k.files.length ∧ ∀ e ∈ k.files, modifiedAt d₀ name ≤ e.modified)

namespace Sweep

variable {S : Settings} {served : Text → Option CompressionSource} {floor : Nat} {d d₀ : Directory}
  {name : Text} {names : List Text} {k : Kept} {e : Entry}

theorem start (hnames : names.Perm d.keys) (hsmall : artifactBytes d < 2 ^ 64) :
    Sweep S served floor d d names {} where
  walk := .start hnames hsmall
  files := .start fun name => by rw [hnames.mem_iff, AList.mem_keys]
  kept := fun e he => by cases he
  evicted := by
    intro name hpair
    left
    obtain ⟨f, hf⟩ : ∃ f, d.lookup name = some f := by
      simp only [isPair, Bool.and_eq_true, Option.any_eq_true] at hpair
      obtain ⟨⟨-, f, hf, -⟩, -⟩ := hpair
      exact ⟨f, hf⟩
    exact hnames.mem_iff.mpr (AList.mem_keys.mp (mem_of_lookup hf))

theorem gzip_of_kept (h : Sweep S served floor d₀ d names k) (he : e ∈ k.files) :
    cacheName e.path .gzip = true := (h.walk.holds e he).1

/-- A pair stays one when another goes. -/
theorem pair_erasePair {name' : Text} (hpair : isPair S served d name = true)
    (hname' : cacheName name' .gzip = true) (hne : name ≠ name') :
    isPair S served (erasePair d (keyOf name')) name = true := by
  have hname := isPair_named hpair
  rw [isPair_erasePair hname]
  · exact hpair
  · intro hkey
    apply hne
    rw [← artifact_keyOf hname, hkey, artifact_keyOf hname']

/-- A name is passed that is no artifact, or is gone. -/
theorem pass (h : Sweep S served floor d₀ d (name :: names) k) (hfiles : Files S served d₀ d names)
    (hgzip : cacheName name .gzip = true → name ∉ d) : Sweep S served floor d₀ d names k where
  walk := h.walk.skip hgzip
  files := hfiles
  kept := h.kept
  evicted := by
    intro name' hpair
    rcases h.evicted name' hpair with hmem | hor
    · rcases List.mem_cons.mp hmem with rfl | hmem
      · have hname := isPair_named hpair
        exact absurd (h.files.mem_ahead List.mem_cons_self hname) (hgzip hname)
      · exact .inl hmem
    · exact .inr hor

/-- A temporary file, a stale `.skip` or a `.meta` without its artifact goes. -/
theorem erase {x : Suffix} (h : Sweep S served floor d₀ d (name :: names) k) (hnames : name ∉ names)
    (hname : cacheName name x = true) (hgzip : x ≠ .gzip)
    (hskip : ∀ f, cacheName name .skip = true → d.lookup name = some f →
      isCurrent S served true f.data = false)
    (hmeta : cacheName name .metadata = true → artifact (keyOf name) .gzip ∉ d) :
    Sweep S served floor d₀ (d.erase name) names k where
  walk := h.walk.drop
  files := h.files.erase hnames hname hgzip hskip hmeta
  kept := by
    intro e he
    obtain ⟨hpair, hmodified⟩ := h.kept e he
    refine ⟨?_, hmodified⟩
    rw [isPair_congr, hpair]
    · apply AList.lookup_erase_ne
      exact fun heq => h.walk.behind e he (heq ▸ List.mem_cons_self)
    · apply AList.lookup_erase_ne
      rintro rfl
      have hmark := cacheName_keyOf (h.gzip_of_kept he) .metadata
      have habsent := hmeta hmark
      rw [keyOf_artifact hmark, artifact_keyOf (h.gzip_of_kept he)] at habsent
      obtain ⟨-, -, f, hf, -⟩ := h.walk.holds e he
      exact habsent (mem_of_lookup hf)
  evicted := by
    intro name' hpair
    rcases h.evicted name' hpair with hmem | hor
    · rcases List.mem_cons.mp hmem with rfl | hmem
      · exact absurd rfl (ne_of_cacheName hname (isPair_named hpair) hgzip)
      · exact .inl hmem
    · exact .inr hor

/-- The artifact goes in its turn, because it is no pair or no newer than what is kept. -/
theorem dropPair (h : Sweep S served floor d₀ d (name :: names) k) (hnames : name ∉ names)
    (hname : cacheName name .gzip = true)
    (hold : isPair S served d name = true →
      floor ≤ k.files.length ∧ ∀ e ∈ k.files, modifiedAt d₀ name ≤ e.modified) :
    Sweep S served floor d₀ (erasePair d (keyOf name)) names k where
  walk := by
    rw [erasePair, artifact_keyOf hname]
    exact h.walk.drop.erase_other (beside (keyOf name) (by decide))
  files := by
    apply (h.files.pass_gzip hname).erasePair
    · exact cacheName_keyOf hname .gzip
    · rwa [artifact_keyOf hname]
  kept := by
    intro e he
    obtain ⟨hpair, hmodified⟩ := h.kept e he
    exact ⟨pair_erasePair hpair hname fun heq => h.walk.behind e he (heq ▸ List.mem_cons_self),
      hmodified⟩
  evicted := by
    intro name' hpair
    rcases h.evicted name' hpair with hmem | hor
    · rcases List.mem_cons.mp hmem with rfl | hmem
      · obtain ⟨hg, hm⟩ := h.files.ahead name' List.mem_cons_self hname
        exact .inr (.inr (hold ((isPair_congr hg hm).trans hpair)))
      · exact .inl hmem
    · exact .inr hor

/-- A pair is kept while there is room. -/
theorem push (h : Sweep S served floor d₀ d (e.path :: names) k) (hnames : e.path ∉ names)
    (he : Holds d e) (hpair : isPair S served d e.path = true)
    (hmodified : e.modified = modifiedAt d₀ e.path) (hfew : k.files.length < kMaximumCacheEntries)
    (hroom : k.files.length < floor) : Sweep S served floor d₀ d names (k.push e) where
  walk := h.walk.push hnames he hfew
  files := h.files.pass_gzip he.1
  kept := by
    intro e' he'
    rcases List.mem_cons.mp he' with rfl | he'
    · exact ⟨hpair, hmodified⟩
    · exact h.kept e' he'
  evicted := by
    intro name hname
    rcases h.evicted name hname with hmem | ⟨e', he', heq⟩ | ⟨hfull, -⟩
    · rcases List.mem_cons.mp hmem with rfl | hmem
      · exact .inr (.inl ⟨e, List.mem_cons_self, rfl⟩)
      · exact .inl hmem
    · exact .inr (.inl ⟨e', List.mem_cons_of_mem e he', heq⟩)
    · omega

/-- A kept pair goes. -/
theorem walk_pop (h : Sweep S served floor d₀ d names k) (he : e ∈ k.files) :
    Walk (erasePair d (keyOf e.path)) names (k.pop e) := by
  rw [erasePair, artifact_keyOf (h.gzip_of_kept he)]
  exact (h.walk.pop he).erase_other (beside (keyOf e.path) (by decide))

theorem files_pop (h : Sweep S served floor d₀ d names k) (he : e ∈ k.files) :
    Files S served d₀ (erasePair d (keyOf e.path)) names := by
  apply h.files.erasePair
  · exact cacheName_keyOf (h.gzip_of_kept he) .gzip
  · rw [artifact_keyOf (h.gzip_of_kept he)]
    exact h.walk.behind e he

theorem kept_pop (h : Sweep S served floor d₀ d names k) (he : e ∈ k.files) :
    ∀ e' ∈ (k.pop e).files, isPair S served (erasePair d (keyOf e.path)) e'.path = true ∧
      e'.modified = modifiedAt d₀ e'.path := by
  intro e' he'
  have hperm : k.files.Perm (e :: k.files.erase e) := List.perm_cons_erase he
  have hnodup : (e.path :: (k.files.erase e).map Entry.path).Nodup :=
    (hperm.map Entry.path).nodup_iff.mp h.walk.nodup
  obtain ⟨hout, -⟩ := List.nodup_cons.mp hnodup
  obtain ⟨hpair, hmodified⟩ := h.kept e' (List.mem_of_mem_erase he')
  refine ⟨pair_erasePair hpair (h.gzip_of_kept he) ?_, hmodified⟩
  intro heq
  exact hout (heq ▸ List.mem_map_of_mem he')

theorem mem_pop_or (e : Entry) {e' : Entry} (he' : e' ∈ k.files) : e' = e ∨ e' ∈ (k.pop e).files := by
  by_cases heq : e' = e
  · exact .inl heq
  · exact .inr ((List.mem_erase_of_ne heq).mpr he')

/-- The oldest entry goes for good. -/
theorem pop (h : Sweep S served 0 d₀ d names k) (he : e ∈ k.files)
    (hoff : ∀ e' ∈ k.files, e.modified ≤ e'.modified) :
    Sweep S served 0 d₀ (erasePair d (keyOf e.path)) names (k.pop e) where
  walk := h.walk_pop he
  files := h.files_pop he
  kept := h.kept_pop he
  evicted := by
    intro name hname
    rcases h.evicted name hname with hmem | ⟨e', he', heq⟩ | ⟨-, hold⟩
    · exact .inl hmem
    · rcases mem_pop_or e he' with rfl | he''
      · refine .inr (.inr ⟨Nat.zero_le _, ?_⟩)
        intro e'' he''
        rw [← heq, ← (h.kept e' he').2]
        exact hoff e'' (List.mem_of_mem_erase he'')
      · exact .inr (.inl ⟨e', he'', heq⟩)
    · exact .inr (.inr ⟨Nat.zero_le _, fun e' he' => hold e' (List.mem_of_mem_erase he')⟩)

/-- The oldest entry gives way to a newer one. -/
theorem replace {new : Entry} (h : Sweep S served floor d₀ d (new.path :: names) k)
    (hnames : new.path ∉ names) (hnew : Holds d new) (hpair : isPair S served d new.path = true)
    (hmodified : new.modified = modifiedAt d₀ new.path) (he : e ∈ k.files)
    (hoff : ∀ e' ∈ k.files, e.modified ≤ e'.modified) (hlt : e.modified < new.modified)
    (hfull : floor ≤ k.files.length) :
    Sweep S served floor d₀ (erasePair d (keyOf e.path)) names ((k.pop e).push new) := by
  have hne : new.path ≠ e.path := fun heq => h.walk.behind e he (heq ▸ List.mem_cons_self)
  have hpos : 0 < k.files.length := List.length_pos_of_mem he
  have hlength : (k.pop e).files.length = k.files.length - 1 := List.length_erase_of_mem he
  have hgzip := h.gzip_of_kept he
  have hholds : Holds (erasePair d (keyOf e.path)) new := by
    rw [erasePair, artifact_keyOf hgzip]
    apply (hnew.erase hne).erase
    exact ne_of_cacheName hnew.1 (cacheName_keyOf hgzip .metadata) (by decide)
  refine ⟨?_, ?_, ?_, ?_⟩
  · apply (h.walk_pop he).push hnames hholds
    rw [hlength]
    exact Nat.lt_of_lt_of_le (Nat.sub_lt hpos Nat.one_pos) h.walk.few
  · exact (h.files_pop he).pass_gzip hnew.1
  · intro e' he'
    rcases List.mem_cons.mp he' with rfl | he'
    · exact ⟨pair_erasePair hpair hgzip hne, hmodified⟩
    · exact h.kept_pop he e' he'
  · have hnow : floor ≤ ((k.pop e).push new).files.length := by
      show floor ≤ (new :: (k.pop e).files).length
      rw [List.length_cons, hlength]
      omega
    intro name hname
    rcases h.evicted name hname with hmem | ⟨e', he', heq⟩ | ⟨-, hold⟩
    · rcases List.mem_cons.mp hmem with rfl | hmem
      · exact .inr (.inl ⟨new, List.mem_cons_self, rfl⟩)
      · exact .inl hmem
    · rcases mem_pop_or e he' with rfl | he''
      · refine .inr (.inr ⟨hnow, ?_⟩)
        intro e'' he''
        rw [← heq, ← (h.kept e' he').2]
        rcases List.mem_cons.mp he'' with rfl | he''
        · exact hlt.le
        · exact hoff e'' (List.mem_of_mem_erase he'')
      · exact .inr (.inl ⟨e', List.mem_cons_of_mem new he'', heq⟩)
    · refine .inr (.inr ⟨hnow, ?_⟩)
      intro e' he'
      rcases List.mem_cons.mp he' with rfl | he'
      · exact (hold e he).trans hlt.le
      · exact hold e' (List.mem_of_mem_erase he')

theorem lower (h : Sweep S served floor d₀ d names k) : Sweep S served 0 d₀ d names k where
  walk := h.walk
  files := h.files
  kept := h.kept
  evicted := fun name hname => (h.evicted name hname).imp_right fun hor =>
    hor.imp_right fun hold => ⟨Nat.zero_le _, hold.2⟩

end Sweep

section Calm

variable {S : Settings} {served : Text → Option CompressionSource} {α : Type} {name : Text} {s : Store}

theorem calm_query {q : Op} {f : q.Answer → CacheProgram α} {post : α → Store → Prop}
    (h : ∀ x s', q.Quiet served s x s' → Calm served (f x) post s') :
    Calm served (ask q >>= f) post s :=
  .query fun x s' hm => ⟨trivial, h x s' hm⟩

theorem markerCurrent_calm (S : Settings) (name : Text) (skip : Bool) (s : Store) :
    Calm served (markerCurrent S name skip) (fun x s' => s' = s ∧
      x = (s.file name).any fun f => isCurrent S served skip f.data) s := by
  apply calm_query
  intro regular s₁ h₁
  obtain ⟨rfl, rfl⟩ := quiet_regularArtifact h₁
  cases hf : s₁.file name with
  | none => exact ⟨rfl, rfl⟩
  | some f =>
    simp only [Option.isSome_some, Bool.not_true, Bool.false_eq_true, if_false, Option.any_some]
    apply calm_query
    intro size s₂ h₂
    obtain ⟨rfl, rfl⟩ := quiet_fileSize h₂
    rw [hf]
    simp only [Option.map_some]
    by_cases hsize : f.data.length = 0 ∨ kMaximumMarkerBytes < f.data.length
    · rw [if_pos hsize]
      refine ⟨rfl, ?_⟩
      rcases hsize with hempty | hlong
      · simp [isCurrent, List.length_eq_zero_iff.mp hempty]
      · simp [isCurrent, Nat.not_le.mpr hlong]
    rw [if_neg hsize]
    have hne : f.data ≠ [] := fun hnil => hsize (.inl (by rw [hnil]; rfl))
    have hshort : f.data.length ≤ kMaximumMarkerBytes := Nat.not_lt.mp fun hlt => hsize (.inr hlt)
    apply calm_query
    intro stored s₃ h₃
    obtain ⟨rfl, rfl⟩ := quiet_read hf h₃
    dsimp only
    cases hpath : markerPath f.data with
    | none =>
      refine ⟨rfl, ?_⟩
      simp [isCurrent, hpath]
    | some path =>
      dsimp only
      cases hresolver : S.hasResolver with
      | false =>
        refine ⟨rfl, ?_⟩
        simp [isCurrent, hresolver]
      | true =>
        simp only [Bool.not_true, Bool.false_eq_true, if_false]
        apply calm_query
        intro source s₄ h₄
        obtain ⟨rfl, rfl⟩ := quiet_describe h₄
        cases hserved : served path with
        | none =>
          refine ⟨rfl, ?_⟩
          simp [isCurrent, hpath, hserved]
        | some source =>
          refine ⟨rfl, ?_⟩
          simp [isCurrent, hne, hshort, hresolver, hpath, hserved]

theorem removeRepresentation_calm (key : Text) {f : Unit → CacheProgram α}
    {post : α → Store → Prop}
    (h : ∀ s' : Store, s'.disk = erasePair s.disk key → Calm served (f ()) post s') :
    Calm served (removeRepresentation key >>= f) post s := by
  apply calm_query
  intro x s₁ h₁
  rw [quiet_remove h₁]
  apply calm_query
  intro x s₂ h₂
  rw [quiet_remove h₂]
  exact h _ rfl

variable {d₀ : Directory} {names : List Text} {k : Kept}

/-- The artifact and its marker go in their turn. -/
theorem dropped_calm (h : Sweep S served kMaximumCacheEntries d₀ s.disk (name :: names) k)
    (hnames : name ∉ names) (hname : cacheName name .gzip = true)
    (hold : isPair S served s.disk name = true → kMaximumCacheEntries ≤ k.files.length ∧
      ∀ e ∈ k.files, modifiedAt d₀ name ≤ e.modified) :
    Calm served (removeRepresentation (keyOf name) >>= fun _ => pure k)
      (fun k' s' => Sweep S served kMaximumCacheEntries d₀ s'.disk names k') s := by
  apply removeRepresentation_calm
  intro s' hs'
  have hdrop := h.dropPair hnames hname hold
  rw [← hs'] at hdrop
  exact hdrop

theorem keepNewest_calm {e : Entry}
    (h : Sweep S served kMaximumCacheEntries d₀ s.disk (e.path :: names) k)
    (hnames : e.path ∉ names) (he : Holds s.disk e) (hpair : isPair S served s.disk e.path = true)
    (hmodified : e.modified = modifiedAt d₀ e.path) :
    Calm served (keepNewest k e)
      (fun k' s' => Sweep S served kMaximumCacheEntries d₀ s'.disk names k') s := by
  unfold keepNewest
  split_ifs with hfew
  · exact h.push hnames he hpair hmodified hfew hfew
  have hfull : kMaximumCacheEntries ≤ k.files.length := not_lt.mp hfew
  apply calm_query
  intro oldest s₁ hoff
  obtain ⟨rfl, hmem, hoff⟩ := quiet_oldest hoff
  split_ifs with hlt
  · apply removeRepresentation_calm
    intro s' hs'
    have hreplace := h.replace hnames he hpair hmodified hmem hoff hlt hfull
    rw [← hs'] at hreplace
    exact hreplace
  · apply dropped_calm h hnames he.1
    intro _
    refine ⟨hfull, ?_⟩
    intro e' he'
    rw [← hmodified]
    exact (not_lt.mp hlt).trans (hoff e' he')

theorem considerArtifact_calm
    (h : Sweep S served kMaximumCacheEntries d₀ s.disk (name :: names) k) (hnames : name ∉ names)
    (hname : cacheName name .gzip = true) :
    Calm served (considerArtifact S name k)
      (fun k' s' => Sweep S served kMaximumCacheEntries d₀ s'.disk names k') s := by
  have hremove (hno : isPair S served s.disk name = false) :
      Calm served (removeRepresentation (keyOf name) >>= fun _ => pure k)
        (fun k' s' => Sweep S served kMaximumCacheEntries d₀ s'.disk names k') s := by
    apply dropped_calm h hnames hname
    intro hpair
    rw [hno] at hpair
    cases hpair
  obtain ⟨f, hf⟩ := lookup_of_mem (h.files.mem_ahead List.mem_cons_self hname)
  have hfile : s.file name = some f := hf
  apply calm_query
  intro regular s₁ h₁
  obtain ⟨rfl, rfl⟩ := quiet_regularArtifact h₁
  rw [hfile]
  simp only [Option.isSome_some, Bool.not_true, Bool.false_eq_true, if_false]
  apply (markerCurrent_calm S (artifact (keyOf name) .metadata) false s₁).bind
  intro current s₂ hcurrent
  obtain ⟨rfl, rfl⟩ := hcurrent
  cases hmark : (s₂.file (artifact (keyOf name) .metadata)).any fun m =>
      isCurrent S served false m.data with
  | false =>
    apply hremove
    rw [isPair, Bool.and_eq_false_iff]
    exact .inr hmark
  | true =>
    simp only [Bool.not_true, Bool.false_eq_true, if_false]
    apply calm_query
    intro size s₃ h₃
    obtain ⟨rfl, rfl⟩ := quiet_fileSize h₃
    rw [hfile]
    simp only [Option.map_some]
    by_cases hshort : f.data.length < 18
    · rw [if_pos hshort]
      apply hremove
      simp [isPair, hf, Nat.not_le.mpr hshort]
    rw [if_neg hshort]
    have hlong : 18 ≤ f.data.length := not_lt.mp hshort
    apply calm_query
    intro modified s₄ h₄
    obtain ⟨rfl, rfl⟩ := quiet_lastWriteTime h₄
    rw [hfile]
    simp only [Option.map_some]
    apply keepNewest_calm h hnames ⟨hname, hlong, f, hf, rfl⟩
    · show isPair S served s₄.disk name = true
      have hmark : ((s₄.disk.lookup (artifact (keyOf name) .metadata)).any fun m =>
        isCurrent S served false m.data) = true := hmark
      simp [isPair, hname, hf, hlong, hmark]
    · show f.modified = modifiedAt d₀ name
      rw [modifiedAt, ← (h.files.ahead name List.mem_cons_self hname).1, hf, Option.elim_some]

/-- A file of some other kind goes in its turn. -/
theorem remove_calm {x : Suffix}
    (h : Sweep S served kMaximumCacheEntries d₀ s.disk (name :: names) k) (hnames : name ∉ names)
    (hname : cacheName name x = true) (hgzip : x ≠ .gzip)
    (hskip : ∀ f, cacheName name .skip = true → s.disk.lookup name = some f →
      isCurrent S served true f.data = false)
    (hmeta : cacheName name .metadata = true → artifact (keyOf name) .gzip ∉ s.disk) :
    Calm served (ask (.remove name) >>= fun _ => pure k)
      (fun k' s' => Sweep S served kMaximumCacheEntries d₀ s'.disk names k') s := by
  apply calm_query
  intro x s₁ h₁
  rw [quiet_remove h₁]
  exact h.erase hnames hname hgzip hskip hmeta

theorem considerEntry_calm
    (h : Sweep S served kMaximumCacheEntries d₀ s.disk (name :: names) k) (hnames : name ∉ names) :
    Calm served (considerEntry S name k)
      (fun k' s' => Sweep S served kMaximumCacheEntries d₀ s'.disk names k') s := by
  have hnot {x y : Suffix} (hname : cacheName name x = true) (hne : x ≠ y) :
      cacheName name y ≠ true := fun hname' => ne_of_cacheName hname hname' hne rfl
  unfold considerEntry
  by_cases htemp : (cacheName name .gzipTemp || cacheName name .metadataTemp ||
      cacheName name .skipTemp) = true
  · rw [if_pos htemp]
    obtain ⟨x, hx, hname⟩ : ∃ x, Suffix.Temporary x ∧ cacheName name x = true := by
      simp only [Bool.or_eq_true] at htemp
      rcases htemp with (hname | hname) | hname
      · exact ⟨.gzipTemp, trivial, hname⟩
      · exact ⟨.metadataTemp, trivial, hname⟩
      · exact ⟨.skipTemp, trivial, hname⟩
    apply remove_calm h hnames hname
    · rintro rfl
      exact hx
    · intro _ hskip
      exact absurd hskip (hnot hname (by rintro rfl; exact hx))
    · intro hmeta
      exact absurd hmeta (hnot hname (by rintro rfl; exact hx))
  rw [if_neg htemp]
  have htemp : ∀ x, Suffix.Temporary x → cacheName name x = true → name ∉ s.disk := by
    intro x hx hname
    apply absurd _ htemp
    cases x <;> simp_all [Suffix.Temporary]
  by_cases hskip : cacheName name .skip = true
  · rw [if_pos hskip]
    apply (markerCurrent_calm S name true s).bind
    intro current s₁ hcurrent
    obtain ⟨rfl, rfl⟩ := hcurrent
    obtain ⟨f, hf₀⟩ := lookup_of_mem (h.files.listed name List.mem_cons_self)
    have hf := h.files.skipKept name f hskip hf₀ (.inl List.mem_cons_self)
    have hfile : s₁.file name = some f := hf
    rw [hfile, Option.any_some]
    cases hcurrent : isCurrent S served true f.data with
    | false =>
      apply remove_calm h hnames hskip (by decide)
      · intro f' _ hf'
        cases hf.symm.trans hf'
        exact hcurrent
      · exact fun hmeta => absurd hmeta (hnot hskip (by decide))
    | true =>
      apply h.pass _ (fun hgzip => absurd hgzip (hnot hskip (by decide)))
      apply h.files.pass htemp
      · intro f' _ hf'
        cases hf.symm.trans hf'
        exact hcurrent
      · exact fun hmeta => absurd hmeta (hnot hskip (by decide))
  rw [if_neg hskip]
  by_cases hmeta : cacheName name .metadata = true
  · rw [if_pos hmeta]
    apply calm_query
    intro regular s₁ h₁
    obtain ⟨rfl, rfl⟩ := quiet_regularArtifact h₁
    cases hgzip : (s₁.file (artifact (keyOf name) .gzip)).isSome with
    | false =>
      apply remove_calm h hnames hmeta (by decide)
      · exact fun _ hskip' => absurd hskip' hskip
      · intro _ hmem
        have hsome : (s₁.file (artifact (keyOf name) .gzip)).isSome = true :=
          AList.lookup_isSome.mpr hmem
        rw [hgzip] at hsome
        cases hsome
    | true =>
      apply h.pass _ (fun hgzip => absurd hgzip (hnot hmeta (by decide)))
      apply h.files.pass htemp
      · exact fun _ hskip' => absurd hskip' hskip
      · exact fun _ _ => AList.lookup_isSome.mp hgzip
  rw [if_neg hmeta]
  by_cases hgzip : cacheName name .gzip = true
  · rw [hgzip]
    exact considerArtifact_calm h hnames hgzip
  · rw [Bool.eq_false_of_not_eq_true hgzip]
    apply h.pass _ (fun hgzip' => absurd hgzip' hgzip)
    apply h.files.pass htemp
    · exact fun _ hskip' => absurd hskip' hskip
    · exact fun hmeta' => absurd hmeta' hmeta

theorem walkCache_calm (h : Sweep S served kMaximumCacheEntries d₀ s.disk names k)
    (hnodup : names.Nodup) :
    Calm served (walkCache S names k) (fun k' s' => ∃ kept, k' = some kept ∧
      Sweep S served kMaximumCacheEntries d₀ s'.disk [] kept) s := by
  induction names generalizing k s with
  | nil => exact ⟨k, rfl, h⟩
  | cons name names ih =>
    obtain ⟨hname, hnames⟩ := List.nodup_cons.mp hnodup
    apply calm_query
    intro yielded s₁ hnext
    obtain ⟨rfl, hgone⟩ := quiet_nextEntry hnext
    cases yielded with
    | false =>
      have hgone := hgone rfl
      have hfiles : Files S served d₀ s₁.disk names := by
        apply h.files.pass
        · exact fun _ _ _ => hgone
        · exact fun f _ hf => absurd (mem_of_lookup hf) hgone
        · exact fun _ hmem => absurd hmem hgone
      exact ih (h.pass hfiles fun _ => hgone) hnames
    | true =>
      apply calm_query
      intro stopping s₂ hstop
      obtain ⟨rfl, rfl⟩ := quiet_stopping hstop
      apply (considerEntry_calm h hname).bind
      intro k' s₃ h'
      exact ih h' hnames

theorem prune_calm (target n : Nat) (h : Sweep S served 0 d₀ s.disk [] k) :
    Calm served (prune target n k) (fun k' s' => Sweep S served 0 d₀ s'.disk [] k' ∧
      (k.files.length ≤ n → k'.total ≤ target)) s := by
  have hempty {k' : Kept} {s' : Store} (h' : Sweep S served 0 d₀ s'.disk [] k')
      (hnil : k'.files = []) : k'.total ≤ target := by
    rw [h'.walk.total, hnil]
    exact Nat.zero_le target
  induction n generalizing k s with
  | zero => exact ⟨h, fun hn => hempty h (List.length_eq_zero_iff.mp (Nat.le_zero.mp hn))⟩
  | succ n ih =>
    unfold prune
    split_ifs with hdone
    · exact ⟨h, fun _ => hdone.elim id (hempty h)⟩
    apply calm_query
    intro oldest s₁ hoff
    obtain ⟨rfl, hmem, hoff⟩ := quiet_oldest hoff
    apply removeRepresentation_calm
    intro s₂ hs₂
    have hpop := h.pop hmem hoff
    rw [← hs₂] at hpop
    apply (ih hpop).mono (fun _ _ _ _ hm => hm) (fun _ _ _ hg => hg)
    intro k' s' hleft
    obtain ⟨h', hsmall⟩ := hleft
    refine ⟨h', fun hn => hsmall ?_⟩
    have hlength : (k.pop oldest).files.length = k.files.length - 1 := List.length_erase_of_mem hmem
    omega

end Calm

section Maintained

variable {S : Settings} {served : Text → Option CompressionSource} {d d₀ : Directory} {k : Kept}

theorem mem_pairs {name : Text} : name ∈ pairs S served d ↔ isPair S served d name = true := by
  rw [pairs, List.mem_filter]
  constructor
  · exact fun h => h.2
  · intro h
    refine ⟨?_, h⟩
    simp only [isPair, Bool.and_eq_true, Option.any_eq_true] at h
    obtain ⟨⟨-, f, hf, -⟩, -⟩ := h
    exact AList.mem_keys.mp (mem_of_lookup hf)

/-- What is kept was a pair before. -/
theorem Sweep.pair_before (h : Sweep S served 0 d₀ d [] k) {name : Text}
    (hpair : isPair S served d name = true) : isPair S served d₀ name = true := by
  simp only [isPair, Bool.and_eq_true, Option.any_eq_true] at hpair ⊢
  obtain ⟨⟨hname, f, hf, hlong⟩, m, hm, hcurrent⟩ := hpair
  exact ⟨⟨hname, f, h.files.removes _ f hf, hlong⟩, m, h.files.removes _ m hm, hcurrent⟩

/-- Few pairs are all kept. -/
theorem Sweep.keeps_all (h : Sweep S served kMaximumCacheEntries d₀ d [] k)
    (hfew : (pairs S served d₀).length ≤ kMaximumCacheEntries) {name : Text}
    (hpair : isPair S served d₀ name = true) : ∃ e ∈ k.files, e.path = name := by
  rcases h.evicted name hpair with hnil | hkept | ⟨hfull, -⟩
  · cases hnil
  · exact hkept
  · by_contra hout
    have hnodup : (name :: k.files.map Entry.path).Nodup := by
      refine List.nodup_cons.mpr ⟨?_, h.walk.nodup⟩
      intro hmem
      obtain ⟨e, he, heq⟩ := List.mem_map.mp hmem
      exact hout ⟨e, he, heq⟩
    have hsub : name :: k.files.map Entry.path ⊆ pairs S served d₀ := by
      intro name' hmem
      rcases List.mem_cons.mp hmem with rfl | hmem
      · exact mem_pairs.mpr hpair
      · obtain ⟨e, he, rfl⟩ := List.mem_map.mp hmem
        exact mem_pairs.mpr (h.lower.pair_before (h.kept e he).1)
    have hlength := (List.subperm_of_subset hnodup hsub).length_le
    rw [List.length_cons, List.length_map] at hlength
    omega

/-- The total of all pairs, where all are kept. -/
theorem Sweep.total_eq (h : Sweep S served kMaximumCacheEntries d₀ d [] k)
    (hfew : (pairs S served d₀).length ≤ kMaximumCacheEntries) :
    k.total = ((pairs S served d₀).map (sizeAt d₀)).sum := by
  have hnodup : (pairs S served d₀).Nodup := d₀.keys_nodup.filter _
  have hperm : (k.files.map Entry.path).Perm (pairs S served d₀) := by
    rw [List.perm_ext_iff_of_nodup h.walk.nodup hnodup]
    intro name
    rw [mem_pairs]
    constructor
    · intro hmem
      obtain ⟨e, he, rfl⟩ := List.mem_map.mp hmem
      exact h.lower.pair_before (h.kept e he).1
    · intro hpair
      obtain ⟨e, he, rfl⟩ := h.keeps_all hfew hpair
      exact List.mem_map_of_mem he
  rw [h.walk.total, ← (hperm.map (sizeAt d₀)).sum_eq, List.map_map]
  apply congrArg
  apply List.map_congr_left
  intro e he
  obtain ⟨-, -, f, hf, hsize⟩ := h.walk.holds e he
  rw [Function.comp_apply, sizeAt, h.files.removes _ f hf, Option.elim_some, hsize]

/-- An artifact that is left is a kept one. -/
theorem Sweep.kept_of_mem {floor : Nat} (h : Sweep S served floor d₀ d [] k) {name : Text}
    (hname : cacheName name .gzip = true) (hmem : name ∈ d) : ∃ e ∈ k.files, e.path = name := by
  rcases h.walk.covers name hmem hname with hnil | hkept
  · cases hnil
  · exact hkept

theorem Sweep.pair_of_mem {floor : Nat} (h : Sweep S served floor d₀ d [] k) {name : Text}
    (hname : cacheName name .gzip = true) (hmem : name ∈ d) : isPair S served d name = true := by
  obtain ⟨e, he, rfl⟩ := h.kept_of_mem hname hmem
  exact (h.kept e he).1

/-- The end of maintenance. -/
theorem Sweep.maintained {s : Store} (h : Sweep S served 0 d₀ s.disk [] k)
    (hentries : s.entries = k.files.length) (hbytes : s.bytes = k.total)
    (hsmall : k.total ≤ S.maxBytes)
    (hspared : (pairs S served d₀).length ≤ kMaximumCacheEntries →
      ((pairs S served d₀).map (sizeAt d₀)).sum ≤ S.maxBytes →
        ∀ name, isPair S served d₀ name = true → ∃ e ∈ k.files, e.path = name) :
    Maintained S served d₀ s := by
  obtain ⟨hcount, htotal⟩ := h.walk.exact
  refine ⟨h.files.removes, h.files.others, fun name hmem hname => h.pair_of_mem hname hmem, ?_, ?_,
    ?_, hcount.le.trans h.walk.few, htotal.le.trans hsmall, hentries.trans hcount.symm,
    hbytes.trans htotal.symm, ?_, ?_⟩
  · intro name hmem hname
    rcases h.files.metadata name hname hmem with hnil | hgzip
    · cases hnil
    · exact h.pair_of_mem (cacheName_keyOf hname .gzip) hgzip
  · intro name f hf hname
    constructor
    · intro hmem
      obtain ⟨f', hf'⟩ := lookup_of_mem hmem
      have hsame := h.files.removes name f' hf'
      rw [hf] at hsame
      cases hsame
      exact (h.files.skip name f hname hf').resolve_left List.not_mem_nil
    · intro hcurrent
      exact mem_of_lookup (h.files.skipKept name f hname hf (.inr hcurrent))
  · intro name x hx hname hmem
    cases h.files.temporary name x hx hname hmem
  · intro evicted kept hevicted hgone hkept
    have hname := isPair_named hkept
    rcases h.evicted evicted hevicted with hnil | ⟨e, he, rfl⟩ | ⟨-, hold⟩
    · cases hnil
    · obtain ⟨-, -, f, hf, -⟩ := h.walk.holds e he
      exact absurd (mem_of_lookup hf) hgone
    · have hmem := mem_pairs.mpr hkept
      rw [pairs, List.mem_filter] at hmem
      obtain ⟨e, he, rfl⟩ := h.kept_of_mem hname (AList.mem_keys.mpr hmem.1)
      rw [← (h.kept e he).2]
      exact hold e he
  · intro hfew hbudget name hpair
    obtain ⟨e, he, rfl⟩ := hspared hfew hbudget name hpair
    exact (h.kept e he).1

/-- Where maintenance ends: the whole directory is walked, what is kept is within the limits, and
nothing is dropped that fits. -/
theorem maintainCache_sweep (S : Settings) (s : Store) (h : artifactBytes s.disk < 2 ^ 64) :
    Calm served (maintainCache S) (fun _ s' => ∃ k : Kept, Sweep S served 0 s.disk s'.disk [] k ∧
      s'.entries = k.files.length ∧ s'.bytes = k.total ∧ k.total ≤ S.maxBytes ∧
      ((pairs S served s.disk).length ≤ kMaximumCacheEntries →
        ((pairs S served s.disk).map (sizeAt s.disk)).sum ≤ S.maxBytes →
          ∀ name, isPair S served s.disk name = true → ∃ e ∈ k.files, e.path = name)) s := by
  apply calm_query
  intro names s₁ hlist
  obtain ⟨rfl, names, rfl, hperm⟩ := quiet_listDirectory hlist
  have hstart : Sweep S served kMaximumCacheEntries s₁.disk s₁.disk names {} := .start hperm h
  apply (walkCache_calm hstart (hperm.nodup_iff.mpr s₁.disk.keys_nodup)).bind
  intro kept s₂ hkept
  obtain ⟨k, rfl, hsweep⟩ := hkept
  have hprune : Calm served (pruneToBudget S.maxBytes k) (fun k' s' =>
      Sweep S served 0 s₁.disk s'.disk [] k' ∧ k'.total ≤ S.maxBytes ∧
        (k.total ≤ S.maxBytes → k' = k)) s₂ := by
    unfold pruneToBudget
    split_ifs with hover
    · apply (prune_calm _ _ hsweep.lower).mono (fun _ _ _ _ hm => hm) (fun _ _ _ hg => hg)
      intro k' s' hleft
      obtain ⟨h', hsmall⟩ := hleft
      exact ⟨h', (hsmall le_rfl).trans (Nat.sub_le _ _), fun hle => absurd hover (not_lt.mpr hle)⟩
    · exact ⟨hsweep.lower, not_lt.mp hover, fun _ => rfl⟩
  apply hprune.bind
  intro k' s₃ hleft x s₄ hset
  obtain ⟨h₃, hsmall, hsame⟩ := hleft
  refine ⟨trivial, ?_⟩
  rw [quiet_setCounters hset]
  refine ⟨k', h₃, rfl, rfl, hsmall, ?_⟩
  intro hfew hbudget name hpair
  rw [hsame (hsweep.total_eq hfew ▸ hbudget)]
  exact hsweep.keeps_all hfew hpair

/-- A representation, a temporary file of the same key and a file of somebody else. -/
def litteredStore : Store :=
  let source := sampleSource (text "/r/maps/a.bsp") 1
  let key := cacheKey (sourceIdentity source)
  ((({} : Store).put (artifact key .gzip) ⟨List.replicate 20 'a', 3, none⟩).put
    (artifact key .metadata) ⟨sourceIdentity source, 3, none⟩).put
      (artifact key .gzipTemp) ⟨[], 4, none⟩ |>.put (text "notes") ⟨[], 1, none⟩

end Maintained

end FastdlMm.CompressionCache
