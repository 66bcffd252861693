import FastdlMm.Cache.Eviction
import FastdlMm.Files.OwnUrl

namespace FastdlMm.CompressionCache

/-- What a request brings to the cache: where `resolve` leads, and what `inspectReadFile` finds
there. -/
def resolvedSource (r : PathResolver) (t : Tree) (times : Inode → Int × Nat) (maxFileBytes : Nat)
    (rawUrl : Text) : Option CompressionSource :=
  let resolved := r.resolve t rawUrl maxFileBytes
  if resolved.status = .ok then
    (describeFile t times resolved.path).map fun info =>
      ⟨pathText resolved.path, resolved.extension, info⟩
  else none

/-- `weakly_canonical` of a stored path; one that is not absolute stays so where nothing of it
exists. -/
def storedPlace (t : Tree) (cwd : Path) (line : Text) : Option Path :=
  if line.head? = some '/' then (weaklyCanonical t (line.tail.splitOn '/')).toOption
  else
    let names := cwd ++ line.splitOn '/'
    match t.locate (names.take (cwd.length + 1)) with
    | .ok _ => (weaklyCanonical t names).toOption
    | .error _ => none

/-- `relative` of a stored path and the root, as text. -/
def relativeText (t : Tree) (cwd root : Path) (line : Text) : Option Text :=
  match storedPlace t cwd line, weaklyCanonical t root with
  | some place, .ok base => some (joined (lexicallyRelative place base))
  | _, _ => none

/-- The way of `markerCurrent` from a stored path to the source that is served there now. -/
def servedSource (r : PathResolver) (t : Tree) (times : Inode → Int × Nat) (cwd : Path)
    (maxFileBytes : Nat) (line : Text) : Option CompressionSource :=
  match relativeText t cwd r.root line with
  | some relative =>
      if relative = [] ∨ relative = ['.', '.'] ∨ ['.', '.', '/'] <+: relative then none
      else resolvedSource r t times maxFileBytes ('/' :: relative)
  | none => none

/-- The first line of the text of a path. -/
def firstLine (p : Path) : Text := (pathText p).takeWhile (· ≠ '\n')

/-- A path comes back from its marker: its part below the root passes as a URL, and the line that is
read leads to it, as it does if it is the whole path. -/
structure ReadsBack (r : PathResolver) (t : Tree) (p : Path) : Prop where
  url : PathResolver.validate ('/' :: joined (p.drop r.root.length)) ≠ none
  line : t.locate ((firstLine p).tail.splitOn '/') = .ok p

section FirstLine

variable {p : Path}

/-- What stands in the first line: the names up to the one in which the line ends. -/
theorem splitOn_firstLine (hp : p ≠ []) (h : ∀ n ∈ p, '/' ∉ n) : ∃ init n rest,
    p = init ++ n :: rest ∧
      (firstLine p).tail.splitOn '/' = init ++ [n.takeWhile (· ≠ '\n')] := by
  have htail : (firstLine p).tail = (joined p).takeWhile (· ≠ '\n') := by
    simp [firstLine, pathText]
  rw [htail]
  clear htail
  induction p with
  | nil => exact absurd rfl hp
  | cons n more ih =>
    have hn : '/' ∉ n := h n List.mem_cons_self
    have hpart : '/' ∉ n.takeWhile (· ≠ '\n') := fun hmem =>
      hn ((List.takeWhile_sublist _).mem hmem)
    cases more with
    | nil =>
      refine ⟨[], n, [], rfl, ?_⟩
      have hsingle : joined [n] = n := List.intercalate_singleton
      rw [hsingle, List.splitOn_eq_singleton hpart, List.nil_append]
    | cons m more =>
      rw [joined_cons_cons, takeWhile_append_cons (by decide)]
      split_ifs with hnewline
      · exact ⟨[], n, m :: more, rfl, List.splitOn_eq_singleton hpart⟩
      · obtain ⟨init, n', rest, heq, hsplit⟩ :=
          ih (by simp) fun k hk => h k (List.mem_cons_of_mem n hk)
        refine ⟨n :: init, n', rest, by rw [heq, List.cons_append], ?_⟩
        rw [List.splitOn_append_cons_self_of_not_mem hn, hsplit, List.cons_append]

/-- Where a first line leads, or would lead, its names are those of a file system, and what is there
is found by the line itself. -/
theorem weaklyCanonical_firstLine {t : Tree} {place : Path} (ht : t.Named) (hreal : t.Real p)
    (hp : p ≠ []) (h : weaklyCanonical t ((firstLine p).tail.splitOn '/') = .ok place) :
    (∀ n ∈ place, Name.Plain n) ∧ (∀ n ∈ place, '/' ∉ n ∧ '\x00' ∉ n) ∧
      ∀ q, t.locate place = .ok q → t.locate ((firstLine p).tail.splitOn '/') = .ok q := by
  obtain ⟨init, n, rest, hinit, hsplit⟩ := splitOn_firstLine hp fun k hk => (hreal.named ht k hk).1
  rw [hsplit] at h ⊢
  subst hinit
  have hrealInit : t.Real init := hreal.of_prefix (List.prefix_append _ _)
  rcases weaklyCanonical_snoc hrealInit hreal.directory h with hthere | ⟨rfl, hnot⟩
  · have hrealPlace := t.real_of_locate hthere
    refine ⟨hrealPlace.plain, hrealPlace.named ht, fun q hq => ?_⟩
    rw [hrealPlace.locate] at hq
    cases hq
    exact hthere
  · -- the line ends within a name, and there is nothing under what it leaves of it
    have hplain : Name.Plain (n.takeWhile (· ≠ '\n')) := by
      by_contra hno
      obtain ⟨q, hq⟩ := locate_snoc_of_not_plain hrealInit hreal.directory hno
      exact hnot q hq
    have hn := hreal.named ht n (by simp)
    have hsub : n.takeWhile (· ≠ '\n') ⊆ n := (List.takeWhile_sublist _).subset
    refine ⟨?_, ?_, fun q hq => hq⟩
    · intro k hk
      rcases List.mem_append.mp hk with hk | hk
      · exact hrealInit.plain k hk
      · rw [List.mem_singleton.mp hk]
        exact hplain
    · intro k hk
      rcases List.mem_append.mp hk with hk | hk
      · exact hrealInit.named ht k hk
      · rw [List.mem_singleton.mp hk]
        exact ⟨fun hc => hn.1 (hsub hc), fun hc => hn.2 (hsub hc)⟩

/-- A path in one line is read whole. -/
theorem locate_firstLine {t : Tree} (ht : t.Named) (hreal : t.Real p) (hp : p ≠ [])
    (h : ∀ n ∈ p, '\n' ∉ n) : t.locate ((firstLine p).tail.splitOn '/') = .ok p := by
  have hline : '\n' ∉ joined p := not_mem_joined (by decide) h
  have hwhole : (firstLine p).tail = joined p := by
    rw [firstLine, pathText, List.takeWhile_cons_of_pos (by decide), List.tail_cons]
    exact List.takeWhile_eq_self_iff.mpr fun c hc => by
      simp only [ne_eq, decide_eq_true_eq]
      rintro rfl
      exact hline hc
  rw [hwhole, splitOn_joined hp fun n hn => (hreal.named ht n hn).1]
  exact hreal.locate

/-- Below a root without newlines it is only the URL that counts. -/
theorem readsBack_iff_url {r : PathResolver} {t : Tree} (ht : t.Named) (hreal : t.Real p)
    (hp : p ≠ []) (hroot : r.root <+: p) (hnewline : ∀ n ∈ r.root, '\n' ∉ n) :
    ReadsBack r t p ↔ PathResolver.validate ('/' :: joined (p.drop r.root.length)) ≠ none := by
  constructor
  · exact fun h => h.url
  · intro hurl
    refine ⟨hurl, locate_firstLine ht hreal hp fun n hn hmem => ?_⟩
    obtain ⟨below, rfl⟩ := hroot
    rw [List.drop_left] at hurl
    obtain ⟨relative, hvalid⟩ := Option.ne_none_iff_exists'.mp hurl
    have hnamed : ∀ k ∈ below, '/' ∉ k ∧ '\x00' ∉ k :=
      fun k hk => hreal.named ht k (List.mem_append_right _ hk)
    rcases List.mem_append.mp hn with hn | hn
    · exact hnewline n hn hmem
    · have hsafe := (PathResolver.of_validate_joined hnamed hvalid).1
      have hbyte := hsafe.bytes '\n' (List.mem_cons_of_mem _ (mem_joined hn hmem))
      exact absurd hbyte.1 (by decide)

end FirstLine

section Identity

variable {source source' : CompressionSource}

/-- What a marker of a kind holds. -/
def markerIdentity (maxBytes : Nat) (skip : Bool) (source : CompressionSource) : Text :=
  if skip then skipIdentity maxBytes source else sourceIdentity source

theorem sourceIdentity_of_markerIdentity (maxBytes : Nat) (skip : Bool)
    (h : markerIdentity maxBytes skip source = markerIdentity maxBytes skip source') :
    sourceIdentity source = sourceIdentity source' := by
  cases skip with
  | false => exact h
  | true => exact (skipIdentity_inj h).1

theorem markerIdentity_congr (maxBytes : Nat) (skip : Bool) (hpath : source.path = source'.path)
    (hinfo : source.info = source'.info) :
    markerIdentity maxBytes skip source = markerIdentity maxBytes skip source' := by
  have hsame : sourceIdentity source = sourceIdentity source' := by
    rw [sourceIdentity, hpath, hinfo, sourceIdentity]
  rw [markerIdentity, markerIdentity, skipIdentity, skipIdentity, hsame]

/-- The path that is read from a marker is the first line of it. -/
theorem markerPath_markerIdentity {p : Path} (maxBytes : Nat) (skip : Bool)
    (hpath : source.path = pathText p) :
    markerPath (markerIdentity maxBytes skip source) = some (firstLine p) := by
  obtain ⟨rest, hrest⟩ : ∃ rest, markerIdentity maxBytes skip source =
      pathText p ++ '\n' :: rest := by
    refine ⟨(markerIdentity maxBytes skip source).drop (pathText p).length |>.tail, ?_⟩
    cases skip <;> simp [markerIdentity, skipIdentity, sourceIdentity, hpath]
  have hline : (markerIdentity maxBytes skip source).takeWhile (· ≠ '\n') = firstLine p := by
    rw [hrest, takeWhile_append_self, firstLine]
  have hshort : (firstLine p).length < (markerIdentity maxBytes skip source).length := by
    have hle : (firstLine p).length ≤ (pathText p).length :=
      (List.takeWhile_sublist _).length_le
    rw [hrest, List.length_append, List.length_cons]
    omega
  have hne : firstLine p ≠ [] := by
    rw [firstLine, pathText, List.takeWhile_cons_of_pos (by decide)]
    exact List.cons_ne_nil _ _
  unfold markerPath
  rw [hline]
  exact if_neg fun hor => hor.elim hshort.ne hne

end Identity

section WayBack

variable {r : PathResolver} {t : Tree} {times : Inode → Int × Nat} {cwd : Path}
  {maxFileBytes : Nat} {url line : Text} {source source' : CompressionSource} {p : Path}

theorem resolvedSource_some
    (h : resolvedSource r t times maxFileBytes url = some source) :
    ((r.resolve t url maxFileBytes).status = .ok ∧
      source.path = pathText (r.resolve t url maxFileBytes).path) ∧
      describeFile t times (r.resolve t url maxFileBytes).path = some source.info := by
  simp only [resolvedSource, Option.ite_none_right_eq_some] at h
  obtain ⟨hok, h⟩ := h
  obtain ⟨info, hinfo, rfl⟩ := Option.map_eq_some_iff.mp h
  exact ⟨⟨hok, rfl⟩, hinfo⟩

theorem pathText_inj {p' : Path} (ht : t.Named) (h : t.Real p) (h' : t.Real p') (hp : p ≠ [])
    (hp' : p' ≠ []) (heq : pathText p = pathText p') : p = p' :=
  joined_inj hp hp' (fun n hn => (h.named ht n hn).1) (fun n hn => (h'.named ht n hn).1)
    (List.cons.inj heq).2

theorem storedPlace_firstLine : storedPlace t cwd (firstLine p) =
    (weaklyCanonical t ((firstLine p).tail.splitOn '/')).toOption := by
  have hhead : (firstLine p).head? = some '/' := by
    rw [firstLine, pathText, List.takeWhile_cons_of_pos (by decide), List.head?_cons]
  rw [storedPlace, if_pos hhead]

/-- A path that reads back is found again. -/
theorem ReadsBack.servedSource (cwd : Path) (ht : t.Named)
    (hsource : resolvedSource r t times maxFileBytes url = some source)
    (h : ReadsBack r t (r.resolve t url maxFileBytes).path) : ∃ source',
    servedSource r t times cwd maxFileBytes (firstLine (r.resolve t url maxFileBytes).path) =
      some source' ∧ source'.path = source.path ∧ source'.info = source.info := by
  obtain ⟨⟨hok, hpath⟩, hinfo⟩ := resolvedSource_some hsource
  obtain ⟨hreal, n, rest, hbelow⟩ := PathResolver.resolve_real ⟨hok, rfl⟩
  have hown := PathResolver.resolve_own ht ⟨hok, rfl⟩ hbelow
  generalize (r.resolve t url maxFileBytes).path = p at *
  obtain ⟨hurl, hline⟩ := h
  have hroot : t.Real r.root := hreal.of_prefix ⟨n :: rest, hbelow.symm⟩
  have hdrop : p.drop r.root.length = n :: rest := by rw [hbelow, List.drop_left]
  rw [hdrop] at hurl
  obtain ⟨hok', hpath'⟩ := hown hurl
  have hrelative : relativeText t cwd r.root (firstLine p) = some (joined (n :: rest)) := by
    have hrel : lexicallyRelative p r.root = n :: rest := by
      rw [hbelow, lexicallyRelative_append]
    rw [relativeText, storedPlace_firstLine, weaklyCanonical_of_locate hline,
      weaklyCanonical_of_locate hroot.locate]
    simp only [Except.toOption, hrel]
  have hmem : n ∈ p := by simp [hbelow]
  have hpass := joined_onward (hreal.named ht n hmem).1 (hreal.plain n hmem) rest
  refine ⟨⟨source.path, (r.resolve t ('/' :: joined (n :: rest)) maxFileBytes).extension,
    source.info⟩, ?_, rfl, rfl⟩
  rw [CompressionCache.servedSource, hrelative]
  simp only [if_neg hpass, resolvedSource, hok', hpath', hinfo, if_true, Option.map_some, hpath]

/-- A path that is found again reads back. -/
theorem readsBack_of_servedSource (ht : t.Named)
    (hsource : resolvedSource r t times maxFileBytes url = some source)
    (hserved : servedSource r t times cwd maxFileBytes
      (firstLine (r.resolve t url maxFileBytes).path) = some source')
    (hback : source'.path = source.path) :
    ReadsBack r t (r.resolve t url maxFileBytes).path := by
  obtain ⟨⟨hok, hpath⟩, -⟩ := resolvedSource_some hsource
  obtain ⟨hreal, n, rest, hbelow⟩ := PathResolver.resolve_real ⟨hok, rfl⟩
  generalize (r.resolve t url maxFileBytes).path = p at *
  have hroot : t.Real r.root := hreal.of_prefix ⟨n :: rest, hbelow.symm⟩
  have hp : p ≠ [] := by simp [hbelow]
  unfold CompressionCache.servedSource at hserved
  split at hserved
  case h_2 => cases hserved
  rename_i relative hrelative
  obtain ⟨hpass, hserved⟩ := Option.ite_none_left_eq_some.mp hserved
  obtain ⟨⟨hok', hpath'⟩, -⟩ := resolvedSource_some hserved
  have hsame : (r.resolve t ('/' :: relative) maxFileBytes).path = p := by
    obtain ⟨hreal', n', rest', hbelow'⟩ := PathResolver.resolve_real ⟨hok', rfl⟩
    apply pathText_inj ht hreal' hreal (by simp [hbelow']) hp
    rw [← hpath', hback, hpath]
  obtain ⟨names, hvalid, hlocate, -⟩ := (PathResolver.resolve_ok r t _ _ p).mp ⟨hok', hsame⟩
  rw [relativeText, storedPlace_firstLine, weaklyCanonical_of_locate hroot.locate] at hrelative
  cases hplace : weaklyCanonical t ((firstLine p).tail.splitOn '/') with
  | error e =>
    rw [hplace] at hrelative
    cases hrelative
  | ok place =>
    rw [hplace] at hrelative
    have hrelative : joined (lexicallyRelative place r.root) = relative := Option.some.inj hrelative
    subst hrelative
    obtain ⟨hplain, hnamed, hfound⟩ := weaklyCanonical_firstLine ht hreal hp hplace
    rcases lexicallyRelative_cases place r.root with ⟨m, below, hunder, hrel⟩ | hrel | ⟨up, hrel⟩
    · rw [hrel] at hvalid
      have hmem : ∀ k ∈ m :: below, k ∈ place := fun k hk => hunder ▸ List.mem_append_right _ hk
      have hnames : names = m :: below := PathResolver.validate_joined (by simp)
        (fun k hk => hplain k (hmem k hk)) (fun k hk => hnamed k (hmem k hk)) hvalid
      rw [hnames, ← hunder] at hlocate
      have hline := hfound p hlocate
      rw [weaklyCanonical_of_locate hline] at hplace
      cases hplace
      refine ⟨?_, hline⟩
      rw [hunder, List.drop_left, hvalid]
      exact Option.some_ne_none names
    · have hdot : PathResolver.validate ('/' :: joined [['.']]) = none := by decide
      rw [hrel, hdot] at hvalid
      cases hvalid
    · rw [hrel] at hpass
      exact absurd (.inr (joined_upward up)) hpass

end WayBack

section Lasting

variable {S : Settings} {served : Text → Option CompressionSource} {skip : Bool} {name : Text}
  {f : File} {s : Store}

/-- What a marker that was stored is for: it counts as current, and maintenance keeps it with what it
stands for, for which there may be no room in the case of a representation. -/
structure Lasts (S : Settings) (served : Text → Option CompressionSource) (skip : Bool)
    (name : Text) (f : File) (s : Store) : Prop where
  current : (markerCurrent S name skip).Safe (Op.Quiet served) (fun _ _ _ => True)
    (fun x _ => x = true) s
  skipped : skip = true → cacheName name .skip = true → artifactBytes s.disk < 2 ^ 64 →
    (maintainCache S).Safe (Op.Quiet served) (fun _ _ _ => True)
      (fun _ s' => s'.file name = some f) s
  paired : skip = false → cacheName name .metadata = true → artifactBytes s.disk < 2 ^ 64 →
    (pairs S served s.disk).length ≤ kMaximumCacheEntries →
    ((pairs S served s.disk).map (sizeAt s.disk)).sum ≤ S.maxBytes →
    ∀ g, s.file (artifact (keyOf name) .gzip) = some g → 18 ≤ g.data.length →
      (maintainCache S).Safe (Op.Quiet served) (fun _ _ _ => True)
        (fun _ s' => s'.file name = some f ∧ s'.file (artifact (keyOf name) .gzip) = some g) s

/-- Where nothing fails, what is asked about one file has an answer. -/
theorem quiet_of_peeks (q : Op) (hq : q.Peeks) (s : Store) : ∃ x s', q.Quiet served s x s' := by
  cases q with
  | regularArtifact name => exact ⟨_, s, {}, { stopping := false }, _, rfl, rfl, rfl⟩
  | fileSize name => exact ⟨_, s, {}, { stopping := false }, _, rfl, rfl, rfl⟩
  | read name size =>
    cases hf : s.file name with
    | none =>
      refine ⟨none, s, {}, { stopping := false }, { stopping := false }, rfl, rfl, ?_⟩
      simp only [Op.perform, hf]
    | some f =>
      refine ⟨if f.data.length < size then none else some (f.data.take size), s, {},
        { stopping := false }, { stopping := false }, rfl, rfl, ?_⟩
      simp [Op.perform, hf]
  | describe path => exact ⟨_, s, { source := served path }, { stopping := false }, _, rfl, rfl, rfl⟩
  | _ => cases hq

theorem markerCurrent_true_iff (hfile : s.file name = some f) :
    Calm served (markerCurrent S name skip) (fun x _ => x = true) s ↔
      isCurrent S served skip f.data = true := by
  have hcalm : Calm served (markerCurrent S name skip) (fun x s' => s' = s ∧
    x = (s.file name).any fun f => isCurrent S served skip f.data) s := markerCurrent_calm S name skip s
  rw [hfile, Option.any_some] at hcalm
  constructor
  · intro htrue
    have hlive : (markerCurrent S name skip).Asks fun q => ∀ s, ∃ x s', q.Quiet served s x s' :=
      (markerCurrent_peeks S name skip).mono quiet_of_peeks
    obtain ⟨x, s', hx, -, hsame⟩ := (htrue.and hcalm).exists_end hlive
    rw [← hsame, hx]
  · intro hcurrent
    apply hcalm.mono (fun _ _ _ _ hm => hm) (fun _ _ _ hg => hg)
    rintro x s' ⟨-, hx⟩
    rw [hx, hcurrent]

theorem marker_of_gzip (hname : cacheName name .metadata = true) :
    artifact (keyOf (artifact (keyOf name) .gzip)) .metadata = name := by
  rw [keyOf_artifact (cacheName_keyOf hname .gzip), artifact_keyOf hname]

/-- A representation whose marker counts as current is kept if there is room for all of them. -/
theorem maintainCache_keeps_pair {g : File} (hsmall : artifactBytes s.disk < 2 ^ 64)
    (hfew : (pairs S served s.disk).length ≤ kMaximumCacheEntries)
    (hbudget : ((pairs S served s.disk).map (sizeAt s.disk)).sum ≤ S.maxBytes)
    (hname : cacheName name .metadata = true) (hfile : s.file name = some f)
    (hcurrent : isCurrent S served false f.data = true)
    (hgzip : s.file (artifact (keyOf name) .gzip) = some g) (hlong : 18 ≤ g.data.length) :
    Calm served (maintainCache S) (fun _ s' => s'.file name = some f ∧
      s'.file (artifact (keyOf name) .gzip) = some g) s := by
  have hgzipName := cacheName_keyOf hname .gzip
  have hmarker := marker_of_gzip hname
  have hpair : isPair S served s.disk (artifact (keyOf name) .gzip) = true := by
    have hfile : s.disk.lookup name = some f := hfile
    have hgzip : s.disk.lookup (artifact (keyOf name) .gzip) = some g := hgzip
    rw [isPair, hgzipName, hmarker, hgzip, hfile]
    simp [hlong, hcurrent]
  apply (maintainCache_sweep S s hsmall).mono (fun _ _ _ _ hm => hm) (fun _ _ _ hg => hg)
  rintro _ s' ⟨k, hsweep, -, -, -, hspared⟩
  obtain ⟨e, he, hpath⟩ := hspared hfew hbudget _ hpair
  have hleft := (hsweep.kept e he).1
  rw [hpath] at hleft
  rw [isPair, hmarker] at hleft
  simp only [Bool.and_eq_true, Option.any_eq_true] at hleft
  obtain ⟨⟨-, g', hg', -⟩, f', hf', -⟩ := hleft
  have hsameFile : some f = some f' := hfile.symm.trans (hsweep.files.removes name f' hf')
  have hsameGzip : some g = some g' := hgzip.symm.trans (hsweep.files.removes _ g' hg')
  exact ⟨hf'.trans hsameFile.symm, hg'.trans hsameGzip.symm⟩

/-- A representation whose marker does not count as current goes. -/
theorem maintainCache_drops_pair (hsmall : artifactBytes s.disk < 2 ^ 64)
    (hname : cacheName name .metadata = true) (hfile : s.file name = some f)
    (hstale : isCurrent S served false f.data = false) :
    Calm served (maintainCache S) (fun _ s' => s'.file (artifact (keyOf name) .gzip) = none) s := by
  have hgzipName := cacheName_keyOf hname .gzip
  have hmarker := marker_of_gzip hname
  apply (maintainCache_sweep S s hsmall).mono (fun _ _ _ _ hm => hm) (fun _ _ _ hg => hg)
  rintro _ s' ⟨k, hsweep, -⟩
  rw [Option.eq_none_iff_forall_ne_some]
  intro g hg
  have hleft := hsweep.pair_of_mem hgzipName (mem_of_lookup hg)
  rw [isPair, hmarker] at hleft
  simp only [Bool.and_eq_true, Option.any_eq_true] at hleft
  obtain ⟨-, f', hf', hcurrent⟩ := hleft
  have hsame : some f = some f' := hfile.symm.trans (hsweep.files.removes name f' hf')
  cases hsame
  rw [hstale] at hcurrent
  cases hcurrent

theorem lasts_iff_isCurrent (hfile : s.file name = some f) :
    Lasts S served skip name f s ↔ isCurrent S served skip f.data = true := by
  constructor
  · intro h
    exact (markerCurrent_true_iff hfile).mp h.current
  · intro hcurrent
    refine ⟨(markerCurrent_true_iff hfile).mpr hcurrent, ?_, ?_⟩
    · rintro rfl hname hsmall
      apply (maintainCache_sweep S s hsmall).mono (fun _ _ _ _ hm => hm) (fun _ _ _ hg => hg)
      rintro _ s' ⟨k, hsweep, -⟩
      exact hsweep.files.skipKept name f hname hfile (.inr hcurrent)
    · rintro rfl hname hsmall hfew hbudget g hgzip hlong
      exact maintainCache_keeps_pair hsmall hfew hbudget hname hfile hcurrent hgzip hlong

end Lasting

/-- A marker of a source that is served unchanged counts as current exactly if its path reads back. -/
theorem isCurrent_iff_readsBack {S : Settings} {r : PathResolver} {t : Tree}
    {times : Inode → Int × Nat} {cwd : Path} {maxFileBytes : Nat} {url : Text}
    {source : CompressionSource} {skip : Bool} (ht : t.Named) (hresolver : S.hasResolver = true)
    (hsource : resolvedSource r t times maxFileBytes url = some source)
    (hshort : (markerIdentity S.maxBytes skip source).length ≤ kMaximumMarkerBytes) :
    isCurrent S (servedSource r t times cwd maxFileBytes) skip
        (markerIdentity S.maxBytes skip source) = true ↔
      ReadsBack r t (r.resolve t url maxFileBytes).path := by
  obtain ⟨⟨-, hpath⟩, -⟩ := resolvedSource_some hsource
  have hline := markerPath_markerIdentity S.maxBytes skip hpath
  have hne : markerIdentity S.maxBytes skip source ≠ [] := by
    intro hnil
    rw [hnil] at hline
    cases hline
  rw [isCurrent, hline, hresolver]
  simp only [hne, hshort, ne_eq, not_false_eq_true, decide_true, Bool.true_and, Option.bind_some,
    Option.any_eq_true, decide_eq_true_eq]
  constructor
  · intro hfound
    obtain ⟨source', hserved, hsame⟩ := hfound
    have hids : sourceIdentity source = sourceIdentity source' :=
      sourceIdentity_of_markerIdentity S.maxBytes skip hsame
    exact readsBack_of_servedSource ht hsource hserved (sourceIdentity_inj hids).1.symm
  · intro h
    obtain ⟨source', hserved, hsamePath, hsameInfo⟩ := h.servedSource cwd ht hsource
    exact ⟨source', hserved, markerIdentity_congr S.maxBytes skip hsamePath.symm hsameInfo.symm⟩

/-- The marker of a source that is served unchanged lasts exactly if its path reads back. -/
theorem lasts_iff_readsBack (S : Settings) (r : PathResolver) (t : Tree)
    (times : Inode → Int × Nat) (cwd : Path) (maxFileBytes : Nat) (url : Text)
    (source : CompressionSource) (skip : Bool) (name : Text) (f : File) (s : Store)
    (ht : t.Named) (hresolver : S.hasResolver = true)
    (hsource : resolvedSource r t times maxFileBytes url = some source)
    (hfile : s.file name = some f)
    (hstored : f.data = if skip then skipIdentity S.maxBytes source else sourceIdentity source)
    (hshort : f.data.length ≤ kMaximumMarkerBytes) :
    Lasts S (servedSource r t times cwd maxFileBytes) skip name f s ↔
      ReadsBack r t (r.resolve t url maxFileBytes).path := by
  have hstored : f.data = markerIdentity S.maxBytes skip source := hstored
  rw [hstored] at hshort
  rw [lasts_iff_isCurrent hfile, hstored]
  exact isCurrent_iff_readsBack ht hresolver hsource hshort

/-- A representation of a source and its marker. -/
def published (source : CompressionSource) : Store :=
  let key := cacheKey (sourceIdentity source)
  (({} : Store).put (artifact key .gzip) ⟨List.replicate 20 'a', 3, none⟩).put
    (artifact key .metadata) ⟨sourceIdentity source, 3, none⟩

def sampleTimes : Inode → Int × Nat := fun _ => (1700000000, 5)

/-- Served through a link with a name that needs no care. -/
theorem lasts_iff_readsBack_link :
    let source : CompressionSource :=
      ⟨text "/www/maps/a.bsp", text ".bsp", fileInfo sampleTimes ⟨1, 7⟩ 2000⟩
    Lasts (sampleSettings cacheKey)
      (servedSource PathResolver.sampleResolver PathResolver.sampleTree sampleTimes [] 5000) false
      (artifact (cacheKey (sourceIdentity source)) .metadata) ⟨sourceIdentity source, 3, none⟩
      (published source) := by
  intro source
  have hnamed : PathResolver.sampleTree.Named := Tree.named_of_entries (by decide +kernel)
  have hsource : resolvedSource PathResolver.sampleResolver PathResolver.sampleTree sampleTimes 5000
      (text "/new//a.bsp") = some source := by decide +kernel
  exact (lasts_iff_readsBack (sampleSettings cacheKey) PathResolver.sampleResolver
    PathResolver.sampleTree sampleTimes [] 5000 (text "/new//a.bsp") source false _ _ (published source)
    hnamed rfl hsource (by simp [published, Store.file_put, source]) rfl (by decide +kernel)).mpr
      ⟨by decide +kernel, by decide +kernel⟩

/-- A served directory in which the name of a file is not one for a URL, and a link gives it one. -/
def colonTree : Tree :=
  Tree.ofEntries
    [([text "www"], .directory), ([text "www", text "maps"], .directory),
      ([text "www", text "maps", text "a:1.bsp"], .file ⟨1, 7⟩ 2000),
      ([text "www", text "maps", text "a.bsp"], .symlink ⟨false, [text "a:1.bsp"]⟩)] 40
    (by decide +kernel)

/-- The file is served, nothing changes, and every maintenance removes what was compressed of it. -/
theorem colon_path_drops :
    let source : CompressionSource :=
      ⟨text "/www/maps/a:1.bsp", text ".bsp", fileInfo sampleTimes ⟨1, 7⟩ 2000⟩
    let key := cacheKey (sourceIdentity source)
    let served := servedSource PathResolver.sampleResolver colonTree sampleTimes [] 5000
    colonTree.Named ∧
      resolvedSource PathResolver.sampleResolver colonTree sampleTimes 5000 (text "/maps/a.bsp") =
        some source ∧
      (published source).file (artifact key .metadata) = some ⟨sourceIdentity source, 3, none⟩ ∧
      (sourceIdentity source).length ≤ kMaximumMarkerBytes ∧
      ¬ Lasts (sampleSettings cacheKey) served false (artifact key .metadata)
        ⟨sourceIdentity source, 3, none⟩ (published source) ∧
      (maintainCache (sampleSettings cacheKey)).Safe (Op.Quiet served) (fun _ _ _ => True)
        (fun _ s' => s'.file (artifact key .gzip) = none) (published source) := by
  intro source key served
  have hfile : (published source).file (artifact key .metadata) =
      some ⟨sourceIdentity source, 3, none⟩ := by simp [published, Store.file_put, key]
  have hstale : isCurrent (sampleSettings cacheKey) served false (sourceIdentity source) = false := by
    decide +kernel
  have hname : cacheName (artifact key .metadata) .metadata = true := by decide +kernel
  have hkey : keyOf (artifact key .metadata) = key := keyOf_artifact hname
  refine ⟨Tree.named_of_entries (by decide +kernel), by decide +kernel, hfile, by decide +kernel,
    ?_, ?_⟩
  · rw [lasts_iff_isCurrent hfile, hstale]
    exact Bool.false_ne_true
  · have hdrops := maintainCache_drops_pair (S := sampleSettings cacheKey) (by decide +kernel) hname
      hfile hstale
    rwa [hkey] at hdrops

end FastdlMm.CompressionCache
