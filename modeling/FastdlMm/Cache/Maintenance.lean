import FastdlMm.Cache.DiskUse

namespace FastdlMm.CompressionCache

/-- The directory holds an artifact as the entry says. -/
def Holds (d : Directory) (e : Entry) : Prop :=
  cacheName e.path .gzip = true ∧ 18 ≤ e.size ∧
    ∃ f, d.lookup e.path = some f ∧ f.data.length = e.size

theorem Holds.erase {d : Directory} {e : Entry} (h : Holds d e) {name : Text}
    (hname : e.path ≠ name) : Holds (d.erase name) e := by
  obtain ⟨hgzip, hsize, f, hf, hlength⟩ := h
  exact ⟨hgzip, hsize, f, by rwa [AList.lookup_erase_ne hname], hlength⟩

/-- What a measure of held files sums up to. -/
theorem sum_of_holds {d : Directory} {files : List Entry} (h : ∀ e ∈ files, Holds d e)
    (g : File → Nat) (m : Entry → Nat)
    (hm : ∀ e ∈ files, ∀ f : File, f.data.length = e.size → g f = m e) :
    ((files.map Entry.path).map (Table.weigh
      (fun name f => if cacheName name .gzip then g f else 0) d)).sum = (files.map m).sum := by
  rw [List.map_map]
  apply congrArg
  apply List.map_congr_left
  intro e he
  obtain ⟨hname, -, f, hf, hsize⟩ := h e he
  rw [Function.comp_apply, weigh_artifact g d hname hf]
  exact hm e he f hsize

theorem sizes_le {d : Directory} {files : List Entry} (h : ∀ e ∈ files, Holds d e)
    (hnodup : (files.map Entry.path).Nodup) :
    (files.map Entry.size).sum ≤ artifactBytes d := by
  have hsum := sum_of_holds h (fun f => f.data.length) Entry.size fun _ _ _ hsize => hsize
  rw [← hsum]
  exact Table.sum_weigh_le _ d hnodup

/-- Where a run of `maintainCache` stands: the files it has kept are there, and every other `.gz` is
among the names to come. -/
structure Walk (d : Directory) (names : List Text) (k : Kept) : Prop where
  holds : ∀ e ∈ k.files, Holds d e
  nodup : (k.files.map Entry.path).Nodup
  behind : ∀ e ∈ k.files, e.path ∉ names
  covers : ∀ name ∈ d, cacheName name .gzip = true → name ∈ names ∨ ∃ e ∈ k.files, e.path = name
  total : k.total = (k.files.map Entry.size).sum
  few : k.files.length ≤ kMaximumCacheEntries
  small : artifactBytes d < 2 ^ 64

namespace Walk

variable {d : Directory} {name : Text} {names : List Text} {k : Kept} {e : Entry}

theorem start (hnames : names.Perm d.keys) (hsmall : artifactBytes d < 2 ^ 64) :
    Walk d names {} where
  holds := nofun
  nodup := List.nodup_nil
  behind := nofun
  covers := fun _ hname _ => .inl (hnames.mem_iff.mpr (AList.mem_keys.mp hname))
  total := rfl
  few := Nat.zero_le _
  small := hsmall

theorem erase (h : Walk d names k) (hname : ∀ e ∈ k.files, e.path ≠ name) :
    Walk (d.erase name) names k where
  holds := fun e he => (h.holds e he).erase (hname e he)
  nodup := h.nodup
  behind := h.behind
  covers := by
    intro name' hname' hgzip
    exact h.covers name' (AList.mem_erase.mp hname').2 hgzip
  total := h.total
  few := h.few
  small := Nat.lt_of_le_of_lt (artifactSum_erase_le _ d name) h.small

/-- A name is passed that is no `.gz` in the directory. -/
theorem skip (h : Walk d (name :: names) k) (hname : cacheName name .gzip = true → name ∉ d) :
    Walk d names k where
  holds := h.holds
  nodup := h.nodup
  behind := fun e he hmem => h.behind e he (List.mem_cons_of_mem name hmem)
  covers := by
    intro name' hname' hgzip
    obtain hmem | hkept := h.covers name' hname' hgzip
    · obtain rfl | hmem := List.mem_cons.mp hmem
      · exact absurd hname' (hname hgzip)
      · exact .inl hmem
    · exact .inr hkept
  total := h.total
  few := h.few
  small := h.small

/-- The name is passed by removing it. -/
theorem drop (h : Walk d (name :: names) k) : Walk (d.erase name) names k := by
  have hname : ∀ e ∈ k.files, e.path ≠ name := by
    intro e he heq
    exact h.behind e he (heq ▸ List.mem_cons_self)
  refine (h.erase hname).skip ?_
  intro _ hmem
  exact (AList.mem_erase.mp hmem).1 rfl

/-- Removing what is no `.gz` makes no difference. -/
theorem erase_other (h : Walk d names k) (hname : cacheName name .gzip = false) :
    Walk (d.erase name) names k := by
  apply h.erase
  intro e he heq
  have hgzip := (h.holds e he).1
  rw [heq, hname] at hgzip
  cases hgzip

theorem push (h : Walk d (e.path :: names) k) (hnames : e.path ∉ names) (he : Holds d e)
    (hfew : k.files.length < kMaximumCacheEntries) : Walk d names (k.push e) := by
  have hholds : ∀ e' ∈ e :: k.files, Holds d e' := by
    intro e' he'
    obtain rfl | he' := List.mem_cons.mp he'
    · exact he
    · exact h.holds e' he'
  have hnodup : ((e :: k.files).map Entry.path).Nodup := by
    refine List.nodup_cons.mpr ⟨?_, h.nodup⟩
    intro hmem
    obtain ⟨e', he', heq⟩ := List.mem_map.mp hmem
    exact h.behind e' he' (heq ▸ List.mem_cons_self)
  have hfits : ((e :: k.files).map Entry.size).sum < 2 ^ 64 :=
    Nat.lt_of_le_of_lt (sizes_le hholds hnodup) h.small
  rw [List.map_cons, List.sum_cons] at hfits
  refine ⟨hholds, hnodup, ?_, ?_, ?_, hfew, h.small⟩
  · intro e' he'
    obtain rfl | he' := List.mem_cons.mp he'
    · exact hnames
    · exact fun hmem => h.behind e' he' (List.mem_cons_of_mem _ hmem)
  · intro name hname hgzip
    obtain hmem | ⟨e', he', heq⟩ := h.covers name hname hgzip
    · obtain rfl | hmem := List.mem_cons.mp hmem
      · exact .inr ⟨e, List.mem_cons_self, rfl⟩
      · exact .inl hmem
    · exact .inr ⟨e', List.mem_cons_of_mem _ he', heq⟩
  · change min (k.total + e.size) (2 ^ 64 - 1) = ((e :: k.files).map Entry.size).sum
    rw [h.total, List.map_cons, List.sum_cons]
    omega

theorem pop (h : Walk d names k) (he : e ∈ k.files) : Walk (d.erase e.path) names (k.pop e) := by
  have hperm : k.files.Perm (e :: k.files.erase e) := List.perm_cons_erase he
  have hmem : ∀ e' ∈ k.files.erase e, e' ∈ k.files := fun e' he' => List.mem_of_mem_erase he'
  have hnodup : (e.path :: (k.files.erase e).map Entry.path).Nodup :=
    (hperm.map Entry.path).nodup_iff.mp h.nodup
  obtain ⟨hout, hnodup⟩ := List.nodup_cons.mp hnodup
  have hne : ∀ e' ∈ k.files.erase e, e'.path ≠ e.path := by
    intro e' he' heq
    exact hout (heq ▸ List.mem_map_of_mem he')
  have hsum : (k.files.map Entry.size).sum = e.size + ((k.files.erase e).map Entry.size).sum := by
    rw [(hperm.map Entry.size).sum_eq, List.map_cons, List.sum_cons]
  refine ⟨?_, hnodup, ?_, ?_, ?_, ?_, ?_⟩
  · exact fun e' he' => (h.holds e' (hmem e' he')).erase (hne e' he')
  · exact fun e' he' => h.behind e' (hmem e' he')
  · intro name hname hgzip
    obtain ⟨hname', hin⟩ := AList.mem_erase.mp hname
    obtain hmem' | ⟨e', he', heq⟩ := h.covers name hin hgzip
    · exact .inl hmem'
    · obtain rfl | he' := List.mem_cons.mp (hperm.mem_iff.mp he')
      · exact absurd heq.symm hname'
      · exact .inr ⟨e', he', heq⟩
  · change (if k.total ≤ e.size then 0 else k.total - e.size) =
      ((k.files.erase e).map Entry.size).sum
    rw [h.total, hsum]
    split_ifs <;> omega
  · exact (List.length_erase_of_mem he).le.trans ((Nat.sub_le _ _).trans h.few)
  · exact Nat.lt_of_le_of_lt (artifactSum_erase_le _ d e.path) h.small

/-- At the end of the walk the books say what the directory holds. -/
theorem exact (h : Walk d [] k) : artifactCount d = k.files.length ∧ artifactBytes d = k.total := by
  have hcover : ∀ (g : File → Nat) (name : Text), Table.weigh
      (fun name f => if cacheName name .gzip then g f else 0) d name ≠ 0 →
      name ∈ k.files.map Entry.path := by
    intro g name hweight
    have hgzip : cacheName name .gzip = true := by
      by_contra hno
      exact hweight (weigh_other g d (.inl (Bool.eq_false_of_not_eq_true hno)))
    have hname : name ∈ d := by
      by_contra hno
      exact hweight (weigh_other g d (.inr (AList.lookup_eq_none.mpr hno)))
    obtain hmem | ⟨e, he, rfl⟩ := h.covers name hname hgzip
    · cases hmem
    · exact List.mem_map_of_mem he
  constructor
  · have hsum := sum_of_holds h.holds (fun _ => 1) (fun _ => 1) fun _ _ _ _ => rfl
    rw [artifactCount, artifactSum, Table.total_eq_sum _ d h.nodup (hcover _), hsum]
    simp
  · have hsum := sum_of_holds h.holds (fun f => f.data.length) Entry.size fun _ _ _ hsize => hsize
    rw [artifactBytes, artifactSum, Table.total_eq_sum _ d h.nodup (hcover _), hsum, h.total]

end Walk

/-- Removals, renamings, listings and sizes succeed; with `exact`, whatever else is done to the files
of the cache does too. -/
def Op.Succeeds (exact : Prop) (c : Choice) : Op → Prop
  | .remove _ | .rename _ _ | .listDirectory | .fileSize _ => c.fails = false
  | .nextEntry _ => True
  | _ => exact → c.fails = false

/-- An artifact is published only under a key that has none. -/
def Op.Fresh (s : Store) : Op → Prop
  | .create name => ∀ key, name = artifact key .metadataTemp → s.file (artifact key .gzip) = none
  | _ => True

/-- What an operation does before `stop`, with nobody else in the cache directory. -/
def Op.Course (exact : Prop) (q : Op) (s : Store) (x : q.Answer) (s' : Store) : Prop :=
  ∃ (c : Choice) (u u' : Queue), q.Succeeds exact c ∧ (exact → q.Fresh s) ∧ u.stopping = false ∧
    (∀ job ∈ u.jobs, IsKey job.key) ∧ q.perform c s u = some (x, s', u')

abbrev Goes {α : Type} (exact : Prop) (p : CacheProgram α) (post : α → Store → Prop) (s : Store) :
    Prop :=
  p.Safe (Op.Course exact) (fun _ _ _ => True) post s

section Course

variable {exact : Prop} {name : Text} {s s' : Store}

theorem course_reads {q : Op} {x : q.Answer} (hq : q.Reads) (h : q.Course exact s x s') : s' = s := by
  obtain ⟨c, u, u', -, -, -, -, h⟩ := h
  exact perform_reads hq h

theorem course_remove {x : Unit} (h : (Op.remove name).Course exact s x s') :
    s' = s.remove name := by
  obtain ⟨c, u, u', hfails, -, -, -, h⟩ := h
  exact perform_remove_ok hfails h

theorem course_fileSize {x : Option Nat} (h : (Op.fileSize name).Course exact s x s') :
    s' = s ∧ x = (s.file name).map fun f => f.data.length := by
  obtain ⟨c, u, u', hfails, -, -, -, h⟩ := h
  exact perform_fileSize_ok hfails h

theorem course_listDirectory {x : Option (List Text)}
    (h : Op.listDirectory.Course exact s x s') :
    s' = s ∧ ∃ names, x = some names ∧ names.Perm s.disk.keys := by
  obtain ⟨c, u, u', hfails, -, -, -, h⟩ := h
  exact perform_listDirectory_ok hfails h

theorem course_nextEntry {x : Bool} (h : (Op.nextEntry name).Course exact s x s') :
    s' = s ∧ (x = false → name ∉ s.disk) := by
  obtain ⟨c, u, u', -, -, -, -, h⟩ := h
  exact perform_nextEntry h

theorem course_stopping {x : Bool} (h : Op.stopping.Course exact s x s') : s' = s ∧ x = false := by
  obtain ⟨c, u, u', -, -, hstopping, -, h⟩ := h
  cases h
  exact ⟨rfl, hstopping⟩

theorem course_oldest {files : List Entry} {x : Entry} (h : (Op.oldest files).Course exact s x s') :
    s' = s ∧ x ∈ files := by
  obtain ⟨c, u, u', -, -, -, -, h⟩ := h
  obtain ⟨hs, hmem, -⟩ := perform_oldest h
  exact ⟨hs, hmem⟩

theorem course_setCounters {entries bytes : Nat} {x : Unit}
    (h : (Op.setCounters entries bytes).Course exact s x s') :
    s' = { s with entries := entries, bytes := bytes } := by
  obtain ⟨c, u, u', -, -, -, -, h⟩ := h
  cases h
  rfl

end Course

section Programs

variable {exact : Prop} {α β : Type}

theorem goes_of_reads {p : CacheProgram α} (hp : p.Asks Op.Reads) (s : Store) :
    Goes exact p (fun _ s' => s' = s) s := by
  have hstep : ∀ (q : Op) (s₁ : Store) (x : q.Answer) (s₂ : Store), q.Reads → s₁ = s →
      q.Course exact s₁ x s₂ → True ∧ s₂ = s := by
    intro q s₁ x s₂ hq hs hm
    exact ⟨trivial, (course_reads hq hm).trans hs⟩
  exact hp.safe hstep rfl

theorem goes_query {q : Op} {f : q.Answer → CacheProgram α} {post : α → Store → Prop} {s : Store}
    (h : ∀ x s', q.Course exact s x s' → Goes exact (f x) post s') :
    Goes exact (ask q >>= f) post s :=
  .query fun x s' hm => ⟨trivial, h x s' hm⟩

/-- A question that changes nothing. -/
theorem goes_read {q : Op} (hq : q.Reads) {f : q.Answer → CacheProgram α}
    {post : α → Store → Prop} {s : Store} (h : ∀ x, Goes exact (f x) post s) :
    Goes exact (ask q >>= f) post s := by
  apply goes_query
  intro x s' hm
  rw [course_reads hq hm]
  exact h x

theorem goes_reads {p : CacheProgram α} (hp : p.Asks Op.Reads) {f : α → CacheProgram β}
    {post : β → Store → Prop} {s : Store} (h : ∀ a, Goes exact (f a) post s) :
    Goes exact (p >>= f) post s := by
  apply (goes_of_reads hp s).bind
  intro a s' hs
  rw [hs]
  exact h a

theorem removeRepresentation_goes (key : Text) {f : Unit → CacheProgram β}
    {post : β → Store → Prop} {s : Store}
    (h : Goes exact (f ()) post
      ((s.remove (artifact key .gzip)).remove (artifact key .metadata))) :
    Goes exact (removeRepresentation key >>= f) post s := by
  apply goes_query
  intro x s₁ h₁
  rw [course_remove h₁]
  apply goes_query
  intro x s₂ h₂
  rw [course_remove h₂]
  exact h

/-- The artifact and its marker go; the name is passed. -/
theorem removed_goes {name : Text} {names : List Text} {k : Kept} {s : Store}
    (h : Walk s.disk (name :: names) k) (hname : cacheName name .gzip = true) :
    Goes exact (removeRepresentation (keyOf name) >>= fun _ => pure k)
      (fun k' s' => Walk s'.disk names k') s := by
  apply removeRepresentation_goes
  rw [artifact_keyOf hname]
  exact h.drop.erase_other (beside (keyOf name) (by decide))

/-- A kept artifact goes with its marker, and nothing else does. -/
theorem popped_goes {e : Entry} {names : List Text} {k : Kept} {s : Store}
    {f : Unit → CacheProgram β} {post : β → Store → Prop} (h : Walk s.disk names k)
    (he : e ∈ k.files) (hf : ∀ s' : Store, Walk s'.disk names (k.pop e) →
      (∀ e', Holds s.disk e' → e'.path ≠ e.path → Holds s'.disk e') → Goes exact (f ()) post s') :
    Goes exact (removeRepresentation (keyOf e.path) >>= f) post s := by
  have hmeta : cacheName (artifact (keyOf e.path) .metadata) .gzip = false :=
    beside (keyOf e.path) (by decide)
  apply removeRepresentation_goes
  rw [artifact_keyOf (h.holds e he).1]
  apply hf
  · exact (h.pop he).erase_other hmeta
  · intro e' he' hne
    have hother : e'.path ≠ artifact (keyOf e.path) .metadata := by
      intro heq
      rw [← heq, he'.1] at hmeta
      cases hmeta
    exact (he'.erase hne).erase hother

theorem keepNewest_goes {e : Entry} {names : List Text} {k : Kept} {s : Store}
    (h : Walk s.disk (e.path :: names) k) (hnames : e.path ∉ names) (he : Holds s.disk e) :
    Goes exact (keepNewest k e) (fun k' s' => Walk s'.disk names k') s := by
  unfold keepNewest
  split_ifs with hfew
  · exact h.push hnames he hfew
  · apply goes_query
    intro oldest s₁ hoff
    obtain ⟨rfl, hmem⟩ := course_oldest hoff
    split_ifs
    · apply popped_goes h hmem
      intro s₂ hpop hholds
      have hne : e.path ≠ oldest.path := fun heq => h.behind oldest hmem (heq ▸ List.mem_cons_self)
      refine hpop.push hnames (hholds e he hne) ?_
      have hlength : (k.files.erase oldest).length = k.files.length - 1 :=
        List.length_erase_of_mem hmem
      have hpos := List.length_pos_of_mem hmem
      have hmost := h.few
      change (k.files.erase oldest).length < kMaximumCacheEntries
      omega
    · exact removed_goes h he.1

theorem considerArtifact_goes (S : Settings) {name : Text} {names : List Text} {k : Kept} {s : Store}
    (h : Walk s.disk (name :: names) k) (hnames : name ∉ names)
    (hname : cacheName name .gzip = true) :
    Goes exact (considerArtifact S name k) (fun k' s' => Walk s'.disk names k') s := by
  have hremove : Goes exact (removeRepresentation (keyOf name) >>= fun _ => pure k)
      (fun k' s' => Walk s'.disk names k') s := removed_goes h hname
  refine goes_read (by trivial) fun regular => ?_
  split_ifs
  · exact hremove
  apply goes_reads (markerCurrent_asks S _ false)
  intro current
  split_ifs
  · exact hremove
  apply goes_query
  intro size s₁ hsize
  obtain ⟨rfl, rfl⟩ := course_fileSize hsize
  cases hf : s₁.file name with
  | none => exact hremove
  | some f =>
    simp only [Option.map_some]
    split_ifs with hshort
    · exact hremove
    refine goes_read (by trivial) fun modified => ?_
    cases modified with
    | none => exact hremove
    | some modified =>
      exact keepNewest_goes h hnames ⟨hname, Nat.le_of_not_lt hshort, f, hf, rfl⟩

theorem considerEntry_goes (S : Settings) {name : Text} {names : List Text} {k : Kept} {s : Store}
    (h : Walk s.disk (name :: names) k) (hnames : name ∉ names) :
    Goes exact (considerEntry S name k) (fun k' s' => Walk s'.disk names k') s := by
  have hremove : Goes exact (ask (.remove name) >>= fun _ => pure k)
      (fun k' s' => Walk s'.disk names k') s := by
    apply goes_query
    intro x s₁ h₁
    rw [course_remove h₁]
    exact h.drop
  have hkeep (hother : cacheName name .gzip = false) :
      Goes exact (pure k) (fun k' s' => Walk s'.disk names k') s := by
    apply h.skip
    intro hgzip
    rw [hother] at hgzip
    cases hgzip
  unfold considerEntry
  split_ifs with htemp hskip hmeta hgzip
  · exact hremove
  · apply goes_reads (markerCurrent_asks S name true)
    intro current
    split_ifs
    · exact hremove
    · exact hkeep (cacheName_other hskip (by decide))
  · refine goes_read (by trivial) fun regular => ?_
    split_ifs
    · exact hremove
    · exact hkeep (cacheName_other hmeta (by decide))
  · exact hkeep (by simpa using hgzip)
  · exact considerArtifact_goes S h hnames (by simpa using hgzip)

theorem walkCache_goes (S : Settings) {names : List Text} {k : Kept} {s : Store}
    (h : Walk s.disk names k) (hnodup : names.Nodup) :
    Goes exact (walkCache S names k)
      (fun k' s' => ∃ kept, k' = some kept ∧ Walk s'.disk [] kept) s := by
  induction names generalizing k s with
  | nil => exact ⟨k, rfl, h⟩
  | cons name names ih =>
    obtain ⟨hname, hnames⟩ := List.nodup_cons.mp hnodup
    apply goes_query
    intro yielded s₁ hnext
    obtain ⟨rfl, hgone⟩ := course_nextEntry hnext
    cases yielded with
    | false => exact ih (h.skip fun _ => hgone rfl) hnames
    | true =>
      apply goes_query
      intro stopping s₂ hstop
      obtain ⟨rfl, rfl⟩ := course_stopping hstop
      apply (considerEntry_goes S h hname).bind
      intro k' s₃ h'
      exact ih h' hnames

theorem prune_goes (target n : Nat) {k : Kept} {s : Store} (h : Walk s.disk [] k)
    (hn : k.files.length ≤ n) :
    Goes exact (prune target n k) (fun k' s' => Walk s'.disk [] k' ∧ k'.total ≤ target) s := by
  have hempty (hnil : k.files = []) : k.total ≤ target := by
    rw [h.total, hnil]
    exact Nat.zero_le target
  induction n generalizing k s with
  | zero => exact ⟨h, hempty (List.length_eq_zero_iff.mp (Nat.le_zero.mp hn))⟩
  | succ n ih =>
    unfold prune
    split_ifs with hdone
    · exact ⟨h, hdone.elim id hempty⟩
    apply goes_query
    intro oldest s₁ hoff
    obtain ⟨rfl, hmem⟩ := course_oldest hoff
    apply popped_goes h hmem
    intro s₂ hpop _
    apply ih hpop
    · have hlength : (k.files.erase oldest).length = k.files.length - 1 :=
        List.length_erase_of_mem hmem
      change (k.files.erase oldest).length ≤ n
      omega
    · intro hnil
      rw [hpop.total, hnil]
      exact Nat.zero_le target

/-- The counters are within the limits and cover what is on the disk but for `n` artifacts of `b`
bytes; with `exact`, they say just how much it is. No artifact is empty. -/
structure Tracks (exact : Prop) (S : Settings) (n b : Nat) (s : Store) : Prop where
  count : artifactCount s.disk ≤ s.entries + n
  bytes : artifactBytes s.disk ≤ s.bytes + b
  few : s.entries ≤ kMaximumCacheEntries
  small : s.bytes ≤ S.maxBytes
  precise : exact → artifactCount s.disk = s.entries + n ∧ artifactBytes s.disk = s.bytes + b
  solid : ∀ name f, s.file name = some f → cacheName name .gzip = true → f.data ≠ []

/-- Maintenance counts what it leaves behind. -/
theorem maintainCache_goes (S : Settings) {s : Store} (h : artifactBytes s.disk < 2 ^ 64) :
    Goes exact (maintainCache S) (fun _ s' => Tracks exact S 0 0 s') s := by
  apply goes_query
  intro names s₁ hlist
  obtain ⟨rfl, names, rfl, hperm⟩ := course_listDirectory hlist
  apply (walkCache_goes S (.start hperm h) (hperm.nodup_iff.mpr s₁.disk.keys_nodup)).bind
  intro kept s₂ hkept
  obtain ⟨k, rfl, hwalk⟩ := hkept
  have hprune : Goes exact (pruneToBudget S.maxBytes k)
      (fun k' s' => Walk s'.disk [] k' ∧ k'.total ≤ S.maxBytes) s₂ := by
    unfold pruneToBudget
    split_ifs with hover
    · apply (prune_goes _ _ hwalk le_rfl).mono (fun _ _ _ _ hm => hm) (fun _ _ _ hg => hg)
      intro k' s' hk'
      exact ⟨hk'.1, hk'.2.trans (Nat.sub_le _ _)⟩
    · exact ⟨hwalk, Nat.le_of_not_lt hover⟩
  apply hprune.bind
  intro k' s₃ hk'
  obtain ⟨hwalk', hsmall⟩ := hk'
  obtain ⟨hcount, hbytes⟩ := hwalk'.exact
  intro x s₄ hset
  refine ⟨trivial, ?_⟩
  rw [course_setCounters hset]
  refine ⟨hcount.le, hbytes.le, hwalk'.few, hsmall, fun _ => ⟨hcount, hbytes⟩, ?_⟩
  intro name f hf hgzip hempty
  have hname : name ∈ s₃.disk := AList.lookup_isSome.mp (Option.isSome_of_eq_some hf)
  obtain hmem | ⟨e, he, rfl⟩ := hwalk'.covers name hname hgzip
  · cases hmem
  · obtain ⟨-, hsize, f', hf', hlength⟩ := hwalk'.holds e he
    have hsame : some f' = some f := hf'.symm.trans hf
    cases hsame
    rw [hempty] at hlength
    simp only [List.length_nil] at hlength
    omega

end Programs
end FastdlMm.CompressionCache
