import FastdlMm.Cache.Compress
import FastdlMm.Cache.Maintenance

namespace FastdlMm.CompressionCache

variable {exact : Prop} {S : Settings} {n b : Nat} {s s' : Store}

/-- Nothing has happened to the artifacts or to their counters. -/
def SameArtifacts (s s' : Store) : Prop :=
  s'.entries = s.entries ∧ s'.bytes = s.bytes ∧
    ∀ name, cacheName name .gzip = true → s'.file name = s.file name

theorem SameArtifacts.trans {s₁ s₂ s₃ : Store} (h : SameArtifacts s₁ s₂)
    (h' : SameArtifacts s₂ s₃) : SameArtifacts s₁ s₃ :=
  ⟨h'.1.trans h.1, h'.2.1.trans h.2.1,
    fun name hname => (h'.2.2 name hname).trans (h.2.2 name hname)⟩

theorem sameArtifacts_of_sameBut {name : Text} (h : s.SameBut name s')
    (hname : cacheName name .gzip = false) : SameArtifacts s s' := by
  obtain ⟨-, hentries, hbytes, hfile⟩ := h
  refine ⟨hentries, hbytes, ?_⟩
  intro name' hname'
  apply hfile
  rintro rfl
  rw [hname] at hname'
  cases hname'

theorem sameArtifacts_remove (s : Store) {name : Text} (hname : cacheName name .gzip = false) :
    SameArtifacts s (s.remove name) := by
  refine ⟨rfl, rfl, ?_⟩
  intro name' hname'
  rw [Store.file_remove, if_neg]
  rintro rfl
  rw [hname] at hname'
  cases hname'

theorem sameArtifacts_rename (s : Store) {source target : Text}
    (hsource : cacheName source .gzip = false) (htarget : cacheName target .gzip = false)
    (f : File) : SameArtifacts s (s.rename source target f) := by
  refine ⟨rfl, rfl, ?_⟩
  intro name hname
  rw [Store.file_rename, if_neg, if_neg]
  · rintro rfl
    rw [hsource] at hname
    cases hname
  · rintro rfl
    rw [htarget] at hname
    cases hname

/-- The same artifacts add up to the same. -/
theorem artifactSum_congr (g : File → Nat) {d d' : Directory}
    (h : ∀ name, cacheName name .gzip = true → d'.lookup name = d.lookup name) :
    artifactSum g d' = artifactSum g d := by
  have hweigh : ∀ name, Table.weigh (fun name f => if cacheName name .gzip then g f else 0) d' name =
      Table.weigh (fun name f => if cacheName name .gzip then g f else 0) d name := by
    intro name
    cases hname : cacheName name .gzip with
    | true => rw [Table.weigh, h name hname, Table.weigh]
    | false => rw [weigh_other g d' (.inl hname), weigh_other g d (.inl hname)]
  have hcover : ∀ name, Table.weigh (fun name f => if cacheName name .gzip then g f else 0) d name ≠ 0 →
      name ∈ d.keys := by
    intro name hne
    by_contra hno
    exact hne (weigh_other g d (.inr (AList.lookup_eq_none.mpr (AList.mem_keys.not.mpr hno))))
  rw [artifactSum, artifactSum, Table.total_eq_sum _ d d.keys_nodup hcover,
    Table.total_eq_sum _ d' d.keys_nodup fun name hne => hcover name (hweigh name ▸ hne)]
  apply congrArg
  exact List.map_congr_left fun name _ => hweigh name

theorem Tracks.congr (h : Tracks exact S n b s) (hsame : SameArtifacts s s') :
    Tracks exact S n b s' := by
  obtain ⟨hentries, hbytes, hfile⟩ := hsame
  have hcount : artifactCount s'.disk = artifactCount s.disk := artifactSum_congr _ hfile
  have hsum : artifactBytes s'.disk = artifactBytes s.disk := artifactSum_congr _ hfile
  refine ⟨?_, ?_, ?_, ?_, ?_, ?_⟩
  · rw [hcount, hentries]
    exact h.count
  · rw [hsum, hbytes]
    exact h.bytes
  · rw [hentries]
    exact h.few
  · rw [hbytes]
    exact h.small
  · rw [hcount, hsum, hentries, hbytes]
    exact h.precise
  · intro name f hf hname
    rw [hfile name hname] at hf
    exact h.solid name f hf hname

section Artifact

variable {key : Text} {f : File}

theorem count_remove (hkey : IsKey key) (hf : s.file (artifact key .gzip) = some f) :
    artifactCount (s.remove (artifact key .gzip)).disk + 1 = artifactCount s.disk :=
  artifactSum_erase _ s.disk hkey hf

theorem bytes_remove (hkey : IsKey key) (hf : s.file (artifact key .gzip) = some f) :
    artifactBytes (s.remove (artifact key .gzip)).disk + f.data.length = artifactBytes s.disk :=
  artifactSum_erase _ s.disk hkey hf

theorem solid_remove (h : Tracks exact S n b s) (name : Text) :
    ∀ name' f, (s.remove name).file name' = some f → cacheName name' .gzip = true → f.data ≠ [] := by
  intro name' f hf hname'
  rw [Store.file_remove] at hf
  split_ifs at hf
  exact h.solid name' f hf hname'

/-- A removed artifact leaves the counters covering, and what they said of no artifact is true. -/
theorem Tracks.remove (h : Tracks exact S 0 0 s) (hnone : exact → s.file (artifact key .gzip) = none) :
    Tracks exact S 0 0 (s.remove (artifact key .gzip)) where
  count := (artifactSum_erase_le _ s.disk _).trans h.count
  bytes := (artifactSum_erase_le _ s.disk _).trans h.bytes
  few := h.few
  small := h.small
  precise := by
    intro hexact
    obtain ⟨hcount, hbytes⟩ := h.precise hexact
    have hother : cacheName (artifact key .gzip) .gzip = false ∨
        s.disk.lookup (artifact key .gzip) = none := .inr (hnone hexact)
    exact ⟨(artifactSum_erase_other _ s.disk hother).trans hcount,
      (artifactSum_erase_other _ s.disk hother).trans hbytes⟩
  solid := solid_remove h _

/-- The published artifact is removed again. -/
theorem Tracks.withdraw (h : Tracks exact S 1 f.data.length s) (hkey : IsKey key)
    (hf : s.file (artifact key .gzip) = some f) :
    Tracks exact S 0 0 (s.remove (artifact key .gzip)) := by
  have hcount := count_remove hkey hf
  have hbytes := bytes_remove hkey hf
  have hc := h.count
  have hb := h.bytes
  refine ⟨?_, ?_, h.few, h.small, ?_, solid_remove h _⟩
  · change _ ≤ s.entries + 0
    omega
  · change _ ≤ s.bytes + 0
    omega
  · intro hexact
    obtain ⟨hc', hb'⟩ := h.precise hexact
    constructor
    · change _ = s.entries + 0
      omega
    · change _ = s.bytes + 0
      omega

/-- The complete `.gz.tmp` takes the place that is free for it. -/
theorem Tracks.publish (h : Tracks exact S 0 0 s) (hkey : IsKey key)
    (hnone : s.file (artifact key .gzip) = none) (hdata : f.data ≠ []) :
    Tracks exact S 1 f.data.length
      (s.rename (artifact key .gzipTemp) (artifact key .gzip) f) := by
  have htemp : cacheName (artifact key .gzipTemp) .gzip = false := beside key (by decide)
  have hnone' : (s.remove (artifact key .gzipTemp)).file (artifact key .gzip) = none := by
    rw [Store.file_remove, hnone]
    split <;> rfl
  have hsum (g : File → Nat) :
      artifactSum g (s.rename (artifact key .gzipTemp) (artifact key .gzip) f).disk =
        artifactSum g s.disk + g f := by
    have hinsert := artifactSum_insert g (s.remove (artifact key .gzipTemp)).disk hkey hnone' f
    have herase : artifactSum g (s.remove (artifact key .gzipTemp)).disk = artifactSum g s.disk :=
      artifactSum_erase_other g s.disk (.inl htemp)
    exact hinsert.trans (congrArg (· + g f) herase)
  have hcount : artifactCount (s.rename (artifact key .gzipTemp) (artifact key .gzip) f).disk =
      artifactCount s.disk + 1 := hsum _
  have hbytes : artifactBytes (s.rename (artifact key .gzipTemp) (artifact key .gzip) f).disk =
      artifactBytes s.disk + f.data.length := hsum _
  have hc := h.count
  have hb := h.bytes
  refine ⟨?_, ?_, h.few, h.small, ?_, ?_⟩
  · rw [hcount]
    exact Nat.add_le_add_right hc 1
  · rw [hbytes]
    exact Nat.add_le_add_right hb _
  · intro hexact
    obtain ⟨hc', hb'⟩ := h.precise hexact
    rw [hcount, hbytes, hc', hb']
    exact ⟨rfl, rfl⟩
  · intro name f' hf' hname
    rw [Store.file_rename] at hf'
    split_ifs at hf'
    · cases hf'
      exact hdata
    · exact h.solid name f' hf' hname

end Artifact

theorem Store.file_put_self (s : Store) (name : Text) (f : File) :
    (s.put name f).file name = some f := by
  rw [Store.file_put, if_pos rfl]

section Course

variable {name source target : Text}

theorem Op.Course.effect {q : Op} {x : q.Answer} (h : q.Course exact s x s') : q.Effect s x s' := by
  obtain ⟨c, u, u', -, -, -, -, h⟩ := h
  exact ⟨c, u, u', h⟩

theorem course_regularArtifact {x : Bool}
    (h : (Op.regularArtifact name).Course exact s x s') :
    s' = s ∧ (x = true → name ∈ s.disk) ∧ (exact → x = decide (name ∈ s.disk)) := by
  obtain ⟨c, u, u', hfails, -, -, -, h⟩ := h
  cases h
  refine ⟨rfl, ?_, ?_⟩
  · intro hx
    exact of_decide_eq_true (Bool.and_eq_true_iff.mp hx).2
  · intro hexact
    rw [hfails hexact]
    rfl

theorem course_rename {x : Bool} (h : (Op.rename source target).Course exact s x s') :
    (s.file source = none ∧ x = false ∧ s' = s) ∨
      ∃ f, s.file source = some f ∧ x = true ∧ s' = s.rename source target f := by
  obtain ⟨c, u, u', hfails, -, -, -, h⟩ := h
  change c.fails = false at hfails
  simp only [Op.perform, hfails, Bool.false_eq_true, if_false] at h
  split at h
  · rename_i f hf
    cases h
    exact .inr ⟨f, hf, rfl, rfl⟩
  · rename_i hf
    cases h
    exact .inl ⟨hf, rfl, rfl⟩

theorem course_counters {x : Nat × Nat} (h : Op.counters.Course exact s x s') :
    s' = s ∧ x = (s.entries, s.bytes) := by
  obtain ⟨c, u, u', -, -, -, -, h⟩ := h
  cases h
  exact ⟨rfl, rfl⟩

theorem course_create {x : Bool} (h : (Op.create name).Course exact s x s') :
    s.SameBut name s' ∧ (exact → (Op.create name).Fresh s ∧ x = true ∧ ∃ f, s'.file name = some f) := by
  have hwrites : (Op.create name).Writes name := rfl
  refine ⟨effect_writes hwrites h.effect, ?_⟩
  intro hexact
  obtain ⟨c, u, u', hfails, hfresh, -, -, h⟩ := h
  simp only [Op.perform, hfails hexact, Bool.false_eq_true, if_false] at h
  cases h
  exact ⟨hfresh hexact, rfl, _, s.file_put_self name _⟩

end Course

/-- A stream on one file fails no write, and leaves the file there. -/
theorem write_goes (name data : Text) {good : Bool} (hgood : exact → good = true) {s : Store}
    (hfile : exact → ∃ f, s.file name = some f) :
    Goes exact (write name good data) (fun ok s' => s.SameBut name s' ∧
      (exact → ok = true ∧ ∃ f, s'.file name = some f)) s := by
  have hwrites : (Op.append name data).Writes name := rfl
  unfold write
  split_ifs with h
  · intro x s' hm
    refine ⟨trivial, effect_writes hwrites hm.effect, ?_⟩
    intro hexact
    obtain ⟨c, u, u', hfails, -, -, -, hm⟩ := hm
    obtain ⟨f, hf⟩ := hfile hexact
    simp only [Op.perform, hf, hfails hexact, Bool.not_false] at hm
    cases hm
    exact ⟨rfl, _, s.file_put_self name _⟩
  · exact ⟨.refl name s, fun hexact => absurd (hgood hexact) h⟩

theorem flush_goes (name : Text) {good : Bool} (hgood : exact → good = true) {s : Store}
    (hfile : exact → ∃ f, s.file name = some f) :
    Goes exact (flush name good) (fun ok s' => s.SameBut name s' ∧
      (exact → ok = true ∧ ∃ f, s'.file name = some f)) s := by
  have hwrites : (Op.flush name).Writes name := rfl
  unfold flush
  split_ifs with h
  · intro x s' hm
    refine ⟨trivial, effect_writes hwrites hm.effect, ?_⟩
    intro hexact
    obtain ⟨c, u, u', hfails, -, -, -, hm⟩ := hm
    obtain ⟨f, hf⟩ := hfile hexact
    simp only [Op.perform, hf, hfails hexact, Bool.false_eq_true, if_false] at hm
    cases hm
    exact ⟨rfl, _, s.file_put_self name _⟩
  · exact ⟨.refl name s, fun hexact => absurd (hgood hexact) h⟩

/-- A marker is written beside everything else; with `exact`, it is written well. -/
theorem writeMarker_goes (name identity : Text) (s : Store) :
    Goes exact (writeMarker name identity) (fun ok s' => s.SameBut name s' ∧
      (exact → (Op.create name).Fresh s ∧ ok = true ∧ ∃ f, s'.file name = some f)) s := by
  apply goes_query
  intro good s₁ hcreate
  obtain ⟨hsame₁, hok₁⟩ := course_create hcreate
  have hwrite := write_goes name identity (fun hexact => (hok₁ hexact).2.1)
    (fun hexact => (hok₁ hexact).2.2)
  apply hwrite.bind
  intro good₂ s₂ h₂
  obtain ⟨hsame₂, hok₂⟩ := h₂
  have hflush := flush_goes name (fun hexact => (hok₂ hexact).1) (fun hexact => (hok₂ hexact).2)
  apply hflush.mono (fun _ _ _ _ hm => hm) (fun _ _ _ hg => hg)
  intro ok s₃ h₃
  obtain ⟨hsame₃, hok₃⟩ := h₃
  exact ⟨(hsame₁.trans hsame₂).trans hsame₃, fun hexact => ⟨(hok₁ hexact).1, hok₃ hexact⟩⟩

/-- A complete `.gz.tmp` is not empty. -/
theorem writeArtifact_goes (fuel : Nat) (job : Job) (size : Nat) (s : Store) :
    Goes exact (writeArtifact S fuel job size) (fun ok s' =>
      s.SameBut (artifact job.key .gzipTemp) s' ∧
      (ok = true → ∀ f, s'.file (artifact job.key .gzipTemp) = some f → f.data ≠ [])) s := by
  apply (writeArtifact_runs S fuel job size s).mono (fun _ _ _ _ hm => hm.effect) (fun _ _ _ hg => hg)
  intro ok s' hs'
  obtain ⟨hsame, hdone⟩ := hs'
  exact ⟨hsame, fun hok f hf => (hdone hok f hf).2⟩

section Records

variable {job : Job} {size : Nat}

theorem recordArtifact_goes (h : Tracks exact S 1 size s) (hsize : size ≤ S.maxBytes)
    (hbudget : S.maxBytes < 2 ^ 63) :
    Goes exact (recordArtifact S size) (fun _ s' => Tracks exact S 0 0 s') s := by
  have hfew := h.few
  have hsmall := h.small
  have hentries : s.entries ≠ 2 ^ 64 - 1 := by
    unfold kMaximumCacheEntries at hfew
    omega
  have hbytes : ¬ 2 ^ 64 - 1 - s.bytes < size := by omega
  apply goes_query
  intro counters s₁ hread
  obtain ⟨rfl, rfl⟩ := course_counters hread
  simp only [if_neg hentries, if_neg hbytes]
  apply goes_query
  intro x s₂ hset
  rw [course_setCounters hset]
  split_ifs with hover
  · apply maintainCache_goes
    have hcovered := h.bytes
    change artifactBytes s₁.disk < 2 ^ 64
    omega
  · obtain ⟨hfew', hsmall'⟩ := not_or.mp hover
    exact ⟨h.count, h.bytes, Nat.le_of_not_lt hfew', Nat.le_of_not_lt hsmall', h.precise, h.solid⟩

/-- With the new artifact in its place, its marker follows, or it goes again. -/
theorem publishMarker_goes (hkey : IsKey job.key) {f : File}
    (hf : s.file (artifact job.key .gzip) = some f) (h : Tracks exact S 1 f.data.length s)
    (hsize : f.data.length ≤ S.maxBytes) (hbudget : S.maxBytes < 2 ^ 63) :
    Goes exact (publishMarker S job f.data.length) (fun _ s' => Tracks exact S 0 0 s') s := by
  have hmeta : cacheName (artifact job.key .metadata) .gzip = false := beside job.key (by decide)
  have htemp : cacheName (artifact job.key .metadataTemp) .gzip = false := beside job.key (by decide)
  have hskip : cacheName (artifact job.key .skip) .gzip = false := beside job.key (by decide)
  apply goes_query
  intro x s₁ hremove
  rw [course_remove hremove]
  have hsame₁ := sameArtifacts_remove s hmeta
  apply goes_query
  intro renamed s₂ hrename
  obtain ⟨-, rfl, rfl⟩ | ⟨m, -, rfl, rfl⟩ := course_rename hrename
  · apply goes_query
    intro x s₃ hgone
    rw [course_remove hgone]
    exact (h.congr hsame₁).withdraw hkey ((hsame₁.2.2 _ hkey).trans hf)
  · apply goes_query
    intro x s₃ hclear
    rw [course_remove hclear]
    have hsame₂ := hsame₁.trans (sameArtifacts_rename _ htemp hmeta m)
    have hsame₃ := hsame₂.trans (sameArtifacts_remove _ hskip)
    apply (recordArtifact_goes (h.congr hsame₃) hsize hbudget).bind
    intro _ s₄ hs
    exact hs

theorem publish_goes (hkey : IsKey job.key) {f : File}
    (hf : s.file (artifact job.key .gzipTemp) = some f) (hdata : f.data ≠ [])
    (hsize : f.data.length ≤ S.maxBytes) (hbudget : S.maxBytes < 2 ^ 63)
    (h : Tracks exact S 0 0 s) :
    Goes exact (publish S job f.data.length) (fun _ s' => Tracks exact S 0 0 s') s := by
  have hmeta : cacheName (artifact job.key .metadataTemp) .gzip = false := beside job.key (by decide)
  have htemp : cacheName (artifact job.key .gzipTemp) .gzip = false := beside job.key (by decide)
  apply (writeMarker_goes (artifact job.key .metadataTemp) job.identity s).bind
  intro ok s₁ hmarker
  obtain ⟨hbut, hok⟩ := hmarker
  have hsame := sameArtifacts_of_sameBut hbut hmeta
  split_ifs
  · apply goes_query
    intro x s₂ hgone
    rw [course_remove hgone]
    apply goes_query
    intro x s₃ hgone'
    rw [course_remove hgone']
    exact h.congr ((hsame.trans (sameArtifacts_remove _ htemp)).trans (sameArtifacts_remove _ hmeta))
  -- under `exact` the key had no artifact when its marker was begun, so none goes uncounted here
  have hfree : exact → s₁.file (artifact job.key .gzip) = none := by
    intro hexact
    have hfresh : s.file (artifact job.key .gzip) = none := (hok hexact).1 job.key rfl
    exact (hsame.2.2 _ hkey).trans hfresh
  apply goes_query
  intro x s₂ hremove
  rw [course_remove hremove]
  have h₂ := (h.congr hsame).remove hfree
  have hnone : (s₁.remove (artifact job.key .gzip)).file (artifact job.key .gzip) = none := by
    rw [Store.file_remove, if_pos rfl]
  have hf₁ : s₁.file (artifact job.key .gzipTemp) = some f := by
    rw [hbut.2.2.2 _ (by simp)]
    exact hf
  apply goes_query
  intro renamed s₃ hrename
  obtain ⟨-, rfl, rfl⟩ | ⟨g, hg, rfl, rfl⟩ := course_rename hrename
  · exact h₂
  · have hg₁ : s₁.file (artifact job.key .gzipTemp) = some g := by
      simpa [Store.file_remove] using hg
    obtain rfl : f = g := Option.some.inj (hf₁.symm.trans hg₁)
    refine publishMarker_goes hkey ?_ (h₂.publish hkey hnone hdata) hsize hbudget
    rw [Store.file_rename, if_pos rfl]

/-- The size of an artifact is only missing for one that is not there. -/
theorem removedSize_goes (key : Text) (h : Tracks exact S n b s) (hkey : IsKey key) :
    Goes exact (removedSize key) (fun removed s' => s' = s ∧
      (removed = 0 → exact → s.file (artifact key .gzip) = none) ∧
      (removed ≠ 0 → ∃ f, s.file (artifact key .gzip) = some f ∧ f.data.length = removed)) s := by
  apply goes_query
  intro regular s₁ hregular
  obtain ⟨rfl, -, hpresent⟩ := course_regularArtifact hregular
  split_ifs with habsent
  · refine ⟨rfl, ?_, fun hno => absurd rfl hno⟩
    intro _ hexact
    rw [hpresent hexact, Bool.not_eq_true', decide_eq_false_iff_not] at habsent
    exact AList.lookup_eq_none.mpr habsent
  · apply goes_query
    intro size s₂ hsize
    obtain ⟨rfl, rfl⟩ := course_fileSize hsize
    cases hf : s₂.file (artifact key .gzip) with
    | none => exact ⟨rfl, fun _ _ => rfl, fun hno => absurd rfl hno⟩
    | some f =>
      refine ⟨rfl, ?_, fun _ => ⟨f, rfl, rfl⟩⟩
      intro hzero
      exact absurd (List.length_eq_zero_iff.mp hzero) (h.solid _ f hf hkey)

/-- The counters are told of an artifact that has gone. -/
theorem Tracks.settle {key : Text} {f : File} (h : Tracks exact S 0 0 s) (hkey : IsKey key)
    (hf : s.file (artifact key .gzip) = some f)
    (hsame : SameArtifacts (s.remove (artifact key .gzip)) s') :
    Tracks exact S 0 0
      { s' with entries := s'.entries - 1, bytes := s'.bytes - f.data.length } := by
  have hcount := count_remove hkey hf
  have hbytes := bytes_remove hkey hf
  have hc := h.count
  have hb := h.bytes
  have hsettled : Tracks exact S 0 0 { s.remove (artifact key .gzip) with
      entries := s.entries - 1, bytes := s.bytes - f.data.length } := by
    refine ⟨?_, ?_, (Nat.sub_le _ _).trans h.few, (Nat.sub_le _ _).trans h.small, ?_,
      solid_remove h _⟩
    · change artifactCount (s.remove (artifact key .gzip)).disk ≤ s.entries - 1 + 0
      omega
    · change artifactBytes (s.remove (artifact key .gzip)).disk ≤ s.bytes - f.data.length + 0
      omega
    · intro hexact
      obtain ⟨hc', hb'⟩ := h.precise hexact
      constructor
      · change artifactCount (s.remove (artifact key .gzip)).disk = s.entries - 1 + 0
        omega
      · change artifactBytes (s.remove (artifact key .gzip)).disk = s.bytes - f.data.length + 0
        omega
  obtain ⟨hentries, hsum, hfile⟩ := hsame
  have hentries : s'.entries = s.entries := hentries
  have hsum : s'.bytes = s.bytes := hsum
  rw [hentries, hsum]
  exact hsettled.congr ⟨rfl, rfl, hfile⟩

/-- An artifact that does not pay goes, and so does what the counters say of it. -/
theorem storeSkip_goes (hkey : IsKey job.key) (h : Tracks exact S 0 0 s) :
    Goes exact (storeSkip S job) (fun _ s' => Tracks exact S 0 0 s') s := by
  have htemp : cacheName (artifact job.key .gzipTemp) .gzip = false := beside job.key (by decide)
  have hmeta : cacheName (artifact job.key .metadata) .gzip = false := beside job.key (by decide)
  have hskip : cacheName (artifact job.key .skip) .gzip = false := beside job.key (by decide)
  have hskipTemp : cacheName (artifact job.key .skipTemp) .gzip = false := beside job.key (by decide)
  apply goes_query
  intro x s₁ hremove
  rw [course_remove hremove]
  have h₁ := h.congr (sameArtifacts_remove s htemp)
  generalize s.remove (artifact job.key .gzipTemp) = s₁ at h₁
  apply (removedSize_goes job.key h₁ hkey).bind
  intro removed s₂ hsize
  obtain ⟨rfl, hzero, hsome⟩ := hsize
  apply goes_query
  intro x s₃ hgone
  rw [course_remove hgone]
  apply goes_query
  intro x s₄ hgone'
  rw [course_remove hgone']
  have hsame₄ := sameArtifacts_remove (s₂.remove (artifact job.key .gzip)) hmeta
  apply (writeMarker_goes (artifact job.key .skipTemp) _ _).bind
  intro ok s₅ hmarker
  obtain ⟨hbut, hok⟩ := hmarker
  have hsame₅ := hsame₄.trans (sameArtifacts_of_sameBut hbut hskipTemp)
  -- where the marker cannot be stored, the counters still speak of the artifact
  have hgiveUp {s' : Store} (hno : ¬ exact)
      (hsame : SameArtifacts (s₂.remove (artifact job.key .gzip)) s') : Tracks exact S 0 0 s' :=
    (h₁.remove fun hexact => absurd hexact hno).congr hsame
  split
  · rename_i hfailed
    apply goes_query
    intro x s₆ hclear
    rw [course_remove hclear]
    apply hgiveUp _ (hsame₅.trans (sameArtifacts_remove _ hskipTemp))
    intro hexact
    rw [(hok hexact).2.1] at hfailed
    cases hfailed
  apply goes_query
  intro x s₆ hclear
  rw [course_remove hclear]
  have hsame₆ := hsame₅.trans (sameArtifacts_remove _ hskip)
  apply goes_query
  intro renamed s₇ hrename
  obtain ⟨hnone, rfl, rfl⟩ | ⟨m, -, rfl, rfl⟩ := course_rename hrename
  · apply hgiveUp _ hsame₆
    intro hexact
    obtain ⟨f, hf⟩ := (hok hexact).2.2
    simp [Store.file_remove, hf] at hnone
  · have hsame₇ := hsame₆.trans (sameArtifacts_rename _ hskipTemp hskip m)
    simp only [Bool.not_true, Bool.false_eq_true, if_false]
    split_ifs with hremoved
    · obtain ⟨f, hf, rfl⟩ := hsome hremoved
      apply goes_query
      intro counters s₈ hread
      obtain ⟨rfl, rfl⟩ := course_counters hread
      apply goes_query
      intro x s₉ hset
      rw [course_setCounters hset]
      exact h₁.settle hkey hf hsame₇
    · exact (h₁.remove (hzero (not_not.mp hremoved))).congr hsame₇

end Records

/-- Whatever the compressor makes of the source, the counters follow the disk. -/
theorem compress_goes (fuel : Nat) {job : Job} (hkey : IsKey job.key) (hbudget : S.maxBytes < 2 ^ 63)
    (h : Tracks exact S 0 0 s) :
    Goes exact (compress S fuel job) (fun _ s' => Tracks exact S 0 0 s') s := by
  have htemp : cacheName (artifact job.key .gzipTemp) .gzip = false := beside job.key (by decide)
  have hmeta : cacheName (artifact job.key .metadataTemp) .gzip = false := beside job.key (by decide)
  have hskip : cacheName (artifact job.key .skipTemp) .gzip = false := beside job.key (by decide)
  have hgive {s' : Store} (h : Tracks exact S 0 0 s') :
      Goes exact (ask (.remove (artifact job.key .gzipTemp)) >>= fun _ => pure false)
        (fun _ s' => Tracks exact S 0 0 s') s' := by
    apply goes_query
    intro x s₁ hremove
    rw [course_remove hremove]
    exact h.congr (sameArtifacts_remove _ htemp)
  refine goes_read (by trivial) fun before => ?_
  cases before with
  | none => exact h
  | some before =>
    dsimp only
    split
    · exact h
    apply goes_query
    intro x s₁ h₁
    rw [course_remove h₁]
    have h₁ := h.congr (sameArtifacts_remove s htemp)
    apply goes_query
    intro x s₂ h₂
    rw [course_remove h₂]
    have h₂ := h₁.congr (sameArtifacts_remove _ hmeta)
    apply goes_query
    intro x s₃ h₃
    rw [course_remove h₃]
    have h₃ := h₂.congr (sameArtifacts_remove _ hskip)
    apply goes_query
    intro created s₄ hcreate
    have h₄ := h₃.congr (sameArtifacts_of_sameBut (course_create hcreate).1 htemp)
    split
    · exact h₄
    apply (writeArtifact_goes fuel job before.size s₄).bind
    intro written s₅ hwritten
    obtain ⟨hbut, hfilled⟩ := hwritten
    have h₅ := h₄.congr (sameArtifacts_of_sameBut hbut htemp)
    split
    · exact hgive h₅
    rename_i hok
    refine goes_read (by trivial) fun after => ?_
    cases after with
    | none => exact hgive h₅
    | some after =>
      dsimp only
      split
      · exact hgive h₅
      apply goes_query
      intro size s₆ hsize
      obtain ⟨rfl, rfl⟩ := course_fileSize hsize
      cases hf : s₆.file (artifact job.key .gzipTemp) with
      | none => exact h₅
      | some f =>
        simp only [Option.map_some]
        split_ifs with hpays
        · exact storeSkip_goes hkey h₅
        · have hdata := hfilled (by simpa using hok) f hf
          exact publish_goes hkey hf hdata (Nat.le_of_not_lt (not_or.mp hpays).1) hbudget h₅

end FastdlMm.CompressionCache
