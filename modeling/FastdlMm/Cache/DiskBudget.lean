import FastdlMm.Cache.Keeping

namespace FastdlMm.CompressionCache

variable {exact : Prop} {S : Settings} {s s' : Store}

/-- Once the startup maintenance is done, the artifacts on the disk are within the limits whenever no
job is under way, whatever the requests, the scans and the compressor do. -/
theorem disk_within_budget (hkeys : S.cacheKey = cacheKey) (hbudget : S.maxBytes < 2 ^ 63)
    {disk : Directory} (hdisk : artifactBytes disk < 2 ^ 64) {c₁ c : Cache}
    (h₁ : Reaches S (Undisturbed False) { store := { disk := disk } } c₁)
    (hwaiting : c₁.waiting = true) (h : Reaches S (Undisturbed False) c₁ c)
    (hbetween : c.store.current = none) :
    artifactBytes c.store.disk ≤ S.maxBytes ∧ artifactCount c.store.disk ≤ 16384 := by
  have hmeets : ∀ c e, Undisturbed False c e → Undisturbed False c e ∧ (False → Unreplaced c e) :=
    fun _ _ hm => ⟨hm, False.elim⟩
  have hkeeping₁ := (reaches_keeping hkeys hbudget hmeets (start_keeping hdisk) h₁).1
  have hwithin₁ : c₁.store.Within S := (hkeeping₁.tracks hwaiting).within
  exact (reaches_keeping hkeys hbudget hmeets hkeeping₁ h).2 hwithin₁ hbetween

/-- Steps that all go well, with no `stop`. -/
def Event.goesWell : Event → Bool
  | .work choice => !choice.fails
  | .halt | .withdraw | .join | .crash => false
  | _ => true

theorem succeeds_of_not_fails {q : Op} {choice : Choice} (h : choice.fails = false) :
    q.Succeeds exact choice := by
  cases q <;> first | exact h | exact fun _ => h | trivial

theorem undisturbed_of_goesWell (c : Cache) (e : Event) (h : e.goesWell = true) :
    Undisturbed exact c e := by
  cases e with
  | work choice =>
    intro q next _
    exact succeeds_of_not_fails (by simpa [Event.goesWell] using h)
  | halt | withdraw | join | crash => cases h
  | _ => trivial

/-- A source is looked up and compressed. -/
def compressOne : List Event :=
  looking (sampleSource (text "/r/maps/a.bsp") 1) 4 ++ [.leave 0] ++
    compressing (sampleSource (text "/r/maps/a.bsp") 1) 12

/-- There is room for one artifact. -/
def smallSettings : Settings := { sampleSettings cacheKey with maxBytes := 40 }

/-- A second source is looked up and compressed. With that the artifacts are over the budget, and
the first one goes. -/
def evictFirst : List Event :=
  let first := sampleSource (text "/r/maps/a.bsp") 1
  let second := sampleSource (text "/r/maps/b.bsp") 2
  let names := [first, second].flatMap fun source =>
    [artifact (cacheKey (sourceIdentity source)) .gzip,
      artifact (cacheKey (sourceIdentity source)) .metadata]
  looking second 4 ++ [.leave 0] ++ compressing second 11 ++ [.work { names := names }] ++
    List.replicate 12 (.work { source := some first }) ++
    List.replicate 12 (.work { source := some second }) ++
    [.work { index := 1 }] ++ List.replicate 4 (.work {})

theorem disk_within_budget_evictFirst :
    ∃ c₁ c, ({} : Cache).runIf smallSettings (fun _ e => e.goesWell) startUp = some c₁ ∧
      c₁.runIf smallSettings (fun _ e => e.goesWell) (compressOne ++ evictFirst) = some c ∧
      artifact (cacheKey (sourceIdentity (sampleSource (text "/r/maps/b.bsp") 2))) .gzip ∈
        c.store.disk ∧
      artifactCount c.store.disk = 1 ∧
      artifactBytes c.store.disk ≤ 40 ∧ artifactCount c.store.disk ≤ 16384 := by
  have hrun : ((({} : Cache).runIf smallSettings (fun _ e => e.goesWell) startUp).any
      fun c₁ => c₁.waiting && (c₁.runIf smallSettings (fun _ e => e.goesWell)
        (compressOne ++ evictFirst)).any fun c => c.store.current.isNone &&
          (decide (artifact (cacheKey (sourceIdentity (sampleSource (text "/r/maps/b.bsp") 2))) .gzip ∈
            c.store.disk) && artifactCount c.store.disk == 1)) = true := by
    decide +kernel
  obtain ⟨c₁, hc₁, hrest⟩ := (Option.any_eq_true _ _).mp hrun
  obtain ⟨hwaiting, hrest⟩ := Bool.and_eq_true_iff.mp hrest
  obtain ⟨c, hc, hend⟩ := (Option.any_eq_true _ _).mp hrest
  simp only [Bool.and_eq_true, Option.isNone_iff_eq_none, decide_eq_true_eq, beq_iff_eq] at hend
  obtain ⟨hnone, hsecond, hcount⟩ := hend
  have hreach₁ : Reaches smallSettings (Undisturbed False) {} c₁ :=
    reaches_of_runIf undisturbed_of_goesWell .refl hc₁
  have hreach : Reaches smallSettings (Undisturbed False) c₁ c :=
    reaches_of_runIf undisturbed_of_goesWell .refl hc
  exact ⟨c₁, c, hc₁, hc, hsecond, hcount, disk_within_budget rfl (by decide) (by decide) hreach₁
    hwaiting hreach hnone⟩

section Saturation

variable {n : Nat}

/-- Every artifact in the directory has `n` bytes. -/
def Store.Uniform (n : Nat) (s : Store) : Prop :=
  ∀ name f, s.file name = some f → cacheName name .gzip = true → f.data.length = n

/-- A step of maintenance as it goes where every artifact has `n` bytes: no file is looked into for
its size. -/
def Op.performSized (n : Nat) : (q : Op) → Choice → Store → Queue → Option (q.Answer × Store × Queue)
  | .fileSize name, c, s, u =>
      if cacheName name .gzip then some (if name ∈ s.disk then some n else none, s, u)
      else (Op.fileSize name).perform c s u
  | .create _, _, _, _ | .append _ _, _, _, _ | .flush _, _, _, _ | .rename _ _, _, _, _ => none
  | .takeWork, _, _, _ | .claim _, _, _, _ | .release _, _, _, _ | .enqueue _, _, _, _ => none
  | q, c, s, u => q.perform c s u

theorem Store.Uniform.maintains {q : Op} {c : Choice} {u u' : Queue} {x : q.Answer}
    (hs : s.Uniform n) (hq : q.Maintains) (h : q.perform c s u = some (x, s', u')) :
    s'.Uniform n := by
  cases q with
  | remove name =>
    intro name' f hf
    exact hs name' f (file_of_remove h hf)
  | setCounters entries bytes =>
    cases h
    exact hs
  | create | append | flush | rename | takeWork | claim | release | enqueue => cases hq
  | _ =>
    rw [perform_reads (by trivial) h]
    exact hs

theorem Store.Uniform.le_bytes {name : Text} (hs : s.Uniform n) (hmem : name ∈ s.disk)
    (hname : cacheName name .gzip = true) : n ≤ artifactBytes s.disk := by
  obtain ⟨f, hf⟩ := Option.isSome_iff_exists.mp (AList.lookup_isSome.mpr hmem)
  have hsum := artifactSum_erase (fun f => f.data.length) s.disk hname hf
  have hlength : f.data.length = n := hs name f hf hname
  calc n = f.data.length := hlength.symm
    _ ≤ artifactBytes s.disk := Nat.le.intro ((Nat.add_comm _ _).trans hsum)

theorem Store.Uniform.put {name : Text} {f : File} (hs : s.Uniform n)
    (hf : cacheName name .gzip = true → f.data.length = n) : (s.put name f).Uniform n := by
  intro name' f' hf' hname
  rw [Store.file_put] at hf'
  split_ifs at hf' with heq
  · cases hf'
    exact hf (heq ▸ hname)
  · exact hs name' f' hf' hname

theorem perform_of_performSized {q : Op} {c : Choice} {u u' : Queue} {x : q.Answer}
    (hs : s.Uniform n) (hc : c.fails = false) (h : q.performSized n c s u = some (x, s', u')) :
    q.perform c s u = some (x, s', u') ∧ s'.Uniform n := by
  have huniform (hq : q.Maintains) (hp : q.perform c s u = some (x, s', u')) :
      q.perform c s u = some (x, s', u') ∧ s'.Uniform n := ⟨hp, hs.maintains hq hp⟩
  cases q with
  | fileSize name =>
    apply huniform trivial
    simp only [Op.performSized] at h
    split_ifs at h with hname hmem
    · cases h
      obtain ⟨f, hf⟩ := Option.isSome_iff_exists.mp (AList.lookup_isSome.mpr hmem)
      simp only [Op.perform, hc, Bool.false_eq_true, if_false, Store.file, hf, Option.map_some]
      rw [hs name f hf hname]
    · cases h
      simp only [Op.perform, hc, Bool.false_eq_true, if_false, Store.file,
        AList.lookup_eq_none.mpr hmem, Option.map_none]
    · exact h
  | create | append | flush | rename | takeWork | claim | release | enqueue => cases h
  | _ => exact huniform trivial h

/-- Steps of the worker that go well, up to where it asks for work. -/
def Cache.maintainSized (n : Nat) : List Choice → Cache → Option Cache
  | [], c => some c
  | choice :: choices, c =>
      match c.worker with
      | .done _ => none
      | .ask q next =>
          match choice.fails, q.performSized n choice c.store c.queue with
          | false, some (x, store, queue) =>
              maintainSized n choices { c with store := store, queue := queue, worker := next x }
          | _, _ => none

theorem reaches_of_maintainSized {choices : List Choice} {c₀ c c' : Cache}
    (h₀ : Reaches S (Undisturbed exact) c₀ c) (hs : c.store.Uniform n)
    (h : c.maintainSized n choices = some c') :
    Reaches S (Undisturbed exact) c₀ c' ∧ c'.store.Uniform n := by
  induction choices generalizing c with
  | nil =>
    cases h
    exact ⟨h₀, hs⟩
  | cons choice choices ih =>
    unfold Cache.maintainSized at h
    split at h
    · cases h
    rename_i q next hworker
    split at h
    · rename_i x store queue hfails hperform
      obtain ⟨hp, hs'⟩ := perform_of_performSized hs hfails hperform
      refine ih (h₀.step (.work choice) ?_ ?_) hs' h
      · intro q _ _
        exact succeeds_of_not_fails hfails
      · simp only [Cache.step, Cache.work, hworker, hp]
    · cases h

/-- The source's artifact with `n` bytes, and its marker. -/
def Store.putArtifact (s : Store) (source : CompressionSource) (n : Nat) : Store :=
  (s.put (artifact (cacheKey (sourceIdentity source)) .gzip) ⟨List.replicate n 'a', 0, none⟩).put
    (artifact (cacheKey (sourceIdentity source)) .metadata) ⟨sourceIdentity source, 0, none⟩

theorem Store.Uniform.putArtifact (hs : s.Uniform n) (source : CompressionSource) :
    (s.putArtifact source n).Uniform n := by
  apply Store.Uniform.put
  · apply hs.put
    intro _
    exact List.length_replicate
  · intro hname
    have hno := @beside (cacheKey (sourceIdentity source)) .metadata (by decide)
    rw [hno] at hname
    cases hname

/-- Three artifacts that are current and have 2^63 - 1 bytes each. -/
def hugeStore : Store :=
  [1, 2, 3].foldl (fun s id => s.putArtifact (sampleSource (text "/r/maps/a.bsp") id) (2 ^ 63 - 1)) {}

def maintainHuge : List Choice :=
  { names := hugeStore.disk.keys } :: ([3, 2, 1].flatMap fun id =>
    List.replicate 12 { source := some (sampleSource (text "/r/maps/a.bsp") id) }) ++
    List.replicate 7 ({} : Choice)

/-- Sizes that add up to 2^64 and more are not counted in full: an artifact over the budget stays. -/
theorem not_disk_within_budget_huge :
    ∃ c, Reaches (sampleSettings cacheKey) (Undisturbed False)
        { store := { disk := hugeStore.disk } } c ∧
      c.waiting = true ∧ c.store.current = none ∧
      (sampleSettings cacheKey).maxBytes < artifactBytes c.store.disk := by
  let last : Text := artifact (cacheKey (sourceIdentity (sampleSource (text "/r/maps/a.bsp") 3))) .gzip
  let c₀ : Cache := { store := { disk := hugeStore.disk }, queue := { stopping := false }
                      worker := run (sampleSettings cacheKey) 1, control := .launched }
  have hrun : ((c₀.maintainSized (2 ^ 63 - 1) maintainHuge).any fun c =>
      c.waiting && c.store.current.isNone && decide (last ∈ c.store.disk)) = true := by
    decide +kernel
  obtain ⟨c, hc, hend⟩ := (Option.any_eq_true _ _).mp hrun
  simp only [Bool.and_eq_true, Option.isNone_iff_eq_none, decide_eq_true_eq] at hend
  obtain ⟨⟨hwaiting, hnone⟩, hlast⟩ := hend
  have hempty : Store.Uniform (2 ^ 63 - 1) {} := by
    intro name f hf
    rw [Store.file, AList.lookup_empty] at hf
    cases hf
  have huge : c₀.store.Uniform (2 ^ 63 - 1) :=
    ((hempty.putArtifact _).putArtifact _).putArtifact _
  have hreach₀ : Reaches (sampleSettings cacheKey) (Undisturbed False)
      { store := { disk := hugeStore.disk } } c₀ :=
    (Reaches.refl.step .prepare trivial rfl).step (.launch 1) trivial rfl
  obtain ⟨hreach, hsizes⟩ := reaches_of_maintainSized hreach₀ huge hc
  have hover : 2 ^ 63 - 1 ≤ artifactBytes c.store.disk := hsizes.le_bytes hlast (by decide +kernel)
  exact ⟨c, hreach, hwaiting, hnone, Nat.lt_of_lt_of_le (by decide) hover⟩

end Saturation
end FastdlMm.CompressionCache
