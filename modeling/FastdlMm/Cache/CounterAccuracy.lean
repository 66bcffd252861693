import FastdlMm.Cache.DiskBudget

namespace FastdlMm.CompressionCache

/-- While every artifact goes where there is none yet, the counters say just what is on the disk
whenever the worker asks for work. -/
theorem counters_match_disk {S : Settings} (hkeys : S.cacheKey = cacheKey)
    (hbudget : S.maxBytes < 2 ^ 63) {disk : Directory} (hdisk : artifactBytes disk < 2 ^ 64)
    {c : Cache} (h : Reaches S (fun c e => Undisturbed True c e ∧ Unreplaced c e)
      { store := { disk := disk } } c) (hwaiting : c.waiting = true) :
    c.store.entries = artifactCount c.store.disk ∧ c.store.bytes = artifactBytes c.store.disk := by
  have hkeeping : c.Keeping True S :=
    (reaches_keeping hkeys hbudget (fun _ _ hm => ⟨hm.1, fun _ => hm.2⟩) (start_keeping hdisk) h).1
  obtain ⟨hcount, hbytes⟩ := (hkeeping.tracks hwaiting).precise trivial
  exact ⟨hcount.symm, hbytes.symm⟩

/-- A step that goes well, and that opens no file for writing once there is an artifact. -/
def Cache.startsFresh (c : Cache) (e : Event) : Bool :=
  e.goesWell && match c.worker with
    | .ask (.create _) _ => c.store.disk.keys.all fun name => !Suffix.gzip.name.isSuffixOf name
    | _ => true

theorem unreplaced_of_startsFresh (c : Cache) (e : Event) (h : c.startsFresh e = true) :
    Undisturbed True c e ∧ Unreplaced c e := by
  obtain ⟨hgoes, hnew⟩ := Bool.and_eq_true_iff.mp h
  refine ⟨undisturbed_of_goesWell c e hgoes, ?_⟩
  cases e with
  | work choice =>
    intro q next hworker
    cases q with
    | create name =>
      intro key _
      rw [hworker] at hnew
      apply AList.lookup_eq_none.mpr
      intro hmem
      have hother := List.all_eq_true.mp hnew _ (AList.mem_keys.mp hmem)
      have hsuffix : Suffix.gzip.name.isSuffixOf (artifact key .gzip) = true :=
        List.isSuffixOf_iff_suffix.mpr (List.suffix_append _ _)
      rw [hsuffix] at hother
      cases hother
    | _ => trivial
  | _ => trivial

theorem counters_match_disk_compressOne :
    ∃ c, ({} : Cache).runIf (sampleSettings cacheKey) Cache.startsFresh (startUp ++ compressOne) =
        some c ∧ artifactCount c.store.disk = 1 ∧
      c.store.entries = artifactCount c.store.disk ∧ c.store.bytes = artifactBytes c.store.disk := by
  have hrun : ((({} : Cache).runIf (sampleSettings cacheKey) Cache.startsFresh
      (startUp ++ compressOne)).any fun c =>
        c.waiting && artifactCount c.store.disk == 1) = true := by decide +kernel
  obtain ⟨c, hc, hend⟩ := (Option.any_eq_true _ _).mp hrun
  obtain ⟨hwaiting, hcount⟩ := Bool.and_eq_true_iff.mp hend
  have hreach : Reaches (sampleSettings cacheKey)
      (fun c e => Undisturbed True c e ∧ Unreplaced c e) {} c :=
    reaches_of_runIf unreplaced_of_startsFresh .refl hc
  exact ⟨c, hc, beq_iff_eq.mp hcount,
    counters_match_disk rfl (by decide) (by decide) hreach hwaiting⟩

/-- One lookup finds nothing and is held up; the source is looked up again, compressed and published;
then the first lookup hands its job in, and that is compressed as well. -/
def compressTwice : List Event :=
  startUp ++ looking (sampleSource (text "/r/maps/a.bsp") 1) 3 ++ compressOne ++ [.look 0 {}] ++
    compressing (sampleSource (text "/r/maps/a.bsp") 1) 12

/-- An artifact that takes the place of another is counted on top of it. -/
theorem not_counters_match_disk_compressTwice :
    ∃ c, Reaches (sampleSettings cacheKey) (Undisturbed True) {} c ∧ c.waiting = true ∧
      c.queue.jobs = [] ∧ c.queue.buildRequested = false ∧
      c.store.entries = 2 ∧ artifactCount c.store.disk = 1 := by
  have hrun : ((({} : Cache).runIf (sampleSettings cacheKey) (fun _ e => e.goesWell)
      compressTwice).any fun c => c.waiting && c.queue.jobs.isEmpty && !c.queue.buildRequested &&
        c.store.entries == 2 && artifactCount c.store.disk == 1) = true := by decide +kernel
  obtain ⟨c, hc, hend⟩ := (Option.any_eq_true _ _).mp hrun
  simp only [Bool.and_eq_true, List.isEmpty_iff, Bool.not_eq_true', beq_iff_eq] at hend
  obtain ⟨⟨⟨⟨hwaiting, hjobs⟩, hbuild⟩, hentries⟩, hcount⟩ := hend
  exact ⟨c, reaches_of_runIf undisturbed_of_goesWell .refl hc, hwaiting, hjobs, hbuild, hentries,
    hcount⟩

end FastdlMm.CompressionCache
