import FastdlMm.Logging.Logger

namespace FastdlMm

/-- The blocks stand in the whole one after the other, the first of the list last, with anything
before, between and behind them. -/
inductive Blocks {α : Type} : List (List α) → List α → Prop
  | nil {whole : List α} : Blocks [] whole
  | cons {block front back : List α} {older : List (List α)} : Blocks older front →
      Blocks (block :: older) (front ++ block ++ back)

theorem Blocks.append {α : Type} {blocks : List (List α)} {whole : List α} (h : Blocks blocks whole)
    (more : List α) : Blocks blocks (whole ++ more) := by
  cases h with
  | nil => exact .nil
  | cons hfront =>
    rw [List.append_assoc _ _ more]
    exact hfront.cons

theorem Blocks.sublist {α : Type} {blocks : List (List α)} {whole : List α}
    (h : Blocks blocks whole) : blocks.reverse.flatten.Sublist whole := by
  induction h with
  | nil => exact List.nil_sublist _
  | @cons block front back older hfront ih =>
    rw [List.reverse_cons, List.flatten_append, List.flatten_singleton]
    exact (ih.append_right block).trans (List.sublist_append_left _ back)

end FastdlMm

namespace FastdlMm.AsyncLogger

def Batch.text (batch : Batch) : Text := batch.lines.flatMap (fun line => line ++ ['\n'])

/-- What the surroundings of a run show: the day the worker last looked at, and whether a write or
flush has failed since it came to that day. -/
structure Disk where
  day : Int := 0
  failed : Bool := false

def Disk.after (d : Disk) : Step → Disk
  | .look today _ => ⟨today, d.failed && decide (today = d.day)⟩
  | .report ok | .put ok | .flush ok => { d with failed := d.failed || !ok }
  | _ => d

/-- A batch whose file can be opened and written comes at a time when no write or flush of that
day's file has failed. -/
def Disk.Spares (d : Disk) : Step → Prop
  | .look today .sound => ¬ (d.failed = true ∧ today = d.day)
  | _ => True

/-- The steps of a run, each at such a time. -/
def Untroubled : Disk → List Step → Prop
  | _, [] => True
  | d, x :: xs => d.Spares x ∧ Untroubled (d.after x) xs

namespace Logger

/-- The content of the day's file. -/
def file (l : Logger) (day : Int) : Text :=
  (l.log.filter (fun e => e.1 = day)).flatMap (fun e => e.2.text)

/-- The batches done whose file of that day could be opened and written, newest first. -/
def soundTexts (l : Logger) (day : Int) : List Text :=
  (l.batches.filter (fun b => b.access = .sound ∧ b.day = day)).map Batch.text

/-- Every batch done stands in its day's file, if that could be opened and written: each for itself
and in the order they were taken. -/
def Recovers (l : Logger) : Prop := ∀ day, Blocks (l.soundTexts day) (l.file day)

/-- The stream is as `opened` and `openDay` say, and has an error exactly where the disk failed. -/
structure Tracking (l : Logger) (d : Disk) : Prop where
  recovers : l.Recovers
  tracked : l.opened = true → l.output.file = some l.openDay
  dated : l.opened = true → l.openDay = d.day
  failed : d.failed = true ↔ l.opened = true ∧ l.output.good = false

/-- The batch in hand is written as far as it goes, behind the batches before it. -/
structure Recovering (l : Logger) (d : Disk) : Prop where
  tracking : l.Tracking d
  unlost : ∀ batch dropped, l.worker = .lost batch dropped → batch.access ≠ .sound
  held : ∀ batch dropped remaining, l.worker = .writing batch dropped remaining → l.opened = true
  writing : ∀ batch dropped remaining, l.worker = .writing batch dropped remaining →
    batch.access = .sound → l.output = ⟨some batch.day, true⟩ ∧
      ∃ front done, batch.lines = done ++ remaining ∧ (done = [] ∨ dropped = 0) ∧
        l.file batch.day = front ++ done.flatMap (fun line => line ++ ['\n']) ∧
        Blocks (l.soundTexts batch.day) front

/-- Another day than the open file's is one whose file no write or flush has failed on. -/
theorem Tracking.cleared {l : Logger} {d : Disk} (h : l.Tracking d) {today : Int}
    (hnot : ¬ (l.opened = true ∧ today = l.openDay)) (access : Access) :
    (d.after (.look today access)).failed = false := by
  simp only [Disk.after, Bool.and_eq_false_iff, decide_eq_false_iff_not]
  by_contra hfailed
  rw [not_or, Bool.not_eq_false, Decidable.not_not] at hfailed
  have hopened := (h.failed.mp hfailed.1).1
  exact hnot ⟨hopened, hfailed.2.trans (h.dated hopened).symm⟩

theorem Tracking.reopen {l : Logger} {d : Disk} (h : l.Tracking d) (today : Int) (access : Access) :
    (l.reopen today access).Tracking (d.after (.look today access)) := by
  obtain ⟨hopened, htoday, heq⟩ | ⟨hnot, ⟨-, heq⟩ | ⟨-, heq⟩⟩ := reopen_cases l today access
  · have hday : today = d.day := htoday.trans (h.dated hopened)
    rw [heq]
    exact ⟨h.recovers, h.tracked, fun _ => htoday.symm, by simpa [Disk.after, hday] using h.failed⟩
  · rw [heq]
    exact ⟨h.recovers, by simp, by simp, by simp [h.cleared hnot access]⟩
  · rw [heq]
    exact ⟨h.recovers, fun _ => rfl, fun _ => rfl, by simp [h.cleared hnot access]⟩

/-- A batch whose file can be opened and written meets an error exactly where a write or flush of
that day's file has failed. -/
theorem Tracking.reopen_sound {l : Logger} {d : Disk} (h : l.Tracking d) (today : Int) :
    (l.reopen today .sound).output.good = false ↔ d.failed = true ∧ today = d.day := by
  obtain ⟨hopened, htoday, heq⟩ | ⟨hnot, ⟨hrefused, -⟩ | ⟨-, heq⟩⟩ := reopen_cases l today .sound
  · rw [heq, h.failed]
    exact ⟨fun hbad => ⟨⟨hopened, hbad⟩, htoday.trans (h.dated hopened)⟩, fun hbad => hbad.1.2⟩
  · cases hrefused
  · rw [heq]
    constructor
    · intro hbad
      cases hbad
    · intro hbad
      have hopened := (h.failed.mp hbad.1).1
      exact absurd ⟨hopened, hbad.2.trans (h.dated hopened).symm⟩ hnot

/-- The stream that is good after `reopen` writes to the day's file. -/
theorem Tracking.reopen_good {l : Logger} {d : Disk} (h : l.Tracking d) {today : Int}
    {access : Access} (hgood : (l.reopen today access).output.good = true) :
    (l.reopen today access).opened = true ∧ (l.reopen today access).output = ⟨some today, true⟩ := by
  obtain ⟨hopened, htoday, heq⟩ | ⟨-, ⟨-, heq⟩ | ⟨-, heq⟩⟩ := reopen_cases l today access
  · rw [heq] at hgood ⊢
    have hfile := h.tracked hopened
    rw [← htoday] at hfile
    exact ⟨hopened, by rw [← hfile, ← hgood]⟩
  · rw [heq] at hgood
    cases hgood
  · rw [heq]
    exact ⟨rfl, rfl⟩

/-- What is put to an open stream: it is logged unless there is an error, or one comes up. -/
theorem emit_open {l : Logger} {day : Int} (h : l.output.file = some day) (entry : Entry)
    (ok : Bool) :
    l.emit entry ok = { l with
      output := ⟨some day, l.output.good && ok⟩
      log := l.log ++ if l.output.good && ok then [(day, entry)] else [] } := by
  rcases l with ⟨queue, dropped, stopping, ⟨file, good⟩⟩
  cases h
  cases good <;> cases ok <;> simp [emit]

theorem file_append (l : Logger) (more : List (Int × Entry)) (day : Int) :
    file { l with log := l.log ++ more } day =
      l.file day ++ (more.filter (fun e => e.1 = day)).flatMap (fun e => e.2.text) := by
  unfold file
  rw [List.filter_append, List.flatMap_append]

theorem Recovers.emit {l : Logger} (h : l.Recovers) {day : Int} (hfile : l.output.file = some day)
    (entry : Entry) (ok : Bool) : (l.emit entry ok).Recovers := by
  rw [emit_open hfile]
  intro d
  have hfile := file_append l (if l.output.good && ok then [(day, entry)] else []) d
  change Blocks (l.soundTexts d) (file { l with log := l.log ++ _ } d)
  rw [hfile]
  exact (h d).append _

theorem Tracking.emit {l : Logger} {d : Disk} (h : l.Tracking d) (hopened : l.opened = true)
    (entry : Entry) (ok : Bool) :
    (l.emit entry ok).Tracking { d with failed := d.failed || !ok } := by
  have hfile := h.tracked hopened
  have hrecovers := h.recovers.emit hfile entry ok
  rw [emit_open hfile] at hrecovers ⊢
  refine ⟨hrecovers, fun _ => rfl, h.dated, ?_⟩
  simp only [Bool.or_eq_true, h.failed, hopened, true_and, Bool.not_eq_true', Bool.and_eq_false_iff]

theorem soundTexts_cons (l : Logger) (batch : Batch) (day : Int) :
    soundTexts { l with batches := batch :: l.batches } day =
      (if batch.access = .sound ∧ batch.day = day then [batch.text] else []) ++ l.soundTexts day := by
  unfold soundTexts
  rw [List.filter_cons]
  split_ifs <;> simp_all

/-- A batch that could not have been written, or that stands behind the ones before it, may be done. -/
theorem Recovers.done {l : Logger} (h : l.Recovers) {batch : Batch}
    (hstands : batch.access = .sound → ∃ front, l.file batch.day = front ++ batch.text ∧
      Blocks (l.soundTexts batch.day) front) :
    Recovers { l with batches := batch :: l.batches } := by
  intro day
  rw [soundTexts_cons]
  split_ifs with hsound
  · obtain ⟨hsound, rfl⟩ := hsound
    obtain ⟨front, hfile, hblocks⟩ := hstands hsound
    have hback : l.file batch.day = front ++ batch.text ++ [] := by rw [hfile, List.append_nil]
    change Blocks (batch.text :: l.soundTexts batch.day) (l.file batch.day)
    rw [hback]
    exact hblocks.cons
  · exact h day

variable {l l' : Logger} {d : Disk}

theorem Recovering.write (h : l.Recovering d) (line : Text) : (l.write line).Recovering d := by
  obtain ⟨⟨hrecovers, htracked, hdated, hfailed⟩, hunlost, hheld, hwriting⟩ := h
  unfold Logger.write
  split_ifs <;>
    exact ⟨⟨hrecovers, htracked, hdated, hfailed⟩, hunlost, hheld, hwriting⟩

theorem Recovering.take (h : l.Recovering d) (hstep : l.step .take = some l') :
    l'.Recovering d := by
  obtain ⟨hrecovers, htracked, hdated, hfailed⟩ := h.tracking
  obtain ⟨-, ⟨-, -, rfl⟩ | ⟨-, rfl⟩⟩ := step_take hstep
  · exact ⟨⟨hrecovers, htracked, hdated, hfailed⟩, by simp, by simp, by simp⟩
  · exact ⟨⟨hrecovers, htracked, hdated, hfailed⟩, by simp, by simp, by simp⟩

theorem Recovering.look (h : l.Recovering d) {today : Int} {access : Access}
    (hspares : d.Spares (.look today access)) (hstep : l.step (.look today access) = some l') :
    l'.Recovering (d.after (.look today access)) := by
  obtain ⟨lines, dropped, -, hcase⟩ := step_look hstep
  have htracking := h.tracking.reopen today access
  obtain ⟨hrecovers, htracked, hdated, hfailed⟩ := htracking
  obtain ⟨hgood, rfl⟩ | ⟨hbad, rfl⟩ := hcase
  · obtain ⟨hopened, houtput⟩ := h.tracking.reopen_good hgood
    refine ⟨⟨hrecovers, htracked, hdated, hfailed⟩, by simp, fun _ _ _ _ => hopened, ?_⟩
    intro batch dropped' remaining hworker hsound
    cases hworker
    exact ⟨houtput, _, [], rfl, .inl rfl, (List.append_nil _).symm, hrecovers today⟩
  · refine ⟨⟨hrecovers, htracked, hdated, hfailed⟩, ?_, by simp, by simp⟩
    intro batch dropped' hworker
    cases hworker
    intro hsound
    change access = .sound at hsound
    subst hsound
    exact hspares ((h.tracking.reopen_sound today).mp hbad)

theorem Recovering.carry (h : l.Recovering d) (hstep : l.step .carry = some l') :
    l'.Recovering d := by
  obtain ⟨batch, dropped, hworker, rfl⟩ := step_carry hstep
  obtain ⟨hrecovers, htracked, hdated, hfailed⟩ := h.tracking
  have hdone := hrecovers.done fun hsound => absurd hsound (h.unlost _ _ hworker)
  exact ⟨⟨hdone, htracked, hdated, hfailed⟩, by simp, by simp, by simp⟩

theorem Recovering.report (h : l.Recovering d) {ok : Bool}
    (hstep : l.step (.report ok) = some l') : l'.Recovering (d.after (.report ok)) := by
  obtain ⟨batch, dropped, remaining, hworker, hdropped, hok, rfl⟩ := step_report hstep
  have hopened := h.held _ _ _ hworker
  obtain ⟨hrecovers, htracked, hdated, hfailed⟩ := h.tracking.emit hopened (.report dropped) ok
  have hemit := emit_open (h.tracking.tracked hopened) (.report dropped) ok
  refine ⟨⟨hrecovers, htracked, hdated, hfailed⟩, by simp, fun _ _ _ _ => by simpa [hemit], ?_⟩
  intro batch' dropped' remaining' hworker' hsound
  cases hworker'
  obtain ⟨houtput, front, done, hlines, hdone, -, -⟩ := h.writing _ _ _ hworker hsound
  -- Nothing of the batch is written yet: it starts behind the report.
  have hnil : done = [] := hdone.resolve_right hdropped
  subst hnil
  rw [hok hsound, emit_good houtput] at hrecovers ⊢
  exact ⟨houtput, _, [], hlines, .inl rfl, (List.append_nil _).symm, hrecovers batch.day⟩

theorem Recovering.put (h : l.Recovering d) {ok : Bool}
    (hstep : l.step (.put ok) = some l') : l'.Recovering (d.after (.put ok)) := by
  obtain ⟨batch, line, remaining, hworker, hok, rfl⟩ := step_put hstep
  have hopened := h.held _ _ _ hworker
  obtain ⟨hrecovers, htracked, hdated, hfailed⟩ := h.tracking.emit hopened (.line line) ok
  have hemit := emit_open (h.tracking.tracked hopened) (.line line) ok
  refine ⟨⟨hrecovers, htracked, hdated, hfailed⟩, by simp, fun _ _ _ _ => by simpa [hemit], ?_⟩
  intro batch' dropped' remaining' hworker' hsound
  cases hworker'
  obtain ⟨houtput, front, done, hlines, -, hfile, hblocks⟩ := h.writing _ _ _ hworker hsound
  rw [hok hsound, emit_good houtput]
  refine ⟨houtput, front, done ++ [line], ?_, .inr rfl, ?_, hblocks⟩
  · rw [hlines, List.append_assoc]
    rfl
  · have happend := file_append l [(batch.day, .line line)] batch.day
    change file { l with log := l.log ++ [(batch.day, .line line)] } batch.day = _
    rw [happend, hfile, List.flatMap_append]
    simp [Entry.text]

theorem Recovering.flush (h : l.Recovering d) {ok : Bool}
    (hstep : l.step (.flush ok) = some l') : l'.Recovering (d.after (.flush ok)) := by
  obtain ⟨batch, hworker, hok, rfl⟩ := step_flush hstep
  have hopened := h.held _ _ _ hworker
  obtain ⟨hrecovers, htracked, hdated, hfailed⟩ := h.tracking
  have hdone : Recovers { l with batches := batch :: l.batches } := by
    apply hrecovers.done
    intro hsound
    obtain ⟨-, front, done, hlines, -, hfile, hblocks⟩ := h.writing _ _ _ hworker hsound
    rw [List.append_nil] at hlines
    refine ⟨front, ?_, hblocks⟩
    unfold Batch.text
    rw [hfile, hlines]
  refine ⟨⟨hdone, htracked, hdated, ?_⟩, by simp, by simp, by simp⟩
  simp only [Disk.after, Bool.or_eq_true, hfailed, hopened, true_and, Bool.not_eq_true',
    Bool.and_eq_false_iff]

theorem Recovering.step {x : Step} (h : l.Recovering d) (hx : d.Spares x)
    (hstep : l.step x = some l') : l'.Recovering (d.after x) := by
  cases x with
  | write line =>
    cases hstep
    exact h.write line
  | stop =>
    cases hstep
    obtain ⟨⟨hrecovers, htracked, hdated, hfailed⟩, hunlost, hheld, hwriting⟩ := h
    exact ⟨⟨hrecovers, htracked, hdated, hfailed⟩, hunlost, hheld, hwriting⟩
  | take => exact h.take hstep
  | look today access => exact h.look hx hstep
  | carry => exact h.carry hstep
  | report ok => exact h.report hstep
  | put ok => exact h.put hstep
  | flush ok => exact h.flush hstep

theorem Recovering.runAll {xs : List Step} (h : l.Recovering d) (hxs : Untroubled d xs)
    (hrun : l.runAll xs = some l') : l'.Recovers := by
  induction xs generalizing l d with
  | nil =>
    cases hrun
    exact h.tracking.recovers
  | cons x xs ih =>
    obtain ⟨l₁, hstep, hrest⟩ := Option.bind_eq_some_iff.mp hrun
    exact ih (h.step hxs.1 hstep) hxs.2 hrest

/-- Every batch whose day's file could be opened and written stands in that file, in a run where no
such batch comes on a day on which a write or flush of the file has failed. -/
theorem recovers_of_untroubled {xs : List Step} {l : Logger} (hxs : Untroubled {} xs)
    (hrun : ({} : Logger).runAll xs = some l) : l.Recovers := by
  have hstart : ({} : Logger).Recovering {} :=
    ⟨⟨fun _ => .nil, by simp, by simp, by simp⟩, by simp, by simp, by simp⟩
  exact hstart.runAll hxs hrun

/-- Two days: the daily file cannot be opened at first, then a write to it fails, so that a later
batch of the day is lost too; on the next day two equal batches come. -/
def nextDay : List Step :=
  [.write (text "a"), .take, .look 0 .refused, .carry,
    .write (text "b"), .take, .look 0 .fragile, .report true, .put false, .flush true,
    .write (text "c"), .take, .look 0 .fragile, .carry,
    .write (text "d"), .take, .look 1 .sound, .report true, .put true, .flush true,
    .write (text "d"), .take, .look 1 .sound, .put true, .flush true]

private theorem nextDay_runs : (({} : Logger).runAll nextDay).isSome := by
  decide +kernel

/-- On the next day both batches are written, each for itself. -/
theorem recovers_of_untroubled_nextDay :
    ∃ l, ({} : Logger).runAll nextDay = some l ∧
      l.file 0 = text "[fastdl] dropped 1 log lines (queue full)\n" ∧
      l.file 1 = text "[fastdl] dropped 1 log lines (queue full)\nd\nd\n" ∧
      l.soundTexts 1 = [text "d\n", text "d\n"] ∧ l.Recovers := by
  have hrun := (Option.some_get nextDay_runs).symm
  refine ⟨_, hrun, by decide +kernel, by decide +kernel, by decide +kernel,
    recovers_of_untroubled ?_ hrun⟩
  simp [nextDay, Untroubled, Disk.Spares, Disk.after]

/-- The first batch meets an error while it is written. The file can be written again for the second
one, on the same day, but `opened` keeps it from being opened anew, and the batch is lost. -/
theorem spoilt_stream_loses_batch :
    ∃ l, ({} : Logger).runAll [.write (text "a"), .take, .look 0 .fragile, .put false, .flush true,
        .write (text "b"), .take, .look 0 .sound, .carry] = some l ∧ ¬ l.Recovers := by
  refine ⟨_, rfl, fun hrecovers => ?_⟩
  have hblocks := (hrecovers 0).sublist
  revert hblocks
  decide +kernel

end Logger
end FastdlMm.AsyncLogger
