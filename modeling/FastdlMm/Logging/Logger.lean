import FastdlMm.Framework.Text

namespace FastdlMm.AsyncLogger

def kMaxQueuedLines : Nat := 4096

/-- What the worker writes: a line, or how many were dropped. -/
inductive Entry where
  | line (content : Text)
  | report (dropped : Nat)
  deriving DecidableEq

def Entry.text : Entry → Text
  | .line content => content ++ ['\n']
  | .report dropped =>
      FastdlMm.text "[fastdl] dropped " ++ decimal dropped ++ FastdlMm.text " log lines (queue full)\n"

/-- What the surroundings allow while a batch is handled: the daily file cannot be opened, or it can
and writing it may still fail, or it can and writing it succeeds. -/
inductive Access where
  | refused
  | fragile
  | sound
  deriving DecidableEq

/-- The `std::ofstream`: the day whose file is open, and no error bit set. -/
structure Stream where
  file : Option Int := none
  good : Bool := true

/-- A batch the worker is done with, or is writing. -/
structure Batch where
  lines : List Text
  day : Int
  access : Access

/-- Where the worker stands: at the lock, with a batch, with a batch it cannot write, writing the
report and the remaining lines of a batch, or at its end. The counts are its `dropped`. -/
inductive Worker where
  | waiting
  | taken (lines : List Text) (dropped : Nat)
  | lost (batch : Batch) (dropped : Nat)
  | writing (batch : Batch) (dropped : Nat) (remaining : List Text)
  | exited (dropped : Nat)

/-- The logger from a `start` on. A day stands for its file. History are the number of calls of
`write` before `stop` and the lines they queued, what was written to which file, and the batches
done, newest first. -/
structure Logger where
  queue : List Text := []
  dropped : Nat := 0
  stopping : Bool := false
  output : Stream := {}
  openDay : Int := 0
  opened : Bool := false
  worker : Worker := .waiting
  calls : Nat := 0
  accepted : List Text := []
  log : List (Int × Entry) := []
  batches : List Batch := []

inductive Step where
  | write (line : Text)
  | stop
  /-- The worker gets the lock, looks at the day and its stream, and gives a batch up. -/
  | take
  | look (today : Int) (access : Access)
  | carry
  /-- The stream gets the report or a line, or is flushed, and may fail at it. -/
  | report (ok : Bool)
  | put (ok : Bool)
  | flush (ok : Bool)

namespace Logger

def write (l : Logger) (line : Text) : Logger :=
  if l.stopping then l
  else if kMaxQueuedLines ≤ l.queue.length then
    { l with dropped := l.dropped + 1, calls := l.calls + 1 }
  else { l with
    queue := l.queue ++ [line]
    calls := l.calls + 1
    accepted := l.accepted ++ [line] }

/-- The day's file is opened anew unless it is open already. -/
def reopen (l : Logger) (today : Int) (access : Access) : Logger :=
  if l.opened = true ∧ today = l.openDay then l
  else if access = .refused then { l with output := ⟨none, false⟩, opened := false }
  else { l with output := ⟨some today, true⟩, opened := true, openDay := today }

/-- `output << entry`: nothing happens once an error bit is set. -/
def emit (l : Logger) (entry : Entry) (ok : Bool) : Logger :=
  match l.output with
  | ⟨some day, true⟩ =>
      if ok then { l with log := l.log ++ [(day, entry)] }
      else { l with output := ⟨some day, false⟩ }
  | ⟨file, _⟩ => { l with output := ⟨file, false⟩ }

/-- One step; `none` where it cannot happen. -/
def step (l : Logger) : Step → Option Logger
  | .write line => some (l.write line)
  | .stop => some { l with stopping := true }
  | .take =>
      match l.worker with
      | .waiting =>
          if l.queue = [] then
            if l.stopping then some { l with dropped := 0, worker := .exited l.dropped } else none
          else some { l with queue := [], dropped := 0, worker := .taken l.queue l.dropped }
      | _ => none
  | .look today access =>
      match l.worker with
      | .taken lines dropped =>
          let l := l.reopen today access
          let batch : Batch := ⟨lines, today, access⟩
          if l.output.good then some { l with worker := .writing batch dropped lines }
          else some { l with worker := .lost batch dropped }
      | _ => none
  | .carry =>
      match l.worker with
      | .lost batch dropped =>
          some { l with
            dropped := l.dropped + (dropped + batch.lines.length)
            worker := .waiting
            batches := batch :: l.batches }
      | _ => none
  | .report ok =>
      match l.worker with
      | .writing batch dropped remaining =>
          if dropped = 0 ∨ (batch.access = .sound ∧ ok = false) then none
          else some { l.emit (.report dropped) ok with worker := .writing batch 0 remaining }
      | _ => none
  | .put ok =>
      match l.worker with
      | .writing batch 0 (line :: remaining) =>
          if batch.access = .sound ∧ ok = false then none
          else some { l.emit (.line line) ok with worker := .writing batch 0 remaining }
      | _ => none
  | .flush ok =>
      match l.worker with
      | .writing batch 0 [] =>
          if batch.access = .sound ∧ ok = false then none
          else some { l with
            output := ⟨l.output.file, l.output.good && ok⟩
            worker := .waiting
            batches := batch :: l.batches }
      | _ => none

/-- What `reopen` makes of the stream: it stays with the day's file, or is opened anew. -/
theorem reopen_cases (l : Logger) (today : Int) (access : Access) :
    (l.opened = true ∧ today = l.openDay ∧ l.reopen today access = l) ∨
      ¬ (l.opened = true ∧ today = l.openDay) ∧
        (access = .refused ∧
            l.reopen today access = { l with output := ⟨none, false⟩, opened := false } ∨
          access ≠ .refused ∧ l.reopen today access =
            { l with output := ⟨some today, true⟩, opened := true, openDay := today }) := by
  unfold reopen
  split_ifs with hopen hrefused
  · exact .inl ⟨hopen.1, hopen.2, rfl⟩
  · exact .inr ⟨hopen, .inl ⟨hrefused, rfl⟩⟩
  · exact .inr ⟨hopen, .inr ⟨hrefused, rfl⟩⟩

theorem step_take {l l' : Logger} (h : l.step .take = some l') : l.worker = .waiting ∧
    ((l.queue = [] ∧ l.stopping = true ∧ l' = { l with dropped := 0, worker := .exited l.dropped }) ∨
      (l.queue ≠ [] ∧
        l' = { l with queue := [], dropped := 0, worker := .taken l.queue l.dropped })) := by
  simp only [step] at h
  split at h
  · rename_i hworker
    refine ⟨hworker, ?_⟩
    split_ifs at h with hempty hstop
    · exact .inl ⟨hempty, hstop, (Option.some.inj h).symm⟩
    · exact .inr ⟨hempty, (Option.some.inj h).symm⟩
  · cases h

theorem step_look {l l' : Logger} {today : Int} {access : Access}
    (h : l.step (.look today access) = some l') :
    ∃ lines dropped, l.worker = .taken lines dropped ∧
      ((l.reopen today access).output.good = true ∧
          l' = { l.reopen today access with
            worker := .writing ⟨lines, today, access⟩ dropped lines } ∨
        (l.reopen today access).output.good = false ∧
          l' = { l.reopen today access with worker := .lost ⟨lines, today, access⟩ dropped }) := by
  simp only [step] at h
  split at h
  · rename_i lines dropped hworker
    refine ⟨lines, dropped, hworker, ?_⟩
    split_ifs at h with hgood
    · exact .inl ⟨hgood, (Option.some.inj h).symm⟩
    · exact .inr ⟨Bool.eq_false_iff.mpr hgood, (Option.some.inj h).symm⟩
  · cases h

theorem step_carry {l l' : Logger} (h : l.step .carry = some l') :
    ∃ batch dropped, l.worker = .lost batch dropped ∧
      l' = { l with
        dropped := l.dropped + (dropped + batch.lines.length)
        worker := .waiting
        batches := batch :: l.batches } := by
  simp only [step] at h
  split at h
  · rename_i batch dropped hworker
    exact ⟨batch, dropped, hworker, (Option.some.inj h).symm⟩
  · cases h

theorem step_report {l l' : Logger} {ok : Bool} (h : l.step (.report ok) = some l') :
    ∃ batch dropped remaining, l.worker = .writing batch dropped remaining ∧ dropped ≠ 0 ∧
      (batch.access = .sound → ok = true) ∧
      l' = { l.emit (.report dropped) ok with worker := .writing batch 0 remaining } := by
  simp only [step] at h
  split at h
  · rename_i batch dropped remaining hworker
    by_cases hnone : dropped = 0 ∨ (batch.access = .sound ∧ ok = false)
    · rw [if_pos hnone] at h
      cases h
    · rw [if_neg hnone] at h
      refine ⟨batch, dropped, remaining, hworker, fun h0 => hnone (.inl h0), fun hsound => ?_,
        (Option.some.inj h).symm⟩
      exact Bool.of_not_eq_false fun hok => hnone (.inr ⟨hsound, hok⟩)
  · cases h

theorem step_put {l l' : Logger} {ok : Bool} (h : l.step (.put ok) = some l') :
    ∃ batch line remaining, l.worker = .writing batch 0 (line :: remaining) ∧
      (batch.access = .sound → ok = true) ∧
      l' = { l.emit (.line line) ok with worker := .writing batch 0 remaining } := by
  simp only [step] at h
  split at h
  · rename_i batch line remaining hworker
    by_cases hnone : batch.access = .sound ∧ ok = false
    · rw [if_pos hnone] at h
      cases h
    · rw [if_neg hnone] at h
      refine ⟨batch, line, remaining, hworker, fun hsound => ?_, (Option.some.inj h).symm⟩
      exact Bool.of_not_eq_false fun hok => hnone ⟨hsound, hok⟩
  · cases h

theorem step_flush {l l' : Logger} {ok : Bool} (h : l.step (.flush ok) = some l') :
    ∃ batch, l.worker = .writing batch 0 [] ∧ (batch.access = .sound → ok = true) ∧
      l' = { l with
        output := ⟨l.output.file, l.output.good && ok⟩
        worker := .waiting
        batches := batch :: l.batches } := by
  simp only [step] at h
  split at h
  · rename_i batch hworker
    by_cases hnone : batch.access = .sound ∧ ok = false
    · rw [if_pos hnone] at h
      cases h
    · rw [if_neg hnone] at h
      refine ⟨batch, hworker, fun hsound => ?_, (Option.some.inj h).symm⟩
      exact Bool.of_not_eq_false fun hok => hnone ⟨hsound, hok⟩
  · cases h

/-- What is put to a stream without error is logged. -/
theorem emit_good {l : Logger} {day : Int} (h : l.output = ⟨some day, true⟩) (entry : Entry) :
    l.emit entry true = { l with log := l.log ++ [(day, entry)] } := by
  unfold emit
  rw [h]
  rfl

/-- The states that steps meeting `meets` lead to from a `start`. -/
inductive Reaches (meets : Logger → Step → Prop) : Logger → Prop
  | start : Reaches meets {}
  | step {l l' : Logger} (x : Step) : Reaches meets l → meets l x → l.step x = some l' →
      Reaches meets l'

def runAll : List Step → Logger → Option Logger
  | [], l => some l
  | x :: xs, l => (l.step x).bind (runAll xs)

theorem reaches_of_runAll {meets : Logger → Step → Prop} (xs : List Step) {l l' : Logger}
    (hl : Reaches meets l) (hx : ∀ x ∈ xs, ∀ l, meets l x) (h : l.runAll xs = some l') :
    Reaches meets l' := by
  induction xs generalizing l with
  | nil =>
    cases h
    exact hl
  | cons x xs ih =>
    obtain ⟨l₁, hstep, hrest⟩ := Option.bind_eq_some_iff.mp h
    exact ih (hl.step x (hx x List.mem_cons_self l) hstep)
      (fun y hy => hx y (List.mem_cons_of_mem _ hy)) hrest

end Logger
end FastdlMm.AsyncLogger
