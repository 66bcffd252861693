import FastdlMm.Logging.Logger
import Mathlib.Algebra.Order.BigOperators.Group.List
import Mathlib.Algebra.Order.Ring.Nat

namespace FastdlMm.AsyncLogger

def Entry.lines : Entry → List Text
  | .line content => [content]
  | .report _ => []

def Entry.dropped : Entry → Nat
  | .line _ => 0
  | .report dropped => dropped

/-- What the worker still has to write. -/
def Worker.lines : Worker → List Text
  | .waiting | .exited _ => []
  | .taken lines _ => lines
  | .lost batch _ => batch.lines
  | .writing _ _ remaining => remaining

def Worker.dropped : Worker → Nat
  | .waiting => 0
  | .taken _ dropped | .lost _ dropped | .writing _ dropped _ | .exited dropped => dropped

/-- Writing to an opened file succeeds. -/
def Step.Succeeds : Step → Prop
  | .report ok | .put ok | .flush ok => ok = true
  | _ => True

namespace Logger

def written (l : Logger) : List Text := l.log.flatMap (fun e => e.2.lines)

def reported (l : Logger) : Nat := (l.log.map (fun e => e.2.dropped)).sum

/-- The last batch done had lines, and no file could be opened for them. -/
def GaveUp (l : Logger) : Prop :=
  ∃ batch batches, l.batches = batch :: batches ∧ batch.lines ≠ [] ∧ batch.access = .refused

/-- Lines are dropped from a full queue only, and the worker ends with an empty one. -/
def Settled (l : Logger) : Prop :=
  match l.worker with
  | .waiting => l.dropped ≠ 0 → l.queue ≠ [] ∨ l.GaveUp
  | .taken lines _ => lines ≠ [] ∧ (l.dropped ≠ 0 → l.queue ≠ [])
  | .lost batch _ => batch.lines ≠ [] ∧ batch.access = .refused
  | .writing _ _ _ => (∃ day, l.output = ⟨some day, true⟩) ∧ (l.dropped ≠ 0 → l.queue ≠ [])
  | .exited dropped => l.queue = [] ∧ l.dropped = 0 ∧ l.stopping = true ∧ (dropped ≠ 0 → l.GaveUp)

/-- The law of conservation, the order of the lines, and what carries them. -/
structure Accounted (l : Logger) : Prop where
  counted : l.calls = l.written.length + l.reported + l.queue.length + l.dropped +
    l.worker.lines.length + l.worker.dropped
  ordered : (l.written ++ l.worker.lines ++ l.queue).Sublist l.accepted
  ready : l.opened = true → l.output = ⟨some l.openDay, true⟩
  settled : l.Settled

theorem Accounted.write {l : Logger} (h : l.Accounted) (line : Text) :
    (l.write line).Accounted := by
  have hcounted := h.counted
  have hsettled := h.settled
  unfold Logger.write
  split_ifs with hstop hfull
  · exact h
  · have hne : l.queue ≠ [] := by
      intro hq
      simp [hq, kMaxQueuedLines] at hfull
    refine ⟨?_, h.ordered, h.ready, ?_⟩
    · change l.calls + 1 = l.written.length + l.reported + l.queue.length + (l.dropped + 1) +
        l.worker.lines.length + l.worker.dropped
      omega
    · unfold Settled at hsettled ⊢
      cases hw : l.worker <;> simp_all
  · refine ⟨?_, ?_, h.ready, ?_⟩
    · change l.calls + 1 = l.written.length + l.reported + (l.queue ++ [line]).length + l.dropped +
        l.worker.lines.length + l.worker.dropped
      rw [List.length_append, List.length_singleton]
      omega
    · have hpush := h.ordered.append_right [line]
      rw [List.append_assoc] at hpush
      exact hpush
    · unfold Settled at hsettled ⊢
      cases hw : l.worker <;> simp_all

theorem Accounted.stop {l : Logger} (h : l.Accounted) : Accounted { l with stopping := true } := by
  have hsettled := h.settled
  refine ⟨h.counted, h.ordered, h.ready, ?_⟩
  unfold Settled at hsettled ⊢
  cases hw : l.worker with
  | exited dropped =>
    rw [hw] at hsettled
    exact ⟨hsettled.1, hsettled.2.1, rfl, hsettled.2.2.2⟩
  | _ =>
    rw [hw] at hsettled
    exact hsettled

theorem Accounted.take {l l' : Logger} (h : l.Accounted) (hstep : l.step .take = some l') :
    l'.Accounted := by
  have hcounted := h.counted
  have hordered := h.ordered
  have hsettled := h.settled
  obtain ⟨hworker, hcase⟩ := step_take hstep
  unfold Settled at hsettled
  rw [hworker] at hcounted hordered hsettled
  simp only [Worker.lines, Worker.dropped, List.append_nil, List.length_nil, Nat.add_zero]
    at hcounted hordered
  obtain ⟨hempty, hstop, rfl⟩ | ⟨hne, rfl⟩ := hcase
  · refine ⟨?_, ?_, h.ready, hempty, rfl, hstop, ?_⟩
    · change l.calls = l.written.length + l.reported + l.queue.length + 0 + 0 + l.dropped
      omega
    · change (l.written ++ [] ++ l.queue).Sublist l.accepted
      rwa [List.append_nil]
    · intro hd
      exact (hsettled hd).resolve_left fun hne => hne hempty
  · refine ⟨?_, ?_, h.ready, hne, fun hd => absurd rfl hd⟩
    · change l.calls = l.written.length + l.reported + 0 + 0 + l.queue.length + l.dropped
      omega
    · change (l.written ++ l.queue ++ []).Sublist l.accepted
      rwa [List.append_nil]

/-- `reopen` leaves a stream that can be written, unless the file cannot be opened. -/
theorem reopen_ready {l : Logger} (h : l.opened = true → l.output = ⟨some l.openDay, true⟩)
    (today : Int) (access : Access) :
    ∃ output opened openDay,
      l.reopen today access = { l with output := output, opened := opened, openDay := openDay } ∧
      (opened = true → output = ⟨some openDay, true⟩) ∧
      ((∃ day, output = ⟨some day, true⟩) ∨ (output.good = false ∧ access = .refused)) := by
  obtain ⟨hopened, -, heq⟩ | ⟨-, ⟨hrefused, heq⟩ | ⟨-, heq⟩⟩ := reopen_cases l today access
  · exact ⟨_, _, _, heq, h, .inl ⟨_, h hopened⟩⟩
  · exact ⟨_, _, _, heq, by simp, .inr ⟨rfl, hrefused⟩⟩
  · exact ⟨_, _, _, heq, fun _ => rfl, .inl ⟨today, rfl⟩⟩

theorem Accounted.look {l l' : Logger} (h : l.Accounted) {today : Int} {access : Access}
    (hstep : l.step (.look today access) = some l') : l'.Accounted := by
  have hcounted := h.counted
  have hordered := h.ordered
  have hsettled := h.settled
  obtain ⟨lines, dropped, hworker, hcase⟩ := step_look hstep
  obtain ⟨output, opened, openDay, hreopen, hready, hout⟩ := reopen_ready h.ready today access
  unfold Settled at hsettled
  rw [hworker] at hcounted hordered hsettled
  rw [hreopen] at hcase
  obtain ⟨hgood, rfl⟩ | ⟨hbad, rfl⟩ := hcase
  · refine ⟨hcounted, hordered, hready, ?_, hsettled.2⟩
    exact hout.resolve_right fun hrefused => by simp [hrefused.1] at hgood
  · refine ⟨hcounted, hordered, hready, hsettled.1, ?_⟩
    obtain ⟨day, rfl⟩ | ⟨-, hrefused⟩ := hout
    · cases hbad
    · exact hrefused

theorem Accounted.carry {l l' : Logger} (h : l.Accounted) (hstep : l.step .carry = some l') :
    l'.Accounted := by
  have hcounted := h.counted
  have hordered := h.ordered
  have hsettled := h.settled
  obtain ⟨batch, dropped, hworker, rfl⟩ := step_carry hstep
  unfold Settled at hsettled
  rw [hworker] at hcounted hordered hsettled
  refine ⟨?_, ?_, h.ready, fun _ => .inr ⟨batch, l.batches, rfl, hsettled⟩⟩
  · change l.calls = l.written.length + l.reported + l.queue.length +
      (l.dropped + (dropped + batch.lines.length)) + 0 + 0
    simp only [Worker.lines, Worker.dropped] at hcounted
    omega
  · refine List.Sublist.trans ?_ hordered
    change (l.written ++ [] ++ l.queue).Sublist (l.written ++ batch.lines ++ l.queue)
    exact ((List.append_sublist_append_left _).mpr (List.nil_sublist _)).append_right _

/-- Moving an entry from the worker to the file keeps the books. -/
theorem Accounted.emit {l : Logger} (h : l.Accounted) {batch batch' : Batch} {dropped dropped' : Nat}
    {remaining remaining' : List Text} (hworker : l.worker = .writing batch dropped remaining)
    {entry : Entry} (hlines : remaining = entry.lines ++ remaining')
    (hdropped : dropped = entry.dropped + dropped') :
    Accounted { l.emit entry true with worker := .writing batch' dropped' remaining' } := by
  have hcounted := h.counted
  have hordered := h.ordered
  have hsettled := h.settled
  unfold Settled at hsettled
  rw [hworker] at hcounted hordered hsettled
  obtain ⟨⟨day, hday⟩, hfull⟩ := hsettled
  have hwritten : List.flatMap (fun e : Int × Entry => e.2.lines) (l.log ++ [(day, entry)]) =
      l.written ++ entry.lines := by
    simp [written]
  have hreported : ((l.log ++ [(day, entry)]).map (fun e : Int × Entry => e.2.dropped)).sum =
      l.reported + entry.dropped := by
    simp [reported]
  rw [emit_good hday]
  refine ⟨?_, ?_, h.ready, ⟨day, hday⟩, hfull⟩
  · simp only [written, reported, Worker.lines, Worker.dropped] at hwritten hreported hcounted ⊢
    rw [hwritten, hreported]
    rw [hlines, List.length_append] at hcounted
    rw [List.length_append]
    omega
  · simp only [written, Worker.lines] at hwritten hordered ⊢
    rw [hwritten]
    rwa [hlines, ← List.append_assoc] at hordered

theorem Accounted.report {l l' : Logger} (h : l.Accounted)
    (hstep : l.step (.report true) = some l') : l'.Accounted := by
  obtain ⟨batch, dropped, remaining, hworker, -, -, rfl⟩ := step_report hstep
  exact h.emit hworker rfl rfl

theorem Accounted.put {l l' : Logger} (h : l.Accounted) (hstep : l.step (.put true) = some l') :
    l'.Accounted := by
  obtain ⟨batch, line, remaining, hworker, -, rfl⟩ := step_put hstep
  exact h.emit hworker rfl rfl

theorem Accounted.flush {l l' : Logger} (h : l.Accounted)
    (hstep : l.step (.flush true) = some l') : l'.Accounted := by
  have hcounted := h.counted
  have hordered := h.ordered
  have hsettled := h.settled
  obtain ⟨batch, hworker, -, rfl⟩ := step_flush hstep
  unfold Settled at hsettled
  rw [hworker] at hcounted hordered hsettled
  refine ⟨hcounted, hordered, ?_, fun hd => .inl (hsettled.2 hd)⟩
  intro hopened
  simp only [Bool.and_true]
  exact h.ready hopened

theorem Accounted.step {l l' : Logger} {x : Step} (h : l.Accounted) (hx : x.Succeeds)
    (hstep : l.step x = some l') : l'.Accounted := by
  cases x with
  | write line =>
    cases hstep
    exact h.write line
  | stop =>
    cases hstep
    exact h.stop
  | take => exact h.take hstep
  | look today access => exact h.look hstep
  | carry => exact h.carry hstep
  | report ok =>
    cases hx
    exact h.report hstep
  | put ok =>
    cases hx
    exact h.put hstep
  | flush ok =>
    cases hx
    exact h.flush hstep

/-- No call of `write` while the logger ran gets lost without a trace, no queued line is written
twice or out of order, and a worker that has ended leaves lines unaccounted for only where its last
batch found no file. -/
theorem conservation {l : Logger} (h : Reaches (fun _ x => x.Succeeds) l) :
    l.calls = l.written.length + l.reported + l.queue.length + l.dropped +
      l.worker.lines.length + l.worker.dropped ∧
    l.written.Sublist l.accepted ∧ (∀ line, l.written.count line ≤ l.accepted.count line) ∧
    ∀ dropped, l.worker = .exited dropped →
      l.calls ≠ l.written.length + l.reported → l.GaveUp := by
  have haccounted : l.Accounted := by
    induction h with
    | start => exact ⟨rfl, List.Sublist.refl _, by simp, fun hd => absurd rfl hd⟩
    | step x _ hmeets hstep ih => exact ih.step hmeets hstep
  have hcounted := haccounted.counted
  have hsub : l.written.Sublist l.accepted := by
    refine List.Sublist.trans ?_ haccounted.ordered
    rw [List.append_assoc]
    exact List.sublist_append_left _ _
  refine ⟨hcounted, hsub, fun line => hsub.count_le line, ?_⟩
  intro dropped hworker hmissing
  have hsettled := haccounted.settled
  unfold Settled at hsettled
  rw [hworker] at hsettled hcounted
  obtain ⟨hqueue, hdropped, -, hgaveUp⟩ := hsettled
  apply hgaveUp
  simp only [hqueue, hdropped, Worker.lines, Worker.dropped, List.length_nil, Nat.add_zero]
    at hcounted
  omega

/-- Two lines are written; the next one finds no file, and its loss is still on record when the
worker ends. -/
theorem conservation_refused :
    ∃ l, ({} : Logger).runAll [.write (text "a"), .write (text "b"), .take, .look 1 .sound,
        .put true, .put true, .flush true, .write (text "c"), .take, .look 2 .refused, .carry,
        .stop, .take] = some l ∧
      l.written = [text "a", text "b"] ∧ l.worker = .exited 1 ∧ l.GaveUp := by
  have hreach := reaches_of_runAll [.write (text "a"), .write (text "b"), .take, .look 1 .sound,
    .put true, .put true, .flush true, .write (text "c"), .take, .look 2 .refused, .carry, .stop,
    .take] (@Reaches.start fun _ x => x.Succeeds) (by simp [Step.Succeeds]) rfl
  exact ⟨_, rfl, rfl, rfl, (conservation hreach).2.2.2 1 rfl (by decide)⟩

end Logger
end FastdlMm.AsyncLogger
