import FastdlMm.Framework.Conformance
import Mathlib.Order.Bounds.Defs

namespace FastdlMm

variable {α : Type*} [CommRing α]

def totalCost (log : List (Booking α)) : α := (log.map Booking.cost).sum

@[simp] theorem totalCost_nil : totalCost ([] : List (Booking α)) = 0 := rfl

@[simp] theorem totalCost_cons (b : Booking α) (log : List (Booking α)) :
    totalCost (b :: log) = b.cost + totalCost log := List.sum_cons

variable [LinearOrder α]

/-- The timestamp of a virtual scheduler after some bookings, newest first. -/
def timestamp (start : α) : List (Booking α) → α
  | [] => start
  | b :: log => max (timestamp start log) b.allowed + b.cost

/-- At this time the bookings so far are within the burst: from the start on, and from any one of
them on. -/
structure WithinBurst (burst start time : α) (log : List (Booking α)) : Prop where
  all : totalCost log ≤ burst + (time - start)
  since : ∀ recent b earlier, log = recent ++ b :: earlier →
    totalCost (recent ++ [b]) ≤ burst + (time - b.allowed)

variable [IsStrictOrderedRing α]

/-- The bookings with one more fit once the earlier ones do without its cost, and it does itself. -/
theorem withinBurst_cons {burst start time : α} {b : Booking α} {log : List (Booking α)} :
    WithinBurst burst start time (b :: log) ↔
      WithinBurst burst start (time - b.cost) log ∧ b.cost ≤ burst + (time - b.allowed) := by
  constructor
  · intro h
    refine ⟨⟨?_, fun recent b' earlier hlog => ?_⟩, ?_⟩
    · have := h.all
      rw [totalCost_cons] at this
      linarith
    · have := h.since (b :: recent) b' earlier (by rw [hlog, List.cons_append])
      rw [List.cons_append, totalCost_cons] at this
      linarith
    · simpa using h.since [] b log rfl
  · intro h
    obtain ⟨hrest, hone⟩ := h
    refine ⟨?_, fun recent b' earlier hlog => ?_⟩
    · have := hrest.all
      rw [totalCost_cons]
      linarith
    · cases recent with
      | nil =>
        obtain ⟨rfl, rfl⟩ := List.cons.inj hlog
        simpa using hone
      | cons first recent =>
        rw [List.cons_append] at hlog
        obtain ⟨rfl, htail⟩ := List.cons.inj hlog
        have := hrest.since recent b' earlier htail
        rw [List.cons_append, totalCost_cons]
        linarith

/-- The timestamp leads a time by no more than the burst exactly when the bookings fit then. -/
theorem timestamp_le_iff {burst start : α} {log : List (Booking α)} (time : α) :
    timestamp start log ≤ time + burst ↔ WithinBurst burst start time log := by
  induction log generalizing time with
  | nil =>
    rw [timestamp]
    constructor
    · intro h
      refine ⟨by rw [totalCost_nil]; linarith, fun recent b earlier hlog => ?_⟩
      exact absurd hlog.symm (List.append_ne_nil_of_right_ne_nil _ (List.cons_ne_nil _ _))
    · intro h
      have := h.all
      rw [totalCost_nil] at this
      linarith
  | cons b log ih =>
    have hsplit : timestamp start (b :: log) ≤ time + burst ↔
        timestamp start log ≤ (time - b.cost) + burst ∧ b.cost ≤ burst + (time - b.allowed) := by
      rw [timestamp, ← le_sub_iff_add_le, max_le_iff]
      refine and_congr ⟨fun h => ?_, fun h => ?_⟩ ⟨fun h => ?_, fun h => ?_⟩
      · linarith
      · linarith
      · linarith
      · linarith
    rw [hsplit, ih (time - b.cost), withinBurst_cons]

/-- The scheduler lets a booking wait for as long as it has to, and no longer. -/
theorem isLeast_max_timestamp (burst start now : α) (log : List (Booking α)) :
    IsLeast {time | now ≤ time ∧ WithinBurst burst start time log}
      (max now (timestamp start log - burst)) := by
  refine ⟨⟨le_max_left _ _, ?_⟩, fun time h => ?_⟩
  · rw [← timestamp_le_iff]
    linarith [le_max_right now (timestamp start log - burst)]
  · obtain ⟨hnow, hwithin⟩ := h
    have hstamp := (timestamp_le_iff time).mpr hwithin
    exact max_le hnow (by linarith)

end FastdlMm
