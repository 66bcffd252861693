import Mathlib.Algebra.Order.BigOperators.Group.List
import Mathlib.Algebra.BigOperators.Group.List.Basic
import Mathlib.Tactic.Linarith

namespace FastdlMm

variable {α : Type*} [CommRing α] [LinearOrder α]

/-- One booking of a virtual scheduler: the time it is allowed at, what it costs, what it weighs. -/
structure Booking (α : Type*) where
  allowed : α
  cost : α
  weight : α

/-- The bookings a single timestamp admits, newest first. Each may be allowed at most `burst`
before the timestamp and pushes it on by its cost; in between the timestamp may only rise. -/
inductive Conforms (burst : α) : α → List (Booking α) → Prop
  | start (v : α) : Conforms burst v []
  | rise {v v' : α} {log : List (Booking α)} : Conforms burst v log → v ≤ v' →
      Conforms burst v' log
  | book {v : α} {log : List (Booking α)} (b : Booking α) : Conforms burst v log →
      v - burst ≤ b.allowed → 0 ≤ b.cost → Conforms burst (max v b.allowed + b.cost) (b :: log)

/-- The weight of all bookings allowed in `[s, t]`. -/
def weightWithin (s t : α) (log : List (Booking α)) : α :=
  ((log.filter (fun b => decide (s ≤ b.allowed ∧ b.allowed ≤ t))).map Booking.weight).sum

/-- The cost of all bookings allowed from `s` on. -/
def costFrom (s : α) (log : List (Booking α)) : α :=
  ((log.filter (fun b => decide (s ≤ b.allowed))).map Booking.cost).sum

theorem weightWithin_cons (s t : α) (b : Booking α) (log : List (Booking α)) :
    weightWithin s t (b :: log) =
      (if s ≤ b.allowed ∧ b.allowed ≤ t then b.weight else 0) + weightWithin s t log := by
  unfold weightWithin
  rw [List.filter_cons]
  split_ifs <;> simp_all

theorem costFrom_cons (s : α) (b : Booking α) (log : List (Booking α)) :
    costFrom s (b :: log) = (if s ≤ b.allowed then b.cost else 0) + costFrom s log := by
  unfold costFrom
  rw [List.filter_cons]
  split_ifs <;> simp_all

theorem Conforms.cost_nonneg {burst v : α} {log : List (Booking α)} (h : Conforms burst v log) :
    ∀ b ∈ log, 0 ≤ b.cost := by
  induction h with
  | start v => simp
  | rise _ _ ih => exact ih
  | book b _ _ hc ih =>
    intro b' hb'
    rcases List.mem_cons.mp hb' with rfl | hb'
    · exact hc
    · exact ih b' hb'

variable [IsStrictOrderedRing α]

/-- Whatever is booked from `s` on lies between `s` and the timestamp. -/
theorem costFrom_le {burst v : α} {log : List (Booking α)} (h : Conforms burst v log) (s : α) :
    costFrom s log = 0 ∨ s + costFrom s log ≤ v := by
  induction h with
  | start v => exact .inl rfl
  | rise _ hv ih =>
    rcases ih with ih | ih
    · exact .inl ih
    · exact .inr (ih.trans hv)
  | @book v log b _ _ hc ih =>
    rw [costFrom_cons]
    split_ifs with hs
    · right
      rcases ih with ih | ih
      · rw [ih]
        linarith [le_max_right v b.allowed]
      · linarith [le_max_left v b.allowed]
    · rcases ih with ih | ih
      · exact .inl (by rw [ih, zero_add])
      · right
        linarith [le_max_left v b.allowed]

theorem weightWithin_le_cost {rate unit : α} {log : List (Booking α)} (hr : 0 ≤ rate)
    (hcost : ∀ b ∈ log, 0 ≤ b.cost) (hfair : ∀ b ∈ log, b.weight * unit ≤ rate * b.cost)
    (s t : α) : weightWithin s t log * unit ≤ rate * costFrom s log := by
  induction log with
  | nil => simp [weightWithin, costFrom]
  | cons b log ih =>
    have ih := ih (fun b hb => hcost b (List.mem_cons_of_mem _ hb))
      (fun b hb => hfair b (List.mem_cons_of_mem _ hb))
    have hb := hfair b List.mem_cons_self
    have hpos : 0 ≤ rate * b.cost := mul_nonneg hr (hcost b List.mem_cons_self)
    rw [weightWithin_cons, costFrom_cons, add_mul, mul_add]
    split_ifs with hw hs hs
    · linarith
    · exact absurd hw.1 hs
    · linarith
    · linarith

/-- The conformance bound: in any window the bookings of a fair log weigh at most what the rate
gives in the window and the burst, and one largest booking. -/
theorem Conforms.bound {burst v rate unit largest : α} {log : List (Booking α)}
    (h : Conforms burst v log) (hb : 0 ≤ burst) (hr : 0 ≤ rate) (hu : 0 ≤ unit) (hl : 0 ≤ largest)
    (hfair : ∀ b ∈ log, b.weight * unit ≤ rate * b.cost) (hsize : ∀ b ∈ log, b.weight ≤ largest)
    {s t : α} (hst : s ≤ t) :
    weightWithin s t log * unit ≤ rate * (t - s + burst) + largest * unit := by
  have hroom : 0 ≤ rate * (t - s + burst) := mul_nonneg hr (by linarith)
  have hone : 0 ≤ largest * unit := mul_nonneg hl hu
  induction h with
  | start v =>
    simp only [weightWithin, List.filter_nil, List.map_nil, List.sum_nil, zero_mul]
    linarith
  | rise _ _ ih => exact ih hfair hsize
  | @book v log b hlog hearly _ ih =>
    have hfair' : ∀ b ∈ log, b.weight * unit ≤ rate * b.cost :=
      fun b hb => hfair b (List.mem_cons_of_mem _ hb)
    rw [weightWithin_cons]
    split_ifs with hw
    · have hlast : b.weight * unit ≤ largest * unit :=
        mul_le_mul_of_nonneg_right (hsize b List.mem_cons_self) hu
      have hrest := weightWithin_le_cost hr hlog.cost_nonneg hfair' s t
      have hspent : rate * costFrom s log ≤ rate * (t - s + burst) := by
        rcases costFrom_le hlog s with h0 | h0
        · rw [h0, mul_zero]
          exact hroom
        · exact mul_le_mul_of_nonneg_left (by linarith [hw.2]) hr
      rw [add_mul]
      linarith
    · rw [zero_add]
      exact ih hfair' fun b hb => hsize b (List.mem_cons_of_mem _ hb)

end FastdlMm
