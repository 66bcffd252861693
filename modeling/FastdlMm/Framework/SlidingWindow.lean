import Mathlib.Order.Lattice
import Mathlib.Data.List.Basic
import Mathlib.Tactic.Common

namespace FastdlMm

variable {τ : Type*} [LinearOrder τ]

/-- The entries of a log that are younger than a cutoff. -/
def after (cutoff : τ) (log : List τ) : List τ := log.filter (cutoff < ·)

@[simp] theorem after_nil (c : τ) : after c ([] : List τ) = [] := rfl

theorem after_append (c : τ) (xs ys : List τ) : after c (xs ++ ys) = after c xs ++ after c ys :=
  List.filter_append ..

theorem after_after {c d : τ} (h : c ≤ d) (log : List τ) : after d (after c log) = after d log := by
  rw [after, after, List.filter_filter]
  apply List.filter_congr
  intro v _
  simpa using fun hv => h.trans_lt hv

theorem after_eq_nil {c : τ} {log : List τ} (h : ∀ v ∈ log, v ≤ c) : after c log = [] := by
  simpa [after, List.filter_eq_nil_iff] using h

/-- On a sorted queue, popping the front while it is old removes exactly the old entries. -/
theorem dropWhile_eq_after {queue : List τ} (c : τ) (hs : queue.Pairwise (· ≤ ·)) :
    queue.dropWhile (fun v => decide (v ≤ c)) = after c queue := by
  induction queue with
  | nil => rfl
  | cons v vs ih =>
    have hs' := List.pairwise_cons.mp hs
    by_cases hv : v ≤ c
    · have hn : ¬ c < v := not_lt.mpr hv
      simpa [List.dropWhile_cons, after, hv, hn] using ih hs'.2
    · have hlate : ∀ w ∈ v :: vs, decide (c < w) = true := by
        intro w hw
        have hvw : v ≤ w := by
          rcases List.mem_cons.mp hw with rfl | hw
          · exact le_refl _
          · exact hs'.1 w hw
        simpa using (lt_of_not_ge hv).trans_le hvw
      rw [after, List.filter_eq_self.mpr hlate]
      simp [hv]

/-- On any queue, popping the front while it is old removes old entries only. -/
theorem after_sublist_dropWhile (c : τ) (queue : List τ) :
    (after c queue).Sublist (queue.dropWhile fun v => decide (v ≤ c)) := by
  induction queue with
  | nil => exact List.Sublist.refl _
  | cons v vs ih =>
    by_cases hv : v ≤ c
    · have hn : ¬ c < v := not_lt.mpr hv
      simpa [List.dropWhile_cons, after, hv, hn] using ih
    · rw [List.dropWhile_cons_of_neg (by simpa using hv)]
      exact List.filter_sublist

/-- A trimmed queue stands for a full log: it is sorted, holds nothing later than `last`, and any
cutoff from `cutoff` on sees the same entries in both. -/
structure Tracks (cutoff last : τ) (log queue : List τ) : Prop where
  sorted : queue.Pairwise (· ≤ ·)
  bound : ∀ v ∈ queue, v ≤ last
  same : ∀ c, cutoff ≤ c → after c queue = after c log

namespace Tracks

variable {cutoff cutoff' last last' : τ} {log queue : List τ}

theorem nil : Tracks cutoff last [] [] := ⟨List.Pairwise.nil, by simp, fun _ _ => rfl⟩

theorem advance (h : Tracks cutoff last log queue) (hc : cutoff ≤ cutoff') (hl : last ≤ last') :
    Tracks cutoff' last' log queue :=
  ⟨h.sorted, fun v hv => (h.bound v hv).trans hl, fun c hcc => h.same c (hc.trans hcc)⟩

/-- Popping what the cutoff has passed leaves the log tracked. -/
theorem trim (h : Tracks cutoff last log queue) : Tracks cutoff last log (after cutoff queue) :=
  ⟨h.sorted.filter _, fun v hv => h.bound v (List.mem_of_mem_filter hv),
    fun c hc => (after_after hc queue).trans (h.same c hc)⟩

theorem push (h : Tracks cutoff last log queue) :
    Tracks cutoff last (log ++ [last]) (queue ++ [last]) := by
  refine ⟨?_, ?_, ?_⟩
  · exact List.pairwise_append.mpr ⟨h.sorted, List.pairwise_singleton _ _, by simpa using h.bound⟩
  · intro v hv
    rcases List.mem_append.mp hv with hv | hv
    · exact h.bound v hv
    · exact (List.mem_singleton.mp hv).le
  · intro c hc
    rw [after_append, after_append, h.same c hc]

/-- Forgetting a queue whose entries are all old loses nothing. -/
theorem forget (h : Tracks cutoff last log queue) (hold : ∀ v ∈ queue, v ≤ cutoff) :
    Tracks cutoff last log [] := by
  refine ⟨List.Pairwise.nil, by simp, fun c hc => ?_⟩
  rw [← h.same c hc, after_nil]
  exact (after_eq_nil fun v hv => (hold v hv).trans hc).symm

theorem length_after (h : Tracks cutoff last log queue) :
    (after cutoff queue).length = (after cutoff log).length := by
  rw [h.same cutoff le_rfl]

end Tracks
end FastdlMm
