import FastdlMm.Limits.RateBlocks

namespace FastdlMm.RateLimiter

/-- The table has an entry of the address that was used since then. -/
def Seen (s : State) (ip : Ip) (since : Int) : Prop :=
  ∃ c, s.clients.lookup ip = some c ∧ since ≤ c.lastSeen

section Entries

variable {s : State} {ip ip' : Ip} {now since : Int} {limit blockSeconds : Nat}

theorem not_stale {c : Client} (hseen : since ≤ c.lastSeen) (hnow : now < since + minutes 15) :
    stale now c = false := by
  rw [stale, decide_eq_false (by omega), Bool.false_and]

theorem Seen.stale_view (h : Seen s ip since) (hnow : now < since + minutes 15) :
    stale now (view s ip) = false := by
  obtain ⟨c, hc, hseen⟩ := h
  rw [view, hc]
  exact not_stale hseen hnow

theorem Seen.cleanup (h : Seen s ip since) (hnow : now < since + minutes 15) (force : Bool) :
    Seen (cleanup s now force) ip since := by
  obtain ⟨c, hc, hseen⟩ := h
  obtain hsame | ⟨-, c', hc', hst⟩ := cleanup_lookup s now force ip
  · exact ⟨c, hsame.trans hc, hseen⟩
  · rw [hc] at hc'
    cases hc'
    rw [not_stale hseen hnow] at hst
    cases hst

theorem Seen.insert (h : Seen s ip since) {c : Client} {n : Nat}
    (hc : ip' = ip → since ≤ c.lastSeen) :
    Seen { s with clients := s.clients.insert ip' c, eventCount := n } ip since := by
  obtain rfl | hne := eq_or_ne ip' ip
  · exact ⟨c, AList.lookup_insert _, hc rfl⟩
  · obtain ⟨e, he, hseen⟩ := h
    exact ⟨e, (AList.lookup_insert_ne hne.symm).trans he, hseen⟩

theorem Seen.arrive (h : Seen s ip since) (hnow : now < since + minutes 15) (ip' : Ip) :
    Seen (arrive s ip' now).1 ip since := by
  have hclean := h.cleanup hnow false
  rw [RateLimiter.arrive, findOrCreate]
  cases hl : (RateLimiter.cleanup s now).clients.lookup ip' with
  | some c => exact hclean
  | none =>
    have hroom : Seen (makeRoom (RateLimiter.cleanup s now) now) ip since := by
      rw [makeRoom]
      split_ifs
      · exact hclean.cleanup hnow true
      · exact hclean
    dsimp only
    split_ifs
    · exact hroom
    · refine hroom.insert fun heq => ?_
      obtain ⟨c, hc, -⟩ := hclean
      rw [← heq, hl] at hc
      cases hc

theorem Seen.found (h : Seen s ip since) (hnow : now < since + minutes 15) :
    (RateLimiter.arrive s ip now).2.isSome := by
  obtain ⟨c, hc, -⟩ := h.cleanup hnow false
  rw [RateLimiter.arrive, findOrCreate, hc]
  rfl

theorem Seen.requestExceeded (h : Seen s ip since) (hnow : now < since + minutes 15)
    (hpast : since ≤ now) (ip' : Ip) (limit : Nat) :
    Seen (requestExceeded s ip' limit now).1 ip since := by
  have harrive := h.arrive hnow ip'
  unfold RateLimiter.requestExceeded
  simp only
  split_ifs
  · exact h.cleanup hnow false
  · rw [← RateLimiter.arrive]
    generalize RateLimiter.arrive s ip' now = r at harrive
    obtain ⟨t, _ | c⟩ := r
    · exact harrive
    · simp only
      split_ifs
      · exact harrive.insert fun _ => hpast
      · exact harrive.insert fun _ => hpast

theorem Seen.recordDenial (h : Seen s ip since) (hnow : now < since + minutes 15)
    (hpast : since ≤ now) (ip' : Ip) (limit blockSeconds : Nat) :
    Seen (recordDenial s ip' limit blockSeconds now).1 ip since := by
  have harrive := h.arrive hnow ip'
  unfold RateLimiter.recordDenial
  simp only
  rw [← RateLimiter.arrive]
  generalize RateLimiter.arrive s ip' now = r at harrive
  obtain ⟨t, _ | c⟩ := r
  · exact harrive
  · simp only
    split_ifs
    all_goals exact harrive.insert fun _ => hpast

theorem Seen.unblock (h : Seen s ip since) (hne : ip' ≠ ip) :
    Seen (unblock s ip').1 ip since := by
  unfold RateLimiter.unblock
  cases hl : s.clients.lookup ip' with
  | none => exact h
  | some c =>
    obtain ⟨e, he, hseen⟩ := h
    exact ⟨e, (AList.lookup_erase_ne hne.symm).trans he, hseen⟩

/-- A request that is let through leaves an entry behind. -/
theorem seen_of_admitted (h : (requestExceeded s ip limit now).2 = false) :
    Seen (requestExceeded s ip limit now).1 ip now := by
  unfold requestExceeded at h ⊢
  simp only at h ⊢
  split_ifs at h ⊢
  rw [← arrive] at h ⊢
  generalize arrive s ip now = r at h
  obtain ⟨t, _ | c⟩ := r
  · cases h
  · simp only at h ⊢
    split_ifs at h ⊢
    exact ⟨_, AList.lookup_insert _, le_rfl⟩

theorem recordDenial_tracked (h : (arrive s ip now).2.isSome) :
    (recordDenial s ip limit blockSeconds now).2 ≠ .untracked := by
  unfold recordDenial
  simp only
  rw [← arrive]
  generalize arrive s ip now = r at h
  obtain ⟨t, _ | c⟩ := r
  · cases h
  · simp only
    split_ifs <;> simp

/-- A denial that triggers no block leaves fewer denials than the limit. -/
theorem denials_lt (h : (recordDenial s ip limit blockSeconds now).2 = .recorded) :
    (view (recordDenial s ip limit blockSeconds now).1 ip).denials.length < limit := by
  unfold recordDenial at h ⊢
  simp only at h ⊢
  rw [← arrive] at h ⊢
  generalize arrive s ip now = r at h
  obtain ⟨t, _ | c⟩ := r
  · cases h
  · simp only at h ⊢
    split_ifs at h ⊢ with hfull hlimit
    rw [view_insert, if_pos rfl]
    exact Nat.lt_of_not_le fun hle => hlimit (.inr hle)

/-- A request leaves the denials and the block of every address as they are. -/
theorem requestExceeded_denials (s : State) (ip ip' : Ip) (limit : Nat) (now : Int) :
    ∃ c, Evicts now (view s ip) c ∧
      (view (requestExceeded s ip' limit now).1 ip).denials = c.denials ∧
      (view (requestExceeded s ip' limit now).1 ip).blockedUntil = c.blockedUntil := by
  obtain rfl | hne := eq_or_ne ip ip'
  · obtain ⟨c, he, ⟨-, hview⟩ | ⟨-, hview | hview⟩⟩ := view_requestExceeded s ip limit now
    all_goals exact ⟨c, he, by rw [hview], by rw [hview]⟩
  · exact ⟨_, view_requestExceeded_ne s limit now hne, rfl, rfl⟩

theorem countP_trim (queue : List Int) {cutoff : Int} (h : cutoff < since) :
    (trim queue cutoff).1.countP (fun v => decide (since ≤ v)) =
      queue.countP fun v => decide (since ≤ v) := by
  have hsplit : (queue.takeWhile fun v => decide (v ≤ cutoff)) ++
      (queue.dropWhile fun v => decide (v ≤ cutoff)) = queue := List.takeWhile_append_dropWhile
  have hold : (queue.takeWhile fun v => decide (v ≤ cutoff)).countP
      (fun v => decide (since ≤ v)) = 0 := by
    refine List.countP_eq_zero.mpr fun v hv => ?_
    have hle : v ≤ cutoff := by simpa using List.mem_takeWhile_imp hv
    simp only [decide_eq_true_eq]
    omega
  have hcount := congrArg (List.countP fun v => decide (since ≤ v)) hsplit
  rw [List.countP_append, hold, Nat.zero_add] at hcount
  rw [trim_fst, hcount]

end Entries
end FastdlMm.RateLimiter
