import FastdlMm.Limits.RateWindow

namespace FastdlMm.RateLimiter

variable {s : State} {h : List Record} {t : Int}

/-- Every `recordDenial` of a history used the denial limit `limit` and block length `block`. -/
def FixedDenials (limit block : Nat) (h : List Record) : Prop :=
  ∀ r ∈ h, ∀ ip l b, r.call = .recordDenial ip l b → l = limit ∧ b = block

/-- From `now` on, a `blockedUntil` and a list of trigger times block at the same moments. -/
def BlocksAlike (now : Int) (block : Nat) (blockedUntil : Int) (triggered : List Int) : Prop :=
  ∀ u, now ≤ u → (u < blockedUntil ↔ ∃ v ∈ triggered, u < v + seconds block)

namespace BlocksAlike

variable {now now' b : Int} {block : Nat} {triggered : List Int} {c c' : Client}

theorem fresh (hn : 0 ≤ now) : BlocksAlike now block (({} : Client).blockedUntil) [] := by
  intro u hu
  have hzero : ({} : Client).blockedUntil = 0 := rfl
  rw [hzero]
  simp only [List.not_mem_nil, false_and, exists_false, iff_false]
  omega

theorem advance (h : BlocksAlike now block b triggered) (hn : now ≤ now') :
    BlocksAlike now' block b triggered :=
  fun u hu => h u (hn.trans hu)

/-- Only clients whose block is over are stale, so an eviction ends no block. -/
theorem evict (h : BlocksAlike now block c.blockedUntil triggered) (hn : 0 ≤ now)
    (he : Evicts now c c') : BlocksAlike now block c'.blockedUntil triggered := by
  rcases he with rfl | ⟨rfl, hst⟩
  · exact h
  · intro u hu
    have hover : c.blockedUntil ≤ now := by
      simp only [stale, Bool.and_eq_true, decide_eq_true_eq] at hst
      exact hst.2
    have hzero : ({} : Client).blockedUntil = 0 := rfl
    rw [← h u hu, hzero]
    constructor <;> intro hlt <;> omega

theorem trigger (h : ∀ v ∈ triggered, v ≤ now) :
    BlocksAlike now block (now + seconds block) (triggered ++ [now]) := by
  intro u _
  constructor
  · intro hu
    exact ⟨now, by simp, hu⟩
  · intro hlast
    obtain ⟨v, hv, hu⟩ := hlast
    rcases List.mem_append.mp hv with hv | hv
    · have := h v hv
      omega
    · rw [List.mem_singleton.mp hv] at hu
      exact hu

end BlocksAlike

/-- Under a steady clock every entry blocks exactly while one of its triggers says so. -/
theorem run_blocksAlike {limit block : Nat} (hr : Run s h t) (hf : FixedDenials limit block h)
    (ip : Ip) : BlocksAlike t block (view s ip).blockedUntil (triggeredSince ip h) := by
  induction hr with
  | start => exact BlocksAlike.fresh le_rfl
  | @call s h t now c hr ht ih =>
    have hn : 0 ≤ now := (run_nonneg hr).trans ht
    have hold := (ih fun r hm => hf r (List.mem_cons_of_mem _ hm)).advance ht
    have hpast : ∀ v ∈ triggeredSince ip h, v ≤ now :=
      fun v hv => (timesSince_past hr _ _ v hv).trans ht
    simp only [triggeredSince, timesSince_cons] at hold hpast ⊢
    cases c with
    | blocked ip' => simpa [perform, blocked] using hold.evict hn (view_cleanup s now false ip)
    | requestExceeded ip' limit =>
      by_cases hip : ip' = ip
      · subst hip
        obtain ⟨c, he, hc⟩ := view_requestExceeded s ip' limit now
        have hev := hold.evict hn he
        rcases hc with ⟨_, hv⟩ | ⟨_, hv | hv⟩ <;> simpa [perform, hv] using hev
      · simpa [perform] using hold.evict hn (view_requestExceeded_ne s limit now (Ne.symm hip))
    | recordDenial ip' limit' block' =>
      obtain ⟨rfl, rfl⟩ := hf _ List.mem_cons_self ip' limit' block' rfl
      by_cases hip : ip' = ip
      · subst hip
        obtain ⟨c, he, hc⟩ := view_recordDenial s ip' limit' block' now
        have hev := hold.evict hn he
        cases hd : (recordDenial s ip' limit' block' now).2 <;> rw [hd] at hc
        · simpa [perform, hd, hc] using hev
        · simpa [perform, hd, hc] using hev
        · simpa [perform, hd, hc] using BlocksAlike.trigger hpast
      · have he := view_recordDenial_ne s limit' block' now (Ne.symm hip)
        cases hd : (recordDenial s ip' limit' block' now).2 <;>
          simpa [perform, hd, hip] using hold.evict hn he
    | unblock ip' =>
      by_cases hip : ip' = ip
      · subst hip
        simpa [perform, view_unblock] using BlocksAlike.fresh hn
      · simpa [perform, view_unblock, hip, Ne.symm hip] using hold
    | clear => exact BlocksAlike.fresh hn

theorem blocked_iff_view (s : State) (ip : Ip) (now : Int) (hn : 0 ≤ now) :
    (blocked s ip now).2 = true ↔ now < (view (cleanup s now) ip).blockedUntil := by
  have hzero : ({} : Client).blockedUntil = 0 := rfl
  simp only [blocked, view]
  split
  · rename_i hl
    rw [hl, Option.getD_some, decide_eq_true_eq]
  · rename_i hl
    rw [hl, Option.getD_none, hzero]
    simpa using hn

/-- A block lasts exactly `block` seconds from each trigger, and a trigger is exactly a denial
that meets a full event table or the limit of its window. -/
theorem blocked_iff {limit block : Nat} (hr : Run s h t) (hf : FixedDenials limit block h)
    (ip : Ip) (now : Int) (ht : t ≤ now) :
    ((blocked s ip now).2 = true ↔
      ∃ v ∈ triggeredSince ip h, v ≤ now ∧ now < v + seconds block) ∧
    (Trackable s ip now →
      ((recordDenial s ip limit block now).2 = .triggered ↔
        kMaximumEvents ≤ eventsAfterDenialTrim s ip now ∨
          limit ≤ (lastMinute now (deniedSince ip h)).length + 1)) := by
  have hn : 0 ≤ now := (run_nonneg hr).trans ht
  constructor
  · have hb := ((run_blocksAlike hr hf ip).advance ht).evict hn (view_cleanup s now false ip)
    rw [blocked_iff_view s ip now hn, hb now le_rfl]
    constructor
    · intro hblock
      obtain ⟨v, hv, hlt⟩ := hblock
      exact ⟨v, hv, (timesSince_past hr _ _ v hv).trans ht, hlt⟩
    · intro hblock
      obtain ⟨v, hv, _, hlt⟩ := hblock
      exact ⟨v, hv, hlt⟩
  · intro hroom
    rw [Trackable, ← arrive_isSome] at hroom
    obtain ⟨c, hc⟩ := Option.isSome_iff_exists.mp hroom
    have hlen := trimmed_denials_length hr ip now ht
    rw [recordDenial_triggered_iff, eventsAfterDenialTrim, ← hlen, arrive_client hc]
    constructor
    · intro hclient
      obtain ⟨c', hc', htrig⟩ := hclient
      rw [hc, Option.some.injEq] at hc'
      exact hc' ▸ htrig
    · intro htrig
      exact ⟨c, hc, htrig⟩

/-- A denial at a limit of one blocks, and the block of three seconds is still on two later. -/
theorem blocked_iff_single :
    (blocked (perform {} 5 (.recordDenial ['a'] 1 3)).1 ['a'] 2000000005).2 = true := by
  have hrun := Run.call 5 (.recordDenial ['a'] 1 3) Run.start (by decide)
  have hfix : FixedDenials 1 3 [⟨5, .recordDenial ['a'] 1 3, .denial .triggered⟩] := by
    intro r hm ip l b hc
    rw [List.mem_singleton.mp hm] at hc
    cases hc
    exact ⟨rfl, rfl⟩
  exact (blocked_iff hrun hfix ['a'] 2000000005 (by decide)).1.mpr ⟨5, by decide, by decide, by decide⟩

end FastdlMm.RateLimiter
