import FastdlMm.Framework.SlidingWindow
import FastdlMm.Limits.RateLimiter

namespace FastdlMm.RateLimiter

/-- What the table says about an address; an absent one reads as a fresh client. -/
def view (s : State) (ip : Ip) : Client := (s.clients.lookup ip).getD {}

/-- A client kept as it was, or dropped because it was stale. -/
def Evicts (now : Int) (c c' : Client) : Prop := c' = c ∨ (c' = {} ∧ stale now c = true)

theorem Evicts.trans {now : Int} {a b c : Client} (h : Evicts now a b)
    (k : Evicts now b c) : Evicts now a c := by
  rcases h with rfl | ⟨rfl, ha⟩
  · exact k
  · rcases k with rfl | ⟨rfl, _⟩ <;> exact .inr ⟨rfl, ha⟩

theorem cleanup_lookup (s : State) (now : Int) (force : Bool) (ip : Ip) :
    (cleanup s now force).clients.lookup ip = s.clients.lookup ip ∨
    ((cleanup s now force).clients.lookup ip = none ∧
      ∃ c, s.clients.lookup ip = some c ∧ stale now c = true) := by
  unfold cleanup
  split
  · exact .inl rfl
  · simp only [Table.lookup_keep]
    cases hl : s.clients.lookup ip with
    | none => exact .inl rfl
    | some c =>
      cases hc : stale now c with
      | false => exact .inl (by simp [Option.filter, hc])
      | true => exact .inr ⟨by simp [Option.filter, hc], c, rfl, hc⟩

theorem view_cleanup (s : State) (now : Int) (force : Bool) (ip : Ip) :
    Evicts now (view s ip) (view (cleanup s now force) ip) := by
  rcases cleanup_lookup s now force ip with h | ⟨h, c, hc, hst⟩
  · exact .inl (by rw [view, h, view])
  · exact .inr ⟨by rw [view, h]; rfl, by simpa [view, hc] using hst⟩

theorem view_makeRoom (s : State) (now : Int) (ip : Ip) :
    Evicts now (view s ip) (view (makeRoom s now) ip) := by
  unfold makeRoom
  split
  · exact view_cleanup s now true ip
  · exact .inl rfl

theorem view_insert (s : State) (ip ip' : Ip) (c : Client) (n : Nat) :
    view { s with clients := s.clients.insert ip c, eventCount := n } ip' =
      if ip' = ip then c else view s ip' := by
  split_ifs with h
  · subst h; simp [view]
  · simp [view, AList.lookup_insert_ne h]

theorem view_findOrCreate (s : State) (ip ip' : Ip) (now : Int) :
    Evicts now (view s ip') (view (findOrCreate s ip now).1 ip') := by
  unfold findOrCreate
  split
  · exact .inl rfl
  · rename_i hl
    simp only
    split
    · exact view_makeRoom s now ip'
    · have hm := view_makeRoom s now ip'
      have hfresh : view (makeRoom s now) ip = {} := by
        rcases view_makeRoom s now ip with h | h
        · rw [h, view, hl]; rfl
        · exact h.1
      rw [view_insert]
      split_ifs with h
      · subst h; rw [← hfresh]; exact hm
      · exact hm

theorem findOrCreate_client {s : State} {ip : Ip} {now : Int} {c : Client}
    (h : (findOrCreate s ip now).2 = some c) : view (findOrCreate s ip now).1 ip = c := by
  unfold findOrCreate at h ⊢
  split at h
  · rename_i hl
    cases h
    simp [view, hl]
  · simp only at h ⊢
    split at h
    · cases h
    · rename_i hroom
      cases h
      simp [view, hroom]

/-- The table as a counting call finds it, and the entry of `ip` in it if one could be had. -/
def arrive (s : State) (ip : Ip) (now : Int) : State × Option Client :=
  findOrCreate (cleanup s now) ip now

theorem view_arrive (s : State) (ip ip' : Ip) (now : Int) :
    Evicts now (view s ip') (view (arrive s ip now).1 ip') :=
  (view_cleanup s now false ip').trans (view_findOrCreate _ ip ip' now)

theorem arrive_isSome (s : State) (ip : Ip) (now : Int) :
    (arrive s ip now).2.isSome ↔ ip ∈ (cleanup s now).clients ∨
      Table.size (cleanup (cleanup s now) now true).clients < kMaximumClients := by
  have hsize : Table.size (cleanup (cleanup s now) now true).clients ≤
      Table.size (cleanup s now).clients := Table.size_keep_le _ _
  rw [← AList.lookup_isSome]
  unfold arrive findOrCreate makeRoom
  cases hl : (cleanup s now).clients.lookup ip with
  | some c => simp
  | none =>
    simp only [Option.isSome_none, Bool.false_eq_true, false_or]
    split_ifs with hfull hstill <;> simp <;> omega

theorem trim_fst (queue : List Int) (cutoff : Int) :
    (trim queue cutoff).1 = queue.dropWhile (fun v => decide (v ≤ cutoff)) := by
  induction queue with
  | nil => rfl
  | cons v vs ih => by_cases h : v ≤ cutoff <;> simp [trim, h, ih]

theorem requestExceeded_eq_false_iff (s : State) (ip : Ip) (limit : Nat) (now : Int)
    (hl : 1 ≤ limit) :
    (requestExceeded s ip limit now).2 = false ↔
      ∃ c, (arrive s ip now).2 = some c ∧
        wrapSub sizeBits (arrive s ip now).1.eventCount (trim c.requests (now - minutes 1)).2 <
          kMaximumEvents ∧
        (trim c.requests (now - minutes 1)).1.length < limit := by
  have hl0 : limit ≠ 0 := by omega
  unfold requestExceeded
  simp only [hl0, if_false]
  rw [← arrive]
  rcases arrive s ip now with ⟨t, _ | c⟩
  · simp
  · simp only [Option.some.injEq, exists_eq_left']
    split_ifs with h
    · simp only [false_iff, not_and, not_lt]
      omega
    · simp only [true_iff]
      omega

/-- What a call leaves in the view of an address that it does not name. -/
theorem view_requestExceeded_ne (s : State) {ip ip' : Ip} (limit : Nat) (now : Int)
    (h : ip' ≠ ip) : Evicts now (view s ip') (view (requestExceeded s ip limit now).1 ip') := by
  have ha := view_arrive s ip ip' now
  unfold requestExceeded
  simp only
  split
  · exact view_cleanup s now false ip'
  · rw [← arrive]
    generalize arrive s ip now = r at ha
    rcases r with ⟨t, _ | c⟩
    · exact ha
    · simp only
      split_ifs
      · rw [view_insert, if_neg h]; exact ha
      · rw [view_insert, if_neg h]; exact ha

theorem view_requestExceeded (s : State) (ip : Ip) (limit : Nat) (now : Int) :
    ∃ c, Evicts now (view s ip) c ∧
      ((requestExceeded s ip limit now).2 = false ∧ view (requestExceeded s ip limit now).1 ip =
          { c with lastSeen := now, requests := (trim c.requests (now - minutes 1)).1 ++ [now] } ∨
        (requestExceeded s ip limit now).2 = true ∧
          (view (requestExceeded s ip limit now).1 ip = c ∨
            view (requestExceeded s ip limit now).1 ip =
              { c with lastSeen := now, requests := (trim c.requests (now - minutes 1)).1 })) := by
  have ha := view_arrive s ip ip now
  unfold requestExceeded
  simp only
  split
  · exact ⟨_, view_cleanup s now false ip, .inr ⟨rfl, .inl rfl⟩⟩
  · have hc := fun c => @findOrCreate_client (cleanup s now) ip now c
    rw [← arrive] at hc ⊢
    generalize arrive s ip now = r at ha hc
    rcases r with ⟨t, _ | c⟩
    · exact ⟨_, ha, .inr ⟨rfl, .inl rfl⟩⟩
    · have hv : view t ip = c := hc c rfl
      refine ⟨c, hv ▸ ha, ?_⟩
      simp only
      split_ifs
      · exact .inr ⟨rfl, .inr (by rw [view_insert, if_pos rfl])⟩
      · exact .inl ⟨rfl, by rw [view_insert, if_pos rfl]⟩

theorem view_recordDenial_ne (s : State) {ip ip' : Ip} (limit blockSeconds : Nat)
    (now : Int) (h : ip' ≠ ip) :
    Evicts now (view s ip') (view (recordDenial s ip limit blockSeconds now).1 ip') := by
  have ha := view_arrive s ip ip' now
  unfold recordDenial
  simp only
  rw [← arrive]
  generalize arrive s ip now = r at ha
  rcases r with ⟨t, _ | c⟩
  · exact ha
  · simp only
    split_ifs
    all_goals rw [view_insert, if_neg h]; exact ha

theorem view_recordDenial (s : State) (ip : Ip) (limit blockSeconds : Nat) (now : Int) :
    ∃ c, Evicts now (view s ip) c ∧
      match (recordDenial s ip limit blockSeconds now).2 with
      | .untracked => view (recordDenial s ip limit blockSeconds now).1 ip = c
      | .recorded => view (recordDenial s ip limit blockSeconds now).1 ip =
          { c with lastSeen := now, denials := (trim c.denials (now - minutes 1)).1 ++ [now] }
      | .triggered => view (recordDenial s ip limit blockSeconds now).1 ip =
          { c with lastSeen := now, denials := [], blockedUntil := now + seconds blockSeconds } := by
  have ha := view_arrive s ip ip now
  have hc := fun c => @findOrCreate_client (cleanup s now) ip now c
  unfold recordDenial
  simp only
  rw [← arrive] at hc ⊢
  generalize arrive s ip now = r at ha hc
  rcases r with ⟨t, _ | c⟩
  · exact ⟨_, ha, rfl⟩
  · have hv : view t ip = c := hc c rfl
    refine ⟨c, hv ▸ ha, ?_⟩
    simp only
    split_ifs <;> simp only <;> rw [view_insert, if_pos rfl]

theorem recordDenial_triggered_iff (s : State) (ip : Ip) (limit blockSeconds : Nat)
    (now : Int) :
    (recordDenial s ip limit blockSeconds now).2 = .triggered ↔
      ∃ c, (arrive s ip now).2 = some c ∧
        (kMaximumEvents ≤
            wrapSub sizeBits (arrive s ip now).1.eventCount (trim c.denials (now - minutes 1)).2 ∨
          limit ≤ (trim c.denials (now - minutes 1)).1.length + 1) := by
  unfold recordDenial
  simp only
  rw [← arrive]
  rcases arrive s ip now with ⟨t, _ | c⟩
  · simp
  · simp only [Option.some.injEq, exists_eq_left', List.length_append, List.length_singleton]
    split_ifs with hfull hlimit <;> simp only [false_iff, true_iff] <;> omega

theorem view_unblock (s : State) (ip ip' : Ip) :
    view (unblock s ip).1 ip' = if ip' = ip then {} else view s ip' := by
  unfold unblock
  split_ifs with h
  · subst h
    split
    · rename_i hl
      simp [view, hl]
    · simp [view]
  · split
    · rfl
    · simp [view, AList.lookup_erase_ne h]

end FastdlMm.RateLimiter
