import FastdlMm.Limits.Leases

namespace FastdlMm.BandwidthLimiter.Ledger

/-- The table has a place left for one more address. -/
def Roomy (s : Ledger) (_ : LeaseStep) : Prop :=
  Table.size s.limiter.clients < kMaximumTrackedClients

/-- No address attaches while the client it was last given is gone but not yet paid off. -/
def Drained (s : Ledger) : LeaseStep → Prop
  | .attach ip now => ∀ id ∈ s.latest ip,
      s.limiter.alive id ∨ (s.limiter.heap id).theoreticalArrival ≤ now
  | _ => True

/-- The clock and the arrival times stay below the last representable time. -/
def Unsaturated (s : Ledger) : LeaseStep → Prop
  | .attach _ now => now < int64Max
  | .acquire lease desired now => 0 ≤ now ∧
      ∀ e ∈ s.limiter.leases.lookup lease, ∀ id ∈ e.2,
        max (s.limiter.heap id).theoreticalArrival now +
          durationFor (min desired s.limiter.quantum) (s.limiter.heap id).bytesPerSecond < int64Max
  | .release _ => True

/-- The burst of a client's bucket. -/
def burstOf (rate quantum : Nat) : Int := (configureBucket rate quantum 0).burstNanoseconds

/-- The bucket of an address: its parameters, and its grants under its arrival time. -/
structure Banked (rate quantum : Nat) (b : Bucket) (log : List Grant) : Prop where
  ofRate : b.bytesPerSecond = rate
  ofBurst : b.burstNanoseconds = burstOf rate quantum
  live : b.theoreticalArrival < int64Max
  booked : Conforms (burstOf rate quantum) b.theoreticalArrival (log.map (Grant.booking rate))

/-- What every step keeps: each address has at most one client that counts, the one it was last
given, and all its reservations so far are booked on that client's bucket. -/
structure Kept (rate quantum : Nat) (s : Ledger) : Prop where
  ofRate : s.limiter.perIpRate = rate
  ofQuantum : s.limiter.quantum = quantum
  overflow : s.limiter.overflowClient = none
  placed : ∀ ip id, s.latest ip = some id → id < s.limiter.nextClient
  distinct : ∀ ip ip' id, s.latest ip = some id → s.latest ip' = some id → ip = ip'
  listed : ∀ ip id, s.limiter.clients.lookup ip = some id → s.latest ip = some id
  leased : ∀ lease ip id, s.limiter.leases.lookup lease = some (ip, some id) →
    s.limiter.clients.lookup ip = some id
  banked : ∀ ip id, s.latest ip = some id →
    Banked rate quantum (s.limiter.heap id) (s.granted ip)
  unused : ∀ ip, s.latest ip = none → s.granted ip = []
  size : ∀ ip, ∀ g ∈ s.granted ip, g.bytes ≤ quantum

theorem configured_kept (globalRate rate : Nat) (now : Int) :
    Kept rate (quantumFor globalRate rate) (configured globalRate rate now) where
  ofRate := rfl
  ofQuantum := rfl
  overflow := rfl
  placed := by simp [configured]
  distinct := by simp [configured]
  listed := by simp [configured]
  leased := by simp [configured]
  banked := by simp [configured]
  unused := fun _ _ => rfl
  size := by simp [configured]

theorem Banked.fresh {rate quantum : Nat} {now : Int} {log : List Grant} (hnow : now < int64Max)
    (hlog : log = [] ∨ ∃ b, Banked rate quantum b log ∧ b.theoreticalArrival ≤ now) :
    Banked rate quantum (configureBucket rate quantum now) log := by
  refine ⟨rfl, rfl, hnow, ?_⟩
  rcases hlog with rfl | ⟨b, hb, hle⟩
  · exact Conforms.start _
  · exact hb.booked.rise hle

theorem reserveRound_live {b : Bucket} {bytes : Nat} {now : Int} (h0 : 0 ≤ now)
    (hb : 0 ≤ b.burstNanoseconds)
    (h : max b.theoreticalArrival now + durationFor bytes b.bytesPerSecond < int64Max) :
    (reserveRound b bytes now b.theoreticalArrival).2 < int64Max := by
  have hd := durationFor_nonneg bytes b.bytesPerSecond
  simp only [reserveRound]
  generalize durationFor bytes b.bytesPerSecond = d at *
  split_ifs <;> omega

theorem burstOf_nonneg (rate quantum : Nat) : 0 ≤ burstOf rate quantum := durationFor_nonneg _ _

/-- A reservation is booked on the bucket it is made on. -/
theorem Banked.reserve {rate quantum : Nat} {b : Bucket} {log : List Grant}
    (h : Banked rate quantum b log) (hr : rate ≠ 0) {bytes : Nat} {now : Int} (h0 : 0 ≤ now)
    (hlive : max b.theoreticalArrival now + durationFor bytes b.bytesPerSecond < int64Max) :
    Banked rate quantum (BandwidthLimiter.reserve b bytes now).1
      (⟨(BandwidthLimiter.reserve b bytes now).2, bytes⟩ :: log) := by
  have hrate : b.bytesPerSecond ≠ 0 := h.ofRate ▸ hr
  have hlt := reserveRound_live h0 (h.ofBurst ▸ burstOf_nonneg rate quantum) hlive
  have hbooked : b.Booked log := by
    intro _
    rw [h.ofBurst, h.ofRate]
    exact h.booked
  have hnext := hbooked.exchange bytes now hlt
  simp only [BandwidthLimiter.reserve, if_neg hrate]
  refine ⟨h.ofRate, h.ofBurst, hlt, ?_⟩
  simpa only [h.ofBurst, h.ofRate] using hnext

/-- A purge of the table leaves the clients of all leases in it. -/
theorem Kept.purged {rate quantum : Nat} {s : Ledger} (h : Kept rate quantum s)
    {clients : Table Ip Nat} (hp : s.limiter.Purged clients) {lease : Nat} {ip : Ip} {id : Nat}
    (hl : s.limiter.leases.lookup lease = some (ip, some id)) : clients.lookup ip = some id := by
  have hlist := h.leased lease ip id hl
  rcases hp.2 ip with hsame | ⟨_, id', hid', hdead⟩
  · exact hsame.trans hlist
  · rw [hlist] at hid'
    cases hid'
    exact absurd ((Limiter.alive_iff h.overflow id).mpr ⟨lease, ip, hl⟩) hdead

theorem Purged.listed {s : Ledger} {clients : Table Ip Nat} (hp : s.limiter.Purged clients) {ip : Ip}
    {id : Nat} (hl : clients.lookup ip = some id) : s.limiter.clients.lookup ip = some id := by
  rcases hp.2 ip with hsame | ⟨hnone, _⟩
  · exact hsame ▸ hl
  · rw [hl] at hnone
    cases hnone

/-- A client that its address was last given and that the table does not hold is gone. -/
theorem Kept.dead {rate quantum : Nat} {s : Ledger} (h : Kept rate quantum s) {ip : Ip}
    (hdead : ∀ id, s.limiter.clients.lookup ip = some id → ¬ s.limiter.alive id) {id : Nat}
    (hid : s.latest ip = some id) : ¬ s.limiter.alive id := by
  intro ha
  obtain ⟨lease, ip', hl⟩ := (Limiter.alive_iff h.overflow id).mp ha
  have hlist := h.leased lease ip' id hl
  have hip := h.distinct ip' ip id (h.listed ip' id hlist) hid
  subst hip
  exact hdead id hlist ha

theorem update_eq_some {latest : Ip → Option Nat} {ip ip' : Ip} {id id' : Nat}
    (h : Function.update latest ip (some id) ip' = some id') :
    (ip' = ip ∧ id' = id) ∨ (ip' ≠ ip ∧ latest ip' = some id') := by
  by_cases hip : ip' = ip
  · subst hip
    rw [Function.update_self, Option.some.injEq] at h
    exact .inl ⟨rfl, h.symm⟩
  · rw [Function.update_of_ne hip] at h
    exact .inr ⟨hip, h⟩

/-- An address is given the client that one of its leases still holds. -/
theorem Kept.rejoin {rate quantum : Nat} {s : Ledger} (h : Kept rate quantum s)
    {clients : Table Ip Nat} {ip : Ip} {id : Nat} (n : Nat) (hp : s.limiter.Purged clients)
    (hkept : clients.lookup ip = some id) :
    Kept rate quantum
      { s with limiter := { s.limiter with
          clients := clients, attachmentsSinceCleanup := n,
          leases := s.limiter.leases.insert s.limiter.nextLease (ip, some id),
          nextLease := s.limiter.nextLease + 1 } } := by
  refine { h with listed := ?_, leased := ?_ }
  · intro ip' id' hl
    exact h.listed ip' id' (Purged.listed hp hl)
  · intro lease ip' id' hl
    rcases Table.lookup_insert_eq_some hl with ⟨-, heq⟩ | ⟨-, hl⟩
    · cases heq
      exact hkept
    · exact h.purged hp hl

/-- An address that no lease is left of is given a new client, whose bucket all its reservations so
far are booked on. -/
theorem Kept.join {rate quantum : Nat} {s : Ledger} (h : Kept rate quantum s)
    {clients : Table Ip Nat} {ip : Ip} {b : Bucket} (n : Nat) (hp : s.limiter.Purged clients)
    (hdead : ∀ id, s.limiter.clients.lookup ip = some id → ¬ s.limiter.alive id)
    (hbank : Banked rate quantum b (s.granted ip)) :
    Kept rate quantum
      { s with
        limiter := { s.limiter with
          clients := clients.insert ip s.limiter.nextClient, attachmentsSinceCleanup := n,
          heap := Function.update s.limiter.heap s.limiter.nextClient b,
          nextClient := s.limiter.nextClient + 1,
          leases := s.limiter.leases.insert s.limiter.nextLease (ip, some s.limiter.nextClient),
          nextLease := s.limiter.nextLease + 1 }
        latest := Function.update s.latest ip (some s.limiter.nextClient) } := by
  have hnew : ∀ {ip' id'}, s.latest ip' = some id' → id' ≠ s.limiter.nextClient :=
    fun hl => (h.placed _ _ hl).ne
  refine ⟨h.ofRate, h.ofQuantum, h.overflow, ?_, ?_, ?_, ?_, ?_, ?_, h.size⟩ <;> dsimp only
  · intro ip' id' hl
    rcases update_eq_some hl with ⟨-, rfl⟩ | ⟨-, hl⟩
    · exact Nat.lt_succ_self _
    · exact Nat.lt_succ_of_lt (h.placed ip' id' hl)
  · intro ip₁ ip₂ id' h₁ h₂
    rcases update_eq_some h₁ with ⟨hip₁, hid₁⟩ | ⟨-, h₁⟩ <;>
      rcases update_eq_some h₂ with ⟨hip₂, hid₂⟩ | ⟨-, h₂⟩
    · exact hip₁.trans hip₂.symm
    · exact absurd hid₁ (hnew h₂)
    · exact absurd hid₂ (hnew h₁)
    · exact h.distinct ip₁ ip₂ id' h₁ h₂
  · intro ip' id' hl
    rcases Table.lookup_insert_eq_some hl with ⟨rfl, rfl⟩ | ⟨hip, hl⟩
    · rw [Function.update_self]
    · rw [Function.update_of_ne hip]
      exact h.listed ip' id' (Purged.listed hp hl)
  · intro lease ip' id' hl
    rcases Table.lookup_insert_eq_some hl with ⟨-, heq⟩ | ⟨-, hlease⟩
    · cases heq
      rw [AList.lookup_insert]
    · have hip : ip' ≠ ip := by
        intro hip
        subst hip
        -- a lease of this address would have kept its client alive
        have ha := (Limiter.alive_iff h.overflow id').mpr ⟨lease, ip', hlease⟩
        exact hdead id' (h.leased lease ip' id' hlease) ha
      rw [AList.lookup_insert_ne hip]
      exact h.purged hp hlease
  · intro ip' id' hl
    rcases update_eq_some hl with ⟨rfl, rfl⟩ | ⟨-, hl⟩
    · rw [Function.update_self]
      exact hbank
    · rw [Function.update_of_ne (hnew hl)]
      exact h.banked ip' id' hl
  · intro ip' hl
    have hip : ip' ≠ ip := by
      intro hip
      rw [hip, Function.update_self] at hl
      cases hl
    rw [Function.update_of_ne hip] at hl
    exact h.unused ip' hl

theorem Kept.attach {rate quantum : Nat} {s : Ledger} (h : Kept rate quantum s) (hr : rate ≠ 0)
    (ip : Ip) (now : Int) (hroom : Roomy s (.attach ip now)) (hdrained : Drained s (.attach ip now))
    (hlive : Unsaturated s (.attach ip now)) : Kept rate quantum (s.step (.attach ip now)) := by
  have hperIp : s.limiter.perIpRate ≠ 0 := h.ofRate ▸ hr
  obtain ⟨clients, n, hp, ⟨id, hid, hkept, he⟩ | ⟨hdead, he⟩⟩ :=
    Limiter.attachClient_cases ip now hperIp hroom
  · have hsame : Function.update s.latest ip (some id) = s.latest := by
      rw [← h.listed ip id hid, Function.update_eq_self]
    simp only [step, Limiter.attach, he, hsame]
    exact h.rejoin n hp hkept
  · have hbank : Banked rate quantum
        (configureBucket s.limiter.perIpRate s.limiter.quantum now) (s.granted ip) := by
      rw [h.ofRate, h.ofQuantum]
      apply Banked.fresh hlive
      cases hlast : s.latest ip with
      | none => exact .inl (h.unused ip hlast)
      | some id =>
        have hgone := h.dead hdead hlast
        exact .inr ⟨_, h.banked ip id hlast, (hdrained id hlast).resolve_left hgone⟩
    simp only [step, Limiter.attach, he]
    exact h.join n hp hdead hbank

theorem Kept.release {rate quantum : Nat} {s : Ledger} (h : Kept rate quantum s) (lease : Nat) :
    Kept rate quantum (s.step (.release lease)) := by
  refine { h with leased := ?_ }
  intro lease' ip id hl
  rcases eq_or_ne lease' lease with rfl | hne
  · simp [step, Limiter.release] at hl
  · simp only [step, Limiter.release, AList.lookup_erase_ne hne] at hl
    exact h.leased lease' ip id hl

/-- A reservation on the client of an address counts for that address alone. -/
theorem Kept.spend {rate quantum : Nat} {s : Ledger} (h : Kept rate quantum s) {ip : Ip} {id : Nat}
    {b : Bucket} {g : Grant} (global : Bucket) (hlatest : s.latest ip = some id)
    (hbank : Banked rate quantum b (g :: s.granted ip)) (hsize : g.bytes ≤ quantum) :
    Kept rate quantum
      { s with
        limiter := { s.limiter with global := global, heap := Function.update s.limiter.heap id b }
        granted := Function.update s.granted ip (g :: s.granted ip) } := by
  refine ⟨h.ofRate, h.ofQuantum, h.overflow, h.placed, h.distinct, h.listed, h.leased,
    ?_, ?_, ?_⟩ <;> dsimp only
  · intro ip' id' hl
    by_cases hip : ip' = ip
    · subst hip
      rw [hlatest, Option.some.injEq] at hl
      subst hl
      rw [Function.update_self, Function.update_self]
      exact hbank
    · have hid : id' ≠ id := by
        intro hid
        subst hid
        exact hip (h.distinct ip' ip id' hl hlatest)
      rw [Function.update_of_ne hip, Function.update_of_ne hid]
      exact h.banked ip' id' hl
  · intro ip' hl
    have hip : ip' ≠ ip := by
      intro hip
      rw [hip, hlatest] at hl
      cases hl
    rw [Function.update_of_ne hip]
    exact h.unused ip' hl
  · intro ip' g' hg'
    by_cases hip : ip' = ip
    · subst hip
      rw [Function.update_self, List.mem_cons] at hg'
      cases hg' with
      | inl heq =>
        rw [heq]
        exact hsize
      | inr hold => exact h.size ip' g' hold
    · rw [Function.update_of_ne hip] at hg'
      exact h.size ip' g' hg'

theorem Kept.acquire {rate quantum : Nat} {s : Ledger} (h : Kept rate quantum s) (hr : rate ≠ 0)
    (lease desired : Nat) (now : Int) (hlive : Unsaturated s (.acquire lease desired now)) :
    Kept rate quantum (s.step (.acquire lease desired now)) := by
  have hidle : ∀ ip (b : Bucket), Kept rate quantum
      { s with limiter := { s.limiter with global := b },
               granted := Function.update s.granted ip ([] ++ s.granted ip) } := by
    intro ip b
    rw [List.nil_append, Function.update_eq_self]
    exact { h with }
  simp only [step]
  split
  · exact h
  · rename_i ip client hl
    unfold Limiter.acquire
    split_ifs
    · exact hidle ip s.limiter.global
    · exact hidle ip s.limiter.global
    · cases client with
      | none => exact hidle ip _
      | some id =>
        have hlatest := h.listed ip id (h.leased lease ip id hl)
        have hbank := (h.banked ip id hlatest).reserve hr hlive.1 (hlive.2 _ hl id rfl)
        have hsize : min desired s.limiter.quantum ≤ quantum :=
          (min_le_right _ _).trans h.ofQuantum.le
        exact h.spend _ hlatest hbank hsize

/-- The runs in which the per-IP limit holds: each step finds room in the table, attaches an address
anew only when its last bucket is drained, and stays below the last representable time. -/
def Sparing (s : Ledger) (x : LeaseStep) : Prop := Roomy s x ∧ Drained s x ∧ Unsaturated s x

theorem step_kept {rate quantum : Nat} {s : Ledger} (hr : rate ≠ 0) (h : Kept rate quantum s)
    (x : LeaseStep) (hx : Sparing s x) : Kept rate quantum (s.step x) := by
  obtain ⟨hroom, hdrained, hlive⟩ := hx
  cases x with
  | attach ip now => exact h.attach hr ip now hroom hdrained hlive
  | acquire lease desired now => exact h.acquire hr lease desired now hlive
  | release lease => exact h.release lease

theorem reaches_kept {rate quantum : Nat} {s₀ s : Ledger} (hr : rate ≠ 0)
    (h₀ : Kept rate quantum s₀) (hs : Reaches Sparing s₀ s) : Kept rate quantum s := by
  induction hs with
  | refl => exact h₀
  | step x _ hx ih => exact step_kept hr ih x hx

/-- Every step of a list meets the condition in the state it starts from. -/
def MeetsAll (meets : Ledger → LeaseStep → Prop) : Ledger → List LeaseStep → Prop
  | _, [] => True
  | s, x :: xs => meets s x ∧ MeetsAll meets (s.step x) xs

theorem Reaches.foldl {meets : Ledger → LeaseStep → Prop} {s₀ s : Ledger} {xs : List LeaseStep}
    (hs : Reaches meets s₀ s) (h : MeetsAll meets s xs) :
    Reaches meets s₀ (xs.foldl Ledger.step s) := by
  induction xs generalizing s with
  | nil => exact hs
  | cons x xs ih => exact ih (hs.step x h.1) h.2

/-- What the reservations of one address may add up to in any window. -/
def WithinRate (rate quantum : Nat) (log : List Grant) : Prop :=
  ∀ x y : Int, x ≤ y → (bytesWithin x y log : Int) * kNanosecondsPerSecond ≤
    rate * (y - x + burstOf rate quantum) + quantum * kNanosecondsPerSecond

/-- Whatever transfers an address starts and ends in such a run, it keeps to the per-IP rate. -/
theorem granted_withinRate {globalRate rate : Nat} {now : Int} (hr : 0 < rate)
    (hw : min rate (quantumFor globalRate rate) * kNanosecondsPerSecond + rate ≤ 2 ^ 64)
    {s : Ledger} (hs : Reaches Sparing (configured globalRate rate now) s) (ip : Ip) :
    WithinRate rate (quantumFor globalRate rate) (s.granted ip) := by
  have hk := reaches_kept hr.ne' (configured_kept globalRate rate now) hs
  have hq := quantumFor_le globalRate rate
  intro x y hxy
  have hconf : ∃ v, Conforms (burstOf rate (quantumFor globalRate rate)) v
      ((s.granted ip).map (Grant.booking rate)) := by
    cases hl : s.latest ip with
    | none => exact ⟨0, by rw [hk.unused ip hl]; exact Conforms.start _⟩
    | some id => exact ⟨_, (hk.banked ip id hl).booked⟩
  obtain ⟨v, hconf⟩ := hconf
  exact bytesWithin_le hr (by simp only [sizeBits]; omega) (Unwrapped.of_le hr hw)
    (burstOf_nonneg _ _) hconf (hk.size ip) hxy

/-- An address that comes back once its bucket is drained keeps to the rate. -/
theorem granted_withinRate_drained :
    WithinRate 12500 (quantumFor 0 12500)
      (([.attach ['c'] 0, .acquire 0 1024 0, .release 0, .attach ['c'] 100000000,
        .acquire 1 1024 100000000].foldl Ledger.step (configured 0 12500 0)).granted ['c']) := by
  refine granted_withinRate (by decide) (by decide) (Reaches.refl.foldl ?_) ['c']
  simp only [MeetsAll, Sparing, Roomy, Drained, Unsaturated]
  decide

/-- Three short transfers one after the other, each on a bucket of its own. -/
def reattachments : List LeaseStep :=
  [.attach ['c'] 0, .acquire 0 1024 0, .release 0,
    .attach ['c'] 1000000, .acquire 1 1024 1000000, .release 1,
    .attach ['c'] 2000000, .acquire 2 1024 2000000, .release 2]

/-- A client that reattaches right after each response outruns its rate. -/
theorem reattachments_exceed :
    Reaches Roomy (configured 0 12500 0) (reattachments.foldl Ledger.step (configured 0 12500 0)) ∧
    ¬ WithinRate 12500 (quantumFor 0 12500)
      ((reattachments.foldl Ledger.step (configured 0 12500 0)).granted ['c']) := by
  constructor
  · apply Reaches.refl.foldl
    simp only [reattachments, MeetsAll, Roomy]
    decide
  · intro h
    exact absurd (h 0 2000000 (by decide)) (by decide)

end FastdlMm.BandwidthLimiter.Ledger
