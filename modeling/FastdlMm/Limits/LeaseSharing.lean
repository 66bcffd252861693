import FastdlMm.Limits.Leases

namespace FastdlMm.BandwidthLimiter
namespace Limiter

/-- Simultaneous leases of one address refer to one client. -/
def Shared (s : Limiter) : Prop :=
  ∀ lease lease' ip client client', s.leases.lookup lease = some (ip, client) →
    s.leases.lookup lease' = some (ip, client') → client = client'

/-- The entries that a sweep leaves. -/
def liveClients (s : Limiter) : Table Ip Nat := s.clients.keep (fun _ id => decide (s.alive id))

/-- The table is full of clients that leases hold. -/
def Full (s : Limiter) : Prop := kMaximumTrackedClients ≤ Table.size s.liveClients

/-- An address with a lease of the overflow client does not attach while the table has room. -/
def Overflows (s : Limiter) : LeaseStep → Prop
  | .attach ip _ => (∃ lease id, s.leases.lookup lease = some (ip, some id) ∧
      s.overflowClient = some id) → s.Full
  | _ => True

/-- What every step keeps of the leases. A client of an address is its own, held by the table, or
the overflow client. -/
structure Sharing (s : Limiter) : Prop where
  rated : s.perIpRate ≠ 0
  held : ∀ lease ip client, s.leases.lookup lease = some (ip, client) → ∃ id, client = some id ∧
    (s.clients.lookup ip = some id ∨ s.overflowClient = some id)
  own : ∀ ip ip' id, s.clients.lookup ip = some id → s.clients.lookup ip' = some id → ip = ip'
  apart : ∀ ip id, s.clients.lookup ip = some id → s.overflowClient ≠ some id
  placed : ∀ ip id, s.clients.lookup ip = some id → id < s.nextClient
  placedOverflow : ∀ id, s.overflowClient = some id → id < s.nextClient
  numbered : ∀ lease e, s.leases.lookup lease = some e → lease < s.nextLease

theorem alive_of_lease {s : Limiter} {lease id : Nat} {ip : Ip}
    (h : s.leases.lookup lease = some (ip, some id)) : s.alive id :=
  .inr ⟨⟨lease, ip, some id⟩, AList.mem_lookup_iff.mp h, rfl⟩

theorem keep_keep {clients : Table Ip Nat} (p : Ip → Nat → Bool) :
    (clients.keep p).keep p = clients.keep p := by
  apply AList.ext
  simp only [Table.keep, List.filter_filter, Bool.and_self]

/-- What `attach` hands out: the client that a lease of the address holds, the overflow client when
the table is full of live ones, or else a client made now. -/
theorem attachClient_sorted {s : Limiter} (ip : Ip) (now : Int) (hr : s.perIpRate ≠ 0) :
    ∃ clients n, s.Purged clients ∧
      ((∃ id, s.clients.lookup ip = some id ∧ s.alive id ∧
          s.attachClient ip now =
            ({ s with clients := clients, attachmentsSinceCleanup := n }, some id)) ∨
        (∀ id, s.clients.lookup ip = some id → ¬ s.alive id) ∧
          ((s.Full ∧ ∃ id, s.overflowClient = some id ∧
              s.attachClient ip now =
                ({ s with clients := clients, attachmentsSinceCleanup := n }, some id)) ∨
            (s.Full ∧ s.overflowClient = none ∧ ∃ heap,
              s.attachClient ip now =
                ({ s with clients := clients, attachmentsSinceCleanup := n, heap := heap,
                          nextClient := s.nextClient + 1,
                          overflowClient := some s.nextClient }, some s.nextClient)) ∨
            (¬ s.Full ∧ ∃ heap,
              s.attachClient ip now =
                ({ s with clients := clients.insert ip s.nextClient,
                          attachmentsSinceCleanup := n, heap := heap,
                          nextClient := s.nextClient + 1 }, some s.nextClient)))) := by
  obtain ⟨clients, n, hswept, hcount⟩ := s.countAttachment_eq
  have hpurged : s.Purged clients := purged_of_swept hswept
  have hlive : clients.keep (fun _ id => decide (s.alive id)) = s.liveClients := by
    rcases hswept with rfl | rfl
    · rfl
    · exact keep_keep _
  unfold attachClient
  rw [if_neg hr]
  simp only [hcount]
  cases ht : tracked { s with clients := clients, attachmentsSinceCleanup := n } ip with
  | some id =>
    obtain ⟨hlookup, halive⟩ := tracked_eq_some.mp ht
    have halive' : s.alive id := halive
    exact ⟨clients, n, hpurged, .inl ⟨id, (hpurged.lookup_iff halive').mp hlookup, halive', rfl⟩⟩
  | none =>
    have hdead : ∀ id, s.clients.lookup ip = some id → ¬ s.alive id := by
      intro id hid halive
      have hsome : tracked { s with clients := clients, attachmentsSinceCleanup := n } ip =
          some id := tracked_eq_some.mpr ⟨(hpurged.lookup_iff halive).mpr hid, halive⟩
      rw [ht] at hsome
      cases hsome
    let heap := Function.update s.heap s.nextClient (configureBucket s.perIpRate s.quantum now)
    by_cases hfull : kMaximumTrackedClients ≤ Table.size clients
    · have hswept' : cleanupClients { s with clients := clients, attachmentsSinceCleanup := n } =
          { s with clients := s.liveClients, attachmentsSinceCleanup := 0 } := by
        rw [← hlive]
        rfl
      rw [if_pos hfull, hswept']
      refine ⟨s.liveClients, 0, s.purged_keep, .inr ⟨hdead, ?_⟩⟩
      by_cases hroom : s.Full
      · have hover : kMaximumTrackedClients ≤ Table.size s.liveClients := hroom
        simp only [if_pos hover, makeClient]
        cases ho : s.overflowClient with
        | some id => exact .inl ⟨hroom, id, rfl, rfl⟩
        | none => exact .inr (.inl ⟨hroom, rfl, heap, rfl⟩)
      · have hunder : ¬ kMaximumTrackedClients ≤ Table.size s.liveClients := hroom
        simp only [if_neg hunder, makeClient]
        exact .inr (.inr ⟨hroom, heap, rfl⟩)
    · have hroom : ¬ s.Full := by
        intro h
        have hle := Table.size_keep_le (fun _ id => decide (s.alive id)) clients
        rw [hlive] at hle
        exact hfull (le_trans h hle)
      rw [if_neg hfull]
      refine ⟨clients, n, hpurged, .inr ⟨hdead, .inr (.inr ⟨hroom, heap, ?_⟩)⟩⟩
      simp only [if_neg hfull, makeClient]
      rfl

/-- A new lease of an address shares its client if the older ones of the address have that one. -/
theorem shared_insert {s : Limiter} (hnumbered : ∀ lease e, s.leases.lookup lease = some e →
    lease < s.nextLease) (hshared : s.Shared) {s' : Limiter} {ip : Ip} {client : Option Nat}
    (hleases : s'.leases = s.leases.insert s.nextLease (ip, client)) :
    s'.Shared ↔ ∀ lease client', s.leases.lookup lease = some (ip, client') → client' = client := by
  have hold {lease : Nat} {e : Ip × Option Nat} (h : s.leases.lookup lease = some e) :
      s'.leases.lookup lease = some e := by
    have hne : lease ≠ s.nextLease := Nat.ne_of_lt (hnumbered lease e h)
    rw [hleases, AList.lookup_insert_ne hne, h]
  have hnew : s'.leases.lookup s.nextLease = some (ip, client) := by
    rw [hleases, AList.lookup_insert]
  constructor
  · intro h lease client' hl
    exact h lease s.nextLease ip client' client (hold hl) hnew
  · intro h lease lease' ip' c c' hl hl'
    rw [hleases] at hl hl'
    rcases Table.lookup_insert_eq_some hl with ⟨_, heq⟩ | ⟨_, hl⟩
    · rcases Table.lookup_insert_eq_some hl' with ⟨_, heq'⟩ | ⟨_, hl'⟩
      · cases heq
        cases heq'
        rfl
      · cases heq
        exact (h lease' c' hl').symm
    · rcases Table.lookup_insert_eq_some hl' with ⟨_, heq'⟩ | ⟨_, hl'⟩
      · cases heq'
        exact h lease c hl
      · exact hshared lease lease' ip' c c' hl hl'

namespace Sharing

theorem purge {s : Limiter} (h : s.Sharing) {clients : Table Ip Nat} (hp : s.Purged clients)
    (n : Nat) : Sharing { s with clients := clients, attachmentsSinceCleanup := n } := by
  have hlisted {ip : Ip} {id : Nat} (hl : clients.lookup ip = some id) :
      s.clients.lookup ip = some id := by
    rcases hp.2 ip with hsame | ⟨hnone, _⟩
    · rw [← hsame, hl]
    · rw [hl] at hnone
      cases hnone
  refine ⟨h.rated, ?_, ?_, ?_, ?_, h.placedOverflow, h.numbered⟩
  · intro lease ip client hl
    obtain ⟨id, rfl, hown | hover⟩ := h.held lease ip client hl
    · exact ⟨id, rfl, .inl ((hp.lookup_iff (alive_of_lease hl)).mpr hown)⟩
    · exact ⟨id, rfl, .inr hover⟩
  · exact fun ip ip' id hl hl' => h.own ip ip' id (hlisted hl) (hlisted hl')
  · exact fun ip id hl => h.apart ip id (hlisted hl)
  · exact fun ip id hl => h.placed ip id (hlisted hl)

/-- A lease of the address's own client, or of the overflow client, keeps the rest. -/
theorem lease {s : Limiter} (h : s.Sharing) {ip : Ip} {id : Nat}
    (hid : s.clients.lookup ip = some id ∨ s.overflowClient = some id) :
    Sharing { s with leases := s.leases.insert s.nextLease (ip, some id),
                     nextLease := s.nextLease + 1 } := by
  refine ⟨h.rated, ?_, h.own, h.apart, h.placed, h.placedOverflow, ?_⟩
  · intro lease ip' client hl
    rcases Table.lookup_insert_eq_some hl with ⟨_, heq⟩ | ⟨_, hl⟩
    · cases heq
      exact ⟨id, rfl, hid⟩
    · exact h.held lease ip' client hl
  · intro lease e hl
    show lease < s.nextLease + 1
    rcases Table.lookup_insert_eq_some hl with ⟨rfl, _⟩ | ⟨_, hl⟩
    · omega
    · have := h.numbered lease e hl
      omega

/-- The overflow client is made when there is none. -/
theorem overflow {s : Limiter} (h : s.Sharing) (hnone : s.overflowClient = none)
    (heap : Nat → Bucket) :
    Sharing { s with heap := heap, nextClient := s.nextClient + 1,
                     overflowClient := some s.nextClient } := by
  refine ⟨h.rated, ?_, h.own, ?_, ?_, ?_, h.numbered⟩
  · intro lease ip client hl
    obtain ⟨id, rfl, hown | hover⟩ := h.held lease ip client hl
    · exact ⟨id, rfl, .inl hown⟩
    · rw [hnone] at hover
      cases hover
  · intro ip id hl heq
    have hlt := h.placed ip id hl
    cases heq
    exact Nat.lt_irrefl _ hlt
  · intro ip id hl
    exact Nat.lt_succ_of_lt (h.placed ip id hl)
  · intro id heq
    cases heq
    exact Nat.lt_succ_self _

/-- An address gets a new client when no lease holds its old one. -/
theorem renew {s : Limiter} (h : s.Sharing) {ip : Ip}
    (hdead : ∀ id, s.clients.lookup ip = some id → ¬ s.alive id) (heap : Nat → Bucket) :
    Sharing { s with clients := s.clients.insert ip s.nextClient, heap := heap,
                     nextClient := s.nextClient + 1 } := by
  refine ⟨h.rated, ?_, ?_, ?_, ?_, ?_, h.numbered⟩
  · intro lease ip' client hl
    obtain ⟨id, rfl, hown | hover⟩ := h.held lease ip' client hl
    · have hne : ip' ≠ ip := by
        rintro rfl
        exact hdead id hown (alive_of_lease hl)
      exact ⟨id, rfl, .inl (by rw [AList.lookup_insert_ne hne, hown])⟩
    · exact ⟨id, rfl, .inr hover⟩
  · intro ip₁ ip₂ id hl₁ hl₂
    rcases Table.lookup_insert_eq_some hl₁ with ⟨rfl, rfl⟩ | ⟨_, hold₁⟩
    · rcases Table.lookup_insert_eq_some hl₂ with ⟨rfl, _⟩ | ⟨_, hold₂⟩
      · rfl
      · exact absurd (h.placed ip₂ _ hold₂) (Nat.lt_irrefl _)
    · rcases Table.lookup_insert_eq_some hl₂ with ⟨_, rfl⟩ | ⟨_, hold₂⟩
      · exact absurd (h.placed ip₁ _ hold₁) (Nat.lt_irrefl _)
      · exact h.own ip₁ ip₂ id hold₁ hold₂
  · intro ip' id hl
    rcases Table.lookup_insert_eq_some hl with ⟨_, rfl⟩ | ⟨_, hl⟩
    · exact fun heq => Nat.lt_irrefl _ (h.placedOverflow _ heq)
    · exact h.apart ip' id hl
  · intro ip' id hl
    show id < s.nextClient + 1
    rcases Table.lookup_insert_eq_some hl with ⟨_, rfl⟩ | ⟨_, hl⟩
    · omega
    · have := h.placed ip' id hl
      omega
  · exact fun id heq => Nat.lt_succ_of_lt (h.placedOverflow id heq)

/-- A client of the table that is alive is held by a lease of its address. -/
theorem leased {s : Limiter} (h : s.Sharing) {ip : Ip} {id : Nat}
    (hid : s.clients.lookup ip = some id) (halive : s.alive id) :
    ∃ lease, s.leases.lookup lease = some (ip, some id) := by
  rcases halive with hover | ⟨⟨lease, ip', client⟩, hmem, rfl⟩
  · exact absurd hover (h.apart ip id hid)
  · have hl : s.leases.lookup lease = some (ip', some id) := AList.mem_lookup_iff.mpr hmem
    obtain ⟨_, heq, hown | hover⟩ := h.held lease ip' (some id) hl
    · cases heq
      cases h.own ip ip' id hid hown
      exact ⟨lease, hl⟩
    · cases heq
      exact absurd hover (h.apart ip id hid)

/-- An attach that meets the condition keeps the leases of each address on one client, and one that
does not parts them. -/
theorem attach {s : Limiter} (h : s.Sharing) (hshared : s.Shared) (ip : Ip) (now : Int) :
    (s.attach ip now).Sharing ∧ ((s.attach ip now).Shared ↔ s.Overflows (.attach ip now)) := by
  obtain ⟨clients, n, hp, hcase⟩ := attachClient_sorted ip now h.rated
  have hpurged := h.purge hp n
  have hdeadOverflow (hdead : ∀ id, s.clients.lookup ip = some id → ¬ s.alive id)
      {lease : Nat} {client : Option Nat} (hl : s.leases.lookup lease = some (ip, client)) :
      ∃ id, client = some id ∧ s.overflowClient = some id := by
    obtain ⟨id, rfl, hown | hover⟩ := h.held lease ip client hl
    · exact absurd (alive_of_lease hl) (hdead id hown)
    · exact ⟨id, rfl, hover⟩
  rcases hcase with ⟨id, hid, halive, heq⟩ | ⟨hdead, ⟨hfull, id, hover, heq⟩ |
    ⟨hfull, hnone, heap, heq⟩ | ⟨hroom, heap, heq⟩⟩
  · -- a lease of this address holds the client, so none of its leases has the overflow client
    obtain ⟨lease₀, hl₀⟩ := h.leased hid halive
    have hown : clients.lookup ip = some id := (hp.lookup_iff halive).mpr hid
    have hkeep := hpurged.lease (.inl hown)
    have hone : ∀ lease client, s.leases.lookup lease = some (ip, client) → client = some id :=
      fun lease client hl => hshared lease lease₀ ip client (some id) hl hl₀
    unfold Limiter.attach
    rw [heq]
    refine ⟨hkeep, ?_⟩
    rw [shared_insert h.numbered hshared rfl]
    refine ⟨fun _ hoverflows => ?_, fun _ => hone⟩
    obtain ⟨lease, o, hl, ho⟩ := hoverflows
    cases hone lease (some o) hl
    exact absurd ho (h.apart ip _ hid)
  · unfold Limiter.attach
    rw [heq]
    refine ⟨hpurged.lease (.inr hover), ?_⟩
    rw [shared_insert h.numbered hshared rfl]
    refine ⟨fun _ _ => hfull, fun _ lease client hl => ?_⟩
    obtain ⟨id', rfl, hover'⟩ := hdeadOverflow hdead hl
    rw [← hover', hover]
  · unfold Limiter.attach
    rw [heq]
    refine ⟨(hpurged.overflow hnone heap).lease (.inr rfl), ?_⟩
    rw [shared_insert h.numbered hshared rfl]
    refine ⟨fun _ _ => hfull, fun _ lease client hl => ?_⟩
    obtain ⟨id', rfl, hover'⟩ := hdeadOverflow hdead hl
    rw [hnone] at hover'
    cases hover'
  · have hdead' : ∀ id, clients.lookup ip = some id → ¬ s.alive id := by
      intro id hid halive
      exact hdead id ((hp.lookup_iff halive).mp hid) halive
    unfold Limiter.attach
    rw [heq]
    refine ⟨(hpurged.renew hdead' heap).lease (.inl (AList.lookup_insert _)), ?_⟩
    rw [shared_insert h.numbered hshared rfl]
    constructor
    · intro hone hoverflows
      obtain ⟨lease, o, hl, ho⟩ := hoverflows
      cases hone lease (some o) hl
      exact absurd (h.placedOverflow _ ho) (Nat.lt_irrefl _)
    · intro hmeets lease client hl
      obtain ⟨id, rfl, hover⟩ := hdeadOverflow hdead hl
      exact absurd (hmeets ⟨lease, id, hl, hover⟩) hroom

end Sharing

end Limiter

namespace Ledger

/-- `acquire` touches buckets and nothing else. -/
theorem acquire_frame (s : Limiter) (client : Option Nat) (desired : Nat) (now : Int) :
    ∃ global heap, (s.acquire client desired now).1 = { s with global := global, heap := heap } := by
  unfold Limiter.acquire
  split_ifs
  · exact ⟨s.global, s.heap, rfl⟩
  · exact ⟨s.global, s.heap, rfl⟩
  · cases client with
    | none => exact ⟨_, s.heap, rfl⟩
    | some id => exact ⟨_, _, rfl⟩

theorem step_acquire_frame (s : Ledger) (lease desired : Nat) (now : Int) :
    ∃ global heap, (s.step (.acquire lease desired now)).limiter =
      { s.limiter with global := global, heap := heap } := by
  cases hl : s.limiter.leases.lookup lease with
  | none =>
    refine ⟨s.limiter.global, s.limiter.heap, ?_⟩
    simp only [step, hl]
  | some e =>
    obtain ⟨global, heap, heq⟩ := acquire_frame s.limiter e.2 desired now
    refine ⟨global, heap, ?_⟩
    rw [← heq]
    simp only [step, hl]

/-- What a step keeps, and when it keeps the leases of each address on one client. -/
theorem step_sharing {s : Ledger} (h : s.limiter.Sharing) (hshared : s.limiter.Shared)
    (x : LeaseStep) :
    (s.step x).limiter.Sharing ∧
      ((s.step x).limiter.Shared ↔ s.limiter.Overflows x) := by
  cases x with
  | attach ip now => exact h.attach hshared ip now
  | acquire lease desired now =>
    obtain ⟨global, heap, heq⟩ := s.step_acquire_frame lease desired now
    rw [heq]
    refine ⟨⟨h.rated, h.held, h.own, h.apart, h.placed, h.placedOverflow, h.numbered⟩, ?_⟩
    exact ⟨fun _ => trivial, fun _ => hshared⟩
  | release lease =>
    have hsub {lease' : Nat} {e : Ip × Option Nat}
        (hl : (s.limiter.leases.erase lease).lookup lease' = some e) :
        s.limiter.leases.lookup lease' = some e := by
      rcases eq_or_ne lease' lease with rfl | hne
      · rw [AList.lookup_erase] at hl
        cases hl
      · rwa [AList.lookup_erase_ne hne] at hl
    constructor
    · exact ⟨h.rated, fun lease' ip client hl => h.held lease' ip client (hsub hl), h.own, h.apart,
        h.placed, h.placedOverflow, fun lease' e hl => h.numbered lease' e (hsub hl)⟩
    · exact ⟨fun _ => trivial, fun _ a b ip c c' ha hb => hshared a b ip c c' (hsub ha) (hsub hb)⟩

/-- The leases of an address share one client in every run in which no address attaches with a lease
of the overflow client while the table has room. -/
theorem leases_shared {globalRate rate : Nat} {now : Int} (hr : rate ≠ 0) {s : Ledger}
    (hs : Reaches (fun s x => s.limiter.Overflows x) (configured globalRate rate now) s) :
    s.limiter.Shared := by
  have hkept : s.limiter.Sharing ∧ s.limiter.Shared := by
    induction hs with
    | refl =>
      refine ⟨⟨hr, ?_, ?_, ?_, ?_, ?_, ?_⟩, ?_⟩ <;> simp [configured, Limiter.Shared]
    | step x _ hmeets ih =>
      have hstep := step_sharing ih.1 ih.2 x
      exact ⟨hstep.1, hstep.2.mpr hmeets⟩
  exact hkept.2

/-- The address of the `n`th of many clients. -/
def address (n : Nat) : Ip := List.replicate n 'a'

theorem stranger (n : Nat) : ['b'] ≠ address n := by
  intro heq
  have hmem : 'b' ∈ address n := heq ▸ List.mem_singleton_self 'b'
  exact absurd (List.eq_of_mem_replicate hmem) (by decide)

theorem address_injective {m n : Nat} (h : address m = address n) : m = n := by
  have hlen := congrArg List.length h
  simpa [address] using hlen

/-- Attachments of the first `n` addresses, each once. -/
def attachAll (s₀ : Ledger) : Nat → Ledger
  | 0 => s₀
  | n + 1 => (attachAll s₀ n).step (.attach (address n) 0)

/-- `n` addresses hold a lease each, in the order of their leases. -/
structure Filled (s : Limiter) (n : Nat) : Prop where
  sharing : s.Sharing
  overflow : s.overflowClient = none
  next : s.nextLease = n
  leased : ∀ k < n, ∃ id, s.leases.lookup k = some (address k, some id)
  only : ∀ lease ip client, s.leases.lookup lease = some (ip, client) → ip = address lease
  listed : ∀ ip id, s.clients.lookup ip = some id → ∃ k < n, ip = address k
  small : Table.size s.clients ≤ n

theorem Filled.shared {s : Limiter} {n : Nat} (h : Filled s n) : s.Shared := by
  intro lease lease' ip client client' hl hl'
  have heq : lease = lease' :=
    address_injective ((h.only lease ip client hl).symm.trans (h.only lease' ip client' hl'))
  subst heq
  rw [hl] at hl'
  cases hl'
  rfl

theorem Filled.not_full {s : Limiter} {n : Nat} (h : Filled s n) (hn : n < kMaximumTrackedClients) :
    ¬ s.Full := by
  have hle : Table.size s.liveClients ≤ Table.size s.clients := Table.size_keep_le _ _
  have hsmall := h.small
  unfold Limiter.Full
  omega

theorem Filled.attach {s : Limiter} {n : Nat} (h : Filled s n) (hn : n < kMaximumTrackedClients) :
    Filled (s.attach (address n) 0) (n + 1) := by
  have hsharing := (h.sharing.attach h.shared (address n) 0).1
  obtain ⟨clients, m, hp, hcase⟩ := Limiter.attachClient_sorted (address n) 0 h.sharing.rated
  rcases hcase with ⟨id, hid, _⟩ | ⟨_, ⟨hfull, _⟩ | ⟨hfull, _⟩ | ⟨_, heap, heq⟩⟩
  · obtain ⟨k, hk, hsame⟩ := h.listed _ id hid
    have := address_injective hsame
    omega
  · exact absurd hfull (h.not_full hn)
  · exact absurd hfull (h.not_full hn)
  · have hnext := h.next
    unfold Limiter.attach at hsharing ⊢
    rw [heq] at hsharing ⊢
    refine ⟨hsharing, h.overflow, congrArg (· + 1) hnext, ?_, ?_, ?_, ?_⟩
    · intro k hk
      rcases Nat.lt_succ_iff_lt_or_eq.mp hk with hlt | rfl
      · obtain ⟨id, hl⟩ := h.leased k hlt
        have hne : k ≠ s.nextLease := by omega
        exact ⟨id, by rw [AList.lookup_insert_ne hne, hl]⟩
      · exact ⟨s.nextClient, by rw [hnext, AList.lookup_insert]⟩
    · intro lease ip client hl
      rcases Table.lookup_insert_eq_some hl with ⟨hlease, he⟩ | ⟨_, hl⟩
      · cases he
        rw [hlease, hnext]
      · exact h.only lease ip client hl
    · intro ip id hl
      rcases Table.lookup_insert_eq_some hl with ⟨rfl, _⟩ | ⟨_, hl⟩
      · exact ⟨n, Nat.lt_succ_self n, rfl⟩
      · have hold : s.clients.lookup ip = some id := by
          rcases hp.2 ip with hsame | ⟨hnone, _⟩
          · rw [← hsame, hl]
          · rw [hl] at hnone
            cases hnone
        obtain ⟨k, hk, hip⟩ := h.listed ip id hold
        exact ⟨k, Nat.lt_succ_of_lt hk, hip⟩
    · have hinsert := Table.total_insert_weigh (fun _ _ => 1) clients (address n) s.nextClient
      rw [Table.total_one, Table.total_one] at hinsert
      have hsmall := h.small
      have hpurged := hp.1
      show Table.size (clients.insert (address n) s.nextClient) ≤ n + 1
      omega

theorem configured_filled (globalRate : Nat) {rate : Nat} (hr : rate ≠ 0) (now : Int) :
    Filled (configured globalRate rate now).limiter 0 := by
  refine ⟨⟨hr, ?_, ?_, ?_, ?_, ?_, ?_⟩, rfl, rfl, ?_, ?_, ?_, le_rfl⟩ <;> simp [configured]

theorem attachAll_filled {s₀ : Ledger} (h : Filled s₀.limiter 0) {n : Nat}
    (hn : n ≤ kMaximumTrackedClients) : Filled (s₀.attachAll n).limiter n := by
  induction n with
  | zero => exact h
  | succ n ih => exact (ih (by omega)).attach (by omega)

/-- The first addresses hold leases of the clients that fill the table. -/
structure Crowded (s : Limiter) : Prop where
  sharing : s.Sharing
  held : ∀ k < kMaximumTrackedClients, ∃ id, s.leases.lookup k = some (address k, some id) ∧
    s.clients.lookup (address k) = some id
  next : kMaximumTrackedClients ≤ s.nextLease

theorem Filled.crowded {s : Limiter} (h : Filled s kMaximumTrackedClients) : Crowded s := by
  refine ⟨h.sharing, fun k hk => ?_, h.next.ge⟩
  obtain ⟨id, hl⟩ := h.leased k hk
  obtain ⟨_, heq, hown | hover⟩ := h.sharing.held k _ _ hl
  · cases heq
    exact ⟨id, hl, hown⟩
  · rw [h.overflow] at hover
    cases hover

/-- Each address with a lease takes a place of the table. -/
theorem Crowded.full {s : Limiter} (h : Crowded s) : s.Full := by
  let keys := (List.range kMaximumTrackedClients).map address
  have hnodup : keys.Nodup := List.nodup_range.map fun _ _ heq => address_injective heq
  have hone : ∀ k ∈ keys, Table.weigh (fun _ _ => 1) s.liveClients k = 1 := by
    intro k hk
    obtain ⟨i, hi, rfl⟩ := List.mem_map.mp hk
    obtain ⟨id, hl, hown⟩ := h.held i (List.mem_range.mp hi)
    have hlive : s.liveClients.lookup (address i) = some id :=
      (s.purged_keep.lookup_iff (Limiter.alive_of_lease hl)).mpr hown
    rw [Table.weigh, hlive]
    rfl
  have hsum := Table.sum_weigh_le (fun _ _ => 1) s.liveClients hnodup
  have hmap : keys.map (Table.weigh (fun _ _ => 1) s.liveClients) = keys.map fun _ => 1 :=
    List.map_congr_left hone
  have hcount : (keys.map fun _ => 1).sum = kMaximumTrackedClients := by
    simp [keys, Function.comp_def]
  rw [Table.total_one, hmap, hcount] at hsum
  exact hsum

/-- An attach to a crowded table is a lease more and leaves it crowded. -/
theorem Crowded.attach {s : Limiter} (h : Crowded s) (hshared : s.Shared) (ip : Ip) :
    Crowded (s.attach ip 0) ∧
      ∃ id, (s.attach ip 0).leases = s.leases.insert s.nextLease (ip, some id) ∧
        (s.attach ip 0).nextLease = s.nextLease + 1 := by
  have hsharing := (h.sharing.attach hshared ip 0).1
  obtain ⟨clients, n, hp, hcase⟩ := Limiter.attachClient_sorted ip 0 h.sharing.rated
  have hkept {id : Nat} : ∀ k < kMaximumTrackedClients, ∃ own,
      (s.leases.insert s.nextLease (ip, some id)).lookup k = some (address k, some own) ∧
        clients.lookup (address k) = some own := by
    intro k hk
    obtain ⟨own, hl, hown⟩ := h.held k hk
    have hne : k ≠ s.nextLease := Nat.ne_of_lt (hk.trans_le h.next)
    exact ⟨own, by rw [AList.lookup_insert_ne hne, hl],
      (hp.lookup_iff (Limiter.alive_of_lease hl)).mpr hown⟩
  have hnext : kMaximumTrackedClients ≤ s.nextLease + 1 := Nat.le_succ_of_le h.next
  unfold Limiter.attach at hsharing ⊢
  rcases hcase with ⟨id, -, -, heq⟩ | ⟨-, ⟨-, id, -, heq⟩ | ⟨-, -, heap, heq⟩ | ⟨hroom, -⟩⟩
  · rw [heq] at hsharing ⊢
    exact ⟨⟨hsharing, hkept, hnext⟩, id, rfl, rfl⟩
  · rw [heq] at hsharing ⊢
    exact ⟨⟨hsharing, hkept, hnext⟩, id, rfl, rfl⟩
  · rw [heq] at hsharing ⊢
    exact ⟨⟨hsharing, hkept, hnext⟩, _, rfl, rfl⟩
  · exact absurd h.full hroom

theorem Crowded.step {s : Ledger} (h : Crowded s.limiter) (hshared : s.limiter.Shared) (ip : Ip) :
    Crowded (s.step (.attach ip 0)).limiter ∧ (s.step (.attach ip 0)).limiter.Shared ∧
      ∃ id, (s.step (.attach ip 0)).limiter.leases =
          s.limiter.leases.insert s.limiter.nextLease (ip, some id) ∧
        (s.step (.attach ip 0)).limiter.nextLease = s.limiter.nextLease + 1 := by
  obtain ⟨hcrowded, hleases⟩ := h.attach hshared ip
  exact ⟨hcrowded, (step_sharing h.sharing hshared (.attach ip 0)).2.mpr fun _ => h.full, hleases⟩

theorem Filled.meets {s : Limiter} {n : Nat} (h : Filled s n) (x : LeaseStep) : s.Overflows x := by
  cases x with
  | attach ip now =>
    rintro ⟨_, _, _, hsome⟩
    rw [h.overflow] at hsome
    cases hsome
  | acquire | release => trivial

theorem attachAll_reaches {s₀ : Ledger} (h : Filled s₀.limiter 0) {n : Nat}
    (hn : n ≤ kMaximumTrackedClients) :
    Reaches (fun s x => s.limiter.Overflows x) s₀ (s₀.attachAll n) := by
  induction n with
  | zero => exact .refl
  | succ n ih => exact .step _ (ih (by omega)) ((attachAll_filled h (by omega)).meets _)

theorem Reaches.free {meets : Ledger → LeaseStep → Prop} {s₀ s : Ledger} (h : Reaches meets s₀ s) :
    Reaches (fun _ _ => True) s₀ s := by
  induction h with
  | refl => exact .refl
  | step x _ _ ih => exact .step x ih trivial

/-- With the table full, one more address gets the overflow client. -/
theorem Filled.overflows {s : Limiter} (h : Filled s kMaximumTrackedClients) {ip : Ip}
    (hip : ∀ n, ip ≠ address n) :
    s.Purged (s.attach ip 0).clients ∧ (s.attach ip 0).overflowClient = some s.nextClient ∧
      (s.attach ip 0).leases = s.leases.insert s.nextLease (ip, some s.nextClient) := by
  obtain ⟨clients, m, hp, hcase⟩ := Limiter.attachClient_sorted ip 0 h.sharing.rated
  rcases hcase with ⟨id, hid, _⟩ | ⟨_, ⟨_, id, hover, _⟩ | ⟨_, _, heap, heq⟩ | ⟨hroom, _⟩⟩
  · obtain ⟨n, _, hsame⟩ := h.listed _ id hid
    exact absurd hsame (hip n)
  · rw [h.overflow] at hover
    cases hover
  · unfold Limiter.attach
    rw [heq]
    exact ⟨hp, rfl, rfl⟩
  · exact absurd h.crowded.full hroom

/-- A table that was full has room once a lease of one of its addresses is gone. -/
theorem Filled.room {s s' : Limiter} (h : Filled s kMaximumTrackedClients) {ip : Ip} {id : Nat}
    (hip : ∀ n, ip ≠ address n) (hp : s.Purged s'.clients) (hsharing : s'.Sharing)
    (hleases : s'.leases = (s.leases.insert s.nextLease (ip, some id)).erase 0) : ¬ s'.Full := by
  obtain ⟨id₀, hl₀⟩ := h.leased 0 (by decide)
  have hheld : s'.clients.lookup (address 0) = some id₀ := by
    obtain ⟨_, heq, hown | hover⟩ := h.sharing.held 0 _ _ hl₀
    · cases heq
      exact (hp.lookup_iff (Limiter.alive_of_lease hl₀)).mpr hown
    · rw [h.overflow] at hover
      cases hover
  have hgone : ¬ s'.alive id₀ := by
    intro halive
    obtain ⟨lease, hl⟩ := hsharing.leased hheld halive
    have hne : lease ≠ 0 := by
      rintro rfl
      rw [hleases, AList.lookup_erase] at hl
      cases hl
    rw [hleases, AList.lookup_erase_ne hne] at hl
    rcases Table.lookup_insert_eq_some hl with ⟨_, heq⟩ | ⟨_, hl⟩
    · cases heq
      exact hip 0 rfl
    · exact hne (address_injective (h.only lease _ _ hl)).symm
  have hlt : Table.size s'.liveClients < Table.size s'.clients := by
    apply List.length_filter_lt_length_iff_exists.mpr
    exact ⟨⟨address 0, id₀⟩, AList.mem_lookup_iff.mp hheld, by simpa using hgone⟩
  have hsmall := h.small
  have hpurged := hp.1
  unfold Limiter.Full
  omega

/-- An address comes, one of the others goes, and the address comes again. -/
def comeAgain (s : Ledger) : Ledger :=
  ((s.step (.attach ['b'] 0)).step (.release 0)).step (.attach ['b'] 0)

theorem comeAgain_reaches {s₀ s : Ledger} (h : Reaches (fun _ _ => True) s₀ s) :
    Reaches (fun _ _ => True) s₀ s.comeAgain :=
  .step _ (.step _ (.step _ h trivial) trivial) trivial

/-- With the table full at first, the address ends with leases of two clients. -/
theorem Filled.comeAgain {s : Ledger} (h : Filled s.limiter kMaximumTrackedClients) :
    ¬ s.comeAgain.limiter.Shared := by
  obtain ⟨hp, hover, hleases⟩ := h.overflows stranger
  have hfirst := step_sharing h.sharing h.shared (.attach ['b'] 0)
  have hshared : (s.step (.attach ['b'] 0)).limiter.Shared := hfirst.2.mpr (h.meets _)
  have hsecond := step_sharing hfirst.1 hshared (.release 0)
  have hthird := step_sharing hsecond.1 (hsecond.2.mpr trivial) (.attach ['b'] 0)
  have hreleased : ((s.step (.attach ['b'] 0)).step (.release 0)).limiter.leases =
      (s.limiter.leases.insert s.limiter.nextLease (['b'], some s.limiter.nextClient)).erase 0 :=
    congrArg (fun leases => leases.erase 0) hleases
  have hpurged : s.limiter.Purged
      ((s.step (.attach ['b'] 0)).step (.release 0)).limiter.clients := hp
  have hroom := h.room stranger hpurged hsecond.1 hreleased
  have hheld : ((s.step (.attach ['b'] 0)).step (.release 0)).limiter.leases.lookup
      s.limiter.nextLease = some (['b'], some s.limiter.nextClient) := by
    have hne : s.limiter.nextLease ≠ 0 := by
      rw [h.next]
      decide
    rw [hreleased, AList.lookup_erase_ne hne, AList.lookup_insert]
  intro hend
  exact hroom (hthird.2.mp hend ⟨_, _, hheld, hover⟩)

/-- The table is filled, and an address comes again after it had the overflow client. -/
theorem leases_parted :
    ∃ s, Reaches (fun _ _ => True) (configured 0 12500 0) s ∧ ¬ s.limiter.Shared := by
  have hempty := configured_filled 0 (by decide : 12500 ≠ 0) 0
  have hfilled := attachAll_filled hempty (le_refl kMaximumTrackedClients)
  exact ⟨_, comeAgain_reaches (attachAll_reaches hempty le_rfl).free, hfilled.comeAgain⟩

/-- Two addresses come again while the table is full. -/
def bothAgain (s : Ledger) : Ledger :=
  (s.step (.attach ['b'] 0)).step (.attach (address 0) 0)

/-- The one holds the overflow client before, the other its own, and each gets that again. -/
theorem leases_shared_bothAgain :
    ∃ s : Ledger, ∃ overflow own, s.limiter.Full ∧ s.limiter.overflowClient = some overflow ∧
      s.limiter.leases.lookup 256 = some (['b'], some overflow) ∧
      s.limiter.leases.lookup 0 = some (address 0, some own) ∧
      s.bothAgain.limiter.leases.lookup 257 = some (['b'], some overflow) ∧
      s.bothAgain.limiter.leases.lookup 258 = some (address 0, some own) ∧
      s.bothAgain.limiter.Shared := by
  have hempty := configured_filled 0 (by decide : 12500 ≠ 0) 0
  have hreach := attachAll_reaches hempty (le_refl kMaximumTrackedClients)
  have hfilled := attachAll_filled hempty (le_refl kMaximumTrackedClients)
  generalize (configured 0 12500 0).attachAll kMaximumTrackedClients = s at hreach hfilled
  -- the address gets the overflow client, and both come again
  obtain ⟨-, hover, hleases⟩ := hfilled.overflows stranger
  obtain ⟨hcrowded₁, hshared₁, -, -, hnext₁⟩ := hfilled.crowded.step hfilled.shared ['b']
  have hreach₁ := hreach.step (.attach ['b'] 0) (hfilled.meets _)
  have hover : (s.step (.attach ['b'] 0)).limiter.overflowClient = some s.limiter.nextClient := hover
  have hleases : (s.step (.attach ['b'] 0)).limiter.leases = _ := hleases
  have hnext : s.limiter.nextLease = 256 := hfilled.next
  rw [hnext] at hleases hnext₁
  generalize s.step (.attach ['b'] 0) = s₁ at *
  obtain ⟨hcrowded₂, hshared₂, id₂, hleases₂, hnext₂⟩ := hcrowded₁.step hshared₁ ['b']
  obtain ⟨-, -, id₃, hleases₃, -⟩ := hcrowded₂.step hshared₂ (address 0)
  have hreach₃ : Reaches _ _ s₁.bothAgain :=
    (hreach₁.step (.attach ['b'] 0) fun _ => hcrowded₁.full).step (.attach (address 0) 0)
      fun _ => hcrowded₂.full
  have hshared := leases_shared (by decide : 12500 ≠ 0) hreach₃
  rw [hnext₁] at hleases₂ hnext₂
  rw [hleases₂, hnext₂] at hleases₃
  have hall : s₁.bothAgain.limiter.leases = _ := hleases₃
  obtain ⟨own, hown, -⟩ := hcrowded₁.held 0 (by decide)
  have hfirst : s₁.limiter.leases.lookup 256 = some (['b'], some s.limiter.nextClient) := by
    rw [hleases]
    exact AList.lookup_insert _
  have hb := hshared 256 257 ['b'] (some s.limiter.nextClient) (some id₂)
    (by rw [hall, AList.lookup_insert_ne (by decide), AList.lookup_insert_ne (by decide), hfirst])
    (by rw [hall, AList.lookup_insert_ne (by decide), AList.lookup_insert])
  have ha := hshared 0 258 (address 0) (some own) (some id₃)
    (by rw [hall, AList.lookup_insert_ne (by decide), AList.lookup_insert_ne (by decide), hown])
    (by rw [hall, AList.lookup_insert])
  refine ⟨s₁, _, own, hcrowded₁.full, hover, hfirst, hown, ?_, ?_, hshared⟩
  · rw [hall, AList.lookup_insert_ne (by decide), AList.lookup_insert, ← hb]
  · rw [hall, AList.lookup_insert, ← ha]

end Ledger
end FastdlMm.BandwidthLimiter
