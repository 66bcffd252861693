import FastdlMm.Framework.Table
import FastdlMm.Framework.Text
import FastdlMm.Limits.Bucket
import Mathlib.Logic.Function.Basic

namespace FastdlMm.BandwidthLimiter

def kMaximumTrackedClients : Nat := 256

/-- The limiter with the heap its `Client` objects live on and the leases given out. A `weak_ptr` in
`clients` is the client's place on the heap; a lease holds that place, or nothing. -/
structure Limiter where
  global : Bucket
  perIpRate : Nat
  quantum : Nat
  stopping : Bool := false
  clients : Table Ip Nat := ∅
  overflowClient : Option Nat := none
  attachmentsSinceCleanup : Nat := 0
  heap : Nat → Bucket := fun _ => {}
  nextClient : Nat := 0
  leases : Table Nat (Ip × Option Nat) := ∅
  nextLease : Nat := 0

namespace Limiter

/-- A client lives as long as a lease or `overflowClient` holds it. -/
def alive (s : Limiter) (id : Nat) : Prop :=
  s.overflowClient = some id ∨ ∃ e ∈ s.leases.entries, e.2.2 = some id

instance (s : Limiter) (id : Nat) : Decidable (s.alive id) := by
  unfold alive
  infer_instance

def cleanupClients (s : Limiter) : Limiter :=
  { s with clients := s.clients.keep (fun _ id => decide (s.alive id)),
           attachmentsSinceCleanup := 0 }

/-- `make_shared<Client>` and the set-up of its bucket. -/
def makeClient (s : Limiter) (now : Int) : Limiter × Nat :=
  ({ s with heap := Function.update s.heap s.nextClient (configureBucket s.perIpRate s.quantum now)
            nextClient := s.nextClient + 1 }, s.nextClient)

/-- The count of attachments and the cleanup that it triggers. -/
def countAttachment (s : Limiter) : Limiter :=
  let s := { s with attachmentsSinceCleanup := s.attachmentsSinceCleanup + 1 }
  if 64 ≤ s.attachmentsSinceCleanup then s.cleanupClients else s

/-- The client of `ip` that a lease still holds, if any. -/
def tracked (s : Limiter) (ip : Ip) : Option Nat :=
  match s.clients.lookup ip with
  | some id => if s.alive id then some id else none
  | none => none

/-- The client `attach` hands out; a lease without one where no rate is set. -/
def attachClient (s : Limiter) (ip : Ip) (now : Int) : Limiter × Option Nat :=
  if s.perIpRate = 0 then (s, none)
  else
    let s := s.countAttachment
    match s.tracked ip with
    | some id => (s, some id)
    | none =>
        let s := if kMaximumTrackedClients ≤ Table.size s.clients then s.cleanupClients else s
        if kMaximumTrackedClients ≤ Table.size s.clients then
          match s.overflowClient with
          | some id => (s, some id)
          | none =>
              let made := s.makeClient now
              ({ made.1 with overflowClient := some made.2 }, some made.2)
        else
          let made := s.makeClient now
          ({ made.1 with clients := made.1.clients.insert ip made.2 }, some made.2)

def attach (s : Limiter) (ip : Ip) (now : Int) : Limiter :=
  let r := s.attachClient ip now
  { r.1 with leases := r.1.leases.insert r.1.nextLease (ip, r.2), nextLease := r.1.nextLease + 1 }

/-- The end of a `TransferContext`. -/
def release (s : Limiter) (lease : Nat) : Limiter := { s with leases := s.leases.erase lease }

/-- `acquire` on a lease with no other thread in between: what it returns, and the reservation it
made on the bucket of the lease. -/
def acquire (s : Limiter) (client : Option Nat) (desired : Nat) (now : Int) :
    Limiter × Nat × Option Grant :=
  if desired = 0 ∨ s.stopping then (s, 0, none)
  else if s.global.bytesPerSecond = 0 ∧ client = none then (s, desired, none)
  else
    let granted := min desired s.quantum
    let s := { s with global := (reserve s.global granted now).1 }
    match client with
    | none => (s, granted, none)
    | some id =>
        let r := reserve (s.heap id) granted now
        ({ s with heap := Function.update s.heap id r.1 }, granted, some ⟨r.2, granted⟩)

end Limiter

/-- The limiter next to its history: the client that each address was last given, and the
reservations made on the buckets of each address, newest first. -/
structure Ledger where
  limiter : Limiter
  latest : Ip → Option Nat := fun _ => none
  granted : Ip → List Grant := fun _ => []

inductive LeaseStep where
  | attach (ip : Ip) (now : Int)
  | acquire (lease desired : Nat) (now : Int)
  | release (lease : Nat)

namespace Limiter

/-- A table of clients from which some expired entries are gone. -/
def Purged (s : Limiter) (clients : Table Ip Nat) : Prop :=
  Table.size clients ≤ Table.size s.clients ∧
  ∀ ip, clients.lookup ip = s.clients.lookup ip ∨
    (clients.lookup ip = none ∧ ∃ id, s.clients.lookup ip = some id ∧ ¬ s.alive id)

/-- A running limiter grants some of what is asked, whatever its buckets say. -/
theorem acquire_some {s : Limiter} (hs : s.stopping = false) (hq : 0 < s.quantum)
    (client : Option Nat) {desired : Nat} (hd : 0 < desired) (now : Int) :
    0 < (s.acquire client desired now).2.1 ∧ (s.acquire client desired now).2.1 ≤ desired := by
  have hrun : ¬ (desired = 0 ∨ s.stopping = true) := by
    rw [hs]
    simp only [Bool.false_eq_true, or_false]
    omega
  have hgrant : 0 < min desired s.quantum ∧ min desired s.quantum ≤ desired := by omega
  unfold acquire
  rw [if_neg hrun]
  split_ifs
  · exact ⟨hd, le_rfl⟩
  · cases client with
    | none => exact hgrant
    | some id => exact hgrant

theorem alive_iff {s : Limiter} (ho : s.overflowClient = none) (id : Nat) :
    s.alive id ↔ ∃ lease ip, s.leases.lookup lease = some (ip, some id) := by
  constructor
  · intro halive
    cases halive with
    | inl h =>
      rw [ho] at h
      cases h
    | inr h =>
      obtain ⟨⟨lease, ip, client⟩, he, rfl⟩ := h
      exact ⟨lease, ip, AList.mem_lookup_iff.mpr he⟩
  · intro hheld
    obtain ⟨lease, ip, h⟩ := hheld
    exact .inr ⟨⟨lease, ip, some id⟩, AList.mem_lookup_iff.mp h, rfl⟩

/-- A sweep takes all expired entries. -/
theorem purged_keep (s : Limiter) : s.Purged (s.clients.keep (fun _ id => decide (s.alive id))) := by
  refine ⟨Table.size_keep_le _ _, fun ip => ?_⟩
  rw [Table.lookup_keep]
  cases hl : s.clients.lookup ip with
  | none => exact .inl rfl
  | some id =>
    by_cases ha : s.alive id
    · left
      simp only [Option.filter, decide_eq_true_eq]
      exact if_pos ha
    · right
      refine ⟨?_, id, rfl, ha⟩
      simp only [Option.filter, decide_eq_true_eq]
      exact if_neg ha

theorem purged_of_swept {s : Limiter} {clients : Table Ip Nat}
    (h : clients = s.clients ∨ clients = s.clients.keep (fun _ id => decide (s.alive id))) :
    s.Purged clients := by
  cases h with
  | inl heq =>
    rw [heq]
    exact ⟨le_rfl, fun _ => .inl rfl⟩
  | inr heq =>
    rw [heq]
    exact s.purged_keep

/-- The first sweep of `attach` takes all expired entries or none. -/
theorem countAttachment_eq (s : Limiter) : ∃ clients n,
    (clients = s.clients ∨ clients = s.clients.keep (fun _ id => decide (s.alive id))) ∧
      s.countAttachment = { s with clients := clients, attachmentsSinceCleanup := n } := by
  unfold countAttachment
  simp only
  split_ifs
  · exact ⟨_, _, .inr rfl, rfl⟩
  · exact ⟨_, _, .inl rfl, rfl⟩

theorem tracked_eq_some {s : Limiter} {ip : Ip} {id : Nat} :
    s.tracked ip = some id ↔ s.clients.lookup ip = some id ∧ s.alive id := by
  unfold tracked
  cases s.clients.lookup ip with
  | none => simp
  | some id' =>
    by_cases ha : s.alive id'
    · simp only [if_pos ha, Option.some.injEq]
      constructor
      · rintro rfl
        exact ⟨rfl, ha⟩
      · exact fun h => h.1
    · simp only [if_neg ha, Option.some.injEq]
      constructor
      · intro h
        cases h
      · rintro ⟨rfl, halive⟩
        exact absurd halive ha

/-- A purge keeps what is alive and adds nothing. -/
theorem Purged.lookup_iff {s : Limiter} {clients : Table Ip Nat} (hp : s.Purged clients) {ip : Ip}
    {id : Nat} (ha : s.alive id) :
    clients.lookup ip = some id ↔ s.clients.lookup ip = some id := by
  rcases hp.2 ip with hsame | ⟨hnone, id', hid', hdead⟩
  · rw [hsame]
  · rw [hnone, hid']
    constructor
    · intro h
      cases h
    · intro h
      cases h
      exact absurd ha hdead

/-- While the table has room, `attach` hands out the address's client if a lease holds it, and else
a client of its own that is made now. -/
theorem attachClient_cases {s : Limiter} (ip : Ip) (now : Int) (hr : s.perIpRate ≠ 0)
    (hroom : Table.size s.clients < kMaximumTrackedClients) :
    ∃ clients n, s.Purged clients ∧
      ((∃ id, s.clients.lookup ip = some id ∧ clients.lookup ip = some id ∧
          s.attachClient ip now =
            ({ s with clients := clients, attachmentsSinceCleanup := n }, some id)) ∨
        ((∀ id, s.clients.lookup ip = some id → ¬ s.alive id) ∧
          s.attachClient ip now =
            ({ s with clients := clients.insert ip s.nextClient, attachmentsSinceCleanup := n,
                      heap := Function.update s.heap s.nextClient
                        (configureBucket s.perIpRate s.quantum now),
                      nextClient := s.nextClient + 1 }, some s.nextClient))) := by
  obtain ⟨clients, n, hswept, hcount⟩ := s.countAttachment_eq
  have hp : s.Purged clients := purged_of_swept hswept
  refine ⟨clients, n, hp, ?_⟩
  have hlt : ¬ kMaximumTrackedClients ≤ Table.size clients := by
    have := hp.1
    omega
  unfold attachClient
  rw [if_neg hr]
  simp only [hcount]
  cases ht : tracked { s with clients := clients, attachmentsSinceCleanup := n } ip with
  | some id =>
    obtain ⟨hl, halive⟩ := tracked_eq_some.mp ht
    have halive : s.alive id := halive
    exact .inl ⟨id, (hp.lookup_iff halive).mp hl, hl, rfl⟩
  | none =>
    right
    refine ⟨fun id hid halive => ?_, ?_⟩
    · have hsome : tracked { s with clients := clients, attachmentsSinceCleanup := n } ip =
          some id := tracked_eq_some.mpr ⟨(hp.lookup_iff halive).mpr hid, halive⟩
      rw [ht] at hsome
      cases hsome
    · simp only [if_neg hlt, makeClient]

end Limiter

namespace Ledger

/-- One step of one of the threads that serve responses. -/
def step (s : Ledger) : LeaseStep → Ledger
  | .attach ip now =>
      { s with limiter := s.limiter.attach ip now
               latest := Function.update s.latest ip (s.limiter.attachClient ip now).2 }
  | .acquire lease desired now =>
      match s.limiter.leases.lookup lease with
      | none => s
      | some (ip, client) =>
          let r := s.limiter.acquire client desired now
          { s with limiter := r.1
                   granted := Function.update s.granted ip (r.2.2.toList ++ s.granted ip) }
  | .release lease => { s with limiter := s.limiter.release lease }

/-- A limiter right after `configure`. -/
def configured (globalRate perIpRate : Nat) (now : Int) : Ledger where
  limiter :=
    { global := configureBucket globalRate (quantumFor globalRate perIpRate) now
      perIpRate := perIpRate
      quantum := quantumFor globalRate perIpRate }

/-- The runs whose every step meets a condition on the state it starts from. -/
inductive Reaches (meets : Ledger → LeaseStep → Prop) (s₀ : Ledger) : Ledger → Prop
  | refl : Reaches meets s₀ s₀
  | step {s : Ledger} (x : LeaseStep) : Reaches meets s₀ s → meets s x →
      Reaches meets s₀ (s.step x)

end Ledger
end FastdlMm.BandwidthLimiter
