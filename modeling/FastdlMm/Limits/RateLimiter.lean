import FastdlMm.Framework.Table
import FastdlMm.Framework.Text
import FastdlMm.Framework.Words

namespace FastdlMm.RateLimiter

def seconds (n : Nat) : Int := (n : Int) * 1000000000
def minutes (n : Nat) : Int := seconds (60 * n)

/-- A `Clock::time_point` is its nanoseconds since the clock's epoch; `time_point{}` is 0. -/
structure Client where
  requests : List Int := []
  denials : List Int := []
  blockedUntil : Int := 0
  lastSeen : Int := 0
  deriving DecidableEq

def kMaximumClients : Nat := 1024
def kMaximumEvents : Nat := 131072

structure State where
  clients : Table Ip Client := ∅
  nextCleanup : Int := 0
  eventCount : Nat := 0

/-- Pops the front while it is at or before the cutoff; also returns how many were popped. -/
def trim : List Int → Int → List Int × Nat
  | [], _ => ([], 0)
  | v :: vs, cutoff =>
      if v ≤ cutoff then ((trim vs cutoff).1, (trim vs cutoff).2 + 1) else (v :: vs, 0)

/-- The clients `cleanup` erases: unseen for a quarter of an hour and not blocked. -/
def stale (now : Int) (c : Client) : Bool :=
  decide (c.lastSeen < now - minutes 15) && decide (c.blockedUntil ≤ now)

def cleanup (s : State) (now : Int) (force : Bool := false) : State :=
  if !force && s.nextCleanup ≠ 0 && now < s.nextCleanup then s
  else
    { clients := s.clients.keep (fun _ c => !stale now c)
      eventCount := s.clients.entries.foldl
        (fun n e => if stale now e.2 then
          wrapSub sizeBits n (e.2.requests.length + e.2.denials.length) else n) s.eventCount
      nextCleanup := now + minutes 10 }

/-- The table when a new client needs a place: a forced cleanup if it is full. -/
def makeRoom (s : State) (now : Int) : State :=
  if kMaximumClients ≤ Table.size s.clients then cleanup s now true else s

/-- `nullptr` is `none`; otherwise the entry of `ip`, which the returned table holds. -/
def findOrCreate (s : State) (ip : Ip) (now : Int) : State × Option Client :=
  match s.clients.lookup ip with
  | some c => (s, some c)
  | none =>
      let s := makeRoom s now
      if kMaximumClients ≤ Table.size s.clients then (s, none)
      else ({ s with clients := s.clients.insert ip {} }, some {})

def blocked (s : State) (ip : Ip) (now : Int) : State × Bool :=
  let s := cleanup s now
  (s, match s.clients.lookup ip with
    | some c => decide (now < c.blockedUntil)
    | none => false)

def requestExceeded (s : State) (ip : Ip) (limit : Nat) (now : Int) : State × Bool :=
  let s := cleanup s now
  if limit = 0 then (s, true)
  else
    match findOrCreate s ip now with
    | (s, none) => (s, true)
    | (s, some client) =>
        let trimmed := trim client.requests (now - minutes 1)
        let client := { client with lastSeen := now, requests := trimmed.1 }
        let eventCount := wrapSub sizeBits s.eventCount trimmed.2
        if limit ≤ client.requests.length ∨ kMaximumEvents ≤ eventCount then
          ({ s with clients := s.clients.insert ip client, eventCount := eventCount }, true)
        else
          let client := { client with requests := client.requests ++ [now] }
          ({ s with clients := s.clients.insert ip client
                    eventCount := wrapAdd sizeBits eventCount 1 }, false)

/-- Which path a `recordDenial` call took: no table entry, a denial noted, or a block set. -/
inductive DenialOutcome where
  | untracked
  | recorded
  | triggered
  deriving DecidableEq

def recordDenial (s : State) (ip : Ip) (limit blockSeconds : Nat) (now : Int) :
    State × DenialOutcome :=
  let s := cleanup s now
  match findOrCreate s ip now with
  | (s, none) => (s, .untracked)
  | (s, some client) =>
      let trimmed := trim client.denials (now - minutes 1)
      let client := { client with lastSeen := now, denials := trimmed.1 }
      let eventCount := wrapSub sizeBits s.eventCount trimmed.2
      if kMaximumEvents ≤ eventCount then
        let eventCount := wrapSub sizeBits eventCount client.denials.length
        let client := { client with denials := [], blockedUntil := now + seconds blockSeconds }
        ({ s with clients := s.clients.insert ip client, eventCount := eventCount }, .triggered)
      else
        let client := { client with denials := client.denials ++ [now] }
        let eventCount := wrapAdd sizeBits eventCount 1
        if limit = 0 ∨ limit ≤ client.denials.length then
          let eventCount := wrapSub sizeBits eventCount client.denials.length
          let client := { client with denials := [], blockedUntil := now + seconds blockSeconds }
          ({ s with clients := s.clients.insert ip client, eventCount := eventCount }, .triggered)
        else
          ({ s with clients := s.clients.insert ip client, eventCount := eventCount }, .recorded)

def unblock (s : State) (ip : Ip) : State × Bool :=
  match s.clients.lookup ip with
  | none => (s, false)
  | some c =>
      ({ s with clients := s.clients.erase ip
                eventCount := wrapSub sizeBits s.eventCount
                  (c.requests.length + c.denials.length) }, true)

def clear (s : State) : State := { s with clients := ∅, nextCleanup := 0, eventCount := 0 }

end FastdlMm.RateLimiter
