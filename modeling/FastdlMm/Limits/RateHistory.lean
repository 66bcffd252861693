import FastdlMm.Limits.RateTable
import Mathlib.Data.Int.Order.Basic

namespace FastdlMm.RateLimiter

inductive Call where
  | blocked (ip : Ip)
  | requestExceeded (ip : Ip) (limit : Nat)
  | recordDenial (ip : Ip) (limit blockSeconds : Nat)
  | unblock (ip : Ip)
  | clear

inductive Reply where
  | flag (b : Bool)
  | denial (outcome : DenialOutcome)
  | done

def perform (s : State) (now : Int) : Call → State × Reply
  | .blocked ip => ((blocked s ip now).1, .flag (blocked s ip now).2)
  | .requestExceeded ip limit =>
      ((requestExceeded s ip limit now).1, .flag (requestExceeded s ip limit now).2)
  | .recordDenial ip limit blockSeconds =>
      ((recordDenial s ip limit blockSeconds now).1,
        .denial (recordDenial s ip limit blockSeconds now).2)
  | .unblock ip => ((unblock s ip).1, .flag (unblock s ip).2)
  | .clear => (clear s, .done)

structure Record where
  now : Int
  call : Call
  reply : Reply

/-- Any sequence of calls under a steady clock: readings start at the epoch and never go back.
The history is kept newest first; the last index is the latest reading. -/
inductive Run : State → List Record → Int → Prop
  | start : Run {} [] 0
  | call {s : State} {h : List Record} {t : Int} (now : Int) (c : Call) :
      Run s h t → t ≤ now → Run (perform s now c).1 (⟨now, c, (perform s now c).2⟩ :: h) now

namespace Record

/-- `unblock(ip)` and `clear` start the history of an address afresh. -/
@[simp] def resets (ip : Ip) : Record → Bool
  | ⟨_, .unblock ip', _⟩ => decide (ip' = ip)
  | ⟨_, .clear, _⟩ => true
  | _ => false

@[simp] def admits (ip : Ip) : Record → Bool
  | ⟨_, .requestExceeded ip' _, .flag false⟩ => decide (ip' = ip)
  | _ => false

@[simp] def notes (ip : Ip) : Record → Bool
  | ⟨_, .recordDenial ip' _ _, .denial .recorded⟩ => decide (ip' = ip)
  | _ => false

@[simp] def triggers (ip : Ip) : Record → Bool
  | ⟨_, .recordDenial ip' _ _, .denial .triggered⟩ => decide (ip' = ip)
  | _ => false

/-- A triggered block starts the count of denials afresh, as a reset does. -/
@[simp] def restarts (ip : Ip) (r : Record) : Bool := r.resets ip || r.triggers ip

end Record

/-- The times of the picked records since the last stopping one, oldest first. -/
def timesSince (stop pick : Record → Bool) (h : List Record) : List Int :=
  ((h.takeWhile (fun r => !stop r)).filter pick).reverse.map Record.now

theorem timesSince_cons (stop pick : Record → Bool) (r : Record) (h : List Record) :
    timesSince stop pick (r :: h) =
      if stop r then [] else
        timesSince stop pick h ++ (if pick r then [r.now] else []) := by
  cases hs : stop r <;> cases hp : pick r <;> simp [timesSince, hs, hp]

/-- When requests of `ip` were let through since its last `unblock` or `clear`. -/
def admittedSince (ip : Ip) : List Record → List Int :=
  timesSince (Record.resets ip) (Record.admits ip)

/-- When blocks of `ip` were triggered since its last `unblock` or `clear`. -/
def triggeredSince (ip : Ip) : List Record → List Int :=
  timesSince (Record.resets ip) (Record.triggers ip)

/-- When denials of `ip` were recorded since its last trigger, `unblock` or `clear`. -/
def deniedSince (ip : Ip) : List Record → List Int :=
  timesSince (Record.restarts ip) (Record.notes ip)

/-- The times of a log that lie in `(now - 60 s, now]`. -/
def lastMinute (now : Int) (log : List Int) : List Int :=
  log.filter (fun v => decide (now - minutes 1 < v ∧ v ≤ now))

/-- What a client entry owes to the logs of its address: its queues hold everything that still
counts, and nothing in them is later than `lastSeen`. -/
structure Agrees (t : Int) (admitted denied : List Int) (c : Client) : Prop where
  requests : Tracks (t - minutes 1) t admitted c.requests
  denials : Tracks (t - minutes 1) t denied c.denials
  seenRequests : ∀ v ∈ c.requests, v ≤ c.lastSeen
  seenDenials : ∀ v ∈ c.denials, v ≤ c.lastSeen

namespace Agrees

variable {t now : Int} {adm den : List Int} {c c' : Client}

theorem fresh : Agrees t [] [] {} := ⟨Tracks.nil, Tracks.nil, by simp, by simp⟩

theorem advance (h : Agrees t adm den c) (ht : t ≤ now) : Agrees now adm den c :=
  ⟨h.requests.advance (by omega) ht, h.denials.advance (by omega) ht, h.seenRequests,
    h.seenDenials⟩

/-- A stale client saw its last event a quarter of an hour ago, so dropping it loses no event
of the last minute. -/
theorem evict (h : Agrees now adm den c) (he : Evicts now c c') : Agrees now adm den c' := by
  rcases he with rfl | ⟨rfl, hst⟩
  · exact h
  · have hold : c.lastSeen < now - minutes 15 := by
      simp only [stale, Bool.and_eq_true, decide_eq_true_eq] at hst
      exact hst.1
    have hgap : now - minutes 15 ≤ now - minutes 1 := by simp only [minutes, seconds]; omega
    refine ⟨h.requests.forget fun v hv => ?_, h.denials.forget fun v hv => ?_, by simp, by simp⟩
    · have := h.seenRequests v hv
      omega
    · have := h.seenDenials v hv
      omega

theorem trim_eq {q log : List Int} (h : Tracks (now - minutes 1) now log q) :
    (trim q (now - minutes 1)).1 = after (now - minutes 1) q := by
  rw [trim_fst, dropWhile_eq_after _ h.sorted]

theorem reject (h : Agrees now adm den c) :
    Agrees now adm den
      { c with lastSeen := now, requests := (trim c.requests (now - minutes 1)).1 } := by
  rw [trim_eq h.requests]
  exact ⟨h.requests.trim, h.denials, h.requests.trim.bound, h.denials.bound⟩

theorem letThrough (h : Agrees now adm den c) :
    Agrees now (adm ++ [now]) den
      { c with lastSeen := now, requests := (trim c.requests (now - minutes 1)).1 ++ [now] } := by
  rw [trim_eq h.requests]
  exact ⟨h.requests.trim.push, h.denials, h.requests.trim.push.bound, h.denials.bound⟩

theorem note (h : Agrees now adm den c) :
    Agrees now adm (den ++ [now])
      { c with lastSeen := now, denials := (trim c.denials (now - minutes 1)).1 ++ [now] } := by
  rw [trim_eq h.denials]
  exact ⟨h.requests, h.denials.trim.push, h.requests.bound, h.denials.trim.push.bound⟩

theorem trigger (h : Agrees now adm den c) (b : Int) :
    Agrees now adm [] { c with lastSeen := now, denials := [], blockedUntil := b } :=
  ⟨h.requests, Tracks.nil, h.requests.bound, by simp⟩

end Agrees
end FastdlMm.RateLimiter
