import FastdlMm.Framework.Words

namespace FastdlMm

inductive TransferOutcome where
  | completed
  | aborted
  | timedOut
  | failed
  deriving DecidableEq

def kWindowSeconds : Nat := 10

/-- `std::numeric_limits<std::uint64_t>::max()`. -/
def uint64Max : Nat := 18446744073709551615

/-- The bytes supplied in one second. -/
structure Bucket where
  second : Int := -1
  bytes : Nat := 0
  deriving DecidableEq

/-- Counters of 64 bits. Each call is one step here: the counters it changes are atomic. -/
structure TransferMetrics where
  requests : Nat := 0
  active : Nat := 0
  completed : Nat := 0
  aborted : Nat := 0
  timedOut : Nat := 0
  failed : Nat := 0
  transferredBytes : Nat := 0
  buckets : List Bucket := List.replicate kWindowSeconds {}
  startedSecond : Int := -1

/-- The throughput is the exact quotient here, a `double` in the code. -/
structure TransferStats where
  requests : Nat
  active : Nat
  completed : Nat
  aborted : Nat
  timedOut : Nat
  failed : Nat
  transferredBytes : Nat
  throughputBitsPerSecond : Rat

def saturatingAdd (value amount : Nat) : Nat :=
  if wrapSub 64 uint64Max value < amount then uint64Max else value + amount

theorem saturatingAdd_eq {value : Nat} (h : value ≤ uint64Max) (amount : Nat) :
    saturatingAdd value amount = min (value + amount) uint64Max := by
  have hsub : wrapSub 64 uint64Max value = uint64Max - value := wrapSub_of_le h (by decide)
  rw [saturatingAdd, hsub]
  split_ifs <;> omega

/-- Counting one more is exact until the counter is full. -/
theorem saturatingAdd_one {value : Nat} (h : value < uint64Max) :
    saturatingAdd value 1 = value + 1 := by
  have hmax : uint64Max < 2 ^ 64 := by decide
  have hsub : wrapSub 64 uint64Max value = uint64Max - value :=
    wrapSub_of_le (Nat.le_of_lt h) hmax
  rw [saturatingAdd, hsub, if_neg (by omega)]

namespace TransferMetrics

def reset (now : Int) : TransferMetrics := { startedSecond := now }

def requestStarted (m : TransferMetrics) : TransferMetrics :=
  { m with requests := saturatingAdd m.requests 1 }

def transferStarted (m : TransferMetrics) : TransferMetrics :=
  { m with active := saturatingAdd m.active 1 }

/-- The bucket of a second is emptied when the second is new to it. -/
def bytesSupplied (m : TransferMetrics) (bytes : Nat) (second : Int) : TransferMetrics :=
  if bytes = 0 then m
  else
    let index := (second % 2 ^ sizeBits).toNat % m.buckets.length
    let bucket := m.buckets.getD index {}
    let fresh := if bucket.second = second then bucket else { second := second, bytes := 0 }
    { m with
      transferredBytes := saturatingAdd m.transferredBytes bytes
      buckets := m.buckets.set index { fresh with bytes := saturatingAdd fresh.bytes bytes } }

def failure (m : TransferMetrics) : TransferMetrics := { m with failed := saturatingAdd m.failed 1 }

def transferFinished (m : TransferMetrics) (outcome : TransferOutcome) : TransferMetrics :=
  let m := { m with active := wrapSub 64 m.active 1 }
  match outcome with
  | .completed => { m with completed := saturatingAdd m.completed 1 }
  | .aborted => { m with aborted := saturatingAdd m.aborted 1 }
  | .timedOut => { m with timedOut := saturatingAdd m.timedOut 1 }
  | .failed => m.failure

/-- The bytes in the buckets of the last seconds. -/
def recentBytes (m : TransferMetrics) (now : Int) : Nat :=
  m.buckets.foldl (fun recentBytes bucket =>
    if bucket.second ≤ now ∧ now - kWindowSeconds < bucket.second then
      saturatingAdd recentBytes bucket.bytes
    else recentBytes) 0

/-- The seconds that the throughput is taken over. -/
def window (m : TransferMetrics) (now : Int) : Int :=
  let elapsed := if m.startedSecond < 0 then 1 else max 1 (now - m.startedSecond + 1)
  min kWindowSeconds elapsed

def snapshot (m : TransferMetrics) (now : Int) : TransferStats where
  requests := m.requests
  active := m.active
  completed := m.completed
  aborted := m.aborted
  timedOut := m.timedOut
  failed := m.failed
  transferredBytes := m.transferredBytes
  throughputBitsPerSecond := (m.recentBytes now : Rat) * 8 / (m.window now : Rat)

/-- No counter of the transfers is full. -/
structure Unsaturated (m : TransferMetrics) : Prop where
  active : m.active < uint64Max
  completed : m.completed < uint64Max
  aborted : m.aborted < uint64Max
  timedOut : m.timedOut < uint64Max
  failed : m.failed < uint64Max

/-- The transfers that have ended. -/
def finished (m : TransferMetrics) : Nat := m.completed + m.aborted + m.timedOut + m.failed

theorem transferStarted_active {m : TransferMetrics} (h : m.Unsaturated) :
    m.transferStarted.active = m.active + 1 := saturatingAdd_one h.active

theorem failure_failed {m : TransferMetrics} (h : m.Unsaturated) :
    m.failure.failed = m.failed + 1 := saturatingAdd_one h.failed

/-- The end of one transfer is counted once, and nothing wraps as long as one is active. -/
theorem transferFinished_counts {m : TransferMetrics} (h : m.Unsaturated) (hpos : 0 < m.active)
    (outcome : TransferOutcome) :
    (m.transferFinished outcome).active + 1 = m.active ∧
      (m.transferFinished outcome).finished = m.finished + 1 ∧
      m.failed ≤ (m.transferFinished outcome).failed ∧
      (m.transferFinished outcome).completed =
        m.completed + (if outcome = .completed then 1 else 0) := by
  have hmax : m.active < 2 ^ 64 := Nat.lt_trans h.active (by decide)
  have hactive : wrapSub 64 m.active 1 = m.active - 1 := wrapSub_of_le hpos hmax
  have hcompleted := saturatingAdd_one h.completed
  have haborted := saturatingAdd_one h.aborted
  have htimedOut := saturatingAdd_one h.timedOut
  have hfailed := saturatingAdd_one h.failed
  cases outcome <;>
    simp only [transferFinished, failure, finished, hactive, hcompleted, haborted, htimedOut,
      hfailed, reduceCtorEq, if_true, if_false] <;>
    refine ⟨by omega, by omega, by omega, ?_⟩ <;>
    simp

end TransferMetrics
end FastdlMm
