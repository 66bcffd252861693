import FastdlMm.Framework.Conformance
import FastdlMm.Framework.Words

namespace FastdlMm.BandwidthLimiter

def kNanosecondsPerSecond : Nat := 1000000000
def kMinimumQuantum : Nat := 1024
def kMaximumQuantum : Nat := 16 * 1024
def kMaximumBurstBytes : Nat := 256 * 1024

/-- Times are `std::int64_t` nanoseconds of the steady clock; rates are bytes per second. -/
structure Bucket where
  bytesPerSecond : Nat := 0
  burstNanoseconds : Int := 0
  theoreticalArrival : Int := 0
  deriving DecidableEq

def durationFor (bytes rate : Nat) : Int :=
  if rate = 0 ∨ bytes = 0 then 0
  else
    let whole := bytes / rate
    let remainder := bytes % rate
    let fractional := if remainder = 0 then 0
      else wrapSub 64 (wrapAdd 64 (wrapMul 64 remainder kNanosecondsPerSecond) rate) 1 / rate
    if int64Max / kNanosecondsPerSecond < whole ∨
        wrapSub 64 int64Max fractional < wrapMul 64 whole kNanosecondsPerSecond then int64Max
    else wrapAdd 64 (wrapMul 64 whole kNanosecondsPerSecond) fractional

/-- The quantum that `configure` derives from the two rates, 0 standing for no limit. -/
def quantumFor (globalRate perIpRate : Nat) : Nat :=
  let controllingRate :=
    if globalRate = 0 ∨ (perIpRate ≠ 0 ∧ perIpRate < globalRate) then perIpRate else globalRate
  if controllingRate = 0 then 64 * 1024
  else max kMinimumQuantum (min kMaximumQuantum (controllingRate / 20))

def configureBucket (rate quantum : Nat) (now : Int) : Bucket :=
  let burstBytes := max quantum (min kMaximumBurstBytes (rate / 10))
  { bytesPerSecond := rate, burstNanoseconds := durationFor burstBytes rate,
    theoreticalArrival := now }

/-- One round of the loop in `reserve`: from the arrival time it loaded, the time the bytes are
allowed at and the arrival time it tries to store. -/
def reserveRound (b : Bucket) (bytes : Nat) (now previous : Int) : Int × Int :=
  let duration := durationFor bytes b.bytesPerSecond
  let earliest := if b.burstNanoseconds < previous then previous - b.burstNanoseconds else 0
  let allowed := max now earliest
  let base := max previous allowed
  (allowed, if (int64Max : Int) - duration < base then int64Max else base + duration)

/-- `reserve` with no other thread at the bucket: the first exchange succeeds. -/
def reserve (b : Bucket) (bytes : Nat) (now : Int) : Bucket × Int :=
  if b.bytesPerSecond = 0 then (b, now)
  else
    let round := reserveRound b bytes now b.theoreticalArrival
    ({ b with theoreticalArrival := round.2 }, round.1)

theorem durationFor_nonneg (bytes rate : Nat) : 0 ≤ durationFor bytes rate := by
  unfold durationFor
  simp only
  split_ifs <;> exact Int.natCast_nonneg _

private theorem fractional_le {remainder rate : Nat} (h : remainder < rate) :
    (remainder * kNanosecondsPerSecond + rate - 1) / rate ≤ kNanosecondsPerSecond := by
  have hr : 0 < rate := by omega
  have hlt : remainder * kNanosecondsPerSecond + rate - 1 <
      rate * (kNanosecondsPerSecond + 1) := by
    have := Nat.mul_le_mul_right kNanosecondsPerSecond h.le
    rw [Nat.mul_add]
    omega
  exact Nat.lt_succ_iff.mp (Nat.div_lt_of_lt_mul hlt)

/-- Without a wrap in its rounding term `durationFor` is whole seconds plus a rounded-up rest. -/
theorem durationFor_eq {bytes rate : Nat} (hr : 0 < rate) (hb : bytes < 2 ^ sizeBits)
    (hw : bytes % rate * kNanosecondsPerSecond + rate ≤ 2 ^ 64) :
    durationFor bytes rate = ((bytes / rate * kNanosecondsPerSecond +
      (bytes % rate * kNanosecondsPerSecond + rate - 1) / rate : Nat) : Int) := by
  have hrem : bytes % rate < rate := Nat.mod_lt _ hr
  have hwhole : bytes / rate < 2 ^ sizeBits := (Nat.div_le_self _ _).trans_lt hb
  have hfrac := fractional_le hrem
  have hround : wrapSub 64 (wrapAdd 64 (wrapMul 64 (bytes % rate) kNanosecondsPerSecond) rate) 1 =
      bytes % rate * kNanosecondsPerSecond + rate - 1 := by
    rw [wrapMul_of_lt (by omega), wrapSub_wrapAdd (by omega) (by omega)]
  have hfracEq : (if bytes % rate = 0 then 0 else
      wrapSub 64 (wrapAdd 64 (wrapMul 64 (bytes % rate) kNanosecondsPerSecond) rate) 1 / rate) =
        (bytes % rate * kNanosecondsPerSecond + rate - 1) / rate := by
    split_ifs with h0
    · rw [h0, zero_mul, zero_add, Nat.div_eq_of_lt (by omega)]
    · rw [hround]
  generalize hf : (bytes % rate * kNanosecondsPerSecond + rate - 1) / rate = fractional at *
  simp only [kNanosecondsPerSecond, sizeBits] at *
  unfold durationFor
  simp only [kNanosecondsPerSecond, hfracEq]
  have hsub : wrapSub 64 int64Max fractional = int64Max - fractional :=
    wrapSub_of_le (by simp only [int64Max]; omega) (by simp only [int64Max]; omega)
  have hmul : wrapMul 64 (bytes / rate) 1000000000 = bytes / rate * 1000000000 :=
    wrapMul_of_lt (by omega)
  have hsum : wrapAdd 64 (bytes / rate * 1000000000) fractional =
      bytes / rate * 1000000000 + fractional := wrapAdd_of_lt (by omega)
  rw [hsub, hmul, hsum]
  split_ifs with hzero hbig
  · rcases hzero with hzero | hzero
    · omega
    · subst hzero
      rw [← hf, Nat.zero_div, Nat.zero_mod, Nat.zero_mul, Nat.zero_add, Nat.zero_add,
        Nat.div_eq_of_lt (by omega), Nat.cast_zero]
  · simp only [int64Max] at hbig
    omega
  · rfl

/-- It is then at least the exact time the bytes take. -/
theorem durationFor_covers {bytes rate : Nat} (hr : 0 < rate) (hb : bytes < 2 ^ sizeBits)
    (hw : bytes % rate * kNanosecondsPerSecond + rate ≤ 2 ^ 64) :
    (bytes : Int) * kNanosecondsPerSecond ≤ rate * durationFor bytes rate := by
  rw [durationFor_eq hr hb hw]
  have hdiv := Nat.div_add_mod bytes rate
  have hceil : bytes % rate * kNanosecondsPerSecond ≤
      rate * ((bytes % rate * kNanosecondsPerSecond + rate - 1) / rate) := by
    have := Nat.div_add_mod (bytes % rate * kNanosecondsPerSecond + rate - 1) rate
    have := Nat.mod_lt (bytes % rate * kNanosecondsPerSecond + rate - 1) hr
    omega
  have hnat : bytes * kNanosecondsPerSecond ≤ rate * (bytes / rate * kNanosecondsPerSecond +
      (bytes % rate * kNanosecondsPerSecond + rate - 1) / rate) := by
    calc bytes * kNanosecondsPerSecond
        = (rate * (bytes / rate) + bytes % rate) * kNanosecondsPerSecond := by rw [hdiv]
      _ = rate * (bytes / rate * kNanosecondsPerSecond) + bytes % rate * kNanosecondsPerSecond := by
          rw [Nat.add_mul, Nat.mul_assoc]
      _ ≤ _ := by rw [Nat.mul_add]; exact Nat.add_le_add_left hceil _
  exact_mod_cast hnat

theorem reserveRound_early (b : Bucket) (bytes : Nat) (now previous : Int) :
    previous - b.burstNanoseconds ≤ (reserveRound b bytes now previous).1 := by
  have hmax := le_max_right now
    (if b.burstNanoseconds < previous then previous - b.burstNanoseconds else 0)
  simp only [reserveRound]
  split_ifs at hmax ⊢ <;> omega

/-- A round that does not saturate moves the arrival time on by the duration of its bytes. -/
theorem reserveRound_next {b : Bucket} {bytes : Nat} {now previous : Int}
    (h : (reserveRound b bytes now previous).2 < int64Max) :
    (reserveRound b bytes now previous).2 =
      max previous (reserveRound b bytes now previous).1 +
        durationFor bytes b.bytesPerSecond := by
  simp only [reserveRound] at h ⊢
  generalize (if b.burstNanoseconds < previous then previous - b.burstNanoseconds else 0) = e at *
  split_ifs at h ⊢
  · exact absurd h (lt_irrefl _)
  · rfl

/-- A reservation a bucket made: the time it is allowed at, and its bytes. -/
structure Grant where
  allowed : Int
  bytes : Nat
  deriving DecidableEq

/-- The bytes granted with an allowed time in `[s, t]`. -/
def bytesWithin (s t : Int) (log : List Grant) : Nat :=
  ((log.filter (fun g => decide (s ≤ g.allowed ∧ g.allowed ≤ t))).map Grant.bytes).sum

def Grant.booking (rate : Nat) (g : Grant) : Booking Int :=
  { allowed := g.allowed, cost := durationFor g.bytes rate, weight := g.bytes }

theorem weightWithin_bookings (rate : Nat) (s t : Int) (log : List Grant) :
    weightWithin s t (log.map (Grant.booking rate)) = bytesWithin s t log := by
  induction log with
  | nil => rfl
  | cons g log ih =>
    rw [List.map_cons, weightWithin_cons, ih]
    by_cases hw : s ≤ g.allowed ∧ g.allowed ≤ t <;> simp [bytesWithin, Grant.booking, hw]

/-- The grants of a bucket under its arrival time, as long as that has not saturated. -/
def Bucket.Booked (b : Bucket) (log : List Grant) : Prop :=
  b.theoreticalArrival < int64Max →
    Conforms b.burstNanoseconds b.theoreticalArrival (log.map (Grant.booking b.bytesPerSecond))

theorem Bucket.Booked.fresh (b : Bucket) : b.Booked [] := fun _ => Conforms.start _

/-- Storing the arrival time of a round books its grant. -/
theorem Bucket.Booked.exchange {b : Bucket} {log : List Grant} (h : b.Booked log) (bytes : Nat)
    (now : Int) :
    Bucket.Booked
      { b with theoreticalArrival := (reserveRound b bytes now b.theoreticalArrival).2 }
      (⟨(reserveRound b bytes now b.theoreticalArrival).1, bytes⟩ :: log) := by
  intro hlt
  have hnext := reserveRound_next hlt
  have hcost := durationFor_nonneg bytes b.bytesPerSecond
  have hprev : b.theoreticalArrival < int64Max := by
    have := le_max_left b.theoreticalArrival
      (reserveRound b bytes now b.theoreticalArrival).1
    simp only at hlt
    omega
  have hbook := Conforms.book
    (Grant.booking b.bytesPerSecond ⟨(reserveRound b bytes now b.theoreticalArrival).1, bytes⟩)
    (h hprev) (reserveRound_early b bytes now _) hcost
  simp only [Grant.booking] at hbook
  rw [← hnext] at hbook
  exact hbook

/-- The rate and quantum at which no duration of a reservation wraps. -/
def Unwrapped (rate quantum : Nat) : Prop :=
  ∀ bytes, bytes ≤ quantum → bytes % rate * kNanosecondsPerSecond + rate ≤ 2 ^ 64

theorem Unwrapped.of_le {rate quantum : Nat} (hr : 0 < rate)
    (h : min rate quantum * kNanosecondsPerSecond + rate ≤ 2 ^ 64) : Unwrapped rate quantum := by
  intro bytes hb
  have hrate : bytes % rate ≤ rate := (Nat.mod_lt _ hr).le
  have hquantum : bytes % rate ≤ quantum := (Nat.mod_le _ _).trans hb
  have hmul := Nat.mul_le_mul_right kNanosecondsPerSecond (le_min hrate hquantum)
  omega

theorem quantumFor_le (globalRate perIpRate : Nat) : quantumFor globalRate perIpRate ≤ 64 * 1024 := by
  simp only [quantumFor, kMinimumQuantum, kMaximumQuantum]
  split_ifs <;> omega

/-- The bytes a bucket grants in any window keep to its rate, its burst and one quantum. -/
theorem bytesWithin_le {rate quantum : Nat} {burst v : Int} {log : List Grant} (hr : 0 < rate)
    (hq : quantum < 2 ^ sizeBits) (hw : Unwrapped rate quantum) (hb : 0 ≤ burst)
    (h : Conforms burst v (log.map (Grant.booking rate)))
    (hsize : ∀ g ∈ log, g.bytes ≤ quantum) {s t : Int} (hst : s ≤ t) :
    (bytesWithin s t log : Int) * kNanosecondsPerSecond ≤
      rate * (t - s + burst) + quantum * kNanosecondsPerSecond := by
  rw [← weightWithin_bookings rate]
  apply h.bound hb (Int.natCast_nonneg _) (Int.natCast_nonneg _) (Int.natCast_nonneg _) _ _ hst
  · intro b hmem
    obtain ⟨g, hg, rfl⟩ := List.mem_map.mp hmem
    have hle := hsize g hg
    exact durationFor_covers hr (by omega) (hw g.bytes hle)
  · intro b hmem
    obtain ⟨g, hg, rfl⟩ := List.mem_map.mp hmem
    exact Int.ofNat_le.mpr (hsize g hg)

end FastdlMm.BandwidthLimiter
