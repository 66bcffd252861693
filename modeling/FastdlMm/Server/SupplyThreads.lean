import FastdlMm.Server.Throughput
import Mathlib.Logic.Function.Basic
import Mathlib.Logic.Relation

namespace FastdlMm.TransferMetrics

/-- The place in `buckets_` of a second. -/
def slot (m : TransferMetrics) (second : Int) : Nat :=
  (second % 2 ^ sizeBits).toNat % m.buckets.length

def bucketFor (m : TransferMetrics) (second : Int) : Bucket := m.buckets.getD (m.slot second) {}

def setBucket (m : TransferMetrics) (second : Int) (b : Bucket) : TransferMetrics :=
  { m with buckets := m.buckets.set (m.slot second) b }

/-- Where a thread stands in `bytesSupplied`: outside, adding to the total, before the clock, before
its first test of the bucket, before the mutex, before its second test, before it empties the
bucket, before it stores the second, before it unlocks, or adding to the bucket. Where it adds, it
holds what it has loaded. -/
inductive Phase where
  | outside
  | totalling (bytes : Nat) (loaded : Option Nat)
  | timing (bytes : Nat)
  | testing (bytes : Nat) (second : Int)
  | locking (bytes : Nat) (second : Int)
  | retesting (bytes : Nat) (second : Int)
  | emptying (bytes : Nat) (second : Int)
  | stamping (bytes : Nat) (second : Int)
  | unlocking (bytes : Nat) (second : Int)
  | adding (bytes : Nat) (second : Int) (loaded : Option Nat)

namespace Phase

/-- The second that a thread has read and still works for. -/
def second : Phase → Option Int
  | .outside | .totalling _ _ | .timing _ => none
  | .testing _ second | .locking _ second | .retesting _ second | .emptying _ second
  | .stamping _ second | .unlocking _ second | .adding _ second _ => some second

/-- The bytes that are in the total, and not yet in a bucket. -/
def inHand : Phase → Option Nat
  | .outside | .totalling _ _ => none
  | .timing bytes | .testing bytes _ | .locking bytes _ | .retesting bytes _ | .emptying bytes _
  | .stamping bytes _ | .unlocking bytes _ | .adding bytes _ _ => some bytes

/-- The thread has the mutex. -/
def locked : Phase → Bool
  | .retesting _ _ | .emptying _ _ | .stamping _ _ | .unlocking _ _ => true
  | _ => false

end Phase

/-- Any number of threads in `bytesSupplied`, and `bucketResetMutex_`. History are the latest
reading of the clock, the bytes each thread has added to the total, and its calls whose bytes are in
their bucket. -/
structure Supplying where
  metrics : TransferMetrics
  owner : Option Nat := none
  phases : Nat → Phase := fun _ => .outside
  clock : Int
  totalled : List (Nat × Nat) := []
  supplied : List (Nat × Supply) := []

inductive SupplyStep where
  | call (bytes : Nat)
  | read (second : Int)
  | exchange (spurious : Bool)
  /-- The load, the test, the store or the locking that is next. -/
  | advance

namespace Supplying

def setPhase (s : Supplying) (i : Nat) (p : Phase) : Supplying :=
  { s with phases := Function.update s.phases i p }

/-- One atomic step of thread `i`; `none` where the thread cannot take it. -/
def step (s : Supplying) (i : Nat) : SupplyStep → Option Supplying
  | .call bytes =>
      match s.phases i with
      | .outside => if bytes = 0 then some s else some (s.setPhase i (.totalling bytes none))
      | _ => none
  | .read second =>
      match s.phases i with
      | .timing bytes => some { s.setPhase i (.testing bytes second) with clock := second }
      | _ => none
  | .exchange spurious =>
      match s.phases i with
      | .totalling bytes (some current) =>
          if spurious ∨ s.metrics.transferredBytes ≠ current then
            some (s.setPhase i (.totalling bytes (some s.metrics.transferredBytes)))
          else
            some { s.setPhase i (.timing bytes) with
              metrics := { s.metrics with transferredBytes := saturatingAdd current bytes }
              totalled := (i, bytes) :: s.totalled }
      | .adding bytes second (some current) =>
          let b := s.metrics.bucketFor second
          if spurious ∨ b.bytes ≠ current then
            some (s.setPhase i (.adding bytes second (some b.bytes)))
          else
            some { s.setPhase i .outside with
              metrics := s.metrics.setBucket second { b with bytes := saturatingAdd current bytes }
              supplied := (i, ⟨bytes, second⟩) :: s.supplied }
      | _ => none
  | .advance =>
      match s.phases i with
      | .totalling bytes none =>
          some (s.setPhase i (.totalling bytes (some s.metrics.transferredBytes)))
      | .testing bytes second =>
          if (s.metrics.bucketFor second).second = second then
            some (s.setPhase i (.adding bytes second none))
          else some (s.setPhase i (.locking bytes second))
      | .locking bytes second =>
          if s.owner = none then
            some { s.setPhase i (.retesting bytes second) with owner := some i }
          else none
      | .retesting bytes second =>
          if (s.metrics.bucketFor second).second = second then
            some (s.setPhase i (.unlocking bytes second))
          else some (s.setPhase i (.emptying bytes second))
      | .emptying bytes second =>
          some { s.setPhase i (.stamping bytes second) with
            metrics := s.metrics.setBucket second { s.metrics.bucketFor second with bytes := 0 } }
      | .stamping bytes second =>
          some { s.setPhase i (.unlocking bytes second) with
            metrics := s.metrics.setBucket second
              { s.metrics.bucketFor second with second := second } }
      | .unlocking bytes second =>
          some { s.setPhase i (.adding bytes second none) with owner := none }
      | .adding bytes second none =>
          some (s.setPhase i (.adding bytes second (some (s.metrics.bucketFor second).bytes)))
      | _ => none

/-- The clock is steady, and by the time a second comes whose bucket is that of a call at work, the
call is over. -/
def Prompt (s : Supplying) : SupplyStep → Prop
  | .read second => s.clock ≤ second ∧ second < 2 ^ 32 ∧
      ∀ i earlier, (s.phases i).second = some earlier → second < earlier + kWindowSeconds
  | _ => True

inductive Reaches (meets : Supplying → SupplyStep → Prop) (s₀ : Supplying) : Supplying → Prop
  | refl : Reaches meets s₀ s₀
  | step {s s' : Supplying} (i : Nat) (x : SupplyStep) : Reaches meets s₀ s → meets s x →
      s.step i x = some s' → Reaches meets s₀ s'

/-- A second that a call may be at work for. -/
def Live (clock second : Int) : Prop :=
  0 ≤ second ∧ second ≤ clock ∧ clock < second + kWindowSeconds

/-- What a thread knows of its bucket. -/
def PhaseOk (m : TransferMetrics) : Phase → Prop
  | .emptying _ second => (m.bucketFor second).second ≠ second
  | .stamping _ second =>
      (m.bucketFor second).second ≠ second ∧ (m.bucketFor second).bytes = 0
  | .unlocking _ second | .adding _ second _ => (m.bucketFor second).second = second
  | _ => True

/-- Every thread has supplied what it has added to the total, but for what it has in hand. -/
def Matched (totalled : List (Nat × Nat)) (supplied : List (Nat × Supply))
    (phases : Nat → Phase) : Prop :=
  ∀ i bytes, totalled.count (i, bytes) =
    (supplied.map fun x => (x.1, x.2.bytes)).count (i, bytes) +
      if (phases i).inHand = some bytes then 1 else 0

/-- The invariant of prompt calls. -/
structure Exact (s : Supplying) : Prop where
  current : s.metrics.Current s.clock
  epoch : 0 ≤ s.clock
  clock_lt : s.clock < 2 ^ 32
  live : ∀ i second, (s.phases i).second = some second → Live s.clock second
  owner : ∀ i, (s.phases i).locked = true → s.owner = some i
  phases : ∀ i, PhaseOk s.metrics (s.phases i)
  recent : ∀ now, s.clock ≤ now → min (s.metrics.buckets.map (share now)).sum uint64Max =
    min (suppliedRecently now (s.supplied.map Prod.snd)) uint64Max
  total : s.metrics.transferredBytes = min (s.totalled.map Prod.snd).sum uint64Max
  matched : Matched s.totalled s.supplied s.phases

end Supplying

section Buckets

variable {m : TransferMetrics} {clock second second' : Int}

theorem slot_eq (h : m.Current clock) (hpos : 0 ≤ second) (hlt : second < 2 ^ 32) :
    (m.slot second : Int) = second % kWindowSeconds ∧ m.slot second < m.buckets.length := by
  rw [slot, h.ten, sizeBits, Int.emod_eq_of_lt hpos hlt]
  simp only [kWindowSeconds]
  omega

theorem bucketFor_eq (h : m.slot second < m.buckets.length) :
    m.bucketFor second = m.buckets[m.slot second] := by
  rw [bucketFor, List.getD_eq_getElem?_getD, List.getElem?_eq_getElem h, Option.getD_some]

theorem setBucket_setBucket (m : TransferMetrics) (second : Int) (b b' : Bucket) :
    (m.setBucket second b).setBucket second b' = m.setBucket second b' := by
  simp only [setBucket, slot, List.length_set, List.set_set]

theorem bucketFor_setBucket_self (h : m.slot second < m.buckets.length) (b : Bucket) :
    (m.setBucket second b).bucketFor second = b := by
  have hsame : (m.setBucket second b).slot second = m.slot second := by
    rw [slot, slot, setBucket, List.length_set]
  rw [bucketFor, hsame, setBucket, List.getD_eq_getElem?_getD, List.getElem?_set_self h]
  rfl

theorem setBucket_bucketFor (h : m.slot second < m.buckets.length) :
    m.setBucket second (m.bucketFor second) = m := by
  rw [setBucket, bucketFor_eq h, List.set_getElem_self]

/-- Different seconds that calls are at work for have different buckets. -/
theorem bucketFor_setBucket (h : m.Current clock) (hclock : clock < 2 ^ 32)
    (hlive : Supplying.Live clock second) (hlive' : Supplying.Live clock second') (b : Bucket) :
    (m.setBucket second b).bucketFor second' =
      if second' = second then b else m.bucketFor second' := by
  obtain ⟨hpos, hle, hnear⟩ := hlive
  obtain ⟨hpos', hle', hnear'⟩ := hlive'
  obtain ⟨hslot, hlt⟩ := slot_eq h hpos (by omega)
  obtain ⟨hslot', hlt'⟩ := slot_eq h hpos' (by omega)
  have hsame : (m.setBucket second b).slot second' = m.slot second' := by
    rw [slot, slot, setBucket, List.length_set]
  rw [bucketFor, hsame, setBucket, List.getD_eq_getElem?_getD, List.getElem?_set]
  split_ifs with heq hne hne
  · rfl
  · rw [← heq] at hslot'
    simp only [kWindowSeconds] at hslot hslot' hnear hnear'
    omega
  · subst hne
    exact absurd rfl heq
  · rw [bucketFor, List.getD_eq_getElem?_getD]

/-- The bucket of a second that a call is at work for holds that second, or an old one, or none. -/
theorem bucketFor_cases (h : m.Current clock) (hclock : clock < 2 ^ 32)
    (hlive : Supplying.Live clock second) :
    ((m.bucketFor second).second = -1 ∧ (m.bucketFor second).bytes = 0) ∨
      (0 ≤ (m.bucketFor second).second ∧ (m.bucketFor second).second ≤ second - kWindowSeconds) ∨
        (m.bucketFor second).second = second := by
  obtain ⟨hpos, hle, hnear⟩ := hlive
  obtain ⟨hslot, hlt⟩ := slot_eq h hpos (by omega)
  rw [bucketFor_eq hlt]
  obtain hnone | ⟨hsome, hlast, hmod⟩ := h.slot _ hlt
  · exact .inl hnone
  · refine .inr ?_
    rw [hslot] at hmod
    simp only [kWindowSeconds] at hmod hnear ⊢
    omega

/-- A bucket that a call is to take over for its second counts at no time from then on. -/
theorem share_stale (h : m.Current clock) (hclock : clock < 2 ^ 32)
    (hlive : Supplying.Live clock second) (hne : (m.bucketFor second).second ≠ second) {now : Int}
    (hnow : clock ≤ now) : share now (m.bucketFor second) = 0 := by
  rw [share]
  split_ifs with hrecent
  · obtain ⟨-, hzero⟩ | ⟨-, hold⟩ | hsame := bucketFor_cases h hclock hlive
    · exact hzero
    · have hlate := hrecent.2
      have hle := hlive.2.1
      omega
    · exact absurd hsame hne
  · rfl

theorem Current.setBucket (h : m.Current clock) (hclock : clock < 2 ^ 32)
    (hlive : Supplying.Live clock second) {b : Bucket}
    (hb : b.second = second ∨ (b.second = (m.bucketFor second).second ∧ b.bytes = 0))
    (hfull : b.bytes ≤ uint64Max) : (m.setBucket second b).Current clock := by
  obtain ⟨hpos, hle, -⟩ := hlive
  obtain ⟨hslot, hlt⟩ := slot_eq h hpos (by omega)
  rw [bucketFor_eq hlt] at hb
  refine ⟨?_, fun i hi => ?_, fun i hi => ?_⟩
  · rw [TransferMetrics.setBucket, List.length_set]
    exact h.ten
  · simp only [TransferMetrics.setBucket, List.length_set, List.getElem_set] at hi ⊢
    split_ifs with heq
    · subst heq
      obtain hb | ⟨hb, hzero⟩ := hb
      · exact .inr ⟨by omega, by omega, by rw [hb, hslot]⟩
      · rw [hb, hzero]
        obtain hnone | hsome := h.slot _ hi
        · exact .inl ⟨hnone.1, rfl⟩
        · exact .inr hsome
    · exact h.slot i hi
  · simp only [TransferMetrics.setBucket, List.length_set, List.getElem_set] at hi ⊢
    split_ifs with heq
    · exact hfull
    · exact h.full i hi

/-- Writing the bucket of a second leaves the shares of the others. -/
theorem sum_setBucket (h : m.Current clock) (hclock : clock < 2 ^ 32)
    (hlive : Supplying.Live clock second) (now : Int) (b : Bucket) : ∃ others,
    (m.buckets.map (share now)).sum = others + share now (m.bucketFor second) ∧
      ((m.setBucket second b).buckets.map (share now)).sum = others + share now b := by
  obtain ⟨hpos, hle, -⟩ := hlive
  obtain ⟨-, hlt⟩ := slot_eq h hpos (by omega)
  have hlt' : m.slot second < (m.buckets.map (share now)).length := by
    rw [List.length_map]
    exact hlt
  obtain ⟨others, hsum, hset⟩ := sum_set_others (m.buckets.map (share now)) _ (share now b) hlt'
  rw [List.getElem_map] at hsum
  refine ⟨others, ?_, ?_⟩
  · rw [bucketFor_eq hlt]
    exact hsum
  · rw [setBucket, List.map_set]
    exact hset

end Buckets

namespace Supplying

variable {s s' : Supplying} {i : Nat} {second : Int}

section Alone

/-- The steps of one thread while the others wait. -/
def Alone (i : Nat) : Supplying → Supplying → Prop :=
  Relation.ReflTransGen fun s s' => ∃ x, s.step i x = some s'

variable {bytes : Nat}

theorem alone_totalled (h : s.phases i = .totalling bytes none) : ∃ s', Alone i s s' ∧
    s'.metrics = { s.metrics with
      transferredBytes := saturatingAdd s.metrics.transferredBytes bytes } ∧
    s'.phases = Function.update s.phases i (.timing bytes) ∧ s'.owner = s.owner := by
  have hload : s.step i .advance =
      some (s.setPhase i (.totalling bytes (some s.metrics.transferredBytes))) := by
    simp only [step, h]
  have hexchange : (s.setPhase i (.totalling bytes (some s.metrics.transferredBytes))).step i
      (.exchange false) = some { s.setPhase i (.timing bytes) with
        metrics := { s.metrics with
          transferredBytes := saturatingAdd s.metrics.transferredBytes bytes }
        totalled := (i, bytes) :: s.totalled } := by
    simp [step, setPhase]
  exact ⟨_, .tail (.single ⟨_, hload⟩) ⟨_, hexchange⟩, rfl, rfl, rfl⟩

theorem alone_added (h : s.phases i = .adding bytes second none) : Alone i s
    { s.setPhase i .outside with
      metrics := s.metrics.setBucket second { s.metrics.bucketFor second with
        bytes := saturatingAdd (s.metrics.bucketFor second).bytes bytes }
      supplied := (i, ⟨bytes, second⟩) :: s.supplied } := by
  have hload : s.step i .advance =
      some (s.setPhase i (.adding bytes second (some (s.metrics.bucketFor second).bytes))) := by
    simp only [step, h]
  refine .tail (.single ⟨_, hload⟩) ⟨.exchange false, ?_⟩
  simp [step, setPhase]

theorem alone_refreshed (hslot : s.metrics.slot second < s.metrics.buckets.length)
    (h : s.phases i = .locking bytes second) (hfree : s.owner = none)
    (hstale : (s.metrics.bucketFor second).second ≠ second) : Alone i s
    { s.setPhase i (.adding bytes second none) with
      metrics := s.metrics.setBucket second { second := second, bytes := 0 } } := by
  have hlock : s.step i .advance =
      some { s.setPhase i (.retesting bytes second) with owner := some i } := by
    simp only [step, h, hfree, if_true]
  have hretest : Supplying.step { s.setPhase i (.retesting bytes second) with owner := some i } i
      .advance = some { s.setPhase i (.emptying bytes second) with owner := some i } := by
    simp [step, setPhase, hstale]
  have hempty : Supplying.step { s.setPhase i (.emptying bytes second) with owner := some i } i
      .advance = some { s.setPhase i (.stamping bytes second) with
        owner := some i
        metrics := s.metrics.setBucket second { s.metrics.bucketFor second with bytes := 0 } } := by
    simp [step, setPhase]
  have hstamp : Supplying.step { s.setPhase i (.stamping bytes second) with
        owner := some i
        metrics := s.metrics.setBucket second { s.metrics.bucketFor second with bytes := 0 } } i
      .advance = some { s.setPhase i (.unlocking bytes second) with
        owner := some i
        metrics := s.metrics.setBucket second { second := second, bytes := 0 } } := by
    simp [step, setPhase, setBucket_setBucket, bucketFor_setBucket_self hslot]
  refine .tail (.tail (.tail (.tail (.single ⟨_, hlock⟩) ⟨_, hretest⟩) ⟨_, hempty⟩) ⟨_, hstamp⟩)
    ⟨.advance, ?_⟩
  simp [step, setPhase, hfree]

theorem alone_renewed (hslot : s.metrics.slot second < s.metrics.buckets.length)
    (h : s.phases i = .timing bytes) (hfree : s.owner = none) : ∃ s', Alone i s s' ∧
    s'.metrics = s.metrics.setBucket second (if (s.metrics.bucketFor second).second = second then
      s.metrics.bucketFor second else { second := second, bytes := 0 }) ∧
    s'.phases = Function.update s.phases i (.adding bytes second none) ∧ s'.owner = none := by
  have hread : s.step i (.read second) =
      some { s.setPhase i (.testing bytes second) with clock := second } := by
    simp only [step, h]
  split_ifs with hsame
  · have htest : Supplying.step { s.setPhase i (.testing bytes second) with clock := second } i
        .advance = some { s.setPhase i (.adding bytes second none) with clock := second } := by
      simp [step, setPhase, hsame]
    exact ⟨_, .tail (.single ⟨_, hread⟩) ⟨_, htest⟩, (setBucket_bucketFor hslot).symm, rfl, hfree⟩
  · have htest : Supplying.step { s.setPhase i (.testing bytes second) with clock := second } i
        .advance = some { s.setPhase i (.locking bytes second) with clock := second } := by
      simp [step, setPhase, hsame]
    have hrefresh := alone_refreshed (s := { s.setPhase i (.locking bytes second) with
      clock := second }) hslot (Function.update_self i _ s.phases) hfree hsame
    exact ⟨_, .head ⟨_, hread⟩ (.head ⟨_, htest⟩ hrefresh), rfl, Function.update_idem _ _ _, hfree⟩

/-- A call that no other disturbs does what `bytesSupplied` does. -/
theorem alone_bytesSupplied (hslot : s.metrics.slot second < s.metrics.buckets.length)
    (houtside : s.phases i = .outside) (hfree : s.owner = none) (bytes : Nat) : ∃ s',
    Alone i s s' ∧ s'.metrics = s.metrics.bytesSupplied bytes second ∧ s'.phases = s.phases ∧
      s'.owner = none := by
  by_cases hbytes : bytes = 0
  · refine ⟨s, .refl, ?_, rfl, hfree⟩
    rw [bytesSupplied, if_pos hbytes]
  have hcall : s.step i (.call bytes) = some (s.setPhase i (.totalling bytes none)) := by
    simp only [step, houtside, if_neg hbytes]
  obtain ⟨s₁, htotalled, hmetrics₁, hphases₁, howner₁⟩ :=
    alone_totalled (s := s.setPhase i (.totalling bytes none)) (Function.update_self i _ s.phases)
  have hslot₁ : s₁.metrics.slot second < s₁.metrics.buckets.length := by
    rw [hmetrics₁]
    exact hslot
  obtain ⟨s₂, hrenewed, hmetrics₂, hphases₂, howner₂⟩ := alone_renewed hslot₁
    (by rw [hphases₁, Function.update_self]) (howner₁.trans hfree)
  have hadded := alone_added (s := s₂) (i := i)
    (by rw [hphases₂, Function.update_self])
  refine ⟨_, .head ⟨_, hcall⟩ (htotalled.trans (hrenewed.trans hadded)), ?_, ?_, howner₂⟩
  · rw [bytesSupplied, if_neg hbytes]
    dsimp only
    rw [hmetrics₂, setBucket_setBucket, bucketFor_setBucket_self hslot₁, hmetrics₁]
    rfl
  · dsimp only [setPhase]
    rw [hphases₂, hphases₁, setPhase, Function.update_idem, Function.update_idem,
      Function.update_idem]
    exact Function.update_eq_self_iff.mpr houtside.symm

end Alone

theorem PhaseOk.setBucket {m : TransferMetrics} {clock : Int} (h : m.Current clock)
    (hclock : clock < 2 ^ 32) (hlive : Live clock second) (b : Bucket) {p : Phase}
    (hp : PhaseOk m p) (hplive : ∀ second', p.second = some second' → Live clock second')
    (hne : p.second ≠ some second) : PhaseOk (m.setBucket second b) p := by
  have hsame (second' : Int) (hsecond : p.second = some second') :
      (m.setBucket second b).bucketFor second' = m.bucketFor second' := by
    rw [bucketFor_setBucket h hclock hlive (hplive second' hsecond)]
    exact if_neg fun heq : second' = second => hne (heq ▸ hsecond)
  cases p with
  | emptying bytes second' => rwa [PhaseOk, hsame second' rfl]
  | stamping bytes second' => rwa [PhaseOk, hsame second' rfl]
  | unlocking bytes second' => rwa [PhaseOk, hsame second' rfl]
  | adding bytes second' loaded => rwa [PhaseOk, hsame second' rfl]
  | outside | totalling | timing | testing | locking | retesting => trivial

/-- What a thread that is at work for the second has to know after a write of its bucket. -/
theorem PhaseOk.same {m m' : TransferMetrics} {p : Phase} (h : PhaseOk m p)
    (hsecond : p.second = some second)
    (hstale : p.locked = true → (m.bucketFor second).second ≠ second →
      (m'.bucketFor second).second ≠ second ∧
        ((m.bucketFor second).bytes = 0 → (m'.bucketFor second).bytes = 0))
    (hsettled : (m.bucketFor second).second = second → (m'.bucketFor second).second = second) :
    PhaseOk m' p := by
  cases p with
  | emptying bytes second' =>
    obtain rfl := Option.some.inj hsecond
    exact (hstale rfl h).1
  | stamping bytes second' =>
    obtain rfl := Option.some.inj hsecond
    exact ⟨(hstale rfl h.1).1, (hstale rfl h.1).2 h.2⟩
  | unlocking bytes second' =>
    obtain rfl := Option.some.inj hsecond
    exact hsettled h
  | adding bytes second' loaded =>
    obtain rfl := Option.some.inj hsecond
    exact hsettled h
  | outside | totalling | timing | testing | locking | retesting => trivial

section Matching

variable {totalled : List (Nat × Nat)} {supplied : List (Nat × Supply)} {phases : Nat → Phase}
  {p : Phase}

theorem Matched.move (h : Matched totalled supplied phases) (hp : p.inHand = (phases i).inHand) :
    Matched totalled supplied (Function.update phases i p) := by
  intro j bytes
  obtain rfl | hj := eq_or_ne j i
  · rw [Function.update_self, hp]
    exact h j bytes
  · rw [Function.update_of_ne hj]
    exact h j bytes

theorem Matched.total (h : Matched totalled supplied phases) {bytes : Nat}
    (hbefore : (phases i).inHand = none) (hp : p.inHand = some bytes) :
    Matched ((i, bytes) :: totalled) supplied (Function.update phases i p) := by
  intro j bytes'
  have hj := h j bytes'
  rw [List.count_cons, hj]
  obtain rfl | hne := eq_or_ne j i
  · rw [Function.update_self, hp, hbefore]
    simp [Nat.add_comm]
  · rw [Function.update_of_ne hne]
    simp [hne.symm]

theorem Matched.supply (h : Matched totalled supplied phases) {bytes : Nat} {second : Int}
    (hbefore : (phases i).inHand = some bytes) (hp : p.inHand = none) :
    Matched totalled ((i, ⟨bytes, second⟩) :: supplied) (Function.update phases i p) := by
  intro j bytes'
  have hj := h j bytes'
  rw [List.map_cons, List.count_cons, hj]
  obtain rfl | hne := eq_or_ne j i
  · rw [Function.update_self, hp, hbefore]
    simp
  · rw [Function.update_of_ne hne]
    simp [hne.symm]

/-- When no thread has anything in hand, all that was added to the total has been supplied. -/
theorem Matched.perm (h : Matched totalled supplied phases)
    (hnone : ∀ i, (phases i).inHand = none) :
    totalled.Perm (supplied.map fun x => (x.1, x.2.bytes)) := by
  refine List.perm_iff_count.mpr fun x => ?_
  rw [h x.1 x.2, hnone x.1]
  rfl

end Matching

/-- A thread moves on, maybe with the mutex. -/
theorem Exact.moved (h : Exact s) {p : Phase} {owner : Option Nat}
    (hinHand : p.inHand = (s.phases i).inHand)
    (hsecond : ∀ second, p.second = some second → Live s.clock second)
    (hmutex : p.locked = true → owner = some i)
    (hothers : ∀ j, j ≠ i → (s.phases j).locked = true → owner = some j)
    (hok : PhaseOk s.metrics p) : Exact { s.setPhase i p with owner := owner } where
  current := h.current
  epoch := h.epoch
  clock_lt := h.clock_lt
  live := (Function.forall_update_iff s.phases fun _ q => ∀ second, q.second = some second →
    Live s.clock second).mpr ⟨hsecond, fun j _ => h.live j⟩
  owner := (Function.forall_update_iff s.phases fun j q => q.locked = true → owner = some j).mpr
    ⟨hmutex, hothers⟩
  phases := (Function.forall_update_iff s.phases fun _ q => PhaseOk s.metrics q).mpr
    ⟨hok, fun j _ => h.phases j⟩
  recent := h.recent
  total := h.total
  matched := h.matched.move hinHand

/-- A thread moves on to a phase for the same second, without the mutex or still with it. -/
theorem Exact.onward (h : Exact s) {p : Phase} (hinHand : p.inHand = (s.phases i).inHand)
    (hsecond : p.second = (s.phases i).second)
    (hlocked : p.locked = true → (s.phases i).locked = true) (hok : PhaseOk s.metrics p) :
    Exact (s.setPhase i p) :=
  h.moved hinHand (fun second hp => h.live i second (hsecond ▸ hp))
    (fun hp => h.owner i (hlocked hp)) (fun j _ hj => h.owner j hj) hok

theorem Exact.unlocked (h : Exact s) {p : Phase} (hinHand : p.inHand = (s.phases i).inHand)
    (hsecond : p.second = (s.phases i).second) (hlocked : p.locked = false)
    (hok : PhaseOk s.metrics p) : Exact (s.setPhase i p) :=
  h.onward hinHand hsecond (fun hp => absurd (hlocked.symm.trans hp) Bool.false_ne_true) hok

/-- A thread writes the bucket of its second, and moves on. -/
theorem Exact.wrote (h : Exact s) {b : Bucket} {p : Phase} {supplied : List (Nat × Supply)}
    (hphase : (s.phases i).second = some second)
    (hb : b.second = second ∨ (b.second = (s.metrics.bucketFor second).second ∧ b.bytes = 0))
    (hfull : b.bytes ≤ uint64Max) (hsecond : ∀ second', p.second = some second' → second' = second)
    (hlocked : p.locked = true → (s.phases i).locked = true)
    (hothers : ∀ j, j ≠ i → (s.phases j).second = some second →
      PhaseOk (s.metrics.setBucket second b) (s.phases j))
    (hok : PhaseOk (s.metrics.setBucket second b) p)
    (hrecent : ∀ now, s.clock ≤ now → ∀ others, (s.metrics.buckets.map (share now)).sum =
        others + share now (s.metrics.bucketFor second) →
      min (others + share now b) uint64Max =
        min (suppliedRecently now (supplied.map Prod.snd)) uint64Max)
    (hmatched : Matched s.totalled supplied (Function.update s.phases i p)) :
    Exact { s.setPhase i p with
      metrics := s.metrics.setBucket second b
      supplied := supplied } where
  current := h.current.setBucket h.clock_lt (h.live i second hphase) hb hfull
  epoch := h.epoch
  clock_lt := h.clock_lt
  live := (Function.forall_update_iff s.phases fun _ q => ∀ second, q.second = some second →
    Live s.clock second).mpr
      ⟨fun second' hp => hsecond second' hp ▸ h.live i second hphase, fun j _ => h.live j⟩
  owner := (Function.forall_update_iff s.phases fun j q => q.locked = true → s.owner = some j).mpr
    ⟨fun hp => h.owner i (hlocked hp), fun j _ => h.owner j⟩
  phases := (Function.forall_update_iff s.phases fun _ q =>
    PhaseOk (s.metrics.setBucket second b) q).mpr ⟨hok, fun j hj => by
      by_cases hsame : (s.phases j).second = some second
      · exact hothers j hj hsame
      · exact (h.phases j).setBucket h.current h.clock_lt (h.live i second hphase) b (h.live j)
          hsame⟩
  recent := fun now hnow => by
    obtain ⟨others, hsum, hset⟩ :=
      sum_setBucket h.current h.clock_lt (h.live i second hphase) now b
    exact (congrArg (min · uint64Max) hset).trans (hrecent now hnow others hsum)
  total := h.total
  matched := hmatched

theorem Exact.call (h : Exact s) {bytes : Nat} (hx : s.step i (.call bytes) = some s') :
    Exact s' := by
  simp only [step] at hx
  split at hx
  · rename_i hphase
    split_ifs at hx
    · cases hx
      exact h
    · cases hx
      exact h.unlocked (by rw [hphase]; rfl) (by rw [hphase]; rfl) rfl trivial
  · cases hx

theorem Exact.read (h : Exact s) {now : Int} (hprompt : Prompt s (.read now))
    (hx : s.step i (.read now) = some s') : Exact s' := by
  obtain ⟨hsteady, hlt, hover⟩ := hprompt
  simp only [step] at hx
  split at hx
  · rename_i bytes hphase
    cases hx
    have hepoch := h.epoch
    refine ⟨h.current.mono hsteady, hepoch.trans hsteady, hlt, ?_, ?_, ?_, ?_, h.total,
      h.matched.move (by rw [hphase]; rfl)⟩
    · refine (Function.forall_update_iff s.phases fun _ q => ∀ second, q.second = some second →
        Live now second).mpr ⟨fun second hp => ?_, fun j _ second hp => ?_⟩
      · obtain rfl := Option.some.inj hp
        refine ⟨hepoch.trans hsteady, le_rfl, ?_⟩
        simp only [kWindowSeconds]
        omega
      · obtain ⟨hpos, hle, -⟩ := h.live j second hp
        exact ⟨hpos, hle.trans hsteady, hover j second hp⟩
    · exact (Function.forall_update_iff s.phases fun j q => q.locked = true →
        s.owner = some j).mpr ⟨fun hp => absurd hp Bool.false_ne_true, fun j _ => h.owner j⟩
    · exact (Function.forall_update_iff s.phases fun _ q => PhaseOk s.metrics q).mpr
        ⟨trivial, fun j _ => h.phases j⟩
    · exact fun later hlater => h.recent later (hsteady.trans hlater)
  · cases hx

theorem Exact.exchange (h : Exact s) {spurious : Bool}
    (hx : s.step i (.exchange spurious) = some s') : Exact s' := by
  simp only [step] at hx
  split at hx
  · rename_i bytes current hphase
    split_ifs at hx with hmiss
    · cases hx
      exact h.unlocked (by rw [hphase]; rfl) (by rw [hphase]; rfl) rfl trivial
    · cases hx
      have hcurrent : s.metrics.transferredBytes = current := not_not.mp (not_or.mp hmiss).2
      refine ⟨⟨h.current.ten, h.current.slot, h.current.full⟩, h.epoch, h.clock_lt, ?_, ?_, ?_,
        h.recent, ?_, h.matched.total (by rw [hphase]; rfl) rfl⟩
      · exact (Function.forall_update_iff s.phases fun _ q => ∀ second, q.second = some second →
          Live s.clock second).mpr ⟨fun _ hp => (by cases hp), fun j _ => h.live j⟩
      · exact (Function.forall_update_iff s.phases fun j q => q.locked = true →
          s.owner = some j).mpr ⟨fun hp => absurd hp Bool.false_ne_true, fun j _ => h.owner j⟩
      · exact (Function.forall_update_iff s.phases fun _ q => PhaseOk s.metrics q).mpr
          ⟨trivial, fun j _ => h.phases j⟩
      · have htotal := h.total
        rw [hcurrent] at htotal
        dsimp only
        rw [saturatingAdd_eq (by omega), List.map_cons, List.sum_cons]
        omega
  · rename_i bytes second current hphase
    have hknown : (s.metrics.bucketFor second).second = second := by
      have hi := h.phases i
      rwa [hphase] at hi
    split_ifs at hx with hmiss
    · cases hx
      exact h.unlocked (by rw [hphase]; rfl) (by rw [hphase]; rfl) rfl hknown
    · cases hx
      have hcurrent : (s.metrics.bucketFor second).bytes = current :=
        not_not.mp (not_or.mp hmiss).2
      have hsecond : (s.phases i).second = some second := by rw [hphase]; rfl
      have hlive := h.live i second hsecond
      have hfull : (s.metrics.bucketFor second).bytes ≤ uint64Max := by
        obtain ⟨-, hlt⟩ := slot_eq h.current hlive.1 (hlive.2.1.trans_lt h.clock_lt)
        rw [bucketFor_eq hlt]
        exact h.current.full _ hlt
      rw [hcurrent] at hfull
      have hadd := saturatingAdd_eq hfull bytes
      have hbucket := bucketFor_setBucket h.current h.clock_lt hlive hlive
        { s.metrics.bucketFor second with bytes := saturatingAdd current bytes }
      rw [if_pos rfl] at hbucket
      refine h.wrote hsecond (.inl hknown) ?_ (fun _ hp => by cases hp)
        (fun hp => absurd hp Bool.false_ne_true) (fun j hj hsame => ?_) trivial
        (fun now hnow others hsum => ?_) (h.matched.supply (by rw [hphase]; rfl) rfl)
      · dsimp only
        omega
      · refine (h.phases j).same hsame (fun _ hne => absurd hknown hne) fun _ => ?_
        rw [hbucket]
        exact hknown
      · have hrecent := h.recent now hnow
        have hone : suppliedRecently now (List.map Prod.snd ((i, ⟨bytes, second⟩) :: s.supplied)) =
            (if Recent now second then bytes else 0) +
              suppliedRecently now (s.supplied.map Prod.snd) := rfl
        have hold : share now (s.metrics.bucketFor second) =
            if Recent now second then current else 0 := by
          rw [share, hknown, hcurrent]
        have hnew : share now { s.metrics.bucketFor second with
            bytes := saturatingAdd current bytes } =
              if Recent now second then min (current + bytes) uint64Max else 0 := by
          rw [share, ← hadd]
          dsimp only
          rw [hknown]
        rw [hsum, hold] at hrecent
        rw [hone, hnew]
        split_ifs at hrecent ⊢ <;> omega
  · cases hx

theorem Exact.advance (h : Exact s) (hx : s.step i .advance = some s') : Exact s' := by
  simp only [step] at hx
  split at hx
  · rename_i hphase
    cases hx
    exact h.unlocked (by rw [hphase]; rfl) (by rw [hphase]; rfl) rfl trivial
  · rename_i bytes second hphase
    split_ifs at hx with hsame
    · cases hx
      exact h.unlocked (by rw [hphase]; rfl) (by rw [hphase]; rfl) rfl hsame
    · cases hx
      exact h.unlocked (by rw [hphase]; rfl) (by rw [hphase]; rfl) rfl trivial
  · rename_i bytes second hphase
    split_ifs at hx with hfree
    cases hx
    refine h.moved (by rw [hphase]; rfl) (fun second' hp => h.live i second' ?_) (fun _ => rfl)
      (fun j _ hj => ?_) trivial
    · rw [hphase]
      exact hp
    · have hheld := h.owner j hj
      rw [hfree] at hheld
      cases hheld
  · rename_i bytes second hphase
    split_ifs at hx with hsame
    · cases hx
      exact h.onward (by rw [hphase]; rfl) (by rw [hphase]; rfl) (fun _ => by rw [hphase]; rfl)
        hsame
    · cases hx
      exact h.onward (by rw [hphase]; rfl) (by rw [hphase]; rfl) (fun _ => by rw [hphase]; rfl)
        hsame
  · rename_i bytes second hphase
    cases hx
    have hknown : (s.metrics.bucketFor second).second ≠ second := by
      have hi := h.phases i
      rwa [hphase] at hi
    have hsecond : (s.phases i).second = some second := by rw [hphase]; rfl
    have hlive := h.live i second hsecond
    have hbucket := bucketFor_setBucket h.current h.clock_lt hlive hlive
      { s.metrics.bucketFor second with bytes := 0 }
    rw [if_pos rfl] at hbucket
    refine h.wrote hsecond (.inr ⟨rfl, rfl⟩) (Nat.zero_le _)
      (fun _ hp => (Option.some.inj hp).symm) (fun _ => by rw [hphase]; rfl)
      (fun j _ hsame => ?_) ?_ (fun now hnow others hsum => ?_)
      (h.matched.move (by rw [hphase]; rfl))
    · refine (h.phases j).same hsame (fun _ _ => ?_) fun heq => absurd heq hknown
      rw [hbucket]
      exact ⟨hknown, fun _ => rfl⟩
    · rw [PhaseOk, hbucket]
      exact ⟨hknown, rfl⟩
    · have hold := share_stale h.current h.clock_lt hlive hknown hnow
      have hnew : share now { s.metrics.bucketFor second with bytes := 0 } = 0 := ite_self 0
      rw [hnew, ← hold, ← hsum]
      exact h.recent now hnow
  · rename_i bytes second hphase
    cases hx
    have hknown : (s.metrics.bucketFor second).second ≠ second ∧
        (s.metrics.bucketFor second).bytes = 0 := by
      have hi := h.phases i
      rwa [hphase] at hi
    have hsecond : (s.phases i).second = some second := by rw [hphase]; rfl
    have hlive := h.live i second hsecond
    have hbucket := bucketFor_setBucket h.current h.clock_lt hlive hlive
      { s.metrics.bucketFor second with second := second }
    rw [if_pos rfl] at hbucket
    refine h.wrote hsecond (.inl rfl) (hknown.2.trans_le (Nat.zero_le _))
      (fun _ hp => (Option.some.inj hp).symm) (fun _ => by rw [hphase]; rfl)
      (fun j hj hsame => ?_) ?_ (fun now hnow others hsum => ?_)
      (h.matched.move (by rw [hphase]; rfl))
    · refine (h.phases j).same hsame (fun hlocked _ => ?_) fun _ => by rw [hbucket]
      have hheld := h.owner i (by rw [hphase]; rfl)
      rw [h.owner j hlocked] at hheld
      exact absurd (Option.some.inj hheld) hj
    · rw [PhaseOk, hbucket]
    · have hold : share now (s.metrics.bucketFor second) = 0 := by
        rw [share, hknown.2, ite_self]
      have hnew : share now { s.metrics.bucketFor second with second := second } = 0 := by
        rw [share]
        dsimp only
        rw [hknown.2, ite_self]
      rw [hnew, ← hold, ← hsum]
      exact h.recent now hnow
  · rename_i bytes second hphase
    cases hx
    have hknown := h.phases i
    rw [hphase] at hknown
    refine h.moved (by rw [hphase]; rfl) (fun second' hp => h.live i second' ?_)
      (fun hp => absurd hp Bool.false_ne_true) (fun j hj hlocked => ?_) hknown
    · rw [hphase]
      exact hp
    · have hheld := h.owner i (by rw [hphase]; rfl)
      rw [h.owner j hlocked] at hheld
      exact absurd (Option.some.inj hheld) hj
  · rename_i bytes second hphase
    have hknown := h.phases i
    rw [hphase] at hknown
    cases hx
    exact h.unlocked (by rw [hphase]; rfl) (by rw [hphase]; rfl) rfl hknown
  · cases hx

theorem Exact.step (h : Exact s) {x : SupplyStep} (hprompt : Prompt s x)
    (hx : s.step i x = some s') : Exact s' := by
  cases x with
  | call bytes => exact h.call hx
  | read second => exact h.read hprompt hx
  | exchange spurious => exact h.exchange hx
  | advance => exact h.advance hx

/-- The metrics after `reset`, before any call. -/
def fresh (start : Int) : Supplying where
  metrics := reset start
  clock := start

theorem fresh_exact {start : Int} (hpos : 0 ≤ start) (hlt : start < 2 ^ 32) :
    Exact (fresh start) where
  current := current_reset start
  epoch := hpos
  clock_lt := hlt
  live := fun _ _ hp => by cases hp
  owner := fun _ hp => by cases hp
  phases := fun _ => trivial
  recent := fun now _ => by simp [fresh, reset, share, suppliedRecently]
  total := rfl
  matched := fun _ _ => rfl

/-- `Prompt`, where no other threads than these are at work. -/
def promptAmong (threads : List Nat) (s : Supplying) : SupplyStep → Bool
  | .read second => decide (s.clock ≤ second ∧ second < 2 ^ 32) && threads.all fun i =>
      (s.phases i).second.all fun earlier => decide (second < earlier + kWindowSeconds)
  | _ => true

/-- The steps in turn, if these threads take them and are prompt. -/
def play (threads : List Nat) : List (Nat × SupplyStep) → Supplying → Option Supplying
  | [], s => some s
  | (i, x) :: xs, s =>
      if i ∈ threads ∧ s.promptAmong threads x = true then (s.step i x).bind (play threads xs)
      else none

section Play

variable {threads : List Nat} {x : SupplyStep}

theorem step_others (hx : s.step i x = some s') {j : Nat} (hj : j ≠ i) :
    s'.phases j = s.phases j := by
  cases x with
  | call bytes =>
    simp only [step] at hx
    split at hx
    · split_ifs at hx <;> cases hx
      · rfl
      · exact Function.update_of_ne hj _ _
    · cases hx
  | read second =>
    simp only [step] at hx
    split at hx
    · cases hx
      exact Function.update_of_ne hj _ _
    · cases hx
  | exchange spurious =>
    simp only [step] at hx
    split at hx
    · split_ifs at hx <;> cases hx <;> exact Function.update_of_ne hj _ _
    · split_ifs at hx <;> cases hx <;> exact Function.update_of_ne hj _ _
    · cases hx
  | advance =>
    simp only [step] at hx
    split at hx
    on_goal 9 => cases hx
    all_goals
      try split_ifs at hx
      all_goals
        cases hx
        exact Function.update_of_ne hj _ _

theorem prompt_of_among (hidle : ∀ i, i ∉ threads → s.phases i = .outside)
    (h : s.promptAmong threads x = true) : Prompt s x := by
  cases x with
  | read second =>
    obtain ⟨hclock, hthreads⟩ := Bool.and_eq_true_iff.mp h
    obtain ⟨hsteady, hlt⟩ := of_decide_eq_true hclock
    refine ⟨hsteady, hlt, fun i earlier hp => ?_⟩
    by_cases hi : i ∈ threads
    · have hnear := List.all_eq_true.mp hthreads i hi
      rw [hp] at hnear
      exact of_decide_eq_true hnear
    · rw [hidle i hi] at hp
      cases hp
  | call | exchange | advance => trivial

theorem reaches_of_play {s₀ : Supplying} {steps : List (Nat × SupplyStep)}
    (hr : Reaches Prompt s₀ s) (hidle : ∀ i, i ∉ threads → s.phases i = .outside)
    (h : play threads steps s = some s') :
    Reaches Prompt s₀ s' ∧ ∀ i, i ∉ threads → s'.phases i = .outside := by
  induction steps generalizing s with
  | nil =>
    cases h
    exact ⟨hr, hidle⟩
  | cons x xs ih =>
    obtain ⟨i, x⟩ := x
    rw [play] at h
    split_ifs at h with hx
    obtain ⟨next, hstep, hplay⟩ := Option.bind_eq_some_iff.mp h
    refine ih (.step i x hr (prompt_of_among hidle hx.2) hstep) (fun j hj => ?_) hplay
    rw [step_others hstep fun heq : j = i => hj (heq ▸ hx.1)]
    exact hidle j hj

end Play

/-- Threads lose no bytes to each other: however their calls interleave, the total and the recent
bytes are at any moment those that the calls have added so far; and once no call is at work, both
are those of the same calls, each once. -/
theorem supplied_exactly {start : Int} (hpos : 0 ≤ start) (hlt : start < 2 ^ 32)
    (hr : Reaches Prompt (fresh start) s) :
    s.metrics.transferredBytes = min (s.totalled.map Prod.snd).sum uint64Max ∧
    (∀ now, s.clock ≤ now → s.metrics.recentBytes now =
      min (suppliedRecently now (s.supplied.map Prod.snd)) uint64Max) ∧
    ((∀ i, s.phases i = .outside) →
      s.totalled.Perm (s.supplied.map fun x => (x.1, x.2.bytes))) := by
  have hexact : Exact s := by
    induction hr with
    | refl => exact fresh_exact hpos hlt
    | step i x _ hprompt hx ih => exact ih.step hprompt hx
  refine ⟨hexact.total, fun now hnow => ?_, fun hall => ?_⟩
  · rw [recentBytes_eq]
    exact hexact.recent now hnow
  · refine hexact.matched.perm fun i => ?_
    rw [hall i]
    rfl

/-- Two threads find the bucket of a second stale. -/
def race : Option Supplying :=
  play [0, 1] [(0, .call 7), (1, .call 9), (0, .advance), (1, .advance), (0, .exchange false),
    (1, .exchange false), (1, .exchange false), (0, .read 12), (1, .read 12), (0, .advance),
    (1, .advance), (0, .advance), (0, .advance), (0, .advance), (0, .advance), (0, .advance),
    (1, .advance), (1, .advance), (1, .advance), (0, .advance), (1, .advance), (1, .exchange false),
    (0, .exchange false), (0, .exchange false)] (fresh 5)

theorem race_isSome : race.isSome := by decide +kernel

/-- One empties the bucket, and both add to it. -/
theorem supplied_exactly_race : Reaches Prompt (fresh 5) (race.get race_isSome) ∧
    (race.get race_isSome).metrics.transferredBytes = 16 ∧
    (race.get race_isSome).metrics.recentBytes 21 = 16 ∧
    (race.get race_isSome).totalled.Perm
      ((race.get race_isSome).supplied.map fun x => (x.1, x.2.bytes)) := by
  obtain ⟨hr, hidle⟩ := reaches_of_play .refl (fun _ _ => rfl)
    (Option.some_get race_isSome).symm
  obtain ⟨htotal, hrecent, hover⟩ := supplied_exactly (by decide) (by decide) hr
  have hclock : (race.get race_isSome).clock ≤ 21 := by decide +kernel
  refine ⟨hr, htotal.trans (by decide +kernel), (hrecent 21 hclock).trans (by decide +kernel),
    hover fun i => ?_⟩
  by_cases hi : i ∈ [0, 1]
  · obtain rfl | rfl := List.mem_pair.mp hi
    · rfl
    · rfl
  · exact hidle i hi

end Supplying
end FastdlMm.TransferMetrics
