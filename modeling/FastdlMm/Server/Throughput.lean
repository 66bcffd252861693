import FastdlMm.Server.TransferMetrics
import Mathlib.Algebra.BigOperators.Group.List.Basic

namespace FastdlMm.TransferMetrics

/-- A call of `bytesSupplied` at a second of the clock. -/
structure Supply where
  bytes : Nat
  second : Int

def supplyAll (m : TransferMetrics) (calls : List Supply) : TransferMetrics :=
  calls.foldl (fun m call => m.bytesSupplied call.bytes call.second) m

/-- The second is one of the last ten at `now`. -/
def Recent (now second : Int) : Prop := second ≤ now ∧ now - kWindowSeconds < second

instance (now second : Int) : Decidable (Recent now second) := by
  unfold Recent
  infer_instance

/-- The bytes supplied in the last ten seconds. -/
def suppliedRecently (now : Int) (calls : List Supply) : Nat :=
  (calls.map fun call => if Recent now call.second then call.bytes else 0).sum

/-- What a bucket adds to the recent bytes. -/
def share (now : Int) (bucket : Bucket) : Nat :=
  if Recent now bucket.second then bucket.bytes else 0

private theorem foldl_share (now : Int) (buckets : List Bucket) {start : Nat}
    (h : start ≤ uint64Max) :
    buckets.foldl (fun recentBytes bucket =>
        if bucket.second ≤ now ∧ now - kWindowSeconds < bucket.second then
          saturatingAdd recentBytes bucket.bytes
        else recentBytes) start =
      min (start + (buckets.map (share now)).sum) uint64Max := by
  induction buckets generalizing start with
  | nil =>
    rw [List.foldl_nil, List.map_nil, List.sum_nil]
    omega
  | cons bucket rest ih =>
    have hrecent : (bucket.second ≤ now ∧ now - kWindowSeconds < bucket.second) ↔
        Recent now bucket.second := Iff.rfl
    rw [List.foldl_cons, List.map_cons, List.sum_cons]
    simp only [hrecent] at ih ⊢
    by_cases hin : Recent now bucket.second
    · rw [if_pos hin, saturatingAdd_eq h, ih (by omega), share, if_pos hin]
      omega
    · rw [if_neg hin, ih h, share, if_neg hin]
      omega

theorem recentBytes_eq (m : TransferMetrics) (now : Int) :
    m.recentBytes now = min (m.buckets.map (share now)).sum uint64Max := by
  rw [recentBytes, foldl_share now m.buckets (Nat.zero_le _), Nat.zero_add]

/-- What the buckets keep between calls, the last of them not after `last`: each holds a second of
its own remainder, or none and no bytes. -/
structure Current (last : Int) (m : TransferMetrics) : Prop where
  ten : m.buckets.length = kWindowSeconds
  slot : ∀ i, ∀ h : i < m.buckets.length,
    (m.buckets[i].second = -1 ∧ m.buckets[i].bytes = 0) ∨
      (0 ≤ m.buckets[i].second ∧ m.buckets[i].second ≤ last ∧
        m.buckets[i].second % kWindowSeconds = i)
  full : ∀ i, ∀ h : i < m.buckets.length, m.buckets[i].bytes ≤ uint64Max

theorem current_reset (s₀ : Int) : (reset s₀).Current s₀ := by
  have hbucket : ∀ i, ∀ h : i < (reset s₀).buckets.length, (reset s₀).buckets[i] = {} := by
    intro i h
    exact List.eq_of_mem_replicate (List.getElem_mem h)
  constructor
  · rfl
  · intro i h
    rw [hbucket i h]
    exact .inl ⟨rfl, rfl⟩
  · intro i h
    rw [hbucket i h]
    exact Nat.zero_le _

/-- The bucket that a call with some bytes writes. -/
private theorem bytesSupplied_buckets {m : TransferMetrics} {last second : Int} {bytes : Nat}
    (h : m.Current last) (hpos : bytes ≠ 0) (hsecond : 0 ≤ second) (hlt : second < 2 ^ 32) :
    ∃ i, ∃ hi : i < m.buckets.length, (i : Int) = second % kWindowSeconds ∧
      (m.bytesSupplied bytes second).buckets = m.buckets.set i
        ⟨second, min ((if m.buckets[i].second = second then m.buckets[i].bytes else 0) + bytes)
          uint64Max⟩ := by
  have hten := h.ten
  have hindex : (second % 2 ^ sizeBits).toNat % m.buckets.length = (second % kWindowSeconds).toNat := by
    rw [hten, sizeBits, Int.emod_eq_of_lt hsecond hlt]
    simp only [kWindowSeconds]
    omega
  have hi : (second % kWindowSeconds).toNat < m.buckets.length := by
    rw [hten]
    simp only [kWindowSeconds]
    omega
  have hget : m.buckets.getD (second % kWindowSeconds).toNat {} =
      m.buckets[(second % kWindowSeconds).toNat] := by
    rw [List.getD_eq_getElem?_getD, List.getElem?_eq_getElem hi, Option.getD_some]
  refine ⟨_, hi, ?_, ?_⟩
  · simp only [kWindowSeconds]
    omega
  · rw [bytesSupplied, if_neg hpos]
    simp only [hindex, hget]
    congr 1
    split_ifs with hsame
    · rw [saturatingAdd_eq (h.full _ hi), hsame]
    · rw [saturatingAdd_eq (Nat.zero_le _)]

/-- Writing one entry of a list leaves the sum of the others. -/
theorem sum_set_others (l : List Nat) (i a : Nat) (h : i < l.length) :
    ∃ others, l.sum = others + l[i] ∧ (l.set i a).sum = others + a := by
  have hsplit : l.sum = (l.take i).sum + (l[i] + (l.drop (i + 1)).sum) := by
    rw [← List.sum_cons, ← List.drop_eq_getElem_cons h, List.sum_take_add_sum_drop]
  refine ⟨(l.take i).sum + (l.drop (i + 1)).sum, by omega, ?_⟩
  rw [List.sum_set, if_pos h]
  omega

theorem Current.mono {last last' : Int} {m : TransferMetrics} (h : m.Current last)
    (hle : last ≤ last') : m.Current last' := by
  refine ⟨h.ten, ?_, h.full⟩
  intro i hi
  rcases h.slot i hi with hnone | ⟨hpos, hlast, hmod⟩
  · exact .inl hnone
  · exact .inr ⟨hpos, by omega, hmod⟩

theorem Current.bytesSupplied {m : TransferMetrics} {last second : Int} {bytes : Nat}
    (h : m.Current last) (hle : last ≤ second) (hsecond : 0 ≤ second) (hlt : second < 2 ^ 32) :
    (m.bytesSupplied bytes second).Current second := by
  by_cases hpos : bytes = 0
  · rw [TransferMetrics.bytesSupplied, if_pos hpos]
    exact h.mono hle
  · obtain ⟨i, hi, hmod, hbuckets⟩ := bytesSupplied_buckets h hpos hsecond hlt
    refine ⟨?_, ?_, ?_⟩
    · rw [hbuckets, List.length_set]
      exact h.ten
    · rw [hbuckets]
      intro j hj
      rw [List.length_set] at hj
      rw [List.getElem_set]
      by_cases heq : i = j
      · simp only [if_pos heq]
        exact .inr ⟨hsecond, Int.le_refl _, heq ▸ hmod.symm⟩
      · simp only [if_neg heq]
        exact (h.mono hle).slot j hj
    · rw [hbuckets]
      intro j hj
      rw [List.length_set] at hj
      rw [List.getElem_set]
      by_cases heq : i = j
      · simp only [if_pos heq]
        exact Nat.min_le_right _ _
      · simp only [if_neg heq]
        exact h.full j hj

/-- A bucket that a later second takes over is too old to count at any time from then on. -/
private theorem share_replaced {b : Bucket} {i : Nat} {now last second : Int}
    (hslot : (b.second = -1 ∧ b.bytes = 0) ∨
      (0 ≤ b.second ∧ b.second ≤ last ∧ b.second % kWindowSeconds = i))
    (hmod : (i : Int) = second % kWindowSeconds) (hle : last ≤ second) (hnow : second ≤ now)
    (hne : b.second ≠ second) : share now b = 0 := by
  unfold share
  split_ifs with hrecent
  · rcases hslot with ⟨_, hzero⟩ | ⟨_, hlast, hsame⟩
    · exact hzero
    · have hnew := hrecent.2
      rw [hmod] at hsame
      simp only [kWindowSeconds] at hsame hnew
      omega
  · rfl

/-- One call adds its bytes to the recent ones, if its second is recent. -/
theorem share_bytesSupplied {m : TransferMetrics} {last second now : Int} {bytes : Nat}
    (h : m.Current last) (hle : last ≤ second) (hsecond : 0 ≤ second) (hlt : second < 2 ^ 32)
    (hnow : second ≤ now) :
    min ((m.bytesSupplied bytes second).buckets.map (share now)).sum uint64Max =
      min ((m.buckets.map (share now)).sum + if Recent now second then bytes else 0)
        uint64Max := by
  by_cases hpos : bytes = 0
  · rw [TransferMetrics.bytesSupplied, if_pos hpos, hpos, ite_self, Nat.add_zero]
  · obtain ⟨i, hi, hmod, hbuckets⟩ := bytesSupplied_buckets h hpos hsecond hlt
    have hi' : i < (m.buckets.map (share now)).length := by
      rw [List.length_map]
      exact hi
    rw [hbuckets, List.map_set]
    generalize hnew : share now _ = new
    obtain ⟨others, hsum, hset⟩ := sum_set_others (m.buckets.map (share now)) i new hi'
    rw [List.getElem_map] at hsum
    rw [hset]
    simp only [share] at hnew
    by_cases hsame : m.buckets[i].second = second
    · have hold : share now m.buckets[i] = if Recent now second then m.buckets[i].bytes else 0 := by
        rw [share, hsame]
      have hfull := h.full i hi
      rw [hold] at hsum
      rw [if_pos hsame] at hnew
      by_cases hrecent : Recent now second
      · simp only [if_pos hrecent] at hnew hsum ⊢
        omega
      · simp only [if_neg hrecent] at hnew hsum ⊢
        omega
    · rw [share_replaced (h.slot i hi) hmod hle hnow hsame] at hsum
      rw [if_neg hsame] at hnew
      split_ifs at hnew hsum ⊢ <;> omega

/-- The run: what the buckets hold for `now` is what was supplied in the last seconds. -/
theorem share_supplyAll {m : TransferMetrics} {last now : Int} {calls : List Supply}
    (h : m.Current last) (hlast : 0 ≤ last)
    (horder : (last :: calls.map Supply.second).Pairwise (· ≤ ·))
    (hnow : ∀ call ∈ calls, call.second ≤ now) (hlt : ∀ call ∈ calls, call.second < 2 ^ 32) :
    min ((m.supplyAll calls).buckets.map (share now)).sum uint64Max =
      min ((m.buckets.map (share now)).sum + suppliedRecently now calls) uint64Max := by
  induction calls generalizing m last with
  | nil => simp [supplyAll, suppliedRecently]
  | cons call rest ih =>
    have hle : last ≤ call.second := (List.pairwise_cons.mp horder).1 _ (by simp)
    have hnow' := hnow call List.mem_cons_self
    have hlt' := hlt call List.mem_cons_self
    have hnext : (m.bytesSupplied call.bytes call.second).Current call.second :=
      h.bytesSupplied hle (by omega) hlt'
    have hstep : min ((m.bytesSupplied call.bytes call.second).buckets.map (share now)).sum
        uint64Max = min ((m.buckets.map (share now)).sum +
          if Recent now call.second then call.bytes else 0) uint64Max :=
      share_bytesSupplied h hle (by omega) hlt' hnow'
    have hrest := ih hnext (by omega) (List.pairwise_cons.mp horder).2
      (fun c hc => hnow c (List.mem_cons_of_mem _ hc))
      (fun c hc => hlt c (List.mem_cons_of_mem _ hc))
    have hcall : suppliedRecently now (call :: rest) =
        (if Recent now call.second then call.bytes else 0) + suppliedRecently now rest := rfl
    rw [supplyAll, List.foldl_cons, ← supplyAll, hrest, hcall]
    omega

private theorem supplyAll_startedSecond (m : TransferMetrics) (calls : List Supply) :
    (m.supplyAll calls).startedSecond = m.startedSecond := by
  induction calls generalizing m with
  | nil => rfl
  | cons call rest ih =>
    rw [supplyAll, List.foldl_cons, ← supplyAll, ih, bytesSupplied]
    split_ifs <;> rfl

/-- The throughput of a snapshot is that of the bytes supplied in the last ten seconds, or since the
reset when that is not so long ago. -/
theorem snapshot_throughput {s₀ now : Int} {calls : List Supply} (hstart : 0 ≤ s₀)
    (horder : (s₀ :: calls.map Supply.second ++ [now]).Pairwise (· ≤ ·))
    (hlt : ∀ call ∈ calls, call.second < 2 ^ 32) :
    ((reset s₀).supplyAll calls).recentBytes now =
        min (suppliedRecently now calls) uint64Max ∧
      ((reset s₀).supplyAll calls).window now = min (kWindowSeconds : Int) (now - s₀ + 1) ∧
      (((reset s₀).supplyAll calls).snapshot now).throughputBitsPerSecond =
        ((min (suppliedRecently now calls) uint64Max : Nat) : Rat) * 8 /
          ((min kWindowSeconds (now - s₀ + 1) : Int) : Rat) := by
  obtain ⟨hcalls, _, hnow⟩ := List.pairwise_append.mp horder
  have hbound : ∀ call ∈ calls, call.second ≤ now := by
    intro call hcall
    have hmem : call.second ∈ s₀ :: calls.map Supply.second :=
      List.mem_cons_of_mem _ (List.mem_map_of_mem hcall)
    exact hnow _ hmem now (by simp)
  have hlate : s₀ ≤ now := hnow s₀ (by simp) now (by simp)
  have hrecent : ((reset s₀).supplyAll calls).recentBytes now =
      min (suppliedRecently now calls) uint64Max := by
    have hnone : ((reset s₀).buckets.map (share now)).sum = 0 := by
      simp [reset, share]
    rw [recentBytes_eq, share_supplyAll (current_reset s₀) hstart hcalls hbound hlt, hnone,
      Nat.zero_add]
  have hwindow : ((reset s₀).supplyAll calls).window now = min (kWindowSeconds : Int) (now - s₀ + 1) := by
    have hstarted : (reset s₀).startedSecond = s₀ := rfl
    have hpos : ¬ s₀ < 0 := by omega
    simp only [window, supplyAll_startedSecond, hstarted, if_neg hpos]
    omega
  refine ⟨hrecent, hwindow, ?_⟩
  rw [snapshot, hrecent, hwindow]

/-- Twelve seconds in, the bytes of the second second are forgotten. -/
theorem snapshot_throughput_twelve :
    ((reset 7).supplyAll [⟨5, 8⟩, ⟨6, 18⟩]).recentBytes 18 =
        min (suppliedRecently 18 [⟨5, 8⟩, ⟨6, 18⟩]) uint64Max ∧
      ((reset 7).supplyAll [⟨5, 8⟩, ⟨6, 18⟩]).window 18 = min (kWindowSeconds : Int) (18 - 7 + 1) ∧
      (((reset 7).supplyAll [⟨5, 8⟩, ⟨6, 18⟩]).snapshot 18).throughputBitsPerSecond =
        ((min (suppliedRecently 18 [⟨5, 8⟩, ⟨6, 18⟩]) uint64Max : Nat) : Rat) * 8 /
          ((min kWindowSeconds (18 - 7 + 1) : Int) : Rat) := by
  have horder : ((7 : Int) :: ([⟨5, 8⟩, ⟨6, 18⟩] : List Supply).map Supply.second ++
      [18]).Pairwise (· ≤ ·) := by
    decide
  exact snapshot_throughput (by decide) horder (by decide)

end FastdlMm.TransferMetrics
