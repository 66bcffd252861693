import Mathlib.Algebra.Order.BigOperators.Group.List
import Mathlib.Algebra.Order.Ring.Nat
import Mathlib.Data.List.AList

namespace FastdlMm

/-- A hash map whose keys are unique by construction; the order of its entries carries no meaning. -/
abbrev Table (κ ν : Type) := AList (fun _ : κ => ν)

namespace Table

variable {κ ν : Type}

def size (m : Table κ ν) : Nat := m.entries.length

/-- One pass over the map that erases every entry `p` does not hold of. -/
def keep (p : κ → ν → Bool) (m : Table κ ν) : Table κ ν :=
  ⟨m.entries.filter (fun e => p e.1 e.2), m.nodupKeys.sublist List.filter_sublist⟩

theorem size_keep_le (p : κ → ν → Bool) (m : Table κ ν) : size (keep p m) ≤ size m :=
  List.length_filter_le _ _

/-- The sum of a measure over all entries. -/
def total (f : κ → ν → Nat) (m : Table κ ν) : Nat := (m.entries.map (fun e => f e.1 e.2)).sum

theorem total_one (m : Table κ ν) : total (fun _ _ => 1) m = size m := by
  simp [total, size]

theorem total_mono {f g : κ → ν → Nat} {m : Table κ ν}
    (h : ∀ e ∈ m.entries, f e.1 e.2 ≤ g e.1 e.2) : total f m ≤ total g m :=
  List.sum_le_sum h

/-- What one pass erases is what the measure loses. -/
theorem total_keep (f : κ → ν → Nat) (p : κ → ν → Bool) (m : Table κ ν) :
    total f (keep p m) +
      ((m.entries.filter (fun e => !p e.1 e.2)).map (fun e => f e.1 e.2)).sum = total f m := by
  simp only [total, keep]
  induction m.entries with
  | nil => rfl
  | cons e es ih =>
    cases hp : p e.1 e.2 <;>
      simp only [List.filter_cons, hp, Bool.not_true, Bool.not_false, if_true, Bool.false_eq_true,
        if_false, List.map_cons, List.sum_cons] <;> omega

variable [DecidableEq κ]

theorem total_erase {m : Table κ ν} {k : κ} {v : ν} (f : κ → ν → Nat) (h : m.lookup k = some v) :
    total f (m.erase k) + f k v = total f m := by
  have hmem : (⟨k, v⟩ : Sigma fun _ : κ => ν) ∈ m.entries := AList.mem_lookup_iff.mp h
  obtain ⟨v', l₁, l₂, hk, hl, he⟩ := List.exists_of_kerase (List.mem_keys_of_mem hmem)
  have hv : v' = v := by
    have hmem' : (⟨k, v'⟩ : Sigma fun _ : κ => ν) ∈ m.entries := by rw [hl]; simp
    rw [← AList.mem_lookup_iff, h] at hmem'
    exact (Option.some.inj hmem').symm
  have herase : (m.erase k).entries = l₁ ++ l₂ := he
  subst hv
  simp only [total, herase, hl, List.map_append, List.map_cons, List.sum_append, List.sum_cons]
  omega

theorem total_insert_some {m : Table κ ν} {k : κ} {v : ν} (f : κ → ν → Nat) (v' : ν)
    (h : m.lookup k = some v) : total f (m.insert k v') + f k v = total f m + f k v' := by
  have hold := total_erase f h
  have herase : (m.erase k).entries = m.entries.kerase k := rfl
  have hnew : total f (m.insert k v') = f k v' + total f (m.erase k) := by
    simp only [total, AList.entries_insert, herase, List.map_cons, List.sum_cons]
  omega

theorem total_insert_none {m : Table κ ν} {k : κ} (f : κ → ν → Nat) (v : ν)
    (h : m.lookup k = none) : total f (m.insert k v) = total f m + f k v := by
  have hk : k ∉ m := AList.lookup_eq_none.mp h
  simp only [total, AList.entries_insert_of_notMem hk, List.map_cons, List.sum_cons]
  omega

/-- What the entry of a key adds to a measure. -/
def weigh (f : κ → ν → Nat) (m : Table κ ν) (k : κ) : Nat := (m.lookup k).elim 0 (f k)

theorem total_erase_weigh (f : κ → ν → Nat) (m : Table κ ν) (k : κ) :
    total f (m.erase k) + weigh f m k = total f m := by
  unfold weigh
  cases h : m.lookup k with
  | none =>
    have hmem : k ∉ m.keys := fun hk => AList.lookup_eq_none.mp h (AList.mem_keys.mpr hk)
    have herase : (m.erase k).entries = m.entries := List.kerase_of_notMem_keys hmem
    simp [total, herase]
  | some v => exact total_erase f h

theorem total_insert_weigh (f : κ → ν → Nat) (m : Table κ ν) (k : κ) (v : ν) :
    total f (m.insert k v) + weigh f m k = total f m + f k v := by
  unfold weigh
  cases h : m.lookup k with
  | none => exact total_insert_none f v h
  | some v' => exact total_insert_some f v h

theorem weigh_erase_ne (f : κ → ν → Nat) (m : Table κ ν) {k k' : κ} (h : k' ≠ k) :
    weigh f (m.erase k) k' = weigh f m k' := by
  rw [weigh, AList.lookup_erase_ne h, weigh]

theorem sum_weigh_erase (f : κ → ν → Nat) (m : Table κ ν) {k : κ} {ks : List κ} (h : k ∉ ks) :
    (ks.map (weigh f (m.erase k))).sum = (ks.map (weigh f m)).sum := by
  apply congrArg
  apply List.map_congr_left
  intro k' hk'
  exact weigh_erase_ne f m fun heq => h (heq ▸ hk')

/-- Different keys weigh no more than everything. -/
theorem sum_weigh_le (f : κ → ν → Nat) {ks : List κ} (m : Table κ ν) (h : ks.Nodup) :
    (ks.map (weigh f m)).sum ≤ total f m := by
  induction ks generalizing m with
  | nil => exact Nat.zero_le _
  | cons k ks ih =>
    obtain ⟨hk, hks⟩ := List.nodup_cons.mp h
    have hrest := ih (m.erase k) hks
    have htotal := total_erase_weigh f m k
    rw [sum_weigh_erase f m hk] at hrest
    rw [List.map_cons, List.sum_cons]
    omega

/-- The keys that weigh anything make up the total. -/
theorem total_eq_sum (f : κ → ν → Nat) {ks : List κ} (m : Table κ ν) (h : ks.Nodup)
    (hcover : ∀ k, weigh f m k ≠ 0 → k ∈ ks) : total f m = (ks.map (weigh f m)).sum := by
  induction ks generalizing m with
  | nil =>
    apply List.sum_eq_zero
    intro n hn
    obtain ⟨e, he, rfl⟩ := List.mem_map.mp hn
    by_contra hne
    have hlookup : m.lookup e.1 = some e.2 := AList.mem_lookup_iff.mpr he
    exact List.not_mem_nil (hcover e.1 (by rwa [weigh, hlookup]))
  | cons k ks ih =>
    obtain ⟨hk, hks⟩ := List.nodup_cons.mp h
    have hrest : total f (m.erase k) = (ks.map (weigh f (m.erase k))).sum := by
      apply ih (m.erase k) hks
      intro k' hk'
      have hne : k' ≠ k := by
        rintro rfl
        apply hk'
        rw [weigh, AList.lookup_erase]
        rfl
      rw [weigh_erase_ne f m hne] at hk'
      exact (List.mem_cons.mp (hcover k' hk')).resolve_left hne
    have htotal := total_erase_weigh f m k
    rw [sum_weigh_erase f m hk] at hrest
    rw [List.map_cons, List.sum_cons]
    omega

theorem lookup_keep (p : κ → ν → Bool) (m : Table κ ν) (k : κ) :
    (keep p m).lookup k = (m.lookup k).filter (p k) := by
  ext v
  rw [← Option.mem_def, AList.mem_lookup_iff, Option.filter_eq_some_iff, ← Option.mem_def,
    AList.mem_lookup_iff]
  simp [keep, List.mem_filter]

theorem lookup_insert_eq_some {m : Table κ ν} {k k' : κ} {v v' : ν}
    (h : (m.insert k v).lookup k' = some v') :
    (k' = k ∧ v' = v) ∨ (k' ≠ k ∧ m.lookup k' = some v') := by
  by_cases hk : k' = k
  · subst hk
    rw [AList.lookup_insert, Option.some.injEq] at h
    exact .inl ⟨rfl, h.symm⟩
  · rw [AList.lookup_insert_ne hk] at h
    exact .inr ⟨hk, h⟩

end Table
end FastdlMm
