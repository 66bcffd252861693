import FastdlMm.Cache.Maintain

namespace FastdlMm.CompressionCache

/-- A cache name is made of its key and what follows it. -/
theorem artifact_keyOf {name : Text} {x : Suffix} (h : cacheName name x = true) :
    artifact (keyOf name) x = name := by
  simp only [cacheName, Bool.and_eq_true, beq_iff_eq] at h
  obtain ⟨⟨-, hdrop⟩, -⟩ := h
  rw [artifact, keyOf, ← hdrop]
  exact List.take_append_drop 32 name

/-- No name is of two kinds. -/
theorem cacheName_artifact {key : Text} {x y : Suffix} (h : cacheName (artifact key x) y = true) :
    x = y := by
  have hsame := artifact_keyOf h
  exact (artifact_inj.mp hsame).2.symm

theorem cacheName_other {name : Text} {x y : Suffix} (h : cacheName name x = true) (hne : x ≠ y) :
    cacheName name y = false := by
  apply Bool.eq_false_of_not_eq_true
  intro hy
  rw [← artifact_keyOf h] at hy
  exact hne (cacheName_artifact hy)

/-- A file beside the artifacts: its name is that of a marker or of a temporary file. -/
theorem beside (key : Text) {x : Suffix} (hx : x ≠ .gzip) :
    cacheName (artifact key x) .gzip = false :=
  Bool.eq_false_of_not_eq_true fun h => hx (cacheName_artifact h)

/-- A key that is found again in the directory: 32 hexadecimal digits. -/
def IsKey (key : Text) : Prop := cacheName (artifact key .gzip) .gzip = true

theorem cacheName_of_digits {key : Text} (hlength : key.length = 32)
    (hdigits : ∀ c ∈ key, (c.isDigit || ('a' ≤ c && c ≤ 'f') || ('A' ≤ c && c ≤ 'F')) = true)
    (x : Suffix) : cacheName (artifact key x) x = true := by
  have htake : (artifact key x).take 32 = key := by
    rw [artifact, ← hlength, List.take_left']
    rfl
  have hdrop : (artifact key x).drop 32 = x.name := by
    rw [artifact, ← hlength, List.drop_left']
    rfl
  unfold cacheName
  rw [htake, hdrop, artifact, List.length_append, hlength]
  simp only [beq_self_eq_true, Bool.true_and]
  exact List.all_eq_true.mpr hdigits

theorem isKey_of_digits {key : Text} (hlength : key.length = 32)
    (hdigits : ∀ c ∈ key, (c.isDigit || ('a' ≤ c && c ≤ 'f') || ('A' ≤ c && c ≤ 'F')) = true) :
    IsKey key := cacheName_of_digits hlength hdigits .gzip

/-- The files that share the key of a cache name have cache names too. -/
theorem cacheName_keyOf {name : Text} {x : Suffix} (h : cacheName name x = true) (y : Suffix) :
    cacheName (artifact (keyOf name) y) y = true := by
  simp only [cacheName, Bool.and_eq_true, beq_iff_eq] at h
  obtain ⟨⟨hlength, -⟩, hdigits⟩ := h
  have hkey : (keyOf name).length = 32 := by
    rw [keyOf, List.length_take, hlength]
    omega
  exact cacheName_of_digits hkey (List.all_eq_true.mp hdigits) y

theorem fnv1a_lt (value : Text) {seed : Nat} (h : seed < 2 ^ 64) : fnv1a value seed < 2 ^ 64 := by
  unfold fnv1a
  induction value generalizing seed with
  | nil => exact h
  | cons c cs ih => exact ih (Nat.mod_lt _ (by decide))

theorem padded_length {value : Text} (h : value.length ≤ 16) :
    (value.leftpad 16 '0').length = 16 := by
  rw [List.length_leftpad]
  exact Nat.max_eq_left h

theorem padded_digits {n : Nat} {c : Char} (h : c ∈ (hexadecimal n).leftpad 16 '0') :
    (c.isDigit || ('a' ≤ c && c ≤ 'f') || ('A' ≤ c && c ≤ 'F')) = true := by
  obtain hc | hc := List.mem_append.mp h
  · rw [List.eq_of_mem_replicate hc]
    decide
  · exact hexadecimal_digits n c hc

theorem isKey_cacheKey (identity : Text) : IsKey (cacheKey identity) := by
  have hfirst := hexadecimal_length_le (fnv1a_lt identity (show 14695981039346656037 < 2 ^ 64 by decide))
  have hsecond := hexadecimal_length_le (fnv1a_lt identity (show 7809847782465536322 < 2 ^ 64 by decide))
  apply isKey_of_digits
  · rw [cacheKey, List.length_append, padded_length hfirst, padded_length hsecond]
  · intro c hc
    obtain hc | hc := List.mem_append.mp hc
    · exact padded_digits hc
    · exact padded_digits hc

/-- A measure of the `.gz` artifacts in the directory, summed up. -/
def artifactSum (g : File → Nat) (d : Directory) : Nat :=
  Table.total (fun name f => if cacheName name .gzip then g f else 0) d

def artifactCount (d : Directory) : Nat := artifactSum (fun _ => 1) d

def artifactBytes (d : Directory) : Nat := artifactSum (fun f => f.data.length) d

section Sums

variable (g : File → Nat) (d : Directory) {name : Text} {f : File}

theorem weigh_artifact (hname : cacheName name .gzip = true) (hf : d.lookup name = some f) :
    Table.weigh (fun name f => if cacheName name .gzip then g f else 0) d name = g f := by
  simp only [Table.weigh, hf, Option.elim_some, hname, if_true]

theorem weigh_other (h : cacheName name .gzip = false ∨ d.lookup name = none) :
    Table.weigh (fun name f => if cacheName name .gzip then g f else 0) d name = 0 := by
  unfold Table.weigh
  obtain hname | hnone := h
  · simp only [hname, Bool.false_eq_true, if_false]
    cases d.lookup name <;> rfl
  · rw [hnone]
    rfl

theorem artifactSum_erase_le (name : Text) : artifactSum g (d.erase name) ≤ artifactSum g d :=
  Nat.le.intro (Table.total_erase_weigh _ d name)

theorem artifactSum_erase (hname : cacheName name .gzip = true) (hf : d.lookup name = some f) :
    artifactSum g (d.erase name) + g f = artifactSum g d := by
  have htotal := Table.total_erase_weigh (fun name f => if cacheName name .gzip then g f else 0) d name
  rw [weigh_artifact g d hname hf] at htotal
  exact htotal

theorem artifactSum_erase_other (h : cacheName name .gzip = false ∨ d.lookup name = none) :
    artifactSum g (d.erase name) = artifactSum g d := by
  have htotal := Table.total_erase_weigh (fun name f => if cacheName name .gzip then g f else 0) d name
  rw [weigh_other g d h] at htotal
  exact htotal

theorem artifactSum_insert (hname : cacheName name .gzip = true) (hnone : d.lookup name = none)
    (f : File) : artifactSum g (d.insert name f) = artifactSum g d + g f := by
  have htotal := Table.total_insert_weigh (fun name f => if cacheName name .gzip then g f else 0) d name f
  rw [weigh_other g d (.inr hnone), hname] at htotal
  exact htotal

end Sums
end FastdlMm.CompressionCache
