import FastdlMm.Server.Headers

namespace FastdlMm.FastdlServer

/-- `w` is a decimal numeral of a value below `2 ^ 64`, leading zeros allowed. -/
structure Numeral (w : Text) (n : Nat) : Prop where
  nonempty : w ≠ []
  digits : ∀ c ∈ w, c.isDigit
  reads : Nat.ofDigitChars 10 w 0 = n
  fits : n < 2 ^ 64

theorem parseUnsigned_iff {w : Text} {n : Nat} : parseUnsigned w = some n ↔ Numeral w n := by
  unfold parseUnsigned
  split_ifs with h
  · constructor
    · intro hn
      cases hn
    · intro hn
      exact absurd h hn.nonempty
  · rw [parseDigits_iff (by omega)]
    constructor
    · rintro ⟨hdigits, hreads, hfits⟩
      exact ⟨h, hdigits, hreads, hfits⟩
    · intro hn
      exact ⟨hn.digits, hn.reads, hn.fits⟩

/-- What may follow `bytes=` for a file of `total` bytes, with the first byte it asks for and the one
behind the last: `A-B`, `A-` or `-S`. -/
inductive Specifies (total : Nat) : Text → Nat → Nat → Prop
  | closed {first second : Text} {A B : Nat} (hA : Numeral first A) (hB : Numeral second B)
      (hle : A ≤ B) (hlt : A < total) :
      Specifies total (first ++ '-' :: second) A (min B (total - 1) + 1)
  | onward {first : Text} {A : Nat} (hA : Numeral first A) (hlt : A < total) :
      Specifies total (first ++ ['-']) A total
  | suffix {second : Text} {S : Nat} (hS : Numeral second S) (hpos : 0 < S) :
      Specifies total ('-' :: second) (total - min S total) total

/-- The value of a header that asks for the bytes from `start` to before `stop`. -/
def AsksFor (v : Text) (total start stop : Nat) : Prop :=
  0 < total ∧ ∃ unit spec, v = unit ++ spec ∧ lowerAscii unit = text "bytes=" ∧
    Specifies total spec start stop

theorem Specifies.bounds {total start stop : Nat} {spec : Text} (ht : 0 < total)
    (h : Specifies total spec start stop) : start < stop ∧ stop ≤ total := by
  cases h with
  | closed hA hB hle hlt => omega
  | onward hA hlt => omega
  | suffix hS hpos => omega

theorem Numeral.not_mem {w : Text} {n : Nat} (h : Numeral w n) {c : Char}
    (hc : c.isDigit = false) : c ∉ w := by
  intro hmem
  have := h.digits c hmem
  rw [hc] at this
  cases this

/-- A text with a dash is what stands before the first one, the dash, and what stands behind. -/
private theorem split_dash {spec : Text} (h : '-' ∈ spec) :
    spec = spec.takeWhile (· ≠ '-') ++ '-' :: (spec.dropWhile (· ≠ '-')).tail := by
  induction spec with
  | nil => cases h
  | cons c cs ih =>
    by_cases hc : c = '-'
    · subst hc
      simp
    · have hmem : '-' ∈ cs := by
        rcases List.mem_cons.mp h with heq | hmem
        · exact absurd heq.symm hc
        · exact hmem
      have hrest := ih hmem
      simp only [ne_eq, hc, not_false_eq_true, decide_true, List.takeWhile_cons_of_pos,
        List.dropWhile_cons_of_pos, List.cons_append, List.cons.injEq, true_and]
      exact hrest

private theorem lowerAscii_unit_length {unit : Text} (h : lowerAscii unit = text "bytes=") :
    unit.length = 6 := by
  have hlen := congrArg List.length h
  rw [text_eq rfl] at hlen
  simpa [lowerAscii] using hlen

/-- Past the unit and the first dash, only the numerals are left to read. -/
private theorem parseRange_dashed {raw unit first second : Text} {total : Nat}
    (hv : trimAscii raw = unit ++ (first ++ '-' :: second)) (hunit : lowerAscii unit = text "bytes=")
    (hcomma : ',' ∉ first ++ second) (hdash : '-' ∉ first ++ second) (ht : 0 < total) :
    parseRange raw total =
      if first = [] then
        (parseUnsigned second).elim { status := .invalid } fun suffix =>
          if suffix = 0 then { status := .invalid }
          else { status := .valid, start := total - min suffix total, length := min suffix total }
      else
        (parseUnsigned first).elim { status := .invalid } fun start =>
          if total ≤ start then { status := .unsatisfiable }
          else
            (rangeEnd second start total).elim { status := .unsatisfiable } fun last =>
              { status := .valid, start := start,
                length := min last (total - 1) - start + 1 } := by
  have hlen := lowerAscii_unit_length hunit
  have hfirst : '-' ∉ first := fun h => hdash (List.mem_append_left second h)
  have hsecond : '-' ∉ second := fun h => hdash (List.mem_append_right first h)
  have htake : (unit ++ (first ++ '-' :: second)).take 6 = unit := List.take_left' hlen
  have hdrop : (unit ++ (first ++ '-' :: second)).drop 6 = first ++ '-' :: second :=
    List.drop_left' hlen
  have hnil : ¬ unit ++ (first ++ '-' :: second) = [] := by simp
  have hbytes : ¬ ((unit ++ (first ++ '-' :: second)).length < 6 ∨
      lowerAscii unit ≠ text "bytes=") := by
    rw [List.length_append, hlen, not_or, not_not]
    exact ⟨by omega, hunit⟩
  have hlist : ¬ (first ++ '-' :: second = [] ∨ ',' ∈ first ++ '-' :: second) := by
    simpa using hcomma
  have hone : ¬ ('-' ∉ first ++ '-' :: second ∨ '-' ∈ second) := by
    simpa using hsecond
  rw [parseRange]
  simp only [hv, htake, hdrop, takeWhile_append_cons_self hfirst, dropWhile_append_cons_self hfirst,
    List.tail_cons, if_neg hnil,
    if_neg hbytes, if_neg hlist, if_neg hone, if_neg (Nat.pos_iff_ne_zero.mp ht)]
  by_cases hempty : first = []
  · rw [if_pos hempty, if_pos hempty]
    cases parseUnsigned second <;> rfl
  · rw [if_neg hempty, if_neg hempty]
    cases parseUnsigned first with
    | none => rfl
    | some start =>
      apply if_congr Iff.rfl rfl
      cases rangeEnd second start total <;> rfl

private theorem Numeral.not_mem_sep {w : Text} {n : Nat} (h : Numeral w n) :
    ',' ∉ w ∧ '-' ∉ w :=
  ⟨h.not_mem (by decide), h.not_mem (by decide)⟩

/-- Every range that the grammar allows is understood. -/
theorem parseRange_of_asksFor {raw : Text} {total start stop : Nat}
    (h : AsksFor (trimAscii raw) total start stop) :
    parseRange raw total = ⟨.valid, start, stop - start⟩ := by
  obtain ⟨ht, unit, spec, hv, hunit, hspec⟩ := h
  cases hspec with
  | @closed first second _ B hA hB hle hlt =>
    obtain ⟨hAc, hAd⟩ := hA.not_mem_sep
    obtain ⟨hBc, hBd⟩ := hB.not_mem_sep
    have hlast : rangeEnd second start total = some B := by
      rw [rangeEnd, if_neg hB.nonempty, parseUnsigned_iff.mpr hB]
      simpa using hle
    rw [parseRange_dashed hv hunit (by simp [hAc, hBc]) (by simp [hAd, hBd]) ht,
      if_neg hA.nonempty, parseUnsigned_iff.mpr hA]
    simp only [Option.elim_some, if_neg hlt.not_ge, hlast, ByteRange.mk.injEq, true_and]
    omega
  | @onward first _ hA hlt =>
    obtain ⟨hAc, hAd⟩ := hA.not_mem_sep
    rw [parseRange_dashed hv hunit (by simpa using hAc) (by simpa using hAd) ht,
      if_neg hA.nonempty, parseUnsigned_iff.mpr hA]
    simp only [Option.elim_some, if_neg hlt.not_ge, rangeEnd, if_true, ByteRange.mk.injEq, true_and]
    omega
  | @suffix second S hS hpos =>
    obtain ⟨hSc, hSd⟩ := hS.not_mem_sep
    have hv' : trimAscii raw = unit ++ ([] ++ '-' :: second) := hv
    rw [parseRange_dashed hv' hunit (by simpa using hSc) (by simpa using hSd) ht, if_pos rfl,
      parseUnsigned_iff.mpr hS]
    simp only [Option.elim_some, if_neg (Nat.pos_iff_ne_zero.mp hpos), ByteRange.mk.injEq, true_and]
    omega

private theorem asksFor_parts {v : Text} {total : Nat}
    (hunit : ¬ (v.length < 6 ∨ lowerAscii (v.take 6) ≠ text "bytes="))
    (hone : ¬ ('-' ∉ v.drop 6 ∨ '-' ∈ ((v.drop 6).dropWhile (· ≠ '-')).tail))
    (hzero : ¬ total = 0) :
    0 < total ∧
      v = v.take 6 ++
        ((v.drop 6).takeWhile (· ≠ '-') ++ '-' :: ((v.drop 6).dropWhile (· ≠ '-')).tail) ∧
      lowerAscii (v.take 6) = text "bytes=" := by
  rw [not_or, not_not] at hunit hone
  refine ⟨Nat.pos_of_ne_zero hzero, ?_, hunit.2⟩
  rw [← split_dash hone.1, List.take_append_drop]

private theorem specifies_of_rangeEnd {first second : Text} {start total last : Nat}
    (hA : Numeral first start) (hlt : start < total) (h : rangeEnd second start total = some last) :
    Specifies total (first ++ '-' :: second) start
      (start + (min last (total - 1) - start + 1)) := by
  unfold rangeEnd at h
  split_ifs at h with hempty
  · have hstop : start + (min last (total - 1) - start + 1) = total := by
      cases h
      omega
    rw [hempty, hstop]
    exact .onward hA hlt
  · obtain ⟨hparse, hle⟩ := Option.filter_eq_some_iff.mp h
    have hle' : start ≤ last := by simpa using hle
    have hstop : start + (min last (total - 1) - start + 1) = min last (total - 1) + 1 := by
      omega
    rw [hstop]
    exact .closed hA (parseUnsigned_iff.mp hparse) hle' hlt

/-- A range that was understood is one that the grammar allows. -/
theorem asksFor_of_parseRange {raw : Text} {total start length : Nat}
    (h : parseRange raw total = ⟨.valid, start, length⟩) :
    AsksFor (trimAscii raw) total start (start + length) := by
  unfold parseRange at h
  simp only at h
  split_ifs at h with hnil hunit hlist hone hzero hfirst
  · cases h
  · cases h
  · cases h
  · cases h
  · cases h
  · obtain ⟨hpos, hv, hlower⟩ := asksFor_parts hunit hone hzero
    rw [hfirst] at hv
    split at h
    · cases h
    · rename_i S hS
      split_ifs at h with hsome
      · cases h
      · have hstop : start + length = total := by
          simp only [ByteRange.mk.injEq, true_and] at h
          omega
        have hstart : start = total - min S total := by
          simp only [ByteRange.mk.injEq, true_and] at h
          exact h.1.symm
        rw [hstop, hstart]
        exact ⟨hpos, _, _, hv, hlower,
          .suffix (parseUnsigned_iff.mp hS) (Nat.pos_of_ne_zero hsome)⟩
  · obtain ⟨hpos, hv, hlower⟩ := asksFor_parts hunit hone hzero
    split at h
    · cases h
    · rename_i A hA
      split_ifs at h with hlt
      · cases h
      · split at h
        · cases h
        · rename_i last hlast
          simp only [ByteRange.mk.injEq, true_and] at h
          obtain ⟨rfl, rfl⟩ := h
          refine ⟨hpos, _, _, hv, hlower, ?_⟩
          exact specifies_of_rangeEnd (parseUnsigned_iff.mp hA) (Nat.lt_of_not_le hlt) hlast

theorem parseRange_status_none {raw : Text} {total : Nat} :
    (parseRange raw total).status = .none ↔ trimAscii raw = [] := by
  constructor
  · intro h
    by_contra hne
    unfold parseRange at h
    simp only [if_neg hne] at h
    split_ifs at h with _ _ _ _ hfirst
    · split at h
      · cases h
      · split_ifs at h
    · split at h
      · cases h
      · split_ifs at h
        split at h
        · cases h
        · cases h
  · intro h
    rw [parseRange]
    simp only [if_pos h]

/-- The parser accepts its grammar and nothing else, and what it answers is the slice meant. -/
theorem parseRange_grammar {raw v : Text} {total : Nat} (hpad : Padded v raw) (hbare : Bare v)
    (ht : total < 2 ^ 64) :
    ((parseRange raw total).status = .none ↔ v = []) ∧
      (∀ start length, parseRange raw total = ⟨.valid, start, length⟩ ↔
        AsksFor v total start (start + length)) ∧
      (v ≠ [] → (∀ start stop, ¬ AsksFor v total start stop) →
        (parseRange raw total).status = .invalid ∨
          (parseRange raw total).status = .unsatisfiable) ∧
      ∀ start length, parseRange raw total = ⟨.valid, start, length⟩ →
        1 ≤ length ∧ start + length ≤ total ∧ start + length < 2 ^ 64 := by
  have htrim : trimAscii raw = v := trimAscii_eq hpad hbare
  have hnone : (parseRange raw total).status = .none ↔ v = [] := by
    rw [parseRange_status_none, htrim]
  have hvalid : ∀ start length, parseRange raw total = ⟨.valid, start, length⟩ ↔
      AsksFor v total start (start + length) := by
    intro start length
    constructor
    · intro h
      rw [← htrim]
      exact asksFor_of_parseRange h
    · intro h
      have hlen : start + length - start = length := by omega
      rw [parseRange_of_asksFor (htrim.symm ▸ h), hlen]
  refine ⟨hnone, hvalid, ?_, ?_⟩
  · intro hne hno
    cases hstatus : (parseRange raw total).status with
    | none => exact absurd (hnone.mp hstatus) hne
    | invalid => exact .inl rfl
    | unsatisfiable => exact .inr rfl
    | valid =>
      have heq : parseRange raw total =
          ⟨.valid, (parseRange raw total).start, (parseRange raw total).length⟩ := by
        rw [← hstatus]
      exact absurd ((hvalid _ _).mp heq) (hno _ _)
  · intro start length h
    obtain ⟨hpos, _, _, _, _, hspec⟩ := (hvalid start length).mp h
    have := hspec.bounds hpos
    omega

theorem parseRange_grammar_suffix :
    parseRange [' ', 'B', 'y', 't', 'e', 's', '=', '-', '5', '\t'] 3 = ⟨.valid, 0, 3⟩ ↔
      AsksFor ['B', 'y', 't', 'e', 's', '=', '-', '5'] 3 0 3 := by
  have hpad : Padded ['B', 'y', 't', 'e', 's', '=', '-', '5']
      [' ', 'B', 'y', 't', 'e', 's', '=', '-', '5', '\t'] :=
    ⟨[' '], ['\t'], rfl, forall_of_all rfl, forall_of_all rfl⟩
  have hbare : Bare ['B', 'y', 't', 'e', 's', '=', '-', '5'] := by
    constructor <;> rintro c ⟨⟩ <;> rfl
  exact (parseRange_grammar hpad hbare (by decide)).2.1 0 3

end FastdlMm.FastdlServer
