import FastdlMm.Framework.Separated
import FastdlMm.Server.Negotiation

namespace FastdlMm.FastdlServer

/-- `strtod` reads exponents, hexadecimal digits, infinities and NaNs in either case. -/
def CLibrary.IgnoresCase (lib : CLibrary) : Prop := ∀ v, lib.strtod (lowerAscii v) = lib.strtod v

/-- A coding with its parameters, as a client may list it. -/
structure AcceptedCoding where
  name : Text
  parameters : List Text
  plain : ∀ c ∈ name, c ≠ ',' ∧ c ≠ ';' ∧ isBlank c = false
  separate : ∀ p ∈ parameters, ',' ∉ p ∧ ';' ∉ p

/-- `strtod` reads all of the C string as a number above 0 and at most 1. -/
def QualityValue (lib : CLibrary) (value : Text) : Prop :=
  ∃ quality, (lib.strtod (cString value)).value = some quality ∧ 0 < quality ∧ quality ≤ 1 ∧
    (lib.strtod (cString value)).consumed = (cString value).length ∧
    (lib.strtod (cString value)).consumed ≠ 0

namespace AcceptedCoding

def Named (e : AcceptedCoding) (name : Text) : Prop := lowerAscii e.name = name

/-- All the `q` parameters are valid. -/
def Allowed (lib : CLibrary) (e : AcceptedCoding) : Prop :=
  ∀ p ∈ e.parameters, ∀ mark value, trimAscii p = mark ++ value → lowerAscii mark = ['q', '='] →
    QualityValue lib value

/-- `w` is the coding with its parameters, with semicolons and blanks between them. -/
def Writes (e : AcceptedCoding) (w : Text) : Prop :=
  ∃ parts, List.Forall₂ Padded (e.name :: e.parameters) parts ∧ w = [';'].intercalate parts

end AcceptedCoding

/-- `raw` is the list of the codings, with commas and blanks between them. -/
def ListsCodings (codings : List AcceptedCoding) (raw : Text) : Prop :=
  ∃ written, List.Forall₂ AcceptedCoding.Writes codings written ∧ raw = [','].intercalate written

/-- No two codings have one name, in any case of its letters. -/
def Distinct (codings : List AcceptedCoding) : Prop :=
  codings.Pairwise (fun e e' => lowerAscii e.name ≠ lowerAscii e'.name)

/-- The coding of that name is listed and allowed. -/
def Granted (lib : CLibrary) (codings : List AcceptedCoding) (name : Text) : Prop :=
  ∃ e ∈ codings, e.Named name ∧ e.Allowed lib

def IsListed (codings : List AcceptedCoding) (name : Text) : Prop := ∃ e ∈ codings, e.Named name

private theorem isUpper_or_isLower {c : Char} : c.isAlpha = true ↔
    (c.val ≥ 'A'.val ∧ c.val ≤ 'Z'.val) ∨ (c.val ≥ 'a'.val ∧ c.val ≤ 'z'.val) := by
  show (decide (c.val ≥ 'A'.val ∧ c.val ≤ 'Z'.val) ||
    (decide (c.val ≥ 'a'.val) && decide (c.val ≤ 'z'.val))) = true ↔ _
  rw [Bool.or_eq_true, Bool.and_eq_true, decide_eq_true_iff, decide_eq_true_iff, decide_eq_true_iff]

private theorem toLower_of_not_upper {c : Char} (hc : ¬ (c.val ≥ 'A'.val ∧ c.val ≤ 'Z'.val)) :
    c.toLower = c := dif_neg hc

private theorem isAlpha_toLower {c : Char} (hc : c.val ≥ 'A'.val ∧ c.val ≤ 'Z'.val) :
    c.isAlpha = true ∧ c.toLower.isAlpha = true := by
  have hlow : 65 ≤ c.toNat := UInt32.le_iff_toNat_le.mp hc.1
  have hhigh : c.toNat ≤ 90 := UInt32.le_iff_toNat_le.mp hc.2
  have hval : c.toLower.val = c.val + ('a'.val - 'A'.val) := congrArg Char.val (dif_pos hc)
  refine ⟨isUpper_or_isLower.mpr (.inl hc), isUpper_or_isLower.mpr (.inr ?_)⟩
  rw [hval]
  constructor
  · apply UInt32.le_iff_toNat_le.mpr
    rw [UInt32.toNat_add]
    simp
    omega
  · apply UInt32.le_iff_toNat_le.mpr
    rw [UInt32.toNat_add]
    simp
    omega

private theorem isDigit_toLower (c : Char) :
    c.toLower.isDigit = c.isDigit ∧ (c.isDigit = true → c.toLower = c) := by
  have hno {d : Char} (hd : d.isAlpha = true) : d.isDigit = false := by
    have hlow : 65 ≤ d.toNat := by
      rcases isUpper_or_isLower.mp hd with h | h
      · exact UInt32.le_iff_toNat_le.mp h.1
      · have hbelow : 97 ≤ d.toNat := UInt32.le_iff_toNat_le.mp h.1
        omega
    cases hdigit : d.isDigit with
    | false => rfl
    | true =>
      have hrange := Char.isDigit_iff_toNat.mp hdigit
      have h9 : '9'.toNat = 57 := rfl
      omega
  by_cases hc : c.val ≥ 'A'.val ∧ c.val ≤ 'Z'.val
  · obtain ⟨hupper, hlower⟩ := isAlpha_toLower hc
    rw [hno hupper, hno hlower]
    exact ⟨rfl, fun h => by cases h⟩
  · rw [toLower_of_not_upper hc]
    exact ⟨rfl, fun _ => rfl⟩

/-- Only letters change their case. -/
private theorem toLower_eq_iff {c d : Char} (hd : d.isAlpha = false) : c.toLower = d ↔ c = d := by
  by_cases hc : c.val ≥ 'A'.val ∧ c.val ≤ 'Z'.val
  · obtain ⟨hupper, hlower⟩ := isAlpha_toLower hc
    constructor
    · rintro rfl
      rw [hd] at hlower
      cases hlower
    · rintro rfl
      rw [hd] at hupper
      cases hupper
  · rw [toLower_of_not_upper hc]

theorem cString_lowerAscii (value : Text) : cString (lowerAscii value) = lowerAscii (cString value) := by
  have hnul (c : Char) : decide (c.toLower ≠ '\x00') = decide (c ≠ '\x00') := by
    simp only [ne_eq, toLower_eq_iff (by decide : Char.isAlpha '\x00' = false)]
  induction value with
  | nil => rfl
  | cons c cs ih =>
    simp only [cString, lowerAscii, List.map_cons, List.takeWhile_cons, hnul c] at ih ⊢
    split_ifs
    · rw [ih, List.map_cons]
    · rfl

theorem validQuality_lowerAscii {lib : CLibrary} (hcase : lib.IgnoresCase) (value : Text) :
    validQuality lib (lowerAscii value) = true ↔ QualityValue lib value := by
  have hread : lib.strtod (cString (lowerAscii value)) = lib.strtod (cString value) := by
    rw [cString_lowerAscii, hcase]
  have hlength : (cString (lowerAscii value)).length = (cString value).length := by
    rw [cString_lowerAscii, lowerAscii, List.length_map]
  rw [validQuality]
  simp only [hread, hlength, QualityValue]
  cases (lib.strtod (cString value)).value with
  | none => simp
  | some quality =>
    simp only [Bool.and_eq_true, decide_eq_true_eq, Option.some.injEq, exists_eq_left']
    tauto

/-- A parameter forbids its coding only as a `q` parameter with a bad value. -/
theorem parameterAllows_iff {lib : CLibrary} (hcase : lib.IgnoresCase) (p : Text) :
    parameterAllows lib p = true ↔ ∀ mark value, trimAscii p = mark ++ value →
      lowerAscii mark = ['q', '='] → QualityValue lib value := by
  have hq : text "q=" = ['q', '='] := text_eq rfl
  simp only [parameterAllows, hq]
  split_ifs with hprefix
  · obtain ⟨rest, hrest⟩ := List.isPrefixOf_iff_prefix.mp hprefix
    have hmark : lowerAscii ((trimAscii p).take 2) = ['q', '='] := by
      rw [lowerAscii, List.map_take, ← lowerAscii, ← hrest]
      rfl
    have hdrop : (lowerAscii (trimAscii p)).drop 2 = lowerAscii ((trimAscii p).drop 2) := by
      rw [lowerAscii, lowerAscii, List.map_drop]
    rw [hdrop, validQuality_lowerAscii hcase]
    constructor
    · intro h mark value heq hlower
      have hlen : mark.length = 2 := by
        have := congrArg List.length hlower
        simpa [lowerAscii] using this
      rw [heq, List.drop_left' hlen] at h
      exact h
    · intro h
      exact h _ _ (List.take_append_drop 2 (trimAscii p)).symm hmark
  · simp only [true_iff]
    intro mark value heq hlower
    apply absurd _ hprefix
    apply List.isPrefixOf_iff_prefix.mpr
    refine ⟨lowerAscii value, ?_⟩
    rw [← hlower, heq, lowerAscii, lowerAscii, lowerAscii, List.map_append]

/-- Trimming a text first or each of its parts last comes to the same. -/
theorem splitOn_trimAscii {x : Char} (hx : isBlank x = false) (w : Text) :
    ((trimAscii w).splitOn x).map trimAscii = (w.splitOn x).map trimAscii := by
  obtain ⟨before, after, hw, hbefore, hafter⟩ := padded_trimAscii w
  have hfront {part : Text} : trimAscii (before ++ part) = trimAscii part :=
    trimAscii_of_padded ⟨before, [], by simp, hbefore, by simp⟩
  have hback {part : Text} : trimAscii (part ++ after) = trimAscii part :=
    trimAscii_of_padded ⟨[], after, by simp, by simp, hafter⟩
  conv_rhs => rw [hw]
  rcases singleton_or_ends (List.splitOn_ne_nil x (trimAscii w)) with ⟨only, hsplit⟩ |
    ⟨first, inner, last, hsplit⟩
  · rw [splitOn_surround_only (not_mem_blanks hx hbefore) (not_mem_blanks hx hafter) hsplit, hsplit,
      eq_of_splitOn_singleton hsplit, List.map_singleton, List.map_singleton, hback, hfront]
  · rw [splitOn_surround (not_mem_blanks hx hbefore) (not_mem_blanks hx hafter) hsplit, hsplit]
    simp only [List.cons_append, List.map_cons, List.map_append, List.map_nil, hfront, hback]

private theorem map_trimAscii_of_padded {parts raws : List Text}
    (h : List.Forall₂ Padded parts raws) : raws.map trimAscii = parts.map trimAscii := by
  induction h with
  | nil => rfl
  | cons hpad _ ih => rw [List.map_cons, List.map_cons, ih, trimAscii_of_padded hpad]

namespace AcceptedCoding

private theorem padded_not_mem {x : Char} (hx : isBlank x = false) {parts raws : List Text}
    (h : List.Forall₂ Padded parts raws) (hparts : ∀ p ∈ parts, x ∉ p) : ∀ raw ∈ raws, x ∉ raw := by
  induction h with
  | nil => simp
  | cons hpad _ ih =>
    obtain ⟨hp, hrest⟩ := List.forall_mem_cons.mp hparts
    rw [List.forall_mem_cons]
    refine ⟨?_, ih hrest⟩
    obtain ⟨before, after, rfl, hbefore, hafter⟩ := hpad
    simp [hp, not_mem_blanks hx hbefore, not_mem_blanks hx hafter]

private theorem separated (e : AcceptedCoding) :
    (∀ p ∈ e.name :: e.parameters, ',' ∉ p) ∧ ∀ p ∈ e.name :: e.parameters, ';' ∉ p := by
  constructor
  · rw [List.forall_mem_cons]
    exact ⟨fun h => (e.plain _ h).1 rfl, fun p hp => (e.separate p hp).1⟩
  · rw [List.forall_mem_cons]
    exact ⟨fun h => (e.plain _ h).2.1 rfl, fun p hp => (e.separate p hp).2⟩

/-- The parts of a written coding are its name and its parameters. -/
theorem Writes.parts {e : AcceptedCoding} {w : Text} (h : e.Writes w) :
    ((trimAscii w).splitOn ';').map trimAscii = e.name :: e.parameters.map trimAscii := by
  obtain ⟨raws, hraws, rfl⟩ := h
  have hne : raws ≠ [] := by
    rintro rfl
    cases hraws
  have hsplit : ([';'].intercalate raws).splitOn ';' = raws :=
    List.splitOn_intercalate ';' (padded_not_mem (by decide) hraws e.separated.2) hne
  have hname : trimAscii e.name = e.name := by
    apply trimAscii_eq_self
    · intro c hc
      exact (e.plain c (List.mem_of_mem_head? hc)).2.2
    · intro c hc
      exact (e.plain c (List.mem_of_mem_getLast? hc)).2.2
  rw [splitOn_trimAscii (by decide), hsplit, map_trimAscii_of_padded hraws, List.map_cons, hname]

theorem Writes.not_mem_comma {e : AcceptedCoding} {w : Text} (h : e.Writes w) : ',' ∉ w := by
  obtain ⟨raws, hraws, rfl⟩ := h
  have hnot := padded_not_mem (by decide) hraws e.separated.1
  intro hmem
  rcases mem_intercalate hmem with heq | ⟨piece, hpiece, hmem⟩
  · cases heq
  · exact hnot piece hpiece hmem

/-- What the loop reads off a written coding: its name, and whether it is allowed. -/
theorem Writes.read {e : AcceptedCoding} {w : Text} (h : e.Writes w) {lib : CLibrary}
    (hcase : lib.IgnoresCase) :
    lowerAscii (trimAscii (((trimAscii w).splitOn ';').headD [])) = lowerAscii e.name ∧
      (((trimAscii w).splitOn ';').tail.all (parameterAllows lib) = true ↔ e.Allowed lib) := by
  have hparts := h.parts
  obtain ⟨first, rest, hsplit⟩ := List.exists_cons_of_ne_nil (List.splitOn_ne_nil ';' (trimAscii w))
  rw [hsplit, List.map_cons, List.cons.injEq] at hparts
  rw [hsplit]
  constructor
  · rw [List.headD_cons, hparts.1]
  · have hall {ps : List Text} : (∀ p ∈ ps, parameterAllows lib p = true) ↔
        ∀ v ∈ ps.map trimAscii, ∀ mark value, v = mark ++ value → lowerAscii mark = ['q', '='] →
          QualityValue lib value := by
      simp only [List.forall_mem_map, parameterAllows_iff hcase]
    rw [List.tail_cons, List.all_eq_true, hall, hparts.2, ← hall]
    simp only [parameterAllows_iff hcase, Allowed]

end AcceptedCoding

private theorem granted_cons {lib : CLibrary} {e : AcceptedCoding} {rest : List AcceptedCoding}
    {name : Text} :
    Granted lib (e :: rest) name ↔ e.Named name ∧ e.Allowed lib ∨ Granted lib rest name := by
  simp only [Granted, List.mem_cons, exists_eq_or_imp]

private theorem isListed_cons {e : AcceptedCoding} {rest : List AcceptedCoding} {name : Text} :
    IsListed (e :: rest) name ↔ e.Named name ∨ IsListed rest name := by
  simp only [IsListed, List.mem_cons, exists_eq_or_imp]

private theorem isListed_of_granted {lib : CLibrary} {codings : List AcceptedCoding} {name : Text}
    (h : Granted lib codings name) : IsListed codings name := by
  obtain ⟨e, he, hname, _⟩ := h
  exact ⟨e, he, hname⟩

/-- A name at the head of a list of distinct codings does not come again. -/
private theorem Distinct.not_listed {e : AcceptedCoding} {rest : List AcceptedCoding} {name : Text}
    (hd : Distinct (e :: rest)) (he : e.Named name) : ¬ IsListed rest name := by
  rintro ⟨e', he', hname⟩
  exact (List.pairwise_cons.mp hd).1 e' he' (he.trans hname.symm)

/-- The loop, entered with any state of its two flags. -/
private theorem acceptsGzipFrom_iff {lib : CLibrary} (hcase : lib.IgnoresCase)
    {codings : List AcceptedCoding} {written : List Text}
    (h : List.Forall₂ AcceptedCoding.Writes codings written) (hd : Distinct codings)
    (wildcard wildcardAllowed : Bool) :
    acceptsGzipFrom lib wildcard wildcardAllowed written = true ↔
      Granted lib codings (text "gzip") ∨ ¬ IsListed codings (text "gzip") ∧
        (Granted lib codings (text "*") ∨
          ¬ IsListed codings (text "*") ∧ wildcard = true ∧ wildcardAllowed = true) := by
  induction h generalizing wildcard wildcardAllowed with
  | nil => simp [acceptsGzipFrom, Granted, IsListed]
  | @cons e w rest _ hwrites _ ih =>
    obtain ⟨hname, hallowed⟩ := hwrites.read hcase
    have hrest := (List.pairwise_cons.mp hd).2
    rw [acceptsGzipFrom]
    simp only [hname, granted_cons, isListed_cons]
    split_ifs with hgzip hstar
    · -- the first coding named gzip decides
      have hlisted : ¬ IsListed rest (text "gzip") := hd.not_listed hgzip
      have hgranted : ¬ Granted lib rest (text "gzip") := fun h => hlisted (isListed_of_granted h)
      have hnamed : e.Named (text "gzip") := hgzip
      rw [hallowed]
      simp only [hnamed, hgranted, true_and, or_false, true_or, not_true_eq_false, false_and]
    · have hlisted : ¬ IsListed rest (text "*") := hd.not_listed hstar
      have hgranted : ¬ Granted lib rest (text "*") := fun h => hlisted (isListed_of_granted h)
      have hnamed : e.Named (text "*") := hstar
      have hother : ¬ e.Named (text "gzip") := hgzip
      rw [ih hrest true _]
      simp only [hnamed, hother, hgranted, hlisted, hallowed, true_and, false_and, false_or,
        or_false, not_false_eq_true, not_true_eq_false]
    · have hother : ¬ e.Named (text "gzip") := hgzip
      have hplain : ¬ e.Named (text "*") := hstar
      rw [ih hrest wildcard wildcardAllowed]
      simp only [hother, hplain, false_and, false_or]

/-- Gzip is sent when it is listed and not forbidden, or when it is not listed and the wildcard is
listed and not forbidden. -/
def GzipRule (lib : CLibrary) (codings : List AcceptedCoding) : Prop :=
  Granted lib codings (text "gzip") ∨
    ¬ IsListed codings (text "gzip") ∧ Granted lib codings (text "*")

theorem acceptsGzip_iff {lib : CLibrary} {codings : List AcceptedCoding} {raw : Text}
    (hcase : lib.IgnoresCase) (hlist : ListsCodings codings raw) (hd : Distinct codings) :
    acceptsGzip lib raw = true ↔ GzipRule lib codings := by
  obtain ⟨written, hwritten, rfl⟩ := hlist
  by_cases hne : written = []
  · subst hne
    cases hwritten
    have hgzip : text "gzip" = ['g', 'z', 'i', 'p'] := text_eq rfl
    have hstar : text "*" = ['*'] := text_eq rfl
    simp [acceptsGzip, acceptsGzipFrom, GzipRule, Granted, trimAscii, lowerAscii, hgzip, hstar]
  · have hcomma : (∃ e ∈ codings, False) ↔ ∃ w ∈ written, ',' ∈ w :=
      exists_mem_iff_of_forall₂ hwritten fun _ _ _ hwrites =>
        ⟨False.elim, hwrites.not_mem_comma⟩
    have hplain : ∀ w ∈ written, ',' ∉ w := by
      intro w hw hmem
      obtain ⟨_, _, hfalse⟩ := hcomma.mpr ⟨w, hw, hmem⟩
      exact hfalse
    rw [acceptsGzip, List.splitOn_intercalate ',' hplain hne,
      acceptsGzipFrom_iff hcase hwritten hd false false, GzipRule]
    simp

theorem GzipRule.perm {lib : CLibrary} {codings codings' : List AcceptedCoding}
    (h : codings.Perm codings') : GzipRule lib codings ↔ GzipRule lib codings' := by
  simp only [GzipRule, Granted, IsListed, h.mem_iff]

/-- The answer follows the rule, so it does not depend on the order of the codings. -/
theorem acceptsGzip_rule {lib : CLibrary} {codings : List AcceptedCoding} {raw : Text}
    (hcase : lib.IgnoresCase) (hlist : ListsCodings codings raw) (hd : Distinct codings) :
    (acceptsGzip lib raw = true ↔ GzipRule lib codings) ∧
      ∀ codings' raw', codings.Perm codings' → ListsCodings codings' raw' →
        acceptsGzip lib raw' = acceptsGzip lib raw := by
  refine ⟨acceptsGzip_iff hcase hlist hd, ?_⟩
  intro codings' raw' hperm hlist'
  have hd' : Distinct codings' := hd.perm hperm fun h => h.symm
  rw [Bool.eq_iff_iff, acceptsGzip_iff hcase hlist' hd', acceptsGzip_iff hcase hlist hd]
  exact (GzipRule.perm hperm).symm

/-- A library whose `strtod` knows the digits in front of a text and no more. -/
def digitLibrary : CLibrary where
  putTime := fun _ => none
  getTime := fun _ => none
  strtod := fun v =>
    ⟨some (Nat.ofDigitChars 10 (v.takeWhile Char.isDigit) 0), (v.takeWhile Char.isDigit).length⟩

theorem digitLibrary_ignoresCase : digitLibrary.IgnoresCase := by
  intro v
  have hdigits : (lowerAscii v).takeWhile Char.isDigit = v.takeWhile Char.isDigit := by
    induction v with
    | nil => rfl
    | cons c cs ih =>
      rw [lowerAscii, List.map_cons, ← lowerAscii, List.takeWhile_cons, List.takeWhile_cons, ih,
        (isDigit_toLower c).1]
      split_ifs with hc
      · rw [(isDigit_toLower c).2 hc]
      · rfl
  rw [digitLibrary]
  simp only [hdigits]

/-- The coding `GZIP;q=1`. -/
def gzipCoding : AcceptedCoding :=
  ⟨['G', 'Z', 'I', 'P'], [['q', '=', '1']], forall_of_all rfl, by simp⟩

/-- The wildcard, forbidden with `*;q=0`. -/
def noOtherCoding : AcceptedCoding := ⟨['*'], [['q', '=', '0']], forall_of_all rfl, by simp⟩

theorem writes_noOtherCoding : noOtherCoding.Writes (text "*;q=0") := by
  have hname : Padded ['*'] ['*'] := ⟨[], [], by simp, by simp, by simp⟩
  have hparameter : Padded ['q', '=', '0'] ['q', '=', '0'] := ⟨[], [], by simp, by simp, by simp⟩
  exact ⟨_, .cons hname (.cons hparameter .nil), by decide +kernel⟩

theorem writes_gzipCoding : gzipCoding.Writes (text "GZIP; q=1") := by
  have hname : Padded ['G', 'Z', 'I', 'P'] ['G', 'Z', 'I', 'P'] :=
    ⟨[], [], by simp, by simp, by simp⟩
  have hparameter : Padded ['q', '=', '1'] [' ', 'q', '=', '1'] :=
    ⟨[' '], [], by simp, by simp [isBlank], by simp⟩
  exact ⟨_, .cons hname (.cons hparameter .nil), by decide +kernel⟩

/-- A wildcard that forbids the rest takes nothing from gzip, before it or after it. -/
theorem acceptsGzip_rule_noOtherCoding :
    GzipRule digitLibrary [noOtherCoding, gzipCoding] ∧
      acceptsGzip digitLibrary (text "GZIP; q=1,*;q=0") = true := by
  have hlist : ListsCodings [noOtherCoding, gzipCoding] (text "*;q=0,GZIP; q=1") :=
    ⟨_, .cons writes_noOtherCoding (.cons writes_gzipCoding .nil), by decide +kernel⟩
  have hlist' : ListsCodings [gzipCoding, noOtherCoding] (text "GZIP; q=1,*;q=0") :=
    ⟨_, .cons writes_gzipCoding (.cons writes_noOtherCoding .nil), by decide +kernel⟩
  have hdistinct : Distinct [noOtherCoding, gzipCoding] :=
    List.pairwise_pair.mpr (by decide +kernel)
  have haccepts : acceptsGzip digitLibrary (text "*;q=0,GZIP; q=1") = true := by decide +kernel
  obtain ⟨hrule, hperm⟩ := acceptsGzip_rule digitLibrary_ignoresCase hlist hdistinct
  exact ⟨hrule.mp haccepts, (hperm _ _ (List.Perm.swap _ _ _) hlist').trans haccepts⟩

end FastdlMm.FastdlServer
