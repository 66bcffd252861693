import FastdlMm.Framework.Separated
import FastdlMm.Framework.Text
import FastdlMm.Framework.Words
import Mathlib.Data.List.TakeWhile

namespace FastdlMm.FastdlServer

/-- The copy of a C string, none when it is longer than the limit. -/
def boundedCopy (value : Option Text) (limit : Nat) : Option Text :=
  match value with
  | none => some []
  | some v =>
      let v := v.takeWhile (fun c => c.toNat ≠ 0)
      if limit < v.length then none else some v

inductive HeaderName where
  | range
  | ifRange
  | acceptEncoding
  | ifNoneMatch
  | ifModifiedSince
  deriving DecidableEq

/-- The headers of a request, by the names `serveFile` looks up. -/
abbrev Headers := HeaderName → Option Text

/-- A missing or overlong header reads as empty. -/
def header (headers : Headers) (name : HeaderName) (maxLength : Nat) : Text :=
  (boundedCopy (headers name) maxLength).getD []

theorem header_eq {headers : Headers} {name : HeaderName} {maxLength : Nat} {v : Text}
    (h : headers name = some v) (hplain : ∀ c ∈ v, c.toNat ≠ 0) (hlen : v.length ≤ maxLength) :
    header headers name maxLength = v := by
  have hself : v.takeWhile (fun c => decide (c.toNat ≠ 0)) = v :=
    List.takeWhile_eq_self_iff.mpr (by simpa using hplain)
  simp only [header, h, boundedCopy, hself, if_neg hlen.not_gt, Option.getD_some]

def parseUnsigned (value : Text) : Option Nat :=
  if value = [] then none else parseDigits 0 value

inductive RangeStatus where
  | none
  | valid
  | invalid
  | unsatisfiable
  deriving DecidableEq

structure ByteRange where
  status : RangeStatus := .none
  start : Nat := 0
  length : Nat := 0
  deriving DecidableEq

/-- The end of a range with a first position: the last byte when none is given. -/
def rangeEnd (second : Text) (start total : Nat) : Option Nat :=
  if second = [] then some (total - 1)
  else (parseUnsigned second).filter (fun last => start ≤ last)

def parseRange (raw : Text) (total : Nat) : ByteRange :=
  let value := trimAscii raw
  if value = [] then {}
  else if value.length < 6 ∨ lowerAscii (value.take 6) ≠ text "bytes=" then
    { status := .invalid }
  else
    let rangeSpec := value.drop 6
    let first := rangeSpec.takeWhile (· ≠ '-')
    let second := (rangeSpec.dropWhile (· ≠ '-')).tail
    if rangeSpec = [] ∨ ',' ∈ rangeSpec then { status := .invalid }
    else if '-' ∉ rangeSpec ∨ '-' ∈ second then { status := .invalid }
    else if total = 0 then { status := .unsatisfiable }
    else if first = [] then
      match parseUnsigned second with
      | none => { status := .invalid }
      | some suffix =>
          if suffix = 0 then { status := .invalid }
          else { status := .valid, start := total - min suffix total, length := min suffix total }
    else
      match parseUnsigned first with
      | none => { status := .invalid }
      | some start =>
          if total ≤ start then { status := .unsatisfiable }
          else
            match rangeEnd second start total with
            | none => { status := .unsatisfiable }
            | some last =>
                { status := .valid, start := start,
                  length := min last (total - 1) - start + 1 }

@[simp] theorem parseRange_nil (total : Nat) : parseRange [] total = {} := rfl

/-- A valid range is a nonempty slice of the file. -/
def ByteRange.Fits (r : ByteRange) (total : Nat) : Prop :=
  r.status = .valid → 0 < r.length ∧ r.start + r.length ≤ total

theorem ByteRange.fits_of_ne {r : ByteRange} (total : Nat) (h : r.status ≠ .valid) : r.Fits total :=
  fun hv => absurd hv h

private theorem suffix_fits {suffix total : Nat} (ht : total ≠ 0) (hs : suffix ≠ 0) :
    ByteRange.Fits ⟨.valid, total - min suffix total, min suffix total⟩ total := by
  intro _
  dsimp only
  omega

private theorem rangeEnd_fits {second : Text} {start total last : Nat} (hs : start < total)
    (h : rangeEnd second start total = some last) :
    ByteRange.Fits ⟨.valid, start, min last (total - 1) - start + 1⟩ total := by
  have hle : start ≤ last := by
    unfold rangeEnd at h
    split_ifs at h
    · cases h
      omega
    · simpa using (Option.filter_eq_some_iff.mp h).2
  intro _
  dsimp only
  omega

theorem parseRange_fits (raw : Text) (total : Nat) : (parseRange raw total).Fits total := by
  have hbad : ∀ {r : ByteRange}, r.status ≠ .valid → r.Fits total := ByteRange.fits_of_ne total
  unfold parseRange
  simp only
  split_ifs with _ _ _ _ ht
  · exact hbad (by decide)
  · exact hbad (by decide)
  · exact hbad (by decide)
  · exact hbad (by decide)
  · exact hbad (by decide)
  · split
    · exact hbad (by decide)
    · split_ifs with hs
      · exact hbad (by decide)
      · exact suffix_fits ht hs
  · split
    · exact hbad (by decide)
    · split_ifs with hs
      · exact hbad (by decide)
      · split
        · exact hbad (by decide)
        · rename_i last hlast
          exact rangeEnd_fits (by omega) hlast

/-- The header `bytes=N-` of a client that already holds `n` bytes. -/
def openRange (n : Nat) : Text := text "bytes=" ++ decimal n ++ ['-']

theorem header_openRange {headers : Headers} {n : Nat} (h : headers .range = some (openRange n))
    (hn : n < 2 ^ 64) : header headers .range 256 = openRange n := by
  have hbytes : text "bytes=" = ['b', 'y', 't', 'e', 's', '='] := by simp [text]
  apply header_eq h
  · intro c hc
    simp only [openRange, hbytes, List.mem_append] at hc
    rcases hc with (hc | hc) | hc
    · rcases List.mem_cons.mp hc with rfl | hc
      · decide
      · have hrest : ∀ c ∈ ['y', 't', 'e', 's', '='], c.toNat ≠ 0 := by simp
        exact hrest c hc
    · have := Char.isDigit_iff_toNat.mp (decimal_digits n c hc)
      have h0 : '0'.toNat = 48 := rfl
      omega
    · cases List.mem_singleton.mp hc
      decide
  · have := decimal_length_le hn
    simp only [openRange, hbytes, List.length_append, List.length_cons, List.length_nil]
    omega

theorem parseUnsigned_decimal {n : Nat} (h : n < 2 ^ 64) : parseUnsigned (decimal n) = some n := by
  rw [parseUnsigned, if_neg (decimal_ne_nil n), parseDigits_decimal h]

theorem parseRange_openRange {n total : Nat} (hn : n < total) (ht : total < 2 ^ 64) :
    parseRange (openRange n) total = ⟨.valid, n, total - n⟩ := by
  have hbytes : text "bytes=" = ['b', 'y', 't', 'e', 's', '='] := by simp [text]
  have htrim : trimAscii (openRange n) = text "bytes=" ++ (decimal n ++ ['-']) := by
    rw [openRange, List.append_assoc]
    apply trimAscii_eq_self
    · intro c hc
      rw [hbytes] at hc
      cases hc
      decide
    · intro c hc
      simp only [← List.append_assoc, List.getLast?_append, List.getLast?_singleton] at hc
      cases hc
      decide
  have htake : (text "bytes=" ++ (decimal n ++ ['-'])).take 6 = text "bytes=" :=
    List.take_left' (by simp [hbytes])
  have hdrop : (text "bytes=" ++ (decimal n ++ ['-'])).drop 6 = decimal n ++ ['-'] :=
    List.drop_left' (by simp [hbytes])
  have hplain : '-' ∉ decimal n := not_mem_decimal (by decide) n
  have hfirst : (decimal n ++ ['-']).takeWhile (fun c => decide (c ≠ '-')) = decimal n :=
    takeWhile_append_cons_self hplain []
  have hsecond : ((decimal n ++ ['-']).dropWhile (fun c => decide (c ≠ '-'))).tail = [] := by
    rw [dropWhile_append_cons_self hplain []]
    rfl
  have hnil : ¬ (text "bytes=" ++ (decimal n ++ ['-']) = []) := by simp
  have hunit : ¬ ((text "bytes=" ++ (decimal n ++ ['-'])).length < 6 ∨
      lowerAscii (text "bytes=") ≠ text "bytes=") := by
    have hlower : lowerAscii ['b', 'y', 't', 'e', 's', '='] = ['b', 'y', 't', 'e', 's', '='] := by
      decide
    simp [hlower, hbytes]
  have hlist : ¬ (decimal n ++ ['-'] = [] ∨ ',' ∈ decimal n ++ ['-']) := by
    simpa using not_mem_decimal (by decide) n
  have hdash : ¬ ('-' ∉ decimal n ++ ['-'] ∨ '-' ∈ ([] : Text)) := by simp
  have hzero : ¬ total = 0 := by omega
  have hin : ¬ total ≤ n := by omega
  unfold parseRange
  simp only [htrim, htake, hdrop, hfirst, hsecond, parseUnsigned_decimal (hn.trans ht), rangeEnd,
    if_neg hnil, if_neg hunit, if_neg hlist, if_neg hdash, if_neg hzero,
    if_neg (decimal_ne_nil n), if_neg hin, if_true, min_self, ByteRange.mk.injEq, true_and]
  omega

end FastdlMm.FastdlServer
