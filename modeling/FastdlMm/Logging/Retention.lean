import Mathlib.Data.List.Basic
import FastdlMm.Files.PathResolver
import FastdlMm.Framework.Calendar
import FastdlMm.Framework.Words

namespace FastdlMm.AsyncLogger

structure Clock where
  hour : Int
  min : Int
  sec : Int
  isdst : Int

/-- The fields of a `std::tm` that `mktime` reads. -/
structure Tm extends Clock where
  mday : Int
  mon : Int
  year : Int

/-- Midnight, with daylight saving time left to `mktime`. -/
def Clock.midnight : Clock := ⟨0, 0, 0, -1⟩

def dateStamp (day : Tm) : Text :=
  zeroPadded 4 (day.year + 1900) ++ '-' :: zeroPadded 2 (day.mon + 1) ++ '-' ::
    zeroPadded 2 day.mday

/-- Midnight of the given day, as a comparable time. -/
def midnight (mktime : Tm → Int) (year month dayOfMonth : Int) : Int :=
  mktime ⟨Clock.midnight, dayOfMonth, month - 1, year - 1900⟩

/-- `YYYY-MM-DD` out of a rotated file name. -/
def parseStamp (mktime : Tm → Int) (stamp : Text) : Option Int :=
  if stamp.length ≠ 10 ∨ stamp[4]? ≠ some '-' ∨ stamp[7]? ≠ some '-' then none
  else if stamp.zipIdx.any (fun c => c.2 ≠ 4 && c.2 ≠ 7 && !c.1.isDigit) then none
  else
    let year := Nat.ofDigitChars 10 (stamp.take 4) 0
    let month := Nat.ofDigitChars 10 ((stamp.drop 5).take 2) 0
    let day := Nat.ofDigitChars 10 ((stamp.drop 8).take 2) 0
    if month < 1 ∨ 12 < month ∨ day < 1 ∨ 31 < day then none
    else
      let out := midnight mktime year month day
      if out = -1 then none else some out

/-- `basePath_`: the directory of the log files, and the name their names come from. -/
structure BasePath where
  parent : Path
  filename : Name

def BasePath.extension (base : BasePath) : Text := PathResolver.extensionOf base.filename

def BasePath.stem (base : BasePath) : Text :=
  base.filename.take (base.filename.length - base.extension.length)

def dailyName (base : BasePath) (day : Tm) : Name :=
  base.stem ++ '-' :: dateStamp day ++ base.extension

def dailyPath (base : BasePath) (day : Tm) : Path := base.parent ++ [dailyName base day]

/-- What `is_regular_file` says of a directory entry. A link that leads nowhere is `unreadable`: its
status is an error. -/
inductive EntryKind where
  | regular
  | other
  | unreadable
  deriving DecidableEq

structure DirectoryEntry where
  name : Name
  kind : EntryKind
  deriving DecidableEq

/-- The checks on a regular file, up to the comparison of its stamp with the cutoff. -/
def stale (mktime : Tm → Int) (base : BasePath) (cutoff : Int) (name : Name) : Bool :=
  let before := base.stem ++ ['-']
  let extension := base.extension
  if name.length ≠ before.length + 10 + extension.length then false
  else if name.take before.length ≠ before then false
  else if extension ≠ [] ∧ name.drop (name.length - extension.length) ≠ extension then false
  else
    match parseStamp mktime ((name.drop before.length).take 10) with
    | none => false
    | some stamp => stamp < cutoff

/-- The loop of `purge` over the listing of the directory, with what the last status left in `ec`:
the paths that are given to `remove`. -/
def purgeFrom (mktime : Tm → Int) (base : BasePath) (cutoff : Int) (ec : Bool) :
    List DirectoryEntry → List Path
  | [] => []
  | entry :: rest =>
      if ec then []
      else if entry.kind = .unreadable then purgeFrom mktime base cutoff true rest
      else if entry.kind = .regular ∧ stale mktime base cutoff entry.name then
        (base.parent ++ [entry.name]) :: purgeFrom mktime base cutoff false rest
      else purgeFrom mktime base cutoff false rest

/-- The first day that is kept, as `mktime` gets it. -/
def oldestKept (keepDays : Nat) (today : Tm) : Tm :=
  { today with
    toClock := Clock.midnight
    mday := toInt32 (today.mday - toInt32 (toInt32 keepDays - 1)) }

def purge (mktime : Tm → Int) (base : BasePath) (keepDays : Nat) (today : Tm)
    (listing : List DirectoryEntry) : List Path :=
  if keepDays = 0 then []
  else
    let cutoff := mktime (oldestKept keepDays today)
    if cutoff = -1 then [] else purgeFrom mktime base cutoff false listing

/-- A time of a day. -/
def tmOf (d : Date) (clock : Clock) : Tm := ⟨clock, d.day, d.month - 1, d.year - 1900⟩

/-- `mktime` as `purge` relies on it: it counts on where a day lies outside its month, later
days begin later, and it does not fail. `midnightOf` is when a day begins. -/
structure LocalTime (mktime : Tm → Int) (midnightOf : Int → Int) : Prop where
  normalises : ∀ year mon mday : Int, 0 ≤ mon → mon < 12 →
    mktime ⟨Clock.midnight, mday, mon, year⟩ =
      midnightOf (dayNumber (year + 1900) (mon + 1).toNat mday)
  increasing : ∀ m n, m < n → midnightOf m < midnightOf n
  succeeds : ∀ n, midnightOf n ≠ -1

/-- `dddd-dd-dd`. -/
def IsStamp (stamp : Text) : Prop :=
  ∃ year month day, stamp = year ++ '-' :: month ++ '-' :: day ∧ year.length = 4 ∧
    month.length = 2 ∧ day.length = 2 ∧ ∀ c ∈ year ++ month ++ day, c.isDigit

/-- Three fields of digits are read as three numbers. -/
theorem parseStamp_fields (mktime : Tm → Int) {year month day : Text} (hyear : year.length = 4)
    (hmonth : month.length = 2) (hday : day.length = 2)
    (hdigits : ∀ c ∈ year ++ month ++ day, c.isDigit)
    (hrange : ¬ (Nat.ofDigitChars 10 month 0 < 1 ∨ 12 < Nat.ofDigitChars 10 month 0 ∨
      Nat.ofDigitChars 10 day 0 < 1 ∨ 31 < Nat.ofDigitChars 10 day 0))
    (hout : midnight mktime (Nat.ofDigitChars 10 year 0) (Nat.ofDigitChars 10 month 0)
      (Nat.ofDigitChars 10 day 0) ≠ -1) :
    parseStamp mktime (year ++ '-' :: month ++ '-' :: day) =
      some (midnight mktime (Nat.ofDigitChars 10 year 0) (Nat.ofDigitChars 10 month 0)
        (Nat.ofDigitChars 10 day 0)) := by
  obtain ⟨y₁, y₂, y₃, y₄, rfl⟩ := List.length_eq_four.mp hyear
  obtain ⟨m₁, m₂, rfl⟩ := List.length_eq_two.mp hmonth
  obtain ⟨d₁, d₂, rfl⟩ := List.length_eq_two.mp hday
  simp only [List.cons_append, List.nil_append, List.forall_mem_cons, List.not_mem_nil,
    false_implies, implies_true, and_true] at hdigits
  obtain ⟨h₁, h₂, h₃, h₄, h₅, h₆, h₇, h₈⟩ := hdigits
  show parseStamp mktime [y₁, y₂, y₃, y₄, '-', m₁, m₂, '-', d₁, d₂] = _
  simp only [parseStamp]
  rw [if_neg (by simp), if_neg (by simp [List.zipIdx_cons, h₁, h₂, h₃, h₄, h₅, h₆, h₇, h₈])]
  exact (if_neg hrange).trans (if_neg hout)

/-- What is read as a date looks like one. -/
theorem isStamp_of_parseStamp {mktime : Tm → Int} {stamp : Text} {out : Int}
    (h : parseStamp mktime stamp = some out) : IsStamp stamp := by
  simp only [parseStamp] at h
  obtain ⟨hshape, h⟩ := Option.ite_none_left_eq_some.mp h
  have hdigits := (Option.ite_none_left_eq_some.mp h).1
  clear h
  obtain ⟨hlength, hfirst, hsecond⟩ := not_or.mp hshape |>.imp_right not_or.mp
  clear hshape
  have hlength : stamp.length = 10 := not_not.mp hlength
  obtain ⟨y₁, y₂, y₃, y₄, hyear⟩ := List.length_eq_four.mp
    (by rw [List.length_take]; omega : (stamp.take 4).length = 4)
  obtain ⟨s₁, m₁, m₂, hmonth⟩ := List.length_eq_three.mp
    (by rw [List.length_take, List.length_drop]; omega : ((stamp.drop 4).take 3).length = 3)
  obtain ⟨s₂, d₁, d₂, hday⟩ := List.length_eq_three.mp
    (by rw [List.length_drop, List.length_drop]; omega : ((stamp.drop 4).drop 3).length = 3)
  have hstamp : stamp = [y₁, y₂, y₃, y₄, s₁, m₁, m₂, s₂, d₁, d₂] := by
    rw [← List.take_append_drop 4 stamp, ← List.take_append_drop 3 (stamp.drop 4), hyear, hmonth,
      hday]
    rfl
  subst hstamp
  have hs₁ : s₁ = '-' := by simpa using hfirst
  have hs₂ : s₂ = '-' := by simpa using hsecond
  refine ⟨[y₁, y₂, y₃, y₄], [m₁, m₂], [d₁, d₂], by rw [hs₁, hs₂]; rfl, rfl, rfl, rfl, ?_⟩
  simpa [List.zipIdx_cons] using hdigits

theorem IsStamp.length {stamp : Text} (h : IsStamp stamp) : stamp.length = 10 := by
  obtain ⟨year, month, day, rfl, hyear, hmonth, hday, -⟩ := h
  simp [hyear, hmonth, hday]

theorem dateStamp_tmOf (d : Date) (clock : Clock) : dateStamp (tmOf d clock) =
    zeroPadded 4 d.year ++ '-' :: zeroPadded 2 d.month ++ '-' :: zeroPadded 2 d.day := by
  simp only [dateStamp, tmOf, Int.sub_add_cancel]

section

variable {mktime : Tm → Int} {midnightOf : Int → Int}

/-- The name of a day is read back as the beginning of that day. -/
theorem parseStamp_dateStamp (hm : LocalTime mktime midnightOf) {d : Date} (hyear : 0 ≤ d.year)
    (hyear' : d.year ≤ 9999) (clock : Clock) :
    parseStamp mktime (dateStamp (tmOf d clock)) = some (midnightOf d.number) := by
  obtain ⟨year, hcast⟩ := Int.eq_ofNat_of_zero_le hyear
  have hmonth := d.month_pos
  have hmonth' := d.month_le
  have hday := d.day_pos
  have hday' : d.day ≤ 31 := d.day_le.trans (daysInMonth_le _ _)
  have hmidnight : midnight mktime year d.month d.day = midnightOf d.number := by
    rw [midnight, hm.normalises _ _ _ (by omega) (by omega), Int.sub_add_cancel,
      Int.sub_add_cancel, Int.toNat_natCast, Date.number, hcast]
  have hdigits : ∀ c ∈ zeroPadded 4 year ++ zeroPadded 2 d.month ++ zeroPadded 2 d.day,
      c.isDigit := by
    intro c hc
    rw [List.mem_append, List.mem_append] at hc
    obtain (hc | hc) | hc := hc
    · exact zeroPadded_digits 4 year c hc
    · exact zeroPadded_digits 2 d.month c hc
    · exact zeroPadded_digits 2 d.day c hc
  have hfields := parseStamp_fields mktime
    (length_zeroPadded (by decide) (by omega : year < 10 ^ 4))
    (length_zeroPadded (by decide) (by omega : d.month < 10 ^ 2))
    (length_zeroPadded (by decide) (by omega : d.day < 10 ^ 2)) hdigits
  rw [ofDigitChars_zeroPadded, ofDigitChars_zeroPadded, ofDigitChars_zeroPadded, hmidnight] at hfields
  rw [dateStamp_tmOf, hcast]
  exact hfields (by omega) (hm.succeeds _)

private theorem name_shape (base : BasePath) (stamp : Text) :
    base.stem ++ '-' :: stamp ++ base.extension =
      (base.stem ++ ['-']) ++ (stamp ++ base.extension) := by simp

/-- A name of the right shape is judged by its stamp. -/
theorem stale_named (mktime : Tm → Int) (base : BasePath) (cutoff : Int) {stamp : Text}
    (hstamp : stamp.length = 10) :
    stale mktime base cutoff (base.stem ++ '-' :: stamp ++ base.extension) =
      (parseStamp mktime stamp).any (· < cutoff) := by
  rw [name_shape]
  generalize hname : (base.stem ++ ['-']) ++ (stamp ++ base.extension) = name
  have hlength : name.length = (base.stem ++ ['-']).length + 10 + base.extension.length := by
    rw [← hname]
    simp only [List.length_append, hstamp]
    omega
  have htake : name.take (base.stem ++ ['-']).length = base.stem ++ ['-'] := by
    rw [← hname, List.take_left]
  have hdrop : name.drop (base.stem ++ ['-']).length = stamp ++ base.extension := by
    rw [← hname, List.drop_left]
  have hextension : name.drop (name.length - base.extension.length) = base.extension := by
    rw [hlength, Nat.add_sub_cancel, ← List.drop_drop, hdrop, ← hstamp, List.drop_left]
  have hmiddle : (stamp ++ base.extension).take 10 = stamp := by
    rw [← hstamp, List.take_left]
  simp only [stale]
  rw [if_neg (not_not.mpr hlength), if_neg (not_not.mpr htake),
    if_neg (fun hne => hne.2 hextension), hdrop, hmiddle]
  cases parseStamp mktime stamp <;> rfl

/-- Only such names are stale. -/
theorem named_of_stale {base : BasePath} {cutoff : Int} {name : Name}
    (h : stale mktime base cutoff name = true) : ∃ stamp, stamp.length = 10 ∧
      name = base.stem ++ '-' :: stamp ++ base.extension := by
  simp only [stale] at h
  split_ifs at h with hlength hstem hextension
  clear h
  have hlength := not_not.mp hlength
  have hstem := not_not.mp hstem
  have hend : (name.drop (base.stem ++ ['-']).length).drop 10 = base.extension := by
    rw [List.drop_drop]
    by_cases hnil : base.extension = []
    · rw [hnil]
      apply List.drop_eq_nil_of_le
      rw [hlength, hnil, List.length_nil]
    · have hdrop : name.drop (name.length - base.extension.length) = base.extension := by
        by_contra hne
        exact hextension ⟨hnil, hne⟩
      rwa [hlength, Nat.add_sub_cancel] at hdrop
  refine ⟨(name.drop (base.stem ++ ['-']).length).take 10, ?_, ?_⟩
  · rw [List.length_take, List.length_drop]
    omega
  · rw [name_shape, ← hend, List.take_append_drop]
    nth_rewrite 1 [← hstem]
    rw [List.take_append_drop]

/-- The names that are compared with the cutoff are made of the stem, a stamp and the extension. -/
theorem stale_iff {base : BasePath} {cutoff : Int} {name : Name} :
    stale mktime base cutoff name = true ↔ ∃ stamp out,
      name = base.stem ++ '-' :: stamp ++ base.extension ∧ parseStamp mktime stamp = some out ∧
        out < cutoff := by
  constructor
  · intro h
    obtain ⟨stamp, hstamp, rfl⟩ := named_of_stale h
    rw [stale_named mktime base cutoff hstamp, Option.any_eq_true] at h
    obtain ⟨out, hparse, hlt⟩ := h
    exact ⟨stamp, out, rfl, hparse, of_decide_eq_true hlt⟩
  · intro h
    obtain ⟨stamp, out, rfl, hparse, hlt⟩ := h
    rw [stale_named mktime base cutoff (isStamp_of_parseStamp hparse).length, hparse]
    exact decide_eq_true hlt

/-- The entries the loop looks at: none behind the first whose status is an error. -/
def readable (listing : List DirectoryEntry) : List DirectoryEntry :=
  listing.takeWhile (·.kind ≠ .unreadable)

theorem purgeFrom_eq (mktime : Tm → Int) (base : BasePath) (cutoff : Int)
    (listing : List DirectoryEntry) : purgeFrom mktime base cutoff false listing =
      ((readable listing).filter fun entry =>
        entry.kind = .regular ∧ stale mktime base cutoff entry.name).map
          fun entry => base.parent ++ [entry.name] := by
  induction listing with
  | nil => rfl
  | cons entry rest ih =>
    by_cases hkind : entry.kind = .unreadable
    · have hstop : purgeFrom mktime base cutoff true rest = [] := by cases rest <;> rfl
      simp [purgeFrom, readable, hkind, hstop]
    · have hread : readable (entry :: rest) = entry :: readable rest :=
        List.takeWhile_cons_of_pos (decide_eq_true hkind)
      rw [hread, List.filter_cons]
      by_cases hstale : entry.kind = .regular ∧ stale mktime base cutoff entry.name = true
      · simp [purgeFrom, hstale, ih]
      · simp [purgeFrom, hkind, hstale, ih]

/-- The day whose beginning the cutoff is. -/
def cutoffDay (keepDays : Nat) (t : Date) : Int :=
  t.number + (toInt32 (t.day - toInt32 (toInt32 keepDays - 1)) - t.day)

theorem mktime_oldestKept (hm : LocalTime mktime midnightOf) (keepDays : Nat) (t : Date)
    (clock : Clock) :
    mktime (oldestKept keepDays (tmOf t clock)) = midnightOf (cutoffDay keepDays t) := by
  have hmonth := t.month_pos
  have hmonth' := t.month_le
  have hshift (mday : Int) : dayNumber t.year t.month mday = t.number + (mday - t.day) := by
    simp only [Date.number, dayNumber]
    omega
  simp only [oldestKept, tmOf]
  rw [hm.normalises _ _ _ (by omega) (by omega), Int.sub_add_cancel, Int.sub_add_cancel,
    Int.toNat_natCast, hshift, cutoffDay]

/-- The first day kept, as long as the subtraction does not leave the range of `int`. -/
theorem cutoffDay_eq {keepDays : Nat} (hpos : 1 ≤ keepDays) (hk : keepDays < 2 ^ 32) (t : Date) :
    cutoffDay keepDays t = if keepDays ≤ 2 ^ 31 + 1 + t.day then t.number - keepDays + 1
      else t.number + 2 ^ 32 - keepDays + 1 := by
  have hday := t.day_pos
  have hday' : t.day ≤ 31 := t.day_le.trans (daysInMonth_le _ _)
  simp only [cutoffDay, toInt32]
  split_ifs <;> omega

/-- The paths that are removed are those of stale names among the entries the loop looks at. -/
theorem mem_purge (hm : LocalTime mktime midnightOf) {base : BasePath} {keepDays : Nat}
    (hpos : 1 ≤ keepDays) {t : Date} {clock : Clock} {listing : List DirectoryEntry} {p : Path} :
    p ∈ purge mktime base keepDays (tmOf t clock) listing ↔ ∃ name,
      ⟨name, .regular⟩ ∈ readable listing ∧
        stale mktime base (midnightOf (cutoffDay keepDays t)) name = true ∧
        base.parent ++ [name] = p := by
  have hsucceeds := hm.succeeds (cutoffDay keepDays t)
  simp only [purge, mktime_oldestKept hm]
  rw [if_neg (by omega), if_neg hsucceeds, purgeFrom_eq, List.mem_map]
  simp only [List.mem_filter, decide_eq_true_eq]
  constructor
  · intro h
    obtain ⟨⟨name, kind⟩, ⟨hmem, hkind, hstale⟩, hp⟩ := h
    cases hkind
    exact ⟨name, hmem, hstale, hp⟩
  · intro h
    obtain ⟨name, hmem, hstale, hp⟩ := h
    exact ⟨⟨name, .regular⟩, ⟨hmem, rfl, hstale⟩, hp⟩

/-- The file of a day is stale if the day is before the cutoff. -/
theorem stale_dailyName (hm : LocalTime mktime midnightOf) (base : BasePath) {d : Date}
    (hyear : 0 ≤ d.year) (hyear' : d.year ≤ 9999) (clock : Clock) (n : Int) :
    stale mktime base (midnightOf n) (dailyName base (tmOf d clock)) = true ↔ d.number < n := by
  have hparse := parseStamp_dateStamp hm hyear hyear' clock
  have hmono : StrictMono midnightOf := fun m n hlt => hm.increasing m n hlt
  rw [stale_iff, ← hmono.lt_iff_lt]
  constructor
  · intro h
    obtain ⟨stamp, out, hname, hout, hlt⟩ := h
    have hstem := List.append_cancel_right hname
    have hstamp : dateStamp (tmOf d clock) = stamp :=
      (List.cons.inj (List.append_cancel_left hstem)).2
    rw [← hstamp, hparse] at hout
    cases hout
    exact hlt
  · intro hlt
    exact ⟨_, _, rfl, hparse, hlt⟩

/-- The file of a day is removed if the loop gets to it and the day is before the first kept. -/
theorem dailyPath_mem_purge (hm : LocalTime mktime midnightOf) {base : BasePath} {keepDays : Nat}
    (hpos : 1 ≤ keepDays) {t d : Date} (hyear : 0 ≤ d.year) (hyear' : d.year ≤ 9999)
    {now clock : Clock} {listing : List DirectoryEntry} :
    dailyPath base (tmOf d clock) ∈ purge mktime base keepDays (tmOf t now) listing ↔
      ⟨dailyName base (tmOf d clock), .regular⟩ ∈ readable listing ∧
        d.number < cutoffDay keepDays t := by
  rw [mem_purge hm hpos]
  constructor
  · intro h
    obtain ⟨name, hmem, hstale, hp⟩ := h
    have hname : name = dailyName base (tmOf d clock) :=
      List.singleton_inj.mp (List.append_cancel_left hp)
    subst hname
    exact ⟨hmem, (stale_dailyName hm base hyear hyear' clock _).mp hstale⟩
  · intro h
    exact ⟨_, h.1, (stale_dailyName hm base hyear hyear' clock _).mpr h.2, rfl⟩

/-- Of the files named after a day, exactly those at least `keepDays` days old are removed, nothing
else is but what is named that way, and nothing at all without a number of days. -/
structure KeepsDays (base : BasePath) (keepDays : Nat) (t : Date) (listing : List DirectoryEntry)
    (removed : List Path) : Prop where
  days : 1 ≤ keepDays → ∀ d clock, 1970 ≤ d.year → d.year ≤ 9999 →
    ⟨dailyName base (tmOf d clock), .regular⟩ ∈ listing →
      (dailyPath base (tmOf d clock) ∈ removed ↔ Date.DaysBefore keepDays d t)
  names : ∀ p ∈ removed, ∃ stamp, IsStamp stamp ∧
    p = base.parent ++ [base.stem ++ '-' :: stamp ++ base.extension]
  off : keepDays = 0 → removed = []

/-- No expired file is listed behind an entry whose status is an error; and either the first day kept
is in the range of `int`, or no file in front of such an entry is of a day that the wrapped first day
takes for expired. -/
def Unhindered (base : BasePath) (keepDays : Nat) (t : Date) (listing : List DirectoryEntry) :
    Prop :=
  keepDays = 0 ∨
    (∀ d clock, 1970 ≤ d.year → d.year ≤ 9999 → Date.DaysBefore keepDays d t →
      ⟨dailyName base (tmOf d clock), .regular⟩ ∈ listing →
        ⟨dailyName base (tmOf d clock), .regular⟩ ∈ readable listing) ∧
    (keepDays ≤ 2 ^ 31 + 1 + t.day ∨
      ∀ d clock, 1970 ≤ d.year → d.year ≤ 9999 → ¬ Date.DaysBefore keepDays d t →
        ⟨dailyName base (tmOf d clock), .regular⟩ ∈ readable listing →
          t.number + 2 ^ 32 - keepDays < d.number)

/-- Whatever is removed is named after a stamp. -/
theorem purge_names (hm : LocalTime mktime midnightOf) {base : BasePath} {keepDays : Nat}
    {t : Date} {now : Clock} {listing : List DirectoryEntry} {p : Path}
    (h : p ∈ purge mktime base keepDays (tmOf t now) listing) : ∃ stamp, IsStamp stamp ∧
      p = base.parent ++ [base.stem ++ '-' :: stamp ++ base.extension] := by
  have hpos : 1 ≤ keepDays := by
    by_contra hzero
    have hoff : keepDays = 0 := by omega
    rw [purge, if_pos hoff] at h
    cases h
  obtain ⟨name, -, hstale, rfl⟩ := (mem_purge hm hpos).mp h
  obtain ⟨stamp, out, rfl, hparse, -⟩ := stale_iff.mp hstale
  exact ⟨stamp, isStamp_of_parseStamp hparse, rfl⟩

/-- Log retention removes exactly the expired days if no unreadable entry and no overflow is in its
way. -/
theorem purge_keepsDays_iff (hm : LocalTime mktime midnightOf) (base : BasePath) {keepDays : Nat}
    (hk : keepDays < 2 ^ 32) (t : Date) (now : Clock) (listing : List DirectoryEntry) :
    KeepsDays base keepDays t listing (purge mktime base keepDays (tmOf t now) listing) ↔
      Unhindered base keepDays t listing := by
  constructor
  · intro h
    by_cases hzero : keepDays = 0
    · exact .inl hzero
    · have hpos : 1 ≤ keepDays := by omega
      have hcutoff := cutoffDay_eq hpos hk t
      refine .inr ⟨?_, ?_⟩
      · intro d clock hyear hyear' hold hmem
        have hremoved := (h.days hpos d clock hyear hyear' hmem).mpr hold
        exact ((dailyPath_mem_purge hm hpos (by omega) hyear').mp hremoved).1
      · by_cases hfits : keepDays ≤ 2 ^ 31 + 1 + t.day
        · exact .inl hfits
        · refine .inr fun d clock hyear hyear' hyoung hread => ?_
          have hmem := (List.takeWhile_prefix _).subset hread
          rw [if_neg hfits] at hcutoff
          by_contra hlt
          have hremoved : dailyPath base (tmOf d clock) ∈
              purge mktime base keepDays (tmOf t now) listing :=
            (dailyPath_mem_purge hm hpos (by omega) hyear').mpr ⟨hread, by omega⟩
          exact hyoung ((h.days hpos d clock hyear hyear' hmem).mp hremoved)
  · intro h
    refine ⟨?_, fun p hp => purge_names hm hp, fun hzero => by rw [purge, if_pos hzero]⟩
    intro hpos d clock hyear hyear' hmem
    obtain hzero | ⟨hreach, hwrap⟩ := h
    · omega
    · have hcutoff := cutoffDay_eq hpos hk t
      rw [dailyPath_mem_purge hm hpos (by omega) hyear']
      constructor
      · intro hremoved
        obtain ⟨hread, hlt⟩ := hremoved
        by_contra hyoung
        have hyoung' := hyoung
        rw [Date.daysBefore_iff] at hyoung'
        obtain hfits | hnone := hwrap
        · rw [if_pos hfits] at hcutoff
          omega
        · have hlate := hnone d clock hyear hyear' hyoung hread
          split_ifs at hcutoff <;> omega
      · intro hold
        have hold' := Date.daysBefore_iff.mp hold
        refine ⟨hreach d clock hyear hyear' hold hmem, ?_⟩
        split_ifs at hcutoff <;> omega

end

/-- `mktime` where local time is UTC. -/
def utcMktime (tm : Tm) : Int :=
  86400 * (dayNumber (tm.year + 1900) (tm.mon + 1).toNat tm.mday - 719162) + 3600 * tm.hour +
    60 * tm.min + tm.sec

theorem utcMktime_localTime : LocalTime utcMktime (fun n => 86400 * (n - 719162)) := by
  constructor
  · intro year mon mday _ _
    simp only [utcMktime, Clock.midnight]
    omega
  · intro m n hlt
    show 86400 * (m - 719162) < 86400 * (n - 719162)
    omega
  · intro n
    omega

def sampleBase : BasePath := ⟨[text "logs"], text "fastdl.log"⟩

def sampleDay : Date := ⟨2026, 7, 27, by decide, by decide, by decide, by decide⟩

def sampleListing : List DirectoryEntry :=
  [⟨text "fastdl-2026-07-27.log", .regular⟩, ⟨text "fastdl-2026-07-21.log", .regular⟩,
    ⟨text "fastdl-2026-07-20.log", .regular⟩, ⟨text "fastdl.log", .regular⟩]

theorem purge_keepsDays_iff_week : KeepsDays sampleBase 7 sampleDay sampleListing
    (purge utcMktime sampleBase 7 (tmOf sampleDay ⟨12, 0, 0, 0⟩) sampleListing) :=
  (purge_keepsDays_iff utcMktime_localTime sampleBase (by decide) sampleDay _ _).mpr
    (.inr ⟨fun _ _ _ _ _ hmem => hmem, .inl (by decide)⟩)

def staleDay : Date := ⟨2025, 11, 29, by decide, by decide, by decide, by decide⟩

/-- A file that expired months ago is listed behind a link that leads nowhere; and the file of today,
where all that fit into an `unsigned int` are to be kept. -/
theorem link_stops_purge :
    ¬ KeepsDays sampleBase 7 sampleDay
      [⟨text "latest", .unreadable⟩, ⟨text "fastdl-2025-11-29.log", .regular⟩]
      (purge utcMktime sampleBase 7 (tmOf sampleDay Clock.midnight)
        [⟨text "latest", .unreadable⟩, ⟨text "fastdl-2025-11-29.log", .regular⟩]) ∧
    ¬ KeepsDays sampleBase (2 ^ 32 - 1) sampleDay [⟨text "fastdl-2026-07-27.log", .regular⟩]
      (purge utcMktime sampleBase (2 ^ 32 - 1) (tmOf sampleDay Clock.midnight)
        [⟨text "fastdl-2026-07-27.log", .regular⟩]) := by
  constructor
  · intro h
    have hold : Date.DaysBefore 7 staleDay sampleDay :=
      Date.daysBefore_iff.mpr (by decide +kernel)
    have hremoved := (h.days (by decide) staleDay Clock.midnight (by decide) (by decide)
      (by decide +kernel)).mpr hold
    revert hremoved
    decide +kernel
  · intro h
    have hremoved := (h.days (by decide) sampleDay Clock.midnight (by decide) (by decide)
      (by decide +kernel)).mp (by decide +kernel)
    have hold := Date.daysBefore_iff.mp hremoved
    revert hold
    decide +kernel

end FastdlMm.AsyncLogger
