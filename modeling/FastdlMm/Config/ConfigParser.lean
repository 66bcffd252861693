import FastdlMm.Framework.Separated
import FastdlMm.Framework.Text
import Mathlib.Data.List.TakeWhile

namespace FastdlMm.Config

/-- The characters that `trim` takes off both ends. -/
def isPadding (c : Char) : Bool := c = ' ' || c = '\t' || c = '\r' || c = '\n'

/-- `std::isspace` of the classic locale, which `operator>>` splits at. -/
def isSpace (c : Char) : Bool := isPadding c || c = '\x0b' || c = '\x0c'

def trim (value : Text) : Text :=
  ((value.dropWhile isPadding).reverse.dropWhile isPadding).reverse

/-- The scan of `stripComment`; the last character is never examined. -/
def stripFrom (quoted : Bool) : Text → Text
  | c :: next :: rest =>
      if c = '"' then c :: stripFrom (!quoted) (next :: rest)
      else if quoted = false ∧ c = '/' ∧ next = '/' then []
      else c :: stripFrom quoted (next :: rest)
  | line => line

def stripComment (line : Text) : Text := stripFrom false line

/-- The value after a name: quoted up to the closing quote with nothing behind it, or bare up to
the first blank. -/
def parseValue (remainder : Text) : Option Text :=
  match remainder with
  | [] => none
  | '"' :: rest =>
      if '"' ∉ rest then none
      else if trim ((rest.dropWhile (· ≠ '"')).drop 1) ≠ [] then none
      else some (rest.takeWhile (· ≠ '"'))
  | bare => some (bare.takeWhile (fun c => !isBlank c))

def parseAssignment (rawLine : Text) : Option (Text × Text) :=
  let line := trim (stripComment rawLine)
  if line = [] then none
  else
    let input := line.dropWhile isSpace
    let name := input.takeWhile (fun c => !isSpace c)
    if name = [] then none
    else
      let remainder := (input.dropWhile (fun c => !isSpace c)).takeWhile (· ≠ '\n')
      match parseValue (trim remainder) with
      | none => none
      | some value => if value = [] then none else some (name, value)

/-- A name that comments, quotes and splitting pass over. -/
structure PlainName (name : Text) : Prop where
  nonempty : name ≠ []
  plain : ∀ c ∈ name, isSpace c = false ∧ c ≠ '"' ∧ c ≠ '/'

/-- What the writer can put between quotes and read back: one line without a quote. -/
def PlainValue (value : Text) : Prop := ∀ c ∈ value, c ≠ '"' ∧ c ≠ '\r' ∧ c ≠ '\n' ∧ c ≠ '\x00'

theorem trim_framed {first last : Char} {middle : Text} (hf : isPadding first = false)
    (hl : isPadding last = false) :
    trim (first :: (middle ++ [last])) = first :: (middle ++ [last]) := by
  have hrev : (first :: (middle ++ [last])).reverse = last :: (middle.reverse ++ [first]) := by simp
  rw [trim, List.dropWhile_cons_of_neg (by simp [hf]), hrev,
    List.dropWhile_cons_of_neg (by simp [hl]), ← hrev, List.reverse_reverse]

theorem trim_spaces (n : Nat) (value : Text) : trim (List.replicate n ' ' ++ value) = trim value := by
  have hspace : isPadding ' ' = true := by decide
  simp [trim, hspace]

/-- Inside quotes nothing is a comment, up to a quote that closes the line. -/
theorem stripFrom_quoted {value : Text} (h : '"' ∉ value) :
    stripFrom true (value ++ ['"']) = value ++ ['"'] := by
  induction value with
  | nil => rfl
  | cons c cs ih =>
    have hc : c ≠ '"' := fun he => h (by simp [he])
    have hrest := ih fun hm => h (List.mem_cons_of_mem _ hm)
    cases cs with
    | nil => simp [stripFrom, hc]
    | cons d ds =>
      simp only [List.cons_append] at hrest ⊢
      simp only [stripFrom, hc, if_false, Bool.true_eq_false, false_and, hrest]

/-- Before the quote there is no slash, so the scan reaches it. -/
theorem stripFrom_plain {front tail : Text} (h : ∀ c ∈ front, c ≠ '"' ∧ c ≠ '/')
    (ht : tail ≠ []) : stripFrom false (front ++ '"' :: tail) = front ++ '"' :: stripFrom true tail := by
  obtain ⟨next, rest, rfl⟩ := List.exists_cons_of_ne_nil ht
  induction front with
  | nil => simp [stripFrom]
  | cons c cs ih =>
    have hc := h c List.mem_cons_self
    have hrest := ih fun d hd => h d (List.mem_cons_of_mem _ hd)
    cases cs with
    | nil => simp [stripFrom, hc.1, hc.2]
    | cons d ds =>
      simp only [List.cons_append] at hrest ⊢
      simp only [stripFrom, hc.1, hc.2, if_false, false_and, and_false, hrest]

theorem stripComment_comment (rest : Text) : stripComment ('/' :: '/' :: rest) = [] := by
  simp [stripComment, stripFrom]

theorem parseValue_quoted {value : Text} (h : '"' ∉ value) :
    parseValue ('"' :: (value ++ ['"'])) = some value := by
  have hclose : '"' ∈ value ++ ['"'] := by simp
  have htake : (value ++ ['"']).takeWhile (fun c => decide (c ≠ '"')) = value :=
    takeWhile_append_cons_self h []
  have hdrop : (value ++ ['"']).dropWhile (fun c => decide (c ≠ '"')) = ['"'] :=
    dropWhile_append_cons_self h []
  simp only [parseValue, hclose, not_true_eq_false, if_false, htake, hdrop]
  rfl

section Written

variable {name value : Text} (hn : PlainName name) (hv : PlainValue value) (pad : Nat)
include hn

/-- Neither the comment scan nor the trimming takes anything off a written assignment. -/
theorem trim_written (hquote : '"' ∉ value) :
    trim (stripComment (name ++ List.replicate (pad + 1) ' ' ++ '"' :: (value ++ ['"']))) =
      name ++ List.replicate (pad + 1) ' ' ++ '"' :: (value ++ ['"']) := by
  have hfront : ∀ c ∈ name ++ List.replicate (pad + 1) ' ', c ≠ '"' ∧ c ≠ '/' := by
    intro c hc
    rcases List.mem_append.mp hc with hc | hc
    · exact (hn.plain c hc).2
    · rw [List.eq_of_mem_replicate hc]
      decide
  rw [stripComment, stripFrom_plain hfront (by simp), stripFrom_quoted hquote]
  obtain ⟨c, cs, rfl⟩ := List.exists_cons_of_ne_nil hn.nonempty
  have hc : isSpace c = false := (hn.plain c List.mem_cons_self).1
  have hpad : isPadding c = false := by
    simp only [isSpace, Bool.or_eq_false_iff] at hc
    exact hc.1.1
  have hlast : isPadding '"' = false := by decide
  have hframed := @trim_framed c '"' (cs ++ List.replicate (pad + 1) ' ' ++ '"' :: value) hpad hlast
  simpa using hframed

include hv

/-- A written assignment reads back as its name and value, unless the value is empty. -/
theorem parseAssignment_written :
    parseAssignment (name ++ List.replicate (pad + 1) ' ' ++ '"' :: (value ++ ['"'])) =
      if value = [] then none else some (name, value) := by
  have hquote : '"' ∉ value := fun hm => (hv _ hm).1 rfl
  have hname : ∀ c ∈ name, (!isSpace c) = true := fun c hc => by simp [(hn.plain c hc).1]
  have hspace : isSpace ' ' = true := by decide
  have hskip : (name ++ List.replicate (pad + 1) ' ' ++ '"' :: (value ++ ['"'])).dropWhile
      isSpace = name ++ List.replicate (pad + 1) ' ' ++ '"' :: (value ++ ['"']) := by
    obtain ⟨c, cs, rfl⟩ := List.exists_cons_of_ne_nil hn.nonempty
    have hc : isSpace c = false := (hn.plain c List.mem_cons_self).1
    simp only [List.cons_append]
    exact List.dropWhile_cons_of_neg (by simp [hc])
  have htake : (name ++ List.replicate (pad + 1) ' ' ++ '"' :: (value ++ ['"'])).takeWhile
      (fun c => !isSpace c) = name := by
    rw [List.append_assoc, List.takeWhile_append_of_pos hname, List.replicate_succ]
    simp [hspace]
  have hdrop : (name ++ List.replicate (pad + 1) ' ' ++ '"' :: (value ++ ['"'])).dropWhile
      (fun c => !isSpace c) = List.replicate (pad + 1) ' ' ++ '"' :: (value ++ ['"']) := by
    rw [List.append_assoc, List.dropWhile_append_of_pos hname, List.replicate_succ]
    simp [hspace]
  have hline : (List.replicate (pad + 1) ' ' ++ '"' :: (value ++ ['"'])).takeWhile
      (fun c => decide (c ≠ '\n')) = List.replicate (pad + 1) ' ' ++ '"' :: (value ++ ['"']) := by
    apply List.takeWhile_eq_self_iff.mpr
    intro c hc
    rcases List.mem_append.mp hc with hc | hc
    · rw [List.eq_of_mem_replicate hc]
      decide
    · rcases List.mem_cons.mp hc with rfl | hc
      · decide
      · rcases List.mem_append.mp hc with hc | hc
        · simpa using (hv c hc).2.2.1
        · rw [List.mem_singleton.mp hc]
          decide
  have hvalue : trim (List.replicate (pad + 1) ' ' ++ '"' :: (value ++ ['"'])) =
      '"' :: (value ++ ['"']) := by
    rw [trim_spaces, trim_framed (by decide) (by decide)]
  have hsome : name ++ List.replicate (pad + 1) ' ' ++ '"' :: (value ++ ['"']) ≠ [] := by simp
  simp only [parseAssignment, trim_written hn pad hquote, hsome, if_false, hskip, htake,
    hn.nonempty, hdrop, hline, hvalue, parseValue_quoted hquote]

end Written
end FastdlMm.Config
