import FastdlMm.Logging.Retention
import FastdlMm.Server.EntityTags
import FastdlMm.Server.Requests

namespace FastdlMm.FastdlServer

/-- `\x` and two digits, for a byte that would end a line of the log, or move on it. -/
def escape (c : Char) : Text :=
  ['\\', 'x', Nat.digitChar (c.toNat / 16), Nat.digitChar (c.toNat % 16)]

/-- The loop of `sanitize`, with what it has put out so far. -/
def sanitizeFrom (limit : Nat) (out : Text) : Text → Text
  | [] => out
  | c :: rest =>
      if isControl c then
        if limit < out.length ∨ limit - out.length < 4 then out
        else sanitizeFrom limit (out ++ escape c) rest
      else if limit ≤ out.length then out
      else sanitizeFrom limit (out ++ [c]) rest

def sanitize (value : Text) (limit : Nat) : Text := sanitizeFrom limit [] value

/-- The quotient, rounded to the nearest whole number and from the middle to an even one. -/
def roundHalfEven (num den : Nat) : Nat :=
  let quotient := num / den
  let rest := num % den
  if 2 * rest < den then quotient
  else if den < 2 * rest then quotient + 1
  else if quotient % 2 = 0 then quotient
  else quotient + 1

/-- `static_cast<double>`: 53 binary digits of the number are kept. -/
def toDouble (n : Nat) : Nat :=
  let unit := 2 ^ (Nat.log2 n - 52)
  roundHalfEven n unit * unit

/-- One digit behind the point. -/
def kilobytes (bytes : Nat) : Text :=
  let tenths := roundHalfEven (10 * toDouble bytes) 1024
  decimal (tenths / 10) ++ '.' :: decimal (tenths % 10) ++ text "kB"

def terminationName : TerminationCode → Text
  | .completedOk => text "ok"
  | .withError => text "error"
  | .timeoutReached => text "timeout"
  | .daemonShutdown => text "shutdown"
  | .readError => text "read error"
  | .clientAbort => text "client abort"

/-- `%Y-%m-%dT%H:%M:%S` formatting. -/
def logStamp (day : AsyncLogger.Tm) : Text :=
  zeroPadded 1 (day.year + 1900) ++ '-' :: zeroPadded 2 (day.mon + 1) ++
    '-' :: zeroPadded 2 day.mday ++ 'T' :: zeroPadded 2 day.hour ++
    ':' :: zeroPadded 2 day.min ++ ':' :: zeroPadded 2 day.sec

/-- The line that `logCompleted` gives to the logger at a local time. -/
def logCompleted (day : AsyncLogger.Tm) (state : RequestState) (code : TerminationCode) : Text :=
  let bytes := if state.fileResponse then state.bytesSupplied else state.responseSize
  '[' :: logStamp day ++ text "] " ++ sanitize state.method 16 ++ ' ' :: sanitize state.url 2048 ++
    text " -> " ++ decimal state.status ++ ' ' :: kilobytes bytes ++ ' ' :: terminationName code ++
    text " from " ++ sanitize state.ip 64 ++ text " [" ++ sanitize state.userAgent 200 ++ [']'] ++
    (if state.reason = [] then [] else ' ' :: state.reason)

/-- The reasons that responses are noted with. -/
def reasons : List Text :=
  [[], text "not modified", text "invalid or unsatisfiable range", text "file too large",
    text "invalid method", text "blocked", text "non-steam client denied", text "rate limit",
    text "invalid path", text "not found", text "outside root", text "directory not served",
    text "invalid extension", text "file error", text "open or response failure"]

/-- No byte of the text would break a line. -/
def Clean (value : Text) : Prop := ∀ c ∈ value, isControl c = false

@[simp] theorem clean_nil : Clean [] := by simp [Clean]

@[simp] theorem clean_cons (c : Char) (value : Text) :
    Clean (c :: value) ↔ isControl c = false ∧ Clean value := by
  simp [Clean]

@[simp] theorem clean_append (value value' : Text) :
    Clean (value ++ value') ↔ Clean value ∧ Clean value' := by
  simp [Clean, or_imp, forall_and]

theorem clean_of_all {value : Text} (h : value.all (fun c => decide (isControl c = false)) = true) :
    Clean value :=
  forall_of_all h

/-- How `sanitize` puts out one byte. -/
def printed (c : Char) : Text := if isControl c then escape c else [c]

theorem printed_length (c : Char) : (printed c).length = if isControl c then 4 else 1 := by
  unfold printed
  split <;> rfl

theorem isControl_digitChar {n : Nat} (h : n < 16) : isControl n.digitChar = false := by
  have hall : ∀ n < 16, isControl (Nat.digitChar n) = false := by decide
  exact hall n h

theorem clean_printed (c : Char) : Clean (printed c) := by
  unfold printed
  split_ifs with hc
  · have hlt : c.toNat < 256 := by
      simp only [isControl, Bool.or_eq_true, decide_eq_true_eq] at hc
      omega
    have hhigh := isControl_digitChar (n := c.toNat / 16) (by omega)
    have hlow := isControl_digitChar (n := c.toNat % 16) (by omega)
    simp only [escape, clean_cons, hhigh, hlow, clean_nil, and_true]
    decide
  · simpa using hc

/-- The loop stops where the next byte has no room. -/
theorem sanitizeFrom_step (limit : Nat) (out : Text) (c : Char) (rest : Text)
    (hout : out.length ≤ limit) : sanitizeFrom limit out (c :: rest) =
      if (out ++ printed c).length ≤ limit then sanitizeFrom limit (out ++ printed c) rest
      else out := by
  rw [List.length_append, printed_length, sanitizeFrom, printed]
  by_cases hc : isControl c = true
  · simp only [hc, if_true]
    split_ifs <;> first | rfl | omega
  · simp only [hc]
    simp only [Bool.false_eq_true, if_false]
    split_ifs <;> first | rfl | omega

theorem sanitizeFrom_spec {limit : Nat} {out : Text} (hout : out.length ≤ limit) (value : Text) :
    ∃ n ≤ value.length, sanitizeFrom limit out value = out ++ (value.take n).flatMap printed ∧
      (sanitizeFrom limit out value).length ≤ limit ∧
      (n < value.length → limit < (out ++ (value.take (n + 1)).flatMap printed).length) := by
  induction value generalizing out with
  | nil => exact ⟨0, Nat.le_refl 0, by simp [sanitizeFrom], hout, fun h => absurd h (by simp)⟩
  | cons c rest ih =>
    rw [sanitizeFrom_step limit out c rest hout]
    split_ifs with hroom
    · obtain ⟨n, hn, heq, hlen, hnext⟩ := ih hroom
      refine ⟨n + 1, Nat.succ_le_succ hn, ?_, hlen, ?_⟩
      · rw [heq]
        simp
      · intro hlt
        have hmore := hnext (Nat.lt_of_succ_lt_succ hlt)
        simpa using hmore
    · refine ⟨0, Nat.zero_le _, by simp, hout, ?_⟩
      intro _
      simpa using Nat.lt_of_not_le hroom

/-- `sanitize` puts out the longest front of the value that fits with its control bytes written out,
and nothing of a byte that does not fit whole. -/
theorem sanitize_spec (value : Text) (limit : Nat) :
    Clean (sanitize value limit) ∧ (sanitize value limit).length ≤ limit ∧
      ∃ n ≤ value.length, sanitize value limit = (value.take n).flatMap printed ∧
        ∀ m ≤ value.length, ((value.take m).flatMap printed).length ≤ limit ↔ m ≤ n := by
  have hempty : ([] : Text).length ≤ limit := Nat.zero_le limit
  obtain ⟨n, hn, heq, hlen, hnext⟩ := sanitizeFrom_spec hempty value
  simp only [List.nil_append] at heq hnext
  refine ⟨?_, hlen, n, hn, heq, ?_⟩
  · rw [sanitize, heq]
    intro c hc
    obtain ⟨b, -, hb⟩ := List.mem_flatMap.mp hc
    exact clean_printed b c hb
  · intro m hm
    have hmono {i j : Nat} (hij : i ≤ j) : ((value.take i).flatMap printed).length ≤
        ((value.take j).flatMap printed).length := by
      obtain ⟨rest, hrest⟩ := List.take_prefix_take_left (l := value) hij
      rw [← hrest, List.flatMap_append, List.length_append]
      omega
    constructor
    · intro hfits
      by_contra hlt
      have hover := hnext (by omega)
      have := hmono (i := n + 1) (j := m) (by omega)
      omega
    · intro hle
      have := hmono hle
      rw [heq] at hlen
      omega

/-- Clean text that fits stays as it is. -/
theorem sanitize_eq_self {value : Text} (hclean : Clean value) {limit : Nat}
    (hlen : value.length ≤ limit) : sanitize value limit = value := by
  have hself (v : Text) (hv : Clean v) : v.flatMap printed = v := by
    induction v with
    | nil => rfl
    | cons c v ih =>
      rw [clean_cons] at hv
      simp [printed, hv.1, ih hv.2]
  obtain ⟨-, -, n, hn, heq, hfits⟩ := sanitize_spec value limit
  have hall : value.length ≤ n := by
    rw [← hfits _ (Nat.le_refl _), List.take_length, hself value hclean]
    exact hlen
  rw [heq, List.take_of_length_le hall, hself value hclean]

theorem clean_decimal (n : Nat) : Clean (decimal n) := by
  intro c hc
  have hdigit := Char.isDigit_iff_toNat.mp (decimal_digits n c hc)
  simp only [isControl, Bool.or_eq_false_iff, decide_eq_false_iff_not]
  have h0 : '0'.toNat = 48 := rfl
  have h9 : '9'.toNat = 57 := rfl
  omega

theorem clean_zeroPadded (width : Nat) (n : Int) : Clean (zeroPadded width n) := by
  have hpad (k : Nat) : Clean ((decimal n.natAbs).leftpad k '0') := by
    rw [List.leftpad, clean_append]
    refine ⟨fun c hc => ?_, clean_decimal _⟩
    rw [List.eq_of_mem_replicate hc]
    decide
  unfold zeroPadded
  split_ifs
  · exact (clean_cons _ _).mpr ⟨by decide, hpad _⟩
  · exact hpad _

theorem clean_kilobytes (bytes : Nat) : Clean (kilobytes bytes) := by
  have hunit : Clean (text "kB") := by
    rw [text_eq rfl]
    exact clean_of_all rfl
  simp only [kilobytes, clean_append, clean_cons, clean_decimal, hunit, and_true, true_and]
  decide

theorem clean_terminationName (code : TerminationCode) : Clean (terminationName code) := by
  cases code <;> (rw [terminationName, text_eq rfl]; exact clean_of_all rfl)

theorem clean_logStamp (day : AsyncLogger.Tm) : Clean (logStamp day) := by
  simp only [logStamp, clean_append, clean_cons, clean_zeroPadded, and_true, true_and]
  decide

theorem clean_reasons : ∀ reason ∈ reasons, Clean reason := by
  have hchars : ∃ list, reasons = list ∧ ∀ reason ∈ list,
      reason.all (fun c => decide (isControl c = false)) = true := by
    apply Exists.intro
    apply And.intro
    · simp only [reasons]
      repeat' apply congrArg₂ List.cons
      all_goals first | exact text_eq rfl | rfl
    · decide +kernel
  obtain ⟨list, hlist, hall⟩ := hchars
  intro reason hreason
  rw [hlist] at hreason
  exact clean_of_all (hall reason hreason)

/-- Whatever the client sent, its line is one line. -/
theorem clean_logCompleted (day : AsyncLogger.Tm) {state : RequestState}
    (hreason : state.reason ∈ reasons) (code : TerminationCode) :
    Clean (logCompleted day state code) := by
  have hfixed : Clean (text "] ") ∧ Clean (text " -> ") ∧ Clean (text " from ") ∧
      Clean (text " [") := by
    refine ⟨?_, ?_, ?_, ?_⟩ <;> (rw [text_eq rfl]; exact clean_of_all rfl)
  obtain ⟨hclose, harrow, hfrom, hopening⟩ := hfixed
  have hsanitize (value : Text) (limit : Nat) : Clean (sanitize value limit) :=
    (sanitize_spec value limit).1
  have hbracket : isControl '[' = false ∧ isControl ']' = false ∧ isControl ' ' = false := by decide
  have htail : Clean (if state.reason = [] then [] else ' ' :: state.reason) := by
    split_ifs
    · exact clean_nil
    · exact (clean_cons _ _).mpr ⟨hbracket.2.2, clean_reasons _ hreason⟩
  simp only [logCompleted, clean_append, clean_cons, clean_nil, clean_logStamp, clean_decimal,
    clean_kilobytes, clean_terminationName, hsanitize, hclose, harrow, hfrom, hopening, hbracket,
    htail, and_self]

end FastdlMm.FastdlServer
