import FastdlMm.Cache.Compress
import Mathlib.Data.List.ReduceOption
import Mathlib.Data.Nat.Digits.Defs

namespace FastdlMm.CompressionCache

/-- A stream after calls of `mz_deflate` that succeeded: what they took in and what they gave out. -/
inductive Miniz.Fed (z : Miniz) : z.Stream → Text → Text → Prop
  | start {stream : z.Stream} (h : z.deflateInit = some stream) : Fed z stream [] []
  | call {stream : z.Stream} {consumed output : Text} (h : Fed z stream consumed output)
      (flush : Flush) (input : Text) (room : Nat)
      (hok : (z.deflate stream flush input room).status = .ok) :
      Fed z (z.deflate stream flush input room).stream
        (consumed ++ input.take (z.deflate stream flush input room).consumed)
        (output ++ (z.deflate stream flush input room).output)

/-- The documented behaviour of the compressor, where `inflate` is what a raw deflate stream means. -/
structure Miniz.Documented (z : Miniz) (inflate : Text → Option Text) : Prop where
  inflates : ∀ stream consumed output flush input room, z.Fed stream consumed output →
    (z.deflate stream flush input room).status = .streamEnd →
    inflate (output ++ (z.deflate stream flush input room).output) =
      some (consumed ++ input.take (z.deflate stream flush input room).consumed)
  crc32_append : ∀ crc a b, z.crc32 (z.crc32 crc a) b = z.crc32 crc (a ++ b)

/-- Somewhere on the way through its input, the blocks that follow and the end, the stream fails. -/
inductive Miniz.FailsFrom (z : Miniz) : z.Stream → Text → List Text → Prop
  | input {stream : z.Stream} {c : Char} {cs : Text} {blocks : List Text}
      (h : (z.deflate stream .noFlush (c :: cs) bufferSize).status ≠ .ok) :
      FailsFrom z stream (c :: cs) blocks
  | fed {stream : z.Stream} {c : Char} {cs : Text} {blocks : List Text}
      (hok : (z.deflate stream .noFlush (c :: cs) bufferSize).status = .ok)
      (h : FailsFrom z (z.deflate stream .noFlush (c :: cs) bufferSize).stream
        ((c :: cs).drop (z.deflate stream .noFlush (c :: cs) bufferSize).consumed) blocks) :
      FailsFrom z stream (c :: cs) blocks
  | block {stream : z.Stream} {block : Text} {blocks : List Text}
      (h : FailsFrom z stream block blocks) : FailsFrom z stream [] (block :: blocks)
  | finish {stream : z.Stream} (h : (z.deflate stream .finish [] bufferSize).status = .failed) :
      FailsFrom z stream [] []
  | again {stream : z.Stream} (hok : (z.deflate stream .finish [] bufferSize).status = .ok)
      (h : FailsFrom z (z.deflate stream .finish [] bufferSize).stream [] []) :
      FailsFrom z stream [] []

/-- The stream cannot be opened, or fails over these blocks and the end behind them. -/
def Miniz.Fails (z : Miniz) (blocks : List Text) : Prop :=
  ∀ stream, z.deflateInit = some stream → z.FailsFrom stream [] blocks

/-- Four bytes that hold a value modulo `2 ^ 32`, the lowest first. -/
structure IsLittleEndian (bytes : Text) (value : Nat) : Prop where
  length : bytes.length = 4
  lt : ∀ c ∈ bytes, c.toNat < 256
  value : Nat.ofDigits 256 (bytes.map Char.toNat) = value % 2 ^ 32

/-- The gzip member of `source`: the bytes 1f 8b of the format, the method deflate, no flags, no time,
the fastest level and no known system, then the deflate stream, its check sum and its length. -/
structure GzipMember (z : Miniz) (inflate : Text → Option Text) (source data : Text) : Prop where
  layout : ∃ header raw check size, data = header ++ raw ++ check ++ size ∧
    header.map Char.toNat = [31, 139, 8, 0, 0, 0, 0, 0, 4, 255] ∧
    inflate raw = some source ∧ IsLittleEndian check (z.crc32 0 source) ∧
    IsLittleEndian size source.length

/-- The gzip member of all `size` bytes of a source that holds `content`. -/
def IsArtifact (z : Miniz) (inflate : Text → Option Text) (content : Text) (size : Nat)
    (data : Text) : Prop :=
  ∃ source, source = content.take size ∧ source.length = size ∧ GzipMember z inflate source data

/-- The `.gz`, `.meta` and `.skip` files, which a lookup reads. -/
def Suffix.Final : Suffix → Prop
  | .gzip | .metadata | .skip => True
  | _ => False

def Untouched (key : Text) (s s' : Store) : Prop :=
  ∀ x : Suffix, x.Final → s'.file (artifact key x) = s.file (artifact key x)

/-- A run of `compress` with its history: what the reads of the source gave, how the operations on
`.gz.tmp` fared, what the looks at the source showed, and which file the source was whenever something
was done before the first operation on `.gz.tmp` and since the last. -/
structure Attempt where
  store : Store
  reads : List (Option Text) := []
  outputs : List Bool := []
  looks : List (Option OpenedFileInfo) := []
  before : List (Option OpenedFileInfo) := []
  later : List (Option OpenedFileInfo) := []

/-- Something is done while the source is the file `now`, or cannot be opened. -/
def Attempt.passes (a : Attempt) (now : Option OpenedFileInfo) (s : Store) : Attempt :=
  if a.outputs = [] then { a with store := s, before := a.before ++ [now] }
  else { a with store := s, later := a.later ++ [now] }

def Attempt.onOutput (a : Attempt) (key name : Text) (now : Option OpenedFileInfo) (ok : Bool)
    (s : Store) : Attempt :=
  if name = artifact key .gzipTemp then
    { a with store := s, outputs := a.outputs ++ [ok], later := [] }
  else a.passes now s

/-- The run after one more operation. -/
def Attempt.after (a : Attempt) (key : Text) (now : Option OpenedFileInfo) :
    (q : Op) → q.Answer → Store → Attempt
  | .readFileAt _ _ _, x, s => { a.passes now s with reads := a.reads ++ [x] }
  | .inspect _, x, s => { a.passes now s with looks := a.looks ++ [x] }
  | .create name, x, s | .append name _, x, s | .flush name, x, s => a.onOutput key name now x s
  | _, _, s => a.passes now s

/-- Where the source is the file `now` and holds `content`, a look shows that file, and a read gives
bytes of the content from the offset on. -/
def Op.shows (content : Text) (now : Option OpenedFileInfo) : (q : Op) → q.Answer → Bool
  | .inspect _, x => decide (x = now)
  | .readFileAt _ offset _, some bytes => bytes.isPrefixOf (content.drop offset)
  | _, _ => true

/-- One operation of a run over a source that holds `content`. Which file it is may change between
any two operations. -/
def Op.Attempted (content key : Text) (q : Op) (a : Attempt) (x : q.Answer) (a' : Attempt) : Prop :=
  ∃ now s, q.shows content now x = true ∧ q.Effect a.store x s ∧ a' = a.after key now q x s

/-- Two states of the source that are not the same file. -/
def Differ (before after : OpenedFileInfo) : Prop :=
  after.size ≠ before.size ∨ after.modifiedIdentity ≠ before.modifiedIdentity ∨
    after.fileIdentity ≠ before.fileIdentity

/-- The source is there at both times and the same file. -/
def Stays (before after : Option OpenedFileInfo) : Prop :=
  ∃ x y, before = some x ∧ after = some y ∧ ¬ Differ x y

/-- What keeps a run from storing anything. The source has changed if it is another file when the
output is complete than it was at the start. -/
inductive Attempt.Failed (z : Miniz) (job : Job) (a : Attempt) : Prop
  | read (h : none ∈ a.reads)
  | stream (h : z.Fails a.reads.reduceOption)
  | output (h : false ∈ a.outputs)
  | inspection (h : none ∈ a.looks)
  | changed (h : ∀ x ∈ a.before.head?, ∀ y ∈ a.later.head?, ¬ Stays x y)
  | stale (h : ∀ x ∈ a.before.head?, ¬ Stays (some job.source.info) x)

/-- A run that failed has left the files of its key alone, and where it has put an artifact in
place, that is the gzip member of the whole source. -/
structure Attempt.Correct (z : Miniz) (inflate : Text → Option Text) (content : Text) (job : Job)
    (s : Store) (a : Attempt) : Prop where
  untouched : a.Failed z job → Untouched job.key s a.store
  member : ∀ f, a.store.file (artifact job.key .gzip) = some f →
    s.file (artifact job.key .gzip) = some f ∨
      IsArtifact z inflate content job.source.info.size f.data

theorem littleEndian_isLittleEndian (value : Nat) : IsLittleEndian (littleEndian value) value := by
  have hbyte (n : Nat) : (Char.ofNat (n % 256)).toNat = n % 256 := by
    have hvalid : (n % 256).isValidChar := .inl (by omega)
    rw [Char.ofNat, dif_pos hvalid]
    rfl
  refine ⟨rfl, ?_, ?_⟩
  · intro c hc
    simp only [littleEndian, bytes, List.map_cons, List.map_nil, List.mem_cons, List.not_mem_nil,
      or_false] at hc
    rcases hc with rfl | rfl | rfl | rfl <;> rw [hbyte] <;> omega
  · simp only [littleEndian, bytes, List.map_cons, List.map_nil, hbyte, Nat.ofDigits_cons,
      Nat.ofDigits_nil]
    omega

section Early

variable {z : Miniz} {inflate : Text → Option Text} {content : Text} {job : Job} {key name : Text}
  {s s₀ : Store} {a a' : Attempt} {now : Option OpenedFileInfo}

theorem Untouched.refl (key : Text) (s : Store) : Untouched key s s := fun _ _ => rfl

theorem Untouched.correct (h : Untouched job.key s a.store) : a.Correct z inflate content job s where
  untouched := fun _ => h
  member := fun _ hf => .inl ((h .gzip trivial).symm.trans hf)

@[simp] theorem Attempt.passes_store : (a.passes now s).store = s := by
  unfold Attempt.passes
  split_ifs <;> rfl

@[simp] theorem Attempt.passes_reads : (a.passes now s).reads = a.reads := by
  unfold Attempt.passes
  split_ifs <;> rfl

@[simp] theorem Attempt.passes_outputs : (a.passes now s).outputs = a.outputs := by
  unfold Attempt.passes
  split_ifs <;> rfl

@[simp] theorem Attempt.passes_looks : (a.passes now s).looks = a.looks := by
  unfold Attempt.passes
  split_ifs <;> rfl

/-- From the first operation on `.gz.tmp` on, what the source was before is settled. -/
theorem Attempt.passes_begun (h : a.outputs ≠ []) :
    a.passes now s = { a with store := s, later := a.later ++ [now] } := if_neg h

theorem Attempt.after_begun (h : a.outputs ≠ []) (q : Op) (x : q.Answer) :
    (a.after key now q x s).outputs ≠ [] ∧ (a.after key now q x s).before = a.before := by
  have hpasses : (a.passes now s).outputs ≠ [] ∧ (a.passes now s).before = a.before := by
    rw [passes_begun h]
    exact ⟨h, rfl⟩
  have houtput (name : Text) (ok : Bool) : (a.onOutput key name now ok s).outputs ≠ [] ∧
      (a.onOutput key name now ok s).before = a.before := by
    unfold onOutput
    split_ifs
    · exact ⟨List.append_ne_nil_of_left_ne_nil h _, rfl⟩
    · exact hpasses
  cases q <;> first | exact hpasses | exact houtput _ _

theorem Attempt.onOutput_store (ok : Bool) : (a.onOutput key name now ok s).store = s := by
  unfold Attempt.onOutput
  split_ifs
  · rfl
  · exact passes_store

theorem Attempt.after_store (q : Op) (x : q.Answer) : (a.after key now q x s).store = s := by
  cases q <;> first | exact passes_store | exact onOutput_store _

/-- The operations up to the complete `.gz.tmp`. -/
def Op.Early (key : Text) : Op → Prop
  | .create name | .append name _ | .flush name => name = artifact key .gzipTemp
  | .remove name => ∀ x : Suffix, x.Final → artifact key x ≠ name
  | q => q.Reads

theorem early_of_writes (q : Op) (hq : q.Writes (artifact key .gzipTemp)) : q.Early key := by
  cases q <;> first | exact hq | cases hq

theorem Untouched.put (h : Untouched key s₀ s) (f : File) :
    Untouched key s₀ (s.put (artifact key .gzipTemp) f) := by
  intro x hx
  rw [Store.file_put, if_neg]
  · exact h x hx
  · cases x <;> simp [Suffix.Final] at hx ⊢

theorem early_step {q : Op} {x : q.Answer} (hq : q.Early key) (h : Untouched key s₀ a.store)
    (hm : q.Attempted content key a x a') : Untouched key s₀ a'.store := by
  obtain ⟨now, s, -, ⟨c, u, u', hs⟩, rfl⟩ := hm
  rw [Attempt.after_store]
  cases q with
  | remove name =>
    rcases perform_remove hs with rfl | rfl
    · exact h
    · intro x hx
      rw [Store.file_remove, if_neg (hq x hx)]
      exact h x hx
  | create name =>
    cases hq
    rcases perform_create hs with ⟨-, rfl⟩ | ⟨-, rfl⟩
    · exact h
    · exact h.put _
  | append name data =>
    cases hq
    rcases perform_append hs with ⟨-, rfl⟩ | ⟨f, part, -, -, rfl⟩
    · exact h
    · exact h.put _
  | flush name =>
    cases hq
    rcases perform_flush hs with ⟨rfl, -⟩ | ⟨f, -, -, rfl⟩
    · exact h
    · exact h.put _
  | rename | setCounters | takeWork | claim | release | enqueue => cases hq
  | regularArtifact | fileSize | read | lastWriteTime | listDirectory | nextEntry | oldest | inspect
  | readFileAt | describe | nextFile | running | stopping | counters | spin =>
    rw [perform_reads (by trivial) hs]
    exact h

end Early

section Feeding

variable {z : Miniz} {inflate : Text → Option Text} {content key total data : Text}
  {looks : List (Option OpenedFileInfo)} {stream : z.Stream} {input : Text} {a a' : Attempt}

/-- The run goes on over the source, whatever the steps before have been. -/
abbrev Tries {α : Type} (content key : Text) (p : CacheProgram α) (post : α → Attempt → Prop)
    (a : Attempt) : Prop :=
  p.Safe (Op.Attempted content key) (fun _ _ _ => True) post a

/-- `data` has been added to `.gz.tmp`, and nothing else has become known. -/
structure Attempt.Wrote (key data : Text) (a a' : Attempt) : Prop where
  reads : a'.reads = a.reads
  looks : a'.looks = a.looks
  outputs : false ∉ a.outputs → false ∉ a'.outputs
  later : a'.later = []
  data : ∀ f', a'.store.file (artifact key .gzipTemp) = some f' →
    ∃ f, a.store.file (artifact key .gzipTemp) = some f ∧ f'.data = f.data ++ data

theorem onOutput_gzipTemp (a : Attempt) (key : Text) (now : Option OpenedFileInfo) (ok : Bool)
    (s : Store) : a.onOutput key (artifact key .gzipTemp) now ok s =
      { a with store := s, outputs := a.outputs ++ [ok], later := [] } := if_pos rfl

theorem not_mem_snoc_true {outputs : List Bool} (h : false ∉ outputs) :
    false ∉ outputs ++ [true] := by simpa using h

/-- An operation on `.gz.tmp` that succeeds adds what it leaves there. -/
theorem wrote_of_output {x : Bool} {s : Store} {now : Option OpenedFileInfo} (hx : x = true)
    (ha' : a' = a.onOutput key (artifact key .gzipTemp) now x s)
    (hdata : ∀ f', s.file (artifact key .gzipTemp) = some f' →
      ∃ f, a.store.file (artifact key .gzipTemp) = some f ∧ f'.data = f.data ++ data) :
    a.Wrote key data a' := by
  rw [onOutput_gzipTemp] at ha'
  subst ha' hx
  exact ⟨rfl, rfl, not_mem_snoc_true, rfl, hdata⟩

theorem write_tries (good : Bool) (data : Text) (a : Attempt) :
    Tries content key (write (artifact key .gzipTemp) good data)
      (fun good' a' => good' = true → good = true ∧ a.Wrote key data a') a := by
  unfold write
  split
  · rintro x a' ⟨now, s, -, ⟨c, u, u', h⟩, ha'⟩
    refine ⟨trivial, fun hx => ⟨‹_›, wrote_of_output hx ha' fun f' hf' => ?_⟩⟩
    rcases perform_append h with ⟨hf, rfl⟩ | ⟨f, part, hf, hpart, rfl⟩
    · rw [hf] at hf'
      cases hf'
    · rw [Store.file_put, if_pos rfl, Option.some.injEq] at hf'
      refine ⟨f, hf, ?_⟩
      rw [← hf', hpart hx]
  · intro h
    cases h

theorem flush_tries (good : Bool) (a : Attempt) :
    Tries content key (flush (artifact key .gzipTemp) good)
      (fun good' a' => good' = true → good = true ∧ a.Wrote key [] a') a := by
  unfold flush
  split
  · rintro x a' ⟨now, s, -, ⟨c, u, u', h⟩, ha'⟩
    refine ⟨trivial, fun hx => ⟨‹_›, wrote_of_output hx ha' fun f' hf' => ?_⟩⟩
    rcases perform_flush h with ⟨rfl, hf⟩ | ⟨f, hf, -, rfl⟩
    · rw [hf hx] at hf'
      cases hf'
    · rw [Store.file_put, if_pos rfl, Option.some.injEq] at hf'
      refine ⟨f, hf, ?_⟩
      rw [← hf', List.append_nil]
  · intro h
    cases h

/-- The stream has taken in all of `total` but `input`, its output is in the file behind the header,
and a failure that is not behind it yet lies ahead. -/
structure Feeding (z : Miniz) (key : Text) (looks : List (Option OpenedFileInfo)) (total : Text)
    (stream : z.Stream) (input : Text) (a : Attempt) : Prop where
  fed : ∃ consumed output, z.Fed stream consumed output ∧ consumed ++ input = total ∧
    ∀ f, a.store.file (artifact key .gzipTemp) = some f → f.data = gzipHeader ++ output
  fails : ∀ blocks, z.Fails (a.reads.reduceOption ++ blocks) → z.FailsFrom stream input blocks
  reads : none ∉ a.reads
  outputs : false ∉ a.outputs
  looks : a.looks = looks

theorem Feeding.call {c : Char} {cs : Text} (h : Feeding z key looks total stream (c :: cs) a)
    (hok : (z.deflate stream .noFlush (c :: cs) bufferSize).status = .ok)
    (hwrote : a.Wrote key (z.deflate stream .noFlush (c :: cs) bufferSize).output a') :
    Feeding z key looks total (z.deflate stream .noFlush (c :: cs) bufferSize).stream
      ((c :: cs).drop (z.deflate stream .noFlush (c :: cs) bufferSize).consumed) a' where
  fed := by
    obtain ⟨consumed, output, hfed, htotal, hdata⟩ := h.fed
    refine ⟨_, _, hfed.call .noFlush (c :: cs) bufferSize hok, ?_, ?_⟩
    · rw [List.append_assoc, List.take_append_drop, htotal]
    · intro f' hf'
      obtain ⟨f, hf, hadded⟩ := hwrote.data f' hf'
      rw [hadded, hdata f hf, List.append_assoc]
  fails := by
    intro blocks hfails
    rw [hwrote.reads] at hfails
    have hfrom := h.fails blocks hfails
    cases hfrom with
    | input hne => exact absurd hok hne
    | fed _ hrest => exact hrest
  reads := hwrote.reads ▸ h.reads
  outputs := hwrote.outputs h.outputs
  looks := hwrote.looks.trans h.looks

theorem deflateInput_tries (fuel : Nat) (stream : z.Stream) (input : Text) (good : Bool)
    (a : Attempt) (h : good = true → Feeding z key looks total stream input a) :
    Tries content key (deflateInput z (artifact key .gzipTemp) fuel stream input good)
      (fun r a' => ∀ stream' good', r = some (stream', good') → good' = true →
        good = true ∧ Feeding z key looks total stream' [] a') a := by
  induction fuel generalizing stream input good a with
  | zero =>
    cases input with
    | nil =>
      intro stream' good' hr hgood
      cases hr
      exact ⟨hgood, h hgood⟩
    | cons c cs => exact fun x => x.elim
  | succ fuel ih =>
    cases input with
    | nil =>
      intro stream' good' hr hgood
      cases hr
      exact ⟨hgood, h hgood⟩
    | cons c cs =>
      unfold deflateInput
      dsimp only
      split
      · intro stream' good' hr
        cases hr
      rename_i hok
      apply (write_tries good _ a).bind
      intro good' a' hwrite
      apply (ih _ _ good' a' _).mono (fun _ _ _ _ h => h) (fun _ _ _ h => h)
      · intro r a'' hfed stream' good'' hr hgood''
        obtain ⟨hgood', hfeeding⟩ := hfed stream' good'' hr hgood''
        exact ⟨(hwrite hgood').1, hfeeding⟩
      · intro hgood'
        obtain ⟨hgood, hwrote⟩ := hwrite hgood'
        exact (h hgood).call (not_not.mp hok) hwrote

/-- Another block has been read. -/
theorem Feeding.block {block : Text} (h : Feeding z key looks total stream [] a)
    (hstore : a'.store = a.store) (hreads : a'.reads = a.reads ++ [some block])
    (houtputs : a'.outputs = a.outputs) (hlooks : a'.looks = a.looks) :
    Feeding z key looks (total ++ block) stream block a' where
  fed := by
    obtain ⟨consumed, output, hfed, htotal, hdata⟩ := h.fed
    rw [List.append_nil] at htotal
    exact ⟨consumed, output, hfed, by rw [htotal], by rwa [hstore]⟩
  fails := by
    intro blocks hfails
    rw [hreads, List.reduceOption_append, List.reduceOption_singleton, List.append_assoc] at hfails
    have hfrom := h.fails _ hfails
    cases hfrom with
    | block hrest => exact hrest
  reads := by simpa [hreads] using h.reads
  outputs := houtputs ▸ h.outputs
  looks := hlooks.trans h.looks

/-- All that was read up to the offset has gone into the stream and into the check sum. -/
structure Reading (z : Miniz) (key content : Text) (looks : List (Option OpenedFileInfo)) (size : Nat)
    (t : Streaming z) (a : Attempt) : Prop where
  feeding : Feeding z key looks (content.take t.offset) t.stream [] a
  crc : t.crc = z.crc32 0 (content.take t.offset)
  le : t.offset ≤ size
  held : t.offset ≤ content.length

theorem take_add_of_prefix {block : Text} {offset : Nat} (h : block <+: content.drop offset) :
    content.take (offset + block.length) = content.take offset ++ block := by
  rw [List.take_add]
  exact congrArg _ (List.prefix_iff_eq_take.mp h).symm

theorem readSource_tries (hcrc : ∀ crc a b, z.crc32 (z.crc32 crc a) b = z.crc32 crc (a ++ b))
    (path : Text) (size fuel : Nat) (t : Streaming z) (a : Attempt)
    (h : t.good = true → Reading z key content looks size t a) :
    Tries content key (readSource z (artifact key .gzipTemp) path size fuel t)
      (fun r a' => ∀ t', r = some t' → t'.good = true →
        Reading z key content looks size t' a' ∧ t'.offset = size) a := by
  have hend {t : Streaming z} {a : Attempt} (hoff : ¬ t.offset < size)
      (h : t.good = true → Reading z key content looks size t a) :
      ∀ t', some t = some t' → t'.good = true →
        Reading z key content looks size t' a ∧ t'.offset = size := by
    intro t' ht hgood
    cases ht
    have hreading := h hgood
    exact ⟨hreading, le_antisymm hreading.le (not_lt.mp hoff)⟩
  induction fuel generalizing t a with
  | zero =>
    unfold readSource
    split
    · exact fun x => x.elim
    · exact hend ‹_› h
  | succ fuel ih =>
    unfold readSource
    split
    · exact hend ‹_› h
    rename_i hoff
    have hoff := not_not.mp hoff
    apply Program.Safe.query
    rintro stopping a₁ ⟨now₁, s₁, -, ⟨c, u, u', hs₁⟩, rfl⟩
    cases hs₁
    refine ⟨trivial, ?_⟩
    split
    · intro t' ht
      cases ht
    apply Program.Safe.query
    rintro input a₂ ⟨now₂, s₂, hshows, ⟨c, u, u', hs₂⟩, ha₂⟩
    refine ⟨trivial, ?_⟩
    rw [Attempt.after_store] at hs₂
    have hsame := perform_reads (by trivial) hs₂
    subst hsame
    cases input with
    | none =>
      intro t' ht
      cases ht
    | some input =>
      have hprefix : input <+: content.drop t.offset := List.isPrefixOf_iff_prefix.mp hshows
      have hlen : input.length ≤ min bufferSize (size - t.offset) := by
        simp only [Op.perform] at hs₂
        split at hs₂
        · split_ifs at hs₂ with hbad
          cases hs₂
          exact not_lt.mp fun hlt => hbad (.inr hlt)
        · cases hs₂
      have hblock : t.good = true →
          Feeding z key looks (content.take t.offset ++ input) t.stream input a₂ := by
        intro hgood
        apply (h hgood).feeding.block <;> simp [ha₂, Attempt.after]
      apply (deflateInput_tries fuel t.stream input t.good _ hblock).bind
      intro fed a₃ hfed
      split
      · rename_i stream good
        apply ih
        intro hgood
        obtain ⟨hgood₀, hfeeding⟩ := hfed stream good rfl hgood
        obtain ⟨-, hcrc₀, hle, hheld⟩ := h hgood₀
        have htake := take_add_of_prefix hprefix
        refine ⟨?_, ?_, ?_, ?_⟩
        · rw [htake]
          exact hfeeding
        · rw [htake, hcrc₀, hcrc]
        · show t.offset + input.length ≤ size
          omega
        · show t.offset + input.length ≤ content.length
          have hfits := hprefix.length_le
          rw [List.length_drop] at hfits
          omega
      · intro t' ht
        cases ht

/-- The stream has taken in all of `total`, and runs out. -/
structure Finishing (z : Miniz) (key : Text) (looks : List (Option OpenedFileInfo)) (total : Text)
    (stream : z.Stream) (a : Attempt) : Prop where
  fed : ∃ output, z.Fed stream total output ∧
    ∀ f, a.store.file (artifact key .gzipTemp) = some f → f.data = gzipHeader ++ output
  fails : z.Fails a.reads.reduceOption → z.FailsFrom stream [] []
  reads : none ∉ a.reads
  outputs : false ∉ a.outputs
  looks : a.looks = looks

theorem Feeding.finishing (h : Feeding z key looks total stream [] a) :
    Finishing z key looks total stream a where
  fed := by
    obtain ⟨consumed, output, hfed, htotal, hdata⟩ := h.fed
    rw [List.append_nil] at htotal
    subst htotal
    exact ⟨output, hfed, hdata⟩
  fails := fun hfails => h.fails [] (by rwa [List.append_nil])
  reads := h.reads
  outputs := h.outputs
  looks := h.looks

theorem Finishing.again (h : Finishing z key looks total stream a)
    (hok : (z.deflate stream .finish [] bufferSize).status = .ok)
    (hwrote : a.Wrote key (z.deflate stream .finish [] bufferSize).output a') :
    Finishing z key looks total (z.deflate stream .finish [] bufferSize).stream a' where
  fed := by
    obtain ⟨output, hfed, hdata⟩ := h.fed
    have hcall := hfed.call .finish [] bufferSize hok
    rw [List.take_nil, List.append_nil] at hcall
    refine ⟨_, hcall, ?_⟩
    intro f' hf'
    obtain ⟨f, hf, hadded⟩ := hwrote.data f' hf'
    rw [hadded, hdata f hf, List.append_assoc]
  fails := by
    intro hfails
    rw [hwrote.reads] at hfails
    have hfrom := h.fails hfails
    cases hfrom with
    | finish hfailed =>
      rw [hok] at hfailed
      cases hfailed
    | again _ hrest => exact hrest
  reads := hwrote.reads ▸ h.reads
  outputs := hwrote.outputs h.outputs
  looks := hwrote.looks.trans h.looks

/-- `data` is the whole of `.gz.tmp`, and nothing has failed on the way to it. -/
structure Attempt.Holds (z : Miniz) (key : Text) (looks : List (Option OpenedFileInfo))
    (data : Text) (a : Attempt) : Prop where
  data : ∀ f, a.store.file (artifact key .gzipTemp) = some f → f.data = data
  stream : ¬ z.Fails a.reads.reduceOption
  reads : none ∉ a.reads
  outputs : false ∉ a.outputs
  looks : a.looks = looks
  later : a.later = []

theorem Attempt.Holds.wrote {data' : Text} (h : a.Holds z key looks data)
    (hwrote : a.Wrote key data' a') : a'.Holds z key looks (data ++ data') where
  data := by
    intro f' hf'
    obtain ⟨f, hf, hadded⟩ := hwrote.data f' hf'
    rw [hadded, h.data f hf]
  stream := hwrote.reads ▸ h.stream
  reads := hwrote.reads ▸ h.reads
  outputs := hwrote.outputs h.outputs
  looks := hwrote.looks.trans h.looks
  later := hwrote.later

theorem Finishing.holds (hz : z.Documented inflate) (h : Finishing z key looks total stream a)
    (hend : (z.deflate stream .finish [] bufferSize).status = .streamEnd)
    (hwrote : a.Wrote key (z.deflate stream .finish [] bufferSize).output a') :
    ∃ raw, inflate raw = some total ∧ a'.Holds z key looks (gzipHeader ++ raw) := by
  obtain ⟨output, hfed, hdata⟩ := h.fed
  have hinflates := hz.inflates stream total output .finish [] bufferSize hfed hend
  rw [List.take_nil, List.append_nil] at hinflates
  refine ⟨_, hinflates, ?_, ?_, hwrote.reads ▸ h.reads, hwrote.outputs h.outputs,
    hwrote.looks.trans h.looks, hwrote.later⟩
  · intro f' hf'
    obtain ⟨f, hf, hadded⟩ := hwrote.data f' hf'
    rw [hadded, hdata f hf, List.append_assoc]
  · intro hfails
    rw [hwrote.reads] at hfails
    have hfrom := h.fails hfails
    cases hfrom with
    | finish hfailed =>
      rw [hend] at hfailed
      cases hfailed
    | again hok =>
      rw [hend] at hok
      cases hok

theorem finishStream_tries (hz : z.Documented inflate) (fuel : Nat) (stream : z.Stream)
    (good : Bool) (a : Attempt) (h : good = true → Finishing z key looks total stream a) :
    Tries content key (finishStream z (artifact key .gzipTemp) fuel stream good)
      (fun r a' => r = some true → good = true ∧
        ∃ raw, inflate raw = some total ∧ a'.Holds z key looks (gzipHeader ++ raw)) a := by
  induction fuel generalizing stream good a with
  | zero => exact fun x => x.elim
  | succ fuel ih =>
    unfold finishStream
    dsimp only
    split
    · intro hr
      cases hr
    rename_i hstatus
    apply (write_tries good _ a).bind
    intro good' a' hwrite
    split
    · rename_i hend
      intro hr
      obtain ⟨hgood, hwrote⟩ := hwrite (Option.some.inj hr)
      exact ⟨hgood, (h hgood).holds hz hend hwrote⟩
    · rename_i hend
      have hok : (z.deflate stream .finish [] bufferSize).status = .ok := by
        cases hcase : (z.deflate stream .finish [] bufferSize).status with
        | ok => rfl
        | streamEnd => exact absurd hcase hend
        | failed => exact absurd hcase hstatus
      apply (ih _ good' a' _).mono (fun _ _ _ _ h => h) (fun _ _ _ h => h)
      · intro r a'' hholds hr
        obtain ⟨hgood', hholds⟩ := hholds hr
        exact ⟨(hwrite hgood').1, hholds⟩
      · intro hgood'
        obtain ⟨hgood, hwrote⟩ := hwrite hgood'
        exact (h hgood).again hok hwrote

/-- A `.gz.tmp` that is complete holds the gzip member of the whole source. -/
theorem writeArtifact_tries {S : Settings} (hz : S.miniz.Documented inflate) (fuel : Nat)
    (job : Job) (size : Nat) (a : Attempt) (hreads : a.reads = []) (houtputs : false ∉ a.outputs)
    (hempty : ∀ f, a.store.file (artifact job.key .gzipTemp) = some f → f.data = []) :
    Tries content job.key (writeArtifact S fuel job size)
      (fun ok a' => ok = true → ∃ data, IsArtifact S.miniz inflate content size data ∧
        a'.Holds S.miniz job.key a.looks data) a := by
  apply (write_tries true gzipHeader a).bind
  intro good a₁ hheader
  dsimp only
  split
  · rename_i stream hinit
    have hstart : good = true → Reading S.miniz job.key content a.looks size
        ⟨stream, good, S.miniz.crc32 0 [], 0⟩ a₁ := by
      intro hgood
      obtain ⟨-, hwrote⟩ := hheader hgood
      refine ⟨⟨⟨[], [], .start hinit, rfl, ?_⟩, ?_, ?_, hwrote.outputs houtputs, hwrote.looks⟩,
        rfl, Nat.zero_le _, Nat.zero_le _⟩
      · intro f' hf'
        obtain ⟨f, hf, hadded⟩ := hwrote.data f' hf'
        rw [hadded, hempty f hf, List.nil_append, List.append_nil]
      · intro blocks hfails
        rw [hwrote.reads, hreads] at hfails
        exact hfails stream hinit
      · rw [hwrote.reads, hreads]
        exact List.not_mem_nil
    apply (readSource_tries hz.crc32_append job.source.path size fuel _ a₁ hstart).bind
    · intro r a₂ hreading
      split
      · rename_i t
        apply (finishStream_tries hz fuel t.stream t.good a₂ _).bind
        · intro r a₃ hfinished
          split
          · rename_i good₃
            apply (write_tries good₃ _ a₃).bind
            intro good₄ a₄ hcheck
            apply (write_tries good₄ _ a₄).bind
            intro good₅ a₅ hsize
            apply (flush_tries good₅ a₅).mono (fun _ _ _ _ h => h) (fun _ _ _ h => h)
            intro ok a₆ hflush hok
            obtain ⟨hgood₅, hwrote₆⟩ := hflush hok
            obtain ⟨hgood₄, hwrote₅⟩ := hsize hgood₅
            obtain ⟨hgood₃, hwrote₄⟩ := hcheck hgood₄
            obtain ⟨hgood₂, raw, hraw, hholds⟩ := hfinished (by rw [hgood₃])
            obtain ⟨hread, hoffset⟩ := hreading t rfl hgood₂
            have hlength : (content.take t.offset).length = size := by
              rw [List.length_take, min_eq_left hread.held, hoffset]
            refine ⟨_, ⟨content.take t.offset, by rw [hoffset], hlength, ?_⟩,
              ((hholds.wrote hwrote₄).wrote hwrote₅).wrote hwrote₆⟩
            refine ⟨gzipHeader, raw, _, _, List.append_nil _, by decide, hraw, ?_, ?_⟩
            · rw [hread.crc]
              exact littleEndian_isLittleEndian _
            · rw [hlength]
              exact littleEndian_isLittleEndian _
          · intro hok
            cases hok
        · intro hgood
          exact (hreading t rfl hgood).1.feeding.finishing
      · intro hok
        cases hok
  · intro hok
    cases hok

end Feeding

section Late

variable {valid : Text → Prop} {content key name : Text} {s s₀ : Store} {a a' : Attempt} {f : File}

/-- A `.gz.tmp` that is there is valid, and so is a `.gz` that was not there in `s₀`. -/
structure Store.Valid (valid : Text → Prop) (key : Text) (s s₀ : Store) : Prop where
  temp : ∀ f, s.file (artifact key .gzipTemp) = some f → valid f.data
  gzip : ∀ f, s.file (artifact key .gzip) = some f →
    s₀.file (artifact key .gzip) = some f ∨ valid f.data

/-- Over an untouched directory only the temporary file is in question. -/
theorem Store.Valid.of_untouched (h : Untouched key s₀ s)
    (htemp : ∀ f, s.file (artifact key .gzipTemp) = some f → valid f.data) :
    s.Valid valid key s₀ :=
  ⟨htemp, fun _ hf => .inl ((h .gzip trivial).symm.trans hf)⟩

theorem Store.Valid.remove (h : s.Valid valid key s₀) (name : Text) :
    (s.remove name).Valid valid key s₀ := by
  constructor
  · intro f hf
    rw [Store.file_remove] at hf
    split_ifs at hf
    exact h.temp f hf
  · intro f hf
    rw [Store.file_remove] at hf
    split_ifs at hf
    exact h.gzip f hf

theorem Store.Valid.put (h : s.Valid valid key s₀)
    (hname : name ≠ artifact key .gzip ∧ name ≠ artifact key .gzipTemp) (f : File) :
    (s.put name f).Valid valid key s₀ := by
  constructor
  · intro f' hf'
    rw [Store.file_put, if_neg hname.2.symm] at hf'
    exact h.temp f' hf'
  · intro f' hf'
    rw [Store.file_put, if_neg hname.1.symm] at hf'
    exact h.gzip f' hf'

theorem Store.Valid.rename (h : s.Valid valid key s₀) {source : Text}
    (htemp : name ≠ artifact key .gzipTemp)
    (hname : name = artifact key .gzip → source = artifact key .gzipTemp)
    (hf : s.file source = some f) : (s.rename source name f).Valid valid key s₀ := by
  constructor
  · intro f' hf'
    rw [Store.file_rename, if_neg htemp.symm] at hf'
    split_ifs at hf'
    exact h.temp f' hf'
  · intro f' hf'
    rw [Store.file_rename] at hf'
    split_ifs at hf' with hgzip
    · cases hf'
      rw [hname hgzip.symm] at hf
      exact .inr (h.temp f hf)
    · exact h.gzip f' hf'

/-- The operations after the complete `.gz.tmp`. -/
def Op.Late (key : Text) : Op → Prop
  | .create name | .append name _ | .flush name =>
      name ≠ artifact key .gzip ∧ name ≠ artifact key .gzipTemp
  | .rename source target => target ≠ artifact key .gzipTemp ∧
      (target = artifact key .gzip → source = artifact key .gzipTemp)
  | q => q.Sweeps

theorem late_of_sweeps (q : Op) (hq : q.Sweeps) : q.Late key := by
  cases q <;> first | exact hq | cases hq

theorem late_of_checks (q : Op) (hq : q.Checks) : q.Late key :=
  late_of_sweeps q (sweeps_of_checks q hq)

/-- The reading and writing is over, and what was seen is still known. -/
structure Attempt.Settles (a a' : Attempt) : Prop where
  reads : a'.reads = a.reads
  outputs : a'.outputs = a.outputs
  looks : a'.looks = a.looks
  before : a'.before = a.before
  later : a.later <+: a'.later

theorem Attempt.Settles.refl (a : Attempt) : a.Settles a := ⟨rfl, rfl, rfl, rfl, List.prefix_refl _⟩

theorem Attempt.Settles.trans {a'' : Attempt} (h : a.Settles a') (h' : a'.Settles a'') :
    a.Settles a'' :=
  ⟨h'.reads.trans h.reads, h'.outputs.trans h.outputs, h'.looks.trans h.looks,
    h'.before.trans h.before, h.later.trans h'.later⟩

theorem Attempt.settles_passes (h : a.outputs ≠ []) (now : Option OpenedFileInfo) (s : Store) :
    a.Settles (a.passes now s) := by
  rw [passes_begun h]
  exact ⟨rfl, rfl, rfl, rfl, List.prefix_append _ _⟩

theorem onOutput_other (a : Attempt) (h : name ≠ artifact key .gzipTemp)
    (now : Option OpenedFileInfo) (ok : Bool) (s : Store) :
    a.onOutput key name now ok s = a.passes now s := if_neg h

theorem late_step {q : Op} {x : q.Answer} (hq : q.Late key) (hbegun : a.outputs ≠ [])
    (h : a.store.Valid valid key s₀) (hm : q.Attempted content key a x a') :
    a.Settles a' ∧ a'.store.Valid valid key s₀ := by
  obtain ⟨now, s, -, ⟨c, u, u', hs⟩, rfl⟩ := hm
  rw [Attempt.after_store]
  have hsettles := Attempt.settles_passes hbegun now s
  cases q with
  | remove name =>
    refine ⟨hsettles, ?_⟩
    rcases perform_remove hs with rfl | rfl
    · exact h
    · exact h.remove name
  | create name =>
    constructor
    · rwa [Attempt.after, onOutput_other a hq.2]
    · rcases perform_create hs with ⟨-, rfl⟩ | ⟨-, rfl⟩
      · exact h
      · exact h.put hq _
  | append name data =>
    constructor
    · rwa [Attempt.after, onOutput_other a hq.2]
    · rcases perform_append hs with ⟨-, rfl⟩ | ⟨f, part, -, -, rfl⟩
      · exact h
      · exact h.put hq _
  | flush name =>
    constructor
    · rwa [Attempt.after, onOutput_other a hq.2]
    · rcases perform_flush hs with ⟨rfl, -⟩ | ⟨f, -, -, rfl⟩
      · exact h
      · exact h.put hq _
  | rename source target =>
    refine ⟨hsettles, ?_⟩
    rcases perform_rename hs with ⟨-, rfl⟩ | ⟨f, hf, -, -, rfl⟩
    · exact h
    · exact h.rename hq.1 hq.2 hf
  | setCounters entries bytes =>
    refine ⟨hsettles, ?_⟩
    cases hs
    exact ⟨h.temp, h.gzip⟩
  | inspect | readFileAt | takeWork | claim | release | enqueue => cases hq
  | regularArtifact | fileSize | read | lastWriteTime | listDirectory | nextEntry | oldest
  | describe | nextFile | running | stopping | counters | spin =>
    refine ⟨hsettles, ?_⟩
    rw [perform_reads (by trivial) hs]
    exact h

theorem writeMarker_late (identity : Text)
    (hname : name ≠ artifact key .gzip ∧ name ≠ artifact key .gzipTemp) :
    (writeMarker name identity).Asks (Op.Late key) := by
  apply Program.Asks.query (show Op.Late key (.create name) from hname)
  intro good
  have hwrite : (write name good identity).Asks (Op.Late key) := by
    unfold write
    split
    · exact ⟨hname, fun _ => trivial⟩
    · trivial
  apply hwrite.bind
  intro good
  unfold flush
  split
  · exact ⟨hname, fun _ => trivial⟩
  · trivial

theorem storeSkip_late (S : Settings) (job : Job) : (storeSkip S job).Asks (Op.Late job.key) := by
  apply Program.Asks.query trivial
  intro _
  apply ((removedSize_checks job.key).mono late_of_checks).bind
  intro removed
  apply Program.Asks.query trivial
  intro _
  apply Program.Asks.query trivial
  intro _
  apply (writeMarker_late _ (by simp)).bind
  intro ok
  split
  · exact .query trivial fun _ => trivial
  apply Program.Asks.query trivial
  intro _
  apply Program.Asks.query (show Op.Late _ (.rename _ _) from ⟨by simp, by simp⟩)
  intro renamed
  split
  · trivial
  split
  · exact .query trivial fun _ => .query trivial fun _ => trivial
  · trivial

theorem publish_late (S : Settings) (job : Job) (compressedSize : Nat) :
    (publish S job compressedSize).Asks (Op.Late job.key) := by
  apply (writeMarker_late _ (by simp)).bind
  intro ok
  split
  · exact .query trivial fun _ => .query trivial fun _ => trivial
  apply Program.Asks.query trivial
  intro _
  apply Program.Asks.query (show Op.Late _ (.rename _ _) from ⟨by simp, fun _ => rfl⟩)
  intro renamed
  split
  · trivial
  apply Program.Asks.query trivial
  intro _
  apply Program.Asks.query (show Op.Late _ (.rename _ _) from ⟨by simp, by simp⟩)
  intro marked
  split
  · exact .query trivial fun _ => trivial
  apply Program.Asks.query trivial
  intro _
  apply ((recordArtifact_sweeps S compressedSize).mono late_of_sweeps).bind
  intro _
  trivial

end Late

section Compress

variable {z : Miniz} {inflate : Text → Option Text} {content : Text} {job : Job} {s : Store}
  {a a' : Attempt}

theorem Attempt.Failed.of_settles (h : a.Settles a') (hf : a'.Failed z job) : a.Failed z job := by
  cases hf with
  | read hread => exact .read (h.reads ▸ hread)
  | stream hstream => exact .stream (h.reads ▸ hstream)
  | output houtput => exact .output (h.outputs ▸ houtput)
  | inspection hnone => exact .inspection (h.looks ▸ hnone)
  | changed hchanged =>
    obtain ⟨more, hmore⟩ := h.later
    refine .changed fun x hx y hy => hchanged x (h.before.symm ▸ hx) y ?_
    rw [← hmore, List.head?_append, Option.mem_def.mp hy]
    rfl
  | stale hstale => exact .stale fun x hx => hstale x (h.before.symm ▸ hx)

/-- The run of a program that is correct at every step. -/
abbrev Stores {α : Type} (z : Miniz) (inflate : Text → Option Text) (content : Text) (job : Job)
    (s : Store) (p : CacheProgram α) (post : α → Attempt → Prop) (a : Attempt) : Prop :=
  p.Safe (Op.Attempted content job.key) (fun _ _ a' => a'.Correct z inflate content job s) post a

theorem stores_of_early {α : Type} {p : CacheProgram α} (hp : p.Asks (Op.Early job.key))
    (h : Untouched job.key s a.store) :
    Stores z inflate content job s p (fun _ a' => Untouched job.key s a'.store) a := by
  have hstep : ∀ q (a₁ : Attempt) x a₂, Op.Early job.key q → Untouched job.key s a₁.store →
      q.Attempted content job.key a₁ x a₂ →
      a₂.Correct z inflate content job s ∧ Untouched job.key s a₂.store := by
    intro q a₁ x a₂ hq h₁ hm
    have h₂ := early_step hq h₁ hm
    exact ⟨h₂.correct, h₂⟩
  exact hp.safe hstep h

/-- A run that is given up has touched nothing. -/
theorem stores_nothing {α : Type} {p : CacheProgram α} (hp : p.Asks (Op.Early job.key))
    (h : Untouched job.key s a.store) :
    Stores z inflate content job s p (fun _ a' => a'.Correct z inflate content job s) a :=
  (stores_of_early hp h).mono (fun _ _ _ _ h => h) (fun _ _ _ h => h) fun _ _ h => h.correct

theorem stores_early {α : Type} {q : Op} {f : q.Answer → CacheProgram α}
    {post : α → Attempt → Prop} (hq : q.Early job.key) (h : Untouched job.key s a.store)
    (hf : ∀ x a', q.Attempted content job.key a x a' → Untouched job.key s a'.store →
      Stores z inflate content job s (f x) post a') :
    Stores z inflate content job s (ask q >>= f) post a := by
  apply Program.Safe.query
  intro x a' hm
  have h' := early_step hq h hm
  exact ⟨h'.correct, hf x a' hm h'⟩

/-- A complete artifact of the whole source is all that can come to stand in the cache. -/
theorem stores_late {α : Type} {p : CacheProgram α} (hp : p.Asks (Op.Late job.key))
    (hbegun : a.outputs ≠ []) (hgood : ¬ a.Failed z job)
    (h : a.store.Valid (IsArtifact z inflate content job.source.info.size) job.key s) :
    Stores z inflate content job s p (fun _ a' => a'.Correct z inflate content job s) a := by
  have hcorrect : ∀ a' : Attempt, a.Settles a' ∧
      a'.store.Valid (IsArtifact z inflate content job.source.info.size) job.key s →
      a'.Correct z inflate content job s :=
    fun _ h' => ⟨fun hf => absurd (hf.of_settles h'.1) hgood, h'.2.gzip⟩
  have hstep : ∀ q (a₁ : Attempt) x a₂, Op.Late job.key q →
      (a.Settles a₁ ∧
        a₁.store.Valid (IsArtifact z inflate content job.source.info.size) job.key s) →
      q.Attempted content job.key a₁ x a₂ →
      a₂.Correct z inflate content job s ∧ a.Settles a₂ ∧
        a₂.store.Valid (IsArtifact z inflate content job.source.info.size) job.key s := by
    rintro q a₁ x a₂ hq ⟨hsettles₁, h₁⟩ hm
    obtain ⟨hsettles₂, h₂⟩ := late_step hq (hsettles₁.outputs ▸ hbegun) h₁ hm
    have hsettles : a.Settles a₂ := hsettles₁.trans hsettles₂
    exact ⟨hcorrect a₂ ⟨hsettles, h₂⟩, hsettles, h₂⟩
  exact (hp.safe hstep ⟨.refl a, h⟩).mono (fun _ _ _ _ h => h) (fun _ _ _ h => h)
    fun _ => hcorrect

/-- While `.gz.tmp` is written, what the source was before stands. -/
theorem stores_begun {α : Type} {p : CacheProgram α}
    (hp : p.Asks (Op.Writes (artifact job.key .gzipTemp))) (hbegun : a.outputs ≠ []) :
    Tries content job.key p (fun _ a' => a'.outputs ≠ [] ∧ a'.before = a.before) a := by
  have hstep : ∀ q (a₁ : Attempt) x a₂, Op.Writes (artifact job.key .gzipTemp) q →
      (a₁.outputs ≠ [] ∧ a₁.before = a.before) → q.Attempted content job.key a₁ x a₂ →
      True ∧ a₂.outputs ≠ [] ∧ a₂.before = a.before := by
    rintro q a₁ x a₂ hq ⟨hbegun₁, hbefore⟩ ⟨now, s, -, -, rfl⟩
    obtain ⟨hbegun₂, hbefore₂⟩ := Attempt.after_begun hbegun₁ q x
    exact ⟨trivial, hbegun₂, hbefore₂.trans hbefore⟩
  exact hp.safe hstep ⟨hbegun, rfl⟩

theorem writeArtifact_stores {S : Settings} (hz : S.miniz.Documented inflate) (content : Text)
    (fuel size : Nat) (a : Attempt) (h : Untouched job.key s a.store) (hbegun : a.outputs ≠ [])
    (hreads : a.reads = []) (houtputs : false ∉ a.outputs)
    (hempty : ∀ f, a.store.file (artifact job.key .gzipTemp) = some f → f.data = []) :
    Stores S.miniz inflate content job s (writeArtifact S fuel job size)
      (fun ok a' => Untouched job.key s a'.store ∧ a'.outputs ≠ [] ∧ a'.before = a.before ∧
        (ok = true → ∃ data, IsArtifact S.miniz inflate content size data ∧
          a'.Holds S.miniz job.key a.looks data)) a := by
  have hasks := writeArtifact_asks S fuel job size
  have hearly : Stores S.miniz inflate content job s _ _ a :=
    stores_of_early (hasks.mono early_of_writes) h
  have htries : Tries content job.key _ _ a :=
    writeArtifact_tries hz fuel job size a hreads houtputs hempty
  apply ((hearly.and htries).and (stores_begun hasks hbegun)).mono (fun _ _ _ _ h => h)
    (fun _ _ _ h => h.1.1)
  intro ok a' h'
  exact ⟨h'.1.1, h'.2.1, h'.2.2, h'.1.2⟩

theorem not_differ_of_sameFile {before after : OpenedFileInfo} (h : sameFile after before = true) :
    ¬ Differ before after := by
  simp only [sameFile, Bool.and_eq_true, beq_iff_eq] at h
  obtain ⟨⟨hsize, hmodified⟩, hfile⟩ := h
  intro hdiffer
  rcases hdiffer with hne | hne | hne
  · exact hne hsize
  · exact hne hmodified
  · exact hne hfile

theorem size_eq_of_not_differ {before after : OpenedFileInfo} (h : ¬ Differ before after) :
    after.size = before.size := not_not.mp fun hne => h (.inl hne)

/-- A complete output, and a source that stayed the file of the queue, are a run without failure. -/
theorem Attempt.Holds.not_failed {looks : List (Option OpenedFileInfo)} {data : Text}
    {before after : OpenedFileInfo} (h : a.Holds z job.key looks data)
    (hstore : a'.reads = a.reads ∧ a'.outputs = a.outputs) (hlooks : none ∉ a'.looks)
    (hfirst : some before ∈ a'.before.head?) (hlast : some after ∈ a'.later.head?)
    (hbefore : ¬ Differ job.source.info before) (hafter : ¬ Differ before after) :
    ¬ a'.Failed z job := by
  intro hf
  cases hf with
  | read hread => exact h.reads (hstore.1 ▸ hread)
  | stream hstream => exact h.stream (hstore.1 ▸ hstream)
  | output houtput => exact h.outputs (hstore.2 ▸ houtput)
  | inspection hnone => exact hlooks hnone
  | changed hchanged => exact hchanged _ hfirst _ hlast ⟨before, after, rfl, rfl, hafter⟩
  | stale hstale => exact hstale _ hfirst ⟨_, before, rfl, rfl, hbefore⟩

/-- The look at the source behind the output, and the one at the size of the output. -/
theorem Attempt.after_looks (hbegun : a.outputs ≠ []) (key path name : Text)
    (look now : Option OpenedFileInfo) (size : Option Nat) :
    (a.after key look (.inspect path) look a.store).after key now (.fileSize name) size a.store =
      { a with looks := a.looks ++ [look], later := a.later ++ [look] ++ [now] } := by
  simp only [Attempt.after]
  rw [passes_begun hbegun]
  exact passes_begun hbegun

theorem early_remove (key : Text) {x : Suffix} (hx : ¬ x.Final) :
    Op.Early key (.remove (artifact key x)) := by
  intro y hy heq
  rw [artifact_inj] at heq
  exact hx (heq.2 ▸ hy)

/-- A file that was just created is empty. -/
theorem data_of_create {name : Text} {c : Choice} {s s' : Store} {u u' : Queue}
    (h : (Op.create name).perform c s u = some (true, s', u')) :
    ∀ f, s'.file name = some f → f.data = [] := by
  obtain ⟨hfalse, -⟩ | ⟨-, rfl⟩ := perform_create h
  · cases hfalse
  · intro f hf
    rw [Store.file_put, if_pos rfl, Option.some.injEq] at hf
    rw [← hf]

/-- `compress` stores nothing but the gzip member of the whole source, and nothing at all when a
read, the stream, the output or a look at the source fails, or the source changes meanwhile. -/
theorem compress_correct (S : Settings) (fuel : Nat) (job : Job) (content : Text) (s : Store)
    (hz : S.miniz.Documented inflate) :
    (compress S fuel job).Safe (Op.Attempted content job.key)
      (fun _ _ a' => a'.Correct S.miniz inflate content job s)
      (fun _ a' => a'.Correct S.miniz inflate content job s) { store := s } := by
  have hgive {a : Attempt} (h : Untouched job.key s a.store) :
      Stores S.miniz inflate content job s
        (ask (.remove (artifact job.key .gzipTemp)) >>= fun _ => pure false)
        (fun _ a' => a'.Correct S.miniz inflate content job s) a :=
    stores_nothing (.query (early_remove job.key id) fun _ => trivial) h
  apply stores_early (show Op.Early job.key (.inspect job.source.path) from trivial) (.refl _ _)
  rintro before a₀ ⟨now, s₀, hshows₀, -, rfl⟩ h₀
  split
  · rename_i before
    have hnow : some before = now := of_decide_eq_true hshows₀
    subst hnow
    split
    · exact h₀.correct
    rename_i hbefore
    apply stores_early (early_remove job.key id) h₀
    rintro _ a₁ ⟨now₁, s₁, -, -, rfl⟩ h₁
    apply stores_early (early_remove job.key id) h₁
    rintro _ a₂ ⟨now₂, s₂, -, -, rfl⟩ h₂
    apply stores_early (early_remove job.key id) h₂
    rintro _ a₃ ⟨now₃, s₃, -, -, rfl⟩ h₃
    apply stores_early (show Op.Early job.key (.create (artifact job.key .gzipTemp)) from rfl) h₃
    rintro created a₄ ⟨now₄, s₄, -, hs₄, ha₄⟩ h₄
    split
    · exact h₄.correct
    rename_i hcreated
    have hcreated : created = true := by simpa using hcreated
    subst hcreated
    have ha₄ : a₄ = ⟨s₄, [], [true], [some before], [some before, now₁, now₂, now₃], []⟩ :=
      ha₄.trans (onOutput_gzipTemp _ _ _ _ _)
    subst ha₄
    obtain ⟨c, u, u', hs₄⟩ := hs₄
    have hempty := data_of_create hs₄
    have hwritten := writeArtifact_stores hz content fuel before.size _ h₄
      (List.cons_ne_nil true []) rfl (by simp) hempty
    apply hwritten.bind
    intro ok a₅ hmid
    obtain ⟨h₅, hbegun₅, hbefore₅, hholds⟩ := hmid
    split
    · exact hgive h₅
    rename_i hok
    obtain ⟨data, hartifact, hholds⟩ := hholds (by simpa using hok)
    apply stores_early (show Op.Early job.key (.inspect job.source.path) from trivial) h₅
    rintro after a₆ ⟨now₆, s₆, hshows₆, ⟨c, u, u', hs₆⟩, rfl⟩ h₆
    have hsame₆ : s₆ = a₅.store := perform_reads (by trivial) hs₆
    subst hsame₆
    split
    · rename_i after
      have hnow₆ : some after = now₆ := of_decide_eq_true hshows₆
      subst hnow₆
      split
      · exact hgive h₆
      rename_i hafter
      apply stores_early
        (show Op.Early job.key (.fileSize (artifact job.key .gzipTemp)) from trivial) h₆
      rintro size a₇ ⟨now₇, s₇, -, ⟨c, u, u', hs₇⟩, rfl⟩ h₇
      rw [Attempt.after_store] at hs₇
      have hsame₇ : s₇ = a₅.store := perform_reads (by trivial) hs₇
      subst hsame₇
      have hbefore := not_differ_of_sameFile (by simpa using hbefore)
      have hafter := not_differ_of_sameFile (by simpa using hafter)
      rw [Attempt.after_looks hbegun₅] at h₇ ⊢
      have hlooks : none ∉ a₅.looks ++ [some after] := by simp [hholds.looks]
      have hfirst : some before ∈ a₅.before.head? := by
        rw [hbefore₅]
        rfl
      have hgood : ¬ Attempt.Failed S.miniz job { a₅ with
          looks := a₅.looks ++ [some after], later := a₅.later ++ [some after] ++ [now₇] } :=
        hholds.not_failed ⟨rfl, rfl⟩ hlooks hfirst (by simp [hholds.later]) hbefore hafter
      rw [size_eq_of_not_differ hbefore] at hartifact
      have hvalid := Store.Valid.of_untouched h₅ fun f hf => hholds.data f hf ▸ hartifact
      split
      · split
        · exact stores_late (storeSkip_late S job) hbegun₅ hgood hvalid
        · exact stores_late (publish_late S job _) hbegun₅ hgood hvalid
      · exact h₇.correct
    · exact hgive h₆
  · exact h₀.correct

end Compress

section Stored

def crcByte (r : BitVec 32) (c : Char) : BitVec 32 :=
  (List.range 8).foldl
    (fun r _ => if r.getLsbD 0 then r >>> 1 ^^^ 0xedb88320#32 else r >>> 1)
    (r ^^^ BitVec.ofNat 32 c.toNat)

/-- The value is looked at before each byte, so that it is a numeral when the next one comes. -/
def crcBytes : Text → BitVec 32 → BitVec 32
  | [], r => r
  | c :: cs, r =>
      match r.toNat with
      | 0 => crcBytes cs (crcByte 0 c)
      | n + 1 => crcBytes cs (crcByte (BitVec.ofNat 32 (n + 1)) c)

/-- `mz_crc32`, bit by bit. -/
def crc32 (crc : Nat) (data : Text) : Nat := (~~~crcBytes data (~~~BitVec.ofNat 32 crc)).toNat

theorem crcBytes_append (a b : Text) (r : BitVec 32) :
    crcBytes (a ++ b) r = crcBytes b (crcBytes a r) := by
  induction a generalizing r with
  | nil => rfl
  | cons c cs ih =>
    rw [List.cons_append, crcBytes, crcBytes]
    split <;> exact ih _

/-- A raw deflate stream with one stored block for each byte and an empty last block, which alone is
what the library makes of an empty file. -/
def storedBlocks : Text → Text
  | [] => bytes [3, 0]
  | c :: cs => bytes [0, 1, 0, 254, 255] ++ c :: storedBlocks cs

/-- What such a stream means. -/
def inflateStored : Text → Option Text
  | c₁ :: c₂ :: c₃ :: c₄ :: c₅ :: c :: rest =>
      if [c₁, c₂, c₃, c₄, c₅] = bytes [0, 1, 0, 254, 255] then (inflateStored rest).map (c :: ·)
      else none
  | last => if last = bytes [3, 0] then some [] else none

/-- The bytes of a source, all alike, and the deflate stream of them. -/
def flatContent : Text := List.replicate 1100 'a'
def flatStream : Text := bytes [75, 76, 28, 5, 163, 33, 48, 26, 2, 163, 33, 64, 121, 8, 0, 0]

def deflated (data : Text) : Text := if data = flatContent then flatStream else storedBlocks data

def inflated (raw : Text) : Option Text :=
  if raw = flatStream then some flatContent else inflateStored raw

/-- A compressor that takes in everything and gives out the whole stream at the end. -/
def packing : Miniz where
  Stream := Text
  deflateInit := some []
  deflate stream flush input _ :=
    match flush with
    | .noFlush => ⟨.ok, input.length, [], stream ++ input⟩
    | .finish => ⟨.streamEnd, input.length, deflated (stream ++ input), stream ++ input⟩
  crc32 := crc32

theorem inflateStored_storedBlocks (data : Text) : inflateStored (storedBlocks data) = some data := by
  induction data with
  | nil => rfl
  | cons c cs ih =>
    show (if bytes [0, 1, 0, 254, 255] = bytes [0, 1, 0, 254, 255] then
      (inflateStored (storedBlocks cs)).map (c :: ·) else none) = some (c :: cs)
    rw [if_pos rfl, ih, Option.map_some]

theorem inflated_deflated (data : Text) : inflated (deflated data) = some data := by
  unfold deflated
  split_ifs with hflat
  · rw [inflated, if_pos rfl, hflat]
  · rw [inflated, if_neg, inflateStored_storedBlocks]
    cases data with
    | nil => decide
    | cons c cs =>
      intro heq
      have hhead : some (Char.ofNat 0) = some (Char.ofNat 75) := congrArg List.head? heq
      exact absurd hhead (by decide)

theorem packing_fed {stream : packing.Stream} {consumed output : Text}
    (h : packing.Fed stream consumed output) : stream = consumed ∧ output = [] := by
  induction h with
  | start h => exact ⟨(Option.some.inj h).symm, rfl⟩
  | call h flush input room hok ih =>
    obtain ⟨rfl, rfl⟩ := ih
    cases flush with
    | noFlush => exact ⟨congrArg _ (List.take_length).symm, rfl⟩
    | finish => cases hok

theorem packing_documented : packing.Documented inflated where
  inflates := by
    intro stream consumed output flush input room hfed hend
    obtain ⟨hstream, rfl⟩ := packing_fed hfed
    have hstream := hstream.symm
    subst hstream
    cases flush with
    | noFlush => cases hend
    | finish =>
      show inflated (deflated (consumed ++ input)) = some (consumed ++ input.take input.length)
      rw [inflated_deflated, List.take_length]
  crc32_append := by
    intro crc a b
    show crc32 (crc32 crc a) b = crc32 crc (a ++ b)
    unfold crc32
    rw [BitVec.ofNat_toNat, BitVec.setWidth_eq, BitVec.not_not, crcBytes_append]

/-- The program with what the surroundings choose at each operation, and which file the source is
then. -/
def enact {α : Type} (content key : Text) :
    CacheProgram α → List (Choice × Option OpenedFileInfo) → Attempt → Option (α × Attempt)
  | .done r, _, a => some (r, a)
  | .ask _ _, [], _ => none
  | .ask q next, (c, now) :: rest, a =>
      match q.perform c a.store { stopping := false } with
      | some (x, s, _) =>
          if q.shows content now x then enact content key (next x) rest (a.after key now q x s)
          else none
      | none => none

theorem enact_ends {α : Type} {content key : Text} {guarantee : Op → Attempt → Attempt → Prop}
    {post : α → Attempt → Prop} {p : CacheProgram α} {a a' : Attempt} {r : α}
    {script : List (Choice × Option OpenedFileInfo)}
    (hp : p.Safe (Op.Attempted content key) guarantee post a)
    (h : enact content key p script a = some (r, a')) : post r a' := by
  induction p generalizing a script with
  | done r₀ =>
    cases h
    exact hp
  | ask q next ih =>
    rcases script with _ | ⟨⟨c, now⟩, rest⟩
    · cases h
    · rw [enact] at h
      split at h
      · rename_i x s u hperform
        split_ifs at h with hshows
        exact ih x (hp x _ ⟨now, s, hshows, ⟨c, _, u, hperform⟩, rfl⟩).2 h
      · cases h

def flatSource : CompressionSource := ⟨text "/srv/mod/flat.txt", text ".txt", ⟨1100, 5, 5, 7⟩⟩

def flatSettings : Settings := ⟨cacheKey, packing, 1048576, true⟩

def flatJob : Job := flatSettings.job flatSource

def usual : Choice := {}

/-- `.gz.tmp` is written over two short reads. -/
def flatOutput : List Choice :=
  { info := some flatSource.info } :: List.replicate 6 usual ++
    [{ bytes := some (List.replicate 600 'a') }, usual, usual,
      { bytes := some (List.replicate 500 'a') }] ++ List.replicate 5 usual

/-- The source stays the same file up to the end. -/
def flatRun : List (Choice × Option OpenedFileInfo) :=
  (flatOutput ++ { info := some flatSource.info } :: List.replicate 11 usual).map
    fun c => (c, some flatSource.info)

private theorem flatRun_stores :
    ((enact flatContent flatJob.key (compress flatSettings 3 flatJob) flatRun { store := {} }).map
      fun r => (r.1, (r.2.store.file (artifact flatJob.key .gzip)).map File.data)) =
    some (true, some (bytes [31, 139, 8, 0, 0, 0, 0, 0, 4, 255] ++ flatStream ++
      bytes [173, 253, 226, 175, 76, 4, 0, 0])) := by
  decide +kernel

/-- What the source has become by the look behind the output. -/
def changedSource : OpenedFileInfo := ⟨1100, 6, 6, 7⟩

def changedRun : List (Choice × Option OpenedFileInfo) :=
  (flatOutput.map fun c => (c, some flatSource.info)) ++
    [({ info := some changedSource }, some changedSource), (usual, some changedSource)]

private theorem changedRun_stores :
    ((enact flatContent flatJob.key (compress flatSettings 3 flatJob) changedRun
      { store := {} }).map fun r => (r.1, r.2.before, r.2.later)) =
    some (false, List.replicate 4 (some flatSource.info), List.replicate 2 (some changedSource)) := by
  decide +kernel

/-- The one run publishes the gzip member of all bytes, of which it has two reads. In the other the
source has changed by the look behind the output, and nothing is stored. -/
theorem compress_correct_flat :
    (∃ a f, enact flatContent flatJob.key (compress flatSettings 3 flatJob) flatRun
        { store := {} } = some (true, a) ∧
      a.store.file (artifact flatJob.key .gzip) = some f ∧
      IsArtifact packing inflated flatContent 1100 f.data) ∧
    ∃ a, enact flatContent flatJob.key (compress flatSettings 3 flatJob) changedRun
        { store := {} } = some (false, a) ∧
      a.Failed packing flatJob ∧ Untouched flatJob.key {} a.store := by
  have hsafe := compress_correct flatSettings 3 flatJob flatContent {} packing_documented
  constructor
  · obtain ⟨r, hrun, hr⟩ := Option.map_eq_some_iff.mp flatRun_stores
    rw [Prod.mk.injEq] at hr
    obtain ⟨hr, hdata⟩ := hr
    obtain ⟨f, hf, -⟩ := Option.map_eq_some_iff.mp hdata
    rcases r with ⟨ok, a⟩
    cases hr
    refine ⟨a, f, hrun, hf, ?_⟩
    rcases (enact_ends hsafe hrun).member f hf with hold | hartifact
    · cases hold
    · exact hartifact
  · obtain ⟨r, hrun, hr⟩ := Option.map_eq_some_iff.mp changedRun_stores
    simp only [Prod.mk.injEq] at hr
    obtain ⟨hr, hbefore, hlater⟩ := hr
    rcases r with ⟨ok, a⟩
    cases hr
    have hfailed : a.Failed packing flatJob := by
      refine .changed fun x hx y hy hstays => ?_
      rw [hbefore] at hx
      rw [hlater] at hy
      obtain ⟨before, after, rfl, rfl, hsame⟩ := hstays
      cases hx
      cases hy
      exact hsame (.inr (.inl (by decide)))
    exact ⟨a, hrun, hfailed, (enact_ends hsafe hrun).untouched hfailed⟩

end Stored

end FastdlMm.CompressionCache
