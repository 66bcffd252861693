import FastdlMm.Limits.Leases
import FastdlMm.Server.ServeFileSpec

namespace FastdlMm.FastdlServer

def kFileBlockSize : Nat := 64 * 1024

/-- The part of a `TransferContext` that `fileReader` reads. -/
structure TransferContext where
  fd : Option OpenFile
  sourceOffset : Nat
  length : Nat

inductive ReaderResult where
  | supplied (block : List UInt8)
  | endOfStream
  | endWithError

/-- `pread` hands out some of the bytes that are there, as many as the system chooses, or fails. -/
def readFileAt (file : OpenFile) (offset size : Nat) (pread : Nat → Option Nat) :
    Option (List UInt8) :=
  if int64Max < offset then none
  else
    let there := (file.content.drop offset).take size
    (pread there.length).map (fun count => there.take count)

/-- One call of the reader: what it returns, and the count of supplied bytes after it. -/
def fileReader (context : TransferContext) (bytesSupplied pos max : Nat) (acquire : Nat → Nat)
    (pread : Nat → Option Nat) : ReaderResult × Nat :=
  match context.fd with
  | none => (.endOfStream, bytesSupplied)
  | some file =>
      if context.length ≤ pos then (.endOfStream, bytesSupplied)
      else
        let remaining := wrapSub 64 context.length pos
        let requested := acquire (min remaining max)
        if requested = 0 then (.endWithError, bytesSupplied)
        else if wrapSub 64 (2 ^ 64 - 1) pos < context.sourceOffset then
          (.endWithError, bytesSupplied)
        else
          match readFileAt file (wrapAdd 64 context.sourceOffset pos) requested pread with
          | none => (.endWithError, bytesSupplied)
          | some [] => (.endWithError, bytesSupplied)
          | some block => (.supplied block, wrapAdd 64 bytesSupplied block.length)

/-- What one call meets: a buffer of at most a block, a limiter that grants some of what is asked,
and a read that returns some of what is there. -/
structure Call where
  max : Nat
  acquire : Nat → Nat
  pread : Nat → Nat
  max_pos : 0 < max
  max_le : max ≤ kFileBlockSize
  acquire_some : ∀ n, 0 < n → 0 < acquire n ∧ acquire n ≤ n
  pread_some : ∀ n, 0 < n → 0 < pread n ∧ pread n ≤ n

/-- What libmicrohttpd has got from the reader so far. -/
structure Delivery where
  returned : List UInt8 := []
  bytesSupplied : Nat := 0
  failed : Bool := false

/-- libmicrohttpd calls the reader until all bytes are there or it gives up; the fuel bounds the
number of calls. -/
def pull (context : TransferContext) : List Call → Delivery → Delivery
  | [], d => d
  | call :: calls, d =>
      if context.length ≤ d.returned.length ∨ d.failed then d
      else
        let r := fileReader context d.bytesSupplied d.returned.length call.max call.acquire
          (fun n => some (call.pread n))
        match r.1 with
        | .supplied block =>
            pull context calls { d with returned := d.returned ++ block, bytesSupplied := r.2 }
        | _ => { d with failed := true, bytesSupplied := r.2 }

/-- The slice of its file that a context stands for. -/
def TransferContext.slice (context : TransferContext) (file : OpenFile) : List UInt8 :=
  (file.content.drop context.sourceOffset).take context.length

/-- The transfer so far is a prefix of the slice, and has been counted. -/
structure Delivered (slice : List UInt8) (d : Delivery) : Prop where
  returned : d.returned = slice.take d.returned.length
  counted : d.bytesSupplied = d.returned.length
  alive : d.failed = false

theorem Delivered.length_le {slice : List UInt8} {d : Delivery} (h : Delivered slice d) :
    d.returned.length ≤ slice.length := by
  have := congrArg List.length h.returned
  simp only [List.length_take] at this
  omega

theorem TransferContext.length_slice {context : TransferContext} {file : OpenFile}
    (hfits : context.sourceOffset + context.length ≤ file.info.size) :
    (context.slice file).length = context.length := by
  have := file.sized
  simp only [slice, List.length_take, List.length_drop]
  omega

/-- A read inside a file returns a nonempty piece from where it was asked to start. -/
theorem readFileAt_some {file : OpenFile} {offset size : Nat} (call : Call)
    (hin : offset + size ≤ file.info.size) (hs : 0 < size) :
    ∃ count, 0 < count ∧ count ≤ size ∧
      readFileAt file offset size (fun n => some (call.pread n)) =
        some ((file.content.drop offset).take count) := by
  have hsmall := file.small
  have hsized := file.sized
  have hthere : ((file.content.drop offset).take size).length = size := by
    simp only [List.length_take, List.length_drop]
    omega
  obtain ⟨hpos, hle⟩ := call.pread_some size hs
  refine ⟨call.pread size, hpos, hle, ?_⟩
  simp only [readFileAt, if_neg (show ¬ int64Max < offset by omega), hthere, Option.map_some,
    List.take_take, min_eq_left hle]

/-- One call at a position of the slice supplies some of the bytes from there on. -/
theorem fileReader_block {context : TransferContext} {file : OpenFile} {pos : Nat}
    (hfd : context.fd = some file)
    (hfits : context.sourceOffset + context.length ≤ file.info.size) (hmore : pos < context.length)
    (call : Call) :
    ∃ block, block ≠ [] ∧ block.length ≤ context.length - pos ∧
      (file.content.drop (context.sourceOffset + pos)).take block.length = block ∧
      fileReader context pos pos call.max call.acquire (fun n => some (call.pread n)) =
        (.supplied block, pos + block.length) := by
  have hsmall : file.info.size ≤ 9223372036854775807 := file.small
  have hremaining : wrapSub 64 context.length pos = context.length - pos :=
    wrapSub_of_le hmore.le (by omega)
  obtain ⟨hgrant, hgranted⟩ := call.acquire_some (min (context.length - pos) call.max)
    (lt_min (by omega) call.max_pos)
  generalize hreq : call.acquire (min (context.length - pos) call.max) = requested at *
  have hrest : requested ≤ context.length - pos := hgranted.trans (min_le_left _ _)
  have hroom : wrapSub 64 (2 ^ 64 - 1) pos = 2 ^ 64 - 1 - pos :=
    wrapSub_of_le (by omega) (by omega)
  have hnear : ¬ 2 ^ 64 - 1 - pos < context.sourceOffset := by omega
  have habs : wrapAdd 64 context.sourceOffset pos = context.sourceOffset + pos :=
    wrapAdd_of_lt (by omega)
  have hin : context.sourceOffset + pos + requested ≤ file.info.size := by omega
  obtain ⟨count, hcount, hle, hread⟩ := readFileAt_some call hin hgrant
  have hlen : ((file.content.drop (context.sourceOffset + pos)).take count).length = count := by
    have := file.sized
    simp only [List.length_take, List.length_drop]
    omega
  generalize hblock : (file.content.drop (context.sourceOffset + pos)).take count = block at *
  have hne : block ≠ [] := by
    intro hnil
    rw [hnil, List.length_nil] at hlen
    omega
  have hsum : wrapAdd 64 pos block.length = pos + block.length := wrapAdd_of_lt (by omega)
  refine ⟨block, hne, by omega, by rw [hlen, hblock], ?_⟩
  simp only [fileReader, hfd, if_neg hmore.not_ge, hremaining, hreq, if_neg hgrant.ne', hroom,
    habs, hread, if_neg hnear]
  cases block with
  | nil => exact absurd rfl hne
  | cons b bs => rw [← hsum]

/-- The bytes of the file that follow those delivered go on with the slice. -/
theorem Delivered.append {context : TransferContext} {file : OpenFile} {d : Delivery}
    {block : List UInt8} (h : Delivered (context.slice file) d)
    (hrest : block.length ≤ context.length - d.returned.length)
    (hblock : (file.content.drop (context.sourceOffset + d.returned.length)).take block.length =
      block) :
    Delivered (context.slice file)
      { d with returned := d.returned ++ block,
               bytesSupplied := d.returned.length + block.length } := by
  have hslice : (context.slice file).drop d.returned.length =
      (file.content.drop (context.sourceOffset + d.returned.length)).take
        (context.length - d.returned.length) := by
    rw [TransferContext.slice, List.drop_take, List.drop_drop]
  refine ⟨?_, ?_, h.alive⟩
  · rw [List.length_append, List.take_add, hslice, List.take_take, min_eq_left hrest, hblock,
      ← h.returned]
  · rw [List.length_append]

/-- One call on an unfinished transfer supplies the next bytes of the slice. -/
theorem fileReader_supplies {context : TransferContext} {file : OpenFile} {d : Delivery}
    (hfd : context.fd = some file)
    (hfits : context.sourceOffset + context.length ≤ file.info.size)
    (h : Delivered (context.slice file) d) (hmore : d.returned.length < context.length)
    (call : Call) :
    ∃ block, block ≠ [] ∧
      fileReader context d.bytesSupplied d.returned.length call.max call.acquire
        (fun n => some (call.pread n)) = (.supplied block, d.returned.length + block.length) ∧
      Delivered (context.slice file)
        { d with returned := d.returned ++ block,
                 bytesSupplied := d.returned.length + block.length } := by
  obtain ⟨block, hne, hrest, hblock, hread⟩ := fileReader_block hfd hfits hmore call
  refine ⟨block, hne, ?_, h.append hrest hblock⟩
  rw [h.counted]
  exact hread

/-- Enough calls complete the transfer, whatever they grant and read. -/
theorem pull_complete {context : TransferContext} {file : OpenFile} (hfd : context.fd = some file)
    (hfits : context.sourceOffset + context.length ≤ file.info.size) (calls : List Call)
    {d : Delivery} (h : Delivered (context.slice file) d)
    (henough : context.length ≤ d.returned.length + calls.length) :
    pull context calls d = ⟨context.slice file, context.length, false⟩ := by
  have hlen := TransferContext.length_slice hfits
  have hdone {d : Delivery} (h : Delivered (context.slice file) d)
      (hall : context.length ≤ d.returned.length) :
      d = ⟨context.slice file, context.length, false⟩ := by
    have hle := h.length_le
    have hret : d.returned = context.slice file := by
      rw [h.returned, List.take_of_length_le (by omega)]
    have hcount : d.bytesSupplied = context.length := by
      rw [h.counted]
      omega
    have halive := h.alive
    cases d
    simp only at hret hcount halive
    rw [hret, hcount, halive]
  induction calls generalizing d with
  | nil =>
    rw [pull]
    exact hdone h (by simpa using henough)
  | cons call calls ih =>
    unfold pull
    by_cases hall : context.length ≤ d.returned.length
    · rw [if_pos (.inl hall)]
      exact hdone h hall
    · rw [if_neg (by simp [hall, h.alive])]
      obtain ⟨block, hne, hstep, hnext⟩ := fileReader_supplies hfd hfits h (by omega) call
      have hpos := List.length_pos_iff.mpr hne
      simp only [hstep]
      apply ih hnext
      simp only [List.length_append, List.length_cons] at henough ⊢
      omega

/-- The context that the body of a response is read through. -/
def Response.context (r : Response) : TransferContext :=
  match r.body with
  | .fixed _ => ⟨none, 0, 0⟩
  | .file descriptor sourceOffset length => ⟨some descriptor, sourceOffset, length⟩

/-- The value of `Content-Range` names the first and the last byte of the slice. -/
theorem contentRange_eq {offset length total : Nat} (hl : 0 < length)
    (hmax : offset + length ≤ int64Max) :
    contentRange offset length total = text "bytes " ++ decimal offset ++ ['-'] ++
      decimal (offset + length - 1) ++ ['/'] ++ decimal total := by
  simp only [int64Max] at hmax
  rw [contentRange, wrapSub_wrapAdd (by omega) (by omega)]

variable {lib : CLibrary} {config : FastdlConfig} {headers : Headers} {e : Encounter}
  {r : Response}

/-- A transfer is all of its descriptor or a part of it. -/
theorem Sends.fits {opened : OpenFile} (h : Sends lib config headers e opened r) :
    ∃ file, r.context.fd = some file ∧ r.context.length = r.responseSize ∧
      r.context.sourceOffset + r.context.length ≤ file.info.size := by
  rcases h with ⟨_, hlen, hbody⟩ | ⟨_, hv, hlen, hbody, _⟩
  · refine ⟨wholeRepresentation lib config headers e opened, ?_⟩
    simp only [Response.context, hbody, hlen, Nat.zero_add, le_refl, and_self]
  · have hfits := (parseRange_fits (header headers .range 256) opened.info.size hv).2
    refine ⟨opened, ?_⟩
    simp only [Response.context, hbody, hlen, hfits, and_self]

/-- Every queued transfer delivers exactly its slice, whatever the limiter grants and the reads
return; a partial one sends the slice its `Content-Range` names. -/
theorem delivered_body (h : serveFile lib config .get headers e = some r)
    (hs : r.status = 200 ∨ r.status = 206) :
    ∃ opened file, e.file = some opened ∧ r.context.fd = some file ∧
      r.context.sourceOffset + r.context.length ≤ file.content.length ∧
      r.context.length = r.responseSize ∧
      (∀ calls : List Call, r.responseSize ≤ calls.length →
        pull r.context calls {} =
          ⟨(file.content.drop r.context.sourceOffset).take r.context.length, r.responseSize,
            false⟩) ∧
      (r.status = 206 → file = opened ∧ ∃ start last,
        (.contentRange, text "bytes " ++ decimal start ++ ['-'] ++ decimal last ++ ['/'] ++
          decimal opened.info.size) ∈ r.fields ∧
        start = r.context.sourceOffset ∧ start ≤ last ∧ last < opened.info.size ∧
        r.context.length = last - start + 1) := by
  obtain ⟨opened, hf, -, -, hsend⟩ := serveFile_transfer h hs
  obtain ⟨file, hfd, hlen, hfits⟩ := hsend.fits
  refine ⟨opened, file, hf, hfd, file.sized ▸ hfits, hlen, fun calls henough => ?_, fun h206 => ?_⟩
  · have hstart : Delivered (r.context.slice file) {} := ⟨rfl, rfl, rfl⟩
    rw [pull_complete hfd hfits calls hstart (by simpa [hlen] using henough), ← hlen]
    rfl
  · rcases hsend with ⟨h200, _⟩ | ⟨_, hv, hsize, hbody, hrange⟩
    · rw [h206] at h200
      cases h200
    · have hvalid := parseRange_fits (header headers .range 256) opened.info.size hv
      have hsmall := opened.small
      rw [hsize, contentRange_eq hvalid.1 (hvalid.2.trans hsmall)] at hrange
      simp only [Response.context, hbody, Option.some.injEq] at hfd ⊢
      refine ⟨hfd.symm, _, _, hrange, rfl, ?_⟩
      omega

/-- A call under the limiter itself that gets one byte on. -/
def limitedCall (s : BandwidthLimiter.Limiter) (hs : s.stopping = false) (hq : 0 < s.quantum)
    (client : Option Nat) (now : Int) : Call where
  max := kFileBlockSize
  acquire := fun n => (s.acquire client n now).2.1
  pread := fun _ => 1
  max_pos := by decide
  max_le := le_rfl
  acquire_some := fun _ hn => BandwidthLimiter.Limiter.acquire_some hs hq client hn now
  pread_some := fun _ hn => ⟨Nat.one_pos, hn⟩

/-- The call of a transfer without a lease, at 12500 bytes a second. -/
def sampleCall : Call :=
  limitedCall (BandwidthLimiter.Ledger.configured 12500 0 0).limiter rfl (by decide) none 0

theorem delivered_body_partial :
    ∃ r file, serveFile epochLibrary ⟨false, false, 100⟩ .get
        (rangeRequest "bytes=1-2" .ifModifiedSince "") sampleEncounter = some r ∧
      r.status = 206 ∧ r.context.fd = some file ∧
      pull r.context [sampleCall, sampleCall] {} =
        ⟨(file.content.drop r.context.sourceOffset).take r.context.length, r.responseSize,
          false⟩ := by
  have hr := (Option.some_get (show (serveFile epochLibrary ⟨false, false, 100⟩ .get
    (rangeRequest "bytes=1-2" .ifModifiedSince "") sampleEncounter).isSome by
      decide +kernel)).symm
  obtain ⟨opened, file, -, hfd, -, -, hpull, -⟩ :=
    delivered_body hr (.inr (by decide +kernel))
  exact ⟨_, file, hr, by decide +kernel, hfd, hpull [sampleCall, sampleCall] (by decide +kernel)⟩

end FastdlMm.FastdlServer
