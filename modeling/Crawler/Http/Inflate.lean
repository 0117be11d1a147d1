/-
# Crawler.Http.Inflate — what `inflate_gzip` makes of a stream

The loop of `inflate_gzip` goes on as long as a call of `inflate` has filled the output, and makes the
buffer larger in between. On a complete stream that brings out all of it, whatever the size of the
buffer at the start (`inflateGzip_complete`): after each resize there is room for a byte at least
(`room_resized`), also where `avail_out`, which has 32 bits, was 0 for a larger buffer.

The loop ends at the first call that leaves output space. Whether the stream had ended by then is not
asked, so that a stream that is cut off is taken for a whole one (`damagedRefused_iff`).
-/
import Crawler.Http.Delivery

namespace Crawler.Http

open Crawler.Lib

/-! ## A complete stream -/

/-- What `inflate` does on a complete stream. `holds strm rest` says that the bytes `rest` are still to be
written. -/
structure Completes (z : Zlib) (holds : z.Stream → List UInt8 → Prop) : Prop where
  writes : ∀ strm rest availOut, holds strm rest → (z.inflate strm availOut).2.1 = rest.take availOut
  next : ∀ strm rest availOut, holds strm rest →
    holds (z.inflate strm availOut).2.2 (rest.drop availOut)
  ret : ∀ strm rest availOut, holds strm rest →
    (z.inflate strm availOut).1 ∈ [ZRet.ok, ZRet.streamEnd, ZRet.bufError]

/-- A buffer that `inflate` writes into. -/
structure Writable (b : HttpBuf) : Prop where
  excess : b.excess = 0
  fits : b.bytes.length ≤ b.cap
  pos : 1 ≤ b.cap

theorem Writable.last {b : HttpBuf} (h : Writable b) : b.last = b.bytes.length := by
  rw [HttpBuf.last, h.excess, Nat.add_zero]

theorem Writable.availOut_le {b : HttpBuf} (h : Writable b) : b.bytes.length + b.availOut ≤ b.cap := by
  have hmod := Nat.mod_le (b.cap - b.last) (2 ^ 32)
  have hfits := h.fits
  rw [h.last] at hmod
  rw [HttpBuf.availOut, h.last]
  omega

/-- Bytes within `avail_out` fit. -/
theorem Writable.append {b : HttpBuf} (h : Writable b) {out : List UInt8} (hout : out.length ≤ b.availOut) :
    Writable (b.append out) := by
  refine ⟨h.excess, ?_, h.pos⟩
  have hle := h.availOut_le
  rw [HttpBuf.append, List.length_append]
  show b.bytes.length + out.length ≤ b.cap
  omega

theorem Writable.resize {b : HttpBuf} (h : Writable b) (start : Addr) : Writable (resizeTempBuf b start) := by
  have hfits := h.fits
  have hpos := h.pos
  refine ⟨h.excess, ?_, ?_⟩
  · show b.bytes.length ≤ if b.cap ≤ 32 * baseRange then b.cap * 2 else b.cap + baseRange
    split_ifs <;> omega
  · show 1 ≤ if b.cap ≤ 32 * baseRange then b.cap * 2 else b.cap + baseRange
    split_ifs <;> omega

/-- A buffer whose output is full has room again after a resize. -/
theorem Writable.room_resized {b : HttpBuf} (h : Writable b) {out : List UInt8}
    (hfull : out.length = b.availOut) (start : Addr) :
    0 < (resizeTempBuf (b.append out) start).availOut := by
  have hfits := h.fits
  have hpos := h.pos
  rw [HttpBuf.availOut, h.last] at hfull
  have hlast : (resizeTempBuf (b.append out) start).last = b.bytes.length + out.length := by
    show (b.bytes ++ out).length + b.excess = _
    rw [h.excess, Nat.add_zero, List.length_append]
  rw [HttpBuf.availOut, hlast]
  show 0 < ((if b.cap ≤ 32 * baseRange then b.cap * 2 else b.cap + baseRange) -
    (b.bytes.length + out.length)) % 2 ^ 32
  have hrange : baseRange = 4096 := rfl
  split_ifs with hsmall
  · -- `avail_out` was what there was, and as much is added as there was in all
    rw [Nat.mod_eq_of_lt (by omega)] at hfull
    rw [Nat.mod_eq_of_lt (by omega)]
    omega
  · -- what `avail_out` did not count is a multiple of 2^32
    omega

section

variable {z : Zlib} {realloc : HttpBuf → Option Addr} {holds : z.Stream → List UInt8 → Prop}

theorem Completes.not_fails (hz : Completes z holds) {strm : z.Stream} {rest : List UInt8}
    (h : holds strm rest) (availOut : Nat) : (z.inflate strm availOut).1.fails = false := by
  have hret := hz.ret strm rest availOut h
  simp only [List.mem_cons, List.not_mem_nil, or_false] at hret
  rcases hret with hret | hret | hret <;> rw [hret] <;> rfl

theorem inflateLoop_succ (turns : Nat) (strm : z.Stream) (dest : HttpBuf) :
    inflateLoop z realloc (turns + 1) strm dest =
      if (z.inflate strm dest.availOut).1.fails = true then (-1, dest)
      else if (z.inflate strm dest.availOut).2.1.length = dest.availOut then
        match realloc (dest.append (z.inflate strm dest.availOut).2.1) with
        | none => (-1, dest.append (z.inflate strm dest.availOut).2.1)
        | some start => inflateLoop z realloc turns (z.inflate strm dest.availOut).2.2
            (resizeTempBuf (dest.append (z.inflate strm dest.availOut).2.1) start)
      else (0, dest.append (z.inflate strm dest.availOut).2.1) := rfl

/-- The loop brings out the rest of the stream. -/
theorem inflateLoop_complete (hz : Completes z holds) (hrealloc : ∀ b, realloc b ≠ none) {n : Nat}
    {strm : z.Stream} {rest : List UInt8} {dest : HttpBuf} (hdest : Writable dest) (h : holds strm rest)
    (hn : rest.length + (if dest.availOut = 0 then 1 else 0) ≤ n) :
    ∃ dest', (∀ turns, n < turns → inflateLoop z realloc turns strm dest = (0, dest')) ∧
      dest'.bytes = dest.bytes ++ rest ∧ Writable dest' ∧ dest'.bytes.length < dest'.cap := by
  induction n using Nat.strong_induction_on generalizing strm rest dest with
  | _ n ih =>
  have hout : (z.inflate strm dest.availOut).2.1 = rest.take dest.availOut := hz.writes strm rest _ h
  have hfails : (z.inflate strm dest.availOut).1.fails = false := hz.not_fails h _
  have hnext : holds (z.inflate strm dest.availOut).2.2 (rest.drop dest.availOut) := hz.next strm rest _ h
  have hturn : ∀ turns, inflateLoop z realloc (turns + 1) strm dest =
      if (rest.take dest.availOut).length = dest.availOut then
        match realloc (dest.append (rest.take dest.availOut)) with
        | none => (-1, dest.append (rest.take dest.availOut))
        | some start => inflateLoop z realloc turns (z.inflate strm dest.availOut).2.2
            (resizeTempBuf (dest.append (rest.take dest.availOut)) start)
      else (0, dest.append (rest.take dest.availOut)) := by
    intro turns
    rw [inflateLoop_succ, if_neg (Bool.not_eq_true _ ▸ hfails), hout]
  have hlength : (rest.take dest.availOut).length ≤ dest.availOut := by
    rw [List.length_take]
    exact Nat.min_le_left _ _
  by_cases hfull : (rest.take dest.availOut).length = dest.availOut
  · obtain ⟨start, hstart⟩ := Option.ne_none_iff_exists'.mp (hrealloc (dest.append (rest.take dest.availOut)))
    have hroom := hdest.room_resized hfull start
    have hdest' : Writable (resizeTempBuf (dest.append (rest.take dest.availOut)) start) :=
      (hdest.append hlength).resize start
    -- the rest is shorter, or there was no room for it and now there is
    have hless : (rest.drop dest.availOut).length +
        (if (resizeTempBuf (dest.append (rest.take dest.availOut)) start).availOut = 0 then 1 else 0) < n := by
      rw [if_neg (Nat.ne_of_gt hroom), List.length_drop]
      rw [List.length_take] at hfull
      split_ifs at hn <;> omega
    obtain ⟨dest', hloop, hbytes, hwritable, hlt⟩ := ih _ hless hdest' hnext (Nat.le_refl _)
    refine ⟨dest', fun turns hturns => ?_, ?_, hwritable, hlt⟩
    · obtain ⟨turns, rfl⟩ := Nat.exists_eq_add_one_of_ne_zero (Nat.ne_zero_of_lt hturns)
      rw [hturn, if_pos hfull, hstart]
      exact hloop turns (Nat.lt_of_lt_of_le hless (Nat.le_of_lt_succ hturns))
    · rw [hbytes]
      show dest.bytes ++ rest.take dest.availOut ++ rest.drop dest.availOut = _
      rw [List.append_assoc, List.take_append_drop]
  · -- the output has not been filled: this was all
    have hshort : rest.length < dest.availOut := by
      rw [List.length_take] at hfull hlength
      omega
    refine ⟨dest.append rest, fun turns hturns => ?_, rfl, ?_, ?_⟩
    · obtain ⟨turns, rfl⟩ := Nat.exists_eq_add_one_of_ne_zero (Nat.ne_zero_of_lt hturns)
      rw [hturn, if_neg hfull, List.take_of_length_le (Nat.le_of_lt hshort)]
    · exact hdest.append (Nat.le_of_lt hshort)
    · have hle := hdest.availOut_le
      show (dest.bytes ++ rest).length < dest.cap
      rw [List.length_append]
      omega

/-- A complete stream is inflated whole, however small or large the buffer was, and the NUL behind it
lies inside the buffer. -/
theorem inflateGzip_complete (hz : Completes z holds) (hrealloc : ∀ b, realloc b ≠ none)
    {windowbits : Int} {source : HttpBuf} {strm : z.Stream} (hinit : z.stream source windowbits = some strm)
    {data : List UInt8} (hdata : holds strm data) {start : Addr} {size : Nat} (hsize : 1 ≤ size) :
    ∃ dest, (∀ turns, data.length + 1 < turns →
        inflateGzip z realloc turns windowbits source (createTempBuf start size) = (0, dest)) ∧
      dest.bytes = data ++ [0] ∧ dest.excess = 0 ∧ dest.last ≤ dest.cap := by
  have hdest : Writable (createTempBuf start size) := ⟨rfl, Nat.zero_le _, hsize⟩
  have hturns : data.length + (if (createTempBuf start size).availOut = 0 then 1 else 0) ≤
      data.length + 1 := by split_ifs <;> omega
  obtain ⟨dest, hloop, hbytes, hwritable, hroom⟩ := inflateLoop_complete hz hrealloc hdest hdata hturns
  have hfits : ¬ dest.cap ≤ dest.last := by
    rw [hwritable.last]
    exact Nat.not_le_of_lt hroom
  refine ⟨dest.append [0], fun turns hturns => ?_, ?_, hwritable.excess, ?_⟩
  · rw [inflateGzip, hinit]
    simp only [hloop turns hturns, if_true]
    rw [terminate, if_neg hfits]
  · show dest.bytes ++ [0] = data ++ [0]
    rw [hbytes]
    rfl
  · show (dest.bytes ++ [0]).length + dest.excess ≤ dest.cap
    rw [hwritable.excess, List.length_append]
    exact hroom

end

theorem storedZlib_completes : Completes storedZlib fun strm rest => strm = rest := by
  refine ⟨?_, ?_, ?_⟩
  · rintro _ rest availOut rfl
    rfl
  · rintro _ rest availOut rfl
    rfl
  · rintro rest _ availOut rfl
    show (if rest.length ≤ availOut then ZRet.streamEnd else ZRet.ok) ∈ _
    split_ifs <;> simp

/-- The three bytes of `storedBytes`, where they have been received. -/
def storedSource : HttpBuf := { bytes := storedBytes, cap := 14 }

/-- They are inflated into a buffer of one byte. -/
theorem inflateGzip_complete_stored : ∃ dest, (∀ turns, (lit "hi!").length + 1 < turns →
      inflateGzip storedZlib (fun _ => some 0) turns 47 storedSource (createTempBuf 0 1) = (0, dest)) ∧
    dest.bytes = lit "hi!" ++ [0] ∧ dest.excess = 0 ∧ dest.last ≤ dest.cap := by
  have hinit : storedZlib.stream storedSource 47 = some (lit "hi!") := rfl
  exact inflateGzip_complete storedZlib_completes (fun _ => Option.some_ne_none _) hinit rfl (Nat.le_refl 1)

/-! ## Any stream -/

/-- A result of `inflate`: what it returned, and whether it left output space (`strm.avail_out != 0`). -/
structure InflateResult where
  ret : ZRet
  spare : Bool
  deriving DecidableEq, Repr

/-- Every code of zlib but those that go with a sound stream. -/
def ZRet.isError : ZRet → Bool
  | .ok | .streamEnd | .bufError => false
  | _ => true

/-- What the payload of a body has become. -/
def HttpClient.payload (client : HttpClient) : Option HttpBuf := client.html.bind (·.chunks)

section

variable (z : Zlib) (realloc : HttpBuf → Option Addr)

/-- The results of `inflate` in the loop of `inflate_gzip`, `none` where it has not ended after as many
turns. -/
def inflateResults : Nat → z.Stream → HttpBuf → Option (List InflateResult)
  | 0, _, _ => none
  | turns + 1, strm, dest =>
      let (ret, out, strm) := z.inflate strm dest.availOut
      let result : InflateResult := ⟨ret, out.length ≠ dest.availOut⟩
      if ret.fails then some [result]
      else if out.length = dest.availOut then
        match realloc (dest.append out) with
        | none => some [result]
        | some start =>
            (inflateResults turns strm (resizeTempBuf (dest.append out) start)).map (result :: ·)
      else some [result]

/-- The results of `inflate` for the payload of a client; none where there is no payload yet, or no stream. -/
def payloadResults (turns : Nat) (client : HttpClient) : Option (List InflateResult) :=
  match client.payload with
  | none => some []
  | some chunks =>
      match z.stream chunks 47 with
      | none => some []
      | some strm => inflateResults z realloc turns strm { cap := baseRange }

/-- The input runs out before the end of the stream: a call leaves output space, and so far `inflate` has
not seen the end. -/
def RunsOut (results : List InflateResult) : Prop :=
  ∃ pre x post, results = pre ++ x :: post ∧ x.spare = true ∧ (x.ret = .ok ∨ x.ret = .bufError) ∧
    ∀ y ∈ pre, y.ret ≠ .streamEnd

/-- No page is made of a stream whose end is not seen. Where the input runs out or zlib reports an error
`inflate_gzip` gives up. -/
structure DamagedRefused (turns : Nat) (results : List InflateResult) (client : HttpClient) : Prop where
  done : client.status = .htmlDone → ∃ x ∈ results, x.ret = .streamEnd
  refused : RunsOut results ∨ (∃ x ∈ results, x.ret.isError = true) →
    client.status = .headDone ∧ ∀ chunks, client.payload = some chunks →
      (inflateGzip z realloc turns 47 chunks { cap := baseRange }).1 = -1

/-- When a call leaves output space and does not return one of the three codes that are looked for, the end
of the stream has been seen, and no `Z_STREAM_ERROR`. -/
def EndsWell (results : List InflateResult) : Prop :=
  ∀ x ∈ results, x.spare = true → x.ret.fails = false →
    (∃ y ∈ results, y.ret = .streamEnd) ∧ ∀ y ∈ results, y.ret ≠ .streamError

variable {z realloc}

/-- The calls before the last one have filled the output. The last one decides what is returned. -/
theorem inflateResults_last {turns : Nat} {strm : z.Stream} {dest : HttpBuf} {results : List InflateResult}
    (h : inflateResults z realloc turns strm dest = some results) :
    ∃ pre x, results = pre ++ [x] ∧ (∀ y ∈ pre, y.spare = false ∧ y.ret.fails = false) ∧
      (inflateLoop z realloc turns strm dest).1 = if x.spare = true ∧ x.ret.fails = false then 0 else -1 := by
  have hnil : ∀ y ∈ ([] : List InflateResult), y.spare = false ∧ y.ret.fails = false := fun y hy => by cases hy
  induction turns generalizing strm dest results with
  | zero => cases h
  | succ turns ih =>
      rw [inflateLoop_succ]
      rw [inflateResults] at h
      generalize z.inflate strm dest.availOut = r at h ⊢
      obtain ⟨ret, out, strm'⟩ := r
      simp only at h ⊢
      split_ifs at h ⊢ with hfails hfull
      · -- one of the three codes
        cases h
        refine ⟨[], _, rfl, hnil, ?_⟩
        rw [if_neg (by simp [hfails])]
      · cases hmove : realloc (dest.append out) with
        | none =>
            rw [hmove] at h
            cases h
            refine ⟨[], _, rfl, hnil, ?_⟩
            rw [if_neg (by simp [hfull])]
        | some start =>
            rw [hmove] at h
            obtain ⟨rest, hrest, rfl⟩ := Option.map_eq_some_iff.mp h
            obtain ⟨pre, x, rfl, hpre, hrc⟩ := ih hrest
            refine ⟨_ :: pre, x, rfl, fun y hy => ?_, hrc⟩
            rcases List.mem_cons.mp hy with rfl | hy
            · exact ⟨by simp [hfull], by simpa using hfails⟩
            · exact hpre y hy
      · cases h
        refine ⟨[], _, rfl, hnil, ?_⟩
        rw [if_pos ⟨by simp [hfull], by simpa using hfails⟩]

/-- The error codes that are looked for, and the one that is not. -/
theorem ZRet.isError_iff (ret : ZRet) : ret.isError = true ↔ ret.fails = true ∨ ret = .streamError := by
  cases ret <;> decide

end

section

variable {z : Zlib} {realloc : HttpBuf → Option Addr} {turns : Nat} {hc : HeadCache} {client : HttpClient}
  {results : List InflateResult}

/-- A client without a page has refused whatever has come. -/
theorem DamagedRefused.of_not_done (hstatus : client.status = .headDone)
    (hrc : ∀ chunks, client.payload = some chunks →
      (inflateGzip z realloc turns 47 chunks { cap := baseRange }).1 = -1) :
    DamagedRefused z realloc turns results client := by
  refine ⟨fun hdone => ?_, fun _ => ⟨hstatus, hrc⟩⟩
  cases hstatus.symm.trans hdone

/-- Only the last call can leave output space. -/
theorem RunsOut.last {pre : List InflateResult} {x : InflateResult} (h : RunsOut (pre ++ [x]))
    (hpre : ∀ y ∈ pre, y.spare = false) :
    (x.ret = .ok ∨ x.ret = .bufError) ∧ ∀ y ∈ pre, y.ret ≠ .streamEnd := by
  obtain ⟨pre', x', post, hsplit, hspare, hret, hbefore⟩ := h
  rcases List.eq_nil_or_concat post with rfl | ⟨post, y, rfl⟩
  · obtain ⟨rfl, hx⟩ := List.append_inj' hsplit rfl
    obtain rfl : x = x' := by simpa using hx
    exact ⟨hret, hbefore⟩
  · have hpre' : pre = pre' ++ x' :: post := by
      rw [List.concat_eq_append, ← List.cons_append, ← List.append_assoc] at hsplit
      exact (List.append_inj' hsplit rfl).1
    have hfull : x'.spare = false := hpre x' (hpre' ▸ List.mem_append_right _ List.mem_cons_self)
    rw [hspare] at hfull
    cases hfull

/-- A page is made of the results when the last one leaves output space. -/
theorem DamagedRefused.done_iff {pre : List InflateResult} {x : InflateResult}
    (hpre : ∀ y ∈ pre, y.spare = false ∧ y.ret.fails = false) (hx : x.spare = true ∧ x.ret.fails = false)
    (hdone : client.status = .htmlDone) :
    DamagedRefused z realloc turns (pre ++ [x]) client ↔ EndsWell (pre ++ [x]) := by
  have hnone : ∀ y ∈ pre ++ [x], y.ret.fails = false := by
    intro y hy
    rcases List.mem_append.mp hy with hy | hy
    · exact (hpre y hy).2
    · rw [List.mem_singleton.mp hy]
      exact hx.2
  have hnotHead : client.status ≠ .headDone := by
    rw [hdone]
    decide
  constructor
  · intro h y _ _ _
    refine ⟨h.done hdone, fun y' hy' herr => ?_⟩
    have herror : y'.ret.isError = true := (ZRet.isError_iff _).mpr (.inr herr)
    exact hnotHead (h.refused (.inr ⟨y', hy', herror⟩)).1
  · intro h
    obtain ⟨⟨y, hy, hend⟩, hno⟩ := h x (List.mem_append_right _ (List.mem_singleton_self x)) hx.1 hx.2
    refine ⟨fun _ => ⟨y, hy, hend⟩, ?_⟩
    rintro (hout | ⟨y', hy', herror⟩)
    · exfalso
      obtain ⟨hret, hbefore⟩ := hout.last fun y hy => (hpre y hy).1
      rcases List.mem_append.mp hy with hy | hy
      · exact hbefore y hy hend
      · rw [List.mem_singleton.mp hy] at hend
        rcases hret with hret | hret <;> rw [hret] at hend <;> cases hend
    · exfalso
      rcases (ZRet.isError_iff _).mp herror with hfails | hstream
      · rw [hnone y' hy'] at hfails
        cases hfails
      · exact hno y' hy' hstream

theorem htmlCopy_payload {inflateGzip : HttpBuf → HttpBuf → Int × HttpBuf} {mc : HtmlCache}
    {chunks : HttpBuf} (hchunks : mc.chunks = some chunks) :
    (htmlCopy inflateGzip client hc mc).2.payload = some chunks := by
  rw [htmlCopy, hchunks]
  simp only
  split_ifs <;> rfl

/-- The page is done when `inflate_gzip` returns 0. -/
theorem htmlCopy_status (inflateGzip : HttpBuf → HttpBuf → Int × HttpBuf) (client : HttpClient)
    {mc : HtmlCache} {chunks : HttpBuf} (hgzip : hc.gzipFlag = true) (hchunks : mc.chunks = some chunks) :
    (htmlCopy inflateGzip client hc mc).2.status =
      if (inflateGzip chunks { cap := baseRange }).1 ≠ 0 then client.status else .htmlDone := by
  rw [htmlCopy, hchunks]
  simp only [hgzip, if_true]
  split_ifs <;> rfl

theorem inflateGzip_rc {strm : z.Stream} {windowbits : Int} {source dest : HttpBuf}
    (hinit : z.stream source windowbits = some strm) :
    (inflateGzip z realloc turns windowbits source dest).1 =
      if (inflateLoop z realloc turns strm dest).1 = 0 then 0 else -1 := by
  rw [inflateGzip, hinit]
  simp only
  split_ifs <;> rfl

/-- However a gzipped response is cut and whatever `inflate` returns: a page that is damaged is refused
exactly when the results end well. -/
theorem damagedRefused_iff (h : AwaitsPage hc client) (hgzip : hc.gzipFlag = true) {frag : Fragment}
    {rest : List Fragment} {r : Int × HttpClient}
    (hr : feed (htmlCall (inflateGzip z realloc turns 47)) htmlFinal client frag rest = some r)
    (hresults : payloadResults z realloc turns r.2 = some results) :
    DamagedRefused z realloc turns results r.2 ↔ EndsWell results := by
  rcases h.feed_cases hr with h' | ⟨client', mc, chunks, hstatus, ⟨hchunks, -⟩, rfl⟩
  · -- nothing to inflate yet
    have hpayload : r.2.payload = none := by
      rw [HttpClient.payload]
      cases hhtml : r.2.html with
      | none => rfl
      | some mc => exact (h'.html mc hhtml).chunks
    rw [payloadResults, hpayload] at hresults
    cases hresults
    refine iff_of_true (.of_not_done h'.status fun chunks hsome => ?_) fun x hx => by cases hx
    cases hpayload.symm.trans hsome
  · rw [payloadResults, htmlCopy_payload hchunks] at hresults
    simp only at hresults
    have hsame := htmlCopy_status (inflateGzip z realloc turns 47) client' hgzip hchunks
    have hrefused : (inflateGzip z realloc turns 47 chunks { cap := baseRange }).1 = -1 →
        DamagedRefused z realloc turns results
          (htmlCopy (inflateGzip z realloc turns 47) client' hc mc).2 := by
      intro hrc
      refine .of_not_done ?_ fun chunks' hsome => ?_
      · rw [hsame, hrc, hstatus]
        rfl
      · rw [htmlCopy_payload hchunks] at hsome
        cases hsome
        exact hrc
    cases hinit : z.stream chunks 47 with
    | none =>
        rw [hinit] at hresults
        cases hresults
        exact iff_of_true (hrefused (by rw [inflateGzip, hinit])) fun x hx => by cases hx
    | some strm =>
        rw [hinit] at hresults
        obtain ⟨pre, x, rfl, hpre, hrc⟩ := inflateResults_last hresults
        by_cases hx : x.spare = true ∧ x.ret.fails = false
        · rw [if_pos hx] at hrc
          refine DamagedRefused.done_iff hpre hx ?_
          rw [hsame, inflateGzip_rc hinit, hrc]
          rfl
        · rw [if_neg hx] at hrc
          refine iff_of_true (hrefused ?_) fun y hy hspare hfails => ?_
          · rw [inflateGzip_rc hinit, hrc]
            rfl
          · rcases List.mem_append.mp hy with hy | hy
            · rw [(hpre y hy).1] at hspare
              cases hspare
            · rw [List.mem_singleton.mp hy] at hspare hfails
              exact absurd ⟨hspare, hfails⟩ hx

end

/-- zlib on the first byte of a gzip stream: it takes the byte and asks for more. -/
def cutZlib : Zlib where
  Stream := Unit
  init := fun _ => some ()
  input := fun _ _ _ => ()
  inflate := fun _ _ => (.ok, [], ())
  inflate_le := fun _ _ => Nat.zero_le _

/-- A gzipped page of which the one byte that was announced has come. -/
def cutPage : Option (Int × HttpClient) :=
  feed (htmlCall (inflateGzip cutZlib (fun _ => none) 1 47)) htmlFinal
    (pageClient { knownHead with gzipFlag := true }) { bytes := [31] } []

theorem damagedRefused_iff_stored :
    DamagedRefused storedZlib (fun _ => none) 1 [⟨.streamEnd, true⟩]
        (storedPage.getD (0, pageClient storedHead)).2 ↔ EndsWell [⟨.streamEnd, true⟩] :=
  damagedRefused_iff (pageClient_awaitsPage storedHead) rfl (rfl : storedPage = some _) rfl

/-- A stream that is cut off after its first byte is delivered. -/
theorem cutPage_delivered :
    ∃ r, cutPage = some r ∧ payloadResults cutZlib (fun _ => none) 1 r.2 = some [⟨.ok, true⟩] ∧
      r.2.status = .htmlDone ∧ ¬ DamagedRefused cutZlib (fun _ => none) 1 [⟨.ok, true⟩] r.2 := by
  refine ⟨_, rfl, rfl, rfl, fun h => ?_⟩
  obtain ⟨x, hx, hend⟩ := h.done rfl
  rw [List.mem_singleton.mp hx] at hend
  cases hend

end Crawler.Http
