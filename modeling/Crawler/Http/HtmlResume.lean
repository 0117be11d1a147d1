/-
# Crawler.Http.HtmlResume — calls of the body parser on fragments

`chunk_len` is a local of `http_parse_html`. When a size line is cut, the digits read before the cut
are lost, and the bytes after it are read as a whole size line (`BodyMidway.htmlCall_eq`). What the
first size line of a body announces is stated on the bytes alone (`StartsChunk`) and compared with
what the parser's inner loop reads.
-/
import Crawler.Http.Html
import Crawler.Lib.Feed

namespace Crawler.Http

open Crawler.Lib

/-! ## The first size line -/

/-- The value of a size line after one more byte. Blanks and the line's end add no digit. -/
def addDigit (v : UInt32) (c : UInt8) : UInt32 :=
  if c = 32 ∨ c = 9 ∨ c = 13 ∨ c = 10 then v else (v <<< 4) + hexDigit c

/-- The length that a size line announces, cut to 32 bits. -/
def lineLen (line : List UInt8) : UInt32 := line.foldl addDigit 0

/-- The body starts with a whole size line, up to an LF after its one CR, that announces a chunk. -/
def StartsChunk (body : List UInt8) : Prop :=
  ∃ line half rest, body = line ++ 13 :: (half ++ 10 :: rest) ∧ 13 ∉ line ∧ 13 ∉ half ∧ 10 ∉ half ∧
    lineLen (line ++ half) ≠ 0

theorem StartsChunk.append {body : List UInt8} (h : StartsChunk body) (more : List UInt8) :
    StartsChunk (body ++ more) := by
  obtain ⟨line, half, rest, rfl, hline⟩ := h
  exact ⟨line, half, rest ++ more, by simp, hline⟩

/-- A byte that does not end its part of the line adds its digit. -/
theorem sizeByte_digit {s : SizeState} {c : UInt8} (hcr : c ≠ 13)
    (hlf : s.status = .lenHalf → c ≠ 10) :
    sizeByte s c = .more { s with chunkLen := addDigit s.chunkLen c, pos := s.pos + 1 } := by
  unfold sizeByte addDigit
  by_cases hblank : c = 32 ∨ c = 9
  · rcases hblank with rfl | rfl <;> rfl
  · obtain ⟨h32, h9⟩ := not_or.mp hblank
    by_cases hc : c = 10
    · obtain ⟨status, v, pos⟩ := s
      cases status with
      | lenDone => simp [hc]
      | lenHalf => exact absurd hc (hlf rfl)
    · simp [h32, h9, hcr, hc]

/-- A stretch of a size line that does not end its part of the line. -/
theorem scan_digits {s : SizeState} {bytes : List UInt8} (hcr : 13 ∉ bytes)
    (hlf : s.status = .lenHalf → 10 ∉ bytes) :
    scan sizeByte s bytes =
      .more { s with chunkLen := bytes.foldl addDigit s.chunkLen, pos := s.pos + bytes.length } := by
  induction bytes generalizing s with
  | nil => rfl
  | cons c bytes ih =>
      have hc : c ≠ 13 := (List.ne_of_not_mem_cons hcr).symm
      have hc' : s.status = .lenHalf → c ≠ 10 := fun h => (List.ne_of_not_mem_cons (hlf h)).symm
      have hrest := @ih { s with chunkLen := addDigit s.chunkLen c, pos := s.pos + 1 }
        (List.not_mem_of_not_mem_cons hcr) fun h => List.not_mem_of_not_mem_cons (hlf h)
      rw [scan, sizeByte_digit hc hc', Scan.more_bind, hrest, List.length_cons]
      simp only [List.foldl_cons, Nat.add_assoc, Nat.add_comm 1]

/-- The scanner right before the LF of a size line. -/
theorem scan_beforeLf {line half : List UInt8} (hline : 13 ∉ line) (hhalf : 13 ∉ half)
    (hlf : 10 ∉ half) (pos : Nat) :
    scan sizeByte { status := .lenDone, chunkLen := 0, pos := pos } (line ++ 13 :: half) =
      .more { status := .lenHalf, chunkLen := lineLen (line ++ half),
              pos := pos + (line ++ 13 :: half).length } := by
  rw [scan_append, scan_digits hline (fun h => by cases h), Scan.more_bind, scan]
  have hcr : ∀ v p, sizeByte { status := .lenDone, chunkLen := v, pos := p } 13 =
      .more { status := .lenHalf, chunkLen := v, pos := p + 1 } := fun _ _ => rfl
  rw [hcr, Scan.more_bind, scan_digits hhalf fun _ => hlf, lineLen, List.foldl_append,
    List.length_append, List.length_cons]
  simp only [Nat.add_assoc, Nat.add_comm 1]

/-- Where a line ends whose CR has been read. -/
theorem scan_loop_half {v : UInt32} {pos : Nat} {bytes : List UInt8} {t : SizeState}
    (h : scan sizeByte { status := .lenHalf, chunkLen := v, pos := pos } bytes = .stop (.loop t)) :
    ∃ half rest, bytes = half ++ 10 :: rest ∧ 13 ∉ half ∧ 10 ∉ half ∧
      t.chunkLen = half.foldl addDigit v := by
  induction bytes generalizing v pos with
  | nil => cases h
  | cons c bytes ih =>
      by_cases hcr : c = 13
      · rw [hcr] at h
        cases h
      · by_cases hlf : c = 10
        · rw [hlf] at h ⊢
          cases h
          exact ⟨[], bytes, rfl, List.not_mem_nil, List.not_mem_nil, rfl⟩
        · rw [scan, sizeByte_digit hcr fun _ => hlf] at h
          obtain ⟨half, rest, rfl, h13, h10, hlen⟩ := ih h
          exact ⟨c :: half, rest, rfl, List.not_mem_cons_of_ne_of_not_mem (Ne.symm hcr) h13,
            List.not_mem_cons_of_ne_of_not_mem (Ne.symm hlf) h10, hlen⟩

/-- A size line that ends is a stretch up to its CR and one up to its LF. -/
theorem scan_loop_line {v : UInt32} {pos : Nat} {bytes : List UInt8} {t : SizeState}
    (h : scan sizeByte { status := .lenDone, chunkLen := v, pos := pos } bytes = .stop (.loop t)) :
    ∃ line half rest, bytes = line ++ 13 :: (half ++ 10 :: rest) ∧ 13 ∉ line ∧ 13 ∉ half ∧
      10 ∉ half ∧ t.chunkLen = (line ++ half).foldl addDigit v := by
  induction bytes generalizing v pos with
  | nil => cases h
  | cons c bytes ih =>
      by_cases hcr : c = 13
      · rw [hcr] at h ⊢
        obtain ⟨half, rest, rfl, h13, h10, hlen⟩ := scan_loop_half h
        exact ⟨[], half, rest, rfl, List.not_mem_nil, h13, h10, hlen⟩
      · rw [scan, sizeByte_digit hcr fun hhalf => by cases hhalf] at h
        obtain ⟨line, half, rest, rfl, hline, hhalf, hlf, hlen⟩ := ih h
        have hline' : 13 ∉ c :: line := List.not_mem_cons_of_ne_of_not_mem (Ne.symm hcr) hline
        exact ⟨c :: line, half, rest, rfl, hline', hhalf, hlf, hlen⟩

/-- The line read first announces no chunk where the body does not start with one. -/
theorem loop_len_eq_zero {body : List UInt8} (h : ¬ StartsChunk body) {pos : Nat} {t : SizeState}
    (hscan : scan sizeByte { status := .lenDone, chunkLen := 0, pos := pos } body = .stop (.loop t)) :
    t.chunkLen = 0 := by
  obtain ⟨line, half, rest, hbody, hline, hhalf, hlf, hlen⟩ := scan_loop_line hscan
  by_contra hne
  exact h ⟨line, half, rest, hbody, hline, hhalf, hlf, fun hzero => hne (hlen.trans hzero)⟩

/-! ## Calls on fragments -/

/-- What a caller sees after a call: its return value, how far the client has come and, when the page
is done, its bytes. -/
structure HtmlView where
  ret : Int
  status : ClientStatus
  html : Option (List UInt8)
  deriving DecidableEq, Repr

/-- The view of a call's result. -/
def htmlView (r : Int × HttpClient) : HtmlView where
  ret := r.1
  status := r.2.status
  html := if r.2.status = .htmlDone then
      (r.2.html.bind HtmlCache.html).map HttpBuf.bytes
    else none

/-- A final result: `-1`, or the page is done. -/
def htmlFinal (r : Int × HttpClient) : Bool := r.1 = -1 || r.2.status = .htmlDone

/-- A client whose head, not gzipped, has just been parsed and read to the end of `recv`. -/
structure BodyReady (client : HttpClient) (hc : HeadCache) (b : HttpBuf) : Prop where
  status : client.status = .headDone
  head : client.head = some hc
  gzip : hc.gzipFlag = false
  html : client.html = none
  recv : client.recv = some b
  pos : b.pos = b.bytes.length

section

variable (inflateGzip : HttpBuf → HttpBuf → Int × HttpBuf)

/-- One call after a fragment has been received. -/
def htmlCall (client : HttpClient) (frag : Fragment) : Option (Int × HttpClient) :=
  httpParseHtml inflateGzip (client.recvd frag)

end

/-! ## A chunked body between two calls -/

/-- Between two calls: `base` and `bytes` have been received, the record is `mc`, and `skip` bytes of
the current chunk are still to come. -/
structure BodyMidway (client : HttpClient) (hc : HeadCache) (base bytes : List UInt8)
    (mc : HtmlCache) (skip : Nat) : Prop where
  status : client.status = .headDone
  head : client.head = some hc
  recv : ∃ b, client.recv = some b ∧ b.bytes = base ++ bytes ∧ b.pos = b.bytes.length + skip ∧
    client.htmlCache b = mc
  chunks : mc.chunks = none

/-- What is seen after the scanner, when `bytes` are in `recv`. -/
def bodySeen (bytes : List UInt8) : Scan BodyState BodyStop → Option HtmlView
  | .more _ => some { ret := 0, status := .headDone, html := none }
  | .stop (.error _ _) => some { ret := -1, status := .headDone, html := none }
  | .stop (.finished mc _) =>
      (gather { bytes := bytes } mc).map fun chunks =>
        { ret := 0, status := .htmlDone, html := some (chunks.bytes.take mc.chunkSum.toNat) }

/-- Only the bytes of the buffer are copied. -/
theorem gather_bytes (b : HttpBuf) (mc : HtmlCache) : gather { bytes := b.bytes } mc = gather b mc :=
  rfl

section

variable (inflateGzip : HttpBuf → HttpBuf → Int × HttpBuf) {client : HttpClient} {hc : HeadCache}
  {base bytes : List UInt8} {mc : HtmlCache} {skip : Nat}

theorem bodyEnd_seen (hstatus : client.status = .headDone) (hgzip : hc.gzipFlag = false)
    (b : HttpBuf) (x : Scan BodyState BodyStop) :
    (bodyEnd inflateGzip client b hc x).map htmlView = bodySeen b.bytes x := by
  rcases x with s | s | ⟨mc, pos⟩
  · simp [bodyEnd, bodySeen, htmlView, hstatus]
  · simp [bodyEnd, bodySeen, htmlView, hstatus]
  · rw [bodyEnd, bodySeen, gather_bytes]
    cases gather b mc with
    | none => rfl
    | some chunks => simp [htmlCopy, hgzip, htmlView]

/-- A call runs the scanner on the new bytes, the size line being begun anew. -/
theorem BodyMidway.htmlCall_eq (h : BodyMidway client hc base bytes mc skip)
    (hchunk : hc.chunkFlag = true) (frag : Fragment) :
    ∃ b, b.bytes = base ++ bytes ++ frag.bytes ∧
      htmlCall inflateGzip client frag = bodyEnd inflateGzip (client.recvd frag) b hc
        (scan bodyByte { mc := mc, chunkLen := 0, skip := skip, read := (base ++ bytes).length }
          frag.bytes) := by
  obtain ⟨b, hrecv, hbytes, hpos, hmc⟩ := h.recv
  refine ⟨b.recvd frag, by rw [HttpBuf.recvd_bytes, hbytes], ?_⟩
  have hrecvd : (client.recvd frag).recv = some (b.recvd frag) := by
    rw [HttpClient.recvd, hrecv]
    rfl
  have hcache : (client.recvd frag).htmlCache (b.recvd frag) = mc := by
    rw [← hmc, HttpClient.htmlCache, HttpClient.htmlCache, HttpBuf.recvd_pos]
    rfl
  have hhead : (client.recvd frag).head = some hc := h.head
  have hread : (base ++ bytes).length ≤ (b.recvd frag).bytes.length := by
    rw [HttpBuf.recvd_bytes, hbytes]
    exact (List.prefix_append _ _).length_le
  have hpast : (base ++ bytes).length ≤ b.pos := by
    rw [hpos, hbytes]
    exact Nat.le_add_right _ _
  have hloop := chunkLoop_eq inflateGzip (client.recvd frag) (b.recvd frag) hc h.chunks hread hpast
    (Nat.sub_le _ _)
  rw [htmlCall, httpParseHtml, hrecvd, hhead]
  simp only [Option.bind_eq_bind, Option.bind_some, hchunk, if_true, hcache, HttpBuf.recvd_pos]
  rw [hloop, HttpBuf.recvd_bytes, hbytes, List.drop_left, hpos, hbytes, Nat.add_sub_cancel_left]

/-- What is seen of a call. -/
theorem BodyMidway.seen (h : BodyMidway client hc base bytes mc skip) (hchunk : hc.chunkFlag = true)
    (hgzip : hc.gzipFlag = false) (frag : Fragment) :
    (htmlCall inflateGzip client frag).map htmlView =
      bodySeen (base ++ (bytes ++ frag.bytes))
        (scan bodyByte { mc := mc, chunkLen := 0, skip := skip, read := (base ++ bytes).length }
          frag.bytes) := by
  obtain ⟨b, hb, hcall⟩ := h.htmlCall_eq inflateGzip hchunk frag
  have hstatus : (client.recvd frag).status = .headDone := h.status
  rw [hcall, bodyEnd_seen inflateGzip hstatus hgzip, hb, List.append_assoc]

theorem bodyEnd_final (hstatus : client.status = .headDone) (hgzip : hc.gzipFlag = false)
    {b : HttpBuf} {x : Scan BodyState BodyStop} {r : Int × HttpClient}
    (h : bodyEnd inflateGzip client b hc x = some r) : htmlFinal r = false ↔ ∃ s, x = .more s := by
  rcases x with s | s | ⟨mc, pos⟩
  · refine iff_of_true ?_ ⟨s, rfl⟩
    cases h
    simp [htmlFinal, hstatus]
  · refine iff_of_false ?_ fun ⟨_, hs⟩ => by cases hs
    cases h
    simp [htmlFinal]
  · refine iff_of_false ?_ fun ⟨_, hs⟩ => by cases hs
    obtain ⟨chunks, -, rfl⟩ := Option.map_eq_some_iff.mp h
    simp [htmlFinal, htmlCopy, hgzip]

/-- A result that is not final leaves a client between two calls. -/
theorem BodyMidway.next (h : BodyMidway client hc base bytes mc skip) (hchunk : hc.chunkFlag = true)
    (hgzip : hc.gzipFlag = false) {frag : Fragment} {r : Int × HttpClient}
    (hr : htmlCall inflateGzip client frag = some r) (hfinal : htmlFinal r = false) :
    ∃ s, scan bodyByte { mc := mc, chunkLen := 0, skip := skip, read := (base ++ bytes).length }
        frag.bytes = .more s ∧
      BodyMidway r.2 hc base (bytes ++ frag.bytes) s.mc s.skip := by
  obtain ⟨b, hb, hcall⟩ := h.htmlCall_eq inflateGzip hchunk frag
  have hstatus : (client.recvd frag).status = .headDone := h.status
  rw [hcall] at hr
  obtain ⟨s, hs⟩ := (bodyEnd_final inflateGzip hstatus hgzip hr).mp hfinal
  obtain ⟨hread, hchunks⟩ := scan_more hs
  rw [hs] at hr
  cases hr
  refine ⟨s, hs, h.status, h.head, ⟨_, rfl, ?_, ?_, rfl⟩, hchunks.trans h.chunks⟩
  · rw [← List.append_assoc]
    exact hb
  · simp only [hread, hb, List.length_append]

/-- A scanner that goes on gives such a result. -/
theorem BodyMidway.more (h : BodyMidway client hc base bytes mc skip) (hchunk : hc.chunkFlag = true)
    {frag : Fragment} {s : BodyState}
    (hs : scan bodyByte { mc := mc, chunkLen := 0, skip := skip, read := (base ++ bytes).length }
      frag.bytes = .more s) :
    ∃ r, htmlCall inflateGzip client frag = some r ∧ htmlFinal r = false := by
  obtain ⟨b, -, hcall⟩ := h.htmlCall_eq inflateGzip hchunk frag
  rw [hs] at hcall
  refine ⟨_, hcall, ?_⟩
  have hstatus : (client.recvd frag).status = .headDone := h.status
  simp [htmlFinal, hstatus]

/-- Where no result is other than final, the scanner has stopped. -/
theorem BodyMidway.stopped (h : BodyMidway client hc base bytes mc skip)
    (hchunk : hc.chunkFlag = true) {frag : Fragment}
    (hfinal : ∀ r, htmlCall inflateGzip client frag = some r → htmlFinal r = true) :
    ∃ q, scan bodyByte { mc := mc, chunkLen := 0, skip := skip, read := (base ++ bytes).length }
      frag.bytes = .stop q := by
  cases hs : scan bodyByte { mc := mc, chunkLen := 0, skip := skip, read := (base ++ bytes).length }
      frag.bytes with
  | more s =>
      obtain ⟨r, hr, hnot⟩ := h.more inflateGzip hchunk hs
      rw [hfinal r hr] at hnot
      cases hnot
  | stop q => exact ⟨q, rfl⟩

/-- The record at the first call. -/
def firstCache (base : List UInt8) : HtmlCache := { htmlStart := UInt32.ofNat base.length }

theorem BodyReady.midway {b : HttpBuf} (h : BodyReady client hc b) :
    BodyMidway client hc b.bytes [] (firstCache b.bytes) 0 where
  status := h.status
  head := h.head
  recv := by
    refine ⟨b, h.recv, (List.append_nil _).symm, h.pos, ?_⟩
    rw [HttpClient.htmlCache, h.html, h.pos]
    rfl
  chunks := rfl

end

end Crawler.Http
