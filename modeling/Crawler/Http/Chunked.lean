/-
# Crawler.Http.Chunked — chunked bodies written and read back

A chunk is written as a size line, its data and a CR LF; the number of the size line may have leading
zeros, digits of either case and blanks around it. Read in one call, the chunks come out as they were
written, as long as their offsets in `recv` fit in 32 bits (`decodes_of_fits`). The buffer they are
copied into ends one byte further than the copy, so that it is never the one that a body of known
length gives (`framings_differ`).
-/
import Crawler.Http.SizeLine

namespace Crawler.Http

open Crawler.Lib

/-! ## Writing chunks -/

/-- A chunk and a way of writing its length. -/
structure ChunkText where
  lead : List UInt8
  digits : List UInt8
  trail : List UInt8
  data : List UInt8
  lead_blank : ∀ c ∈ lead, isBlank c
  digits_hex : ∀ c ∈ digits, isHexDigit c
  trail_blank : ∀ c ∈ trail, isBlank c
  number : hexNumber digits = data.length
  data_ne : data ≠ []

/-- The size line, without its CR LF. -/
def ChunkText.line (t : ChunkText) : List UInt8 := t.lead ++ t.digits ++ t.trail

/-- The bytes of a chunk. -/
def ChunkText.bytes (t : ChunkText) : List UInt8 := t.line ++ 13 :: 10 :: (t.data ++ [13, 10])

/-- A whole chunked body: the chunks, and the empty one that closes it. -/
def chunkedBody (texts : List ChunkText) : List UInt8 :=
  texts.flatMap ChunkText.bytes ++ [48, 13, 10, 13, 10]

/-- The data of all chunks. -/
def chunkedData (texts : List ChunkText) : List UInt8 := texts.flatMap ChunkText.data

theorem ChunkText.bytes_length (t : ChunkText) :
    t.bytes.length = t.line.length + 2 + (t.data.length + 2) := by
  simp only [bytes, List.length_append, List.length_cons, List.length_nil]
  omega

theorem blank_symbols {blanks : List UInt8} (h : ∀ c ∈ blanks, isBlank c) : symbols blanks = [] :=
  List.filter_eq_nil_iff.mpr fun c hc => by simp [h c hc]

theorem digits_symbols {digits : List UInt8} (h : ∀ c ∈ digits, isHexDigit c) :
    symbols digits = digits := by
  refine List.filter_eq_self.mpr fun c hc => ?_
  have hdigit := h c hc
  have hblank : isBlank c = false := by
    rw [isBlank, Bool.or_eq_false_iff, decide_eq_false_iff_not, decide_eq_false_iff_not]
    constructor <;> rintro rfl <;> cases hdigit
  simp [hblank, isHexDigit_ne hdigit]

theorem ChunkText.line_symbols (t : ChunkText) : symbols t.line = t.digits := by
  rw [line, symbols_append, symbols_append, blank_symbols t.lead_blank, blank_symbols t.trail_blank,
    digits_symbols t.digits_hex, List.nil_append, List.append_nil]

theorem blank_noCr {blanks : List UInt8} (h : ∀ c ∈ blanks, isBlank c) : 13 ∉ blanks :=
  fun hm => by cases h 13 hm

theorem ChunkText.line_noCr (t : ChunkText) : 13 ∉ t.line := by
  have hdigits : 13 ∉ t.digits := fun hm => (isHexDigit_ne (t.digits_hex 13 hm)).1 rfl
  simp [line, blank_noCr t.lead_blank, blank_noCr t.trail_blank, hdigits]

/-- The length of a chunk is read from its size line, cut to 32 bits. -/
theorem ChunkText.lineLen_eq (t : ChunkText) : lineLen t.line =
    UInt32.ofNat t.data.length := by
  refine UInt32.toNat_inj.mp ?_
  rw [lineLen_toNat, t.line_symbols, t.number, UInt32.toNat_ofNat']

/-! ## Reading them -/

/-- Where the data of a chunk lie that begins at `pos`. -/
def ChunkText.record (t : ChunkText) (pos : Nat) : KeyValue where
  value := UInt32.ofNat (pos + t.line.length + 2)
  valueLen := UInt32.ofNat t.data.length

/-- The records of chunks that begin at `pos`. -/
def chunkRecords (pos : Nat) : List ChunkText → List KeyValue
  | [] => []
  | t :: texts => t.record pos :: chunkRecords (pos + t.bytes.length) texts

/-- What the call keeps of chunks that begin at `pos`. -/
def HtmlCache.chunkAll (mc : HtmlCache) (pos : Nat) : List ChunkText → HtmlCache
  | [] => mc
  | t :: texts =>
      (mc.chunk (pos + t.line.length + 2) (UInt32.ofNat t.data.length)).chunkAll
        (pos + t.bytes.length) texts

theorem chunkAll_status (mc : HtmlCache) (pos : Nat) (texts : List ChunkText) :
    (mc.chunkAll pos texts).status = mc.status := by
  induction texts generalizing mc pos with
  | nil => rfl
  | cons t texts ih => rw [HtmlCache.chunkAll, ih, HtmlCache.chunk]

theorem chunkAll_chunkQueue (mc : HtmlCache) (pos : Nat) (texts : List ChunkText) :
    (mc.chunkAll pos texts).chunkQueue = mc.chunkQueue ++ chunkRecords pos texts := by
  induction texts generalizing mc pos with
  | nil => exact (List.append_nil _).symm
  | cons t texts ih =>
      rw [HtmlCache.chunkAll, ih, HtmlCache.chunk, chunkRecords, List.append_assoc,
        List.singleton_append]
      rfl

theorem chunkAll_chunkSum (mc : HtmlCache) (pos : Nat) (texts : List ChunkText) :
    (mc.chunkAll pos texts).chunkSum = mc.chunkSum + UInt32.ofNat (chunkedData texts).length := by
  induction texts generalizing mc pos with
  | nil => exact (UInt32.add_zero _).symm
  | cons t texts ih =>
      have hdata : chunkedData (t :: texts) = t.data ++ chunkedData texts := List.flatMap_cons
      rw [hdata, List.length_append, UInt32.ofNat_add, ← UInt32.add_assoc]
      exact ih ..

/-- A chunk is recorded and jumped over. -/
theorem scan_chunk {mc : HtmlCache} (hstatus : mc.status = .lenDone) (t : ChunkText)
    (hlen : t.data.length + 2 < 2 ^ 32) (read : Nat) (rest : List UInt8) :
    scan bodyByte { mc := mc, chunkLen := 0, skip := 0, read := read } (t.bytes ++ rest) =
      scan bodyByte {
        mc := mc.chunk (read + t.line.length + 2) (UInt32.ofNat t.data.length), chunkLen := 0, skip := 0,
        read := read + t.bytes.length } rest := by
  have hbytes : t.bytes ++ rest = t.line ++ 13 :: 10 :: (t.data ++ 13 :: 10 :: rest) := by
    simp [ChunkText.bytes]
  have hsize := scan_line_noCr t.line_noCr read (t.data ++ 13 :: 10 :: rest)
  rw [lineStart, t.lineLen_eq] at hsize
  have hnat : (UInt32.ofNat t.data.length).toNat = t.data.length := by
    rw [UInt32.toNat_ofNat', Nat.mod_eq_of_lt (by omega)]
  have hne : UInt32.ofNat t.data.length ≠ 0 := by
    intro hzero
    rw [hzero] at hnat
    exact t.data_ne (List.length_eq_zero_iff.mp hnat.symm)
  have hskip : (UInt32.ofNat t.data.length + 2).toNat = t.data.length + 2 := by
    rw [UInt32.toNat_add, hnat]
    exact Nat.mod_eq_of_lt hlen
  have hdata : (t.data ++ 13 :: 10 :: rest).drop (t.data.length + 2) = rest := by
    rw [List.drop_append, List.drop_eq_nil_of_le (by omega), List.nil_append,
      Nat.add_sub_cancel_left]
    rfl
  have hline : (t.line ++ 13 :: 10 :: (t.data ++ 13 :: 10 :: rest)).drop (t.line.length + 2) =
      t.data ++ 13 :: 10 :: rest := by
    rw [List.drop_append, List.drop_eq_nil_of_le (by omega), List.nil_append,
      Nat.add_sub_cancel_left]
    rfl
  have hpos : read + t.line.length + 2 - read = t.line.length + 2 := by omega
  have hread : read + t.line.length + 2 + (t.data.length + 2) = read + t.bytes.length := by
    rw [t.bytes_length]
    omega
  rw [hbytes, scan_line, hstatus, hsize]
  simp only [bodyLine, if_neg hne, Scan.more_bind, hpos, hline, hskip]
  rw [scan_skip, hdata, List.length_append, List.length_cons, List.length_cons,
    Nat.sub_eq_zero_of_le (by omega), Nat.min_eq_left (by omega), hread, ← hstatus]

/-- All chunks are recorded, one after another. -/
theorem scan_chunks {mc : HtmlCache} (hstatus : mc.status = .lenDone) {texts : List ChunkText}
    (hlen : ∀ t ∈ texts, t.data.length + 2 < 2 ^ 32) (read : Nat) (rest : List UInt8) :
    scan bodyByte { mc := mc, chunkLen := 0, skip := 0, read := read }
      (texts.flatMap ChunkText.bytes ++ rest) =
      scan bodyByte { mc := mc.chunkAll read texts, chunkLen := 0, skip := 0,
                      read := read + (texts.flatMap ChunkText.bytes).length } rest := by
  induction texts generalizing mc read with
  | nil => rfl
  | cons t texts ih =>
      have hnext : (mc.chunk (read + t.line.length + 2) (UInt32.ofNat t.data.length)).status =
          .lenDone := hstatus
      rw [List.flatMap_cons, List.append_assoc, scan_chunk hstatus t (hlen t List.mem_cons_self),
        ih hnext fun t' hm => hlen t' (List.mem_cons_of_mem _ hm), List.length_append,
        HtmlCache.chunkAll, ← Nat.add_assoc read]

/-- The size line of the last chunk ends the body; what follows it is not read. -/
theorem scan_closed {mc : HtmlCache} (hstatus : mc.status = .lenDone) {texts : List ChunkText}
    (hlen : ∀ t ∈ texts, t.data.length + 2 < 2 ^ 32) (read : Nat) (more : List UInt8) :
    scan bodyByte { mc := mc, chunkLen := 0, skip := 0, read := read }
      (texts.flatMap ChunkText.bytes ++ 48 :: 13 :: 10 :: more) =
        .stop (.finished (mc.chunkAll read texts)
          (read + (texts.flatMap ChunkText.bytes).length + 3)) := by
  have hzero : (13 : UInt8) ∉ [48] := by decide
  rw [scan_chunks hstatus hlen, scan_line, chunkAll_status, hstatus]
  have hsize := scan_line_noCr hzero (read + (texts.flatMap ChunkText.bytes).length) more
  have hdone : { mc.chunkAll read texts with status := .lenDone } = mc.chunkAll read texts := by
    rw [← hstatus, ← chunkAll_status mc read texts]
  have hnone : lineLen [48] = 0 := rfl
  rw [← List.singleton_append, ← lineStart, hsize]
  simp only [bodyLine, hnone, if_true, Scan.stop_bind, hdone]
  rfl

/-- A whole chunked body is read up to the size line of its last chunk. -/
theorem scan_chunkedBody {mc : HtmlCache} (hstatus : mc.status = .lenDone) {texts : List ChunkText}
    (hlen : ∀ t ∈ texts, t.data.length + 2 < 2 ^ 32) (read : Nat) (more : List UInt8) :
    ∃ pos, scan bodyByte { mc := mc, chunkLen := 0, skip := 0, read := read }
      (chunkedBody texts ++ more) = .stop (.finished (mc.chunkAll read texts) pos) := by
  rw [chunkedBody, List.append_assoc]
  exact ⟨_, scan_closed hstatus hlen read (13 :: 10 :: more)⟩

/-! ## The chunks copied together -/

/-- A recorded chunk is copied as it was written, its offset being less than 4 GiB. -/
theorem chunkSlice_record {b : HttpBuf} {t : ChunkText} {pos : Nat} {rest : List UInt8}
    (hbytes : b.bytes.drop pos = t.bytes ++ rest) (hlen : pos + t.bytes.length < 2 ^ 32) :
    chunkSlice b (t.record pos) = some t.data := by
  rw [t.bytes_length] at hlen
  have hvalue : (t.record pos).value.toNat = pos + t.line.length + 2 := by
    rw [ChunkText.record, UInt32.toNat_ofNat', Nat.mod_eq_of_lt (by omega)]
  have hvalueLen : (t.record pos).valueLen.toNat = t.data.length := by
    rw [ChunkText.record, UInt32.toNat_ofNat', Nat.mod_eq_of_lt (by omega)]
  have hdata : b.bytes.drop (pos + t.line.length + 2) = t.data ++ 13 :: 10 :: rest := by
    have hsplit : t.bytes ++ rest = (t.line ++ [13, 10]) ++ (t.data ++ 13 :: 10 :: rest) := by
      simp [ChunkText.bytes]
    have hlenLine : t.line.length + 2 = (t.line ++ [13, 10]).length := by simp
    rw [Nat.add_assoc, ← List.drop_drop, hbytes, hsplit, hlenLine, List.drop_left]
  have hfits : pos + t.line.length + 2 + t.data.length ≤ b.bytes.length := by
    have hlength := congrArg List.length hdata
    rw [List.length_drop, List.length_append, List.length_cons] at hlength
    omega
  rw [chunkSlice, hvalue, hvalueLen, if_pos hfits, HttpBuf.slice, hdata, List.take_left]

theorem chunkSlices_records {b : HttpBuf} {texts : List ChunkText} {pos : Nat} {more : List UInt8}
    (hbytes : b.bytes.drop pos = texts.flatMap ChunkText.bytes ++ more)
    (hlen : pos + (texts.flatMap ChunkText.bytes).length < 2 ^ 32) :
    (chunkRecords pos texts).mapM (chunkSlice b) = some (texts.map ChunkText.data) := by
  induction texts generalizing pos with
  | nil => rfl
  | cons t texts ih =>
      rw [List.flatMap_cons, List.append_assoc] at hbytes
      rw [List.flatMap_cons, List.length_append] at hlen
      have hnext : b.bytes.drop (pos + t.bytes.length) = texts.flatMap ChunkText.bytes ++ more := by
        rw [← List.drop_drop, hbytes, List.drop_left]
      rw [chunkRecords, List.mapM_cons, chunkSlice_record hbytes (by omega), ih hnext (by omega)]
      rfl

/-- A client whose body lies in `recv` from `pos` on, none of it having been parsed. -/
structure AtBody (client : HttpClient) (hc : HeadCache) (b : HttpBuf) (body : List UInt8) : Prop where
  recv : client.recv = some b
  head : client.head = some hc
  html : client.html = none
  pos : b.pos ≤ b.bytes.length
  body : b.bytes.drop b.pos = body

/-- The scanner at the start of a body that begins at `pos`. -/
def bodyAt (pos : Nat) : BodyState :=
  { mc := { htmlStart := UInt32.ofNat pos }, chunkLen := 0, skip := 0, read := pos }

section

variable (inflateGzip : HttpBuf → HttpBuf → Int × HttpBuf) {client : HttpClient} {hc : HeadCache}
  {b : HttpBuf} {body : List UInt8}

/-- One call on a chunked body is one run of the scanner. -/
theorem AtBody.call_eq (h : AtBody client hc b body) (hchunk : hc.chunkFlag = true) :
    httpParseHtml inflateGzip client =
      bodyEnd inflateGzip client b hc (scan bodyByte (bodyAt b.pos) body) := by
  have hmc : client.htmlCache b = { htmlStart := UInt32.ofNat b.pos } := by
    rw [HttpClient.htmlCache, h.html]
    rfl
  have hnone : (client.htmlCache b).chunks = none := by rw [hmc]
  have hloop := chunkLoop_eq inflateGzip client b hc hnone h.pos (Nat.le_refl _) (Nat.sub_le _ _)
  rw [httpParseHtml, h.recv, h.head]
  simp only [Option.bind_eq_bind, Option.bind_some, hchunk, if_true]
  rw [hloop, hmc, Nat.sub_self, h.body]
  rfl

variable {texts : List ChunkText} {more : List UInt8}

/-- One call on a whole chunked body copies together what the records say. -/
theorem AtBody.chunkedCall (h : AtBody client hc b (chunkedBody texts ++ more))
    (hchunk : hc.chunkFlag = true) (hlen : ∀ t ∈ texts, t.data.length + 2 < 2 ^ 32) :
    ∃ mc pos, mc.chunkQueue = chunkRecords b.pos texts ∧
      mc.chunkSum = UInt32.ofNat (chunkedData texts).length ∧
      httpParseHtml inflateGzip client = (gather b mc).map fun chunks =>
        htmlCopy inflateGzip { client with recv := some { b with pos := pos } } hc
          { mc with chunks := some chunks } := by
  have hstart : (bodyAt b.pos).mc.status = .lenDone := rfl
  obtain ⟨pos, hscan⟩ := scan_chunkedBody hstart hlen b.pos more
  refine ⟨(bodyAt b.pos).mc.chunkAll b.pos texts, pos, chunkAll_chunkQueue _ b.pos texts, ?_, ?_⟩
  · rw [chunkAll_chunkSum]
    exact UInt32.zero_add _
  · rw [h.call_eq inflateGzip hchunk]
    exact congrArg (bodyEnd inflateGzip client b hc) hscan

theorem chunkedData_length_le (texts : List ChunkText) :
    (chunkedData texts).length ≤ (texts.flatMap ChunkText.bytes).length := by
  induction texts with
  | nil => exact Nat.le_refl _
  | cons t texts ih =>
      have hdata : chunkedData (t :: texts) = t.data ++ chunkedData texts := List.flatMap_cons
      rw [hdata, List.flatMap_cons, List.length_append, List.length_append, t.bytes_length]
      omega

theorem chunk_fits (hlen : (chunkedBody texts).length < 2 ^ 32) :
    ∀ t ∈ texts, t.data.length + 2 < 2 ^ 32 := by
  intro t hm
  have hle : t.bytes.length ≤ (texts.flatMap ChunkText.bytes).length :=
    (List.sublist_flatten_of_mem (List.mem_map_of_mem hm)).length_le
  rw [t.bytes_length] at hle
  rw [chunkedBody, List.length_append] at hlen
  omega

/-- The sum of the lengths of chunks that fit in a body of less than 4 GiB. -/
theorem chunkSum_toNat {sum : UInt32} (hsum : sum = UInt32.ofNat (chunkedData texts).length)
    (hlen : (chunkedBody texts).length < 2 ^ 32) : sum.toNat = (chunkedData texts).length := by
  have hle := chunkedData_length_le texts
  rw [chunkedBody, List.length_append] at hlen
  rw [hsum, UInt32.toNat_ofNat', Nat.mod_eq_of_lt (by omega)]

/-- Recorded chunks that end below 4 GiB are copied together as they were written. -/
theorem gather_chunks {b : HttpBuf} {pos : Nat} {mc : HtmlCache}
    (hbytes : b.bytes.drop pos = texts.flatMap ChunkText.bytes ++ more)
    (hlen : pos + (texts.flatMap ChunkText.bytes).length < 2 ^ 32)
    (hqueue : mc.chunkQueue = chunkRecords pos texts)
    (hsum : mc.chunkSum.toNat = (chunkedData texts).length) :
    gather b mc = some { bytes := chunkedData texts, cap := (chunkedData texts).length, excess := 1 } := by
  have hslices := chunkSlices_records hbytes hlen
  have hflat : (texts.map ChunkText.data).flatten = chunkedData texts := List.flatMap_def.symm
  rw [gather, hqueue, hslices]
  simp only [Option.bind_eq_bind, Option.bind_some, hflat, hsum, Nat.le_refl, if_true]

/-- Of a body whose end lies below 4 GiB the chunks are copied together as they were written. -/
theorem gather_records (h : AtBody client hc b (chunkedBody texts ++ more))
    (hlen : b.pos + (chunkedBody texts).length < 2 ^ 32) {mc : HtmlCache}
    (hqueue : mc.chunkQueue = chunkRecords b.pos texts)
    (hsum : mc.chunkSum = UInt32.ofNat (chunkedData texts).length) :
    gather b mc = some { bytes := chunkedData texts, cap := (chunkedData texts).length, excess := 1 } := by
  have hnat := chunkSum_toNat hsum (by omega)
  have hbytes := h.body
  rw [chunkedBody, List.append_assoc] at hbytes
  rw [chunkedBody, List.length_append] at hlen
  exact gather_chunks hbytes (by omega) hqueue hnat

/-- The call returns 0 with the page done: a record for every chunk, and as the page their data. -/
def Decodes (client : HttpClient) (texts : List ChunkText) : Prop :=
  ∃ client' mc html, httpParseHtml inflateGzip client = some (0, client') ∧
    client'.status = .htmlDone ∧ client'.html = some mc ∧ mc.chunkQueue.length = texts.length ∧
    mc.html = some html ∧ html.bytes = chunkedData texts ∧ html.last = (chunkedData texts).length

theorem chunkRecords_length (pos : Nat) (texts : List ChunkText) :
    (chunkRecords pos texts).length = texts.length := by
  induction texts generalizing pos with
  | nil => rfl
  | cons t texts ih => rw [chunkRecords, List.length_cons, List.length_cons, ih]

/-- A chunked body is read back as it was written when its end in `recv` lies below 4 GiB. -/
theorem decodes_of_fits (h : AtBody client hc b (chunkedBody texts ++ more))
    (hchunk : hc.chunkFlag = true) (hgzip : hc.gzipFlag = false)
    (hlen : b.pos + (chunkedBody texts).length < 2 ^ 32) : Decodes inflateGzip client texts := by
  obtain ⟨mc, pos, hqueue, hsum, hcall⟩ := h.chunkedCall inflateGzip hchunk (chunk_fits (by omega))
  have hgather := gather_records h hlen hqueue hsum
  have hnat := chunkSum_toNat hsum (by omega)
  rw [hgather, Option.map_some] at hcall
  simp only [htmlCopy, hgzip, Bool.false_eq_true, if_false] at hcall
  refine ⟨_, _, _, hcall, rfl, rfl, ?_, rfl, ?_, ?_⟩
  · rw [hqueue, chunkRecords_length]
  · exact List.take_of_length_le (Nat.le_of_eq hnat.symm)
  · rw [HttpBuf.last, List.take_of_length_le (Nat.le_of_eq hnat.symm)]
    rfl

end

/-! ## Chunks in several spellings, and a head of 4 GiB -/

/-- A chunk of one byte. -/
def oneByteText : ChunkText where
  lead := []
  digits := [49]
  trail := []
  data := [120]
  lead_blank := by simp
  digits_hex := by simp [isHexDigit]
  trail_blank := by simp
  number := rfl
  data_ne := List.cons_ne_nil _ _

/-- The body of one byte, chunked, after a head of four bytes. -/
def chunkedRecv : HttpBuf where
  bytes := lit "\r\n\r\n" ++ chunkedBody [oneByteText]
  cap := baseRange
  pos := 4

theorem chunkedRecv_atBody :
    AtBody { chunkedClient with recv := some chunkedRecv } { status := .headDone, chunkFlag := true }
      chunkedRecv (chunkedBody [oneByteText] ++ []) :=
  ⟨rfl, rfl, rfl, by decide, rfl⟩

/-- Ten bytes, their length with a leading zero and in upper case, between blanks. -/
def upperText : ChunkText where
  lead := lit " "
  digits := lit "0A"
  trail := lit " \t"
  data := lit "0123456789"
  lead_blank := forall_mem_of_all (by decide)
  digits_hex := forall_mem_of_all (by decide)
  trail_blank := forall_mem_of_all (by decide)
  number := by decide
  data_ne := by decide

/-- Sixteen bytes, CR LF among them, their length in two digits. -/
def longerText : ChunkText where
  lead := []
  digits := lit "10"
  trail := []
  data := lit "<p>\r\n\r\n0\r\n\r\n</p>"
  lead_blank := forall_mem_of_all (by decide)
  digits_hex := forall_mem_of_all (by decide)
  trail_blank := forall_mem_of_all (by decide)
  number := by decide
  data_ne := by decide

/-- Twelve bytes, their length in lower case. -/
def lowerText : ChunkText where
  lead := lit "\t"
  digits := lit "c"
  trail := []
  data := lit "ccccccCCCCCC"
  lead_blank := forall_mem_of_all (by decide)
  digits_hex := forall_mem_of_all (by decide)
  trail_blank := forall_mem_of_all (by decide)
  number := by decide
  data_ne := by decide

/-- Chunks whose lengths are written in different ways. -/
def mixedTexts : List ChunkText := [upperText, oneByteText, longerText, lowerText]

/-- They have come behind a head of four bytes, with the beginning of something else behind them. -/
def mixedRecv : HttpBuf where
  bytes := lit "\r\n\r\n" ++ (chunkedBody mixedTexts ++ lit "HTTP")
  cap := baseRange
  pos := 4

theorem decodes_of_fits_mixed :
    Decodes (fun _ dest => (0, dest)) { chunkedClient with recv := some mixedRecv } mixedTexts := by
  have hbody : AtBody { chunkedClient with recv := some mixedRecv }
      { status := .headDone, chunkFlag := true } mixedRecv (chunkedBody mixedTexts ++ lit "HTTP") :=
    ⟨rfl, rfl, rfl, by decide, rfl⟩
  exact decodes_of_fits _ hbody rfl rfl (by decide)

/-- A head with so many fields that the body begins 4 GiB after the start of `recv`. -/
def longHead : List UInt8 :=
  lit "HTTP/1.1 200 OK\r\nTransfer-Encoding: chunked\r\n" ++
    ((List.replicate 858993449 (lit "a:b\r\n")).flatten ++ lit "c:\r\n\r\n")

theorem longHead_length : longHead.length = 2 ^ 32 := by
  have hstatus : (lit "HTTP/1.1 200 OK\r\nTransfer-Encoding: chunked\r\n").length = 45 := rfl
  have hfield : (lit "a:b\r\n").length = 5 := rfl
  have hend : (lit "c:\r\n\r\n").length = 6 := rfl
  rw [longHead, List.length_append, List.length_append, List.length_flatten, List.map_replicate,
    List.sum_replicate_nat, hstatus, hfield, hend]
  rfl

/-- The head and a body of one chunk in `recv`. -/
def longRecv : HttpBuf where
  bytes := longHead ++ chunkedBody [oneByteText]
  cap := 2 ^ 32 + baseRange
  pos := 2 ^ 32

/-- A client that has parsed the head. -/
def longClient : HttpClient := { chunkedClient with recv := some longRecv }

theorem longClient_atBody :
    AtBody longClient { status := .headDone, chunkFlag := true } longRecv
      (chunkedBody [oneByteText] ++ []) where
  recv := rfl
  head := rfl
  html := rfl
  pos := by
    show 2 ^ 32 ≤ (longHead ++ chunkedBody [oneByteText]).length
    rw [List.length_append, longHead_length]
    exact Nat.le_add_right _ _
  body := by
    show (longHead ++ chunkedBody [oneByteText]).drop (2 ^ 32) = _
    rw [← longHead_length, List.drop_left, List.append_nil]

/-- The offset of the chunk is cut to 32 bits: a byte of the status line is copied. -/
theorem chunkSlice_longRecv : chunkSlice longRecv (oneByteText.record (2 ^ 32)) = some [80] := by
  have hvalue : (oneByteText.record (2 ^ 32)).value.toNat = 3 := rfl
  have hvalueLen : (oneByteText.record (2 ^ 32)).valueLen.toNat = 1 := rfl
  have hfits : 3 + 1 ≤ longRecv.bytes.length := by
    show 4 ≤ (longHead ++ chunkedBody [oneByteText]).length
    rw [List.length_append, longHead_length]
    omega
  have hslice : longRecv.slice 3 1 = [80] := by
    show ((longHead ++ chunkedBody [oneByteText]).drop 3).take 1 = [80]
    rw [longHead, List.append_assoc]
    rfl
  rw [chunkSlice, hvalue, hvalueLen, if_pos hfits, hslice]

/-- Behind a head of 4 GiB a chunk is not read back as it was written. -/
theorem longClient_not_decodes :
    AtBody longClient { status := .headDone, chunkFlag := true } longRecv
      (chunkedBody [oneByteText] ++ []) ∧
    (chunkedBody [oneByteText]).length < 2 ^ 31 ∧
    ¬ Decodes (fun _ dest => (0, dest)) longClient [oneByteText] := by
  refine ⟨longClient_atBody, by decide, ?_⟩
  rintro ⟨client', mc', html, hcall', -, hmc, -, hhtml, hbytes, -⟩
  obtain ⟨mc, pos, hqueue, hsum, hcall⟩ := longClient_atBody.chunkedCall (fun _ dest => (0, dest)) rfl
    (chunk_fits (by decide))
  have hrecords : chunkRecords longRecv.pos [oneByteText] = [oneByteText.record (2 ^ 32)] := rfl
  have hgather : gather longRecv mc = some { bytes := [80], cap := 1, excess := 1 } := by
    rw [gather, hqueue, hrecords, List.mapM_cons, chunkSlice_longRecv, hsum]
    rfl
  have hnat : mc.chunkSum.toNat = 1 := by
    rw [hsum]
    rfl
  rw [hgather, hcall', Option.map_some, Option.some.injEq] at hcall
  simp only [htmlCopy, Bool.false_eq_true, if_false, hnat, Prod.mk.injEq, true_and] at hcall
  subst hcall
  cases hmc
  cases hhtml
  cases hbytes

/-! ## The two framings -/

/-- The call hands over `body`: `chunk_sum` is its length, and `chunks` holds it and ends right after
it, within the allocation. -/
def Payload (body : List UInt8) (r : Option (Int × HttpClient)) : Prop :=
  ∃ rc client mc chunks, r = some (rc, client) ∧ client.html = some mc ∧ mc.chunks = some chunks ∧
    mc.chunkSum.toNat = body.length ∧ chunks.bytes = body ∧ chunks.last = body.length ∧
    chunks.last ≤ chunks.cap

section

variable (inflateGzip : HttpBuf → HttpBuf → Int × HttpBuf) {client known : HttpClient}
  {hc hc' : HeadCache} {b b' : HttpBuf} {texts : List ChunkText} {body more more' : List UInt8}

/-- Both framings of a body hand it over. -/
def FramingsAgree (client known : HttpClient) (body : List UInt8) : Prop :=
  Payload body (httpParseHtml inflateGzip client) ∧ Payload body (httpParseHtml inflateGzip known)

/-- Delivering the page leaves the payload as it is. -/
theorem htmlCopy_chunks (client : HttpClient) (hc : HeadCache) {mc : HtmlCache} {chunks : HttpBuf}
    (hchunks : mc.chunks = some chunks) :
    ∃ rc client' mc', htmlCopy inflateGzip client hc mc = (rc, client') ∧ client'.html = some mc' ∧
      mc'.chunks = some chunks ∧ mc'.chunkSum = mc.chunkSum := by
  rw [htmlCopy, hchunks]
  simp only
  split_ifs
  all_goals exact ⟨_, _, _, rfl, rfl, rfl, rfl⟩

/-- A body of known length is handed over as it is. -/
theorem known_payload (h : AtBody known hc' b' (body ++ more')) (hchunk : hc'.chunkFlag = false)
    (hlen : hc'.contentLen.toNat = body.length) (hne : body ≠ []) :
    Payload body (httpParseHtml inflateGzip known) := by
  have hpositive : hc'.contentLen ≠ 0 := by
    intro hzero
    rw [hzero] at hlen
    exact hne (List.length_eq_zero_iff.mp hlen.symm)
  have hleft : b'.bytes.length - b'.pos = (body ++ more').length := by
    rw [← h.body, List.length_drop]
  have henough : hc'.contentLen.toNat ≤ b'.bytes.length - b'.pos := by
    rw [hleft, hlen, List.length_append]
    exact Nat.le_add_right _ _
  have hslice : b'.slice b'.pos hc'.contentLen.toNat = body := by
    rw [HttpBuf.slice, h.body, hlen, List.take_left]
  let mc : HtmlCache := { known.htmlCache b' with
    chunks := some { bytes := body, cap := hc'.contentLen.toNat }
    chunkSum := hc'.contentLen }
  have hmcChunks : mc.chunks = some { bytes := body, cap := hc'.contentLen.toNat } := rfl
  obtain ⟨rc, client', mc', hcopy, hmc, hchunks, hsum⟩ :=
    htmlCopy_chunks inflateGzip known hc' hmcChunks
  refine ⟨rc, client', mc', _, ?_, hmc, hchunks, ?_, rfl, rfl, ?_⟩
  · rw [httpParseHtml, h.recv, h.head]
    simp only [Option.bind_eq_bind, Option.bind_some, hchunk, Bool.false_eq_true, if_false,
      if_pos (And.intro hpositive henough), hslice]
    exact congrArg some hcopy
  · rw [hsum, hlen]
  · exact Nat.le_of_eq hlen.symm

/-- The buffer that chunks are copied into ends a byte further than the copy. -/
theorem gather_last {mc : HtmlCache} {chunks : HttpBuf} (h : gather b mc = some chunks) :
    chunks.last = chunks.bytes.length + 1 := by
  obtain ⟨slices, -, hcopy⟩ := Option.bind_eq_some_iff.mp h
  split_ifs at hcopy
  cases hcopy
  rfl

/-- A chunked body is never handed over as it is. -/
theorem chunked_not_payload (h : AtBody client hc b (chunkedBody texts ++ more))
    (hchunk : hc.chunkFlag = true) (hlen : ∀ t ∈ texts, t.data.length + 2 < 2 ^ 32) :
    ¬ Payload body (httpParseHtml inflateGzip client) := by
  rintro ⟨rc, client', mc', chunks', hcall', hmc', hchunks', -, hbytes, hlast, -⟩
  obtain ⟨mc, pos, -, -, hcall⟩ := h.chunkedCall inflateGzip hchunk hlen
  rw [hcall'] at hcall
  obtain ⟨chunks, hgather, hcopied⟩ := Option.map_eq_some_iff.mp hcall.symm
  have hmcChunks : ({ mc with chunks := some chunks } : HtmlCache).chunks = some chunks := rfl
  obtain ⟨rc₀, client₀, mc₀, hcopy, hmc₀, hchunks₀, -⟩ :=
    htmlCopy_chunks inflateGzip { client with recv := some { b with pos := pos } } hc hmcChunks
  rw [hcopy] at hcopied
  cases hcopied
  cases hmc'.symm.trans hmc₀
  cases hchunks'.symm.trans hchunks₀
  have hexcess := gather_last hgather
  rw [hlast, hbytes] at hexcess
  omega

/-- The two framings of a body never agree. The one of known length hands the body over as it is;
after the chunked one the buffer ends a byte beyond its allocation. -/
theorem framings_differ (h : AtBody client hc b (chunkedBody texts ++ more))
    (hchunk : hc.chunkFlag = true) (h' : AtBody known hc' b' (chunkedData texts ++ more'))
    (hchunk' : hc'.chunkFlag = false) (hlen' : hc'.contentLen.toNat = (chunkedData texts).length)
    (hne : chunkedData texts ≠ []) (hlen : (chunkedData texts).length < 2 ^ 31) :
    Payload (chunkedData texts) (httpParseHtml inflateGzip known) ∧
      ¬ FramingsAgree inflateGzip client known (chunkedData texts) := by
  have hfits : ∀ t ∈ texts, t.data.length + 2 < 2 ^ 32 := by
    intro t hm
    have hle : t.data.length ≤ (chunkedData texts).length :=
      (List.sublist_flatten_of_mem (List.mem_map_of_mem hm)).length_le
    omega
  exact ⟨known_payload inflateGzip h' hchunk' hlen' hne,
    fun hagree => chunked_not_payload inflateGzip h hchunk hfits hagree.1⟩

end

/-- The same body, of known length. -/
def knownRecv : HttpBuf where
  bytes := lit "\r\n\r\nx"
  cap := baseRange
  pos := 4

/-- The head of a page of one byte. -/
def knownHead : HeadCache := { status := .headDone, contentLen := 1 }

theorem knownRecv_atBody :
    AtBody { chunkedClient with recv := some knownRecv, head := some knownHead } knownHead knownRecv
      (chunkedData [oneByteText] ++ []) :=
  ⟨rfl, rfl, rfl, by decide, rfl⟩

theorem framings_differ_oneByte :
    Payload [120] (httpParseHtml (fun _ dest => (0, dest))
      { chunkedClient with recv := some knownRecv, head := some knownHead }) ∧
    ¬ FramingsAgree (fun _ dest => (0, dest)) { chunkedClient with recv := some chunkedRecv }
      { chunkedClient with recv := some knownRecv, head := some knownHead } [120] :=
  framings_differ _ chunkedRecv_atBody rfl knownRecv_atBody rfl rfl (by decide) (by decide)

/-- Chunked, the page of one byte is handed over as one of two. -/
theorem oneByte_framings_differ :
    ¬ FramingsAgree (fun _ dest => (0, dest)) { chunkedClient with recv := some chunkedRecv }
      { chunkedClient with recv := some knownRecv, head := some knownHead } (lit "x") := by
  rintro ⟨⟨rc, client, mc, chunks, hcall, hmc, hchunks, -, -, hlast, -⟩, -⟩
  cases hcall
  cases hmc
  cases hchunks
  cases hlast

end Crawler.Http
