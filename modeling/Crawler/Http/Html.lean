/-
# Crawler.Http.Html — the body parser

`http_parse_html` of `http_client.c`, with its two nested loops: the inner one reads a chunk-size line
a byte at a time, the outer one records the chunk and jumps over it. `chunk_len` is a local of the
call, set to 0 whenever a size line is begun or resumed.

Above the code stands a scanner that reads the body byte by byte and never forgets what it has read of
a size line (`bodyByte`). A call of the code is one run of that scanner from the state the call finds,
with `chunkLen` set to 0 (`chunkLoop_eq`).
-/
import Crawler.Http.Client
import Crawler.Lib.Scan

namespace Crawler.Http

open Crawler.Lib

/-! ## The size line -/

/-- The state of the inner loop. -/
structure SizeState where
  status : HtmlStatus
  chunkLen : UInt32
  pos : Nat
  deriving DecidableEq, Repr

/-- The ways out of the inner loop other than its end: `return -1`, and `goto loop`. -/
inductive SizeStop where
  | error (s : SizeState)
  | loop (s : SizeState)
  deriving DecidableEq, Repr

/-- What a byte of a size line adds to `chunk_len`; one that is no digit is logged and adds nothing. -/
def hexDigit (c : UInt8) : UInt32 :=
  if 48 ≤ c ∧ c ≤ 57 then c.toUInt32 - 48
  else if 65 ≤ c ∧ c ≤ 70 then c.toUInt32 - 65 + 10
  else if 97 ≤ c ∧ c ≤ 102 then c.toUInt32 - 97 + 10
  else 0

/-- One turn of the inner loop. -/
def sizeByte (s : SizeState) (c : UInt8) : Scan SizeState SizeStop :=
  let s := { s with pos := s.pos + 1 }
  if c = 32 ∨ c = 9 then .more s
  else if c = 13 then
    match s.status with
    | .lenDone => .more { s with status := .lenHalf }
    | .lenHalf => .stop (.error s)
  else if c = 10 then
    match s.status with
    | .lenHalf => .stop (.loop { s with status := .lenDone })
    | .lenDone => .more s
  else .more { s with chunkLen := (s.chunkLen <<< 4) + hexDigit c }

/-! ## The loop over the chunks -/

/-- The record after the size line of a chunk that begins at `pos`. -/
def HtmlCache.chunk (mc : HtmlCache) (pos : Nat) (chunkLen : UInt32) : HtmlCache :=
  { mc with
    chunkQueue := mc.chunkQueue ++ [{ value := UInt32.ofNat pos, valueLen := chunkLen }]
    start := UInt32.ofNat (pos + (chunkLen + 2).toNat)
    chunkSum := mc.chunkSum + chunkLen }

/-- The bytes of a recorded chunk; `none` where they reach beyond what has been received. -/
def chunkSlice (b : HttpBuf) (kv : KeyValue) : Option (List UInt8) :=
  if kv.value.toNat + kv.valueLen.toNat ≤ b.bytes.length then
    some (b.slice kv.value.toNat kv.valueLen.toNat)
  else none

/-- The chunks copied one after another into a buffer of `chunk_sum` bytes; `none` where they overrun
it. `chunks->last = p + 1`: it is set one byte further than the copy went. -/
def gather (b : HttpBuf) (mc : HtmlCache) : Option HttpBuf := do
  let slices ← mc.chunkQueue.mapM (chunkSlice b)
  if slices.flatten.length ≤ mc.chunkSum.toNat then
    some { bytes := slices.flatten, cap := mc.chunkSum.toNat, excess := 1 }
  else none

/-- How the outer loop is left: by a `return`, or by its end or a `break`. -/
inductive ChunkEnd where
  | ret (rc : Int) (mc : HtmlCache) (pos : Nat)
  | out (mc : HtmlCache) (pos : Nat)
  deriving DecidableEq, Repr

/-- The outer loop. Every turn reads a byte at least, so that as many turns as there are bytes are
enough (`chunkLoop_eq`). -/
def chunkLoop (b : HttpBuf) : Nat → HtmlCache → Nat → Option ChunkEnd
  | 0, mc, pos => some (.out mc pos)
  | turns + 1, mc, pos =>
      if pos < b.bytes.length then
        let s : SizeState := { status := mc.status, chunkLen := 0, pos := pos }
        match scan sizeByte s (b.bytes.drop pos) with
        | .more s => some (.ret 0 { mc with status := s.status } s.pos)
        | .stop (.error s) => some (.ret (-1) { mc with status := s.status } s.pos)
        | .stop (.loop s) =>
            let mc := { mc with status := s.status }
            if s.chunkLen = 0 then
              (gather b mc).map fun chunks => .out { mc with chunks := some chunks } s.pos
            else
              -- `chunk_len + 2` is computed in 32 bits
              chunkLoop b turns (mc.chunk s.pos s.chunkLen) (s.pos + (s.chunkLen + 2).toNat)
      else some (.out mc pos)

/-! ## `http_parse_html` -/

section

-- `inflate_gzip(source, dest, 47)`: its return value and the buffer it leaves in `dest`
variable (inflateGzip : HttpBuf → HttpBuf → Int × HttpBuf)

/-- The end of `http_parse_html`: nothing yet, or the page is copied or inflated from `chunks`. -/
def htmlCopy (client : HttpClient) (hc : HeadCache) (mc : HtmlCache) : Int × HttpClient :=
  match mc.chunks with
  | none => (0, { client with html := some mc })
  | some chunks =>
      if hc.gzipFlag then
        let (rc, dest) := inflateGzip chunks { cap := baseRange }
        let client := { client with html := some { mc with html := some dest } }
        if rc ≠ 0 then (-1, client) else (0, { client with status := .htmlDone })
      else
        let n := mc.chunkSum.toNat
        let dest : HttpBuf := { bytes := chunks.bytes.take n, cap := n }
        (0, { client with status := .htmlDone, html := some { mc with html := some dest } })

/-- What a call makes of the outer loop's end. -/
def chunkEnd (client : HttpClient) (b : HttpBuf) (hc : HeadCache) : ChunkEnd → Int × HttpClient
  | .ret rc mc pos => (rc, { client with recv := some { b with pos := pos }, html := some mc })
  | .out mc pos => htmlCopy inflateGzip { client with recv := some { b with pos := pos } } hc mc

/-- `client->html`, allocated at the first call. -/
def HttpClient.htmlCache (client : HttpClient) (b : HttpBuf) : HtmlCache :=
  client.html.getD { htmlStart := UInt32.ofNat b.pos }

/-- `http_parse_html(client)`, `calloc` succeeding: its return value and the client it leaves; `none`
where a copy reaches beyond the received bytes or overruns its buffer. -/
def httpParseHtml (client : HttpClient) : Option (Int × HttpClient) := do
  let b ← client.recv
  let hc ← client.head
  let mc := client.htmlCache b
  if hc.chunkFlag then
    (chunkLoop b b.bytes.length mc b.pos).map (chunkEnd inflateGzip client b hc)
  else if hc.contentLen ≠ 0 ∧ hc.contentLen.toNat ≤ b.bytes.length - b.pos then
    let n := hc.contentLen.toNat
    let chunks : HttpBuf := { bytes := b.slice b.pos n, cap := n }
    return htmlCopy inflateGzip client hc { mc with chunks := some chunks, chunkSum := hc.contentLen }
  else return htmlCopy inflateGzip client hc mc

end

/-! ## The body byte by byte -/

/-- The state of the scanner: the record, the value of the size line so far, the bytes of the current
chunk still to be skipped, and the number of bytes of `recv` read. -/
structure BodyState where
  mc : HtmlCache
  chunkLen : UInt32
  skip : Nat
  read : Nat
  deriving DecidableEq, Repr

/-- Where the scanner stops: at a stray CR, or after the size line of the last chunk. -/
inductive BodyStop where
  | error (mc : HtmlCache) (pos : Nat)
  | finished (mc : HtmlCache) (pos : Nat)
  deriving DecidableEq, Repr

/-- The scanner at the end of a size line. -/
def bodyLine (mc : HtmlCache) (t : SizeState) : Scan BodyState BodyStop :=
  let mc := { mc with status := t.status }
  if t.chunkLen = 0 then .stop (.finished mc t.pos)
  else .more {
    mc := mc.chunk t.pos t.chunkLen
    chunkLen := 0
    skip := (t.chunkLen + 2).toNat
    read := t.pos }

/-- One byte of the body. -/
def bodyByte (s : BodyState) (c : UInt8) : Scan BodyState BodyStop :=
  if s.skip ≠ 0 then .more { s with skip := s.skip - 1, read := s.read + 1 }
  else
    match sizeByte { status := s.mc.status, chunkLen := s.chunkLen, pos := s.read } c with
    | .more t => .more { s with
        mc := { s.mc with status := t.status }
        chunkLen := t.chunkLen
        read := t.pos }
    | .stop (.error t) => .stop (.error { s.mc with status := t.status } t.pos)
    | .stop (.loop t) => bodyLine s.mc t

/-! ## A call is a run of the scanner -/

/-- Skipping, as far as there are bytes. -/
theorem scan_skip (mc : HtmlCache) (k read : Nat) (bytes : List UInt8) :
    scan bodyByte { mc := mc, chunkLen := 0, skip := k, read := read } bytes =
      scan bodyByte { mc := mc, chunkLen := 0, skip := k - bytes.length,
                      read := read + min k bytes.length } (bytes.drop k) := by
  induction bytes generalizing k read with
  | nil => rw [List.length_nil, Nat.sub_zero, Nat.min_zero, List.drop_nil, Nat.add_zero]
  | cons c bytes ih =>
      cases k with
      | zero => rw [Nat.zero_sub, Nat.zero_min, Nat.add_zero, List.drop_zero]
      | succ k =>
          have hstep : bodyByte { mc := mc, chunkLen := 0, skip := k + 1, read := read } c =
              .more { mc := mc, chunkLen := 0, skip := k, read := read + 1 } := if_pos k.succ_ne_zero
          rw [scan, hstep, Scan.more_bind, ih, List.length_cons, Nat.add_sub_add_right,
            Nat.add_min_add_right, List.drop_succ_cons, Nat.add_assoc, Nat.add_comm 1]

/-- Whatever a byte of a size line does, it is one byte. -/
theorem sizeByte_pos (s : SizeState) (c : UInt8) :
    (∀ t, sizeByte s c = .more t → t.pos = s.pos + 1) ∧
      ∀ t, sizeByte s c = .stop (.loop t) → t.pos = s.pos + 1 := by
  unfold sizeByte
  simp only
  split_ifs
  case pos => exact ⟨by rintro t ⟨⟩; rfl, fun t ht => by cases ht⟩
  case pos =>
    cases s.status
    · exact ⟨by rintro t ⟨⟩; rfl, fun t ht => by cases ht⟩
    · exact ⟨fun t ht => (by cases ht), fun t ht => by cases ht⟩
  case pos =>
    cases s.status
    · exact ⟨by rintro t ⟨⟩; rfl, fun t ht => by cases ht⟩
    · exact ⟨fun t ht => (by cases ht), by rintro t ⟨⟩; rfl⟩
  case neg => exact ⟨by rintro t ⟨⟩; rfl, fun t ht => by cases ht⟩

/-- The size line ends after its first byte and within the bytes. -/
theorem scan_size_pos {s t : SizeState} {bytes : List UInt8}
    (h : scan sizeByte s bytes = .stop (.loop t)) : s.pos < t.pos ∧ t.pos ≤ s.pos + bytes.length := by
  induction bytes generalizing s with
  | nil => cases h
  | cons c bytes ih =>
      rw [scan] at h
      rw [List.length_cons]
      cases hstep : sizeByte s c with
      | more s' =>
          rw [hstep] at h
          have hpos := (sizeByte_pos s c).1 s' hstep
          have hrest := ih h
          omega
      | stop r =>
          rw [hstep] at h
          cases h
          have hpos := (sizeByte_pos s c).2 t hstep
          omega

/-- Outside the data of a chunk the scanner reads a size line. -/
theorem scan_line (mc : HtmlCache) (v : UInt32) (read : Nat) (bytes : List UInt8) :
    scan bodyByte { mc := mc, chunkLen := v, skip := 0, read := read } bytes =
      match scan sizeByte { status := mc.status, chunkLen := v, pos := read } bytes with
      | .more t => .more {
          mc := { mc with status := t.status }, chunkLen := t.chunkLen, skip := 0, read := t.pos }
      | .stop (.error t) => .stop (.error { mc with status := t.status } t.pos)
      | .stop (.loop t) =>
          (bodyLine mc t).bind fun s => scan bodyByte s (bytes.drop (t.pos - read)) := by
  induction bytes generalizing mc v read with
  | nil => rfl
  | cons c bytes ih =>
      rw [scan, scan]
      have hbody : bodyByte { mc := mc, chunkLen := v, skip := 0, read := read } c =
          match sizeByte { status := mc.status, chunkLen := v, pos := read } c with
          | .more t => .more {
              mc := { mc with status := t.status }, chunkLen := t.chunkLen, skip := 0, read := t.pos }
          | .stop (.error t) => .stop (.error { mc with status := t.status } t.pos)
          | .stop (.loop t) => bodyLine mc t := if_neg fun h => h rfl
      rw [hbody]
      rcases hstep : sizeByte { status := mc.status, chunkLen := v, pos := read } c with t | t | t
      · have hpos : t.pos = read + 1 := (sizeByte_pos _ c).1 t hstep
        simp only [Scan.more_bind]
        rw [ih]
        rcases hscan : scan sizeByte t bytes with t' | t' | t'
        · rfl
        · rfl
        · have hlt := (scan_size_pos hscan).1
          simp only
          rw [show t'.pos - read = (t'.pos - t.pos) + 1 by omega, List.drop_succ_cons]
          rfl
      · rfl
      · have hpos : t.pos = read + 1 := (sizeByte_pos _ c).2 t hstep
        simp only [Scan.stop_bind]
        rw [hpos, Nat.add_sub_cancel_left, List.drop_succ_cons, List.drop_zero]

/-- Going on, the scanner has read one byte more and made no buffer. -/
theorem bodyByte_more {s t : BodyState} {c : UInt8} (h : bodyByte s c = .more t) :
    t.read = s.read + 1 ∧ t.mc.chunks = s.mc.chunks := by
  unfold bodyByte at h
  split at h
  · cases h
    exact ⟨rfl, rfl⟩
  · split at h
    case h_1 t' hsize =>
      cases h
      exact ⟨(sizeByte_pos _ c).1 t' hsize, rfl⟩
    case h_2 => cases h
    case h_3 t' hsize =>
      have hpos := (sizeByte_pos _ c).2 t' hsize
      unfold bodyLine at h
      split_ifs at h
      cases h
      exact ⟨hpos, rfl⟩

theorem scan_more {s t : BodyState} {bytes : List UInt8} (h : scan bodyByte s bytes = .more t) :
    t.read = s.read + bytes.length ∧ t.mc.chunks = s.mc.chunks := by
  induction bytes generalizing s with
  | nil =>
      cases h
      exact ⟨rfl, rfl⟩
  | cons c bytes ih =>
      rw [scan] at h
      cases hstep : bodyByte s c with
      | more s' =>
          rw [hstep] at h
          obtain ⟨hread, hchunks⟩ := bodyByte_more hstep
          obtain ⟨hread', hchunks'⟩ := ih h
          rw [List.length_cons]
          exact ⟨by omega, hchunks'.trans hchunks⟩
      | stop r =>
          rw [hstep] at h
          cases h

section

variable (inflateGzip : HttpBuf → HttpBuf → Int × HttpBuf) (client : HttpClient) (b : HttpBuf)
  (hc : HeadCache)

/-- What a call makes of the scanner's end. -/
def bodyEnd : Scan BodyState BodyStop → Option (Int × HttpClient)
  | .more s =>
      some (0, { client with recv := some { b with pos := s.read + s.skip }, html := some s.mc })
  | .stop (.error mc pos) =>
      some (-1, { client with recv := some { b with pos := pos }, html := some mc })
  | .stop (.finished mc pos) =>
      (gather b mc).map fun chunks =>
        htmlCopy inflateGzip { client with recv := some { b with pos := pos } } hc
          { mc with chunks := some chunks }

/-- The outer loop and the scanner where nothing but a part of a chunk has come. -/
theorem chunkLoop_beyond (turns : Nat) {mc : HtmlCache} {n pos : Nat} (hmc : mc.chunks = none)
    (hn : n ≤ b.bytes.length) (hpos : b.bytes.length ≤ pos) :
    (chunkLoop b turns mc pos).map (chunkEnd inflateGzip client b hc) =
      bodyEnd inflateGzip client b hc
        (scan bodyByte { mc := mc, chunkLen := 0, skip := pos - n, read := n } (b.bytes.drop n)) := by
  have hout : chunkLoop b turns mc pos = some (.out mc pos) := by
    cases turns with
    | zero => rfl
    | succ turns => rw [chunkLoop, if_neg (by omega)]
  have hend : b.bytes.length + (pos - n - (b.bytes.length - n)) = pos := by omega
  rw [scan_skip, List.length_drop, List.drop_drop, Nat.add_sub_cancel' (Nat.le_trans hn hpos), hout,
    List.drop_eq_nil_of_le hpos, Nat.min_eq_right (by omega), Nat.add_sub_cancel' hn, Option.map_some,
    chunkEnd, htmlCopy, hmc, scan, bodyEnd, hend]

/-- The outer loop, begun at `pos` when `n` bytes have been read, is the scanner on the others. -/
theorem chunkLoop_eq {turns : Nat} {mc : HtmlCache} {n pos : Nat} (hmc : mc.chunks = none)
    (hn : n ≤ b.bytes.length) (hpos : n ≤ pos) (hturns : b.bytes.length - n ≤ turns) :
    (chunkLoop b turns mc pos).map (chunkEnd inflateGzip client b hc) =
      bodyEnd inflateGzip client b hc
        (scan bodyByte { mc := mc, chunkLen := 0, skip := pos - n, read := n } (b.bytes.drop n)) := by
  induction turns generalizing mc n pos with
  | zero => exact chunkLoop_beyond inflateGzip client b hc 0 hmc hn (by omega)
  | succ turns ih =>
      by_cases hlt : pos < b.bytes.length
      · rw [scan_skip, List.length_drop, List.drop_drop, Nat.add_sub_cancel' hpos,
          Nat.min_eq_left (by omega), Nat.add_sub_cancel' hpos,
          Nat.sub_eq_zero_of_le (by omega : pos - n ≤ b.bytes.length - n), scan_line, chunkLoop,
          if_pos hlt]
        simp only
        rcases hscan : scan sizeByte ⟨mc.status, 0, pos⟩ (b.bytes.drop pos) with t | t | t
        · rfl
        · rfl
        · have hread := scan_size_pos hscan
          rw [List.length_drop] at hread
          simp only at hread ⊢
          rw [bodyLine]
          split_ifs
          · rw [Option.map_map]
            rfl
          · have hnext := @ih ({ mc with status := t.status }.chunk t.pos t.chunkLen) t.pos
              (t.pos + (t.chunkLen + 2).toNat) hmc (by omega) (by omega) (by omega)
            rw [hnext, List.drop_drop, Nat.add_sub_cancel' (by omega : pos ≤ t.pos),
              Nat.add_sub_cancel_left]
            rfl
      · exact chunkLoop_beyond inflateGzip client b hc _ hmc hn (Nat.le_of_not_lt hlt)

end

end Crawler.Http
