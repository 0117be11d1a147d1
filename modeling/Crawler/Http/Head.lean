/-
# Crawler.Http.Head — the head parser, one byte at a time

`http_parse_head` of `http_client.c`. The loop is a scanner over the unread bytes; between two calls
it keeps everything in the head's record but the local `kv`, which is NULL again at the next call and
is then recovered from the tail of the queue.
-/
import Crawler.Http.Client
import Crawler.Lib.Scan
import Mathlib.Algebra.Group.Int.Defs
import Mathlib.Algebra.Group.Nat.Defs

namespace Crawler.Http

open Crawler.Lib

/-! ## The loop -/

/-- The state of the loop. `kv` is the local pointer: an index into `hc.kvQueue`, or `none`. -/
structure HeadState where
  hc : HeadCache
  vsr : HttpVsr
  kv : Option Nat
  pos : Nat
  deriving DecidableEq, Repr

/-- The ways out of the loop other than its end: `return -1`, and `goto parsed`. -/
inductive HeadStop where
  | error (s : HeadState)
  | parsed (s : HeadState)
  deriving DecidableEq, Repr

/-- The length `(b->pos - 1 - b->start) - hc->start`, with `pos` as it is after the read. -/
def HeadState.len (s : HeadState) : UInt32 := UInt32.ofNat (s.pos - 1) - s.hc.start

/-- `b->pos - b->start`. -/
def HeadState.here (s : HeadState) : UInt32 := UInt32.ofNat s.pos

/-- `case ' '`. -/
def headSpace (s : HeadState) : Scan HeadState HeadStop :=
  match s.hc.status with
  | .vsrStart => .more { s with
      vsr := { s.vsr with version := s.hc.start, versionLen := s.len }
      hc := { s.hc with status := .vsrVer, start := s.here } }
  | .vsrVer => .more { s with
      vsr := { s.vsr with status := s.hc.start, statusLen := s.len }
      hc := { s.hc with status := .vsrStat, start := s.here } }
  | .keyDone => .more { s with hc := { s.hc with start := s.here } }
  | _ => .more s

/-- `case ':'`. -/
def headColon (s : HeadState) : Scan HeadState HeadStop :=
  if s.hc.status = .lineDone then
    .more { s with
      hc := { s.hc with
        status := .keyDone
        kvQueue := s.hc.kvQueue ++ [{ key := s.hc.start, keyLen := s.len }]
        start := s.here }
      kv := some s.hc.kvQueue.length }
  else .more s

/-- Record the value slice in record `i`. -/
def HeadState.setValue (s : HeadState) (i : Nat) : List KeyValue :=
  s.hc.kvQueue.modify i fun kv => { kv with value := s.hc.start, valueLen := s.len }

/-- `case '\r'`. -/
def headCr (s : HeadState) : Scan HeadState HeadStop :=
  match s.hc.status with
  | .keyDone =>
      if s.kv = none ∧ s.hc.kvQueue = [] then
        .stop (.error { s with hc := { s.hc with status := .lineHalf } })
      else
        let i := s.kv.getD (s.hc.kvQueue.length - 1)
        .more { s with hc := { s.hc with status := .lineHalf, kvQueue := s.setValue i }, kv := none }
  | .lineDone => .more { s with hc := { s.hc with status := .headHalf } }
  | .vsrStat => .more { s with
      vsr := { s.vsr with reason := s.hc.start, reasonLen := s.len }
      hc := { s.hc with status := .vsrReas, start := s.here } }
  | _ => .stop (.error s)

/-- `case '\n'`. -/
def headLf (s : HeadState) : Scan HeadState HeadStop :=
  match s.hc.status with
  | .lineHalf => .more { s with hc := { s.hc with status := .lineDone, start := s.here } }
  | .headHalf => .stop (.parsed { s with hc := { s.hc with status := .headDone } })
  | .vsrReas => .more { s with hc := { s.hc with status := .lineDone, start := s.here } }
  | _ => .stop (.error s)

/-- One turn of the loop. -/
def headByte (s : HeadState) (c : UInt8) : Scan HeadState HeadStop :=
  let s := { s with pos := s.pos + 1 }
  if c = 32 then headSpace s
  else if c = 58 then headColon s
  else if c = 13 then headCr s
  else if c = 10 then headLf s
  else .more s

/-! ## The label `parsed` -/

/-- `isspace` in the C locale. -/
def isspace (c : UInt8) : Bool := c = 32 || (9 ≤ c && c ≤ 13)

/-- `atoi`: `strtol` to base ten, clamped to a `long`, cut to an `int`, and stored in 32 bits. -/
def atoi (s : CStr) : UInt32 :=
  let s := s.dropWhile isspace
  let (neg, s) := match s with
    | 45 :: s => (true, s)
    | 43 :: s => (false, s)
    | s => (false, s)
  let digits := s.takeWhile fun c => 48 ≤ c && c ≤ 57
  let n := digits.foldl (fun n c => n * 10 + (c.toNat - 48)) 0
  let v : Int := if neg then -(min n (2 ^ 63) : Nat) else (min n (2 ^ 63 - 1) : Nat)
  UInt32.ofNat (v % 2 ^ 32).toNat

/-- What stands behind a sign. -/
def behindSign : CStr → CStr
  | 45 :: s => s
  | 43 :: s => s
  | s => s

/-- What stands behind the number that `atoi` reads. -/
def behindNumber (s : CStr) : CStr :=
  (behindSign (s.dropWhile isspace)).dropWhile fun c => 48 ≤ c && c ≤ 57

/-- `atoi` of the string in an array of 1024 bytes. A string that fills the array has no NUL; where its
number has no end either, `atoi` reads on behind the array. -/
def atoiBuf (s : CStr) : Option UInt32 :=
  if s.length < 1024 ∨ behindNumber s ≠ [] then some (atoi s) else none

/-- The bytes up to a NUL. -/
def cstr (bs : List UInt8) : CStr := bs.takeWhile (· ≠ 0)

/-- A slice copied by `strncpy` into a zeroed array of 1024 bytes and read back as a string. A longer
slice is written past the array; one of 1024 bytes fills it and leaves no NUL behind it. -/
def copied (b : HttpBuf) (off len : UInt32) : Option CStr :=
  if len.toNat ≤ 1024 then some (cstr (b.slice off.toNat len.toNat)) else none

/-- What one header field sets; the comparisons end at the first byte that differs, within the array. -/
def headField (b : HttpBuf) (hc : HeadCache) (kv : KeyValue) : Option HeadCache := do
  let key ← copied b kv.key kv.keyLen
  let value ← copied b kv.value kv.valueLen
  let hc ← (if key = lit "Content-Length" then (atoiBuf value).map fun n => { hc with contentLen := n }
    else some hc)
  let hc :=
    if key = lit "Transfer-Encoding" ∧ value = lit "chunked" then { hc with chunkFlag := true } else hc
  let hc :=
    if key = lit "Content-Encoding" ∧ value = lit "gzip" then { hc with gzipFlag := true } else hc
  return hc

/-- The label `parsed`: check the status code, then walk the fields. A code other than 200 is logged, as
the string in its array. -/
def headParsed (b : HttpBuf) (hc : HeadCache) (vsr : HttpVsr) : Option (Int × HeadCache) := do
  let status ← copied b vsr.status vsr.statusLen
  if status ≠ lit "200" then
    if status.length < 1024 then return (-1, hc) else none
  else
    let hc ← hc.kvQueue.foldlM (headField b) hc
    return (0, hc)

/-! ## `http_parse_head` -/

/-- The client with what the loop has left in its records. -/
def HttpClient.leaveHead (client : HttpClient) (b : HttpBuf) (s : HeadState) : HttpClient :=
  { client with
    recv := some { b with pos := s.pos }
    head := some { s.hc with vsr := some s.vsr } }

/-- The loop's state at the start of a call; the records are allocated at the first one, and the
status line's is held apart from the head's. -/
def HttpClient.headState (client : HttpClient) (b : HttpBuf) : HeadState :=
  let hc := client.head.getD {}
  { hc := { hc with vsr := none }, vsr := hc.vsr.getD {}, kv := none, pos := b.pos }

/-- What a call makes of the loop's end; `none` where it writes or reads past one of its arrays. -/
def headEnd (client : HttpClient) (b : HttpBuf) :
    Scan HeadState HeadStop → Option (Int × HttpClient)
  | .more s => some (0, client.leaveHead b s)
  | .stop (.error s) => some (-1, client.leaveHead b s)
  | .stop (.parsed s) => do
      let client := { client.leaveHead b s with status := .headDone }
      let (rc, hc) ← headParsed b { s.hc with vsr := some s.vsr } s.vsr
      return (rc, { client with head := some hc })

/-- `http_parse_head(client)`, `calloc` succeeding: its return value and the client it leaves. -/
def httpParseHead (client : HttpClient) : Option (Int × HttpClient) := do
  let b ← client.recv
  headEnd client b (scan headByte (client.headState b) (b.bytes.drop b.pos))

end Crawler.Http
