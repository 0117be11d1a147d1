/-
# Crawler.Http.Client — the records of `http_client.h` and their buffers

The pointers of an `http_buf_t` are kept as distances from `start`, which is all the code ever takes
from them: `bytes` are the bytes from `start` to `last`, `cap` is `end - start` and `pos` is
`pos - start`. A skip may leave `pos` beyond `last`. Where `last` is set beyond what has been written,
`excess` says how far. The intrusive queues of records are lists here;
the code only inserts at their tail, reads their last member and walks them from the head.
-/
import Crawler.Core

namespace Crawler.Http

/-- `http_buf_t`. -/
structure HttpBuf where
  start : Addr := 0
  bytes : List UInt8 := []
  cap : Nat := 0
  pos : Nat := 0
  excess : Nat := 0
  deriving DecidableEq, Repr

/-- `last - start`. -/
def HttpBuf.last (b : HttpBuf) : Nat := b.bytes.length + b.excess

/-- `BASE_RANGE`. -/
def baseRange : Nat := 4096

/-- `create_temp_buf(size)`, `calloc` succeeding. -/
def createTempBuf (start : Addr) (size : Nat) : HttpBuf := { start := start, cap := size }

/-- `resize_temp_buf(b)`, with `start` the address `realloc` returns. -/
def resizeTempBuf (b : HttpBuf) (start : Addr) : HttpBuf :=
  { b with
    start := start
    cap := if b.cap ≤ 32 * baseRange then b.cap * 2 else b.cap + baseRange }

/-- Append received bytes at `last`. -/
def HttpBuf.append (b : HttpBuf) (bytes : List UInt8) : HttpBuf := { b with bytes := b.bytes ++ bytes }

/-- The bytes of the `n` byte long slice at `off`. -/
def HttpBuf.slice (b : HttpBuf) (off n : Nat) : List UInt8 := (b.bytes.drop off).take n

/-- What follows in the buffer does not change a slice. -/
theorem HttpBuf.slice_of_prefix {b b' : HttpBuf} (h : b.bytes <+: b'.bytes) {off n : Nat}
    (hle : off + n ≤ b.bytes.length) : b'.slice off n = b.slice off n := by
  obtain ⟨more, hmore⟩ := h
  rw [slice, slice, ← hmore, List.drop_append_of_le_length (by omega),
    List.take_append_of_le_length (by rw [List.length_drop]; omega)]

/-- The states of the head parser. -/
inductive HeadStatus where
  | vsrStart
  | vsrVer
  | vsrStat
  | vsrReas
  | lineDone
  | lineHalf
  | keyDone
  | headHalf
  | headDone
  deriving DecidableEq, Repr

/-- `http_vsr_t`: the slices of the status line. -/
structure HttpVsr where
  version : UInt32 := 0
  versionLen : UInt32 := 0
  status : UInt32 := 0
  statusLen : UInt32 := 0
  reason : UInt32 := 0
  reasonLen : UInt32 := 0
  deriving DecidableEq, Repr

/-- `key_value_t`: the slices of a header field, or in `value` those of a chunk. -/
structure KeyValue where
  key : UInt32 := 0
  keyLen : UInt32 := 0
  value : UInt32 := 0
  valueLen : UInt32 := 0
  deriving DecidableEq, Repr

/-- `head_cache_t`. -/
structure HeadCache where
  status : HeadStatus := .vsrStart
  vsr : Option HttpVsr := none
  start : UInt32 := 0
  kvQueue : List KeyValue := []
  contentLen : UInt32 := 0
  gzipFlag : Bool := false
  chunkFlag : Bool := false
  deriving DecidableEq, Repr

/-- The states of a chunk-size line. -/
inductive HtmlStatus where
  | lenDone
  | lenHalf
  deriving DecidableEq, Repr

/-- `html_cache_t`. -/
structure HtmlCache where
  status : HtmlStatus := .lenDone
  htmlStart : UInt32 := 0
  start : UInt32 := 0
  chunkSum : UInt32 := 0
  chunks : Option HttpBuf := none
  chunkQueue : List KeyValue := []
  html : Option HttpBuf := none
  deriving DecidableEq, Repr

/-- How far a client has come. -/
inductive ClientStatus where
  | connDone
  | reqDone
  | headDone
  | htmlDone
  | parseDone
  deriving DecidableEq, Repr

/-- `http_client_t`; a `handler` of `none` is NULL. -/
structure HttpClient where
  status : ClientStatus := .connDone
  url : HttpUrl
  req : Option HttpBuf := none
  recv : Option HttpBuf := none
  head : Option HeadCache := none
  html : Option HtmlCache := none
  handler : Option Addr := none
  deriving DecidableEq, Repr

/-! ## Receiving -/

/-- What one run of the receive loop does to `client->recv`: the addresses its `realloc`s return, and
the bytes received. -/
structure Fragment where
  moves : List Addr := []
  bytes : List UInt8
  deriving DecidableEq, Repr

/-- The buffer resized and moved, and the bytes appended. -/
def HttpBuf.recvd (b : HttpBuf) (frag : Fragment) : HttpBuf :=
  (frag.moves.foldl resizeTempBuf b).append frag.bytes

/-- The client with a fragment received. -/
def HttpClient.recvd (client : HttpClient) (frag : Fragment) : HttpClient :=
  { client with recv := client.recv.map fun b => b.recvd frag }

theorem resizeTempBufs_bytes (b : HttpBuf) (moves : List Addr) :
    (moves.foldl resizeTempBuf b).bytes = b.bytes := by
  induction moves generalizing b with
  | nil => rfl
  | cons start moves ih => exact ih (resizeTempBuf b start)

theorem resizeTempBufs_pos (b : HttpBuf) (moves : List Addr) :
    (moves.foldl resizeTempBuf b).pos = b.pos := by
  induction moves generalizing b with
  | nil => rfl
  | cons start moves ih => exact ih (resizeTempBuf b start)

@[simp] theorem HttpBuf.recvd_bytes (b : HttpBuf) (frag : Fragment) :
    (b.recvd frag).bytes = b.bytes ++ frag.bytes := by
  rw [HttpBuf.recvd, HttpBuf.append, resizeTempBufs_bytes]

@[simp] theorem HttpBuf.recvd_pos (b : HttpBuf) (frag : Fragment) :
    (b.recvd frag).pos = b.pos :=
  resizeTempBufs_pos b frag.moves

end Crawler.Http
