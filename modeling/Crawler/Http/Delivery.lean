/-
# Crawler.Http.Delivery — the page as it is handed to the HTML parser

`inflate_gzip` of `http_client.c` over an abstract zlib, and what `mc->html` holds when
`HTTP_HTML_DONE` is set. `parse_html` passes its start to `gumbo_parse` as a C string. The loop of
`inflate_gzip` ends with room left in the buffer, so that the NUL behind an inflated page lies inside
it; a page that is not gzipped fills its buffer to the last byte, and nothing follows it
(`pageIsString_iff`).
-/
import Crawler.Http.Chunked

namespace Crawler.Http

open Crawler.Lib

/-! ## `inflate_gzip` -/

/-- What `inflate` returns. -/
inductive ZRet where
  | ok
  | streamEnd
  | needDict
  | streamError
  | dataError
  | memError
  | bufError
  deriving DecidableEq, Repr

/-- The results on which `inflate_gzip` gives up. -/
def ZRet.fails : ZRet → Bool
  | .needDict | .dataError | .memError => true
  | _ => false

/-- zlib. `init windowbits` is the stream that `inflateInit2` sets up, unless it fails, and
`input strm source n` is that stream with `next_in` at the start of `source` and `avail_in = n`.
`inflate` returns its result, the bytes it has written and the stream; it writes no more than the
`avail_out` bytes it is given. -/
structure Zlib where
  Stream : Type
  init : Int → Option Stream
  input : Stream → HttpBuf → Nat → Stream
  inflate : Stream → Nat → ZRet × List UInt8 × Stream
  inflate_le : ∀ strm availOut, (inflate strm availOut).2.1.length ≤ availOut

/-- `strm.avail_in = source->last - source->start`, which has 32 bits. -/
def HttpBuf.availIn (source : HttpBuf) : Nat := source.last % 2 ^ 32

/-- The stream that the loop of `inflate_gzip` begins with. -/
def Zlib.stream (z : Zlib) (source : HttpBuf) (windowbits : Int) : Option z.Stream :=
  (z.init windowbits).map fun strm => z.input strm source source.availIn

/-- `strm.avail_out = dest->end - dest->last`, which has 32 bits. -/
def HttpBuf.availOut (dest : HttpBuf) : Nat := (dest.cap - dest.last) % 2 ^ 32

section

-- `realloc dest`: the address `realloc` returns when `dest` is resized, `none` where it fails
variable (z : Zlib) (realloc : HttpBuf → Option Addr)

/-- The loop of `inflate_gzip`: its return value and the buffer it leaves. `-1` also where it has not
ended after as many turns. -/
def inflateLoop : Nat → z.Stream → HttpBuf → Int × HttpBuf
  | 0, _, dest => (-1, dest)
  | turns + 1, strm, dest =>
      let availOut := dest.availOut
      let (ret, out, strm) := z.inflate strm availOut
      if ret.fails then (-1, dest)
      else
        let dest := dest.append out
        -- `strm.avail_out == 0`
        if out.length = availOut then
          match realloc dest with
          | none => (-1, dest)
          | some start => inflateLoop turns strm (resizeTempBuf dest start)
        else (0, dest)

/-- The NUL after the loop; a `realloc` that fails here is not noticed. -/
def terminate (dest : HttpBuf) : HttpBuf :=
  let dest :=
    if dest.cap ≤ dest.last then
      match realloc dest with
      | none => dest
      | some start => resizeTempBuf dest start
    else dest
  dest.append [0]

/-- `inflate_gzip(source, dest, windowbits)`: its return value and what it leaves in `dest`. -/
def inflateGzip (turns : Nat) (windowbits : Int) (source dest : HttpBuf) : Int × HttpBuf :=
  match z.stream source windowbits with
  | none => (-1, dest)
  | some strm =>
      let (rc, dest) := inflateLoop z realloc turns strm dest
      if rc = 0 then (0, terminate realloc dest) else (-1, dest)

/-- The bytes that zlib makes of the payload `source`. -/
def inflated (turns : Nat) (windowbits : Int) (source dest : HttpBuf) : List UInt8 :=
  match z.stream source windowbits with
  | none => []
  | some strm => (inflateLoop z realloc turns strm dest).2.bytes

variable {z realloc}

/-- The loop ends with room left in the buffer. -/
theorem inflateLoop_room {turns : Nat} {strm : z.Stream} {dest dest' : HttpBuf} (hexcess : dest.excess = 0)
    (h : inflateLoop z realloc turns strm dest = (0, dest')) :
    dest'.excess = 0 ∧ dest'.bytes.length < dest'.cap := by
  induction turns generalizing strm dest with
  | zero => cases h
  | succ turns ih =>
      have hle := z.inflate_le strm dest.availOut
      have hmod : dest.availOut ≤ dest.cap - dest.last := Nat.mod_le _ _
      rw [inflateLoop] at h
      generalize z.inflate strm dest.availOut = r at h hle
      obtain ⟨ret, out, strm'⟩ := r
      simp only at h hle
      split_ifs at h with hfails hfull
      · cases h
      · -- the buffer is full and is resized
        cases hmove : realloc (dest.append out) with
        | none =>
            rw [hmove] at h
            cases h
        | some start =>
            rw [hmove] at h
            have hexcess' : (resizeTempBuf (dest.append out) start).excess = 0 := hexcess
            exact ih hexcess' h
      · cases h
        refine ⟨hexcess, ?_⟩
        have hlast : dest.last = dest.bytes.length := by rw [HttpBuf.last, hexcess, Nat.add_zero]
        rw [hlast] at hmod
        simp only [HttpBuf.append, List.length_append]
        omega

/-- An inflated page is followed by a NUL inside its buffer. -/
theorem inflateGzip_nul {turns : Nat} {windowbits : Int} {source dest dest' : HttpBuf}
    (hexcess : dest.excess = 0)
    (h : inflateGzip z realloc turns windowbits source dest = (0, dest')) :
    dest'.bytes = inflated z realloc turns windowbits source dest ++ [0] ∧
      (inflated z realloc turns windowbits source dest).length < dest'.cap := by
  unfold inflateGzip at h
  unfold inflated
  cases hinit : z.stream source windowbits with
  | none =>
      rw [hinit] at h
      cases h
  | some strm =>
      rw [hinit] at h
      simp only at h ⊢
      generalize hloop : inflateLoop z realloc turns strm dest = r at h ⊢
      obtain ⟨rc, dest''⟩ := r
      simp only at h ⊢
      split_ifs at h with hrc
      · cases h
        subst hrc
        obtain ⟨hexcess', hroom⟩ := inflateLoop_room hexcess hloop
        have hfits : ¬ dest''.cap ≤ dest''.last := by
          rw [HttpBuf.last, hexcess', Nat.add_zero]
          exact Nat.not_le_of_lt hroom
        rw [terminate, if_neg hfits]
        exact ⟨rfl, hroom⟩
      · cases h

end

/-! ## The payload -/

/-- The record while the page is being received: no payload yet, and `chunk_sum` the sum of the
recorded lengths. -/
structure Counted (mc : HtmlCache) : Prop where
  chunks : mc.chunks = none
  sum : mc.chunkSum.toNat = (mc.chunkQueue.map fun kv => kv.valueLen.toNat).sum % 2 ^ 32

/-- The record with its payload: `chunk_sum` bytes. -/
def Loaded (mc : HtmlCache) (chunks : HttpBuf) : Prop :=
  mc.chunks = some chunks ∧ chunks.bytes.length = mc.chunkSum.toNat

theorem Counted.chunk {mc : HtmlCache} (h : Counted mc) (pos : Nat) (chunkLen : UInt32) :
    Counted (mc.chunk pos chunkLen) where
  chunks := h.chunks
  sum := by
    rw [HtmlCache.chunk, UInt32.toNat_add, h.sum, List.map_append, List.sum_append, Nat.mod_add_mod]
    rfl

/-- Chunks that do not overrun their buffer fill it. -/
theorem Counted.gather {b : HttpBuf} {mc : HtmlCache} {chunks : HttpBuf} (h : Counted mc)
    (hgather : gather b mc = some chunks) : Loaded { mc with chunks := some chunks } chunks := by
  obtain ⟨slices, hslices, hcopy⟩ := Option.bind_eq_some_iff.mp hgather
  split_ifs at hcopy with hfits
  cases hcopy
  have hlen := chunkSlices_length hslices
  refine ⟨rfl, ?_⟩
  -- the sum as it is, no more than the sum cut to 32 bits
  have hmod := Nat.mod_le (mc.chunkQueue.map fun kv => kv.valueLen.toNat).sum (2 ^ 32)
  have hsum := h.sum
  show slices.flatten.length = mc.chunkSum.toNat
  omega

/-- What the outer loop leaves of a record. -/
inductive ChunkLeft : ChunkEnd → Prop
  | ret {rc : Int} {mc : HtmlCache} {pos : Nat} : Counted mc → ChunkLeft (.ret rc mc pos)
  | out {mc : HtmlCache} {pos : Nat} : Counted mc → ChunkLeft (.out mc pos)
  | loaded {mc : HtmlCache} {chunks : HttpBuf} {pos : Nat} : Loaded mc chunks →
      ChunkLeft (.out mc pos)

theorem chunkLoop_left {b : HttpBuf} {turns : Nat} {mc : HtmlCache} {pos : Nat} {e : ChunkEnd}
    (hmc : Counted mc) (h : chunkLoop b turns mc pos = some e) : ChunkLeft e := by
  induction turns generalizing mc pos with
  | zero =>
      cases h
      exact .out hmc
  | succ turns ih =>
      have hstatus : ∀ status, Counted { mc with status := status } := fun _ => ⟨hmc.chunks, hmc.sum⟩
      rw [chunkLoop] at h
      split_ifs at h with hlt
      · simp only at h
        rcases hscan : scan sizeByte ⟨mc.status, 0, pos⟩ (b.bytes.drop pos) with s | s | s
        · rw [hscan] at h
          cases h
          exact .ret (hstatus _)
        · rw [hscan] at h
          cases h
          exact .ret (hstatus _)
        · rw [hscan] at h
          simp only at h
          split_ifs at h
          · obtain ⟨chunks, hgather, rfl⟩ := Option.map_eq_some_iff.mp h
            exact .loaded ((hstatus _).gather hgather)
          · exact ih ((hstatus _).chunk _ _) h
      · cases h
        exact .out hmc

/-! ## The page -/

/-- The memory from `start` on, `beyond` being what lies after `last`. -/
def HttpBuf.mem (b : HttpBuf) (beyond : Mem) : Mem := fun i => b.bytes.getD i (beyond i)

/-- The buffer begins with `body`, and right after it stands a NUL below `end`. -/
def NulAfter (html : HttpBuf) (beyond : Mem) (body : List UInt8) : Prop :=
  body <+: html.bytes ∧ body.length < html.cap ∧ html.mem beyond body.length = 0

section

variable (z : Zlib) (realloc : HttpBuf → Option Addr) (turns : Nat)

/-- The body that a payload carries. -/
def decodedBody (hc : HeadCache) (chunks : HttpBuf) : List UInt8 :=
  if hc.gzipFlag then inflated z realloc turns 47 chunks { cap := baseRange } else chunks.bytes

/-- The page is the decoded body as a C string. -/
def PageIsString (hc : HeadCache) (beyond : Mem) (client : HttpClient) : Prop :=
  ∃ mc chunks html, client.html = some mc ∧ mc.chunks = some chunks ∧ mc.html = some html ∧
    NulAfter html beyond (decodedBody z realloc turns hc chunks)

/-- The client while its page is being received. -/
structure AwaitsPage (hc : HeadCache) (client : HttpClient) : Prop where
  status : client.status = .headDone
  head : client.head = some hc
  html : ∀ mc, client.html = some mc → Counted mc

/-- What is delivered when the page is done, and what is kept when it is not. -/
structure Delivered (hc : HeadCache) (r : Int × HttpClient) : Prop where
  done : r.2.status = .htmlDone →
    ∀ beyond, PageIsString z realloc turns hc beyond r.2 ↔ hc.gzipFlag = true
  next : htmlFinal r = false → AwaitsPage hc r.2

variable {z realloc turns} {hc : HeadCache} {client : HttpClient} {mc : HtmlCache}

/-- Without a payload the client goes on receiving. -/
theorem Counted.awaitsPage {inflateGzip : HttpBuf → HttpBuf → Int × HttpBuf} (hmc : Counted mc)
    (hstatus : client.status = .headDone) (hhead : client.head = some hc) :
    AwaitsPage hc (Http.htmlCopy inflateGzip client hc mc).2 := by
  rw [Http.htmlCopy, hmc.chunks]
  refine ⟨hstatus, hhead, ?_⟩
  rintro _ ⟨⟩
  exact hmc

/-- With a payload the page is done or given up. Inflated it ends with a NUL, copied it fills its
buffer. -/
theorem Loaded.htmlCopy {chunks : HttpBuf} (hmc : Loaded mc chunks)
    (hstatus : client.status = .headDone) :
    Delivered z realloc turns hc (htmlCopy (inflateGzip z realloc turns 47) client hc mc) := by
  obtain ⟨hchunks, hlen⟩ := hmc
  cases hgzip : hc.gzipFlag with
  | true =>
      rw [Http.htmlCopy, hchunks]
      simp only [hgzip, if_true]
      generalize hinflate : inflateGzip z realloc turns 47 chunks { cap := baseRange } = r
      obtain ⟨rc, dest⟩ := r
      simp only
      split_ifs with hrc
      · refine ⟨fun hdone => ?_, fun hfinal => ?_⟩
        · cases hstatus.symm.trans hdone
        · cases hfinal
      · have hzero : rc = 0 := Decidable.not_not.mp hrc
        subst hzero
        obtain ⟨hbytes, hroom⟩ := inflateGzip_nul rfl hinflate
        refine ⟨fun _ beyond => iff_of_true ?_ hgzip, fun hfinal => by simp [htmlFinal] at hfinal⟩
        refine ⟨_, chunks, dest, rfl, rfl, rfl, ?_⟩
        rw [decodedBody, if_pos hgzip]
        refine ⟨hbytes ▸ List.prefix_append _ _, hroom, ?_⟩
        simp [HttpBuf.mem, hbytes]
  | false =>
      rw [Http.htmlCopy, hchunks]
      simp only [hgzip, Bool.false_eq_true, if_false]
      refine ⟨fun _ beyond => iff_of_false ?_ (by simp [hgzip]), fun hfinal => by
        simp [htmlFinal] at hfinal⟩
      rintro ⟨mc', chunks', html, hmc', hchunks', hhtml, -, hroom, -⟩
      cases hmc'
      cases hchunks'
      cases hhtml
      rw [decodedBody, if_neg (by simp [hgzip]), hlen] at hroom
      exact Nat.lt_irrefl _ hroom

/-- A call goes on receiving, or copies or inflates the payload it has made. -/
theorem AwaitsPage.call_cases {inflateGzip : HttpBuf → HttpBuf → Int × HttpBuf} {r : Int × HttpClient}
    (h : AwaitsPage hc client) (hr : httpParseHtml inflateGzip client = some r) :
    AwaitsPage hc r.2 ∨ ∃ client' mc chunks, client'.status = .headDone ∧ Loaded mc chunks ∧
      r = Http.htmlCopy inflateGzip client' hc mc := by
  rw [httpParseHtml] at hr
  obtain ⟨b, hrecv, hr⟩ := Option.bind_eq_some_iff.mp hr
  obtain ⟨hc', hhead, hr⟩ := Option.bind_eq_some_iff.mp hr
  cases h.head.symm.trans hhead
  have hmc : Counted (client.htmlCache b) := by
    rw [HttpClient.htmlCache]
    cases hhtml : client.html with
    | none => exact ⟨rfl, rfl⟩
    | some mc => exact h.html mc hhtml
  split_ifs at hr with hchunk henough
  · obtain ⟨e, hloop, rfl⟩ := Option.map_eq_some_iff.mp hr
    cases chunkLoop_left hmc hloop with
    | @ret rc mc pos hmc' =>
        refine .inl ⟨h.status, h.head, ?_⟩
        rintro _ ⟨⟩
        exact hmc'
    | out hmc' => exact .inl (hmc'.awaitsPage h.status h.head)
    | @loaded mc chunks pos hmc' =>
        exact .inr ⟨{ client with recv := some { b with pos := pos } }, mc, chunks, h.status, hmc', rfl⟩
  · cases hr
    have hlen : (b.slice b.pos hc.contentLen.toNat).length = hc.contentLen.toNat := by
      rw [HttpBuf.slice, List.length_take, List.length_drop]
      exact Nat.min_eq_left henough.2
    exact .inr ⟨client, _, _, h.status, ⟨rfl, hlen⟩, rfl⟩
  · cases hr
    exact .inl (hmc.awaitsPage h.status h.head)

/-- A payload is copied or inflated once. -/
theorem Loaded.final {inflateGzip : HttpBuf → HttpBuf → Int × HttpBuf} {chunks : HttpBuf}
    (hmc : Loaded mc chunks) : htmlFinal (Http.htmlCopy inflateGzip client hc mc) = true := by
  rw [Http.htmlCopy, hmc.1]
  simp only
  split_ifs <;> simp [htmlFinal]

theorem AwaitsPage.recvd (h : AwaitsPage hc client) (frag : Fragment) :
    AwaitsPage hc (client.recvd frag) :=
  ⟨h.status, h.head, h.html⟩

/-- However a response is cut, its last call goes on receiving, or copies or inflates the payload. -/
theorem AwaitsPage.feed_cases {inflateGzip : HttpBuf → HttpBuf → Int × HttpBuf} {frag : Fragment}
    {rest : List Fragment} {r : Int × HttpClient} (h : AwaitsPage hc client)
    (hr : feed (htmlCall inflateGzip) htmlFinal client frag rest = some r) :
    AwaitsPage hc r.2 ∨ ∃ client' mc chunks, client'.status = .headDone ∧ Loaded mc chunks ∧
      r = Http.htmlCopy inflateGzip client' hc mc := by
  induction rest generalizing client frag with
  | nil => exact (h.recvd frag).call_cases hr
  | cons next rest ih =>
      obtain ⟨r', hr', hrest⟩ := Option.bind_eq_some_iff.mp hr
      have hcases := (h.recvd frag).call_cases hr'
      split_ifs at hrest with hfinal
      · cases hrest
        exact hcases
      · rcases hcases with h' | ⟨client', mc, chunks, hstatus, hmc, rfl⟩
        · exact ih h' hrest
        · exact absurd hmc.final hfinal

/-- Whatever has come of the response and however it was cut: a page that is done is a C string exactly
when it was gzipped. -/
theorem pageIsString_iff (h : AwaitsPage hc client) {frag : Fragment} {rest : List Fragment}
    {r : Int × HttpClient}
    (hr : feed (htmlCall (inflateGzip z realloc turns 47)) htmlFinal client frag rest = some r)
    (hdone : r.2.status = .htmlDone) (beyond : Mem) :
    PageIsString z realloc turns hc beyond r.2 ↔ hc.gzipFlag = true := by
  rcases h.feed_cases hr with h' | ⟨client', mc, chunks, hstatus, hmc, rfl⟩
  · cases h'.status.symm.trans hdone
  · exact (hmc.htmlCopy hstatus).done hdone beyond

end

/-! ## Two pages -/

/-- The part of zlib that reads a stream of one block that is not compressed: what stands between
the seven bytes of its head and the four of its check sum is written as it is. -/
def storedZlib : Zlib where
  Stream := List UInt8
  init := fun _ => some []
  input := fun _ source n => ((source.bytes.take n).drop 7).dropLast.dropLast.dropLast.dropLast
  inflate := fun rest availOut =>
    (if rest.length ≤ availOut then .streamEnd else .ok, rest.take availOut, rest.drop availOut)
  inflate_le := fun rest availOut => by
    rw [List.length_take]
    exact Nat.min_le_left _ _

/-- Three bytes in such a stream. -/
def storedBytes : List UInt8 := [120, 1, 1, 3, 0, 252, 255] ++ lit "hi!" ++ [2, 46, 0, 243]

/-- A client that has parsed the head of a page. -/
def pageClient (hc : HeadCache) : HttpClient :=
  { chunkedClient with
    recv := some { bytes := lit "\r\n\r\n", cap := baseRange, pos := 4 }
    head := some hc }

theorem pageClient_awaitsPage (hc : HeadCache) : AwaitsPage hc (pageClient hc) :=
  ⟨rfl, rfl, fun _ hmc => by cases hmc⟩

/-- What has become of it when these bytes have come. -/
def pageOfPieces (hc : HeadCache) (first rest : List UInt8) : Option (Int × HttpClient) :=
  feed (htmlCall (inflateGzip storedZlib (fun _ => none) 1 47)) htmlFinal (pageClient hc)
    { bytes := first } [{ bytes := rest }]

/-- The head of the three bytes, gzipped. -/
def storedHead : HeadCache := { status := .headDone, contentLen := 14, gzipFlag := true }

/-- They come in two pieces. -/
def storedPage : Option (Int × HttpClient) :=
  pageOfPieces storedHead (storedBytes.take 8) (storedBytes.drop 8)

theorem pageIsString_iff_stored :
    PageIsString storedZlib (fun _ => none) 1 storedHead (fun _ => 0)
      (storedPage.getD (0, pageClient storedHead)).2 ↔ storedHead.gzipFlag = true :=
  pageIsString_iff (pageClient_awaitsPage storedHead) (rfl : storedPage = some _) rfl (fun _ => 0)

/-- A page of one byte that is not gzipped has no room for a NUL. -/
theorem plainPage_not_string :
    ∃ r, pageOfPieces knownHead (lit "x") [] = some r ∧ r.2.status = .htmlDone ∧
      ¬ PageIsString storedZlib (fun _ => none) 1 knownHead (fun _ => 0) r.2 := by
  refine ⟨_, rfl, rfl, ?_⟩
  rintro ⟨mc, chunks, html, hmc, hchunks, hhtml, -, hroom, -⟩
  cases hmc
  cases hchunks
  cases hhtml
  revert hroom
  decide

end Crawler.Http
