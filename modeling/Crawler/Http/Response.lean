/-
# Crawler.Http.Response — a response as it comes in

A response is a head of lines, a body of known length or of chunks, and the head says which. Between
two calls of `http_process_response` a client has parsed the part of it that was received
(`Midway`). One call on whatever is received next hands the page over exactly when all the bytes that
the parsers wait for have come (`Midway.call`), wherever the stream is cut, but for one kind of cut: the
digits of a size line that were read before the cut are lost (`CutsNumber`).
-/
import Crawler.Http.Chunked
import Crawler.Http.HeadCase
import Crawler.Http.EventLoop

namespace Crawler.Http

open Crawler.Lib

/-! ## Responses -/

/-- A body, by the way its end is found. -/
inductive Body where
  | sized (data : List UInt8)
  | chunked (texts : List ChunkText)

namespace Body

def bytes : Body → List UInt8
  | sized data => data
  | chunked texts => chunkedBody texts

/-- The page. -/
def data : Body → List UInt8
  | sized data => data
  | chunked texts => chunkedData texts

/-- How many bytes are waited for: of a chunked body, those up to the size line of the last chunk. -/
def need : Body → Nat
  | sized data => data.length
  | chunked texts => (texts.flatMap ChunkText.bytes).length + 3

/-- What the head has to say about the body. The page must not be compressed, and an empty one of known
length is waited for in vain. -/
def Announced : Body → Framing → Prop
  | sized data, fr => fr = { contentLen := UInt32.ofNat data.length } ∧ data ≠ []
  | chunked _, fr => fr.chunkFlag = true ∧ fr.gzipFlag = false

theorem need_pos {body : Body} {fr : Framing} (h : body.Announced fr) : 0 < body.need := by
  cases body with
  | sized data => exact List.length_pos_iff.mpr h.2
  | chunked texts => exact Nat.succ_pos _

end Body

/-- A response whose head is accepted and announces the body, all of it below 4 GiB. -/
structure Response where
  head : List UInt8
  status : HeadLine
  fields : List HeadLine
  last : HeadLine
  body : Body
  lines : HeadLines head status fields last
  walked : Walked status fields
  announced : body.Announced (linesFraming fields {})
  small : (head ++ body.bytes).length < 2 ^ 32

namespace Response

def bytes (r : Response) : List UInt8 := r.head ++ r.body.bytes

/-- How many bytes have to come before the page is there. -/
def need (r : Response) : Nat := r.head.length + r.body.need

theorem head_small (r : Response) : r.head.length < 2 ^ 32 :=
  Nat.lt_of_le_of_lt (List.prefix_append _ _).length_le r.small

theorem need_pos (r : Response) : 0 < r.need :=
  Nat.lt_of_lt_of_le (Body.need_pos r.announced) (Nat.le_add_left _ _)

end Response

/-- The bytes end in the size line of a chunk, behind a digit other than a zero. -/
def CutsNumber (r : Response) (got : List UInt8) : Prop :=
  ∃ before t after begun, r.body = .chunked (before ++ t :: after) ∧
    got = r.head ++ (before.flatMap ChunkText.bytes ++ begun) ∧ begun <+: t.line ++ [13] ∧
    lineLen begun ≠ 0

/-! ## Cuts of a chunked body -/

/-- The scanner goes on in a size line without losing anything, or it is in the data of a chunk. -/
theorem scan_begun {mc : HtmlCache} (hstatus : mc.status = .lenDone) (t : ChunkText) {begun : List UInt8}
    (hbegun : begun <+: t.line ++ [13]) {read : Nat} {s : BodyState}
    (h : scan bodyByte { mc := mc, chunkLen := 0, skip := 0, read := read } begun = .more s) :
    s.chunkLen = lineLen begun := by
  have hcr := t.line_noCr
  rcases List.prefix_concat_iff.mp hbegun with rfl | hline
  · have hbefore := scan_beforeLf hcr List.not_mem_nil List.not_mem_nil read
    rw [List.append_nil, ← hstatus] at hbefore
    rw [scan_line, hbefore] at h
    cases h
    rw [lineLen, lineLen, List.foldl_append]
    rfl
  · have hbegunCr : 13 ∉ begun := fun hm => hcr (hline.subset hm)
    have hnone : ({ status := mc.status, chunkLen := 0, pos := read } : SizeState).status = .lenHalf →
        10 ∉ begun := by
      rw [hstatus]
      intro hhalf
      cases hhalf
    have hdigits := scan_digits hbegunCr hnone
    rw [scan_line, hdigits] at h
    cases h
    rfl

/-- Past its size line, all digits of it have been used. -/
theorem scan_inChunk {mc : HtmlCache} (hstatus : mc.status = .lenDone) (t : ChunkText)
    (hlen : t.data.length + 2 < 2 ^ 32) {part : List UInt8} (hpart : part.length < t.data.length + 2)
    {read : Nat} {s : BodyState}
    (h : scan bodyByte { mc := mc, chunkLen := 0, skip := 0, read := read }
      (t.line ++ 13 :: 10 :: part) = .more s) : s.chunkLen = 0 := by
  have hsize := scan_line_noCr t.line_noCr read part
  rw [lineStart, t.lineLen_eq] at hsize
  have hnat : (UInt32.ofNat t.data.length).toNat = t.data.length := by
    rw [UInt32.toNat_ofNat', Nat.mod_eq_of_lt (by omega)]
  have hne : UInt32.ofNat t.data.length ≠ 0 := by
    intro hzero
    rw [hzero] at hnat
    exact t.data_ne (List.length_eq_zero_iff.mp hnat.symm)
  have hskip : (UInt32.ofNat t.data.length + 2).toNat = t.data.length + 2 := by
    rw [UInt32.toNat_add, hnat]
    exact Nat.mod_eq_of_lt hlen
  have hdrop : (t.line ++ 13 :: 10 :: part).drop (read + t.line.length + 2 - read) = part := by
    rw [List.drop_append, List.drop_eq_nil_of_le (by omega), List.nil_append,
      show read + t.line.length + 2 - read - t.line.length = 2 by omega]
    rfl
  rw [scan_line, hstatus, hsize] at h
  simp only [bodyLine, if_neg hne, Scan.more_bind, hskip, hdrop] at h
  rw [scan_skip, List.drop_eq_nil_of_le (Nat.le_of_lt hpart)] at h
  cases h
  rfl

/-- What begins like `bs ++ cs` ends in `bs` or goes on behind it. -/
theorem begins_append {α : Type*} {as bs cs : List α} (h : as <+: bs ++ cs) :
    as <+: bs ∨ ∃ ds, ds <+: cs ∧ as = bs ++ ds := by
  rcases Nat.le_total as.length bs.length with hle | hle
  · exact .inl (List.prefix_of_prefix_length_le h (List.prefix_append bs cs) hle)
  · obtain ⟨ds, rfl⟩ := List.prefix_of_prefix_length_le (List.prefix_append bs cs) h hle
    exact .inr ⟨ds, (List.prefix_append_right_inj bs).mp h, rfl⟩

/-- The last size line is a zero. -/
theorem scan_inLastLine {mc : HtmlCache} (hstatus : mc.status = .lenDone) {got rest : List UInt8}
    (hgot : got <+: 48 :: 13 :: 10 :: rest) {read : Nat} {s : BodyState}
    (h : scan bodyByte { mc := mc, chunkLen := 0, skip := 0, read := read } got = .more s) :
    s.chunkLen = 0 := by
  rcases got with _ | ⟨c, _ | ⟨c', _ | ⟨c'', got⟩⟩⟩
  · cases h
    rfl
  · obtain ⟨rfl, -⟩ := List.cons_prefix_cons.mp hgot
    rw [scan_line, hstatus] at h
    cases h
    rfl
  · obtain ⟨rfl, hgot₁⟩ := List.cons_prefix_cons.mp hgot
    obtain ⟨rfl, -⟩ := List.cons_prefix_cons.mp hgot₁
    rw [scan_line, hstatus] at h
    cases h
    rfl
  · -- its line feed has come, and the scanner has stopped
    obtain ⟨rfl, hgot₁⟩ := List.cons_prefix_cons.mp hgot
    obtain ⟨rfl, hgot₂⟩ := List.cons_prefix_cons.mp hgot₁
    obtain ⟨rfl, -⟩ := List.cons_prefix_cons.mp hgot₂
    have hnone : ∀ t ∈ ([] : List ChunkText), t.data.length + 2 < 2 ^ 32 := by
      intro t ht
      cases ht
    have hstop := scan_closed hstatus hnone read got
    rw [List.flatMap_nil, List.nil_append, h] at hstop
    cases hstop

/-- The bytes end in the first chunk, in its size line or behind it. -/
theorem scan_inFirst {mc : HtmlCache} (hstatus : mc.status = .lenDone) (t : ChunkText)
    (hlen : t.data.length + 2 < 2 ^ 32) {got : List UInt8} (hgot : got <+: t.bytes)
    (hcut : got <+: t.line ++ [13] → lineLen got = 0) {read : Nat} {s : BodyState}
    (h : scan bodyByte { mc := mc, chunkLen := 0, skip := 0, read := read } got = .more s) :
    s.chunkLen = 0 := by
  have hbytes : t.bytes = (t.line ++ [13]) ++ 10 :: (t.data ++ [13, 10]) := by
    simp [ChunkText.bytes]
  rw [hbytes] at hgot
  rcases begins_append hgot with hline | ⟨part, hpart, rfl⟩
  · rw [scan_begun hstatus t hline h]
    exact hcut hline
  · cases part with
    | nil =>
        have hline : t.line ++ [13] ++ [] <+: t.line ++ [13] := List.append_nil _ ▸ List.prefix_refl _
        rw [scan_begun hstatus t hline h]
        exact hcut hline
    | cons c part =>
        obtain ⟨rfl, hdata⟩ := List.cons_prefix_cons.mp hpart
        rw [List.append_assoc, List.singleton_append] at h
        by_cases hshort : part.length < t.data.length + 2
        · exact scan_inChunk hstatus t hlen hshort h
        · -- the first chunk is all there
          have hwhole : part = t.data ++ [13, 10] := by
            refine hdata.eq_of_length (Nat.le_antisymm hdata.length_le ?_)
            rw [List.length_append]
            exact Nat.le_of_not_lt hshort
          have hchunk := scan_chunk hstatus t hlen read []
          rw [List.append_nil] at hchunk
          rw [hwhole] at h
          rw [show t.line ++ 13 :: 10 :: (t.data ++ [13, 10]) = t.bytes from rfl, hchunk] at h
          cases h
          rfl

/-- Outside the digits of a size line the scanner holds none. By induction on the chunks read. -/
theorem scan_cut {mc : HtmlCache} (hstatus : mc.status = .lenDone) {texts : List ChunkText}
    (hlen : ∀ t ∈ texts, t.data.length + 2 < 2 ^ 32) {got rest : List UInt8}
    (hgot : got <+: texts.flatMap ChunkText.bytes ++ 48 :: 13 :: 10 :: rest)
    (hcut : ∀ before t after begun, texts = before ++ t :: after →
      got = before.flatMap ChunkText.bytes ++ begun → begun <+: t.line ++ [13] → lineLen begun = 0)
    {read : Nat} {s : BodyState}
    (h : scan bodyByte { mc := mc, chunkLen := 0, skip := 0, read := read } got = .more s) :
    s.chunkLen = 0 := by
  induction texts generalizing mc got read with
  | nil =>
      rw [List.flatMap_nil, List.nil_append] at hgot
      exact scan_inLastLine hstatus hgot h
  | cons t texts ih =>
      have ht := hlen t List.mem_cons_self
      rw [List.flatMap_cons, List.append_assoc] at hgot
      rcases begins_append hgot with hin | ⟨more, hmore, rfl⟩
      · exact scan_inFirst hstatus t ht hin (hcut [] t texts got rfl rfl) h
      · rw [scan_chunk hstatus t ht] at h
        have hstatus' : (mc.chunk (read + t.line.length + 2) (UInt32.ofNat t.data.length)).status =
            .lenDone := hstatus
        refine ih hstatus' (fun t' hm => hlen t' (List.mem_cons_of_mem _ hm)) hmore ?_ h
        rintro before t' after begun rfl rfl hbegun
        exact hcut (t :: before) t' after begun rfl (by simp) hbegun

/-- Where the scanner has stopped at the end of a body. -/
def BodyStop.EndsAt (k : Nat) : BodyStop → Prop
  | .error _ _ => True
  | .finished _ pos => pos = k

/-- A body ends within the bytes read. -/
theorem scan_finished_le {s : BodyState} {bytes : List UInt8} {mc : HtmlCache} {pos : Nat}
    (h : scan bodyByte s bytes = .stop (.finished mc pos)) : pos ≤ s.read + bytes.length := by
  have hmore : ∀ k t c u, k < s.read + bytes.length → t.read = k → bodyByte t c = .more u →
      u.read = k + 1 := fun k t c u _ hk hu => (bodyByte_more hu).1.trans (congrArg (· + 1) hk)
  have hstop : ∀ k t c q, k < s.read + bytes.length → t.read = k → bodyByte t c = .stop q →
      q.EndsAt (k + 1) := by
    rintro k t c q - rfl hq
    unfold bodyByte at hq
    split at hq
    · cases hq
    · split at hq
      · cases hq
      · cases hq
        trivial
      case h_3 u hsize =>
        unfold bodyLine at hq
        simp only at hq
        split_ifs at hq
        cases hq
        exact (sizeByte_pos _ c).2 u hsize
  obtain ⟨j, hj, hpos⟩ := (scan_invariant hmore hstop rfl (Nat.le_refl _)).2 _ h
  exact (hpos : pos = j) ▸ hj

/-! ## In the body -/

/-- The page that a client hands over. -/
def pageOf (client : HttpClient) : Option (List UInt8) :=
  if client.status = .htmlDone then (client.html.bind HtmlCache.html).map HttpBuf.bytes else none

/-- Between two calls, the head and `more` of the body having been received. -/
inductive InBody (r : Response) (client : HttpClient) (more : List UInt8) : Prop
  | sized {hc : HeadCache} {data : List UInt8} : r.body = .sized data →
      hc.framing = linesFraming r.fields {} → LengthMidway hc r.head client more → InBody r client more
  | chunked {hc : HeadCache} {texts : List ChunkText} : r.body = .chunked texts →
      hc.framing = linesFraming r.fields {} → SafeMidway hc r.head client more → InBody r client more

/-- What a call leaves when `more` of the body has come: the page, or a client that goes on. -/
def InBody.Next (r : Response) (client : HttpClient) (more : List UInt8) : Prop :=
  if r.body.need ≤ more.length then client.status = .htmlDone ∧ pageOf client = some r.body.data
  else client.status = .headDone ∧ (¬ CutsNumber r (r.head ++ more) → InBody r client more)

theorem InBody.status {r : Response} {client : HttpClient} {more : List UInt8}
    (h : InBody r client more) : client.status = .headDone := by
  cases h with
  | sized _ _ h => exact h.status
  | chunked _ _ h =>
      obtain ⟨s, -, -, hmid⟩ := h
      exact hmid.status

section

variable (inflateGzip : HttpBuf → HttpBuf → Int × HttpBuf) {r : Response} {client : HttpClient}
  {hc : HeadCache} {more trail : List UInt8} {frag : Fragment}

/-- The bytes needed are those of the page. -/
theorem take_of_prefix {data more trail : List UInt8} (h : more <+: data ++ trail)
    (hlen : data.length ≤ more.length) : more.take data.length = data := by
  obtain ⟨rest, hrest⟩ := h
  rw [← List.take_append_of_le_length hlen, hrest, List.take_left]

/-- A call on a body of known length. -/
theorem LengthMidway.next {data : List UInt8} (h : LengthMidway hc r.head client more)
    (hbody : r.body = .sized data) (hframing : hc.framing = linesFraming r.fields {})
    (hbegins : more ++ frag.bytes <+: r.body.bytes ++ trail) :
    ∃ res, htmlCall inflateGzip client frag = some res ∧ res.1 = 0 ∧
      InBody.Next r res.2 (more ++ frag.bytes) := by
  have hannounced := r.announced
  rw [hbody, ← hframing] at hannounced
  obtain ⟨hfr, hne⟩ := hannounced
  have hlen : hc.contentLen = UInt32.ofNat data.length := congrArg Framing.contentLen hfr
  have hchunk : hc.chunkFlag = false := congrArg Framing.chunkFlag hfr
  have hgzip : hc.gzipFlag = false := congrArg Framing.gzipFlag hfr
  have hsmall : r.head.length + data.length < 2 ^ 32 := by
    have hbytes := r.small
    rwa [hbody, List.length_append] at hbytes
  have hnat : hc.contentLen.toNat = data.length := by
    rw [hlen, UInt32.toNat_ofNat', Nat.mod_eq_of_lt (by omega)]
  have hpositive : hc.contentLen ≠ 0 := by
    intro hzero
    rw [hzero] at hnat
    exact hne (List.length_eq_zero_iff.mp hnat.symm)
  obtain ⟨res, hcall, hview, hmid, -⟩ := h.call inflateGzip hchunk hgzip frag
  refine ⟨res, hcall, ?_⟩
  have hdata : more ++ frag.bytes <+: data ++ trail := by rwa [hbody] at hbegins
  rw [InBody.Next, hbody]
  by_cases henough : data.length ≤ (more ++ frag.bytes).length
  · rw [lengthSeen, hnat, if_pos ⟨hpositive, henough⟩, take_of_prefix hdata henough] at hview
    rw [if_pos (show Body.need (.sized data) ≤ _ from henough)]
    exact ⟨congrArg HtmlView.ret hview, congrArg HtmlView.status hview, congrArg HtmlView.html hview⟩
  · rw [lengthSeen, hnat, if_neg fun hboth => henough hboth.2] at hview
    rw [if_neg (show ¬ Body.need (.sized data) ≤ _ from henough)]
    have hret : res.1 = 0 := congrArg HtmlView.ret hview
    have hstatus : res.2.status = .headDone := congrArg HtmlView.status hview
    refine ⟨hret, hstatus, fun _ => .sized hbody hframing (hmid ?_)⟩
    rw [htmlFinal, hret, hstatus]
    rfl

/-- What is seen when the size line of the last chunk has been read. -/
theorem bodySeen_whole {head rest : List UInt8} {texts : List ChunkText}
    (hsmall : head.length + (chunkedBody texts).length < 2 ^ 32) :
    bodySeen (head ++ (texts.flatMap ChunkText.bytes ++ 48 :: 13 :: 10 :: rest))
        (scan bodyByte (bodyStart head) (texts.flatMap ChunkText.bytes ++ 48 :: 13 :: 10 :: rest)) =
      some { ret := 0, status := .htmlDone, html := some (chunkedData texts) } := by
  have hbelow : head.length + (texts.flatMap ChunkText.bytes).length < 2 ^ 32 := by
    rw [chunkedBody, List.length_append] at hsmall
    omega
  have hlen : ∀ t ∈ texts, t.data.length + 2 < 2 ^ 32 := chunk_fits (by omega)
  have hclosed : (firstCache head).status = .lenDone := rfl
  have hscan := scan_closed hclosed hlen head.length rest
  have hsum : ((firstCache head).chunkAll head.length texts).chunkSum =
      UInt32.ofNat (chunkedData texts).length := by
    rw [chunkAll_chunkSum]
    exact UInt32.zero_add _
  have hnat := chunkSum_toNat hsum (by omega)
  have hdrop : (head ++ (texts.flatMap ChunkText.bytes ++ 48 :: 13 :: 10 :: rest)).drop head.length =
      texts.flatMap ChunkText.bytes ++ 48 :: 13 :: 10 :: rest := List.drop_left
  have hgather := gather_chunks
    (b := { bytes := head ++ (texts.flatMap ChunkText.bytes ++ 48 :: 13 :: 10 :: rest) }) hdrop hbelow
    (chunkAll_chunkQueue (firstCache head) head.length texts) hnat
  rw [bodyStart, hscan, bodySeen, hgather, Option.map_some, hnat, List.take_length]

/-- Before the size line of the last chunk is complete, the scanner has not stopped: it would have stopped
behind the bytes that it has read. -/
theorem scan_goesOn {head got trail : List UInt8} {texts : List ChunkText}
    (hlen : ∀ t ∈ texts, t.data.length + 2 < 2 ^ 32)
    (hgot : got <+: texts.flatMap ChunkText.bytes ++ 48 :: 13 :: 10 :: 13 :: 10 :: trail)
    (hshort : got.length < Body.need (.chunked texts)) :
    ∃ t, scan bodyByte (bodyStart head) got = .more t := by
  obtain ⟨rest, hrest⟩ := hgot
  cases hscan : scan bodyByte (bodyStart head) got with
  | more t => exact ⟨t, rfl⟩
  | stop q =>
      have hdone : (firstCache head).status = .lenDone := rfl
      have hwhole : scan bodyByte (bodyStart head) (got ++ rest) = .stop q := by
        rw [scan_append, hscan, Scan.stop_bind]
      rw [hrest] at hwhole
      cases (scan_closed hdone hlen head.length _).symm.trans hwhole
      have hle := scan_finished_le hscan
      exact absurd hshort (Nat.not_lt_of_le (Nat.le_of_add_le_add_left hle))

/-- A call on a chunked body. -/
theorem SafeMidway.next {texts : List ChunkText} (h : SafeMidway hc r.head client more)
    (hbody : r.body = .chunked texts) (hframing : hc.framing = linesFraming r.fields {})
    (hbegins : more ++ frag.bytes <+: r.body.bytes ++ trail) :
    ∃ res, htmlCall inflateGzip client frag = some res ∧ res.1 = 0 ∧
      InBody.Next r res.2 (more ++ frag.bytes) := by
  have hannounced := r.announced
  rw [hbody, ← hframing] at hannounced
  have hsmall : r.head.length + (chunkedBody texts).length < 2 ^ 32 := by
    have hbytes := r.small
    rwa [hbody, List.length_append] at hbytes
  have hlen : ∀ t ∈ texts, t.data.length + 2 < 2 ^ 32 := chunk_fits (by omega)
  have hstream : more ++ frag.bytes <+:
      texts.flatMap ChunkText.bytes ++ 48 :: 13 :: 10 :: 13 :: 10 :: trail := by
    rw [hbody, Body.bytes, chunkedBody, List.append_assoc] at hbegins
    exact hbegins
  obtain ⟨s, hs, hzero, hmid⟩ := h
  have hseen := hmid.seen inflateGzip hannounced.1 hannounced.2 frag
  rw [SafeMidway.scan_eq hs hzero] at hseen
  by_cases henough : Body.need (.chunked texts) ≤ (more ++ frag.bytes).length
  · -- the last size line has been read
    have hend : texts.flatMap ChunkText.bytes ++ [48, 13, 10] <+: more ++ frag.bytes := by
      refine List.prefix_of_prefix_length_le ⟨13 :: 10 :: trail, ?_⟩ hstream ?_
      · rw [List.append_assoc]
        rfl
      · rw [List.length_append]
        exact henough
    obtain ⟨rest, hrest⟩ := hend
    rw [List.append_assoc] at hrest
    rw [← hrest, show [48, 13, 10] ++ rest = 48 :: 13 :: 10 :: rest from rfl, bodySeen_whole hsmall] at hseen
    obtain ⟨res, hcall, hview⟩ := Option.map_eq_some_iff.mp hseen
    refine ⟨res, hcall, congrArg HtmlView.ret hview, ?_⟩
    rw [InBody.Next, hbody, if_pos henough]
    exact ⟨congrArg HtmlView.status hview, congrArg HtmlView.html hview⟩
  · obtain ⟨t, ht⟩ := scan_goesOn hlen hstream (Nat.lt_of_not_le henough)
    rw [ht, bodySeen] at hseen
    obtain ⟨res, hcall, hview⟩ := Option.map_eq_some_iff.mp hseen
    have hret : res.1 = 0 := congrArg HtmlView.ret hview
    have hstatus : res.2.status = .headDone := congrArg HtmlView.status hview
    have hfinal : htmlFinal res = false := by
      rw [htmlFinal, hret, hstatus]
      rfl
    refine ⟨res, hcall, hret, ?_⟩
    rw [InBody.Next, hbody, if_neg henough]
    refine ⟨hstatus, fun hcut => .chunked hbody hframing ?_⟩
    obtain ⟨t', ht', hnext⟩ := hmid.next inflateGzip hannounced.1 hannounced.2 hcall hfinal
    rw [SafeMidway.scan_eq hs hzero, ht] at ht'
    cases ht'
    refine ⟨t, ht, scan_cut rfl hlen hstream ?_ ht, hnext⟩
    intro before t after begun htexts hgot hbegun
    by_contra hne
    exact hcut ⟨before, t, after, begun, htexts ▸ hbody, by rw [hgot], hbegun, hne⟩

/-- A call in the body. -/
theorem InBody.call (h : InBody r client more) (hbegins : more ++ frag.bytes <+: r.body.bytes ++ trail) :
    ∃ res, htmlCall inflateGzip client frag = some res ∧ res.1 = 0 ∧
      InBody.Next r res.2 (more ++ frag.bytes) := by
  cases h with
  | sized hbody hframing hmid => exact hmid.next inflateGzip hbody hframing hbegins
  | chunked hbody hframing hmid => exact hmid.next inflateGzip hbody hframing hbegins

end

/-- The body begins where the head has ended. -/
theorem BodyReady.inBody {r : Response} {client : HttpClient} {hc : HeadCache} {b : HttpBuf}
    (h : BodyReady client hc b) (hbytes : b.bytes = r.head)
    (hframing : hc.framing = linesFraming r.fields {}) : InBody r client [] := by
  cases hbody : r.body with
  | sized data => exact .sized hbody hframing (hbytes ▸ h.lengthMidway)
  | chunked texts => exact .chunked hbody hframing ⟨_, rfl, rfl, hbytes ▸ h.midway⟩

/-! ## The whole response -/

/-- Between two calls, `got` of the response having been received. -/
inductive Midway (r : Response) (client : HttpClient) : List UInt8 → Prop
  | head {got : List UInt8} : HeadMidway client got → client.html = none → Midway r client got
  | body {more : List UInt8} : InBody r client more → Midway r client (r.head ++ more)

/-- What a call leaves when `got` has come: the page, or a client that goes on. -/
def Midway.Next (r : Response) (client : HttpClient) (got : List UInt8) : Prop :=
  if r.need ≤ got.length then client.status = .htmlDone ∧ pageOf client = some r.body.data
  else client.status ≠ .htmlDone ∧ (¬ CutsNumber r got → Midway r client got)

theorem Midway.status {r : Response} {client : HttpClient} {got : List UInt8} (h : Midway r client got) :
    client.status ≠ .htmlDone := by
  cases h with
  | head hmid _ =>
      rw [hmid.status]
      decide
  | body hin =>
      rw [hin.status]
      decide

theorem InBody.Next.response {r : Response} {client : HttpClient} {more : List UInt8}
    (h : InBody.Next r client more) : Midway.Next r client (r.head ++ more) := by
  rw [InBody.Next] at h
  rw [Midway.Next, Response.need, List.length_append]
  by_cases henough : r.body.need ≤ more.length
  · rw [if_pos henough] at h
    rw [if_pos (Nat.add_le_add_left henough _)]
    exact h
  · rw [if_neg henough] at h
    rw [if_neg fun hle => henough (Nat.le_of_add_le_add_left hle)]
    refine ⟨?_, fun hcut => .body (h.2 hcut)⟩
    rw [h.1]
    decide

/-- The head parser moves the position of the buffer and leaves the page alone. -/
theorem httpParseHead_leaves {client : HttpClient} {res : Int × HttpClient}
    (h : httpParseHead client = some res) :
    ∃ b pos, client.recv = some b ∧ res.2.recv = some { b with pos := pos } ∧
      res.2.html = client.html := by
  obtain ⟨b, hrecv, hend⟩ := Option.bind_eq_some_iff.mp h
  generalize scan headByte (client.headState b) (b.bytes.drop b.pos) = x at hend
  rcases x with s | s | s
  · cases hend
    exact ⟨b, s.pos, hrecv, rfl, rfl⟩
  · cases hend
    exact ⟨b, s.pos, hrecv, rfl, rfl⟩
  · obtain ⟨r, -, hr⟩ := Option.bind_eq_some_iff.mp hend
    cases hr
    exact ⟨b, s.pos, hrecv, rfl, rfl⟩

/-- The parser ends behind the head. -/
theorem Response.linesRead_pos (r : Response) :
    (linesRead r.status r.fields r.last).pos = r.head.length := by
  rw [r.lines.bytes, linesRead, fieldsEnd, List.flatMap_cons, List.length_append, List.length_append]

/-- What is seen of the head, whatever comes behind it. -/
theorem Response.headSeen_head (r : Response) (more : List UInt8) :
    ∃ hc, headSeen (r.head ++ more) (scan headByte .init (r.head ++ more)) =
        some ⟨0, .headDone, some r.head.length, some hc⟩ ∧ hc.framing = linesFraming r.fields {} := by
  rw [← r.linesRead_pos]
  exact headSeen_lines r.lines r.head_small r.walked

/-- Before its end the head is read on. -/
theorem Response.scan_more {r : Response} {got trail : List UInt8} (hbegins : got <+: r.bytes ++ trail)
    (hshort : got.length < r.head.length) : ∃ s, scan headByte .init got = .more s := by
  obtain ⟨rest, hrest⟩ := hbegins
  rw [Response.bytes, List.append_assoc] at hrest
  cases hscan : scan headByte .init got with
  | more s => exact ⟨s, rfl⟩
  | stop q =>
      have hwhole : scan headByte .init (got ++ rest) = .stop q := by
        rw [scan_append, hscan, Scan.stop_bind]
      rw [hrest, scan_headLines r.lines] at hwhole
      cases hwhole
      -- the loop has stopped behind the head, and within the bytes read
      have hle := ((scan_ok got).2 _ hscan).1
      rw [r.linesRead_pos] at hle
      exact absurd hshort (Nat.not_lt_of_le hle)

section

variable (inflateGzip : HttpBuf → HttpBuf → Int × HttpBuf) {r : Response} {client : HttpClient}
  {got trail : List UInt8} {frag : Fragment}

variable (client) in
/-- In the body only the body parser is called. -/
theorem httpProcessResponse_body (hstatus : client.status = .headDone) {res : Int × HttpClient}
    (hcall : httpParseHtml inflateGzip client = some res) (hret : res.1 = 0) :
    httpProcessResponse inflateGzip client = some (0, res.2) := by
  have hne : client.status ≠ .reqDone := by
    rw [hstatus]
    decide
  rw [httpProcessResponse, if_neg hne]
  simp only [Option.bind_some, if_pos hstatus, hcall, Option.map_some, hret]
  rfl

variable (client) in
/-- In the head both parsers are called, the second one if the first has come to the end. -/
theorem httpProcessResponse_head (hstatus : client.status = .reqDone) {res : Int × HttpClient}
    (hcall : httpParseHead client = some res) (hret : res.1 = 0) :
    httpProcessResponse inflateGzip client =
      (if res.2.status = .headDone then httpParseHtml inflateGzip res.2 else some (0, res.2)).map
        fun (rc, client) => (if rc < 0 then -1 else 0, client) := by
  rw [httpProcessResponse, if_pos hstatus, hcall]
  simp only [Option.bind_some, hret]
  rfl

/-- The head has been read to its end: the call goes on in the body. -/
theorem HeadMidway.whole (h : HeadMidway client got) (hhtml : client.html = none) {more : List UInt8}
    (hgot : got ++ frag.bytes = r.head ++ more) (hbegins : more <+: r.body.bytes ++ trail) :
    ∃ client', httpProcessResponse inflateGzip (client.recvd frag) = some (0, client') ∧
      Midway.Next r client' (r.head ++ more) := by
  obtain ⟨hc, hseen, hframing⟩ := r.headSeen_head more
  have hview := (head_resumable (fun _ => True) fun _ _ _ => trivial).view client got frag h trivial
  rw [hgot, hseen] at hview
  obtain ⟨res, hcall, hres⟩ := Option.map_eq_some_iff.mp hview
  have hret : res.1 = 0 := congrArg HeadView.ret hres
  have hdone : res.2.status = .headDone := congrArg HeadView.status hres
  have hhead : res.2.head = some hc := congrArg HeadView.head hres
  obtain ⟨b, pos, hrecv, hrecv', hhtml'⟩ := httpParseHead_leaves hcall
  have hbytes : b.bytes = r.head ++ more := by
    obtain ⟨b₀, s, hrecv₀, hbytes₀, -⟩ := h.state
    rw [HttpClient.recvd, hrecv₀, Option.map_some, Option.some.injEq] at hrecv
    rw [← hrecv, HttpBuf.recvd_bytes, hbytes₀, hgot]
  have hpos : pos = r.head.length := by
    have hviewPos := congrArg HeadView.pos hres
    rw [headView, hrecv'] at hviewPos
    exact Option.some.inj hviewPos
  have hgzip : hc.gzipFlag = false := by
    have hannounced := r.announced
    rw [← hframing] at hannounced
    cases hbody : r.body with
    | sized data =>
        rw [hbody] at hannounced
        exact congrArg Framing.gzipFlag hannounced.1
    | chunked texts =>
        rw [hbody] at hannounced
        exact hannounced.2
  -- the client as if the head alone had been received
  let ready : HttpClient := { res.2 with recv := some { b with bytes := r.head, pos := pos } }
  have hready : BodyReady ready hc { b with bytes := r.head, pos := pos } :=
    ⟨hdone, hhead, hgzip, hhtml'.trans hhtml, rfl, hpos⟩
  have hrecvd : ready.recvd { bytes := more } = res.2 := by
    have hwhole : some ({ b with bytes := r.head ++ more, pos := pos } : HttpBuf) = res.2.recv := by
      rw [hrecv', ← hbytes]
    show { res.2 with recv := some { b with bytes := r.head ++ more, pos := pos } } = res.2
    rw [hwhole]
  have hbegins' : [] ++ (Fragment.mk [] more).bytes <+: r.body.bytes ++ trail := hbegins
  obtain ⟨res', hcall', hret', hnext⟩ := (hready.inBody rfl hframing).call inflateGzip hbegins'
  rw [htmlCall, hrecvd] at hcall'
  refine ⟨res'.2, ?_, hnext.response⟩
  rw [httpProcessResponse_head inflateGzip (client.recvd frag) h.status hcall hret, if_pos hdone,
    hcall', Option.map_some]
  simp only [hret']
  rfl

/-- One call on what has been received next: the page is handed over when, and only when, all the bytes
that are waited for have come. -/
theorem Midway.call (h : Midway r client got) (hbegins : got ++ frag.bytes <+: r.bytes ++ trail) :
    ∃ client', httpProcessResponse inflateGzip (client.recvd frag) = some (0, client') ∧
      Midway.Next r client' (got ++ frag.bytes) := by
  cases h with
  | body hin =>
      rename_i more
      rw [Response.bytes, List.append_assoc, List.append_assoc] at hbegins
      have hbody := (List.prefix_append_right_inj r.head).mp hbegins
      obtain ⟨res, hcall, hret, hnext⟩ := hin.call inflateGzip hbody
      rw [List.append_assoc]
      exact ⟨res.2, httpProcessResponse_body inflateGzip (client.recvd frag) hin.status hcall hret,
        hnext.response⟩
  | head hmid hhtml =>
      rcases Nat.lt_or_ge (got ++ frag.bytes).length r.head.length with hshort | hlong
      · obtain ⟨s, hs⟩ := Response.scan_more hbegins hshort
        have hresumable := head_resumable (fun _ => True) fun _ _ _ => trivial
        have hview := hresumable.view client got frag hmid trivial
        rw [hs, headSeen] at hview
        obtain ⟨res, hcall, hres⟩ := Option.map_eq_some_iff.mp hview
        have hret : res.1 = 0 := congrArg HeadView.ret hres
        have hstatus : res.2.status = .reqDone := congrArg HeadView.status hres
        have hfinal : headFinal res = false := by
          rw [headFinal, hret, hstatus]
          rfl
        obtain ⟨b, pos, -, -, hhtml'⟩ := httpParseHead_leaves hcall
        have hnext := hresumable.next client got frag res hmid trivial trivial hcall hfinal
        refine ⟨res.2, ?_, ?_⟩
        · have hne : res.2.status ≠ .headDone := by
            rw [hstatus]
            decide
          rw [httpProcessResponse_head inflateGzip (client.recvd frag) hmid.status hcall hret,
            if_neg hne]
          rfl
        · have hnot : ¬ r.need ≤ (got ++ frag.bytes).length := fun hle =>
            absurd hshort (Nat.not_lt_of_le (Nat.le_trans (Nat.le_add_right _ _) hle))
          rw [Midway.Next, if_neg hnot]
          have hmid' : Midway r res.2 (got ++ frag.bytes) := .head hnext (hhtml'.trans hhtml)
          exact ⟨hmid'.status, fun _ => hmid'⟩
      · have hhead : r.head <+: got ++ frag.bytes := by
          refine List.prefix_of_prefix_length_le ⟨r.body.bytes ++ trail, ?_⟩ hbegins hlong
          rw [Response.bytes, List.append_assoc]
        obtain ⟨more, hmore⟩ := hhead
        rw [← hmore]
        have hbegins' : more <+: r.body.bytes ++ trail := by
          rw [← hmore, Response.bytes, List.append_assoc] at hbegins
          exact (List.prefix_append_right_inj r.head).mp hbegins
        exact hmid.whole inflateGzip hhtml hmore.symm hbegins'

end

end Crawler.Http
