/-
# Crawler.Http.Request — the bytes of a request

What `pack_req_buf` makes of a url. The text that `sprintf` writes is one byte shorter than the length that
is computed from the templates, which counts the NUL as well: the buffer is large enough for it. But
`last` is set behind that NUL, and what is sent goes up to `last`, so that a zero byte follows each
request (`packReqBuf_sends_nul`).
-/
import Crawler.Http.Write

namespace Crawler.Http

/-- What follows the first empty line. A request without a body ends there. -/
def afterRequest : List UInt8 → Option (List UInt8)
  | 13 :: 10 :: 13 :: 10 :: rest => some rest
  | _ :: rest => afterRequest rest
  | [] => none

/-- Host and path go into the request line and the `Host` field as they are: they have no CR, LF or
space. -/
def Sendable (url : HttpUrl) : Prop := ∀ c ∈ url.host ++ url.path, c ≠ 13 ∧ c ≠ 10 ∧ c ≠ 32

/-- The bytes from `pos` to `last` are the request, at whose end a parser has read all of them. The buffer
has room for a NUL behind it. -/
structure OnlyRequest (b : HttpBuf) (url : HttpUrl) : Prop where
  bytes : b.bytes.drop b.pos = reqText url
  consumed : afterRequest (b.bytes.drop b.pos) = some []
  room : (reqText url).length + 1 ≤ b.cap

/-- Bytes before the first CR end no line. -/
theorem afterRequest_append {xs rest : List UInt8} (h : ∀ c ∈ xs, c ≠ 13) :
    afterRequest (xs ++ rest) = afterRequest rest := by
  induction xs with
  | nil => rfl
  | cons c xs ih =>
      have hc : c ≠ 13 := h c List.mem_cons_self
      have hrest := ih fun c hc => h c (List.mem_cons_of_mem _ hc)
      rw [List.cons_append, afterRequest, hrest]
      intro _ heq
      exact absurd heq hc

/-- The end of a line that another one follows. -/
theorem afterRequest_crlf {c : UInt8} {rest : List UInt8} (h : c ≠ 13) :
    afterRequest (13 :: 10 :: c :: rest) = afterRequest rest := by
  have hcr : afterRequest (13 :: 10 :: c :: rest) = afterRequest (10 :: c :: rest) := by
    rw [afterRequest]
    intro _ _ heq
    exact h (List.cons.inj (List.cons.inj heq).2).1
  rw [hcr]
  refine @afterRequest_append [10, c] rest fun x hx => ?_
  simp only [List.mem_cons, List.not_mem_nil, or_false] at hx
  rcases hx with rfl | rfl
  · decide
  · exact h

/-- The length computed from the templates counts the text and the NUL. -/
theorem reqText_length (url : HttpUrl) : (reqText url).length + 1 = reqBufLen url := by
  have hline0 : (lit "GET ").length + (lit " HTTP/1.1\r\n").length = line0.length := by decide
  have hline1 : (lit "Host: ").length + (lit "\r\n").length = line1.length := by decide
  simp only [reqText, reqBufLen, List.length_append]
  omega

theorem packReqBuf_bytes (start : Addr) (url : HttpUrl) :
    (packReqBuf start url).bytes = reqText url ++ [0] := by
  have hlength := reqText_length url
  show (reqText url ++ List.replicate (reqBufLen url) 0).take (reqBufLen url) = _
  rw [← hlength, List.take_length_add_append, List.replicate_succ, List.take_succ_cons, List.take_zero]

theorem packReqBuf_pos (start : Addr) (url : HttpUrl) : (packReqBuf start url).pos = 0 := rfl

theorem packReqBuf_cap (start : Addr) (url : HttpUrl) : (packReqBuf start url).cap = reqBufLen url := rfl

/-- The fixed fields begin with no CR, and the empty line at their end is the first one. -/
theorem line2_lines : ∃ rest, line2 = 67 :: rest ∧ afterRequest (rest ++ [0]) = some [0] := by
  rw [line2]
  simp only [lit_append]
  repeat rw [lit_ofList]
  exact ⟨_, rfl, by decide +kernel⟩

/-- A parser that has read the request finds what follows its text. -/
theorem afterRequest_reqText {url : HttpUrl} (h : Sendable url) :
    afterRequest (reqText url ++ [0]) = some [0] := by
  have hhost : ∀ c ∈ url.host, c ≠ 13 := fun c hc => (h c (List.mem_append_left _ hc)).1
  have hpath : ∀ c ∈ url.path, c ≠ 13 := fun c hc => (h c (List.mem_append_right _ hc)).1
  have hget : ∀ c ∈ lit "GET ", c ≠ 13 := forall_mem_of_all (by decide)
  have hversion : ∀ c ∈ lit " HTTP/1.1", c ≠ 13 := forall_mem_of_all (by decide)
  have hfield : ∀ c ∈ lit "ost: ", c ≠ 13 := forall_mem_of_all (by decide)
  obtain ⟨rest, hline2, hrest⟩ := line2_lines
  have hsplit : reqText url ++ [0] = lit "GET " ++ (url.path ++ (lit " HTTP/1.1" ++ (13 :: 10 :: 72 ::
      (lit "ost: " ++ (url.host ++ (13 :: 10 :: 67 :: (rest ++ [0]))))))) := by
    have hline : lit " HTTP/1.1\r\n" = lit " HTTP/1.1" ++ [13, 10] := by decide
    have hname : lit "Host: " = 72 :: lit "ost: " := by decide
    have hend : lit "\r\n" = [13, 10] := by decide
    rw [reqText, hline, hname, hend, hline2]
    simp only [List.append_assoc, List.cons_append, List.nil_append]
  rw [hsplit, afterRequest_append hget, afterRequest_append hpath, afterRequest_append hversion,
    afterRequest_crlf (by decide), afterRequest_append hfield, afterRequest_append hhost,
    afterRequest_crlf (by decide), hrest]

/-- Whatever the url, the request is in the buffer with room for its NUL, and the NUL is sent behind it. -/
theorem packReqBuf_sends_nul (start : Addr) (url : HttpUrl) (h : Sendable url) :
    ¬ OnlyRequest (packReqBuf start url) url ∧
      (packReqBuf start url).bytes.drop (packReqBuf start url).pos = reqText url ++ [0] ∧
      afterRequest ((packReqBuf start url).bytes.drop (packReqBuf start url).pos) = some [0] ∧
      (reqText url).length + 1 ≤ (packReqBuf start url).cap := by
  have hbytes : (packReqBuf start url).bytes.drop (packReqBuf start url).pos = reqText url ++ [0] := by
    rw [packReqBuf_pos, List.drop_zero, packReqBuf_bytes]
  have hafter := afterRequest_reqText h
  refine ⟨fun honly => ?_, hbytes, by rw [hbytes, hafter], by rw [packReqBuf_cap, reqText_length]⟩
  have hall := honly.consumed
  rw [hbytes, hafter] at hall
  cases hall

/-- `http://a/`. -/
def rootUrl : HttpUrl := { port := 80, schema := lit "http", host := lit "a", path := lit "/" }

theorem packReqBuf_sends_nul_root : Sendable rootUrl ∧ ¬ OnlyRequest (packReqBuf 0 rootUrl) rootUrl ∧
    (packReqBuf 0 rootUrl).bytes.drop (packReqBuf 0 rootUrl).pos = reqText rootUrl ++ [0] ∧
    afterRequest ((packReqBuf 0 rootUrl).bytes.drop (packReqBuf 0 rootUrl).pos) = some [0] ∧
    (reqText rootUrl).length + 1 ≤ (packReqBuf 0 rootUrl).cap := by
  have hplain : Sendable rootUrl := forall_mem_of_all (by decide)
  exact ⟨hplain, packReqBuf_sends_nul 0 rootUrl hplain⟩

/-- One byte more than the request for `http://a/` is sent. -/
theorem packReqBuf_root : ¬ OnlyRequest (packReqBuf 0 rootUrl) rootUrl := by
  intro honly
  have hbytes := honly.bytes
  rw [packReqBuf_pos, List.drop_zero, packReqBuf_bytes] at hbytes
  have hlength := congrArg List.length hbytes
  rw [List.length_append, List.length_singleton] at hlength
  omega

end Crawler.Http
