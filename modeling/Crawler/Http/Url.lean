/-
# Crawler.Http.Url — the way of a URL through its buffers

`redis_list_lpop`, `create_http_url` of `async_dns.c` and the end of `parse_html`: the string popped from a
list is taken apart, its parts are packed into one buffer, and put together again for `parse_done`.

Schema and host are taken by offset and length, the path from its offset to the end of the string, with
query and fragment. What stands between `://` and the path besides the host is lost: user
information, the brackets of an IPv6 address and the port (`keepsUrl_iff`). Of the three additions to the
string that make it longer, the NULs in `url->buf` and the `://` are paid for by the `://` that is left out;
the `/` for a missing path is not (`fitsAll_iff`).
-/
import Crawler.Core
import Mathlib.Tactic.Common

namespace Crawler.Http

/-! ## The code -/

/-- A field of `struct http_parser_url` whose bit in `field_set` is set. -/
structure FieldData where
  off : Nat
  len : Nat
  deriving DecidableEq, Repr

/-- `struct http_parser_url`, as far as it is read. -/
structure ParsedUrl where
  schema : Option FieldData
  host : Option FieldData
  path : Option FieldData
  deriving DecidableEq, Repr

/-- A string copied with its NUL into an array of `size` bytes; `none` where it overruns it. -/
def copyTo (size : Nat) (s : CStr) : Option CStr := if s.length < size then some s else none

/-- The bytes of a field. -/
def FieldData.of (f : FieldData) (s : CStr) : CStr := (s.drop f.off).take f.len

/-- `redis_list_lpop(key)` for a reply with a string. -/
def redisListLpop (reply : CStr) : Option CStr := copyTo (reply.length + 1) reply

/-- The three strings in the 1024 bytes of `url->buf`, one behind the NUL of the other. -/
def packUrl (schema host path : CStr) : Option HttpUrl :=
  if (schema.length + 1) + (host.length + 1) + (path.length + 1) ≤ 1024 then
    some { port := if schema ≠ lit "https" then 80 else 443, schema := schema, host := host, path := path }
  else none

/-- `create_http_url(str_url)`, `malloc` succeeding, where `http_parser_parse_url` finds what `parse` says:
`some none` is NULL, `none` an overrun. -/
def createHttpUrl (parse : CStr → Option ParsedUrl) (strUrl : CStr) : Option (Option HttpUrl) :=
  match parse strUrl with
  | none => some none
  | some u =>
      match u.host with
      | none => some none
      | some f => do
          let host ← copyTo 1024 (f.of strUrl)
          let schema ← copyTo 1024 (u.schema.elim (lit "http") fun f => f.of strUrl)
          -- the path is copied up to the NUL of the string
          let path ← copyTo 1024 (u.path.elim (lit "/") fun f => strUrl.drop f.off)
          (packUrl schema host path).map some

/-- `httpurl` of `parse_html`, which is pushed to `parse_done`. -/
def doneUrl (url : HttpUrl) : Option CStr :=
  copyTo 1024 (url.schema ++ lit "://" ++ url.host ++ url.path)

/-! ## A URL and its parts -/

/-- What a URL consists of, without the delimiters. -/
structure UrlParts where
  schema : CStr
  userinfo : Option CStr := none
  bracketed : Bool := false
  host : CStr
  port : Option CStr := none
  path : Option CStr := none
  query : Option CStr := none
  fragment : Option CStr := none
  deriving DecidableEq, Repr

namespace UrlParts

variable (p : UrlParts)

/-- User information and the bracket that opens. -/
def beforeHost : CStr := (p.userinfo.elim [] fun u => u ++ lit "@") ++ if p.bracketed then lit "[" else []

/-- The bracket that closes and the port. -/
def afterHost : CStr := (if p.bracketed then lit "]" else []) ++ p.port.elim [] fun d => lit ":" ++ d

/-- Query and fragment. -/
def afterPath : CStr := (p.query.elim [] fun q => lit "?" ++ q) ++ p.fragment.elim [] fun f => lit "#" ++ f

/-- What precedes the path. -/
def origin : CStr := p.schema ++ lit "://" ++ p.beforeHost ++ p.host ++ p.afterHost

/-- The string. -/
def text : CStr := p.origin ++ p.path.getD [] ++ p.afterPath

/-- The right offsets and lengths. -/
def fields : ParsedUrl where
  schema := some ⟨0, p.schema.length⟩
  host := some ⟨(p.schema ++ lit "://" ++ p.beforeHost).length, p.host.length⟩
  path := p.path.map fun x => ⟨p.origin.length, x.length⟩

/-- What is taken for the path. -/
def target : CStr := p.path.elim (lit "/") fun x => x ++ p.afterPath

/-- The port as a number. -/
def portNumber (digits : CStr) : Nat := digits.foldl (fun n c => n * 10 + (c.toNat - 48)) 0

/-- The port that is written, or else that of the schema. -/
def effectivePort : Nat := p.port.elim (if p.schema = lit "https" then 443 else 80) portNumber

end UrlParts

variable {parse : CStr → Option ParsedUrl} {p : UrlParts}

theorem lit_sep_length : (lit "://").length = 3 := by decide

theorem schema_of_text (p : UrlParts) : FieldData.of ⟨0, p.schema.length⟩ p.text = p.schema := by
  simp only [FieldData.of, UrlParts.text, UrlParts.origin, List.drop_zero, List.append_assoc, List.take_left]

theorem host_of_text (p : UrlParts) :
    FieldData.of ⟨(p.schema ++ lit "://" ++ p.beforeHost).length, p.host.length⟩ p.text = p.host := by
  have htext : p.text = (p.schema ++ lit "://" ++ p.beforeHost) ++
      (p.host ++ (p.afterHost ++ p.path.getD [] ++ p.afterPath)) := by
    simp only [UrlParts.text, UrlParts.origin, List.append_assoc]
  rw [FieldData.of, htext, List.drop_left, List.take_left]

theorem path_of_text (p : UrlParts) :
    (p.fields.path.elim (lit "/") fun f => p.text.drop f.off) = p.target := by
  unfold UrlParts.fields UrlParts.target
  cases hpath : p.path with
  | none => rfl
  | some x =>
      show p.text.drop p.origin.length = x ++ p.afterPath
      rw [UrlParts.text, hpath, List.append_assoc, List.drop_left, Option.getD_some]

theorem copyTo_eq_some {size : Nat} {s t : CStr} : copyTo size s = some t ↔ s.length < size ∧ t = s := by
  rw [copyTo]
  split_ifs with h
  · simp [h, eq_comm]
  · simp [h]

/-- The parts as they are copied and packed. -/
theorem createHttpUrl_text (hparse : parse p.text = some p.fields) :
    createHttpUrl parse p.text =
      if p.schema.length + p.host.length + p.target.length + 3 ≤ 1024 then
        some (some { port := if p.schema ≠ lit "https" then 80 else 443, schema := p.schema,
                     host := p.host, path := p.target })
      else none := by
  have hpath := path_of_text p
  rw [createHttpUrl, hparse]
  simp only [UrlParts.fields, Option.elim_some] at hpath ⊢
  rw [host_of_text, schema_of_text, hpath]
  by_cases hpacked : p.schema.length + p.host.length + p.target.length + 3 ≤ 1024
  · have hhost : copyTo 1024 p.host = some p.host := copyTo_eq_some.mpr ⟨by omega, rfl⟩
    have hschema : copyTo 1024 p.schema = some p.schema := copyTo_eq_some.mpr ⟨by omega, rfl⟩
    have htarget : copyTo 1024 p.target = some p.target := copyTo_eq_some.mpr ⟨by omega, rfl⟩
    rw [if_pos hpacked, hhost, hschema, htarget]
    simp only [Option.bind_eq_bind, Option.bind_some]
    rw [packUrl, if_pos (by omega), Option.map_some]
  · -- whichever copy fits, all three do not
    rw [if_neg hpacked, Option.bind_eq_bind, Option.bind_eq_none_iff]
    intro host hhost
    rw [Option.bind_eq_none_iff]
    intro schema hschema
    rw [Option.bind_eq_none_iff]
    intro path htarget
    obtain ⟨-, rfl⟩ := copyTo_eq_some.mp hhost
    obtain ⟨-, rfl⟩ := copyTo_eq_some.mp hschema
    obtain ⟨-, rfl⟩ := copyTo_eq_some.mp htarget
    rw [packUrl, if_neg (by omega), Option.map_none]

/-! ## Nothing is lost -/

/-- The url has the port that is written or that of the schema, and put together again it is the string. -/
def KeepsUrl (parse : CStr → Option ParsedUrl) (p : UrlParts) : Prop :=
  ∃ url, createHttpUrl parse p.text = some (some url) ∧ url.port.toNat = p.effectivePort ∧
    doneUrl url = some p.text

/-- Nothing but the host stands between `://` and the path. -/
def HostAlone (p : UrlParts) : Prop := p.userinfo = none ∧ p.bracketed = false ∧ p.port = none

theorem hostAlone_iff (p : UrlParts) : HostAlone p ↔ (p.beforeHost ++ p.afterHost).length = 0 := by
  obtain ⟨schema, userinfo, bracketed, host, port, path, query, fragment⟩ := p
  simp only [HostAlone, UrlParts.beforeHost, UrlParts.afterHost]
  cases userinfo <;> cases bracketed <;> cases port <;> simp [lit]

theorem text_length (p : UrlParts) {x : CStr} (hpath : p.path = some x) :
    p.text.length = p.schema.length + 3 + p.host.length + p.target.length +
      (p.beforeHost ++ p.afterHost).length := by
  have hsep := lit_sep_length
  simp only [UrlParts.text, UrlParts.origin, UrlParts.target, hpath, Option.getD_some, Option.elim_some,
    List.length_append]
  omega

/-- A URL with a path is decomposed without loss exactly when between `://` and the path there is nothing
but the host. -/
theorem keepsUrl_iff (hparse : parse p.text = some p.fields) (hlen : p.text.length < 1024)
    (hschema : p.schema = lit "http" ∨ p.schema = lit "https") {x : CStr}
    (hpath : p.path = some (lit "/" ++ x)) : KeepsUrl parse p ↔ HostAlone p := by
  have htext := text_length p hpath
  have hurl := createHttpUrl_text hparse
  rw [if_pos (by omega)] at hurl
  constructor
  · rintro ⟨url, hcreate, -, hdone⟩
    obtain rfl := Option.some.inj (Option.some.inj (hurl.symm.trans hcreate))
    -- what is put together has the length of the parts that were kept
    have hlength := congrArg List.length (copyTo_eq_some.mp hdone).2
    have hsep := lit_sep_length
    simp only [List.length_append] at hlength htext
    rw [hostAlone_iff, List.length_append]
    omega
  · intro halone
    obtain ⟨huser, hbracketed, hport⟩ := halone
    have hrebuilt : p.schema ++ lit "://" ++ p.host ++ p.target = p.text := by
      simp only [UrlParts.text, UrlParts.origin, UrlParts.target, UrlParts.beforeHost, UrlParts.afterHost,
        huser, hbracketed, hport, hpath, Option.elim_none, Option.elim_some, Option.getD_some,
        Bool.false_eq_true, if_false, List.append_nil, List.append_assoc]
    refine ⟨_, hurl, ?_, ?_⟩
    · rw [UrlParts.effectivePort, hport, Option.elim_none]
      show (if p.schema ≠ lit "https" then (80 : UInt16) else 443).toNat = _
      rcases hschema with h | h <;> rw [h] <;> decide
    · exact copyTo_eq_some.mpr ⟨hrebuilt ▸ hlen, hrebuilt.symm⟩

/-- A parser that knows one URL. -/
def parseOne (p : UrlParts) : CStr → Option ParsedUrl := fun s => if s = p.text then some p.fields else none

/-- `http://h/?q`. -/
def queryUrl : UrlParts := { schema := lit "http", host := lit "h", path := some (lit "/"), query := some (lit "q") }

theorem keepsUrl_iff_query : KeepsUrl (parseOne queryUrl) queryUrl ↔ HostAlone queryUrl :=
  keepsUrl_iff (if_pos rfl) (by decide) (.inl rfl) (x := []) (by decide)

/-- `http://h:8080/`. -/
def portUrl : UrlParts := { schema := lit "http", host := lit "h", port := some (lit "8080"), path := some (lit "/") }

/-- The port is 80, and what is pushed to `parse_done` is `http://h/`. -/
theorem portUrl_lost : ¬ KeepsUrl (parseOne portUrl) portUrl := by
  rintro ⟨url, hcreate, hport, -⟩
  have hurl : createHttpUrl (parseOne portUrl) portUrl.text =
      some (some { port := 80, schema := lit "http", host := lit "h", path := lit "/" }) := by decide
  obtain rfl := Option.some.inj (Option.some.inj (hurl.symm.trans hcreate))
  revert hport
  decide

/-! ## Everything fits -/

/-- Every copy of the string and of its parts fits into its buffer, from `redis_list_lpop` to
`parse_html`. -/
def FitsAll (parse : CStr → Option ParsedUrl) (strUrl : CStr) : Prop :=
  ∃ s url done, redisListLpop strUrl = some s ∧ createHttpUrl parse s = some (some url) ∧
    doneUrl url = some done

theorem origin_length_le (p : UrlParts) : p.schema.length + 3 + p.host.length ≤ p.text.length := by
  have hsep := lit_sep_length
  simp only [UrlParts.text, UrlParts.origin, List.length_append]
  omega

theorem target_length_of_none (hpath : p.path = none) : p.target.length = 1 := by
  rw [UrlParts.target, hpath, Option.elim_none]
  decide

/-- The parts of a string that fits into the first buffer fit into `url->buf`, with a `/` for a missing
path. -/
theorem packed_le (hlen : p.text.length ≤ 1023) :
    p.schema.length + p.host.length + p.target.length + 3 ≤ 1024 := by
  have horigin := origin_length_le p
  cases hpath : p.path with
  | none =>
      have htarget := target_length_of_none hpath
      omega
  | some x =>
      have htext := text_length p hpath
      omega

/-- What remains to fit is the string for `parse_done`. -/
theorem fitsAll_iff_done (hparse : parse p.text = some p.fields) (hlen : p.text.length ≤ 1023) :
    FitsAll parse p.text ↔ p.schema.length + 3 + p.host.length + p.target.length < 1024 := by
  have hurl := createHttpUrl_text hparse
  rw [if_pos (packed_le hlen)] at hurl
  have hpop : redisListLpop p.text = some p.text := copyTo_eq_some.mpr ⟨Nat.lt_succ_self _, rfl⟩
  have hsep := lit_sep_length
  constructor
  · rintro ⟨s, url, done, hs, hcreate, hdone⟩
    obtain rfl := Option.some.inj (hpop.symm.trans hs)
    obtain rfl := Option.some.inj (Option.some.inj (hurl.symm.trans hcreate))
    have hlength := (copyTo_eq_some.mp hdone).1
    simp only [List.length_append] at hlength
    omega
  · intro hlt
    refine ⟨_, _, _, hpop, hurl, copyTo_eq_some.mpr ⟨?_, rfl⟩⟩
    simp only [List.length_append]
    omega

/-- A string that fits into the first buffer fits into all of them, unless it has no path and its schema and
host fill the buffer. -/
theorem fitsAll_iff (hparse : parse p.text = some p.fields) (hlen : p.text.length ≤ 1023) :
    FitsAll parse p.text ↔ (p.path = none → p.schema.length + 3 + p.host.length ≤ 1022) := by
  rw [fitsAll_iff_done hparse hlen]
  cases hpath : p.path with
  | none =>
      have htarget := target_length_of_none hpath
      constructor
      · intro hlt _
        omega
      · intro hle
        have horigin := hle rfl
        omega
  | some x =>
      have htext := text_length p hpath
      refine iff_of_true ?_ fun hnone => by cases hnone
      omega

theorem fitsAll_iff_query :
    FitsAll (parseOne queryUrl) queryUrl.text ↔
      (queryUrl.path = none → queryUrl.schema.length + 3 + queryUrl.host.length ≤ 1022) :=
  fitsAll_iff (if_pos rfl) (by decide)

/-- `http://` and a host of 1016 bytes. -/
def longUrl : UrlParts := { schema := lit "http", host := List.replicate 1016 97 }

/-- It has 1023 bytes. With a `/` behind it and the NUL it takes 1025 in `httpurl`. -/
theorem longUrl_overruns : longUrl.text.length = 1023 ∧ ¬ FitsAll (parseOne longUrl) longUrl.text := by
  have hschema : longUrl.schema.length = 4 := by decide
  have hhost : longUrl.host.length = 1016 := List.length_replicate
  have hbetween : longUrl.beforeHost.length = 0 ∧ longUrl.afterHost.length = 0 := ⟨rfl, rfl⟩
  have hbehind : (longUrl.path.getD []).length = 0 ∧ longUrl.afterPath.length = 0 := ⟨rfl, rfl⟩
  have hsep := lit_sep_length
  have hlen : longUrl.text.length = 1023 := by
    simp only [UrlParts.text, UrlParts.origin, List.length_append]
    omega
  refine ⟨hlen, ?_⟩
  rw [fitsAll_iff_done (if_pos rfl) (Nat.le_of_eq hlen), target_length_of_none rfl]
  omega

end Crawler.Http
