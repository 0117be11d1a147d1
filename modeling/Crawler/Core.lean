/-
# Crawler.Core — the data every part of the crawler shares

Addresses, C strings and internet addresses. A pointer is a natural number handed out by an
allocator that never reuses one, so a pointer to freed memory stays different from every live one.
-/

namespace Crawler

/-- A pointer returned by `calloc`. -/
abbrev Addr := Nat

/-- The bytes of a C string, without the closing NUL. -/
abbrev CStr := List UInt8

/-- The bytes of a string literal. -/
def lit (s : String) : CStr := s.toList.map Char.toUInt8

theorem lit_append (s t : String) : lit (s ++ t) = lit s ++ lit t := by
  rw [lit, String.toList_append, List.map_append, lit, lit]

/-- The characters of a literal, without decoding it. -/
theorem lit_ofList (cs : List Char) : lit (String.ofList cs) = cs.map Char.toUInt8 := by
  rw [lit, String.toList_ofList]

/-- The bytes of a list, looked at one by one. -/
theorem forall_mem_of_all {P : UInt8 → Prop} [DecidablePred P] {bs : List UInt8}
    (h : (bs.all fun c => P c) = true) : ∀ c ∈ bs, P c :=
  fun c hc => of_decide_eq_true (List.all_eq_true.mp h c hc)

/-- `struct in_addr`: the four address bytes in network order. -/
structure InAddr where
  b0 : UInt8
  b1 : UInt8
  b2 : UInt8
  b3 : UInt8
  deriving DecidableEq, Repr

/-- `http_url_t`, without the buffer its strings lie in. -/
structure HttpUrl where
  port : UInt16
  schema : CStr
  host : CStr
  path : CStr
  deriving DecidableEq, Repr

/-- The bytes of an object from its start on. It goes on past the object's end: what a read beyond
the end returns is whatever lies there. -/
abbrev Mem := Nat → UInt8

end Crawler
