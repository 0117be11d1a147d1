/-
# Crawler.Http.SizeLine — what a chunk-size line says, and what is read

A size line announces the hexadecimal number at its start. Blanks do not count, and neither does an
extension, from a `;` on. The parser leaves out the blanks alone: it shifts the length at every other
character, also at one that is no digit, which it logs. It reads a line as it is, or refuses it,
exactly when a second CR comes before an LF, or the line announces a number that the characters of its
extension, read as digits after it, do not change (`readsLine_iff`).
-/
import Crawler.Http.HtmlCuts
import Mathlib.Tactic.Ring

namespace Crawler.Http

open Crawler.Lib

/-! ## The number that digits write -/

/-- A hexadecimal digit, of either case. -/
def isHexDigit (c : UInt8) : Bool :=
  (48 ≤ c && c ≤ 57) || (65 ≤ c && c ≤ 70) || (97 ≤ c && c ≤ 102)

/-- The number that a list of digits writes. -/
def hexNumber (digits : List UInt8) : Nat :=
  digits.foldl (fun n c => n * 16 + (hexDigit c).toNat) 0

/-- A blank of a size line. -/
def isBlank (c : UInt8) : Bool := c = 32 || c = 9

/-- What shifts the length when a size line is read: all but blanks and the bytes of line ends. -/
def symbols (line : List UInt8) : List UInt8 :=
  line.filter fun c => !(isBlank c || c = 13 || c = 10)

/-- Digits after a number already read. -/
theorem hexNumber_foldl (n : Nat) (digits : List UInt8) :
    digits.foldl (fun n c => n * 16 + (hexDigit c).toNat) n =
      n * 16 ^ digits.length + hexNumber digits := by
  unfold hexNumber
  induction digits generalizing n with
  | nil => simp
  | cons c digits ih =>
      rw [List.foldl_cons, List.foldl_cons, ih, ih (0 * 16 + _), List.length_cons, Nat.pow_succ]
      ring

theorem hexNumber_cons (c : UInt8) (digits : List UInt8) :
    hexNumber (c :: digits) = (hexDigit c).toNat * 16 ^ digits.length + hexNumber digits := by
  rw [hexNumber, List.foldl_cons, hexNumber_foldl, Nat.zero_mul, Nat.zero_add]

theorem hexNumber_append (ds es : List UInt8) :
    hexNumber (ds ++ es) = hexNumber ds * 16 ^ es.length + hexNumber es := by
  rw [hexNumber, List.foldl_append, hexNumber_foldl]
  rfl

theorem symbols_append (line more : List UInt8) :
    symbols (line ++ more) = symbols line ++ symbols more :=
  List.filter_append ..

/-- What reading a stretch of a size line makes of the length, as arithmetic. -/
theorem addDigit_foldl (v : UInt32) (line : List UInt8) :
    (line.foldl addDigit v).toNat =
      (v.toNat * 16 ^ (symbols line).length + hexNumber (symbols line)) % 2 ^ 32 := by
  induction line generalizing v with
  | nil =>
      show v.toNat = (v.toNat * 1 + 0) % 2 ^ 32
      rw [Nat.mul_one, Nat.add_zero, Nat.mod_eq_of_lt v.toNat_lt]
  | cons c line ih =>
      rw [List.foldl_cons, ih]
      by_cases hc : c = 32 ∨ c = 9 ∨ c = 13 ∨ c = 10
      · -- such a byte neither adds to the length nor counts among the symbols
        have hsame : symbols (c :: line) = symbols line :=
          List.filter_cons_of_neg (by rcases hc with rfl | rfl | rfl | rfl <;> decide)
        rw [hsame, addDigit, if_pos hc]
      · have hsymbol : symbols (c :: line) = c :: symbols line := by
          refine List.filter_cons_of_pos ?_
          simp only [not_or] at hc
          simp [isBlank, hc]
        rw [hsymbol, addDigit, if_neg hc, hexNumber_cons, List.length_cons, shift_toNat, Nat.pow_succ,
          ← Nat.mod_add_mod, Nat.mod_mul_mod, Nat.mod_add_mod]
        congr 1
        ring

/-- The length read from a whole size line. -/
theorem lineLen_toNat (line : List UInt8) :
    (lineLen line).toNat = hexNumber (symbols line) % 2 ^ 32 := by
  rw [lineLen, addDigit_foldl, UInt32.toNat_zero, Nat.zero_mul, Nat.zero_add]

/-! ## What a line announces -/

/-- The part of a size line before its extension, without the blanks. -/
def sizeDigits (line : List UInt8) : List UInt8 :=
  (line.takeWhile (· ≠ 59)).filter fun c => !isBlank c

/-- The chunk length that a size line announces: none when a CR stands inside it, when there is no
digit or another character, or when the number does not fit in 32 bits. -/
def sizeLineValue (line : List UInt8) : Option Nat :=
  if 13 ∉ line ∧ sizeDigits line ≠ [] ∧ (sizeDigits line).all isHexDigit ∧
      hexNumber (sizeDigits line) < 2 ^ 32 then
    some (hexNumber (sizeDigits line))
  else none

/-- At the start of a size line. -/
def lineStart (pos : Nat) : SizeState := { status := .lenDone, chunkLen := 0, pos := pos }

/-- A size line that is followed by its CR LF is refused, or the length it announces is taken. -/
def ReadsLine (line : List UInt8) : Prop :=
  ∀ pos rest,
    (∃ s, scan sizeByte (lineStart pos) (line ++ 13 :: 10 :: rest) = .stop (.error s)) ∨
    ∃ t, scan sizeByte (lineStart pos) (line ++ 13 :: 10 :: rest) = .stop (.loop t) ∧
      sizeLineValue line = some t.chunkLen.toNat

/-- A second CR comes before any LF; the one that ends the line counts. -/
def StrayCr (line : List UInt8) : Prop :=
  ∃ a b c, line ++ [13] = a ++ 13 :: (b ++ 13 :: c) ∧ 13 ∉ a ∧ 13 ∉ b ∧ 10 ∉ b

/-- The characters of the line's extension, read as digits after the number `v`, leave it. -/
def ExtensionHarmless (line : List UInt8) (v : Nat) : Prop :=
  let marks := symbols (line.dropWhile (· ≠ 59))
  (v * 16 ^ marks.length + hexNumber marks) % 2 ^ 32 = v

/-! ## What is read -/

/-- The bytes of the line ends are no hexadecimal digits. -/
theorem isHexDigit_ne {c : UInt8} (h : isHexDigit c) : c ≠ 13 ∧ c ≠ 10 := by
  constructor <;> rintro rfl <;> cases h

/-- Before the extension of a line that announces a number stand its digits alone. -/
theorem symbols_takeWhile {line : List UInt8} (h : ∀ c ∈ sizeDigits line, isHexDigit c) :
    symbols (line.takeWhile (· ≠ 59)) = sizeDigits line := by
  refine List.filter_congr fun c hc => ?_
  cases hblank : isBlank c with
  | true => rfl
  | false =>
      have hdigit := isHexDigit_ne (h c (List.mem_filter.mpr ⟨hc, by rw [hblank]; rfl⟩))
      simp [hdigit.1, hdigit.2]

/-- The length read from a line that announces `v`. -/
theorem lineLen_of_value {line : List UInt8} {v : Nat} (h : sizeLineValue line = some v) :
    (lineLen line).toNat = (v * 16 ^ (symbols (line.dropWhile (· ≠ 59))).length +
      hexNumber (symbols (line.dropWhile (· ≠ 59)))) % 2 ^ 32 := by
  unfold sizeLineValue at h
  split_ifs at h with hvalue
  cases h
  calc (lineLen line).toNat
      = hexNumber (symbols line) % 2 ^ 32 := lineLen_toNat line
    _ = hexNumber (symbols (line.takeWhile (· ≠ 59)) ++ symbols (line.dropWhile (· ≠ 59))) %
          2 ^ 32 := by rw [← symbols_append, List.takeWhile_append_dropWhile]
    _ = _ := by rw [symbols_takeWhile (List.all_eq_true.mp hvalue.2.2.1), hexNumber_append]

/-- A line without a CR is read to its end. -/
theorem scan_line_noCr {line : List UInt8} (h : 13 ∉ line) (pos : Nat) (rest : List UInt8) :
    scan sizeByte (lineStart pos) (line ++ 13 :: 10 :: rest) =
      .stop (.loop { status := .lenDone, chunkLen := lineLen line, pos := pos + line.length + 2 }) := by
  have hbefore := scan_beforeLf h List.not_mem_nil List.not_mem_nil pos
  rw [List.append_nil] at hbefore
  rw [← List.singleton_append, ← List.append_assoc, scan_append, lineStart, hbefore]
  simp [scan, sizeByte, Scan.bind, Nat.add_assoc]

/-- A line that announces a number has no CR in it. -/
theorem noCr_of_value {line : List UInt8} {v : Nat} (h : sizeLineValue line = some v) :
    13 ∉ line := by
  unfold sizeLineValue at h
  split_ifs at h with hvalue
  exact hvalue.1

/-- Where a line has a CR in it, reading goes on after the first, and a CR or an LF decides. -/
theorem scan_firstCr {a b : List UInt8} (ha : 13 ∉ a) (hcr : 13 ∉ b) (hlf : 10 ∉ b) (pos : Nat)
    (c : UInt8) (rest : List UInt8) :
    scan sizeByte (lineStart pos) (a ++ 13 :: (b ++ c :: rest)) =
      (sizeByte { status := .lenHalf, chunkLen := lineLen (a ++ b),
                  pos := pos + (a ++ 13 :: b).length } c).bind fun s => scan sizeByte s rest := by
  have hsplit : a ++ 13 :: (b ++ c :: rest) = (a ++ 13 :: b) ++ c :: rest := by simp
  rw [hsplit, scan_append, lineStart, scan_beforeLf ha hcr hlf]
  rfl

theorem StrayCr.error {line : List UInt8} (h : StrayCr line) (pos : Nat) (rest : List UInt8) :
    ∃ s, scan sizeByte (lineStart pos) (line ++ 13 :: 10 :: rest) = .stop (.error s) := by
  obtain ⟨a, b, c, hline, ha, hcr, hlf⟩ := h
  have hbytes : line ++ 13 :: 10 :: rest = a ++ 13 :: (b ++ 13 :: (c ++ 10 :: rest)) := by
    calc line ++ 13 :: 10 :: rest = (line ++ [13]) ++ 10 :: rest := by simp
      _ = a ++ 13 :: (b ++ 13 :: (c ++ 10 :: rest)) := by rw [hline]; simp
  rw [hbytes, scan_firstCr ha hcr hlf]
  exact ⟨_, rfl⟩

/-- A line with a CR in it is refused, or taken for a shorter one. -/
theorem strayCr_or_loop {line : List UInt8} (h : 13 ∈ line) :
    StrayCr line ∨ ∀ pos rest, ∃ t,
      scan sizeByte (lineStart pos) (line ++ 13 :: 10 :: rest) = .stop (.loop t) := by
  obtain ⟨a, more, rfl, ha⟩ := List.eq_append_cons_of_mem h
  -- the first CR or LF after it; the CR of the line's end is one
  obtain ⟨c, hfind⟩ : ∃ c, (more ++ [13]).find? (fun c => c = 13 || c = 10) = some c :=
    Option.isSome_iff_exists.mp (List.find?_isSome.mpr ⟨13, by simp, rfl⟩)
  obtain ⟨hc, b, rest', hmore, hb⟩ := List.find?_eq_some_iff_append.mp hfind
  have hcr : 13 ∉ b := fun hm => by simpa using hb 13 hm
  have hlf : 10 ∉ b := fun hm => by simpa using hb 10 hm
  rcases (by simpa using hc : c = 13 ∨ c = 10) with rfl | rfl
  · refine .inl ⟨a, b, rest', ?_, ha, hcr, hlf⟩
    rw [← hmore]
    simp
  · refine .inr fun pos rest => ?_
    have hbytes : (a ++ 13 :: more) ++ 13 :: 10 :: rest =
        a ++ 13 :: (b ++ 10 :: (rest' ++ 10 :: rest)) := by
      calc (a ++ 13 :: more) ++ 13 :: 10 :: rest = a ++ 13 :: ((more ++ [13]) ++ 10 :: rest) := by simp
        _ = a ++ 13 :: (b ++ 10 :: (rest' ++ 10 :: rest)) := by rw [hmore]; simp
    rw [hbytes, scan_firstCr ha hcr hlf]
    exact ⟨_, rfl⟩

/-! ## Which lines are read as they are -/

/-- A size line is refused or read as it is exactly when a second CR comes before any LF, or it
announces a number that the characters of its extension, read as digits after it, leave. -/
theorem readsLine_iff (line : List UInt8) :
    ReadsLine line ↔
      StrayCr line ∨ ∃ v, sizeLineValue line = some v ∧ ExtensionHarmless line v := by
  constructor
  · intro hreads
    by_cases hcr : 13 ∈ line
    · refine (strayCr_or_loop hcr).imp_right fun hloop => ?_
      obtain ⟨t, ht⟩ := hloop 0 []
      rcases hreads 0 [] with ⟨s, hs⟩ | ⟨t, -, hvalue⟩
      · cases ht.symm.trans hs
      · exact absurd hcr (noCr_of_value hvalue)
    · refine .inr ?_
      have hscan := scan_line_noCr hcr 0 []
      rcases hreads 0 [] with ⟨s, hs⟩ | ⟨t, ht, hvalue⟩
      · cases hscan.symm.trans hs
      · cases hscan.symm.trans ht
        exact ⟨_, hvalue, (lineLen_of_value hvalue).symm⟩
  · rintro (hstray | ⟨v, hvalue, hharmless⟩) pos rest
    · exact .inl (hstray.error pos rest)
    · refine .inr ⟨_, scan_line_noCr (noCr_of_value hvalue) pos rest, ?_⟩
      show sizeLineValue line = some (lineLen line).toNat
      rw [lineLen_of_value hvalue, hharmless]
      exact hvalue

/-- The extension of `1;a` is read as two more digits: a chunk of 266 bytes is expected. -/
theorem extension_not_readsLine : ¬ ReadsLine (lit "1;a") := by
  intro hreads
  have hscan : scan sizeByte (lineStart 0) (lit "1;a" ++ 13 :: 10 :: []) =
      .stop (.loop { status := .lenDone, chunkLen := 0x10a, pos := 5 }) := by rfl
  rcases hreads 0 [] with ⟨s, hs⟩ | ⟨t, ht, hvalue⟩
  · cases hscan.symm.trans hs
  · cases hscan.symm.trans ht
    have hone : sizeLineValue (lit "1;a") = some 1 := by rfl
    cases hone.symm.trans hvalue

end Crawler.Http
