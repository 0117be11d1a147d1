/-
# Crawler.Http.HeadCase — the framing of a response and the spelling of its head

Names of header fields, and the values `chunked` and `gzip`, mean the same in capital and small letters.
`http_parse_head` compares them with `strcmp`, so a head spelled otherwise may be framed otherwise. A field
that some spelling makes count can also be spelled so that it does not (`Frames.respelled`). The framing
is therefore the same for every spelling exactly of the heads that no spelling gives a framing other than
none (`caseFree_iff`).
-/
import Crawler.Http.HeadRecords

namespace Crawler.Http

open Crawler.Lib

/-! ## Letters -/

/-- `tolower` in the C locale. -/
def lower (c : UInt8) : UInt8 := if 65 ≤ c ∧ c ≤ 90 then c + 32 else c

/-- The same but for the case of letters. -/
def SameLetters (as bs : List UInt8) : Prop := as.map lower = bs.map lower

instance (as bs : List UInt8) : Decidable (SameLetters as bs) := inferInstanceAs (Decidable (_ = _))

/-- A byte that is no letter. -/
def NoLetter (c : UInt8) : Prop := c < 65 ∨ 90 < c ∧ c < 97 ∨ 122 < c

theorem lower_toNat (c : UInt8) :
    (lower c).toNat = if 65 ≤ c.toNat ∧ c.toNat ≤ 90 then c.toNat + 32 else c.toNat := by
  have h65 : 65 ≤ c ↔ 65 ≤ c.toNat := UInt8.le_iff_toNat_le
  have h90 : c ≤ 90 ↔ c.toNat ≤ 90 := UInt8.le_iff_toNat_le
  have h32 : (32 : UInt8).toNat = 32 := rfl
  rw [lower]
  simp only [h65, h90]
  split_ifs with h
  · rw [UInt8.toNat_add, h32]
    omega
  · rfl

@[simp] theorem lower_lower (c : UInt8) : lower (lower c) = lower c := by
  rw [← UInt8.toNat_inj, lower_toNat, lower_toNat]
  split_ifs <;> omega

/-- No letter becomes a byte that is none. -/
theorem lower_eq_iff {x : UInt8} (hx : NoLetter x) (c : UInt8) : lower c = x ↔ c = x := by
  have hx' : x.toNat < 65 ∨ 90 < x.toNat ∧ x.toNat < 97 ∨ 122 < x.toNat := by
    simpa [NoLetter, UInt8.lt_iff_toNat_lt] using hx
  rw [← UInt8.toNat_inj, ← UInt8.toNat_inj, lower_toNat]
  split_ifs <;> omega

instance (c : UInt8) : Decidable (NoLetter c) := by
  unfold NoLetter
  infer_instance

namespace SameLetters

variable {as bs cs : List UInt8}

theorem refl (as : List UInt8) : SameLetters as as := rfl

theorem symm (h : SameLetters as bs) : SameLetters bs as := Eq.symm h

theorem trans (h : SameLetters as bs) (h' : SameLetters bs cs) : SameLetters as cs := Eq.trans h h'

theorem append {as' bs' : List UInt8} (h : SameLetters as bs) (h' : SameLetters as' bs') :
    SameLetters (as ++ as') (bs ++ bs') := by
  rw [SameLetters, List.map_append, List.map_append, h, h']

theorem length (h : SameLetters as bs) : as.length = bs.length := by
  simpa using congrArg List.length h

/-- Bytes that are no letters stand in both or in neither. -/
theorem mem {x : UInt8} (hx : NoLetter x) (h : SameLetters as bs) (hm : x ∈ as) : x ∈ bs := by
  have hlower : x ∈ bs.map lower := by
    rw [← h]
    exact List.mem_map.mpr ⟨x, hm, (lower_eq_iff hx x).mpr rfl⟩
  obtain ⟨c, hc, hcx⟩ := List.mem_map.mp hlower
  exact (lower_eq_iff hx c).mp hcx ▸ hc

theorem inline (h : SameLetters as bs) (hb : ∀ c ∈ bs, Inline c) : ∀ c ∈ as, Inline c := by
  refine fun c hc => ⟨?_, ?_⟩
  · rintro rfl
    exact (hb 13 (h.mem (by decide) hc)).1 rfl
  · rintro rfl
    exact (hb 10 (h.mem (by decide) hc)).2 rfl

end SameLetters

/-- A text in small letters. -/
theorem sameLetters_lower (as : List UInt8) : SameLetters (as.map lower) as := by
  simp [SameLetters, Function.comp_def]

/-! ## Strings up to a byte that is no letter -/

theorem cstr_lower (bs : List UInt8) : cstr (bs.map lower) = (cstr bs).map lower := by
  have hzero : ∀ c : UInt8, (lower c ≠ 0) = (c ≠ 0) := fun c => by
    rw [ne_eq, lower_eq_iff (by decide)]
  rw [cstr, cstr, List.takeWhile_map]
  simp only [Function.comp_def, hzero]

theorem lastWord_lower (bs : List UInt8) : lastWord (bs.map lower) = (lastWord bs).map lower := by
  induction bs with
  | nil => rfl
  | cons c bs ih =>
      have hmem : 32 ∈ bs.map lower ↔ 32 ∈ bs :=
        ⟨(sameLetters_lower bs).mem (by decide), (sameLetters_lower bs).symm.mem (by decide)⟩
      have hc : lower c = 32 ↔ c = 32 := lower_eq_iff (by decide) c
      simp only [List.map_cons, lastWord, hmem, hc, ih]
      split_ifs <;> rfl

theorem SameLetters.cstr {as bs : List UInt8} (h : SameLetters as bs) :
    SameLetters (cstr as) (cstr bs) := by
  rw [SameLetters, ← cstr_lower, ← cstr_lower, h]

theorem SameLetters.lastWord {as bs : List UInt8} (h : SameLetters as bs) :
    SameLetters (lastWord as) (lastWord bs) := by
  rw [SameLetters, ← lastWord_lower, ← lastWord_lower, h]

/-! ## Numbers -/

theorem isspace_lower (c : UInt8) : isspace (lower c) = isspace c := by
  rw [Bool.eq_iff_iff]
  simp only [isspace, Bool.or_eq_true, Bool.and_eq_true, decide_eq_true_eq, ← UInt8.toNat_inj,
    UInt8.le_iff_toNat_le, lower_toNat, UInt8.reduceToNat]
  split_ifs <;> omega

theorem digit_lower (c : UInt8) : (48 ≤ lower c && lower c ≤ 57) = (48 ≤ c && c ≤ 57 : Bool) := by
  rw [Bool.eq_iff_iff]
  simp only [Bool.and_eq_true, decide_eq_true_eq, UInt8.le_iff_toNat_le, lower_toNat, UInt8.reduceToNat]
  split_ifs <;> omega

/-- A digit is no letter. -/
theorem lower_digit {c : UInt8} (h : (48 ≤ c && c ≤ 57) = true) : lower c = c := by
  simp only [Bool.and_eq_true, decide_eq_true_eq, UInt8.le_iff_toNat_le, UInt8.reduceToNat] at h
  rw [← UInt8.toNat_inj, lower_toNat]
  split_ifs <;> omega

theorem digits_lower (s : CStr) : ((s.map lower).takeWhile fun c => 48 ≤ c && c ≤ 57) =
    s.takeWhile fun c => 48 ≤ c && c ≤ 57 := by
  induction s with
  | nil => rfl
  | cons c s ih =>
      rw [List.map_cons, List.takeWhile_cons, List.takeWhile_cons, digit_lower, ih]
      split_ifs with h
      · rw [lower_digit h]
      · rfl

/-- What `atoi` makes of the digits behind a sign. -/
def signed (neg : Bool) (s : CStr) : UInt32 :=
  let n := (s.takeWhile fun c => 48 ≤ c && c ≤ 57).foldl (fun n c => n * 10 + (c.toNat - 48)) 0
  let v : Int := if neg then -(min n (2 ^ 63) : Nat) else (min n (2 ^ 63 - 1) : Nat)
  UInt32.ofNat (v % 2 ^ 32).toNat

theorem atoi_minus {s t : CStr} (h : s.dropWhile isspace = 45 :: t) : atoi s = signed true t := by
  unfold atoi
  rw [h]
  rfl

theorem atoi_plus {s t : CStr} (h : s.dropWhile isspace = 43 :: t) : atoi s = signed false t := by
  unfold atoi
  rw [h]
  rfl

theorem atoi_plain {s : CStr} (hminus : ∀ t, s.dropWhile isspace ≠ 45 :: t)
    (hplus : ∀ t, s.dropWhile isspace ≠ 43 :: t) : atoi s = signed false (s.dropWhile isspace) := by
  unfold atoi signed
  generalize s.dropWhile isspace = t at hminus hplus ⊢
  dsimp only
  split
  · next t => exact absurd rfl (hminus t)
  · next t => exact absurd rfl (hplus t)
  · rfl

theorem signed_lower (neg : Bool) (s : CStr) : signed neg (s.map lower) = signed neg s := by
  rw [signed, digits_lower]
  rfl

/-- A first byte that is no letter. -/
theorem map_lower_eq_cons {x : UInt8} (hx : NoLetter x) {s t : CStr} :
    s.map lower = x :: t ↔ ∃ u, s = x :: u ∧ u.map lower = t := by
  cases s with
  | nil => simp
  | cons c s => simp [lower_eq_iff hx]

theorem dropWhile_isspace_lower (s : CStr) :
    (s.map lower).dropWhile isspace = (s.dropWhile isspace).map lower := by
  rw [List.dropWhile_map]
  simp only [Function.comp_def, isspace_lower]

/-- `atoi` reads no letters. -/
theorem atoi_lower (s : CStr) : atoi (s.map lower) = atoi s := by
  have hdrop := dropWhile_isspace_lower s
  by_cases hminus : ∃ t, s.dropWhile isspace = 45 :: t
  · obtain ⟨t, ht⟩ := hminus
    have hlower : (s.map lower).dropWhile isspace = 45 :: t.map lower := by
      rw [hdrop, map_lower_eq_cons (by decide)]
      exact ⟨t, ht, rfl⟩
    rw [atoi_minus ht, atoi_minus hlower, signed_lower]
  · by_cases hplus : ∃ t, s.dropWhile isspace = 43 :: t
    · obtain ⟨t, ht⟩ := hplus
      have hlower : (s.map lower).dropWhile isspace = 43 :: t.map lower := by
        rw [hdrop, map_lower_eq_cons (by decide)]
        exact ⟨t, ht, rfl⟩
      rw [atoi_plus ht, atoi_plus hlower, signed_lower]
    · have hunsigned : ∀ {x : UInt8}, NoLetter x → (¬ ∃ t, s.dropWhile isspace = x :: t) →
          ∀ t, (s.map lower).dropWhile isspace ≠ x :: t := by
        intro x hx hnot t ht
        rw [hdrop, map_lower_eq_cons hx] at ht
        obtain ⟨u, hu, -⟩ := ht
        exact hnot ⟨u, hu⟩
      rw [atoi_plain (not_exists.mp hminus) (not_exists.mp hplus),
        atoi_plain (hunsigned (by decide) hminus) (hunsigned (by decide) hplus), hdrop, signed_lower]

theorem behindSign_cons {c : UInt8} (hminus : c ≠ 45) (hplus : c ≠ 43) (s : CStr) :
    behindSign (c :: s) = c :: s := by
  unfold behindSign
  split
  · next h => exact absurd (List.cons.inj h).1 hminus
  · next h => exact absurd (List.cons.inj h).1 hplus
  · rfl

theorem behindSign_lower (s : CStr) : behindSign (s.map lower) = (behindSign s).map lower := by
  cases s with
  | nil => rfl
  | cons c s =>
      by_cases hminus : c = 45
      · subst hminus
        rfl
      · by_cases hplus : c = 43
        · subst hplus
          rfl
        · have hminus' : lower c ≠ 45 := fun h => hminus ((lower_eq_iff (by decide) c).mp h)
          have hplus' : lower c ≠ 43 := fun h => hplus ((lower_eq_iff (by decide) c).mp h)
          rw [List.map_cons, behindSign_cons hminus' hplus', behindSign_cons hminus hplus, List.map_cons]

theorem behindNumber_lower (s : CStr) : behindNumber (s.map lower) = (behindNumber s).map lower := by
  rw [behindNumber, dropWhile_isspace_lower, behindSign_lower, List.dropWhile_map]
  simp only [Function.comp_def, digit_lower]
  rfl

/-- Nor does it read on for letters. -/
theorem atoiBuf_lower (s : CStr) : atoiBuf (s.map lower) = atoiBuf s := by
  simp only [atoiBuf, List.length_map, behindNumber_lower, ne_eq, List.map_eq_nil_iff, atoi_lower]

theorem SameLetters.atoiBuf {s t : CStr} (h : SameLetters s t) : atoiBuf s = atoiBuf t := by
  rw [← atoiBuf_lower s, ← atoiBuf_lower t, h]

/-! ## The framing -/

/-- What the head says about where the body ends and how it is coded. -/
structure Framing where
  contentLen : UInt32 := 0
  chunkFlag : Bool := false
  gzipFlag : Bool := false
  deriving DecidableEq, Repr

def HeadCache.framing (hc : HeadCache) : Framing := ⟨hc.contentLen, hc.chunkFlag, hc.gzipFlag⟩

/-- The framing in the head that a call has left. -/
def framingOf (r : Option (Int × HttpClient)) : Option Framing :=
  (r.bind fun r => r.2.head).map HeadCache.framing

/-- What a field of this name and value sets, as the label `parsed` compares them. -/
def setsField (key value : CStr) (fr : Framing) : Framing :=
  let fr := if key = lit "Content-Length" then { fr with contentLen := atoi value } else fr
  let fr :=
    if key = lit "Transfer-Encoding" ∧ value = lit "chunked" then { fr with chunkFlag := true } else fr
  if key = lit "Content-Encoding" ∧ value = lit "gzip" then { fr with gzipFlag := true } else fr

/-- The fields of a head, one after another. -/
def linesFraming (fields : List HeadLine) (fr : Framing) : Framing :=
  fields.foldl (fun fr f => setsField (cstr f.key) (cstr f.word) fr) fr

theorem atoiBuf_eq {s : CStr} (h : atoiBuf s ≠ none) : atoiBuf s = some (atoi s) := by
  rw [atoiBuf] at h ⊢
  split_ifs at h ⊢
  · rfl
  · exact absurd rfl h

theorem headField_framing {b : HttpBuf} {kv : KeyValue} {key value : CStr}
    (hkey : copied b kv.key kv.keyLen = some key) (hvalue : copied b kv.value kv.valueLen = some value)
    (hnumber : ¬ Overreads key value) (hc : HeadCache) :
    ∃ hc', headField b hc kv = some hc' ∧ hc'.framing = setsField key value hc.framing := by
  have hlength : (if key = lit "Content-Length" then
        (atoiBuf value).map fun n => { hc with contentLen := n } else some hc) =
      some (if key = lit "Content-Length" then { hc with contentLen := atoi value } else hc) := by
    split_ifs with hname
    · rw [atoiBuf_eq fun hnone => hnumber ⟨hname, hnone⟩]
      rfl
    · rfl
  rw [headField, hkey, hvalue, Option.bind_eq_bind, Option.bind_some, Option.bind_some, hlength]
  refine ⟨_, rfl, ?_⟩
  simp only [setsField]
  split_ifs <;> rfl

/-- The name and the last word of a line can be copied and looked at. -/
structure HeadLine.Fits (l : HeadLine) : Prop where
  key : l.key.length ≤ 1024
  word : l.word.length ≤ 1024
  number : ¬ Overreads (cstr l.key) (cstr l.word)

theorem HeadLine.fits_of_lt {l : HeadLine} (hkey : l.key.length < 1024) (hword : l.word.length < 1024) :
    l.Fits :=
  ⟨Nat.le_of_lt hkey, Nat.le_of_lt hword,
    not_overreads_of_lt (Nat.lt_of_le_of_lt (cstr_length_le _) hword)⟩

theorem HeadLine.lens_lt {l : HeadLine} (h : 58 ∈ l.text) :
    l.key.length + l.word.length < l.bytes.length := by
  have hword : l.word.length ≤ l.value.length := (lastWord_suffix l.value).length_le
  rw [l.bytes_length, HeadLine.text_eq h, List.length_append, List.length_cons]
  omega

section

-- a line at offset `pos` of the buffer, below 4 GiB
variable {b : HttpBuf} {pos : Nat} {l : HeadLine} {rest : List UInt8}
  (h : b.bytes.drop pos = l.bytes ++ rest) (hcolon : 58 ∈ l.text) (hbelow : pos + l.bytes.length < 2 ^ 32)

include h hcolon hbelow

theorem lineRecord_key_slice :
    b.slice (lineRecord pos l).key.toNat (lineRecord pos l).keyLen.toNat = l.key := by
  have hoff : (lineRecord pos l).key.toNat = pos := by
    simp only [lineRecord, UInt32.toNat_ofNat']
    omega
  have hlen : (lineRecord pos l).keyLen.toNat = l.key.length := by
    rw [lineRecord_keyLen]
    have hle := HeadLine.lens_lt hcolon
    omega
  have hdrop : b.bytes.drop pos = l.key ++ (58 :: l.value ++ 13 :: (l.junk ++ [10]) ++ rest) := by
    rw [h, HeadLine.bytes, HeadLine.text_eq hcolon]
    simp
  rw [hlen, hoff]
  exact slice_eq hdrop

theorem lineRecord_word_slice :
    b.slice (lineRecord pos l).value.toNat (lineRecord pos l).valueLen.toNat = l.word := by
  obtain ⟨before, hbefore⟩ := lastWord_suffix l.value
  have hvalue : l.value = before ++ l.word := hbefore.symm
  have hbytes : l.bytes = l.key ++ 58 :: before ++ (l.word ++ 13 :: (l.junk ++ [10])) := by
    rw [HeadLine.bytes, HeadLine.text_eq hcolon, hvalue]
    simp
  have hend : (lineRecord pos l).value.toNat = pos + (l.key ++ 58 :: before).length := by
    rw [hbytes, List.length_append] at hbelow
    simp only [lineRecord, UInt32.toNat_ofNat', hvalue, List.length_append, List.length_cons] at hbelow ⊢
    omega
  have hlen : (lineRecord pos l).valueLen.toNat = l.word.length := by
    rw [lineRecord_valueLen]
    have hle := HeadLine.lens_lt hcolon
    omega
  have hdrop : b.bytes.drop (pos + (l.key ++ 58 :: before).length) =
      l.word ++ (13 :: (l.junk ++ [10]) ++ rest) := by
    rw [← List.drop_drop, h, hbytes, List.append_assoc, List.drop_left, List.append_assoc]
  rw [hlen, hend]
  exact slice_eq hdrop

/-- The record of a line fits where the parts of the line do. -/
theorem lineRecord_fits_iff : (lineRecord pos l).Fits b ↔ l.Fits := by
  have hle := HeadLine.lens_lt hcolon
  have hkeyLen := lineRecord_keyLen pos l
  have hwordLen := lineRecord_valueLen pos l
  have hkey := lineRecord_key_slice h hcolon hbelow
  have hword := lineRecord_word_slice h hcolon hbelow
  rw [Nat.mod_eq_of_lt (by omega)] at hkeyLen hwordLen
  constructor
  · rintro ⟨hk, hw, hnumber⟩
    rw [hkey, hword] at hnumber
    exact ⟨hkeyLen ▸ hk, hwordLen ▸ hw, hnumber⟩
  · rintro ⟨hk, hw, hnumber⟩
    refine ⟨hkeyLen ▸ hk, hwordLen ▸ hw, ?_⟩
    rwa [hkey, hword]

/-- A field sets what its name and its last word say. -/
theorem lineRecord_framing (hfits : l.Fits) (hc : HeadCache) :
    ∃ hc', headField b hc (lineRecord pos l) = some hc' ∧
      hc'.framing = setsField (cstr l.key) (cstr l.word) hc.framing := by
  have hrecord := (lineRecord_fits_iff h hcolon hbelow).mpr hfits
  have hkey : copied b (lineRecord pos l).key (lineRecord pos l).keyLen = _ := copied_of_le hrecord.key
  have hword : copied b (lineRecord pos l).value (lineRecord pos l).valueLen = _ :=
    copied_of_le hrecord.value
  rw [lineRecord_key_slice h hcolon hbelow] at hkey
  rw [lineRecord_word_slice h hcolon hbelow] at hword
  exact headField_framing hkey hword hfits.number hc

end

section

-- lines from offset `pos` of the buffer on, below 4 GiB
variable {b : HttpBuf} {ls : List HeadLine} {pos : Nat} {rest : List UInt8}

/-- The lines fit where their records do. -/
theorem fits_of_lineRecords (h : b.bytes.drop pos = ls.flatMap HeadLine.bytes ++ rest)
    (hcolon : ∀ l ∈ ls, 58 ∈ l.text) (hbelow : pos + (ls.flatMap HeadLine.bytes).length < 2 ^ 32)
    (hfits : ∀ kv ∈ lineRecords pos ls, kv.Fits b) : ∀ l ∈ ls, l.Fits := by
  induction ls generalizing pos with
  | nil => exact fun l hl => by cases hl
  | cons l ls ih =>
      obtain ⟨hl, hls⟩ := List.forall_mem_cons.mp hcolon
      rw [lineRecords, List.forall_mem_cons] at hfits
      rw [List.flatMap_cons, List.append_assoc] at h
      rw [List.flatMap_cons, List.length_append] at hbelow
      have hrest : b.bytes.drop (pos + l.bytes.length) = ls.flatMap HeadLine.bytes ++ rest := by
        rw [← List.drop_drop, h, List.drop_left]
      exact List.forall_mem_cons.mpr
        ⟨(lineRecord_fits_iff h hl (by omega)).mp hfits.1, ih hrest hls (by omega) hfits.2⟩

/-- Below 4 GiB the fields set what their names and last words say. -/
theorem lineRecords_framing (h : b.bytes.drop pos = ls.flatMap HeadLine.bytes ++ rest)
    (hcolon : ∀ l ∈ ls, 58 ∈ l.text) (hbelow : pos + (ls.flatMap HeadLine.bytes).length < 2 ^ 32)
    (hfits : ∀ l ∈ ls, l.Fits) (hc : HeadCache) :
    ∃ hc', (lineRecords pos ls).foldlM (headField b) hc = some hc' ∧
      hc'.framing = linesFraming ls hc.framing := by
  induction ls generalizing pos hc with
  | nil => exact ⟨hc, rfl, rfl⟩
  | cons l ls ih =>
      obtain ⟨hl, hls⟩ := List.forall_mem_cons.mp hcolon
      obtain ⟨hfit, hfits'⟩ := List.forall_mem_cons.mp hfits
      rw [List.flatMap_cons, List.append_assoc] at h
      rw [List.flatMap_cons, List.length_append] at hbelow
      have hrest : b.bytes.drop (pos + l.bytes.length) = ls.flatMap HeadLine.bytes ++ rest := by
        rw [← List.drop_drop, h, List.drop_left]
      obtain ⟨hc₁, hfield, hframing₁⟩ := lineRecord_framing h hl (by omega) hfit hc
      obtain ⟨hc', hfields, hframing⟩ := ih hrest hls (by omega) hfits' hc₁
      refine ⟨hc', ?_, ?_⟩
      · rw [lineRecords, List.foldlM_cons, hfield]
        exact hfields
      · rw [hframing, hframing₁]
        rfl

end

/-! ## Heads that are accepted -/

/-- The code reads 200, and all that is copied fits. -/
structure Walked (status : HeadLine) (fields : List HeadLine) : Prop where
  code : cstr status.code = lit "200"
  code_short : status.code.length ≤ 1024
  fits : ∀ f ∈ fields, f.Fits

theorem HeadLine.IsStatus.lens_lt {l : HeadLine} (h : l.IsStatus) :
    l.version.length + 1 + l.code.length < l.bytes.length := by
  rw [l.bytes_length, h.1, List.length_append, List.length_cons, List.length_append]
  omega

section

variable {head more : List UInt8} {status : HeadLine} {fields : List HeadLine} {last : HeadLine}
  (h : HeadLines head status fields last) (hlen : head.length < 2 ^ 32)

include h

/-- No line is longer than the head. -/
theorem HeadLines.line_length_le : ∀ l ∈ status :: fields, l.bytes.length ≤ head.length := by
  intro l hl
  obtain ⟨before, after, hsplit⟩ := List.append_of_mem hl
  rw [h.bytes, hsplit]
  simp only [List.flatMap_append, List.flatMap_cons, List.length_append]
  omega

include hlen

theorem copied_code (more : List UInt8) (hshort : status.code.length ≤ 1024) :
    copied { bytes := head ++ more } (statusVsr status).status (statusVsr status).statusLen =
      some (cstr status.code) := by
  have hle := h.line_length_le status List.mem_cons_self
  have hlens := h.isStatus.lens_lt
  have hoff : (statusVsr status).status.toNat = (status.version ++ [32]).length := by
    simp only [statusVsr, UInt32.toNat_ofNat', List.length_append, List.length_singleton]
    omega
  have hcodeLen : (statusVsr status).statusLen.toNat = status.code.length := by
    rw [statusVsr_statusLen]
    omega
  have hdrop : (head ++ more).drop (status.version ++ [32]).length =
      status.code ++ (32 :: status.reason ++ 13 :: (status.junk ++ [10]) ++
        (fields.flatMap HeadLine.bytes ++ last.bytes ++ more)) := by
    have hbytes : head ++ more = (status.version ++ [32]) ++ (status.code ++ (32 :: status.reason ++
        13 :: (status.junk ++ [10]) ++ (fields.flatMap HeadLine.bytes ++ last.bytes ++ more))) := by
      rw [h.bytes, List.flatMap_cons, HeadLine.bytes, h.isStatus.1]
      simp
    rw [hbytes, List.drop_left]
  rw [copied_of_le (by omega), hcodeLen, hoff, slice_eq hdrop]

/-- Where the records of the fields stand. -/
theorem fields_drop (more : List UInt8) :
    (head ++ more).drop status.bytes.length = fields.flatMap HeadLine.bytes ++ (last.bytes ++ more) ∧
      status.bytes.length + (fields.flatMap HeadLine.bytes).length < 2 ^ 32 := by
  rw [h.bytes, List.flatMap_cons] at hlen ⊢
  simp only [List.length_append] at hlen
  refine ⟨?_, by omega⟩
  rw [List.append_assoc, List.append_assoc, List.drop_left]

/-- What is seen of a head all of whose fields are looked at. -/
theorem headSeen_lines (hwalked : Walked status fields) :
    ∃ hc, headSeen (head ++ more) (scan headByte .init (head ++ more)) =
        some ⟨0, .headDone, some (linesRead status fields last).pos, some hc⟩ ∧
      hc.framing = linesFraming fields {} := by
  obtain ⟨hrest, hbelow⟩ := fields_drop h hlen more
  obtain ⟨hc, hfields, hframing⟩ := lineRecords_framing (b := { bytes := head ++ more }) hrest h.fields
    hbelow hwalked.fits { (linesRead status fields last).hc with vsr := some (statusVsr status) }
  refine ⟨hc, ?_, hframing⟩
  rw [scan_headLines h, headSeen, headParsed]
  have hcode := copied_code h hlen more hwalked.code_short
  rw [hwalked.code] at hcode
  have hvsr : (linesRead status fields last).vsr = statusVsr status := rfl
  rw [hvsr, hcode, Option.bind_eq_bind, Option.bind_some, if_neg fun hne => hne rfl]
  simp only [linesRead] at hfields ⊢
  rw [hfields]
  rfl

/-- The fields of a head with code 200 that is parsed with some result have been looked at. -/
theorem fits_of_seen (hcode : cstr status.code = lit "200") (hshort : status.code.length ≤ 1024)
    (hseen : (headSeen (head ++ more) (scan headByte .init (head ++ more))).isSome) :
    ∀ f ∈ fields, f.Fits := by
  obtain ⟨hrest, hbelow⟩ := fields_drop h hlen more
  rw [scan_headLines h, headSeen, Option.isSome_map] at hseen
  obtain ⟨r, hparsed⟩ := Option.isSome_iff_exists.mp hseen
  refine fits_of_lineRecords (b := { bytes := head ++ more }) hrest h.fields hbelow ?_
  exact headParsed_fits (hcode ▸ copied_code h hlen more hshort) hparsed

/-- A head that is parsed with the result 0. -/
theorem walked_of_seen {v : HeadView}
    (hseen : headSeen (head ++ more) (scan headByte .init (head ++ more)) = some v) (hret : v.ret = 0) :
    Walked status fields := by
  have hsome : (headSeen (head ++ more) (scan headByte .init (head ++ more))).isSome := by
    rw [hseen]
    rfl
  rw [scan_headLines h, headSeen, Option.map_eq_some_iff] at hseen
  obtain ⟨⟨rc, hc⟩, hparsed, rfl⟩ := hseen
  obtain rfl : rc = 0 := hret
  have hcopied : copied { bytes := head ++ more } (statusVsr status).status (statusVsr status).statusLen =
      some (lit "200") := headParsed_code hparsed
  -- the code is not too long to be copied
  have hshort : status.code.length ≤ 1024 := by
    by_contra hlong
    have hstatus := h.isStatus.lens_lt
    have hle := h.line_length_le status List.mem_cons_self
    have hcodeLen := statusVsr_statusLen status
    rw [copied_of_lt (by omega)] at hcopied
    cases hcopied
  have hcode : cstr status.code = lit "200" :=
    Option.some.inj ((copied_code h hlen more hshort).symm.trans hcopied)
  exact ⟨hcode, hshort, fits_of_seen h hlen hcode hshort hsome⟩

end

/-- After the fragments the head has been accepted. -/
def Accepted (client : HttpClient) (frag : Fragment) (rest : List Fragment) : Prop :=
  ∃ client', feed headCall headFinal client frag rest = some (0, client') ∧ client'.status = .headDone

section

variable {client : HttpClient} (hfresh : HeadFresh client) {frag : Fragment} {rest : List Fragment}
  {head more : List UInt8} {status : HeadLine} {fields : List HeadLine} {last : HeadLine}
  (hbytes : received frag rest = head ++ more) (h : HeadLines head status fields last)
  (hlen : head.length < 2 ^ 32)

include hfresh hbytes h hlen

theorem Accepted.walked (hacc : Accepted client frag rest) : Walked status fields := by
  obtain ⟨client', hfeed, -⟩ := hacc
  have hseen := headFeed_seen hfresh frag rest
  rw [hfeed, ← received, hbytes] at hseen
  exact walked_of_seen h hlen hseen.symm rfl

theorem accepted_of_walked (hwalked : Walked status fields) : Accepted client frag rest := by
  obtain ⟨hc, hseen, -⟩ := headSeen_lines h hlen hwalked
  have hview := headFeed_seen hfresh frag rest
  rw [← received, hbytes, hseen, Option.map_eq_some_iff] at hview
  obtain ⟨⟨rc, client'⟩, hfeed, hr⟩ := hview
  obtain rfl : rc = 0 := congrArg HeadView.ret hr
  exact ⟨client', hfeed, congrArg HeadView.status hr⟩

/-- The framing that the calls leave. -/
theorem feed_framing (hwalked : Walked status fields) :
    framingOf (feed headCall headFinal client frag rest) = some (linesFraming fields {}) := by
  obtain ⟨hc, hseen, hframing⟩ := headSeen_lines h hlen hwalked
  have hview := headFeed_seen hfresh frag rest
  rw [← received, hbytes, hseen, Option.map_eq_some_iff] at hview
  obtain ⟨r, hfeed, hr⟩ := hview
  have hhead : r.2.head = some hc := congrArg HeadView.head hr
  rw [framingOf, hfeed, Option.bind_some, hhead, Option.map_some, hframing]

end

/-! ## Spellings of a head -/

/-- A value with words `chunked` and `gzip` in it spelled otherwise. -/
inductive ValueVariant : List UInt8 → List UInt8 → Prop
  | refl (v : List UInt8) : ValueVariant v v
  | word (before after : List UInt8) {w w' : List UInt8} :
      SameLetters w (lit "chunked") ∨ SameLetters w (lit "gzip") → SameLetters w' w →
      ValueVariant (before ++ w ++ after) (before ++ w' ++ after)
  | trans {u v w : List UInt8} : ValueVariant u v → ValueVariant v w → ValueVariant u w

/-- A field with its name spelled otherwise, and words of its value. -/
structure FieldVariant (f f' : HeadLine) : Prop where
  key : SameLetters f'.key f.key
  value : ValueVariant f.value f'.value
  junk : f'.junk = f.junk

/-- The same bytes but for the spelling of the fields of the head. -/
def CaseVariant (bytes bytes' : List UInt8) : Prop :=
  ∃ head head' more status fields fields' last, bytes = head ++ more ∧ bytes' = head' ++ more ∧
    HeadLines head status fields last ∧ HeadLines head' status fields' last ∧
    List.Forall₂ FieldVariant fields fields'

theorem ValueVariant.sameLetters {v v' : List UInt8} (h : ValueVariant v v') : SameLetters v' v := by
  induction h with
  | refl v => exact .refl v
  | word before after _ hw => exact ((SameLetters.refl before).append hw).append (.refl after)
  | trans _ _ ih ih' => exact ih'.trans ih

namespace FieldVariant

variable {f f' : HeadLine} (h : FieldVariant f f')

include h

theorem word : SameLetters f'.word f.word := h.value.sameLetters.lastWord

theorem bytes_length (hf : 58 ∈ f.text) (hf' : 58 ∈ f'.text) : f'.bytes.length = f.bytes.length := by
  rw [HeadLine.bytes_length, HeadLine.bytes_length, HeadLine.text_eq hf, HeadLine.text_eq hf',
    List.length_append, List.length_append, List.length_cons, List.length_cons, h.key.length,
    h.value.sameLetters.length, h.junk]

end FieldVariant

/-- A head spelled otherwise is as long. -/
theorem fieldVariants_length {fields fields' : List HeadLine} (h : List.Forall₂ FieldVariant fields fields')
    (hf : ∀ f ∈ fields, 58 ∈ f.text) (hf' : ∀ f ∈ fields', 58 ∈ f.text) :
    (fields'.flatMap HeadLine.bytes).length = (fields.flatMap HeadLine.bytes).length := by
  induction h with
  | nil => rfl
  | cons hfield _ ih =>
      obtain ⟨hcolon, hrest⟩ := List.forall_mem_cons.mp hf
      obtain ⟨hcolon', hrest'⟩ := List.forall_mem_cons.mp hf'
      rw [List.flatMap_cons, List.flatMap_cons, List.length_append, List.length_append,
        hfield.bytes_length hcolon hcolon', ih hrest hrest']

theorem headVariant_length {head head' : List UInt8} {status last : HeadLine} {fields fields' : List HeadLine}
    (h : HeadLines head status fields last) (h' : HeadLines head' status fields' last)
    (hvariants : List.Forall₂ FieldVariant fields fields') : head'.length = head.length := by
  rw [h.bytes, h'.bytes, List.flatMap_cons, List.flatMap_cons, List.length_append, List.length_append,
    List.length_append, List.length_append, fieldVariants_length hvariants h.fields h'.fields]

/-- Every field of a head spelled otherwise is a field of the head. -/
theorem fieldVariants_mem {fields fields' : List HeadLine} (h : List.Forall₂ FieldVariant fields fields') :
    ∀ f' ∈ fields', ∃ f ∈ fields, FieldVariant f f' := by
  induction h with
  | nil => exact fun f' hf' => by cases hf'
  | cons hfield _ ih =>
      intro f' hf'
      rcases List.mem_cons.mp hf' with rfl | hf'
      · exact ⟨_, List.mem_cons_self, hfield⟩
      · obtain ⟨f, hf, hvariant⟩ := ih f' hf'
        exact ⟨f, List.mem_cons_of_mem _ hf, hvariant⟩

/-- Fields spelled otherwise fit too, unless `atoi` reads on in one of them. -/
theorem Walked.variant {status : HeadLine} {fields fields' : List HeadLine} (hw : Walked status fields)
    (h : List.Forall₂ FieldVariant fields fields')
    (hnumbers : ∀ f ∈ fields', ¬ Overreads (cstr f.key) (cstr f.word)) : Walked status fields' := by
  refine ⟨hw.code, hw.code_short, fun f' hf' => ?_⟩
  obtain ⟨f, hf, hfield⟩ := fieldVariants_mem h f' hf'
  refine ⟨?_, ?_, hnumbers f' hf'⟩
  · rw [hfield.key.length]
    exact (hw.fits f hf).key
  · rw [hfield.word.length]
    exact (hw.fits f hf).word

/-! ## Fields that count -/

/-- In some spelling the field sets the framing to something, or `atoi` reads on in it. -/
inductive Frames (f : HeadLine) : Prop
  | length : SameLetters (cstr f.key) (lit "Content-Length") → atoiBuf (cstr f.word) ≠ some 0 → Frames f
  | chunked : SameLetters (cstr f.key) (lit "Transfer-Encoding") →
      SameLetters (cstr f.word) (lit "chunked") → Frames f
  | gzip : SameLetters (cstr f.key) (lit "Content-Encoding") →
      SameLetters (cstr f.word) (lit "gzip") → Frames f

/-- Where `atoi` reads on, the field counts as it is spelled. -/
theorem frames_of_overreads {f : HeadLine} (h : Overreads (cstr f.key) (cstr f.word)) : Frames f := by
  refine .length (h.1 ▸ .refl _) ?_
  rw [h.2]
  intro hsome
  cases hsome

/-- What sets the framing counts as it is spelled. -/
theorem frames_of_sets {f : HeadLine} (h : setsField (cstr f.key) (cstr f.word) {} ≠ {}) : Frames f := by
  by_contra hnot
  refine h ?_
  have hlength : cstr f.key = lit "Content-Length" → atoi (cstr f.word) = 0 := fun hkey => by
    by_contra hne
    refine hnot (.length (hkey ▸ .refl _) fun hzero => hne ?_)
    have hread := atoiBuf_eq (s := cstr f.word) (by rw [hzero]; intro h; cases h)
    exact Option.some.inj (hread.symm.trans hzero)
  have hchunked : ¬ (cstr f.key = lit "Transfer-Encoding" ∧ cstr f.word = lit "chunked") := fun h =>
    hnot (.chunked (h.1 ▸ .refl _) (h.2 ▸ .refl _))
  have hgzip : ¬ (cstr f.key = lit "Content-Encoding" ∧ cstr f.word = lit "gzip") := fun h =>
    hnot (.gzip (h.1 ▸ .refl _) (h.2 ▸ .refl _))
  rw [setsField]
  simp only [if_neg hchunked, if_neg hgzip]
  split_ifs with hkey
  · rw [hlength hkey]
  · rfl

/-- Whether a field counts in some spelling does not depend on how it is spelled. -/
theorem FieldVariant.frames {f f' : HeadLine} (h : FieldVariant f f') (hf' : Frames f') : Frames f := by
  have hkey := h.key.cstr
  have hword := h.word.cstr
  cases hf' with
  | length hname hne => exact .length (hkey.symm.trans hname) (hword.atoiBuf ▸ hne)
  | chunked hname hvalue => exact .chunked (hkey.symm.trans hname) (hword.symm.trans hvalue)
  | gzip hname hvalue => exact .gzip (hkey.symm.trans hname) (hword.symm.trans hvalue)

/-- Fields none of which counts in any spelling set nothing. -/
theorem linesFraming_none {fields : List HeadLine} (h : ∀ f ∈ fields, ¬ Frames f) :
    linesFraming fields {} = {} := by
  induction fields with
  | nil => rfl
  | cons f fields ih =>
      have hf : setsField (cstr f.key) (cstr f.word) {} = {} := by
        by_contra hne
        exact h f List.mem_cons_self (frames_of_sets hne)
      rw [linesFraming, List.foldl_cons, hf]
      exact ih fun g hg => h g (List.mem_cons_of_mem _ hg)

/-! ## Fields spelled otherwise -/

/-- The field with this name and value. -/
def respell (f : HeadLine) (key value : List UInt8) (hkey : SameLetters key f.key)
    (hvalue : SameLetters value f.value) : HeadLine where
  text := key ++ 58 :: value
  junk := f.junk
  text_inline := by
    have hf : ∀ c ∈ f.key, Inline c := fun c hc => f.text_inline c (List.takeWhile_subset _ hc)
    have hf' : ∀ c ∈ f.value, Inline c := fun c hc =>
      f.text_inline c ((List.dropWhile_sublist _).subset (List.mem_of_mem_tail hc))
    intro c hc
    rcases List.mem_append.mp hc with hc | hc
    · exact hkey.inline hf c hc
    · rcases List.mem_cons.mp hc with rfl | hc
      · decide
      · exact hvalue.inline hf' c hc
  junk_inline := f.junk_inline

section

variable (f : HeadLine) {key value : List UInt8} (hkey : SameLetters key f.key)
  (hvalue : SameLetters value f.value)

theorem respell_colon : 58 ∈ (respell f key value hkey hvalue).text :=
  List.mem_append_right _ List.mem_cons_self

theorem respell_key : (respell f key value hkey hvalue).key = key :=
  upTo_append (fun h => f.colon_not_mem_key (hkey.mem (by decide) h)) value

theorem respell_value : (respell f key value hkey hvalue).value = value :=
  behind_append (fun h => f.colon_not_mem_key (hkey.mem (by decide) h)) value

theorem respell_variant (h : ValueVariant f.value value) :
    FieldVariant f (respell f key value hkey hvalue) := by
  refine ⟨?_, ?_, rfl⟩
  · rw [respell_key]
    exact hkey
  · rw [respell_value]
    exact h

end

/-- Two suffixes of one length are one. -/
theorem suffix_unique {as bs cs : List UInt8} (h : as <:+ cs) (h' : bs <:+ cs)
    (hlen : as.length = bs.length) : as = bs :=
  (List.suffix_of_suffix_length_le h h' (Nat.le_of_eq hlen)).eq_of_length hlen

/-- What stands behind the C string in a slice. -/
def cstrRest (bs : List UInt8) : List UInt8 := bs.dropWhile (· ≠ 0)

theorem cstr_append_rest (bs : List UInt8) : cstr bs ++ cstrRest bs = bs := List.takeWhile_append_dropWhile

/-- The C string in a slice spelled otherwise. -/
theorem respell_cstr {bs N : List UInt8} (h : SameLetters N (cstr bs)) :
    SameLetters (N ++ cstrRest bs) bs ∧ cstr (N ++ cstrRest bs) = N := by
  have hsame : SameLetters (N ++ cstrRest bs) bs := by
    conv_rhs => rw [← cstr_append_rest bs]
    exact h.append (.refl _)
  have hprefix : cstr (N ++ cstrRest bs) <+: N ++ cstrRest bs := List.takeWhile_prefix _
  have hlen : (cstr (N ++ cstrRest bs)).length = N.length := hsame.cstr.length.trans h.length.symm
  exact ⟨hsame, (List.prefix_of_prefix_length_le hprefix (List.prefix_append N _)
    (Nat.le_of_eq hlen)).eq_of_length hlen⟩

/-- A value with the word `chunked` or `gzip` can be spelled with it as it is compared. -/
theorem exists_word {v W : List UInt8} (h : SameLetters (cstr (lastWord v)) W)
    (hW : W = lit "chunked" ∨ W = lit "gzip") : ∃ v', ValueVariant v v' ∧ cstr (lastWord v') = W := by
  obtain ⟨before, hbefore⟩ := lastWord_suffix v
  obtain ⟨hsame, hcstr⟩ := respell_cstr h.symm
  have hv : before ++ cstr (lastWord v) ++ cstrRest (lastWord v) = v := by
    rw [List.append_assoc, cstr_append_rest, hbefore]
  have hword : SameLetters (cstr (lastWord v)) (lit "chunked") ∨
      SameLetters (cstr (lastWord v)) (lit "gzip") := by
    rcases hW with rfl | rfl
    · exact .inl h
    · exact .inr h
  have hvariant : ValueVariant v (before ++ W ++ cstrRest (lastWord v)) := by
    conv_lhs => rw [← hv]
    exact .word before (cstrRest (lastWord v)) hword h.symm
  -- the last word of the new value is as long as that of the old one
  have hlast : lastWord (before ++ W ++ cstrRest (lastWord v)) = W ++ cstrRest (lastWord v) := by
    refine suffix_unique (lastWord_suffix _) ?_ ?_
    · rw [List.append_assoc]
      exact List.suffix_append _ _
    · exact hvariant.sameLetters.lastWord.length.trans hsame.length.symm
  exact ⟨_, hvariant, by rw [hlast, hcstr]⟩

/-- A field that some spelling makes count can be spelled so that it does. -/
theorem Frames.respelled {f : HeadLine} (h : Frames f) : ∃ f', FieldVariant f f' ∧ 58 ∈ f'.text ∧
    (Overreads (cstr f'.key) (cstr f'.word) ∨ setsField (cstr f'.key) (cstr f'.word) {} ≠ {}) := by
  have hspell : ∀ {N v'}, SameLetters (cstr f.key) N → ValueVariant f.value v' →
      ∃ f', FieldVariant f f' ∧ 58 ∈ f'.text ∧ cstr f'.key = N ∧ f'.value = v' := by
    intro N v' hname hvalue
    obtain ⟨hkey, hcstr⟩ := respell_cstr hname.symm
    refine ⟨respell f _ v' hkey hvalue.sameLetters, respell_variant f _ _ hvalue, respell_colon f _ _, ?_,
      respell_value f _ _⟩
    rw [respell_key, hcstr]
  cases h with
  | length hname hne =>
      obtain ⟨f', hvariant, hcolon, hkey, hvalue⟩ := hspell hname (.refl f.value)
      have hword : f'.word = f.word := by rw [HeadLine.word, hvalue, HeadLine.word]
      refine ⟨f', hvariant, hcolon, ?_⟩
      by_cases hnumber : atoiBuf (cstr f.word) = none
      · exact .inl ⟨hkey, hword ▸ hnumber⟩
      · refine .inr fun hset => hne ?_
        rw [hkey, hword] at hset
        have htransfer : lit "Content-Length" ≠ lit "Transfer-Encoding" := by decide
        have hcontent : lit "Content-Length" ≠ lit "Content-Encoding" := by decide
        have hlen := congrArg Framing.contentLen hset
        have hzero : atoi (cstr f.word) = 0 := by simpa [setsField, htransfer, hcontent] using hlen
        rw [atoiBuf_eq hnumber, hzero]
  | chunked hname hword =>
      obtain ⟨v', hvalue, hcstr⟩ := exists_word hword (.inl rfl)
      obtain ⟨f', hvariant, hcolon, hkey, rfl⟩ := hspell hname hvalue
      refine ⟨f', hvariant, hcolon, .inr fun hset => ?_⟩
      rw [hkey, HeadLine.word, hcstr] at hset
      exact absurd hset (by decide)
  | gzip hname hword =>
      obtain ⟨v', hvalue, hcstr⟩ := exists_word hword (.inr rfl)
      obtain ⟨f', hvariant, hcolon, hkey, rfl⟩ := hspell hname hvalue
      refine ⟨f', hvariant, hcolon, .inr fun hset => ?_⟩
      rw [hkey, HeadLine.word, hcstr] at hset
      exact absurd hset (by decide)

/-- The field in small letters. -/
def lowered (f : HeadLine) : HeadLine :=
  respell f (f.key.map lower) f.value (sameLetters_lower f.key) (.refl f.value)

theorem lowered_variant (f : HeadLine) : FieldVariant f (lowered f) :=
  respell_variant f (sameLetters_lower f.key) (.refl f.value) (.refl f.value)

/-- A text in small letters is no text with a capital. -/
theorem map_lower_ne {as N : List UInt8} (hN : N.map lower ≠ N) : as.map lower ≠ N := by
  rintro rfl
  exact hN (by simp [Function.comp_def])

/-- Fields in small letters set nothing. -/
theorem setsField_lowered (f : HeadLine) (fr : Framing) :
    setsField (cstr (lowered f).key) (cstr (lowered f).word) fr = fr := by
  have hlower : cstr (lowered f).key = (cstr f.key).map lower := by
    rw [lowered, respell_key, cstr_lower]
  have hlength : (cstr f.key).map lower ≠ lit "Content-Length" := map_lower_ne (by decide)
  have htransfer : (cstr f.key).map lower ≠ lit "Transfer-Encoding" := map_lower_ne (by decide)
  have hcontent : (cstr f.key).map lower ≠ lit "Content-Encoding" := map_lower_ne (by decide)
  rw [hlower, setsField]
  simp [hlength, htransfer, hcontent]

theorem linesFraming_lowered (fields : List HeadLine) (fr : Framing) :
    linesFraming (fields.map lowered) fr = fr := by
  induction fields with
  | nil => rfl
  | cons f fields ih =>
      rw [List.map_cons, linesFraming, List.foldl_cons, setsField_lowered]
      exact ih

theorem forall₂_lowered (fields : List HeadLine) :
    List.Forall₂ FieldVariant fields (fields.map lowered) := by
  induction fields with
  | nil => exact .nil
  | cons f fields ih => exact .cons (lowered_variant f) ih

theorem lowered_colon {fields : List HeadLine} : ∀ f ∈ fields.map lowered, 58 ∈ f.text := by
  intro f' hf'
  obtain ⟨f, -, rfl⟩ := List.mem_map.mp hf'
  exact respell_colon f (sameLetters_lower f.key) (.refl f.value)

/-! ## Framing and spelling -/

/-- However the head is spelled, and however it arrives, the framing is the same. -/
def CaseFree (client : HttpClient) (frag : Fragment) (rest : List Fragment) : Prop :=
  ∀ client' frag' rest', HeadFresh client' → CaseVariant (received frag rest) (received frag' rest') →
    framingOf (feed headCall headFinal client' frag' rest') =
      framingOf (feed headCall headFinal client frag rest)

/-- The head is shorter than 4 GiB, so that the offsets kept of its lines do not wrap. -/
def ShortHead (bytes : List UInt8) : Prop :=
  ∀ head more status fields last, bytes = head ++ more → HeadLines head status fields last →
    head.length < 2 ^ 32

/-- No field of the head counts in any spelling. -/
def NoFraming (bytes : List UInt8) : Prop :=
  ∀ head more status fields last, bytes = head ++ more → HeadLines head status fields last →
    ∀ f ∈ fields, ¬ Frames f

section

variable {client : HttpClient} (hfresh : HeadFresh client) {frag : Fragment} {rest : List Fragment}
  {head more : List UInt8} {status : HeadLine} {fields : List HeadLine} {last : HeadLine}
  (hbytes : received frag rest = head ++ more) (h : HeadLines head status fields last)
  (hlen : head.length < 2 ^ 32) (hacc : Accepted client frag rest)

include hfresh hbytes h hlen hacc

/-- The framing of a head spelled otherwise, which is accepted too unless `atoi` reads on. -/
theorem framing_variant {client' : HttpClient} (hfresh' : HeadFresh client') {frag' : Fragment}
    {rest' : List Fragment} {head' : List UInt8} {fields' : List HeadLine}
    (hbytes' : received frag' rest' = head' ++ more) (h' : HeadLines head' status fields' last)
    (hvariants : List.Forall₂ FieldVariant fields fields')
    (hnumbers : ∀ f ∈ fields', ¬ Overreads (cstr f.key) (cstr f.word)) :
    framingOf (feed headCall headFinal client' frag' rest') = some (linesFraming fields' {}) := by
  refine feed_framing hfresh' hbytes' h' ?_ ((hacc.walked hfresh hbytes h hlen).variant hvariants hnumbers)
  rwa [headVariant_length h h' hvariants]

/-- Where the spelling does not matter, every spelling of the fields fits and the framing is that of
the fields so spelled. -/
theorem CaseFree.framing_eq (hfree : CaseFree client frag rest) {fields' : List HeadLine}
    (hvariants : List.Forall₂ FieldVariant fields fields') (hcolon : ∀ f ∈ fields', 58 ∈ f.text) :
    (∀ f ∈ fields', f.Fits) ∧
      framingOf (feed headCall headFinal client frag rest) = some (linesFraming fields' {}) := by
  have hwalked := hacc.walked hfresh hbytes h hlen
  have hlines' : HeadLines ((status :: fields').flatMap HeadLine.bytes ++ last.bytes) status fields' last :=
    ⟨rfl, h.status, hcolon, h.last⟩
  have hreceived : received
      { bytes := ((status :: fields').flatMap HeadLine.bytes ++ last.bytes) ++ more } [] =
        ((status :: fields').flatMap HeadLine.bytes ++ last.bytes) ++ more := by
    rw [received, List.flatMap_singleton]
  have hsame := hfree idleClient _ [] idleClient_fresh ⟨head, _, more, status, fields, fields', last, hbytes,
    hreceived, h, hlines', hvariants⟩
  have hlen' := headVariant_length h hlines' hvariants
  -- the calls return for this spelling too, so that everything has fitted
  have hseen : (headSeen (((status :: fields').flatMap HeadLine.bytes ++ last.bytes) ++ more)
      (scan headByte .init (((status :: fields').flatMap HeadLine.bytes ++ last.bytes) ++ more))).isSome := by
    rw [feed_framing hfresh hbytes h hlen hwalked, framingOf, Option.map_eq_some_iff] at hsame
    obtain ⟨hc, hhead, -⟩ := hsame
    obtain ⟨r, hfeed, -⟩ := Option.bind_eq_some_iff.mp hhead
    have hview := headFeed_seen idleClient_fresh
      { bytes := ((status :: fields').flatMap HeadLine.bytes ++ last.bytes) ++ more } []
    rw [← received, hreceived] at hview
    rw [← hview, hfeed]
    rfl
  have hfits : ∀ f ∈ fields', f.Fits :=
    fits_of_seen hlines' (by rwa [hlen']) hwalked.code hwalked.code_short hseen
  refine ⟨hfits, ?_⟩
  rw [← hsame]
  exact framing_variant hfresh hbytes h hlen hacc idleClient_fresh hreceived hlines' hvariants
    fun f hf => (hfits f hf).number

/-- Where the spelling does not matter, no field counts in any: one that does is spelled so that it
alone counts, and so that none does. -/
theorem CaseFree.not_frames (hfree : CaseFree client frag rest) : ∀ f ∈ fields, ¬ Frames f := by
  intro f hf hframes
  obtain ⟨f', hvariant, hcolon, hsets⟩ := hframes.respelled
  obtain ⟨before, after, rfl⟩ := List.append_of_mem hf
  obtain ⟨-, hnone⟩ := hfree.framing_eq hfresh hbytes h hlen hacc (forall₂_lowered _) lowered_colon
  have halone : ∀ g ∈ before.map lowered ++ f' :: after.map lowered, 58 ∈ g.text := by
    intro g hg
    rcases List.mem_append.mp hg with hg | hg
    · exact lowered_colon g hg
    · rcases List.mem_cons.mp hg with rfl | hg
      · exact hcolon
      · exact lowered_colon g hg
  obtain ⟨hfits, hsome⟩ := hfree.framing_eq hfresh hbytes h hlen hacc
    (List.rel_append (forall₂_lowered before) (.cons hvariant (forall₂_lowered after))) halone
  rw [hnone, linesFraming_lowered, Option.some.injEq, linesFraming, List.foldl_append, List.foldl_cons,
    ← linesFraming, ← linesFraming, linesFraming_lowered, linesFraming_lowered] at hsome
  rcases hsets with hoverreads | hsets
  · exact (hfits f' (List.mem_append_right _ List.mem_cons_self)).number hoverreads
  · exact hsets hsome.symm

end

/-- The framing of an accepted head, below 4 GiB, is the same for all spellings exactly when no spelling
of a field sets it to something. -/
theorem caseFree_iff {client : HttpClient} (hfresh : HeadFresh client) (frag : Fragment)
    (rest : List Fragment) (hshort : ShortHead (received frag rest))
    (hacc : Accepted client frag rest) :
    CaseFree client frag rest ↔ NoFraming (received frag rest) := by
  constructor
  · intro hfree head more status fields last hbytes hlines
    exact hfree.not_frames hfresh hbytes hlines (hshort head more status fields last hbytes hlines) hacc
  · rintro hnone client' frag' rest' hfresh' ⟨head, head', more, status, fields, fields', last, hbytes,
      hbytes', hlines, hlines', hvariants⟩
    have hlen := hshort head more status fields last hbytes hlines
    have hwalked := hacc.walked hfresh hbytes hlines hlen
    have hfields := hnone head more status fields last hbytes hlines
    have hfields' : ∀ f' ∈ fields', ¬ Frames f' := by
      intro f' hf' hframes
      obtain ⟨f, hf, hvariant⟩ := fieldVariants_mem hvariants f' hf'
      exact hfields f hf (hvariant.frames hframes)
    rw [feed_framing hfresh hbytes hlines hlen hwalked, linesFraming_none hfields,
      framing_variant hfresh hbytes hlines hlen hacc hfresh' hbytes' hlines' hvariants
        fun f hf hnumber => hfields' f hf (frames_of_overreads hnumber),
      linesFraming_none hfields']

/-! ## Small letters -/

/-- A field, its line ending with CR LF. -/
def lineOf (text : CStr) (h : ∀ c ∈ text, Inline c) : HeadLine where
  text := text
  junk := []
  text_inline := h
  junk_inline := inline_nil

/-- The length of the body as most servers write it, and in small letters. -/
def lengthField : HeadLine := lineOf (lit "Content-Length: 5") (forall_mem_of_all (by decide))

def smallLengthField : HeadLine := lineOf (lit "content-length: 5") (forall_mem_of_all (by decide))

/-- The head with one field. -/
def oneField (f : HeadLine) : List UInt8 := [okStatus, f].flatMap HeadLine.bytes ++ emptyLine.bytes

theorem oneField_lines {f : HeadLine} (h : 58 ∈ f.text) :
    HeadLines (oneField f) okStatus [f] emptyLine where
  bytes := rfl
  status := ⟨lit "HTTP/1.1", lit "200", lit "OK", rfl, by decide, by decide⟩
  fields := List.forall_mem_singleton.mpr h
  last := nofun

theorem received_oneField (f : HeadLine) : received { bytes := oneField f } [] = oneField f ++ [] := by
  rw [received, List.flatMap_singleton, List.append_nil]

theorem oneField_accepted {f : HeadLine} (h : 58 ∈ f.text) (hlen : (oneField f).length < 2 ^ 32)
    (hkey : f.key.length < 1024) (hword : f.word.length < 1024) :
    Accepted idleClient { bytes := oneField f } [] := by
  refine accepted_of_walked idleClient_fresh (received_oneField f) (oneField_lines h) hlen ⟨?_, ?_, ?_⟩
  · decide
  · decide
  · exact List.forall_mem_singleton.mpr (HeadLine.fits_of_lt hkey hword)

/-- A field that says nothing about the body. -/
def serverField : HeadLine := lineOf (lit "Server: a") (forall_mem_of_all (by decide))

theorem shortHead_of_length {bytes : List UInt8} (hlen : bytes.length < 2 ^ 32) : ShortHead bytes := by
  rintro head more status fields last rfl -
  rw [List.length_append] at hlen
  omega

theorem caseFree_iff_server :
    CaseFree idleClient { bytes := oneField serverField } [] ↔
      NoFraming (received { bytes := oneField serverField } []) :=
  caseFree_iff idleClient_fresh _ [] (shortHead_of_length (by decide))
    (oneField_accepted (by decide) (by decide) (by decide) (by decide))

/-- A body of five bytes, and none. -/
theorem lengthField_framing :
    Accepted idleClient { bytes := oneField lengthField } [] ∧
      framingOf (feed headCall headFinal idleClient { bytes := oneField lengthField } []) =
        some { contentLen := 5 } ∧
      framingOf (feed headCall headFinal idleClient { bytes := oneField smallLengthField } []) = some {} ∧
      ¬ CaseFree idleClient { bytes := oneField lengthField } [] := by
  have hfive : framingOf (feed headCall headFinal idleClient { bytes := oneField lengthField } []) =
      some { contentLen := 5 } := by decide +kernel
  have hnone : framingOf (feed headCall headFinal idleClient { bytes := oneField smallLengthField } []) =
      some {} := by decide +kernel
  have hlines := oneField_lines (f := lengthField) (by decide)
  have hlines' := oneField_lines (f := smallLengthField) (by decide)
  have hvariant : FieldVariant lengthField smallLengthField := by
    have hvalue : smallLengthField.value = lengthField.value := by decide
    have hjunk : smallLengthField.junk = [] := rfl
    refine ⟨by decide, ?_, hjunk⟩
    rw [hvalue]
    exact .refl _
  have haccepted : Accepted idleClient { bytes := oneField lengthField } [] :=
    oneField_accepted (by decide) (by decide) (by decide) (by decide)
  refine ⟨haccepted, hfive, hnone, fun hfree => ?_⟩
  have hsame := hfree idleClient { bytes := oneField smallLengthField } [] idleClient_fresh
    ⟨_, _, [], okStatus, _, _, emptyLine, received_oneField lengthField, received_oneField smallLengthField,
      hlines, hlines', .cons hvariant .nil⟩
  rw [hfive, hnone] at hsame
  cases hsame

end Crawler.Http
