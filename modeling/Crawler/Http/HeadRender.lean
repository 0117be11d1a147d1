/-
# Crawler.Http.HeadRender — reading back a head that was written

A response head is rendered as its grammar says, `VERSION SP 200 SP REASON CRLF`, then
`key: value CRLF` for each field, then an empty line, and read by `http_parse_head`. `ReadsBack` says
that nothing is lost: the parser ends behind the empty line with one record per field, whose slices
are the key and the whole value where they were written.

The parser skips the space in front of a value by restarting the value at every space. A value of
several words is therefore cut to its last one, and `ReadsBack` holds exactly of the heads whose
values have no space, as long as keys and values fit the copy buffers and lie below 4 GiB.
-/
import Crawler.Http.Head

namespace Crawler.Http

open Crawler.Lib

/-! ## Rendering -/

/-- A byte none of the parser's cases looks at. -/
def Plain (c : UInt8) : Prop := c ≠ 32 ∧ c ≠ 58 ∧ c ≠ 13 ∧ c ≠ 10

/-- A byte that does not end the line. -/
def Inline (c : UInt8) : Prop := c ≠ 13 ∧ c ≠ 10

instance (c : UInt8) : Decidable (Plain c) := by
  unfold Plain
  infer_instance

instance (c : UInt8) : Decidable (Inline c) := by
  unfold Inline
  infer_instance

/-- A status line with code 200. -/
structure StatusLine where
  version : CStr
  reason : CStr
  version_plain : ∀ c ∈ version, Plain c
  reason_inline : ∀ c ∈ reason, Inline c

/-- A header field. -/
structure HeadField where
  key : CStr
  value : CStr
  key_ne : key ≠ []
  key_plain : ∀ c ∈ key, Plain c
  value_inline : ∀ c ∈ value, Inline c
  value_head : value.head? ≠ some 32

/-- The end of a line. -/
def crlf : CStr := [13, 10]

def StatusLine.render (l : StatusLine) : CStr :=
  l.version ++ 32 :: (lit "200" ++ 32 :: (l.reason ++ crlf))

def HeadField.render (f : HeadField) : CStr := f.key ++ 58 :: 32 :: (f.value ++ crlf)

/-- The head with its empty line. -/
def renderHead (l : StatusLine) (fs : List HeadField) : CStr :=
  l.render ++ (fs.flatMap HeadField.render ++ crlf)

theorem HeadField.render_length (f : HeadField) :
    f.render.length = f.key.length + 2 + f.value.length + 2 := by
  simp [HeadField.render, crlf]
  omega

/-! ## The bytes that mean something -/

section

variable {hc : HeadCache} (vsr : HttpVsr) (kv : Option Nat) (p : Nat) (rest : List UInt8)

/-- The first space ends the version. -/
theorem scan_version_end (h : hc.status = .vsrStart) : scan headByte ⟨hc, vsr, kv, p⟩ (32 :: rest) =
    scan headByte ⟨{ hc with status := .vsrVer, start := UInt32.ofNat (p + 1) },
      { vsr with version := hc.start, versionLen := UInt32.ofNat p - hc.start }, kv, p + 1⟩ rest := by
  obtain ⟨status, _, _, _, _, _, _⟩ := hc
  subst h
  rfl

/-- The second one ends the code. -/
theorem scan_code_end (h : hc.status = .vsrVer) : scan headByte ⟨hc, vsr, kv, p⟩ (32 :: rest) =
    scan headByte ⟨{ hc with status := .vsrStat, start := UInt32.ofNat (p + 1) },
      { vsr with status := hc.start, statusLen := UInt32.ofNat p - hc.start }, kv, p + 1⟩ rest := by
  obtain ⟨status, _, _, _, _, _, _⟩ := hc
  subst h
  rfl

/-- The CR ends the reason. -/
theorem scan_reason_end (h : hc.status = .vsrStat) : scan headByte ⟨hc, vsr, kv, p⟩ (13 :: rest) =
    scan headByte ⟨{ hc with status := .vsrReas, start := UInt32.ofNat (p + 1) },
      { vsr with reason := hc.start, reasonLen := UInt32.ofNat p - hc.start }, kv, p + 1⟩ rest := by
  obtain ⟨status, _, _, _, _, _, _⟩ := hc
  subst h
  rfl

/-- The colon opens a record. -/
theorem scan_colon (h : hc.status = .lineDone) : scan headByte ⟨hc, vsr, kv, p⟩ (58 :: rest) =
    scan headByte ⟨{ hc with
        status := .keyDone
        kvQueue := hc.kvQueue ++ [{ key := hc.start, keyLen := UInt32.ofNat p - hc.start }]
        start := UInt32.ofNat (p + 1) }, vsr, some hc.kvQueue.length, p + 1⟩ rest := by
  obtain ⟨status, _, _, _, _, _, _⟩ := hc
  subst h
  rfl

theorem modify_concat {α : Type*} (as : List α) (a : α) (f : α → α) :
    (as ++ [a]).modify as.length f = as ++ [f a] := by
  rw [List.modify_eq_take_drop, List.take_left, List.drop_left]
  rfl

/-- The CR ends the value, in the record that was opened last. -/
theorem scan_value_end {kvs : List KeyValue} {record : KeyValue} (h : hc.status = .keyDone)
    (hq : hc.kvQueue = kvs ++ [record]) :
    scan headByte ⟨hc, vsr, some kvs.length, p⟩ (13 :: rest) =
      scan headByte ⟨{ hc with
          status := .lineHalf
          kvQueue := kvs ++ [{ record with value := hc.start, valueLen := UInt32.ofNat p - hc.start }] },
        vsr, none, p + 1⟩ rest := by
  obtain ⟨status, _, start, _, _, _, _⟩ := hc
  subst h hq
  rw [← modify_concat kvs record fun record =>
    { record with value := start, valueLen := UInt32.ofNat p - start }]
  rfl

/-- The LF ends a line. -/
theorem scan_line_end (h : hc.status = .vsrReas ∨ hc.status = .lineHalf) :
    scan headByte ⟨hc, vsr, kv, p⟩ (10 :: rest) =
      scan headByte ⟨{ hc with status := .lineDone, start := UInt32.ofNat (p + 1) }, vsr, kv, p + 1⟩
        rest := by
  obtain ⟨status, _, _, _, _, _, _⟩ := hc
  rcases h with h | h
  · subst h
    rfl
  · subst h
    rfl

end

/-! ## The scanner on each part of the head -/

/-- Bytes without a case are passed over. -/
theorem scan_plain {bs : List UInt8} (h : ∀ c ∈ bs, Plain c) (s : HeadState) :
    scan headByte s bs = .more { s with pos := s.pos + bs.length } := by
  induction bs generalizing s with
  | nil => rfl
  | cons c bs ih =>
      obtain ⟨h32, h58, h13, h10⟩ := h c (by simp)
      have hc : headByte s c = .more { s with pos := s.pos + 1 } := by
        simp only [headByte, if_neg h32, if_neg h58, if_neg h13, if_neg h10]
      rw [scan, hc, Scan.more_bind, ih fun d hd => h d (by simp [hd])]
      simp only [List.length_cons, Nat.add_assoc, Nat.add_comm 1]

/-- In the reason neither spaces nor colons mean anything. -/
theorem scan_reason {bs : List UInt8} (h : ∀ c ∈ bs, Inline c) {s : HeadState}
    (hs : s.hc.status = .vsrStat) :
    scan headByte s bs = .more { s with pos := s.pos + bs.length } := by
  induction bs generalizing s with
  | nil => rfl
  | cons c bs ih =>
      obtain ⟨h13, h10⟩ := h c (by simp)
      have hc : headByte s c = .more { s with pos := s.pos + 1 } := by
        simp only [headByte, if_neg h13, if_neg h10, headSpace, headColon, hs, reduceCtorEq,
          if_false, ite_self]
      have hrest := ih (s := { s with pos := s.pos + 1 }) (fun d hd => h d (by simp [hd])) hs
      rw [scan, hc, Scan.more_bind, hrest]
      simp only [List.length_cons, Nat.add_assoc, Nat.add_comm 1]

/-- Where the value starts for the parser, of bytes from offset `p` on: behind the last space. -/
def valueStart (p : Nat) (start : UInt32) : List UInt8 → UInt32
  | [] => start
  | c :: cs => valueStart (p + 1) (if c = 32 then UInt32.ofNat (p + 1) else start) cs

/-- In a value every space moves the start; colons mean nothing. -/
theorem scan_value {bs : List UInt8} (h : ∀ c ∈ bs, Inline c) {s : HeadState}
    (hs : s.hc.status = .keyDone) :
    scan headByte s bs = .more { s with
      pos := s.pos + bs.length
      hc := { s.hc with start := valueStart s.pos s.hc.start bs } } := by
  induction bs generalizing s with
  | nil => rfl
  | cons c bs ih =>
      obtain ⟨h13, h10⟩ := h c (by simp)
      have hc : headByte s c = .more { s with
          pos := s.pos + 1
          hc := { s.hc with start := if c = 32 then UInt32.ofNat (s.pos + 1) else s.hc.start } } := by
        by_cases h32 : c = 32
        · simp only [headByte, if_pos h32, headSpace, hs, HeadState.here]
        · have hline : s.hc.status ≠ .lineDone := by
            rw [hs]
            decide
          simp only [headByte, if_neg h32, if_neg h13, if_neg h10, headColon, if_neg hline, ite_self]
      have hrest := ih (s := { s with
          pos := s.pos + 1
          hc := { s.hc with start := if c = 32 then UInt32.ofNat (s.pos + 1) else s.hc.start } })
        (fun d hd => h d (by simp [hd])) hs
      rw [scan, hc, Scan.more_bind, hrest]
      simp only [List.length_cons, Nat.add_assoc, Nat.add_comm 1, valueStart]

/-- The record the parser makes of a field at offset `pos`. -/
def fieldRecord (pos : Nat) (f : HeadField) : KeyValue :=
  let valuePos := pos + f.key.length + 2
  let value := valueStart valuePos (UInt32.ofNat valuePos) f.value
  { key := UInt32.ofNat pos
    keyLen := UInt32.ofNat (pos + f.key.length) - UInt32.ofNat pos
    value := value
    valueLen := UInt32.ofNat (valuePos + f.value.length) - value }

/-- The records of the fields from offset `pos` on. -/
def fieldRecords (pos : Nat) : List HeadField → List KeyValue
  | [] => []
  | f :: fs => fieldRecord pos f :: fieldRecords (pos + f.render.length) fs

/-- The state at the start of a line at offset `pos`, with `kvs` read. -/
def atLine (vsr : HttpVsr) (kvs : List KeyValue) (pos : Nat) : HeadState where
  hc := { status := .lineDone, start := UInt32.ofNat pos, kvQueue := kvs }
  vsr := vsr
  kv := none
  pos := pos

theorem scan_field (vsr : HttpVsr) (kvs : List KeyValue) (pos : Nat) (f : HeadField) :
    scan headByte (atLine vsr kvs pos) f.render =
      .more (atLine vsr (kvs ++ [fieldRecord pos f]) (pos + f.render.length)) := by
  have hpos : pos + f.render.length = pos + f.key.length + 2 + f.value.length + 2 := by
    rw [f.render_length]
    omega
  rw [hpos, HeadField.render, scan_append, scan_plain f.key_plain, Scan.more_bind, atLine,
    scan_colon _ _ _ _ rfl]
  -- the space behind the colon moves the start of the value
  have hspace : ∀ (hc : HeadCache) (p : Nat) (rest : List UInt8), hc.status = .keyDone →
      scan headByte ⟨hc, vsr, some kvs.length, p⟩ (32 :: rest) =
        scan headByte ⟨{ hc with start := UInt32.ofNat (p + 1) }, vsr, some kvs.length, p + 1⟩ rest := by
    rintro ⟨status, _, _, _, _, _, _⟩ p rest rfl
    rfl
  rw [hspace _ _ _ rfl, scan_append, scan_value f.value_inline rfl, Scan.more_bind, crlf,
    scan_value_end _ _ _ rfl rfl, scan_line_end _ _ _ _ (.inr rfl)]
  rfl

/-- The fields append their records in order. -/
theorem scan_fields (vsr : HttpVsr) (kvs : List KeyValue) (pos : Nat) (fs : List HeadField) :
    scan headByte (atLine vsr kvs pos) (fs.flatMap HeadField.render) =
      .more (atLine vsr (kvs ++ fieldRecords pos fs)
        (pos + (fs.flatMap HeadField.render).length)) := by
  induction fs generalizing kvs pos with
  | nil => simp [scan, fieldRecords]
  | cons f fs ih =>
      rw [List.flatMap_cons, scan_append, scan_field, Scan.more_bind, ih, fieldRecords,
        List.append_assoc, List.length_append, Nat.add_assoc]
      rfl

/-- The slices of the status line. -/
def lineVsr (l : StatusLine) : HttpVsr where
  version := 0
  versionLen := UInt32.ofNat l.version.length - 0
  status := UInt32.ofNat (l.version.length + 1)
  statusLen := UInt32.ofNat (l.version.length + 4) - UInt32.ofNat (l.version.length + 1)
  reason := UInt32.ofNat (l.version.length + 5)
  reasonLen := UInt32.ofNat (l.version.length + 5 + l.reason.length) -
    UInt32.ofNat (l.version.length + 5)

theorem StatusLine.render_length (l : StatusLine) :
    l.render.length = l.version.length + 5 + l.reason.length + 2 := by
  have hcode : (lit "200").length = 3 := rfl
  simp only [StatusLine.render, List.length_append, List.length_cons, hcode, crlf, List.length_nil]
  omega

theorem scan_statusLine (l : StatusLine) :
    scan headByte ⟨{}, {}, none, 0⟩ l.render = .more (atLine (lineVsr l) [] l.render.length) := by
  have hcode : ∀ c ∈ lit "200", Plain c := forall_mem_of_all (by decide)
  rw [l.render_length, StatusLine.render, scan_append, scan_plain l.version_plain, Scan.more_bind,
    scan_version_end _ _ _ _ rfl, scan_append, scan_plain hcode, Scan.more_bind, scan_code_end _ _ _ _ rfl,
    scan_append, scan_reason l.reason_inline rfl, Scan.more_bind, crlf, scan_reason_end _ _ _ _ rfl,
    scan_line_end _ _ _ _ (.inl rfl)]
  simp only [Nat.zero_add]
  rfl

/-- Where the parser is behind the empty line. -/
def headRead (l : StatusLine) (fs : List HeadField) : HeadState where
  hc := {
    status := .headDone
    start := UInt32.ofNat (l.render.length + (fs.flatMap HeadField.render).length)
    kvQueue := fieldRecords l.render.length fs }
  vsr := lineVsr l
  kv := none
  pos := (renderHead l fs).length

/-- The head's record behind the empty line. -/
def headRecord (l : StatusLine) (fs : List HeadField) : HeadCache :=
  { (headRead l fs).hc with vsr := some (lineVsr l) }

/-- The parser stops behind the empty line, whatever follows. -/
theorem scan_head (l : StatusLine) (fs : List HeadField) (rest : List UInt8) :
    scan headByte ⟨{}, {}, none, 0⟩ (renderHead l fs ++ rest) = .stop (.parsed (headRead l fs)) := by
  have hlen : (renderHead l fs).length =
      l.render.length + (fs.flatMap HeadField.render).length + 2 := by
    simp only [renderHead, List.length_append, crlf, List.length_cons, List.length_nil]
    omega
  have hend : ∀ (vsr : HttpVsr) (kvs : List KeyValue) (p : Nat),
      scan headByte (atLine vsr kvs p) crlf = .stop (.parsed
        ⟨{ status := .headDone, start := UInt32.ofNat p, kvQueue := kvs }, vsr, none, p + 2⟩) :=
    fun _ _ _ => rfl
  rw [scan_append, renderHead, scan_append, scan_statusLine, Scan.more_bind, scan_append,
    scan_fields, Scan.more_bind, hend, Scan.stop_bind, headRead, hlen]
  rfl

/-! ## The slices -/

/-- The records list the fields from offset `pos` on, one each and in order: the slices of a record
stand where the key and the value were written, and hold them. -/
def Lists (b : HttpBuf) : Nat → List KeyValue → List HeadField → Prop
  | _, [], [] => True
  | pos, kv :: kvs, f :: fs =>
      (kv.key.toNat = pos ∧ b.slice kv.key.toNat kv.keyLen.toNat = f.key) ∧
        (kv.value.toNat = pos + f.key.length + 2 ∧
          b.slice kv.value.toNat kv.valueLen.toNat = f.value) ∧
        Lists b (pos + f.render.length) kvs fs
  | _, _, _ => False

/-- All values, of fields from offset `pos` on, start below 4 GiB. -/
def ValuesBelow : Nat → List HeadField → Prop
  | _, [] => True
  | pos, f :: fs => pos + f.key.length + 2 < 2 ^ 32 ∧ ValuesBelow (pos + f.render.length) fs

/-- A difference of offsets, in 32 bits. -/
theorem toNat_ofNat_sub {a b : Nat} (h : a ≤ b) :
    (UInt32.ofNat b - UInt32.ofNat a).toNat = (b - a) % 2 ^ 32 := by
  rw [UInt32.toNat_sub, UInt32.toNat_ofNat', UInt32.toNat_ofNat']
  omega

theorem valueStart_of_notMem {v : List UInt8} (h : 32 ∉ v) (p : Nat) (start : UInt32) :
    valueStart p start v = start := by
  induction v generalizing p with
  | nil => rfl
  | cons c v ih =>
      rw [valueStart, if_neg fun e => h (by simp [e])]
      exact ih (fun hm => h (by simp [hm])) (p + 1)

/-- A space makes the parser start the value behind it, inside the value or at its end. -/
theorem valueStart_of_mem {v : List UInt8} (h : 32 ∈ v) (p : Nat) (start : UInt32) :
    ∃ q, p < q ∧ q ≤ p + v.length ∧ valueStart p start v = UInt32.ofNat q := by
  induction v generalizing p start with
  | nil => simp at h
  | cons c v ih =>
      rw [valueStart, List.length_cons]
      by_cases hv : 32 ∈ v
      · obtain ⟨q, hpq, hq, hstart⟩ := ih hv (p + 1) (if c = 32 then UInt32.ofNat (p + 1) else start)
        exact ⟨q, by omega, by omega, hstart⟩
      · -- the last space is `c` itself
        have hc : c = 32 := ((List.mem_cons.mp h).resolve_right hv).symm
        rw [valueStart_of_notMem hv, if_pos hc]
        exact ⟨p + 1, Nat.lt_succ_self p, by omega, rfl⟩

theorem slice_eq {b : HttpBuf} {pos : Nat} {bs rest : List UInt8}
    (h : b.bytes.drop pos = bs ++ rest) : b.slice pos bs.length = bs := by
  rw [HttpBuf.slice, h, List.take_left]

theorem slice_length_le (b : HttpBuf) (off n : Nat) : (b.slice off n).length ≤ n :=
  List.length_take_le _ _

/-- The lengths recorded for a field whose value has no space, within the reach of 32 bits. -/
theorem fieldRecord_lens {pos : Nat} {f : HeadField} (hspace : 32 ∉ f.value)
    (hlen : f.value.length < 2 ^ 32) (hbelow : pos + f.key.length + 2 < 2 ^ 32) :
    (fieldRecord pos f).keyLen.toNat = f.key.length ∧
      (fieldRecord pos f).valueLen.toNat = f.value.length := by
  simp only [fieldRecord, valueStart_of_notMem hspace]
  constructor
  · rw [toNat_ofNat_sub (Nat.le_add_right _ _), Nat.add_sub_cancel_left]
    omega
  · rw [toNat_ofNat_sub (Nat.le_add_right _ _), Nat.add_sub_cancel_left]
    omega

/-- The record of a field holds its key and its whole value exactly when the value has no space and
both are within the reach of 32 bits. -/
theorem fieldRecord_slices_iff {b : HttpBuf} {pos : Nat} {f : HeadField} {rest : List UInt8}
    (h : b.bytes.drop pos = f.render ++ rest) :
    (((fieldRecord pos f).key.toNat = pos ∧
        b.slice (fieldRecord pos f).key.toNat (fieldRecord pos f).keyLen.toNat = f.key) ∧
      (fieldRecord pos f).value.toNat = pos + f.key.length + 2 ∧
        b.slice (fieldRecord pos f).value.toNat (fieldRecord pos f).valueLen.toNat = f.value) ↔
      32 ∉ f.value ∧ f.value.length < 2 ^ 32 ∧ pos + f.key.length + 2 < 2 ^ 32 := by
  constructor
  · rintro ⟨-, hvalue, hslice⟩
    have hlen : f.value.length ≤ (fieldRecord pos f).valueLen.toNat := by
      have hle := slice_length_le b (fieldRecord pos f).value.toNat (fieldRecord pos f).valueLen.toNat
      rwa [hslice] at hle
    refine ⟨fun hspace => ?_, Nat.lt_of_le_of_lt hlen (UInt32.toNat_lt _), ?_⟩
    · -- the slice ends where the value ends, and starts later
      obtain ⟨q, hpq, hq, hstart⟩ := valueStart_of_mem hspace (pos + f.key.length + 2)
        (UInt32.ofNat (pos + f.key.length + 2))
      have hshort : (fieldRecord pos f).valueLen.toNat =
          (pos + f.key.length + 2 + f.value.length - q) % 2 ^ 32 := by
        simp only [fieldRecord, hstart]
        exact toNat_ofNat_sub hq
      have hmod := Nat.mod_le (pos + f.key.length + 2 + f.value.length - q) (2 ^ 32)
      omega
    · rw [← hvalue]
      exact UInt32.toNat_lt _
  · rintro ⟨hspace, hlen, hbelow⟩
    have hkey : (UInt32.ofNat pos).toNat = pos := by
      rw [UInt32.toNat_ofNat']
      omega
    have hvalue : (UInt32.ofNat (pos + f.key.length + 2)).toNat = pos + f.key.length + 2 := by
      rw [UInt32.toNat_ofNat']
      omega
    obtain ⟨hkeyLen, hvalueLen⟩ := fieldRecord_lens hspace hlen hbelow
    rw [hkeyLen, hvalueLen]
    simp only [fieldRecord, valueStart_of_notMem hspace, hkey, hvalue, true_and]
    constructor
    · exact slice_eq (by rw [h, HeadField.render, List.append_assoc])
    · have hdrop : b.bytes.drop (pos + f.key.length + 2) = f.value ++ (crlf ++ rest) := by
        rw [Nat.add_assoc, ← List.drop_drop, h, HeadField.render, List.append_assoc, ← List.drop_drop,
          List.drop_left]
        simp
      exact slice_eq hdrop

/-- The records of the fields list them exactly when each of them does. -/
theorem lists_iff {b : HttpBuf} {fs : List HeadField} {pos : Nat} {rest : List UInt8}
    (h : b.bytes.drop pos = fs.flatMap HeadField.render ++ rest) :
    Lists b pos (fieldRecords pos fs) fs ↔
      (∀ f ∈ fs, 32 ∉ f.value ∧ f.value.length < 2 ^ 32) ∧ ValuesBelow pos fs := by
  induction fs generalizing pos with
  | nil => simp [Lists, fieldRecords, ValuesBelow]
  | cons f fs ih =>
      rw [List.flatMap_cons, List.append_assoc] at h
      have hrest : b.bytes.drop (pos + f.render.length) = fs.flatMap HeadField.render ++ rest := by
        rw [← List.drop_drop, h, List.drop_left]
      have hf := fieldRecord_slices_iff h
      rw [fieldRecords, Lists, ValuesBelow, ih hrest, List.forall_mem_cons, ← and_assoc, hf]
      tauto

/-! ## The label `parsed` -/

theorem copied_of_le {b : HttpBuf} {off len : UInt32} (h : len.toNat ≤ 1024) :
    copied b off len = some (cstr (b.slice off.toNat len.toNat)) := by
  rw [copied, if_pos h]

theorem copied_of_lt {b : HttpBuf} {off len : UInt32} (h : 1024 < len.toNat) : copied b off len = none := by
  rw [copied, if_neg (Nat.not_le_of_lt h)]

/-- In a field of this name and value `atoi` reads on behind the array that the value fills. -/
def Overreads (key value : CStr) : Prop := key = lit "Content-Length" ∧ atoiBuf value = none

instance (key value : CStr) : Decidable (Overreads key value) := inferInstanceAs (Decidable (_ ∧ _))

/-- Only a value that fills the array is read on behind it. -/
theorem not_overreads_of_lt {key value : CStr} (h : value.length < 1024) : ¬ Overreads key value := by
  rintro ⟨-, hnone⟩
  rw [atoiBuf, if_pos (.inl h)] at hnone
  cases hnone

theorem cstr_length_le (bs : List UInt8) : (cstr bs).length ≤ bs.length :=
  (List.takeWhile_sublist _).length_le

/-- The key and the value of a record can be copied and looked at. -/
structure KeyValue.Fits (b : HttpBuf) (kv : KeyValue) : Prop where
  key : kv.keyLen.toNat ≤ 1024
  value : kv.valueLen.toNat ≤ 1024
  number : ¬ Overreads (cstr (b.slice kv.key.toNat kv.keyLen.toNat))
    (cstr (b.slice kv.value.toNat kv.valueLen.toNat))

/-- A field whose copies are there can be looked at unless `atoi` reads on. -/
theorem headField_isSome_of_copied {b : HttpBuf} {kv : KeyValue} {key value : CStr}
    (hkey : copied b kv.key kv.keyLen = some key) (hvalue : copied b kv.value kv.valueLen = some value)
    (hc : HeadCache) : (headField b hc kv).isSome ↔ ¬ Overreads key value := by
  rw [headField, hkey, hvalue]
  by_cases hname : key = lit "Content-Length"
  · cases hnumber : atoiBuf value <;> simp [Overreads, hname, hnumber]
  · simp [Overreads, hname]

/-- A field can be looked at exactly when its key and value fit. -/
theorem headField_isSome_iff (b : HttpBuf) (hc : HeadCache) (kv : KeyValue) :
    (headField b hc kv).isSome ↔ kv.Fits b := by
  by_cases hkey : kv.keyLen.toNat ≤ 1024
  · by_cases hvalue : kv.valueLen.toNat ≤ 1024
    · rw [headField_isSome_of_copied (copied_of_le hkey) (copied_of_le hvalue)]
      exact ⟨fun h => ⟨hkey, hvalue, h⟩, KeyValue.Fits.number⟩
    · refine iff_of_false ?_ fun h => hvalue h.value
      rw [headField, copied_of_le hkey, copied_of_lt (Nat.lt_of_not_le hvalue)]
      simp
  · refine iff_of_false ?_ fun h => hkey h.key
    rw [headField, copied_of_lt (Nat.lt_of_not_le hkey)]
    simp

/-- A field sets how the body is framed, and nothing else. -/
theorem headField_frame {b : HttpBuf} {hc hc' : HeadCache} {kv : KeyValue}
    (h : headField b hc kv = some hc') : hc' = { hc with
      contentLen := hc'.contentLen, gzipFlag := hc'.gzipFlag, chunkFlag := hc'.chunkFlag } := by
  rw [headField] at h
  obtain ⟨key, -, h⟩ := Option.bind_eq_some_iff.mp h
  obtain ⟨value, -, h⟩ := Option.bind_eq_some_iff.mp h
  obtain ⟨hc₁, hlength, h⟩ := Option.bind_eq_some_iff.mp h
  have hframe : hc₁ = { hc with contentLen := hc₁.contentLen } := by
    split at hlength
    · obtain ⟨n, -, rfl⟩ := Option.map_eq_some_iff.mp hlength
      rfl
    · rw [← Option.some.inj hlength]
  rw [← Option.some.inj h, hframe]
  split <;> split <;> rfl

/-- All fields can be looked at when all keys and values fit; the queue is not changed. -/
theorem headFields_isSome_iff (b : HttpBuf) (hc : HeadCache) (kvs : List KeyValue) :
    (kvs.foldlM (headField b) hc).isSome ↔ ∀ kv ∈ kvs, kv.Fits b := by
  induction kvs generalizing hc with
  | nil => simp
  | cons kv kvs ih =>
      have hkv := headField_isSome_iff b hc kv
      rw [List.foldlM_cons, List.forall_mem_cons]
      cases hf : headField b hc kv with
      | none =>
          rw [hf] at hkv
          refine ⟨fun h => by simp at h, fun h => absurd (hkv.mpr h.1) (by simp)⟩
      | some hc' =>
          rw [hf] at hkv
          show (kvs.foldlM (headField b) hc').isSome ↔ _
          rw [ih hc']
          exact ⟨fun h => ⟨hkv.mp rfl, h⟩, fun h => h.2⟩

theorem headFields_frame {b : HttpBuf} {hc hc' : HeadCache} {kvs : List KeyValue}
    (h : kvs.foldlM (headField b) hc = some hc') : hc' = { hc with
      contentLen := hc'.contentLen, gzipFlag := hc'.gzipFlag, chunkFlag := hc'.chunkFlag } := by
  induction kvs generalizing hc with
  | nil => rw [← Option.some.inj h]
  | cons kv kvs ih =>
      rw [List.foldlM_cons] at h
      obtain ⟨hc₁, hf, h⟩ := Option.bind_eq_some_iff.mp h
      exact (ih h).trans (by rw [headField_frame hf])

theorem headParsed_frame {b : HttpBuf} {hc hc' : HeadCache} {vsr : HttpVsr} {rc : Int}
    (h : headParsed b hc vsr = some (rc, hc')) : hc' = { hc with
      contentLen := hc'.contentLen, gzipFlag := hc'.gzipFlag, chunkFlag := hc'.chunkFlag } := by
  rw [headParsed] at h
  obtain ⟨status, -, h⟩ := Option.bind_eq_some_iff.mp h
  split at h
  · split at h
    · rw [(Prod.mk.inj (Option.some.inj h)).2]
    · cases h
  · obtain ⟨hc₁, hfold, h⟩ := Option.bind_eq_some_iff.mp h
    rw [← (Prod.mk.inj (Option.some.inj h)).2]
    exact headFields_frame hfold

theorem headParsed_kvQueue {b : HttpBuf} {hc hc' : HeadCache} {vsr : HttpVsr} {rc : Int}
    (h : headParsed b hc vsr = some (rc, hc')) : hc'.kvQueue = hc.kvQueue := by
  rw [headParsed_frame h]

/-- With the return value 0 the code has been read as 200. -/
theorem headParsed_code {b : HttpBuf} {hc hc' : HeadCache} {vsr : HttpVsr}
    (h : headParsed b hc vsr = some (0, hc')) : copied b vsr.status vsr.statusLen = some (lit "200") := by
  rw [headParsed] at h
  obtain ⟨status, hstatus, h⟩ := Option.bind_eq_some_iff.mp h
  by_cases hne : status ≠ lit "200"
  · rw [if_pos hne] at h
    split at h
    · cases h
    · cases h
  · rw [hstatus, not_not.mp hne]

/-- Behind the code 200, with any return value, all fields have been looked at. -/
theorem headParsed_fits {b : HttpBuf} {hc : HeadCache} {vsr : HttpVsr} {r : Int × HeadCache}
    (hcode : copied b vsr.status vsr.statusLen = some (lit "200")) (h : headParsed b hc vsr = some r) :
    ∀ kv ∈ hc.kvQueue, kv.Fits b := by
  rw [headParsed, hcode, Option.bind_eq_bind, Option.bind_some, if_neg fun hne => hne rfl] at h
  obtain ⟨hc', hwalk, -⟩ := Option.bind_eq_some_iff.mp h
  exact (headFields_isSome_iff b hc hc.kvQueue).mp (by rw [hwalk]; rfl)

/-- The status code of a rendered head is 200 to the parser, below 4 GiB. -/
theorem copied_status {b : HttpBuf} {l : StatusLine} {rest : List UInt8}
    (hbytes : b.bytes = l.render ++ rest) (hlow : l.version.length + 1 < 2 ^ 32) :
    copied b (lineVsr l).status (lineVsr l).statusLen = some (lit "200") := by
  have hlen : (lineVsr l).statusLen.toNat = 3 := by
    simp only [lineVsr]
    rw [toNat_ofNat_sub (by omega)]
    omega
  have hoff : (lineVsr l).status.toNat = l.version.length + 1 := by
    simp only [lineVsr, UInt32.toNat_ofNat']
    omega
  have hdrop : b.bytes.drop (l.version.length + 1) = lit "200" ++ (32 :: (l.reason ++ crlf) ++ rest) := by
    rw [hbytes, StatusLine.render, List.append_assoc, ← List.drop_drop, List.drop_left]
    simp
  have hslice : b.slice (l.version.length + 1) 3 = lit "200" := slice_eq hdrop
  rw [copied_of_le (by omega), hlen, hoff, hslice]
  rfl

/-- The length of the code is 3 whatever the offsets, so the code itself can always be copied, and
logged. -/
theorem copied_status_short (b : HttpBuf) (l : StatusLine) :
    ∃ code, copied b (lineVsr l).status (lineVsr l).statusLen = some code ∧ code.length < 1024 := by
  have hlen : (lineVsr l).statusLen.toNat ≤ 3 := by
    simp only [lineVsr]
    rw [toNat_ofNat_sub (by omega)]
    omega
  refine ⟨_, copied_of_le (by omega), ?_⟩
  have hcstr := cstr_length_le (b.slice (lineVsr l).status.toNat (lineVsr l).statusLen.toNat)
  have hslice := slice_length_le b (lineVsr l).status.toNat (lineVsr l).statusLen.toNat
  omega

/-! ## Reading back -/

/-- A call of `http_parse_head` ends with `HTTP_HEAD_DONE`, `pos` behind the empty line, and the
records of the fields. -/
def ReadsBack (client : HttpClient) (l : StatusLine) (fs : List HeadField) : Prop :=
  ∃ rc client' b hc, httpParseHead client = some (rc, client') ∧ client'.status = .headDone ∧
    client'.recv = some b ∧ b.pos = (renderHead l fs).length ∧ client'.head = some hc ∧
    Lists b l.render.length hc.kvQueue fs

/-- The key and the value of a field can be copied and looked at. -/
structure HeadField.Fits (f : HeadField) : Prop where
  key : f.key.length ≤ 1024
  value : f.value.length ≤ 1024
  number : ¬ Overreads (cstr f.key) (cstr f.value)

theorem fieldRecord_fits_iff {b : HttpBuf} {pos : Nat} {f : HeadField} {rest : List UInt8}
    (h : b.bytes.drop pos = f.render ++ rest) (hspace : 32 ∉ f.value) (hlen : f.value.length < 2 ^ 32)
    (hbelow : pos + f.key.length + 2 < 2 ^ 32) : (fieldRecord pos f).Fits b ↔ f.Fits := by
  obtain ⟨⟨-, hkey⟩, -, hvalue⟩ := (fieldRecord_slices_iff h).mpr ⟨hspace, hlen, hbelow⟩
  obtain ⟨hkeyLen, hvalueLen⟩ := fieldRecord_lens hspace hlen hbelow
  constructor
  · rintro ⟨hk, hv, hnumber⟩
    rw [hkey, hvalue] at hnumber
    exact ⟨hkeyLen ▸ hk, hvalueLen ▸ hv, hnumber⟩
  · rintro ⟨hk, hv, hnumber⟩
    refine ⟨hkeyLen ▸ hk, hvalueLen ▸ hv, ?_⟩
    rwa [hkey, hvalue]

theorem fieldRecords_fit_iff {b : HttpBuf} {fs : List HeadField} {pos : Nat} {rest : List UInt8}
    (h : b.bytes.drop pos = fs.flatMap HeadField.render ++ rest)
    (hfs : ∀ f ∈ fs, 32 ∉ f.value ∧ f.value.length < 2 ^ 32) (hbelow : ValuesBelow pos fs) :
    (∀ kv ∈ fieldRecords pos fs, kv.Fits b) ↔ ∀ f ∈ fs, f.Fits := by
  induction fs generalizing pos with
  | nil => simp [fieldRecords]
  | cons f fs ih =>
      obtain ⟨hf, hfs⟩ := List.forall_mem_cons.mp hfs
      rw [List.flatMap_cons, List.append_assoc] at h
      have hrest : b.bytes.drop (pos + f.render.length) = fs.flatMap HeadField.render ++ rest := by
        rw [← List.drop_drop, h, List.drop_left]
      rw [fieldRecords, List.forall_mem_cons, List.forall_mem_cons, ih hrest hfs hbelow.2,
        fieldRecord_fits_iff h hf.1 hf.2 hbelow.1]

/-- What a call makes of a rendered head. -/
theorem httpParseHead_rendered {client : HttpClient} {b : HttpBuf} {l : StatusLine}
    {fs : List HeadField} {rest : List UInt8} (hhead : client.head = none)
    (hrecv : client.recv = some b) (hpos : b.pos = 0) (hbytes : b.bytes = renderHead l fs ++ rest) :
    httpParseHead client =
      (headParsed b (headRecord l fs) (lineVsr l)).map fun r =>
        (r.1, { client.leaveHead b (headRead l fs) with status := .headDone, head := some r.2 }) := by
  have hstate : client.headState b = ⟨{}, {}, none, 0⟩ := by
    simp [HttpClient.headState, hhead, hpos]
  rw [httpParseHead, hrecv]
  show headEnd client b (scan headByte (client.headState b) (b.bytes.drop b.pos)) = _
  rw [hstate, hpos, List.drop_zero, hbytes, scan_head]
  show (headParsed b (headRecord l fs) (lineVsr l)).bind _ = _
  cases headParsed b (headRecord l fs) (lineVsr l) <;> rfl

/-- Where everything fits the copy buffers, the label `parsed` is left with a return value. -/
theorem headParsed_ends {b : HttpBuf} {l : StatusLine} {fs : List HeadField}
    (hfits : ∀ kv ∈ fieldRecords l.render.length fs, kv.Fits b) :
    ∃ r, headParsed b (headRecord l fs) (lineVsr l) = some r := by
  obtain ⟨code, hcode, hshort⟩ := copied_status_short b l
  rw [headParsed, hcode]
  simp only [Option.bind_eq_bind, Option.bind_some, if_pos hshort]
  split
  · exact ⟨_, rfl⟩
  · obtain ⟨hc, hfold⟩ := Option.isSome_iff_exists.mp
      ((headFields_isSome_iff b (headRecord l fs) _).mpr hfits)
    refine ⟨(0, hc), ?_⟩
    show ((fieldRecords l.render.length fs).foldlM (headField b) (headRecord l fs)).bind _ = _
    rw [hfold]
    rfl

section

variable {client : HttpClient} {b : HttpBuf} {l : StatusLine} {fs : List HeadField}
  {rest : List UInt8} (hhead : client.head = none) (hrecv : client.recv = some b)
  (hpos : b.pos = 0) (hbytes : b.bytes = renderHead l fs ++ rest)
include hbytes

theorem rendered_fields :
    b.bytes.drop l.render.length = fs.flatMap HeadField.render ++ (crlf ++ rest) := by
  rw [hbytes, renderHead, List.append_assoc, List.drop_left, List.append_assoc]

/-- With a field in reach, the code is read as 200 and the fields are walked. -/
theorem headParsed_walks {f : HeadField} (hf : f ∈ fs) (hbelow : ValuesBelow l.render.length fs) :
    headParsed b (headRecord l fs) (lineVsr l) =
      ((fieldRecords l.render.length fs).foldlM (headField b) (headRecord l fs)).map
        fun hc => (0, hc) := by
  have hlow : l.version.length + 1 < 2 ^ 32 := by
    obtain ⟨g, gs, rfl⟩ := List.exists_cons_of_ne_nil (List.ne_nil_of_mem hf)
    have := hbelow.1
    rw [l.render_length] at this
    omega
  have hcode := copied_status (b := b) (l := l) (by rw [hbytes, renderHead, List.append_assoc]) hlow
  rw [headParsed, hcode]
  simp only [Option.bind_eq_bind, Option.bind_some, ne_eq, not_true, if_false]
  show ((fieldRecords l.render.length fs).foldlM (headField b) (headRecord l fs)).bind _ = _
  cases (fieldRecords l.render.length fs).foldlM (headField b) (headRecord l fs) <;> rfl

include hhead hrecv hpos

/-- A head that is read back has been parsed to its end, and its slices hold the fields. -/
theorem ReadsBack.slices (h : ReadsBack client l fs) :
    (headParsed b (headRecord l fs) (lineVsr l)).isSome ∧
      (∀ f ∈ fs, 32 ∉ f.value ∧ f.value.length < 2 ^ 32) ∧ ValuesBelow l.render.length fs := by
  obtain ⟨rc, client', b', hc, hsome, -, hrecv', -, hhead', hlists⟩ := h
  rw [httpParseHead_rendered hhead hrecv hpos hbytes, Option.map_eq_some_iff] at hsome
  obtain ⟨⟨rc', hc'⟩, hparsed, hresult⟩ := hsome
  obtain rfl := (Prod.mk.inj hresult).2
  obtain rfl := Option.some.inj hrecv'
  obtain rfl := Option.some.inj hhead'
  rw [headParsed_kvQueue hparsed] at hlists
  refine ⟨by rw [hparsed]; rfl, ?_⟩
  exact (lists_iff (b := { b with pos := (headRead l fs).pos }) (rendered_fields hbytes)).mp hlists

/-- A rendered head is read back exactly when no value has a space, keys and values fit the buffers
they are copied to, and all values start below 4 GiB. -/
theorem readsBack_iff :
    ReadsBack client l fs ↔
      (∀ f ∈ fs, 32 ∉ f.value ∧ f.Fits) ∧ ValuesBelow l.render.length fs := by
  constructor
  · intro h
    obtain ⟨hsome, hfs, hbelow⟩ := h.slices hhead hrecv hpos hbytes
    refine ⟨fun f hf => ⟨(hfs f hf).1, ?_⟩, hbelow⟩
    -- the walk over the fields has ended, so everything fitted
    rw [headParsed_walks hbytes hf hbelow, Option.isSome_map, headFields_isSome_iff] at hsome
    exact (fieldRecords_fit_iff (rendered_fields hbytes) hfs hbelow).mp hsome f hf
  · rintro ⟨hfs, hbelow⟩
    have hfs' : ∀ f ∈ fs, 32 ∉ f.value ∧ f.value.length < 2 ^ 32 := fun f hf =>
      ⟨(hfs f hf).1, Nat.lt_of_le_of_lt (hfs f hf).2.value (by decide)⟩
    have hfits := (fieldRecords_fit_iff (rendered_fields hbytes) hfs' hbelow).mpr fun f hf => (hfs f hf).2
    obtain ⟨⟨rc, hc⟩, hparsed⟩ := headParsed_ends hfits
    have hcall := httpParseHead_rendered hhead hrecv hpos hbytes
    rw [hparsed] at hcall
    refine ⟨rc, _, { b with pos := (headRead l fs).pos }, hc, hcall, rfl, rfl, rfl, rfl, ?_⟩
    rw [headParsed_kvQueue hparsed]
    exact (lists_iff (b := { b with pos := (headRead l fs).pos }) (rendered_fields hbytes)).mpr
      ⟨hfs', hbelow⟩

end

/-- A status line, and a field whose value has two words. -/
def okLine : StatusLine where
  version := lit "HTTP/1.1"
  reason := lit "OK"
  version_plain := forall_mem_of_all (by decide)
  reason_inline := forall_mem_of_all (by decide)

def twoWords : HeadField where
  key := lit "Server"
  value := lit "a b"
  key_ne := by decide
  key_plain := forall_mem_of_all (by decide)
  value_inline := forall_mem_of_all (by decide)
  value_head := by decide

/-- A client that has received the head with these fields. -/
def headClient (fs : List HeadField) : HttpClient where
  status := .reqDone
  url := ⟨80, [], [97], []⟩
  recv := some { bytes := renderHead okLine fs }

theorem readsBack_iff_twoWords :
    ReadsBack (headClient [twoWords]) okLine [twoWords] ↔
      (∀ f ∈ [twoWords], 32 ∉ f.value ∧ f.Fits) ∧ ValuesBelow okLine.render.length [twoWords] :=
  readsBack_iff rfl rfl rfl (List.append_nil _).symm

/-- Of the value `a b` the record holds `b`. -/
theorem twoWords_not_readsBack :
    (∃ rc client b hc, httpParseHead (headClient [twoWords]) = some (rc, client) ∧
      client.recv = some b ∧ client.head = some hc ∧
      hc.kvQueue.map (fun kv => b.slice kv.value.toNat kv.valueLen.toNat) = [lit "b"]) ∧
    ¬ ReadsBack (headClient [twoWords]) okLine [twoWords] := by
  refine ⟨⟨0, _, _, _, rfl, rfl, rfl, by rfl⟩, fun h => ?_⟩
  have hslices := h.slices rfl rfl rfl (List.append_nil _).symm
  exact (hslices.2.1 twoWords (by simp)).1 (by decide)

end Crawler.Http
