/-
# Crawler.Http.HeadRecords — what the head parser records of any head, and copies of it

Every head that the parser accepts consists of lines (`HeadLines`); its records are computed here from
the lines, for all of them and not only for heads that were written well (`scan_headLines`). A key is
what stands before the first colon, a value what stands behind the last space of the rest. The offsets
and lengths are those of the head, cut to 32 bits.

The label `parsed` copies the status code and, where that is 200, every key and value into arrays of
1024 bytes. Nothing bounds what is copied: it fits, with a NUL behind it, exactly when the lengths on the
wire, cut to 32 bits, are below 1024 (`copiesFit_iff`).
-/
import Crawler.Http.HeadEnds
import Mathlib.Data.List.TakeWhile

namespace Crawler.Http

open Crawler.Lib

/-! ## The parts of a line -/

/-- What stands before the first `c`. -/
def upTo (c : UInt8) (bs : List UInt8) : List UInt8 := bs.takeWhile (· ≠ c)

/-- What stands behind the first `c`. -/
def behind (c : UInt8) (bs : List UInt8) : List UInt8 := (bs.dropWhile (· ≠ c)).tail

/-- What stands behind the last space, or all of it. -/
def lastWord : List UInt8 → List UInt8
  | [] => []
  | c :: cs => if 32 ∈ cs then lastWord cs else if c = 32 then cs else c :: cs

theorem not_mem_upTo (c : UInt8) (bs : List UInt8) : c ∉ upTo c bs :=
  fun h => by simpa using List.mem_takeWhile_imp h

theorem upTo_append {c : UInt8} {as : List UInt8} (h : c ∉ as) (bs : List UInt8) :
    upTo c (as ++ c :: bs) = as := by
  induction as with
  | nil => simp [upTo]
  | cons a as ih =>
      have ha : a ≠ c := Ne.symm (List.ne_of_not_mem_cons h)
      rw [upTo, List.cons_append, List.takeWhile_cons_of_pos (by simpa using ha)]
      exact congrArg (a :: ·) (ih (List.not_mem_of_not_mem_cons h))

theorem behind_append {c : UInt8} {as : List UInt8} (h : c ∉ as) (bs : List UInt8) :
    behind c (as ++ c :: bs) = bs := by
  induction as with
  | nil => simp [behind]
  | cons a as ih =>
      have ha : a ≠ c := Ne.symm (List.ne_of_not_mem_cons h)
      rw [behind, List.cons_append, List.dropWhile_cons_of_pos (by simpa using ha)]
      exact ih (List.not_mem_of_not_mem_cons h)

theorem upTo_behind {c : UInt8} {bs : List UInt8} (h : c ∈ bs) : upTo c bs ++ c :: behind c bs = bs := by
  obtain ⟨as, bs', rfl, has⟩ := List.eq_append_cons_of_mem h
  rw [upTo_append has, behind_append has]

theorem lastWord_of_notMem {v : List UInt8} (h : 32 ∉ v) : lastWord v = v := by
  cases v with
  | nil => rfl
  | cons c v =>
      rw [lastWord, if_neg (List.not_mem_of_not_mem_cons h),
        if_neg (Ne.symm (List.ne_of_not_mem_cons h))]

/-- The last word ends the value. -/
theorem lastWord_suffix (v : List UInt8) : lastWord v <:+ v := by
  induction v with
  | nil => exact List.suffix_rfl
  | cons c v ih =>
      rw [lastWord]
      split_ifs
      · exact ih.trans (List.suffix_cons c v)
      · exact List.suffix_cons c v
      · exact List.suffix_rfl

/-- The parser starts a value at its last word. -/
theorem valueStart_lastWord (p : Nat) (v : List UInt8) :
    valueStart p (UInt32.ofNat p) v = UInt32.ofNat (p + v.length - (lastWord v).length) := by
  have hspace : ∀ (v : List UInt8) (p : Nat) (start : UInt32), 32 ∈ v →
      valueStart p start v = UInt32.ofNat (p + v.length - (lastWord v).length) := by
    intro v
    induction v with
    | nil => exact fun _ _ h => by cases h
    | cons c v ih =>
        intro p start h
        rw [valueStart, lastWord, List.length_cons]
        by_cases hv : 32 ∈ v
        · rw [ih _ _ hv, if_pos hv]
          congr 1
          omega
        · have hc : c = 32 := ((List.mem_cons.mp h).resolve_right hv).symm
          rw [valueStart_of_notMem hv, if_pos hc, if_neg hv, if_pos hc]
          congr 1
          omega
  by_cases h : 32 ∈ v
  · exact hspace v p _ h
  · rw [valueStart_of_notMem h, lastWord_of_notMem h, Nat.add_sub_cancel]

namespace HeadLine

/-- The name of a field. -/
def key (l : HeadLine) : List UInt8 := upTo 58 l.text

/-- What stands behind the first colon. -/
def value (l : HeadLine) : List UInt8 := behind 58 l.text

/-- The value as the parser has it. -/
def word (l : HeadLine) : List UInt8 := lastWord l.value

/-- The first two words of the status line, and the rest. -/
def version (l : HeadLine) : List UInt8 := upTo 32 l.text

def code (l : HeadLine) : List UInt8 := upTo 32 (behind 32 l.text)

def reason (l : HeadLine) : List UInt8 := behind 32 (behind 32 l.text)

theorem colon_not_mem_key (l : HeadLine) : 58 ∉ l.key := not_mem_upTo 58 l.text

theorem text_eq {l : HeadLine} (h : 58 ∈ l.text) : l.text = l.key ++ 58 :: l.value := (upTo_behind h).symm

end HeadLine

/-! ## The records of a line -/

/-- Where the status leaves a byte, all but `pos` is left, outside a value. -/
theorem headByte_stay {s : HeadState} {c : UInt8} (hkey : s.hc.status ≠ .keyDone)
    (h : statusNext s.hc.status c = some s.hc.status) :
    headByte s c = .more { s with pos := s.pos + 1 } := by
  obtain ⟨⟨status, vsr', start, kvQueue, contentLen, gzipFlag, chunkFlag⟩, vsr, kv, pos⟩ := s
  unfold headByte
  simp only at hkey h ⊢
  split_ifs with h32 h58 h13 h10
  · subst h32
    cases status <;> simp_all [statusNext, headSpace]
  · subst h58
    cases status <;> simp_all [statusNext, headColon]
  · subst h13
    cases status <;> simp_all [statusNext]
  · subst h10
    cases status <;> simp_all [statusNext]
  · rfl

theorem scan_stay (status : HeadStatus) {bs : List UInt8} {s : HeadState} (hs : s.hc.status = status)
    (hkey : status ≠ .keyDone) (h : ∀ c ∈ bs, statusNext status c = some status) :
    scan headByte s bs = .more { s with pos := s.pos + bs.length } := by
  subst hs
  induction bs generalizing s with
  | nil => rfl
  | cons c bs ih =>
      have hrest := ih (s := { s with pos := s.pos + 1 }) hkey fun d hd => h d (List.mem_cons_of_mem _ hd)
      rw [scan, headByte_stay hkey (h c List.mem_cons_self), Scan.more_bind, hrest]
      simp only [List.length_cons, Nat.add_assoc, Nat.add_comm 1]

/-- The record the parser makes of a line at offset `pos`. -/
def lineRecord (pos : Nat) (l : HeadLine) : KeyValue :=
  let valueEnd := pos + l.key.length + 1 + l.value.length
  let value := UInt32.ofNat (valueEnd - l.word.length)
  { key := UInt32.ofNat pos
    keyLen := UInt32.ofNat (pos + l.key.length) - UInt32.ofNat pos
    value := value
    valueLen := UInt32.ofNat valueEnd - value }

/-- The records of the lines from offset `pos` on. -/
def lineRecords (pos : Nat) : List HeadLine → List KeyValue
  | [] => []
  | l :: ls => lineRecord pos l :: lineRecords (pos + l.bytes.length) ls

theorem HeadLine.bytes_length (l : HeadLine) : l.bytes.length = l.text.length + 1 + l.junk.length + 1 := by
  simp only [HeadLine.bytes, List.length_append, List.length_cons, List.length_nil]
  omega

/-- Between CR and LF. -/
theorem junk_stay {status next : HeadStatus} (hstatus : ∀ c, statusNext status c =
      if c = 10 then some next else if c = 13 then none else some status) (l : HeadLine) :
    ∀ c ∈ l.junk, statusNext status c = some status := by
  intro c hc
  obtain ⟨h13, h10⟩ := l.junk_inline c hc
  rw [hstatus, if_neg h10, if_neg h13]

/-- A line with a colon becomes a record. -/
theorem scan_headLine (vsr : HttpVsr) (kvs : List KeyValue) (pos : Nat) {l : HeadLine} (h : 58 ∈ l.text) :
    scan headByte (atLine vsr kvs pos) l.bytes =
      .more (atLine vsr (kvs ++ [lineRecord pos l]) (pos + l.bytes.length)) := by
  have hinline := l.text_inline
  have htext : l.text = l.key ++ 58 :: l.value := HeadLine.text_eq h
  rw [htext] at hinline
  have hkey : ∀ c ∈ l.key, statusNext .lineDone c = some .lineDone := fun c hc =>
    lineDone_stay.mpr ⟨fun h58 => l.colon_not_mem_key (h58 ▸ hc), hinline c (List.mem_append_left _ hc)⟩
  have hvalue : ∀ c ∈ l.value, Inline c := fun c hc =>
    hinline c (List.mem_append_right _ (List.mem_cons_of_mem _ hc))
  have hlen : pos + l.bytes.length = pos + l.key.length + 1 + l.value.length + 1 + l.junk.length + 1 := by
    rw [l.bytes_length, htext, List.length_append, List.length_cons]
    omega
  have hbytes : l.bytes = l.key ++ 58 :: (l.value ++ 13 :: (l.junk ++ [10])) := by
    rw [HeadLine.bytes, htext]
    simp
  rw [hlen, hbytes, scan_append, scan_stay .lineDone rfl (by decide) hkey, Scan.more_bind, atLine,
    scan_colon _ _ _ _ rfl, scan_append, scan_value hvalue rfl, Scan.more_bind,
    scan_value_end _ _ _ rfl rfl, scan_append,
    scan_stay .lineHalf rfl (by decide) (junk_stay (fun _ => rfl) l), Scan.more_bind,
    scan_line_end _ _ _ _ (.inr rfl), valueStart_lastWord]
  rfl

/-- The lines of the fields become records, in order. -/
theorem scan_fieldLines (vsr : HttpVsr) (kvs : List KeyValue) (pos : Nat) {ls : List HeadLine}
    (h : ∀ l ∈ ls, 58 ∈ l.text) :
    scan headByte (atLine vsr kvs pos) (ls.flatMap HeadLine.bytes) =
      .more (atLine vsr (kvs ++ lineRecords pos ls) (pos + (ls.flatMap HeadLine.bytes).length)) := by
  induction ls generalizing kvs pos with
  | nil => rw [lineRecords, List.append_nil]; rfl
  | cons l ls ih =>
      obtain ⟨hl, hls⟩ := List.forall_mem_cons.mp h
      rw [List.flatMap_cons, scan_append, scan_headLine vsr kvs pos hl, Scan.more_bind, ih _ _ hls,
        lineRecords, List.append_assoc, List.length_append, Nat.add_assoc]
      rfl

/-! ## The records of a head -/

/-- The slices of a status line. -/
def statusVsr (l : HeadLine) : HttpVsr :=
  let code := l.version.length + 1
  let reason := code + l.code.length + 1
  { version := 0
    versionLen := UInt32.ofNat l.version.length - 0
    status := UInt32.ofNat code
    statusLen := UInt32.ofNat (code + l.code.length) - UInt32.ofNat code
    reason := UInt32.ofNat reason
    reasonLen := UInt32.ofNat (reason + l.reason.length) - UInt32.ofNat reason }

/-- A status line has two spaces in its text. -/
def HeadLine.IsStatus (l : HeadLine) : Prop :=
  l.text = l.version ++ 32 :: (l.code ++ 32 :: l.reason) ∧ 32 ∉ l.version ∧ 32 ∉ l.code

theorem HeadLines.isStatus {head : List UInt8} {status : HeadLine} {fields : List HeadLine}
    {last : HeadLine} (h : HeadLines head status fields last) : status.IsStatus := by
  obtain ⟨version, code, reason, htext, hversion, hcode⟩ := h.status
  have hv : status.version = version := by rw [HeadLine.version, htext, upTo_append hversion]
  have hc : status.code = code := by rw [HeadLine.code, htext, behind_append hversion, upTo_append hcode]
  have hr : status.reason = reason := by
    rw [HeadLine.reason, htext, behind_append hversion, behind_append hcode]
  exact ⟨by rw [hv, hc, hr, htext], hv ▸ hversion, hc ▸ hcode⟩

theorem scan_status {l : HeadLine} (h : l.IsStatus) :
    scan headByte .init l.bytes = .more (atLine (statusVsr l) [] l.bytes.length) := by
  obtain ⟨htext, hversion, hcode⟩ := h
  have hinline := l.text_inline
  rw [htext] at hinline
  have hversion' : ∀ c ∈ l.version, statusNext .vsrStart c = some .vsrStart := by
    intro c hc
    obtain ⟨h13, h10⟩ := hinline c (by simp [hc])
    have h32 : c ≠ 32 := fun h => hversion (h ▸ hc)
    simp [statusNext, h32, h13, h10]
  have hcode' : ∀ c ∈ l.code, statusNext .vsrVer c = some .vsrVer := by
    intro c hc
    obtain ⟨h13, h10⟩ := hinline c (by simp [hc])
    have h32 : c ≠ 32 := fun h => hcode (h ▸ hc)
    simp [statusNext, h32, h13, h10]
  have hreason : ∀ c ∈ l.reason, statusNext .vsrStat c = some .vsrStat := by
    intro c hc
    obtain ⟨h13, h10⟩ := hinline c (by simp [hc])
    simp [statusNext, h13, h10]
  have hbytes : l.bytes =
      l.version ++ 32 :: (l.code ++ 32 :: (l.reason ++ 13 :: (l.junk ++ [10]))) := by
    rw [HeadLine.bytes, htext]
    simp
  have hlen : l.bytes.length =
      l.version.length + 1 + l.code.length + 1 + l.reason.length + 1 + l.junk.length + 1 := by
    rw [hbytes]
    simp only [List.length_append, List.length_cons, List.length_nil]
    omega
  rw [hlen, hbytes, scan_append, scan_stay .vsrStart rfl (by decide) hversion', Scan.more_bind,
    HeadState.init, scan_version_end _ _ _ _ rfl, scan_append, scan_stay .vsrVer rfl (by decide) hcode',
    Scan.more_bind, scan_code_end _ _ _ _ rfl, scan_append, scan_stay .vsrStat rfl (by decide) hreason,
    Scan.more_bind, scan_reason_end _ _ _ _ rfl, scan_append,
    scan_stay .vsrReas rfl (by decide) (junk_stay (fun _ => rfl) l), Scan.more_bind,
    scan_line_end _ _ _ _ (.inl rfl)]
  simp only [Nat.zero_add]
  rfl

/-- The offset of the last line. -/
def fieldsEnd (status : HeadLine) (fields : List HeadLine) : Nat :=
  status.bytes.length + (fields.flatMap HeadLine.bytes).length

/-- The state in which the loop ends with a head of these lines. -/
def linesRead (status : HeadLine) (fields : List HeadLine) (last : HeadLine) : HeadState where
  hc := {
    status := .headDone
    start := UInt32.ofNat (fieldsEnd status fields)
    kvQueue := lineRecords status.bytes.length fields }
  vsr := statusVsr status
  kv := none
  pos := fieldsEnd status fields + last.bytes.length

/-- What the loop makes of a head, whatever follows it. -/
theorem scan_headLines {head : List UInt8} {status : HeadLine} {fields : List HeadLine} {last : HeadLine}
    (h : HeadLines head status fields last) (rest : List UInt8) :
    scan headByte .init (head ++ rest) = .stop (.parsed (linesRead status fields last)) := by
  have hstay : ∀ c ∈ last.text, statusNext .lineDone c = some .lineDone := fun c hc =>
    lineDone_stay.mpr ⟨fun h58 => h.last (h58 ▸ hc), last.text_inline c hc⟩
  have hcr : ∀ (hc : HeadCache) (vsr : HttpVsr) (p : Nat) (rest : List UInt8), hc.status = .lineDone →
      scan headByte ⟨hc, vsr, none, p⟩ (13 :: rest) =
        scan headByte ⟨{ hc with status := .headHalf }, vsr, none, p + 1⟩ rest := by
    rintro ⟨status, _, _, _, _, _, _⟩ vsr p rest rfl
    rfl
  have hlf : ∀ (hc : HeadCache) (vsr : HttpVsr) (p : Nat) (rest : List UInt8), hc.status = .headHalf →
      scan headByte ⟨hc, vsr, none, p⟩ (10 :: rest) =
        .stop (.parsed ⟨{ hc with status := .headDone }, vsr, none, p + 1⟩) := by
    rintro ⟨status, _, _, _, _, _, _⟩ vsr p rest rfl
    rfl
  have hlast : last.bytes ++ rest = last.text ++ 13 :: (last.junk ++ 10 :: rest) := by
    simp [HeadLine.bytes]
  rw [h.bytes, List.flatMap_cons, List.append_assoc, List.append_assoc, scan_append, scan_status h.isStatus,
    Scan.more_bind, scan_append, scan_fieldLines _ _ _ h.fields, Scan.more_bind, hlast, scan_append,
    scan_stay .lineDone rfl (by decide) hstay, Scan.more_bind, atLine, hcr _ _ _ _ rfl, scan_append,
    scan_stay .headHalf rfl (by decide) (junk_stay (fun _ => rfl) last), Scan.more_bind, hlf _ _ _ _ rfl,
    linesRead, fieldsEnd, last.bytes_length]
  simp only [Nat.add_assoc]
  rfl

/-- Where the loop ends with a head, the bytes read were such lines. -/
theorem headLines_of_parsed {bytes : List UInt8} {s : HeadState}
    (h : scan headByte .init bytes = .stop (.parsed s)) :
    ∃ head rest status fields last, bytes = head ++ rest ∧ HeadLines head status fields last ∧
      s = linesRead status fields last := by
  obtain ⟨head, rest, rfl, hleads, -⟩ := leads_of_parsed (by decide) init_queueOk h
  obtain ⟨status, fields, last, hlines⟩ := leads_head.mp hleads
  rw [scan_headLines hlines rest] at h
  cases h
  exact ⟨head, rest, status, fields, last, rfl, hlines, rfl⟩

/-! ## The lengths -/

theorem statusVsr_statusLen (l : HeadLine) : (statusVsr l).statusLen.toNat = l.code.length % 2 ^ 32 := by
  simp only [statusVsr]
  rw [toNat_ofNat_sub (Nat.le_add_right _ _), Nat.add_sub_cancel_left]

theorem lineRecord_keyLen (pos : Nat) (l : HeadLine) :
    (lineRecord pos l).keyLen.toNat = l.key.length % 2 ^ 32 := by
  simp only [lineRecord]
  rw [toNat_ofNat_sub (Nat.le_add_right _ _), Nat.add_sub_cancel_left]

theorem lineRecord_valueLen (pos : Nat) (l : HeadLine) :
    (lineRecord pos l).valueLen.toNat = l.word.length % 2 ^ 32 := by
  have hle : l.word.length ≤ l.value.length := (lastWord_suffix l.value).length_le
  simp only [lineRecord]
  rw [toNat_ofNat_sub (Nat.sub_le _ _)]
  congr 1
  omega

theorem lineRecords_lens (pos : Nat) (ls : List HeadLine) :
    (lineRecords pos ls).flatMap (fun kv => [kv.keyLen.toNat, kv.valueLen.toNat]) =
      ls.flatMap fun l => [l.key.length % 2 ^ 32, l.word.length % 2 ^ 32] := by
  induction ls generalizing pos with
  | nil => rfl
  | cons l ls ih =>
      rw [lineRecords, List.flatMap_cons, List.flatMap_cons, ih, lineRecord_keyLen, lineRecord_valueLen]

/-! ## What the label `parsed` copies -/

/-- The status code as `strcmp` finds it in the bytes received. -/
def codeRead (bytes : List UInt8) (off len : Nat) : CStr := ((bytes.drop off).take len).takeWhile (· ≠ 0)

/-- The lengths of the slices copied: of the status code, and where it is 200 of each key and value. -/
def copiedLens (b : HttpBuf) (s : HeadState) : List Nat :=
  s.vsr.statusLen.toNat ::
    if codeRead b.bytes s.vsr.status.toNat s.vsr.statusLen.toNat = lit "200" then
      s.hc.kvQueue.flatMap fun kv => [kv.keyLen.toNat, kv.valueLen.toNat]
    else []

/-- Slices below 1024 bytes have a NUL behind them, so that the label `parsed` is left with a return value. -/
theorem headParsed_isSome {b : HttpBuf} {s : HeadState} (vsr : Option HttpVsr)
    (h : ∀ n ∈ copiedLens b s, n < 1024) : (headParsed b { s.hc with vsr := vsr } s.vsr).isSome := by
  rw [copiedLens, List.forall_mem_cons] at h
  obtain ⟨hlen, hfields⟩ := h
  have hcode : copied b s.vsr.status s.vsr.statusLen =
      some (codeRead b.bytes s.vsr.status.toNat s.vsr.statusLen.toNat) := copied_of_le (Nat.le_of_lt hlen)
  rw [headParsed, hcode, Option.bind_eq_bind, Option.bind_some]
  by_cases heq : codeRead b.bytes s.vsr.status.toNat s.vsr.statusLen.toNat = lit "200"
  · rw [if_pos heq, List.forall_mem_flatMap] at hfields
    have hfits : ∀ kv ∈ s.hc.kvQueue, kv.Fits b := by
      intro kv hkv
      have hkey := hfields kv hkv _ List.mem_cons_self
      have hvalue := hfields kv hkv _ (List.mem_cons_of_mem _ List.mem_cons_self)
      refine ⟨Nat.le_of_lt hkey, Nat.le_of_lt hvalue, not_overreads_of_lt ?_⟩
      exact Nat.lt_of_le_of_lt ((cstr_length_le _).trans (slice_length_le b _ _)) hvalue
    obtain ⟨hc, hwalk⟩ := Option.isSome_iff_exists.mp
      ((headFields_isSome_iff b { s.hc with vsr := vsr } _).mpr hfits)
    rw [if_neg fun hne => hne heq, hwalk]
    rfl
  · have hshort : (codeRead b.bytes s.vsr.status.toNat s.vsr.statusLen.toNat).length < 1024 :=
      Nat.lt_of_le_of_lt ((cstr_length_le _).trans (slice_length_le b _ _)) hlen
    rw [if_pos heq, if_pos hshort]
    rfl

/-! ## Copies that fit -/

/-- The bytes of the fragments together. -/
def received (frag : Fragment) (rest : List Fragment) : List UInt8 :=
  (frag :: rest).flatMap Fragment.bytes

/-- Whenever the head ends in the bytes received, the slices copied are of at most 1023 bytes each, and the
calls return. -/
structure CopiesFit (client : HttpClient) (frag : Fragment) (rest : List Fragment) : Prop where
  lens : ∀ s, scan headByte .init (received frag rest) = .stop (.parsed s) →
    ∀ n ∈ copiedLens { bytes := received frag rest } s, n ≤ 1023
  returns : (feed headCall headFinal client frag rest).isSome

/-- The code of every head in the bytes is of at most 1023 bytes, and where it reads 200 so is every key
and every last word of a value; lengths and offsets are cut to 32 bits. -/
def ShortFields (bytes : List UInt8) : Prop :=
  ∀ head rest status fields last, bytes = head ++ rest → HeadLines head status fields last →
    status.code.length % 2 ^ 32 ≤ 1023 ∧
      (codeRead bytes ((status.version.length + 1) % 2 ^ 32) (status.code.length % 2 ^ 32) = lit "200" →
        ∀ f ∈ fields, f.key.length % 2 ^ 32 ≤ 1023 ∧ f.word.length % 2 ^ 32 ≤ 1023)

/-- What is copied of a head, by its lines. -/
theorem copiedLens_linesRead (b : HttpBuf) (status : HeadLine) (fields : List HeadLine) (last : HeadLine) :
    copiedLens b (linesRead status fields last) = status.code.length % 2 ^ 32 ::
      if codeRead b.bytes ((status.version.length + 1) % 2 ^ 32) (status.code.length % 2 ^ 32) = lit "200"
      then fields.flatMap fun l => [l.key.length % 2 ^ 32, l.word.length % 2 ^ 32]
      else [] := by
  have hoff : (statusVsr status).status.toNat = (status.version.length + 1) % 2 ^ 32 := UInt32.toNat_ofNat'
  simp only [copiedLens, linesRead, statusVsr_statusLen, hoff, lineRecords_lens]

theorem shortFields_iff (bytes : List UInt8) :
    ShortFields bytes ↔ ∀ s, scan headByte .init bytes = .stop (.parsed s) →
      ∀ n ∈ copiedLens { bytes := bytes } s, n ≤ 1023 := by
  have hhead : ∀ status fields last,
      (∀ n ∈ copiedLens { bytes := bytes } (linesRead status fields last), n ≤ 1023) ↔
        status.code.length % 2 ^ 32 ≤ 1023 ∧
          (codeRead bytes ((status.version.length + 1) % 2 ^ 32) (status.code.length % 2 ^ 32) = lit "200" →
            ∀ f ∈ fields, f.key.length % 2 ^ 32 ≤ 1023 ∧ f.word.length % 2 ^ 32 ≤ 1023) := by
    intro status fields last
    have hpair : ∀ f : HeadLine, (f.key.length % 2 ^ 32 ≤ 1023 ∧ f.word.length % 2 ^ 32 ≤ 1023) ↔
        ∀ n ∈ [f.key.length % 2 ^ 32, f.word.length % 2 ^ 32], n ≤ 1023 := fun f => by simp
    rw [copiedLens_linesRead, List.forall_mem_cons]
    split_ifs with heq
    · simp only [hpair, heq, true_implies, List.forall_mem_flatMap]
    · exact ⟨fun h => ⟨h.1, fun hread => absurd hread heq⟩, fun h => ⟨h.1, fun n hn => by cases hn⟩⟩
  constructor
  · intro h s hs
    obtain ⟨head, rest, status, fields, last, hbytes, hlines, rfl⟩ := headLines_of_parsed hs
    exact (hhead status fields last).mpr (h head rest status fields last hbytes hlines)
  · rintro h head rest status fields last rfl hlines
    exact (hhead status fields last).mp (h _ (scan_headLines hlines rest))

/-- What is seen after the loop is there where the copies fit. -/
theorem headSeen_isSome {bytes : List UInt8}
    (h : ∀ s, scan headByte .init bytes = .stop (.parsed s) →
      ∀ n ∈ copiedLens { bytes := bytes } s, n ≤ 1023) :
    (headSeen bytes (scan headByte .init bytes)).isSome := by
  rcases hscan : scan headByte .init bytes with t | t | t
  · rfl
  · rfl
  · rw [headSeen, Option.isSome_map]
    exact headParsed_isSome _ fun n hn => Nat.lt_succ_of_le (h t hscan n hn)

/-- The copies of a head fit exactly when its code, keys and last words are short enough, however the
head arrives. -/
theorem copiesFit_iff {client : HttpClient} (hfresh : HeadFresh client) (frag : Fragment)
    (rest : List Fragment) : CopiesFit client frag rest ↔ ShortFields (received frag rest) := by
  rw [shortFields_iff]
  refine ⟨CopiesFit.lens, fun h => ⟨h, ?_⟩⟩
  rw [← Option.isSome_map, headFeed_seen hfresh]
  exact headSeen_isSome h

/-! ## A value of 1024 bytes -/

/-- A status line, and a field with a value of 1024 bytes. -/
def okStatus : HeadLine where
  text := lit "HTTP/1.1 200 OK"
  junk := []
  text_inline := forall_mem_of_all (by decide)
  junk_inline := inline_nil

def longField : HeadLine where
  text := lit "A" ++ 58 :: 32 :: List.replicate 1024 97
  junk := []
  text_inline := by
    intro c hc
    rw [List.mem_append, List.mem_cons, List.mem_cons, List.mem_replicate] at hc
    have hname : ∀ d ∈ lit "A", Inline d := forall_mem_of_all (by decide)
    rcases hc with hc | rfl | rfl | ⟨-, rfl⟩
    · exact hname c hc
    · decide
    · decide
    · decide
  junk_inline := inline_nil

/-- The empty line. -/
def emptyLine : HeadLine := ⟨[], [], inline_nil, inline_nil⟩

/-- The head with this field alone. -/
def longFieldHead : List UInt8 := [okStatus, longField].flatMap HeadLine.bytes ++ emptyLine.bytes

theorem longFieldHead_lines : HeadLines longFieldHead okStatus [longField] emptyLine where
  bytes := rfl
  status := ⟨lit "HTTP/1.1", lit "200", lit "OK", rfl, by decide, by decide⟩
  fields := List.forall_mem_singleton.mpr (List.mem_append_right _ List.mem_cons_self)
  last := nofun

theorem longField_word : longField.word = List.replicate 1024 97 := by
  have hvalue : longField.value = 32 :: List.replicate 1024 97 :=
    behind_append (by decide) (32 :: List.replicate 1024 97)
  have hspace : (32 : UInt8) ∉ List.replicate 1024 97 := fun h => by cases List.eq_of_mem_replicate h
  rw [HeadLine.word, hvalue, lastWord, if_neg hspace, if_pos rfl]

theorem copiesFit_iff_longFieldHead :
    CopiesFit idleClient { bytes := longFieldHead } [] ↔
      ShortFields (received { bytes := longFieldHead } []) :=
  copiesFit_iff idleClient_fresh { bytes := longFieldHead } []

/-- The head is not refused: 1024 bytes are copied to an array of 1024, and no NUL ends them. -/
theorem longFieldHead_unterminated :
    (∃ s, scan headByte .init longFieldHead = .stop (.parsed s) ∧
        1024 ∈ copiedLens { bytes := longFieldHead } s) ∧
      ¬ CopiesFit idleClient { bytes := longFieldHead } [] := by
  have hscan : scan headByte .init longFieldHead =
      .stop (.parsed (linesRead okStatus [longField] emptyLine)) := by
    have hall := scan_headLines longFieldHead_lines []
    rwa [List.append_nil] at hall
  have hcode : codeRead longFieldHead ((okStatus.version.length + 1) % 2 ^ 32)
      (okStatus.code.length % 2 ^ 32) = lit "200" := by decide +kernel
  have hcopied : 1024 ∈ copiedLens { bytes := longFieldHead }
      (linesRead okStatus [longField] emptyLine) := by
    rw [copiedLens_linesRead, if_pos hcode, List.flatMap_singleton, longField_word, List.length_replicate]
    simp
  refine ⟨⟨_, hscan, hcopied⟩, fun h => ?_⟩
  have hreceived : received { bytes := longFieldHead } [] = longFieldHead := by
    rw [received, List.flatMap_singleton]
  have hfit := h.lens
  rw [hreceived] at hfit
  exact absurd (hfit _ hscan _ hcopied) (by decide)

end Crawler.Http
