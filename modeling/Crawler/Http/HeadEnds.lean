/-
# Crawler.Http.HeadEnds — where the head parser ends a head

Whether the parser goes on, ends or refuses depends on its status and the byte alone (`statusNext`).
What it takes for a head is a status line, lines with a colon in them and a last line without one, each
line ending with an LF after its one CR. Neither has the last line to be empty nor has the LF to come
right after the CR: the head ends with an empty line exactly when both are so (`endsEmpty_iff`).
-/
import Crawler.Http.HeadRender
import Crawler.Http.HeadResume
import Mathlib.Data.List.Chain

namespace Crawler.Http

open Crawler.Lib

/-! ## The parser's status -/

/-- What a byte makes of the parser's status: `none` where the head is refused, `headDone` where it
ends. -/
def statusNext (status : HeadStatus) (c : UInt8) : Option HeadStatus :=
  match status with
  | .vsrStart => if c = 32 then some .vsrVer else if c = 13 ∨ c = 10 then none else some .vsrStart
  | .vsrVer => if c = 32 then some .vsrStat else if c = 13 ∨ c = 10 then none else some .vsrVer
  | .vsrStat => if c = 13 then some .vsrReas else if c = 10 then none else some .vsrStat
  | .vsrReas => if c = 10 then some .lineDone else if c = 13 then none else some .vsrReas
  | .lineDone =>
      if c = 58 then some .keyDone
      else if c = 13 then some .headHalf
      else if c = 10 then none else some .lineDone
  | .keyDone => if c = 13 then some .lineHalf else if c = 10 then none else some .keyDone
  | .lineHalf => if c = 10 then some .lineDone else if c = 13 then none else some .lineHalf
  | .headHalf => if c = 10 then some .headDone else if c = 13 then none else some .headHalf
  | .headDone => none

/-- A field whose value is being read has its record in the queue. -/
def QueueOk (s : HeadState) : Prop := s.hc.status = .keyDone → s.hc.kvQueue ≠ []

/-- A turn of the loop from `s`, as the status alone sees it. -/
inductive StatusTurn (s : HeadState) : Option HeadStatus → Scan HeadState HeadStop → Prop
  | more {t : HeadState} : t.hc.status ≠ .headDone → t.pos = s.pos + 1 → QueueOk t →
      StatusTurn s (some t.hc.status) (.more t)
  | parsed {t : HeadState} : t.pos = s.pos + 1 → StatusTurn s (some .headDone) (.stop (.parsed t))
  | error {t : HeadState} : StatusTurn s none (.stop (.error t))

/-- A turn to another status. -/
theorem StatusTurn.next {s t : HeadState} {x : Scan HeadState HeadStop} {status : HeadStatus}
    (hx : x = .more t) (hstatus : t.hc.status = status) (hne : status ≠ .headDone)
    (hkey : status = .keyDone → t.hc.kvQueue ≠ []) (hpos : t.pos = s.pos + 1) :
    StatusTurn s (some status) x := by
  subst hx hstatus
  exact .more hne hpos hkey

/-- A turn that leaves the status and the queue. -/
theorem StatusTurn.skip {s t : HeadState} (hq : QueueOk s) {x : Scan HeadState HeadStop} {status : HeadStatus}
    (hs : s.hc.status = status) (hx : x = .more t) (hstatus : t.hc.status = status)
    (hqueue : t.hc.kvQueue = s.hc.kvQueue) (hne : status ≠ .headDone) (hpos : t.pos = s.pos + 1) :
    StatusTurn s (some status) x :=
  .next hx hstatus hne (fun h => hqueue ▸ hq (hs.trans h)) hpos

theorem headSpace_turn {s : HeadState} (hne : s.hc.status ≠ .headDone) (hq : QueueOk s) :
    StatusTurn s (statusNext s.hc.status 32) (headSpace { s with pos := s.pos + 1 }) := by
  obtain ⟨⟨status, vsr', start, kvQueue, contentLen, gzipFlag, chunkFlag⟩, vsr, kv, pos⟩ := s
  cases status
  case vsrStart => exact .next rfl rfl (by decide) nofun rfl
  case vsrVer => exact .next rfl rfl (by decide) nofun rfl
  case headDone => exact absurd rfl hne
  all_goals exact .skip hq rfl rfl rfl rfl (by decide) rfl

theorem headColon_turn {s : HeadState} (hne : s.hc.status ≠ .headDone) (hq : QueueOk s) :
    StatusTurn s (statusNext s.hc.status 58) (headColon { s with pos := s.pos + 1 }) := by
  cases hs : s.hc.status <;> simp only [headColon, hs, reduceCtorEq, if_false, if_true]
  case lineDone => exact .next rfl rfl (by decide) (fun _ => by simp) rfl
  case headDone => exact absurd hs hne
  all_goals exact .skip hq hs rfl hs rfl (by decide) rfl

theorem headCr_turn {s : HeadState} (hne : s.hc.status ≠ .headDone) (hq : QueueOk s) :
    StatusTurn s (statusNext s.hc.status 13) (headCr { s with pos := s.pos + 1 }) := by
  cases hs : s.hc.status <;> simp only [headCr, hs]
  case keyDone =>
    rw [if_neg fun h => hq hs h.2]
    exact .next rfl rfl (by decide) nofun rfl
  case lineDone => exact .next rfl rfl (by decide) nofun rfl
  case vsrStat => exact .next rfl rfl (by decide) nofun rfl
  case headDone => exact absurd hs hne
  all_goals exact .error

theorem headLf_turn {s : HeadState} (hne : s.hc.status ≠ .headDone) :
    StatusTurn s (statusNext s.hc.status 10) (headLf { s with pos := s.pos + 1 }) := by
  cases hs : s.hc.status <;> simp only [headLf, hs]
  case lineHalf => exact .next rfl rfl (by decide) nofun rfl
  case headHalf => exact .parsed rfl
  case vsrReas => exact .next rfl rfl (by decide) nofun rfl
  case headDone => exact absurd hs hne
  all_goals exact .error

/-- A byte without a case leaves the status. -/
theorem statusNext_plain {status : HeadStatus} (hne : status ≠ .headDone) {c : UInt8}
    (h : Plain c) : statusNext status c = some status := by
  obtain ⟨h32, h58, h13, h10⟩ := h
  cases status <;> simp_all [statusNext]

theorem headByte_turn {s : HeadState} (hne : s.hc.status ≠ .headDone) (hq : QueueOk s) (c : UInt8) :
    StatusTurn s (statusNext s.hc.status c) (headByte s c) := by
  unfold headByte
  simp only
  split_ifs with h32 h58 h13 h10
  · exact h32 ▸ headSpace_turn hne hq
  · exact h58 ▸ headColon_turn hne hq
  · exact h13 ▸ headCr_turn hne hq
  · exact h10 ▸ headLf_turn hne
  · rw [statusNext_plain hne ⟨h32, h58, h13, h10⟩]
    exact .skip hq rfl rfl rfl rfl hne rfl

/-- The status after some bytes: `none` where they are refused. -/
def leads (status : HeadStatus) (bytes : List UInt8) : Option HeadStatus :=
  bytes.foldlM statusNext status

theorem leads_cons (status : HeadStatus) (c : UInt8) (bytes : List UInt8) :
    leads status (c :: bytes) = (statusNext status c).bind fun status => leads status bytes :=
  List.foldlM_cons

/-- Where the loop ends with a head, the status says so right after the bytes read. -/
theorem leads_of_parsed {s t : HeadState} (hne : s.hc.status ≠ .headDone) (hq : QueueOk s)
    {bytes : List UInt8} (h : scan headByte s bytes = .stop (.parsed t)) :
    ∃ head rest, bytes = head ++ rest ∧ leads s.hc.status head = some .headDone ∧
      t.pos = s.pos + head.length := by
  induction bytes generalizing s with
  | nil => cases h
  | cons c bytes ih =>
      rw [scan] at h
      have hturn := headByte_turn hne hq c
      generalize hx : headByte s c = x at h hturn
      generalize hnext : statusNext s.hc.status c = next at hturn
      cases hturn with
      | @more s' hne' hpos hq' =>
          obtain ⟨head, rest, rfl, hleads, hlen⟩ := ih hne' hq' h
          refine ⟨c :: head, rest, rfl, ?_, ?_⟩
          · rw [leads_cons, hnext]
            exact hleads
          · rw [hlen, hpos, List.length_cons]
            omega
      | parsed hpos =>
          cases h
          refine ⟨[c], bytes, rfl, ?_, hpos⟩
          rw [leads_cons, hnext]
          rfl
      | error => cases h

/-- Where the status says so, the loop ends with a head. -/
theorem parsed_of_leads {s : HeadState} (hne : s.hc.status ≠ .headDone) (hq : QueueOk s)
    {head : List UInt8} (h : leads s.hc.status head = some .headDone) (rest : List UInt8) :
    ∃ t, scan headByte s (head ++ rest) = .stop (.parsed t) ∧ t.pos = s.pos + head.length := by
  induction head generalizing s with
  | nil => exact absurd (Option.some.inj h) hne
  | cons c head ih =>
      rw [leads_cons] at h
      rw [List.cons_append, scan]
      have hturn := headByte_turn hne hq c
      generalize headByte s c = x at hturn ⊢
      generalize statusNext s.hc.status c = next at h hturn
      cases hturn with
      | @more s' hne' hpos hq' =>
          obtain ⟨t, hscan, hlen⟩ := ih hne' hq' h
          refine ⟨t, hscan, ?_⟩
          rw [hlen, hpos, List.length_cons]
          omega
      | @parsed t hpos =>
          -- no byte is read in the status `headDone`
          cases head with
          | nil => exact ⟨t, rfl, hpos⟩
          | cons d head => cases h
      | error => cases h

/-! ## Lines -/

theorem inline_nil : ∀ c ∈ ([] : List UInt8), Inline c := by simp

/-- A line: a text, its CR, and what stands between that and the LF. -/
structure HeadLine where
  text : List UInt8
  junk : List UInt8
  text_inline : ∀ c ∈ text, Inline c
  junk_inline : ∀ c ∈ junk, Inline c

def HeadLine.bytes (l : HeadLine) : List UInt8 := l.text ++ 13 :: (l.junk ++ [10])

/-- What the parser takes for a head: a status line with two spaces in it, lines with a colon, and a
line without one. -/
structure HeadLines (head : List UInt8) (status : HeadLine) (fields : List HeadLine)
    (last : HeadLine) : Prop where
  bytes : head = (status :: fields).flatMap HeadLine.bytes ++ last.bytes
  status : ∃ version code reason, status.text = version ++ 32 :: (code ++ 32 :: reason) ∧
    32 ∉ version ∧ 32 ∉ code
  fields : ∀ f ∈ fields, 58 ∈ f.text
  last : 58 ∉ last.text

/-- The bytes up to the first that does not leave the status. -/
theorem leads_split {status : HeadStatus} (hne : status ≠ .headDone) {bytes : List UInt8}
    (h : leads status bytes = some .headDone) :
    ∃ text c rest, bytes = text ++ c :: rest ∧ (∀ d ∈ text, statusNext status d = some status) ∧
      statusNext status c ≠ some status ∧ leads status (c :: rest) = some .headDone := by
  induction bytes with
  | nil => exact absurd (Option.some.inj h) hne
  | cons c bytes ih =>
      by_cases hc : statusNext status c = some status
      · have hrest : leads status bytes = some .headDone := by
          rwa [leads_cons, hc] at h
        obtain ⟨text, d, rest, rfl, htext, hd, hleads⟩ := ih hrest
        refine ⟨c :: text, d, rest, rfl, ?_, hd, hleads⟩
        rintro e (_ | ⟨_, he⟩)
        · exact hc
        · exact htext e he
      · exact ⟨[], c, bytes, rfl, fun d hd => (by cases hd), hc, h⟩

/-- Bytes that leave the status. -/
theorem leads_stay {status : HeadStatus} {text : List UInt8}
    (h : ∀ c ∈ text, statusNext status c = some status) (rest : List UInt8) :
    leads status (text ++ rest) = leads status rest := by
  induction text with
  | nil => rfl
  | cons c text ih =>
      rw [List.cons_append, leads_cons, h c List.mem_cons_self]
      exact ih fun d hd => h d (List.mem_cons_of_mem _ hd)

/-- A status that one byte ends: what leads from it to the head's end is a text of bytes that leave
it, that byte, and what leads on from the next status. -/
theorem leads_until {status next : HeadStatus} {P : UInt8 → Prop} {e : UInt8}
    (hne : status ≠ .headDone) (hnext : next ≠ status)
    (hstay : ∀ c, P c → statusNext status c = some status) (hexit : statusNext status e = some next)
    (hnone : ∀ c, ¬ P c → c ≠ e → statusNext status c = none) {bytes : List UInt8} :
    leads status bytes = some .headDone ↔
      ∃ text rest, bytes = text ++ e :: rest ∧ (∀ c ∈ text, P c) ∧
        leads next rest = some .headDone := by
  constructor
  · intro h
    obtain ⟨text, c, rest, rfl, htext, hc, hleads⟩ := leads_split hne h
    have hP : ¬ P c := fun hP => hc (hstay c hP)
    obtain rfl : c = e := by
      by_contra hce
      rw [leads_cons, hnone c hP hce] at hleads
      cases hleads
    refine ⟨text, rest, rfl, fun d hd => ?_, ?_⟩
    · -- a byte outside `P` ends the status or the head
      by_contra hd'
      have hleave := htext d hd
      by_cases hdc : d = c
      · rw [hdc, hexit] at hleave
        exact hnext (Option.some.inj hleave)
      · rw [hnone d hd' hdc] at hleave
        cases hleave
    · rwa [leads_cons, hexit] at hleads
  · rintro ⟨text, rest, rfl, htext, hleads⟩
    rw [leads_stay fun c hc => hstay c (htext c hc), leads_cons, hexit]
    exact hleads

/-- Between a line's CR and its LF. -/
theorem leads_junk {status next : HeadStatus} (hnext : next ≠ status)
    (hstatus : ∀ c, statusNext status c =
      if c = 10 then some next else if c = 13 then none else some status)
    (hne : status ≠ .headDone) {bytes : List UInt8} :
    leads status bytes = some .headDone ↔
      ∃ junk rest, bytes = junk ++ 10 :: rest ∧ (∀ c ∈ junk, Inline c) ∧
        leads next rest = some .headDone := by
  refine leads_until hne hnext (fun c hc => ?_) (by rw [hstatus, if_pos rfl]) fun c hc hlf => ?_
  · rw [hstatus, if_neg hc.2, if_neg hc.1]
  · have hcr : c = 13 := by
      by_contra hcr
      exact hc ⟨hcr, hlf⟩
    rw [hstatus, if_neg hlf, if_pos hcr]

/-- Before a line's CR, where spaces and colons mean nothing. -/
theorem leads_text {status next : HeadStatus} (hnext : next ≠ status)
    (hstatus : ∀ c, statusNext status c =
      if c = 13 then some next else if c = 10 then none else some status)
    (hne : status ≠ .headDone) {bytes : List UInt8} :
    leads status bytes = some .headDone ↔
      ∃ text rest, bytes = text ++ 13 :: rest ∧ (∀ c ∈ text, Inline c) ∧
        leads next rest = some .headDone := by
  refine leads_until hne hnext (fun c hc => ?_) (by rw [hstatus, if_pos rfl]) fun c hc hcr => ?_
  · rw [hstatus, if_neg hc.1, if_neg hc.2]
  · have hlf : c = 10 := by
      by_contra hlf
      exact hc ⟨hcr, hlf⟩
    rw [hstatus, if_neg hcr, if_pos hlf]

/-- In one of the first two words of the status line. -/
theorem leads_word {status next : HeadStatus} (hnext : next ≠ status)
    (hstatus : ∀ c, statusNext status c =
      if c = 32 then some next else if c = 13 ∨ c = 10 then none else some status)
    (hne : status ≠ .headDone) {bytes : List UInt8} :
    leads status bytes = some .headDone ↔
      ∃ word rest, bytes = word ++ 32 :: rest ∧ (∀ c ∈ word, c ≠ 32 ∧ Inline c) ∧
        leads next rest = some .headDone := by
  refine leads_until hne hnext (fun c hc => ?_) (by rw [hstatus, if_pos rfl]) fun c hc hspace => ?_
  · rw [hstatus, if_neg hc.1, if_neg (not_or.mpr hc.2)]
  · have hend : c = 13 ∨ c = 10 := by
      by_contra hend
      exact hc ⟨hspace, not_or.mp hend⟩
    rw [hstatus, if_neg hspace, if_pos hend]

theorem lineDone_stay {c : UInt8} : statusNext .lineDone c = some .lineDone ↔ c ≠ 58 ∧ Inline c := by
  unfold statusNext Inline
  simp only
  split_ifs with h58 h13 h10
  · simp [h58]
  · simp [h13]
  · simp [h10]
  · simp [h58, h13, h10]

/-- After a colon the line goes on to its CR, and from there to its LF. -/
theorem leads_value {bytes : List UInt8} :
    leads .keyDone bytes = some .headDone ↔
      ∃ value junk rest, bytes = value ++ 13 :: (junk ++ 10 :: rest) ∧ (∀ c ∈ value, Inline c) ∧
        (∀ c ∈ junk, Inline c) ∧ leads .lineDone rest = some .headDone := by
  rw [leads_text (by decide) (fun _ => rfl) (by decide)]
  constructor
  · rintro ⟨value, rest, rfl, hvalue, hleads⟩
    obtain ⟨junk, rest', rfl, hjunk, hleads'⟩ :=
      (leads_junk (by decide) (fun _ => rfl) (by decide)).mp hleads
    exact ⟨value, junk, rest', rfl, hvalue, hjunk, hleads'⟩
  · rintro ⟨value, junk, rest, rfl, hvalue, hjunk, hleads⟩
    exact ⟨value, _, rfl, hvalue,
      (leads_junk (by decide) (fun _ => rfl) (by decide)).mpr ⟨junk, rest, rfl, hjunk, hleads⟩⟩

/-- After the CR of the last line nothing but its LF ends the head. -/
theorem leads_half {bytes : List UInt8} :
    leads .headHalf bytes = some .headDone ↔
      ∃ junk, bytes = junk ++ [10] ∧ ∀ c ∈ junk, Inline c := by
  rw [leads_junk (by decide) (fun _ => rfl) (by decide)]
  constructor
  · rintro ⟨junk, rest, rfl, hjunk, hleads⟩
    cases rest with
    | nil => exact ⟨junk, rfl, hjunk⟩
    | cons c rest => cases hleads
  · rintro ⟨junk, rfl, hjunk⟩
    exact ⟨junk, [], rfl, hjunk, rfl⟩

/-- What leads from the start of a line to the head's end: a line with a colon and what leads on from
the next one, or the last line. -/
theorem leads_line {bytes : List UInt8} :
    leads .lineDone bytes = some .headDone ↔
      (∃ (l : HeadLine) (rest : List UInt8), bytes = l.bytes ++ rest ∧ 58 ∈ l.text ∧
        leads .lineDone rest = some .headDone) ∨
      ∃ l : HeadLine, bytes = l.bytes ∧ 58 ∉ l.text := by
  constructor
  · intro h
    obtain ⟨text, c, rest, rfl, htext, hc, hleads⟩ := leads_split (by decide) h
    have hstay : ∀ d ∈ text, d ≠ 58 ∧ Inline d := fun d hd => lineDone_stay.mp (htext d hd)
    rw [leads_cons] at hleads
    by_cases h58 : c = 58
    · subst h58
      obtain ⟨value, junk, rest', rfl, hvalue, hjunk, hleads'⟩ := leads_value.mp hleads
      have hline : ∀ d ∈ text ++ 58 :: value, Inline d := by
        intro d hd
        rcases List.mem_append.mp hd with hd | _ | ⟨_, hd⟩
        · exact (hstay d hd).2
        · decide
        · exact hvalue d hd
      refine .inl ⟨⟨text ++ 58 :: value, junk, hline, hjunk⟩, rest', ?_, by simp, hleads'⟩
      simp [HeadLine.bytes]
    · by_cases h13 : c = 13
      · subst h13
        obtain ⟨junk, rfl, hjunk⟩ := leads_half.mp hleads
        exact .inr ⟨⟨text, junk, fun d hd => (hstay d hd).2, hjunk⟩, rfl,
          fun hm => (hstay 58 hm).1 rfl⟩
      · have h10 : c = 10 := by
          by_contra h10
          exact hc (lineDone_stay.mpr ⟨h58, h13, h10⟩)
        subst h10
        cases hleads
  · rintro (⟨l, rest, rfl, hcolon, hleads⟩ | ⟨l, rfl, hcolon⟩)
    · obtain ⟨key, value, htext, hkey⟩ := List.eq_append_cons_of_mem hcolon
      have hinline := l.text_inline
      rw [htext] at hinline
      have hbytes : l.bytes ++ rest = key ++ 58 :: (value ++ 13 :: (l.junk ++ 10 :: rest)) := by
        simp [HeadLine.bytes, htext]
      have hstay : ∀ c ∈ key, statusNext .lineDone c = some .lineDone := fun c hc =>
        lineDone_stay.mpr ⟨fun h => hkey (h ▸ hc), hinline c (List.mem_append_left _ hc)⟩
      have hvalue : ∀ c ∈ value, Inline c := fun c hc =>
        hinline c (List.mem_append_right _ (List.mem_cons_of_mem _ hc))
      rw [hbytes, leads_stay hstay, leads_cons]
      exact leads_value.mpr ⟨value, l.junk, rest, rfl, hvalue, l.junk_inline, hleads⟩
    · have hstay : ∀ c ∈ l.text, statusNext .lineDone c = some .lineDone := fun c hc =>
        lineDone_stay.mpr ⟨fun h => hcolon (h ▸ hc), l.text_inline c hc⟩
      rw [HeadLine.bytes, leads_stay hstay, leads_cons]
      exact leads_half.mpr ⟨l.junk, rfl, l.junk_inline⟩

/-- What leads from the start of a line: lines with a colon, and a last one without. -/
theorem leads_fields {bytes : List UInt8} :
    leads .lineDone bytes = some .headDone ↔
      ∃ (fields : List HeadLine) (last : HeadLine),
        bytes = fields.flatMap HeadLine.bytes ++ last.bytes ∧ (∀ f ∈ fields, 58 ∈ f.text) ∧
          58 ∉ last.text := by
  constructor
  · intro h
    induction hn : bytes.length using Nat.strongRecOn generalizing bytes with
    | ind n ih =>
      rcases leads_line.mp h with ⟨l, rest, rfl, hcolon, hleads⟩ | ⟨l, rfl, hcolon⟩
      · have hshort : rest.length < n := by
          rw [← hn, List.length_append, HeadLine.bytes, List.length_append, List.length_cons]
          omega
        obtain ⟨fields, last, rfl, hfields, hlast⟩ := ih _ hshort hleads rfl
        refine ⟨l :: fields, last, ?_, List.forall_mem_cons.mpr ⟨hcolon, hfields⟩, hlast⟩
        rw [List.flatMap_cons, List.append_assoc]
      · exact ⟨[], l, rfl, fun f hf => (by cases hf), hcolon⟩
  · rintro ⟨fields, last, rfl, hfields, hlast⟩
    induction fields with
    | nil => exact leads_line.mpr (.inr ⟨last, rfl, hlast⟩)
    | cons l fields ih =>
        obtain ⟨hcolon, hfields'⟩ := List.forall_mem_cons.mp hfields
        rw [List.flatMap_cons, List.append_assoc]
        exact leads_line.mpr (.inl ⟨l, _, rfl, hcolon, ih hfields'⟩)

/-- The parser takes for a head what consists of such lines. -/
theorem leads_head {head : List UInt8} :
    leads .vsrStart head = some .headDone ↔
      ∃ status fields last, HeadLines head status fields last := by
  rw [leads_word (by decide) (fun _ => rfl) (by decide)]
  constructor
  · rintro ⟨version, rest, rfl, hversion, hleads⟩
    obtain ⟨code, rest, rfl, hcode, hleads⟩ :=
      (leads_word (by decide) (fun _ => rfl) (by decide)).mp hleads
    obtain ⟨reason, rest, rfl, hreason, hleads⟩ :=
      (leads_text (by decide) (fun _ => rfl) (by decide)).mp hleads
    obtain ⟨junk, rest, rfl, hjunk, hleads⟩ :=
      (leads_junk (by decide) (fun _ => rfl) (by decide)).mp hleads
    obtain ⟨fields, last, rfl, hfields, hlast⟩ := leads_fields.mp hleads
    have hinline : ∀ c ∈ version ++ 32 :: (code ++ 32 :: reason), Inline c := by
      intro c hc
      simp only [List.mem_append, List.mem_cons] at hc
      rcases hc with hc | rfl | hc | rfl | hc
      · exact (hversion c hc).2
      · decide
      · exact (hcode c hc).2
      · decide
      · exact hreason c hc
    refine ⟨⟨_, junk, hinline, hjunk⟩, fields, last, ?_, ⟨version, code, reason, rfl, ?_, ?_⟩, hfields,
      hlast⟩
    · simp [HeadLine.bytes]
    · exact fun hm => (hversion 32 hm).1 rfl
    · exact fun hm => (hcode 32 hm).1 rfl
  · rintro ⟨status, fields, last, h⟩
    obtain ⟨version, code, reason, htext, hversion, hcode⟩ := h.status
    have hinline := status.text_inline
    rw [htext] at hinline
    have hbytes : head = version ++ 32 :: (code ++ 32 :: (reason ++ 13 :: (status.junk ++
        10 :: (fields.flatMap HeadLine.bytes ++ last.bytes)))) := by
      rw [h.bytes, List.flatMap_cons, HeadLine.bytes, htext]
      simp
    refine ⟨version, _, hbytes, fun c hc => ⟨fun h => hversion (h ▸ hc), hinline c ?_⟩, ?_⟩
    · exact List.mem_append_left _ hc
    refine (leads_word (by decide) (fun _ => rfl) (by decide)).mpr
      ⟨code, _, rfl, fun c hc => ⟨fun h => hcode (h ▸ hc), hinline c (by simp [hc])⟩, ?_⟩
    refine (leads_text (by decide) (fun _ => rfl) (by decide)).mpr
      ⟨reason, _, rfl, fun c hc => hinline c (by simp [hc]), ?_⟩
    exact (leads_junk (by decide) (fun _ => rfl) (by decide)).mpr
      ⟨status.junk, _, rfl, status.junk_inline, leads_fields.mpr ⟨fields, last, rfl, h.fields, h.last⟩⟩

/-! ## The empty line -/

/-- Bytes that end with CR LF CR LF, and contain it at their end only. -/
def EndsEmpty (bytes : List UInt8) : Prop :=
  crlf ++ crlf <:+ bytes ∧ ¬ crlf ++ crlf <:+: bytes.dropLast

/-- What stands before a byte that ends a list and is not in its last part. -/
theorem eq_nil_of_append_singleton {xs ys zs : List UInt8} {c : UInt8} (h : xs ++ ys = zs ++ [c])
    (hc : c ∉ ys) : ys = [] := by
  rcases List.eq_nil_or_concat ys with hnil | ⟨ys', d, rfl⟩
  · exact hnil
  · rw [List.concat_eq_append, ← List.append_assoc] at h
    have hd := List.append_inj_right' h rfl
    cases hd
    exact absurd (by simp) hc

/-- A line whose bytes end with CR LF has nothing between the two. -/
theorem HeadLine.junk_eq_nil (l : HeadLine) {before zs : List UInt8}
    (h : before ++ l.bytes = zs ++ crlf) : l.junk = [] ∧ before ++ l.text = zs := by
  have hsplit : (before ++ l.text ++ 13 :: l.junk) ++ [10] = (zs ++ [13]) ++ [10] := by
    simpa [HeadLine.bytes, crlf] using h
  have hcut := List.append_inj_left' hsplit rfl
  have hjunk : l.junk = [] := by
    have hcut' : (before ++ l.text ++ [13]) ++ l.junk = zs ++ [13] := by simpa using hcut
    exact eq_nil_of_append_singleton hcut' fun hm => (l.junk_inline 13 hm).1 rfl
  refine ⟨hjunk, ?_⟩
  rw [hjunk] at hcut
  exact List.append_inj_left' hcut rfl

/-- No LF with a CR right after it. -/
def NoLfCr (bytes : List UInt8) : Prop := bytes.IsChain fun a b => ¬ (a = 10 ∧ b = 13)

/-- An LF may end a stretch without one where no CR follows. -/
theorem noLfCr_append_lf {xs ys : List UInt8} (hxs : 10 ∉ xs) (hys : NoLfCr ys)
    (hhead : ys.head? ≠ some 13) : NoLfCr (xs ++ 10 :: ys) := by
  induction xs with
  | nil =>
      refine List.isChain_cons.mpr ⟨fun c hc h => hhead ?_, hys⟩
      rw [Option.mem_def.mp hc, h.2]
  | cons d xs ih =>
      have hd : 10 ≠ d := List.ne_of_not_mem_cons hxs
      have hrest := ih (List.not_mem_of_not_mem_cons hxs)
      exact List.isChain_cons.mpr ⟨fun c _ h => hd h.1.symm, hrest⟩

/-- Lines with a text begin with no CR. -/
theorem lines_head {lines : List HeadLine} (h : ∀ l ∈ lines, l.text ≠ []) :
    (lines.flatMap HeadLine.bytes).head? ≠ some 13 := by
  cases lines with
  | nil => exact nofun
  | cons l lines =>
      obtain ⟨c, text, htext⟩ := List.exists_cons_of_ne_nil (h l List.mem_cons_self)
      have hc : c ≠ 13 := (l.text_inline c (htext ▸ List.mem_cons_self)).1
      rw [List.flatMap_cons, HeadLine.bytes, htext]
      exact fun h => hc (Option.some.inj h)

theorem lines_noLfCr {lines : List HeadLine} (h : ∀ l ∈ lines, l.text ≠ []) :
    NoLfCr (lines.flatMap HeadLine.bytes) := by
  induction lines with
  | nil => exact List.isChain_nil
  | cons l lines ih =>
      have hrest : ∀ l' ∈ lines, l'.text ≠ [] := fun l' hm => h l' (List.mem_cons_of_mem _ hm)
      have hline : 10 ∉ l.text ++ 13 :: l.junk := by
        have htext : 10 ∉ l.text := fun hm => (l.text_inline 10 hm).2 rfl
        have hjunk : 10 ∉ l.junk := fun hm => (l.junk_inline 10 hm).2 rfl
        simp [htext, hjunk]
      have hsplit : l.bytes ++ lines.flatMap HeadLine.bytes =
          (l.text ++ 13 :: l.junk) ++ 10 :: lines.flatMap HeadLine.bytes := by
        simp [HeadLine.bytes]
      rw [List.flatMap_cons, hsplit]
      exact noLfCr_append_lf hline (ih hrest) (lines_head hrest)

/-- Lines with a text contain no empty line, nor does one begin at their end. -/
theorem lines_no_emptyLine {lines : List HeadLine} (h : ∀ l ∈ lines, l.text ≠ []) :
    ¬ crlf ++ crlf <:+: lines.flatMap HeadLine.bytes ++ [13] := by
  rintro ⟨before, after, hinside⟩
  rcases List.eq_nil_or_concat after with rfl | ⟨after', c, rfl⟩
  · have hsplit : (before ++ [13, 10, 13]) ++ [10] = lines.flatMap HeadLine.bytes ++ [13] := by
      simpa [crlf] using hinside
    cases List.append_inj_right' hsplit rfl
  · rw [List.concat_eq_append, ← List.append_assoc] at hinside
    have hlines := lines_noLfCr h
    rw [← List.append_inj_left' hinside rfl] at hlines
    have hchain : NoLfCr (crlf ++ crlf) := hlines.left_of_append.right_of_append
    simp [NoLfCr, crlf] at hchain

/-- Where the last line is empty and the one before it ends with CR LF, and only there, the lines end
with an empty line and contain none before. -/
theorem endsEmpty_lines_iff {lines : List HeadLine} {last : HeadLine} (hne : lines ≠ [])
    (htext : ∀ l ∈ lines, l.text ≠ []) :
    EndsEmpty (lines.flatMap HeadLine.bytes ++ last.bytes) ↔
      last.text = [] ∧ last.junk = [] ∧ (lines.getLast hne).junk = [] := by
  have hlines : lines.flatMap HeadLine.bytes =
      lines.dropLast.flatMap HeadLine.bytes ++ (lines.getLast hne).bytes := by
    conv_lhs => rw [← List.dropLast_append_getLast hne]
    rw [List.flatMap_append, List.flatMap_singleton]
  constructor
  · rintro ⟨⟨zs, hsuffix⟩, -⟩
    rw [← List.append_assoc] at hsuffix
    obtain ⟨hjunk, hbefore⟩ := last.junk_eq_nil hsuffix.symm
    have hempty : last.text = [] := by
      have hlf : lines.flatMap HeadLine.bytes ++ last.text = (zs ++ [13]) ++ [10] := by
        simpa [crlf] using hbefore
      exact eq_nil_of_append_singleton hlf fun hm => (last.text_inline 10 hm).2 rfl
    rw [hempty, List.append_nil, hlines] at hbefore
    exact ⟨hempty, hjunk, ((lines.getLast hne).junk_eq_nil hbefore).1⟩
  · rintro ⟨hempty, hjunk, hprev⟩
    have hlast : last.bytes = crlf := by
      rw [HeadLine.bytes, hempty, hjunk]
      rfl
    constructor
    · refine ⟨lines.dropLast.flatMap HeadLine.bytes ++ (lines.getLast hne).text, ?_⟩
      rw [hlines, hlast, HeadLine.bytes, hprev]
      simp [crlf]
    · have hdrop : (lines.flatMap HeadLine.bytes ++ last.bytes).dropLast =
          lines.flatMap HeadLine.bytes ++ [13] := by
        have hsplit : lines.flatMap HeadLine.bytes ++ last.bytes =
            (lines.flatMap HeadLine.bytes ++ [13]) ++ [10] := by
          rw [hlast]
          simp [crlf]
        rw [hsplit, List.dropLast_concat]
      rw [hdrop]
      exact lines_no_emptyLine htext

/-! ## Which heads end with an empty line -/

/-- Where the loop ends with a head, the bytes read end with an empty line and contain none before. -/
def HeadEndsEmpty (bytes : List UInt8) : Prop :=
  ∀ s, scan headByte .init bytes = .stop (.parsed s) → EndsEmpty (bytes.take s.pos)

/-- The first line without a colon after the status line is empty, and the line before it ends with
CR LF. -/
def LastLineEmpty (bytes : List UInt8) : Prop :=
  ∀ head rest status fields last, bytes = head ++ rest → HeadLines head status fields last →
    last.text = [] ∧ last.junk = [] ∧
      ((status :: fields).getLast (List.cons_ne_nil status fields)).junk = []

theorem HeadLines.endsEmpty_iff {head : List UInt8} {status : HeadLine} {fields : List HeadLine}
    {last : HeadLine} (h : HeadLines head status fields last) :
    EndsEmpty head ↔ last.text = [] ∧ last.junk = [] ∧
      ((status :: fields).getLast (List.cons_ne_nil status fields)).junk = [] := by
  have htext : ∀ l ∈ status :: fields, l.text ≠ [] := by
    obtain ⟨version, code, reason, hstatus, -, -⟩ := h.status
    refine List.forall_mem_cons.mpr ⟨by simp [hstatus], fun f hf => ?_⟩
    exact List.ne_nil_of_mem (h.fields f hf)
  rw [h.bytes]
  exact endsEmpty_lines_iff _ htext

theorem init_queueOk : QueueOk .init := fun h => by cases h

/-- Of the heads that the parser accepts, those end with an empty line whose first line without a
colon is empty, the line before it ending with CR LF. -/
theorem headEndsEmpty_iff (bytes : List UInt8) : HeadEndsEmpty bytes ↔ LastLineEmpty bytes := by
  have hstart : HeadState.init.hc.status ≠ .headDone := by decide
  constructor
  · rintro hends head rest status fields last rfl hlines
    have hleads : leads HeadState.init.hc.status head = some .headDone :=
      leads_head.mpr ⟨status, fields, last, hlines⟩
    obtain ⟨s, hscan, hpos⟩ := parsed_of_leads hstart init_queueOk hleads rest
    have hempty := hends s hscan
    have hlen : s.pos = head.length := hpos.trans (Nat.zero_add _)
    rw [hlen, List.take_left] at hempty
    exact hlines.endsEmpty_iff.mp hempty
  · intro hlast s hscan
    obtain ⟨head, rest, rfl, hleads, hpos⟩ := leads_of_parsed hstart init_queueOk hscan
    obtain ⟨status, fields, last, hlines⟩ := leads_head.mp hleads
    have hlen : s.pos = head.length := hpos.trans (Nat.zero_add _)
    rw [hlen, List.take_left]
    exact hlines.endsEmpty_iff.mpr (hlast head rest status fields last rfl hlines)

/-- A line without a colon is taken for the end of the head. -/
theorem noColon_not_headEndsEmpty :
    ¬ HeadEndsEmpty (lit "HTTP/1.1 200 OK\r\nabc\r\na: b\r\n\r\n") := by
  intro hends
  have hleads : leads HeadState.init.hc.status (lit "HTTP/1.1 200 OK\r\nabc\r\n") =
      some .headDone := by decide
  obtain ⟨s, hscan, hpos⟩ := parsed_of_leads (by decide) init_queueOk hleads (lit "a: b\r\n\r\n")
  have hsuffix := (hends s hscan).1
  have hlen : s.pos = 22 := hpos
  rw [hlen] at hsuffix
  revert hsuffix
  decide

end Crawler.Http
