/-
# Crawler.Http.HeadResume — the head parser does not see how the head is cut

Calling `http_parse_head` after each of a list of received fragments gives what one call on all the
bytes gives: the same return value, status, position and head record.

Two facts carry the parser over a cut. `kv`, when it is not NULL, is the last record of the queue and
the parser is inside that record's value, so forgetting it changes nothing (`KvOk`). And every slice
recorded so far lies before `pos`, so what is read when the head is complete does not depend on what
follows it in the buffer (`SlicesOk`).
-/
import Crawler.Http.Head
import Crawler.Lib.Feed
import Mathlib.Data.List.Basic

namespace Crawler.Http

open Crawler.Lib

/-! ## What is forgotten between two calls -/

/-- The loop's state without the local `kv`. -/
def HeadState.forget (s : HeadState) : HeadState := { s with kv := none }

/-- `kv` is NULL, or it is the last record and the parser is inside its value. -/
def KvOk (s : HeadState) : Prop :=
  ∀ i, s.kv = some i → s.hc.status = .keyDone ∧ s.hc.kvQueue ≠ [] ∧ i = s.hc.kvQueue.length - 1

/-- Two states that differ in a good `kv` only. -/
def SameBut (s t : HeadState) : Prop := s.forget = t.forget ∧ KvOk s ∧ KvOk t

/-- Two ends of the loop that differ in `kv` only. -/
inductive StopSame : HeadStop → HeadStop → Prop
  | error {s t : HeadState} : s.forget = t.forget → StopSame (.error s) (.error t)
  | parsed {s t : HeadState} : s.forget = t.forget → StopSame (.parsed s) (.parsed t)

theorem SameBut.forget {s : HeadState} (h : KvOk s) : SameBut s s.forget :=
  ⟨rfl, h, fun _ hi => by cases hi⟩

/-- States that agree up to `kv`, spelled out. -/
theorem exists_kv {s t : HeadState} (heq : s.forget = t.forget) : ∃ kv, t = { s with kv := kv } := by
  obtain ⟨hc, vsr, kv, pos⟩ := s
  obtain ⟨hc', vsr', kv', pos'⟩ := t
  simp only [HeadState.forget, HeadState.mk.injEq] at heq
  obtain ⟨rfl, rfl, -, rfl⟩ := heq
  exact ⟨kv', rfl⟩

/-- Outside a value `kv` is NULL, so it is good whatever the rest becomes. -/
theorem KvOk.of_ne {s s' : HeadState} (h : KvOk s) (hne : s.hc.status ≠ .keyDone)
    (hkv : s'.kv = s.kv) : KvOk s' :=
  fun i hi => absurd (h i (hkv ▸ hi)).1 hne

theorem KvOk.congr {s s' : HeadState} (h : KvOk s) (hkv : s'.kv = s.kv)
    (hstatus : s'.hc.status = s.hc.status) (hq : s'.hc.kvQueue = s.hc.kvQueue) : KvOk s' := by
  intro i hi
  rw [hstatus, hq]
  exact h i (hkv ▸ hi)

/-- Both ways of finding the record at the end of a value find the last one. -/
theorem KvOk.getD_eq {s : HeadState} (h : KvOk s) :
    s.kv.getD (s.hc.kvQueue.length - 1) = s.hc.kvQueue.length - 1 := by
  cases hkv : s.kv with
  | none => rfl
  | some i => exact (h i hkv).2.2

section

variable {s : HeadState} {kv : Option Nat} (hs : KvOk s) (ht : KvOk { s with kv := kv })

include hs ht

theorem headSpace_sameBut :
    Scan.Rel SameBut StopSame (headSpace s) (headSpace { s with kv := kv }) := by
  unfold headSpace
  simp only
  split
  case h_1 hst =>
    exact .more ⟨rfl, hs.of_ne (by simp [hst]) rfl, ht.of_ne (by simp [hst]) rfl⟩
  case h_2 hst =>
    exact .more ⟨rfl, hs.of_ne (by simp [hst]) rfl, ht.of_ne (by simp [hst]) rfl⟩
  case h_3 => exact .more ⟨rfl, hs.congr rfl rfl rfl, ht.congr rfl rfl rfl⟩
  case h_4 => exact .more ⟨rfl, hs, ht⟩

theorem headColon_sameBut :
    Scan.Rel SameBut StopSame (headColon s) (headColon { s with kv := kv }) := by
  unfold headColon
  simp only
  split
  case isTrue =>
    refine .more ⟨rfl, ?_, ?_⟩ <;>
    · rintro i ⟨⟩
      exact ⟨rfl, by simp, by simp⟩
  case isFalse => exact .more ⟨rfl, hs, ht⟩

theorem headCr_sameBut :
    Scan.Rel SameBut StopSame (headCr s) (headCr { s with kv := kv }) := by
  unfold headCr
  simp only
  split
  case h_1 hst =>
    by_cases hq : s.hc.kvQueue = []
    · have hnone : s.kv = none := by
        cases hkv : s.kv with
        | none => rfl
        | some i => exact absurd hq (hs i hkv).2.1
      have hnone' : kv = none := by
        cases hkv : kv with
        | none => rfl
        | some i => exact absurd hq (ht i hkv).2.1
      rw [if_pos ⟨hnone, hq⟩, if_pos ⟨hnone', hq⟩]
      exact .stop (.error rfl)
    · rw [if_neg fun hand => hq hand.2, if_neg fun hand => hq hand.2]
      have hlast' := ht.getD_eq
      simp only at hlast'
      rw [hs.getD_eq, hlast']
      refine .more ⟨rfl, ?_, ?_⟩ <;> exact fun i hi => by cases hi
  case h_2 hst =>
    exact .more ⟨rfl, hs.of_ne (by simp [hst]) rfl, ht.of_ne (by simp [hst]) rfl⟩
  case h_3 hst =>
    exact .more ⟨rfl, hs.of_ne (by simp [hst]) rfl, ht.of_ne (by simp [hst]) rfl⟩
  case h_4 => exact .stop (.error rfl)

theorem headLf_sameBut :
    Scan.Rel SameBut StopSame (headLf s) (headLf { s with kv := kv }) := by
  unfold headLf
  simp only
  split
  case h_1 hst =>
    exact .more ⟨rfl, hs.of_ne (by simp [hst]) rfl, ht.of_ne (by simp [hst]) rfl⟩
  case h_2 => exact .stop (.parsed rfl)
  case h_3 hst =>
    exact .more ⟨rfl, hs.of_ne (by simp [hst]) rfl, ht.of_ne (by simp [hst]) rfl⟩
  case h_4 => exact .stop (.error rfl)

end

/-- One turn of the loop does not depend on `kv`. -/
theorem headByte_sameBut (s t : HeadState) (c : UInt8) (h : SameBut s t) :
    Scan.Rel SameBut StopSame (headByte s c) (headByte t c) := by
  obtain ⟨kv, rfl⟩ := exists_kv h.1
  obtain ⟨-, hs, ht⟩ := h
  have hs' : KvOk { s with pos := s.pos + 1 } := hs.congr rfl rfl rfl
  have ht' : KvOk { s with pos := s.pos + 1, kv := kv } := ht.congr rfl rfl rfl
  unfold headByte
  simp only
  split_ifs
  · exact headSpace_sameBut hs' ht'
  · exact headColon_sameBut hs' ht'
  · exact headCr_sameBut hs' ht'
  · exact headLf_sameBut hs' ht'
  · exact .more ⟨rfl, hs', ht'⟩

/-! ## The slices recorded -/

/-- The `len` bytes from `off` lie before `pos`. -/
def Before (pos : Nat) (off len : UInt32) : Prop := off.toNat + len.toNat ≤ pos

theorem Before.mono {pos pos' : Nat} {off len : UInt32} (h : Before pos off len) (hle : pos ≤ pos') :
    Before pos' off len :=
  Nat.le_trans h hle

/-- Every slice recorded lies before `pos`. -/
structure SlicesOk (pos : Nat) (hc : HeadCache) (vsr : HttpVsr) : Prop where
  version : Before pos vsr.version vsr.versionLen
  status : Before pos vsr.status vsr.statusLen
  reason : Before pos vsr.reason vsr.reasonLen
  fields : ∀ kv ∈ hc.kvQueue, Before pos kv.key kv.keyLen ∧ Before pos kv.value kv.valueLen

theorem SlicesOk.mono {pos pos' : Nat} {hc : HeadCache} {vsr : HttpVsr} (h : SlicesOk pos hc vsr)
    (hle : pos ≤ pos') : SlicesOk pos' hc vsr where
  version := h.version.mono hle
  status := h.status.mono hle
  reason := h.reason.mono hle
  fields := fun kv hm => ⟨(h.fields kv hm).1.mono hle, (h.fields kv hm).2.mono hle⟩

/-- The loop's state after `k` bytes of the buffer; `start` may lie up to `bound`. -/
structure HeadOk (k bound : Nat) (s : HeadState) : Prop where
  pos : s.pos = k
  start : s.hc.start.toNat ≤ bound
  apart : s.hc.vsr = none
  slices : SlicesOk k s.hc s.vsr

/-- What the loop stops with when it has read `k` bytes. -/
def StopOk (k : Nat) : HeadStop → Prop
  | .error _ => True
  | .parsed s => s.pos = k ∧ s.hc.vsr = none ∧ SlicesOk k s.hc s.vsr

/-- What a turn of the loop leaves or stops with when it has read `k` bytes. -/
def TurnOk (k : Nat) : Scan HeadState HeadStop → Prop
  | .more s => HeadOk k k s
  | .stop r => StopOk k r

/-- A record changed in the queue is still a good one. -/
theorem forall_mem_modify {α : Type} {P : α → Prop} {f : α → α} {as : List α} (h : ∀ a ∈ as, P a)
    (hf : ∀ a ∈ as, P (f a)) (i : Nat) : ∀ a ∈ as.modify i f, P a := by
  intro a ha
  obtain ⟨j, hj, rfl⟩ := List.mem_iff_getElem.mp ha
  rw [List.getElem_modify]
  rw [List.length_modify] at hj
  split
  · exact hf _ (List.getElem_mem hj)
  · exact h _ (List.getElem_mem hj)

section

-- the state right after a read: `start` lies before the byte just read
variable {k : Nat} {s : HeadState} (h : HeadOk (k + 1) k s)

include h

/-- The slice that ends before the byte just read. Where the offset of its end does not fit in 32 bits
the slice is a shorter one. -/
theorem HeadOk.before_len : Before (k + 1) s.hc.start s.len := by
  have hstart := h.start
  have hlen : s.len.toNat = (2 ^ 32 - s.hc.start.toNat + k % 2 ^ 32) % 2 ^ 32 := by
    rw [HeadState.len, h.pos, Nat.add_sub_cancel, UInt32.toNat_sub, UInt32.toNat_ofNat']
  have hlt := s.hc.start.toNat_lt
  have hmod := Nat.mod_le k (2 ^ 32)
  rw [Before, hlen]
  by_cases hle : s.hc.start.toNat ≤ k % 2 ^ 32
  · omega
  · omega

theorem HeadOk.here_le : s.here.toNat ≤ k + 1 := by
  rw [HeadState.here, h.pos, UInt32.toNat_ofNat']
  exact Nat.mod_le _ _

theorem headSpace_ok : TurnOk (k + 1) (headSpace s) := by
  unfold headSpace
  split
  case h_1 =>
    exact ⟨h.pos, h.here_le, h.apart, { h.slices with version := h.before_len }⟩
  case h_2 =>
    exact ⟨h.pos, h.here_le, h.apart, { h.slices with status := h.before_len }⟩
  case h_3 => exact ⟨h.pos, h.here_le, h.apart, { h.slices with }⟩
  case h_4 => exact ⟨h.pos, Nat.le_succ_of_le h.start, h.apart, h.slices⟩

theorem headColon_ok : TurnOk (k + 1) (headColon s) := by
  unfold headColon
  split
  case isTrue =>
    refine ⟨h.pos, h.here_le, h.apart, { h.slices with fields := ?_ }⟩
    intro kv hm
    rcases List.mem_append.mp hm with hm | hm
    · exact h.slices.fields kv hm
    · rw [List.mem_singleton.mp hm]
      exact ⟨h.before_len, Nat.zero_le _⟩
  case isFalse => exact ⟨h.pos, Nat.le_succ_of_le h.start, h.apart, h.slices⟩

theorem headCr_ok : TurnOk (k + 1) (headCr s) := by
  unfold headCr
  split
  case h_1 =>
    split_ifs
    · trivial
    · refine ⟨h.pos, Nat.le_succ_of_le h.start, h.apart, { h.slices with fields := ?_ }⟩
      refine forall_mem_modify h.slices.fields ?_ _
      exact fun kv hm => ⟨(h.slices.fields kv hm).1, h.before_len⟩
  case h_2 => exact ⟨h.pos, Nat.le_succ_of_le h.start, h.apart, { h.slices with }⟩
  case h_3 =>
    exact ⟨h.pos, h.here_le, h.apart, { h.slices with reason := h.before_len }⟩
  case h_4 => trivial

theorem headLf_ok : TurnOk (k + 1) (headLf s) := by
  unfold headLf
  split
  case h_1 => exact ⟨h.pos, h.here_le, h.apart, { h.slices with }⟩
  case h_2 => exact ⟨h.pos, h.apart, { h.slices with }⟩
  case h_3 => exact ⟨h.pos, h.here_le, h.apart, { h.slices with }⟩
  case h_4 => trivial

end

/-- One turn of the loop keeps the slices in what has been read. -/
theorem headByte_ok {k : Nat} {s : HeadState} (h : HeadOk k k s) (c : UInt8) :
    TurnOk (k + 1) (headByte s c) := by
  have hread : HeadOk (k + 1) k { s with pos := s.pos + 1 } :=
    ⟨congrArg (· + 1) h.pos, h.start, h.apart, h.slices.mono (Nat.le_succ k)⟩
  unfold headByte
  simp only
  split_ifs
  · exact headSpace_ok hread
  · exact headColon_ok hread
  · exact headCr_ok hread
  · exact headLf_ok hread
  · exact { hread with start := Nat.le_succ_of_le h.start }

/-- The loop's state at the first call. -/
def HeadState.init : HeadState := { hc := {}, vsr := {}, kv := none, pos := 0 }

theorem init_ok : HeadOk 0 0 HeadState.init where
  pos := rfl
  start := Nat.le_refl 0
  apart := rfl
  slices := ⟨Nat.le_refl 0, Nat.le_refl 0, Nat.le_refl 0, fun _ hm => by cases hm⟩

/-- What the whole loop leaves or stops with. -/
theorem scan_ok (bytes : List UInt8) :
    (∀ t, scan headByte .init bytes = .more t → HeadOk bytes.length bytes.length t) ∧
      ∀ t, scan headByte .init bytes = .stop (.parsed t) →
        t.pos ≤ bytes.length ∧ t.hc.vsr = none ∧ SlicesOk t.pos t.hc t.vsr := by
  have hmore : ∀ k s c t, k < bytes.length → HeadOk k k s → headByte s c = .more t →
      HeadOk (k + 1) (k + 1) t := by
    intro k s c t _ h hst
    have hnext := headByte_ok h c
    rw [hst] at hnext
    exact hnext
  have hstop : ∀ k s c r, k < bytes.length → HeadOk k k s → headByte s c = .stop r →
      StopOk (k + 1) r := by
    intro k s c r _ h hst
    have hnext := headByte_ok h c
    rw [hst] at hnext
    exact hnext
  have hscan := scan_invariant hmore hstop init_ok (Nat.le_of_eq (Nat.zero_add bytes.length))
  rw [Nat.zero_add] at hscan
  refine ⟨hscan.1, fun t ht => ?_⟩
  obtain ⟨j, hj, rfl, hvsr, hsl⟩ := hscan.2 _ ht
  exact ⟨hj, hvsr, hsl⟩

/-! ## What follows the head in the buffer -/

theorem headFields_congr {b b' : HttpBuf} {kvs : List KeyValue}
    (h : ∀ kv ∈ kvs, ∀ hc, headField b' hc kv = headField b hc kv) (hc : HeadCache) :
    kvs.foldlM (headField b') hc = kvs.foldlM (headField b) hc := by
  induction kvs generalizing hc with
  | nil => rfl
  | cons kv kvs ih =>
      rw [List.foldlM_cons, List.foldlM_cons, h kv List.mem_cons_self hc]
      congr 1
      funext hc'
      exact ih (fun kv hm => h kv (List.mem_cons_of_mem _ hm)) hc'

section

-- the buffer `b'` holds the bytes of `b` and more
variable {b b' : HttpBuf} {pos : Nat} (hb : b.bytes <+: b'.bytes) (hpos : pos ≤ b.bytes.length)

include hb hpos

theorem copied_eq {off len : UInt32} (h : Before pos off len) : copied b' off len = copied b off len := by
  have hend : off.toNat + len.toNat ≤ b.bytes.length := Nat.le_trans h hpos
  rw [copied, copied, HttpBuf.slice_of_prefix hb hend]

theorem headField_eq (hc : HeadCache) {kv : KeyValue}
    (h : Before pos kv.key kv.keyLen ∧ Before pos kv.value kv.valueLen) :
    headField b' hc kv = headField b hc kv := by
  rw [headField, headField, copied_eq hb hpos h.1, copied_eq hb hpos h.2]

/-- What the label `parsed` reads lies before `pos`. -/
theorem headParsed_eq {hc : HeadCache} {vsr : HttpVsr} (h : SlicesOk pos hc vsr) :
    headParsed b' hc vsr = headParsed b hc vsr := by
  rw [headParsed, headParsed, copied_eq hb hpos h.status,
    headFields_congr (fun kv hm hc => headField_eq hb hpos hc (h.fields kv hm)) hc]

end

/-! ## Fragments -/

/-- What a caller sees after a call: its return value, how far the client has come, the position in
`recv`, and the head's whole record. -/
structure HeadView where
  ret : Int
  status : ClientStatus
  pos : Option Nat
  head : Option HeadCache
  deriving DecidableEq, Repr

/-- The view of a call's result. -/
def headView (r : Int × HttpClient) : HeadView where
  ret := r.1
  status := r.2.status
  pos := r.2.recv.map HttpBuf.pos
  head := r.2.head

/-- What is seen after the loop, when `bytes` have been received. -/
def headSeen (bytes : List UInt8) : Scan HeadState HeadStop → Option HeadView
  | .more s =>
      some { ret := 0, status := .reqDone, pos := some s.pos, head := some { s.hc with vsr := some s.vsr } }
  | .stop (.error s) =>
      some { ret := -1, status := .reqDone, pos := some s.pos, head := some { s.hc with vsr := some s.vsr } }
  | .stop (.parsed s) =>
      (headParsed { bytes := bytes } { s.hc with vsr := some s.vsr } s.vsr).map fun r =>
        { ret := r.1, status := .headDone, pos := some s.pos, head := some r.2 }

/-- A final result: `-1`, or the head is done. -/
def headFinal (r : Int × HttpClient) : Bool := r.1 = -1 || r.2.status = .headDone

/-- One call after a fragment has been received. -/
def headCall (client : HttpClient) (frag : Fragment) : Option (Int × HttpClient) :=
  httpParseHead (client.recvd frag)

/-- Only the bytes of the buffer are read. -/
theorem headParsed_bytes (b : HttpBuf) : headParsed { bytes := b.bytes } = headParsed b := rfl

theorem headEnd_seen {client : HttpClient} (hstatus : client.status = .reqDone) (b : HttpBuf)
    (x : Scan HeadState HeadStop) : (headEnd client b x).map headView = headSeen b.bytes x := by
  rcases x with s | s | s
  · rw [headEnd, headSeen, ← hstatus]
    rfl
  · rw [headEnd, headSeen, ← hstatus]
    rfl
  · rw [headEnd, headSeen, headParsed_bytes]
    cases headParsed b { s.hc with vsr := some s.vsr } s.vsr with
    | none => rfl
    | some r => rfl

/-- What is seen does not depend on `kv`. -/
theorem headSeen_same {x y : Scan HeadState HeadStop} (h : Scan.Rel SameBut StopSame x y)
    (bytes : List UInt8) : headSeen bytes x = headSeen bytes y := by
  cases h with
  | more h =>
      obtain ⟨kv, rfl⟩ := exists_kv h.1
      rfl
  | stop h =>
      cases h with
      | error h =>
          obtain ⟨kv, rfl⟩ := exists_kv h
          rfl
      | parsed h =>
          obtain ⟨kv, rfl⟩ := exists_kv h
          rfl

/-- Between two calls: all that was received has been read by a loop that goes on in state `s`. -/
structure HeadMidway (client : HttpClient) (bytes : List UInt8) : Prop where
  status : client.status = .reqDone
  state : ∃ b s, client.recv = some b ∧ b.bytes = bytes ∧ b.pos = bytes.length ∧
    scan headByte .init bytes = .more s ∧ client.headState b = s.forget

theorem init_sameBut : SameBut .init .init :=
  ⟨rfl, fun _ hi => (by cases hi), fun _ hi => (by cases hi)⟩

/-- The loop leaves a good `kv`. -/
theorem scan_kvOk {bytes : List UInt8} {s : HeadState} (h : scan headByte .init bytes = .more s) :
    KvOk s := by
  have hrel := scan_rel headByte_sameBut init_sameBut bytes
  rw [h] at hrel
  cases hrel with
  | more hs => exact hs.2.1

/-- A call's loop and the loop over everything received so far end alike. -/
theorem HeadMidway.headCall_eq {client : HttpClient} {bytes : List UInt8}
    (h : HeadMidway client bytes) (frag : Fragment) :
    ∃ b x, b.bytes = bytes ++ frag.bytes ∧ headCall client frag = headEnd (client.recvd frag) b x ∧
      Scan.Rel SameBut StopSame (scan headByte .init (bytes ++ frag.bytes)) x := by
  obtain ⟨b, s, hrecv, rfl, hpos, hscan, hstate⟩ := h.state
  refine ⟨b.recvd frag, scan headByte s.forget frag.bytes, b.recvd_bytes frag, ?_, ?_⟩
  · have hrecvd : (client.recvd frag).recv = some (b.recvd frag) := by
      rw [HttpClient.recvd, hrecv]
      rfl
    have hcall : (client.recvd frag).headState (b.recvd frag) = s.forget := by
      rw [← hstate, HttpClient.headState, HttpClient.headState, HttpBuf.recvd_pos]
      rfl
    rw [headCall, httpParseHead, hrecvd, Option.bind_eq_bind, Option.bind_some, hcall,
      HttpBuf.recvd_bytes, HttpBuf.recvd_pos, hpos, List.drop_left]
  · rw [scan_append, hscan, Scan.more_bind]
    exact scan_rel headByte_sameBut (.forget (scan_kvOk hscan)) frag.bytes

/-- A call's result is final exactly when its loop has stopped. -/
theorem headEnd_final {client : HttpClient} (hstatus : client.status = .reqDone) {b : HttpBuf}
    {x : Scan HeadState HeadStop} {r : Int × HttpClient} (h : headEnd client b x = some r) :
    headFinal r = false ↔ ∃ s, x = .more s := by
  rcases x with s | s | s
  · obtain rfl : (0, client.leaveHead b s) = r := Option.some.inj h
    refine iff_of_true ?_ ⟨s, rfl⟩
    rw [headFinal, HttpClient.leaveHead, hstatus]
    rfl
  · obtain rfl : (-1, client.leaveHead b s) = r := Option.some.inj h
    exact iff_of_false (by simp [headFinal]) fun ⟨_, hs⟩ => by cases hs
  · refine iff_of_false ?_ fun ⟨_, hs⟩ => by cases hs
    rw [headEnd] at h
    obtain ⟨r', -, hr'⟩ := Option.bind_eq_some_iff.mp h
    obtain rfl := Option.some.inj hr'
    simp [headFinal]

/-- What is seen of a stopped loop does not depend on what follows. -/
theorem headSeen_append {bytes : List UInt8} {r : HeadStop}
    (h : scan headByte .init bytes = .stop r) (more : List UInt8) :
    headSeen (bytes ++ more) (.stop r) = headSeen bytes (.stop r) := by
  rcases r with s | s
  · rfl
  · obtain ⟨hle, -, hslices⟩ := (scan_ok bytes).2 s h
    have hcongr : SlicesOk s.pos { s.hc with vsr := some s.vsr } s.vsr := { hslices with }
    have hparsed : headParsed { bytes := bytes ++ more } { s.hc with vsr := some s.vsr } s.vsr =
        headParsed { bytes := bytes } { s.hc with vsr := some s.vsr } s.vsr :=
      headParsed_eq (List.prefix_append bytes more) hle hcongr
    rw [headSeen, headSeen, hparsed]

/-- The head parser can be called again after every fragment. What fits is no matter. -/
theorem head_resumable (fits : List UInt8 → Prop) (hfits : ∀ as bs, fits (as ++ bs) → fits as) :
    Resumable headCall headFinal Fragment.bytes headView
      (fun bytes => headSeen bytes (scan headByte .init bytes)) fits (fun _ => True) HeadMidway where
  prefix_fits := hfits
  view := by
    intro client bytes frag h _
    obtain ⟨b, x, hb, hcall, hrel⟩ := h.headCall_eq frag
    have hstatus : (client.recvd frag).status = .reqDone := h.status
    rw [hcall, headEnd_seen hstatus, hb, headSeen_same hrel]
  next := by
    intro client bytes frag r h _ _ hr hfinal
    obtain ⟨b, x, hb, hcall, hrel⟩ := h.headCall_eq frag
    have hstatus : (client.recvd frag).status = .reqDone := h.status
    rw [hcall] at hr
    obtain ⟨t, rfl⟩ := (headEnd_final hstatus hr).mp hfinal
    obtain rfl := Option.some.inj hr
    cases hscan : scan headByte .init (bytes ++ frag.bytes) with
    | stop _ =>
        rw [hscan] at hrel
        cases hrel
    | more s =>
        rw [hscan] at hrel
        obtain ⟨kv, rfl⟩ : ∃ kv, t = { s with kv := kv } := by
          cases hrel with
          | more hst => exact exists_kv hst.1
        have hok := (scan_ok _).1 s hscan
        refine ⟨h.status, { b with pos := s.pos }, s, rfl, hb, hok.pos, hscan, ?_⟩
        rw [HttpClient.headState, HttpClient.leaveHead, HeadState.forget]
        simp only [Option.getD_some, ← hok.apart]
  last := by
    intro client bytes frag more h _ _ hfinal
    obtain ⟨b, x, hb, hcall, hrel⟩ := h.headCall_eq frag
    have hstatus : (client.recvd frag).status = .reqDone := h.status
    cases hscan : scan headByte .init (bytes ++ frag.bytes) with
    | more s =>
        rw [hscan] at hrel
        obtain ⟨t, rfl⟩ : ∃ t, x = .more t := by
          cases hrel with
          | more hst => exact ⟨_, rfl⟩
        rw [headEnd] at hcall
        have hnot := (headEnd_final (b := b) hstatus rfl).mpr ⟨t, rfl⟩
        rw [hfinal _ hcall] at hnot
        cases hnot
    | stop r =>
        rw [scan_append, hscan, Scan.stop_bind]
        exact headSeen_append hscan more

/-- A client right after its request: nothing received, no head. -/
structure HeadFresh (client : HttpClient) : Prop where
  status : client.status = .reqDone
  head : client.head = none
  recv : ∃ b, client.recv = some b ∧ b.bytes = [] ∧ b.pos = 0

theorem HeadFresh.midway {client : HttpClient} (h : HeadFresh client) : HeadMidway client [] := by
  obtain ⟨b, hrecv, hbytes, hpos⟩ := h.recv
  refine ⟨h.status, b, .init, hrecv, hbytes, hpos, rfl, ?_⟩
  rw [HttpClient.headState, h.head, hpos]
  rfl

/-- What is seen after the fragments is what the loop makes of all their bytes. -/
theorem headFeed_seen {client : HttpClient} (hfresh : HeadFresh client) (frag : Fragment)
    (rest : List Fragment) :
    (feed headCall headFinal client frag rest).map headView =
      headSeen ((frag :: rest).flatMap Fragment.bytes)
        (scan headByte .init ((frag :: rest).flatMap Fragment.bytes)) :=
  (head_resumable (fun _ => True) fun _ _ _ => trivial).feed_view hfresh.midway trivial
    fun _ _ _ => trivial

/-- Fragmentation independence of the head parser. Whatever the fragments, and however `recv` is
resized and moved between them, calling the parser after each one until it fails or is done is seen as
one call on all their bytes. -/
theorem headFeed_eq_whole {client : HttpClient} (hfresh : HeadFresh client) (frag : Fragment)
    (rest : List Fragment) (moves : List Addr)
    (hlen : ((frag :: rest).flatMap Fragment.bytes).length < 2 ^ 32) :
    (feed headCall headFinal client frag rest).map headView =
      (headCall client { moves := moves, bytes := (frag :: rest).flatMap Fragment.bytes }).map
        headView :=
  (head_resumable (fun bytes => bytes.length < 2 ^ 32) fun _ _ h =>
    Nat.lt_of_le_of_lt (by simp) h).feed_eq_call hfresh.midway hlen (fun _ _ _ => trivial) rfl

/-- A client that has sent its request and received nothing. -/
def idleClient : HttpClient :=
  { status := .reqDone, url := { port := 80, schema := [], host := [], path := [] },
    recv := some (createTempBuf 4096 4096) }

theorem idleClient_fresh : HeadFresh idleClient :=
  ⟨rfl, rfl, createTempBuf 4096 4096, rfl, rfl, rfl⟩

/-- A head cut inside a value and between CR and LF, its buffer moved once. -/
theorem headFeed_eq_whole_cutValue :
    (feed headCall headFinal idleClient { bytes := lit "HTTP/1.1 200 OK\r\nServer: a" }
        [{ moves := [8192], bytes := lit "b\r" }, { bytes := lit "\n\r\n" }]).map headView =
      (headCall idleClient { bytes := lit "HTTP/1.1 200 OK\r\nServer: ab\r\n\r\n" }).map headView :=
  headFeed_eq_whole idleClient_fresh { bytes := lit "HTTP/1.1 200 OK\r\nServer: a" }
    [{ moves := [8192], bytes := lit "b\r" }, { bytes := lit "\n\r\n" }] [] (by decide)

end Crawler.Http
