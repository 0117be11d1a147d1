/-
# Crawler.Http.HeadSlices — the slices that the head parser records

The parser keeps in `hc->start` where a slice may begin and subtracts it when the slice ends, both in
32 bits. At every point of its loop, in any number of calls, `hc->start` is not beyond `pos`, so no
length underflows, and the slices recorded so far lie one behind the other before `pos` (`HeadSound`).
A record of the queue has no value only while the parser is inside that value, so that the label
`parsed` finds both slices of every record.

The invariant (`HeadInv`) says where the recorded slices end. That is before `hc->start`, but for the
state between CR and LF, where `hc->start` is still the start of the value just recorded.
-/
import Crawler.Http.HeadRender
import Crawler.Http.HeadResume

namespace Crawler.Http

open Crawler.Lib

/-! ## Slices in order -/

/-- A slice of the buffer. -/
structure Slice where
  off : UInt32
  len : UInt32
  deriving DecidableEq, Repr

/-- The offset behind its last byte. -/
def Slice.stop (a : Slice) : Nat := a.off.toNat + a.len.toNat

/-- The slices lie one behind the other, a byte or more apart, and end before `bound`. -/
def Chained (as : List Slice) (bound : Nat) : Prop :=
  (∀ a ∈ as, a.stop < bound) ∧ as.Pairwise fun a b => a.stop < b.off.toNat

theorem Chained.nil (bound : Nat) : Chained [] bound := ⟨by simp, .nil⟩

theorem Chained.mono {as : List Slice} {bound bound' : Nat} (h : Chained as bound)
    (hle : bound ≤ bound') : Chained as bound' :=
  ⟨fun a ha => Nat.lt_of_lt_of_le (h.1 a ha) hle, h.2⟩

/-- One more slice, behind the others. -/
theorem Chained.snoc {as : List Slice} {a : Slice} {bound : Nat} (h : Chained as a.off.toNat)
    (hstop : a.stop < bound) : Chained (as ++ [a]) bound := by
  have hoff : a.off.toNat ≤ a.stop := Nat.le_add_right _ _
  refine ⟨fun x hx => ?_, List.pairwise_append.mpr ⟨h.2, List.pairwise_singleton _ a, ?_⟩⟩
  · rcases List.mem_append.mp hx with hx | hx
    · exact Nat.lt_of_lt_of_le (h.1 x hx) (Nat.le_of_lt (Nat.lt_of_le_of_lt hoff hstop))
    · rw [List.mem_singleton.mp hx]
      exact hstop
  · intro x hx y hy
    rw [List.mem_singleton.mp hy]
    exact h.1 x hx

/-! ## What has been recorded -/

/-- The slices of the status line that are recorded in each state. -/
def HttpVsr.slices (vsr : HttpVsr) : HeadStatus → List Slice
  | .vsrStart => []
  | .vsrVer => [⟨vsr.version, vsr.versionLen⟩]
  | .vsrStat => [⟨vsr.version, vsr.versionLen⟩, ⟨vsr.status, vsr.statusLen⟩]
  | _ => [⟨vsr.version, vsr.versionLen⟩, ⟨vsr.status, vsr.statusLen⟩, ⟨vsr.reason, vsr.reasonLen⟩]

/-- The slices recorded of a header field. The record is zeroed by `calloc`, and no value begins at
offset 0. -/
def KeyValue.slices (kv : KeyValue) : List Slice :=
  if kv.value = 0 then [⟨kv.key, kv.keyLen⟩] else [⟨kv.key, kv.keyLen⟩, ⟨kv.value, kv.valueLen⟩]

/-- All slices recorded so far. -/
def HeadState.recorded (s : HeadState) : List Slice :=
  s.vsr.slices s.hc.status ++ s.hc.kvQueue.flatMap KeyValue.slices

/-- The state with the next byte read. -/
def HeadState.read (s : HeadState) : HeadState := { s with pos := s.pos + 1 }

/-- The slice that ends before the next byte. -/
def HeadState.slice (s : HeadState) : Slice := ⟨s.hc.start, s.read.len⟩

/-- The state in which the loop is, or has stopped. -/
def endState : Scan HeadState HeadStop → HeadState
  | .more s => s
  | .stop (.error s) => s
  | .stop (.parsed s) => s

/-- The slices are sound at a point of the loop. -/
structure HeadSound (s : HeadState) : Prop where
  start : s.hc.start.toNat ≤ s.pos
  /-- No length underflows: what the next byte would record is the distance itself. -/
  length : s.read.len.toNat = s.pos - s.hc.start.toNat
  before : ∀ a ∈ s.recorded, a.stop < s.pos
  ordered : s.recorded.Pairwise fun a b => a.stop < b.off.toNat
  values : ∀ (i : Nat) (kv : KeyValue), s.hc.kvQueue[i]? = some kv →
    kv.value ≠ 0 ∨ s.hc.status = .keyDone ∧ i + 1 = s.hc.kvQueue.length
  complete : s.hc.status = .headDone → ∀ kv ∈ s.hc.kvQueue, kv.value ≠ 0
  /-- The label `parsed` reads recorded slices only. -/
  parsed : s.hc.status = .headDone → ∀ (b b' : HttpBuf) (vsr : Option HttpVsr),
    (∀ a ∈ s.recorded, b'.slice a.off.toNat a.len.toNat = b.slice a.off.toNat a.len.toNat) →
      headParsed b' { s.hc with vsr := vsr } s.vsr = headParsed b { s.hc with vsr := vsr } s.vsr

/-! ## The invariant -/

/-- What the loop keeps. -/
structure HeadInv (s : HeadState) : Prop where
  start : s.hc.start.toNat ≤ s.pos
  chained : Chained s.recorded (if s.hc.status = .lineHalf then s.pos else s.hc.start.toNat)
  early : s.hc.status = .vsrStart ∨ s.hc.status = .vsrVer ∨ s.hc.status = .vsrStat →
    s.hc.kvQueue = []
  inside : s.hc.status = .keyDone → ∃ done kv, s.hc.kvQueue = done ++ [kv] ∧ kv.value = 0 ∧
    ∀ kv ∈ done, kv.value ≠ 0
  outside : s.hc.status ≠ .keyDone → ∀ kv ∈ s.hc.kvQueue, kv.value ≠ 0
  kv : KvOk s

theorem init_inv : HeadInv .init where
  start := Nat.le_refl 0
  chained := Chained.nil _
  early := fun _ => rfl
  inside := by simp [HeadState.init]
  outside := by simp [HeadState.init]
  kv := fun i hi => by cases hi

/-- Only these fields matter. -/
theorem HeadInv.congr {s t : HeadState} (h : HeadInv s) (hstatus : t.hc.status = s.hc.status)
    (hstart : t.hc.start = s.hc.start) (hqueue : t.hc.kvQueue = s.hc.kvQueue) (hvsr : t.vsr = s.vsr)
    (hpos : t.pos = s.pos) (hkv : t.kv = none) : HeadInv t where
  start := by rw [hstart, hpos]; exact h.start
  chained := by
    rw [HeadState.recorded, hstatus, hstart, hqueue, hvsr, hpos]
    exact h.chained
  early := by rw [hstatus, hqueue]; exact h.early
  inside := by rw [hstatus, hqueue]; exact h.inside
  outside := by rw [hstatus, hqueue]; exact h.outside
  kv := fun i hi => by
    rw [hkv] at hi
    cases hi

section

-- a point of the loop with a byte left to read
variable {s : HeadState} (h : HeadInv s) (hpos : s.pos + 1 < 2 ^ 32)

include h

theorem HeadInv.bound_le : (if s.hc.status = .lineHalf then s.pos else s.hc.start.toNat) ≤ s.pos := by
  split
  · exact Nat.le_refl _
  · exact h.start

/-- Reading a byte. -/
theorem HeadInv.read : HeadInv s.read where
  start := Nat.le_succ_of_le h.start
  chained := h.chained.mono (by
    show _ ≤ if s.hc.status = .lineHalf then s.pos + 1 else s.hc.start.toNat
    split
    · exact Nat.le_succ _
    · exact Nat.le_refl _)
  early := h.early
  inside := h.inside
  outside := h.outside
  kv := h.kv.congr rfl rfl rfl

omit h in
/-- The length is the distance itself, in 32 bits. -/
theorem read_len {s : HeadState} (hstart : s.hc.start.toNat ≤ s.pos) (hpos : s.pos < 2 ^ 32) :
    s.read.len.toNat = s.pos - s.hc.start.toNat := by
  have hlen : s.read.len = UInt32.ofNat s.pos - UInt32.ofNat s.hc.start.toNat := by
    rw [HeadState.len, UInt32.ofNat_toNat]
    rfl
  rw [hlen, toNat_ofNat_sub hstart]
  exact Nat.mod_eq_of_lt (Nat.lt_of_le_of_lt (Nat.sub_le _ _) hpos)

include hpos

theorem HeadInv.slice_stop : s.slice.stop = s.pos := by
  show s.hc.start.toNat + s.read.len.toNat = s.pos
  rw [read_len h.start (by omega)]
  exact Nat.add_sub_cancel' h.start

omit h in
theorem read_here : s.read.here.toNat = s.pos + 1 := by
  rw [HeadState.here, UInt32.toNat_ofNat']
  exact Nat.mod_eq_of_lt hpos

/-- A slice recorded behind the others. -/
theorem HeadInv.record (hne : s.hc.status ≠ .lineHalf) :
    Chained (s.recorded ++ [s.slice]) (s.pos + 1) := by
  have hchained := h.chained
  rw [if_neg hne] at hchained
  exact hchained.snoc (by rw [h.slice_stop hpos]; exact Nat.lt_succ_self _)

/-! ## One turn of the loop -/

/-- The byte changes nothing but the position, or the status outside of the states that record. -/
theorem HeadInv.move {status : HeadStatus} (hslices : s.vsr.slices status = s.vsr.slices s.hc.status)
    (hne : s.hc.status ≠ .keyDone) (hnext : status ≠ .keyDone)
    (hearly : status = .vsrStart ∨ status = .vsrVer ∨ status = .vsrStat → s.hc.kvQueue = [])
    {start : UInt32} (hstart : start = s.read.here ∨ start = s.hc.start ∧
      s.hc.status ≠ .lineHalf ∧ status ≠ .lineHalf) :
    HeadInv { s.read with hc := { s.hc with status := status, start := start } } := by
  have hhere := read_here (s := s) hpos
  have hle := h.bound_le
  refine ⟨?_, ?_, hearly, fun hkey => absurd hkey hnext, fun _ => h.outside hne,
    h.kv.of_ne hne rfl⟩
  · show start.toNat ≤ s.pos + 1
    rcases hstart with rfl | ⟨rfl, -, -⟩
    · exact Nat.le_of_eq hhere
    · exact Nat.le_succ_of_le h.start
  · show Chained (s.vsr.slices status ++ _) (if status = .lineHalf then s.pos + 1 else start.toNat)
    rw [hslices]
    refine h.chained.mono ?_
    rcases hstart with rfl | ⟨rfl, hhalf, hhalf'⟩
    · rw [hhere, ite_self]
      exact Nat.le_succ_of_le hle
    · refine Nat.le_of_eq ?_
      rw [if_neg hhalf, if_neg hhalf']

/-- A slice of the status line is recorded. -/
theorem HeadInv.recordVsr {status : HeadStatus} {vsr : HttpVsr} (hqueue : s.hc.kvQueue = [])
    (hslices : vsr.slices status = s.vsr.slices s.hc.status ++ [s.slice])
    (hne : s.hc.status ≠ .keyDone ∧ s.hc.status ≠ .lineHalf)
    (hnext : status ≠ .keyDone ∧ status ≠ .lineHalf) :
    HeadInv { s.read with
      vsr := vsr, hc := { s.hc with status := status, start := s.read.here } } := by
  have hhere := read_here (s := s) hpos
  refine ⟨Nat.le_of_eq hhere, ?_, fun _ => hqueue, fun hkey => absurd hkey hnext.1,
    fun _ => h.outside hne.1, h.kv.of_ne hne.1 rfl⟩
  have hrecord := h.record hpos hne.2
  rw [HeadState.recorded, hqueue, List.flatMap_nil, List.append_nil] at hrecord
  show Chained (vsr.slices status ++ s.hc.kvQueue.flatMap KeyValue.slices)
    (if status = .lineHalf then s.pos + 1 else s.read.here.toNat)
  rw [hqueue, List.flatMap_nil, List.append_nil, hslices, if_neg hnext.2, hhere]
  exact hrecord

theorem headSpace_inv : HeadInv (endState (headSpace s.read)) := by
  unfold headSpace
  split
  case h_1 hst =>
    have hst : s.hc.status = .vsrStart := hst
    refine h.recordVsr hpos (h.early (.inl hst)) ?_ (by simp [hst]) (by simp)
    rw [hst]
    rfl
  case h_2 hst =>
    have hst : s.hc.status = .vsrVer := hst
    refine h.recordVsr hpos (h.early (.inr (.inl hst))) ?_ (by simp [hst]) (by simp)
    rw [hst]
    rfl
  case h_3 hst =>
    have hst : s.hc.status = .keyDone := hst
    have hhere := read_here (s := s) hpos
    have hchained := h.chained
    rw [if_neg (by simp [hst])] at hchained
    refine ⟨Nat.le_of_eq hhere, ?_, h.early, h.inside, h.outside, h.kv.congr rfl rfl rfl⟩
    show Chained s.recorded (if s.hc.status = .lineHalf then s.pos + 1 else s.read.here.toNat)
    rw [if_neg (by simp [hst]), hhere]
    exact hchained.mono (Nat.le_succ_of_le h.start)
  case h_4 => exact h.read

theorem headColon_inv : HeadInv (endState (headColon s.read)) := by
  unfold headColon
  split
  case isTrue hst =>
    have hst : s.hc.status = .lineDone := hst
    have hhere := read_here (s := s) hpos
    have hrecord := h.record hpos (by simp [hst])
    refine ⟨Nat.le_of_eq hhere, ?_, by simp [endState],
      fun _ => ⟨s.hc.kvQueue, _, rfl, rfl, h.outside (by simp [hst])⟩, by simp [endState], ?_⟩
    · show Chained (s.vsr.slices .keyDone ++
        (s.hc.kvQueue ++ [({ key := s.hc.start, keyLen := s.read.len } : KeyValue)]).flatMap
          KeyValue.slices) s.read.here.toNat
      rw [List.flatMap_append, ← List.append_assoc, hhere]
      rw [HeadState.recorded, hst] at hrecord
      exact hrecord
    · rintro i ⟨⟩
      exact ⟨rfl, by simp [endState], by simp [endState]⟩
  case isFalse => exact h.read

omit hpos in
/-- A value begins behind its key, and so not at offset 0. -/
theorem HeadInv.value_ne_zero (hst : s.hc.status = .keyDone) {done : List KeyValue} {kv : KeyValue}
    (hqueue : s.hc.kvQueue = done ++ [kv]) (hvalue : kv.value = 0) : s.hc.start ≠ 0 := by
  intro hzero
  have hkey : (⟨kv.key, kv.keyLen⟩ : Slice) ∈ s.recorded := by
    rw [HeadState.recorded, hqueue, List.flatMap_append, List.flatMap_singleton,
      KeyValue.slices, if_pos hvalue]
    simp
  have hchained := h.chained
  rw [if_neg (by simp [hst]), hzero] at hchained
  exact Nat.not_lt_zero _ (hchained.1 _ hkey)

/-- The CR ends the value, in the last record. -/
theorem HeadInv.endValue (hst : s.hc.status = .keyDone) : HeadInv { s.read with
    hc := { s.hc with
      status := .lineHalf, kvQueue := s.read.setValue (s.kv.getD (s.hc.kvQueue.length - 1)) }
    kv := none } := by
  obtain ⟨done, kv, hqueue, hvalue, hdone⟩ := h.inside hst
  have hlast : s.kv.getD (s.hc.kvQueue.length - 1) = done.length := by
    rw [h.kv.getD_eq, hqueue, List.length_append, List.length_singleton, Nat.add_sub_cancel]
  have hset : s.read.setValue (s.kv.getD (s.hc.kvQueue.length - 1)) =
      done ++ [{ kv with value := s.hc.start, valueLen := s.read.len }] := by
    rw [hlast, HeadState.setValue]
    show s.hc.kvQueue.modify _ _ = _
    rw [hqueue]
    exact modify_concat done kv _
  have hrecord := h.record hpos (by simp [hst])
  have hstart := h.value_ne_zero hst hqueue hvalue
  rw [hset]
  refine ⟨Nat.le_succ_of_le h.start, ?_, by simp, by simp, fun _ kv' hm => ?_, fun i hi => by cases hi⟩
  · show Chained (s.vsr.slices .lineHalf ++
      (done ++ [{ kv with value := s.hc.start, valueLen := s.read.len }]).flatMap KeyValue.slices)
      (s.pos + 1)
    rw [HeadState.recorded, hqueue, hst, List.flatMap_append, List.flatMap_singleton,
      KeyValue.slices, if_pos hvalue, List.append_assoc, List.append_assoc] at hrecord
    rw [List.flatMap_append, List.flatMap_singleton, KeyValue.slices, if_neg hstart]
    exact hrecord
  · rcases List.mem_append.mp hm with hm | hm
    · exact hdone kv' hm
    · rw [List.mem_singleton.mp hm]
      exact hstart

theorem headCr_inv : HeadInv (endState (headCr s.read)) := by
  unfold headCr
  split
  case h_1 hst =>
    have hst : s.hc.status = .keyDone := hst
    obtain ⟨done, kv, hqueue, -, -⟩ := h.inside hst
    rw [if_neg (fun hand => by simpa [HeadState.read, hqueue] using hand.2)]
    exact h.endValue hpos hst
  case h_2 hst =>
    have hst : s.hc.status = .lineDone := hst
    exact h.move hpos (by rw [hst]; rfl) (by simp [hst]) (by simp) (by simp)
      (.inr ⟨rfl, by simp [hst], by simp⟩)
  case h_3 hst =>
    have hst : s.hc.status = .vsrStat := hst
    refine h.recordVsr hpos (h.early (.inr (.inr hst))) ?_ (by simp [hst]) (by simp)
    rw [hst]
    rfl
  case h_4 => exact h.read

theorem headLf_inv : HeadInv (endState (headLf s.read)) := by
  unfold headLf
  split
  case h_1 hst =>
    have hst : s.hc.status = .lineHalf := hst
    exact h.move hpos (by rw [hst]; rfl) (by simp [hst]) (by simp) (by simp) (.inl rfl)
  case h_2 hst =>
    have hst : s.hc.status = .headHalf := hst
    exact h.move hpos (by rw [hst]; rfl) (by simp [hst]) (by simp) (by simp)
      (.inr ⟨rfl, by simp [hst], by simp⟩)
  case h_3 hst =>
    have hst : s.hc.status = .vsrReas := hst
    exact h.move hpos (by rw [hst]; rfl) (by simp [hst]) (by simp) (by simp) (.inl rfl)
  case h_4 => exact h.read

/-- One turn of the loop. -/
theorem headByte_inv (c : UInt8) : HeadInv (endState (headByte s c)) := by
  unfold headByte
  simp only
  split_ifs
  · exact headSpace_inv h hpos
  · exact headColon_inv h hpos
  · exact headCr_inv h hpos
  · exact headLf_inv h hpos
  · exact h.read

end

theorem headByte_pos (s : HeadState) (c : UInt8) : (endState (headByte s c)).pos = s.pos + 1 := by
  unfold headByte
  simp only
  split_ifs
  · unfold headSpace
    split <;> rfl
  · unfold headColon
    split <;> rfl
  · unfold headCr
    split
    case h_1 => split <;> rfl
    all_goals rfl
  · unfold headLf
    split <;> rfl
  · rfl

/-! ## Every point of every call -/

/-- The loop over some of the bytes. -/
theorem scan_inv {s : HeadState} (h : HeadInv s) {bytes : List UInt8}
    (hpos : s.pos + bytes.length < 2 ^ 32) :
    HeadInv (endState (scan headByte s bytes)) ∧
      (endState (scan headByte s bytes)).pos ≤ s.pos + bytes.length := by
  have hstep : ∀ k t c, k < bytes.length → t.pos = s.pos + k ∧ HeadInv t →
      (endState (headByte t c)).pos = s.pos + (k + 1) ∧ HeadInv (endState (headByte t c)) := by
    intro k t c hk ⟨htpos, ht⟩
    refine ⟨?_, headByte_inv ht (by omega) c⟩
    rw [headByte_pos, htpos]
    rfl
  have hmore : ∀ k t c t', k < bytes.length → t.pos = s.pos + k ∧ HeadInv t →
      headByte t c = .more t' → t'.pos = s.pos + (k + 1) ∧ HeadInv t' := by
    intro k t c t' hk ht hmore
    have hnext := hstep k t c hk ht
    rwa [hmore] at hnext
  have hstop : ∀ k t c r, k < bytes.length → t.pos = s.pos + k ∧ HeadInv t →
      headByte t c = .stop r → (endState (.stop r)).pos = s.pos + (k + 1) ∧
        HeadInv (endState (.stop r)) := by
    intro k t c r hk ht hstop
    have hnext := hstep k t c hk ht
    rwa [hstop] at hnext
  have hstart : s.pos = s.pos + 0 ∧ HeadInv s := ⟨rfl, h⟩
  have hscan := scan_invariant (I := fun k t => t.pos = s.pos + k ∧ HeadInv t)
    (J := fun k r => (endState (.stop r)).pos = s.pos + k ∧ HeadInv (endState (.stop r)))
    hmore hstop hstart (Nat.le_of_eq (Nat.zero_add bytes.length))
  cases hend : scan headByte s bytes with
  | more t =>
      obtain ⟨htpos, ht⟩ := hscan.1 t hend
      refine ⟨ht, ?_⟩
      show t.pos ≤ _
      omega
  | stop r =>
      obtain ⟨j, hj, hrpos, hr⟩ := hscan.2 r hend
      exact ⟨hr, by omega⟩

/-- Calls of `http_parse_head`, each with a fragment received before it, whatever they return. -/
inductive HeadCalls (client₀ : HttpClient) : List Fragment → HttpClient → Prop
  | start : HeadCalls client₀ [] client₀
  | call {frags : List Fragment} {client : HttpClient} {frag : Fragment} {rc : Int}
      {client' : HttpClient} : HeadCalls client₀ frags client →
      headCall client frag = some (rc, client') → HeadCalls client₀ (frags ++ [frag]) client'

/-- The loop of a call on `client` is, or stops, in state `s` when it has read `k` bytes. -/
def HeadPoint (client : HttpClient) (s : HeadState) : Prop :=
  ∃ b k, client.recv = some b ∧
    s = endState (scan headByte (client.headState b) ((b.bytes.drop b.pos).take k))

/-- Between two calls, with `n` bytes received. -/
def HeadBetween (client : HttpClient) (n : Nat) : Prop :=
  ∃ b, client.recv = some b ∧ b.bytes.length = n ∧ b.pos ≤ n ∧ HeadInv (client.headState b)

theorem HeadFresh.between {client : HttpClient} (h : HeadFresh client) : HeadBetween client 0 := by
  obtain ⟨b, hrecv, hbytes, hpos⟩ := h.recv
  refine ⟨b, hrecv, by rw [hbytes]; rfl, Nat.le_of_eq hpos, ?_⟩
  rw [HttpClient.headState, h.head, hpos]
  exact init_inv

section

variable {client : HttpClient} {n : Nat}

/-- Receiving a fragment moves nothing. -/
theorem HeadBetween.recvd (h : HeadBetween client n) (frag : Fragment) :
    HeadBetween (client.recvd frag) (n + frag.bytes.length) := by
  obtain ⟨b, hrecv, hbytes, hpos, hinv⟩ := h
  refine ⟨b.recvd frag, by rw [HttpClient.recvd, hrecv]; rfl, ?_, ?_, ?_⟩
  · rw [HttpBuf.recvd_bytes, List.length_append, hbytes]
  · rw [HttpBuf.recvd_pos]
    exact Nat.le_trans hpos (Nat.le_add_right _ _)
  · have hstate : (client.recvd frag).headState (b.recvd frag) = client.headState b := by
      rw [HttpClient.headState, HttpClient.headState, HttpBuf.recvd_pos]
      rfl
    rw [hstate]
    exact hinv

/-- Every point of the loop. -/
theorem HeadBetween.point (h : HeadBetween client n) (hn : n < 2 ^ 32) {s : HeadState}
    (hs : HeadPoint client s) : HeadInv s ∧ s.pos ≤ n := by
  obtain ⟨b, hrecv, rfl, hpos, hinv⟩ := h
  obtain ⟨b', k, hrecv', rfl⟩ := hs
  obtain rfl : b = b' := Option.some.inj (hrecv.symm.trans hrecv')
  have hlen : b.pos + ((b.bytes.drop b.pos).take k).length ≤ b.bytes.length := by
    rw [List.length_take, List.length_drop]
    omega
  obtain ⟨hend, hle⟩ := scan_inv hinv (Nat.lt_of_le_of_lt hlen hn)
  exact ⟨hend, Nat.le_trans hle hlen⟩

/-- A call. -/
theorem HeadBetween.call (h : HeadBetween client n) (hn : n < 2 ^ 32) {rc : Int}
    {client' : HttpClient} (hcall : httpParseHead client = some (rc, client')) :
    HeadBetween client' n := by
  obtain ⟨b, hrecv, hbytes, hpos, hinv⟩ := id h
  have hpoint : HeadPoint client
      (endState (scan headByte (client.headState b) (b.bytes.drop b.pos))) :=
    ⟨b, b.bytes.length, hrecv, by
      rw [List.take_of_length_le (by rw [List.length_drop]; exact Nat.sub_le _ _)]⟩
  obtain ⟨hend, hle⟩ := h.point hn hpoint
  rw [httpParseHead, hrecv, Option.bind_eq_bind, Option.bind_some] at hcall
  generalize scan headByte (client.headState b) (b.bytes.drop b.pos) = x at hcall hend hle
  rcases x with s | s | s
  · obtain ⟨rfl, rfl⟩ := Prod.mk.inj (Option.some.inj hcall)
    exact ⟨_, rfl, hbytes, hle, hend.congr rfl rfl rfl rfl rfl rfl⟩
  · obtain ⟨rfl, rfl⟩ := Prod.mk.inj (Option.some.inj hcall)
    exact ⟨_, rfl, hbytes, hle, hend.congr rfl rfl rfl rfl rfl rfl⟩
  · obtain ⟨⟨rc', hc⟩, hparsed, hres⟩ := Option.bind_eq_some_iff.mp hcall
    obtain ⟨-, rfl⟩ := Prod.mk.inj (Option.some.inj hres)
    rw [headParsed_frame hparsed]
    exact ⟨_, rfl, hbytes, hle, hend.congr rfl rfl rfl rfl rfl rfl⟩

end

/-- All calls of a run. -/
theorem HeadCalls.between {client₀ client : HttpClient} {frags : List Fragment}
    (hcalls : HeadCalls client₀ frags client) (hfresh : HeadFresh client₀)
    (hlen : (frags.flatMap Fragment.bytes).length < 2 ^ 32) :
    HeadBetween client (frags.flatMap Fragment.bytes).length := by
  induction hcalls with
  | start => exact hfresh.between
  | @call frags client frag rc client' _ hcall ih =>
      rw [List.flatMap_append, List.flatMap_singleton, List.length_append] at hlen ⊢
      have hbefore := ih (Nat.lt_of_le_of_lt (Nat.le_add_right _ _) hlen)
      exact (hbefore.recvd frag).call hlen hcall

/-! ## What the invariant gives -/

/-- The label `parsed` copies the status code and the slices of the records, and nothing else. -/
theorem headParsed_congr {b b' : HttpBuf} {hc : HeadCache} {vsr : HttpVsr}
    (hstatus : b'.slice vsr.status.toNat vsr.statusLen.toNat =
      b.slice vsr.status.toNat vsr.statusLen.toNat)
    (hkvs : ∀ kv ∈ hc.kvQueue,
      b'.slice kv.key.toNat kv.keyLen.toNat = b.slice kv.key.toNat kv.keyLen.toNat ∧
        b'.slice kv.value.toNat kv.valueLen.toNat = b.slice kv.value.toNat kv.valueLen.toNat) :
    headParsed b' hc vsr = headParsed b hc vsr := by
  have hfield : ∀ kv ∈ hc.kvQueue, ∀ hc', headField b' hc' kv = headField b hc' kv := by
    intro kv hm hc'
    rw [headField, headField, copied, copied, copied, copied, (hkvs kv hm).1, (hkvs kv hm).2]
  rw [headParsed, headParsed, copied, copied, hstatus, headFields_congr hfield hc]

/-- Both slices of a field whose value is recorded. -/
theorem mem_recorded {s : HeadState} {kv : KeyValue} (hm : kv ∈ s.hc.kvQueue) (hvalue : kv.value ≠ 0) :
    ⟨kv.key, kv.keyLen⟩ ∈ s.recorded ∧ ⟨kv.value, kv.valueLen⟩ ∈ s.recorded := by
  have hmem : ∀ a ∈ kv.slices, a ∈ s.recorded := fun a ha =>
    List.mem_append_right _ (List.mem_flatMap.mpr ⟨kv, hm, ha⟩)
  rw [KeyValue.slices, if_neg hvalue] at hmem
  exact ⟨hmem _ List.mem_cons_self, hmem _ (List.mem_cons_of_mem _ List.mem_cons_self)⟩

/-- The invariant makes the slices sound. -/
theorem HeadInv.sound {s : HeadState} (h : HeadInv s) (hpos : s.pos < 2 ^ 32) : HeadSound s where
  start := h.start
  length := read_len h.start hpos
  before := (h.chained.mono h.bound_le).1
  ordered := h.chained.2
  values := by
    intro i kv hkv
    by_cases hst : s.hc.status = .keyDone
    · obtain ⟨done, last, hqueue, -, hdone⟩ := h.inside hst
      rw [hqueue] at hkv
      rcases Nat.lt_or_ge i done.length with hlt | hge
      · rw [List.getElem?_append_left hlt] at hkv
        exact .inl (hdone kv (List.mem_of_getElem? hkv))
      · refine .inr ⟨hst, ?_⟩
        obtain ⟨hi, -⟩ := List.getElem?_eq_some_iff.mp hkv
        rw [List.length_append, List.length_singleton] at hi
        rw [hqueue, List.length_append, List.length_singleton]
        omega
    · exact .inl (h.outside hst kv (List.mem_of_getElem? hkv))
  complete := fun hst => h.outside (by simp [hst])
  parsed := by
    intro hst b b' vsr hsame
    have hboth := fun kv hm => mem_recorded hm (h.outside (by simp [hst]) kv hm)
    refine headParsed_congr (hsame ⟨_, _⟩ ?_)
      fun kv hm => ⟨hsame _ (hboth kv hm).1, hsame _ (hboth kv hm).2⟩
    rw [HeadState.recorded, hst]
    simp [HttpVsr.slices]

/-- The slices recorded are sound at every point of every call, however the bytes are cut, wherever the
buffer is moved to, and whatever the calls return. -/
theorem httpParseHead_slices {client₀ client : HttpClient} (hfresh : HeadFresh client₀)
    {frags : List Fragment} (hcalls : HeadCalls client₀ frags client) (frag : Fragment)
    (hlen : ((frags ++ [frag]).flatMap Fragment.bytes).length < 2 ^ 32) {s : HeadState}
    (hpoint : HeadPoint (client.recvd frag) s) : HeadSound s := by
  rw [List.flatMap_append, List.flatMap_singleton, List.length_append] at hlen
  have hbetween := hcalls.between hfresh (Nat.lt_of_le_of_lt (Nat.le_add_right _ _) hlen)
  obtain ⟨hinv, hle⟩ := (hbetween.recvd frag).point hlen hpoint
  exact hinv.sound (Nat.lt_of_le_of_lt hle hlen)

/-- A head cut inside a value. -/
def cutHead : Fragment := { bytes := lit "A 200 B\r\nC: d" }

/-- The rest of it. -/
def headRest : Fragment := { bytes := lit "e\r\n\r\n" }

theorem httpParseHead_slices_cutHead : ∃ client s, HeadCalls idleClient [cutHead] client ∧
    HeadPoint (client.recvd headRest) s ∧ s.hc.status = .headDone ∧ HeadSound s := by
  have hdone : ((headCall idleClient cutHead).bind fun r => (r.2.recvd headRest).recv.map fun b =>
      (endState (scan headByte ((r.2.recvd headRest).headState b)
        ((b.bytes.drop b.pos).take 5))).hc.status) = some .headDone := by
    decide
  obtain ⟨⟨rc, client⟩, hcall, hdone⟩ := Option.bind_eq_some_iff.mp hdone
  obtain ⟨b, hrecv, hdone⟩ := Option.map_eq_some_iff.mp hdone
  have hcalls : HeadCalls idleClient [cutHead] client := .call .start hcall
  have hpoint : HeadPoint (client.recvd headRest) _ := ⟨b, 5, hrecv, rfl⟩
  exact ⟨client, _, hcalls, hpoint, hdone,
    httpParseHead_slices idleClient_fresh hcalls headRest (by decide) hpoint⟩

end Crawler.Http
