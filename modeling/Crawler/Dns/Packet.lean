/-
# Crawler.Dns.Packet — the question packed and the answer walked

The byte level of `async_dns.c`: `pack_udp`, and the part of `parse_udp` that depends on nothing but
the received bytes (the skip over the question, the walk over the answer records, the address).
Offsets are counted from the start of the datagram, and `dns_header_t.data` is at offset 12. The
machine is little-endian, which shows in the transaction id alone: it is stored and compared raw,
while every other field goes through `htons`.

`Cut pkt n` is the one kind of datagram on which the walk looks past the `n` bytes received: the
address record it settles on ends after byte `n`. The code checks the first address byte only.
-/
import Crawler.Core
import Mathlib.Logic.Function.Basic
import Mathlib.Order.Nat
import Mathlib.Tactic.Common

namespace Crawler.Dns

/-- The size of the packet buffers. -/
def dnsUdpSize : Nat := 4096

/-- `sizeof(dns_header_t)`: twelve header bytes, one data byte, one byte of padding. -/
def dnsHeaderSize : Nat := 14

/-- The offset of `data` in `dns_header_t`. -/
def dnsDataOffset : Nat := 12

/-! ## Sixteen-bit fields -/

/-- A field in network order: `NTOHS(p)`, or `htons` of the field read raw. -/
def be16 (m : Mem) (i : Nat) : Nat := (m i).toNat * 256 + (m (i + 1)).toNat

/-- A field read raw. -/
def raw16 (m : Mem) (i : Nat) : UInt16 := UInt16.ofNat ((m i).toNat + 256 * (m (i + 1)).toNat)

/-- A field written raw. -/
def putRaw16 (m : Mem) (i : Nat) (v : UInt16) : Mem :=
  Function.update (Function.update m i (v.toNat % 256).toUInt8) (i + 1) (v.toNat / 256).toUInt8

/-- A field written through `htons`. -/
def putBe16 (m : Mem) (i : Nat) (v : UInt16) : Mem :=
  Function.update (Function.update m i (v.toNat / 256).toUInt8) (i + 1) (v.toNat % 256).toUInt8

theorem raw16_putRaw16 (m : Mem) (i : Nat) (v : UInt16) : raw16 (putRaw16 m i v) i = v := by
  have hv : v.toNat < 65536 := v.toNat_lt
  have hlow : (v.toNat % 256).toUInt8.toNat = v.toNat % 256 := by simp
  have hhigh : (v.toNat / 256).toUInt8.toNat = v.toNat / 256 := by
    simp only [UInt8.toNat_ofNat']
    omega
  apply UInt16.toNat_inj.mp
  rw [raw16, putRaw16, Function.update_self, Function.update_of_ne (by omega),
    Function.update_self, hlow, hhigh, UInt16.toNat_ofNat']
  omega

theorem raw16_congr {m m' : Mem} {i : Nat} (h0 : m i = m' i) (h1 : m (i + 1) = m' (i + 1)) :
    raw16 m i = raw16 m' i := by
  rw [raw16, raw16, h0, h1]

theorem be16_congr {m m' : Mem} {i : Nat} (h0 : m i = m' i) (h1 : m (i + 1) = m' (i + 1)) :
    be16 m i = be16 m' i := by
  rw [be16, be16, h0, h1]

/-! ## `pack_udp` -/

/-- `tolower` in the C locale. -/
def tolower (c : UInt8) : UInt8 := if 65 ≤ c ∧ c ≤ 90 then c + 32 else c

/-- The locals of the loop of `pack_udp`: the packet, and the offsets `chunk_len` and `p`. -/
structure Packing where
  pkt : Mem
  chunkLen : Nat
  p : Nat

/-- The length byte of the label that ends before `p`. -/
def Packing.labelLen (w : Packing) : UInt8 := (w.p - w.chunkLen - 1).toUInt8

/-- One turn of the loop of `pack_udp` for the byte `host[i]`. -/
def Packing.put (w : Packing) (c : UInt8) : Packing :=
  if c = 46 then
    { pkt := Function.update w.pkt w.chunkLen w.labelLen, chunkLen := w.p, p := w.p + 1 }
  else
    let pkt := Function.update w.pkt w.p (tolower c)
    let pkt := if c = 0 then Function.update pkt w.chunkLen w.labelLen else pkt
    { pkt := pkt, chunkLen := w.chunkLen, p := w.p + 1 }

/-- `pack_udp(pkt, host)` at the current value of `id`: the packet and its length. -/
def packUdp (pkt : Mem) (id : UInt16) (host : CStr) : Mem × Nat :=
  let pkt := putRaw16 pkt 0 id
  let pkt := putBe16 pkt 2 0x0100
  let pkt := putBe16 pkt 4 1
  let pkt := putBe16 pkt 6 0
  let pkt := putBe16 pkt 8 0
  let pkt := putBe16 pkt 10 0
  let w := (host ++ [0]).foldl Packing.put ⟨pkt, dnsDataOffset, dnsDataOffset + 1⟩
  let pkt := Function.update w.pkt w.p 0
  let pkt := Function.update pkt (w.p + 1) 1
  let pkt := Function.update pkt (w.p + 2) 0
  let pkt := Function.update pkt (w.p + 3) 1
  (pkt, w.p + 4)

/-- The loop writes at its two offsets and after them only. -/
theorem Packing.put_frame {w : Packing} (hw : w.chunkLen < w.p) (c : UInt8) :
    (w.put c).chunkLen < (w.put c).p ∧ w.chunkLen ≤ (w.put c).chunkLen ∧
      ∀ i, i < w.chunkLen → (w.put c).pkt i = w.pkt i := by
  by_cases hdot : c = 46
  · simp only [Packing.put, if_pos hdot]
    refine ⟨Nat.lt_succ_self _, hw.le, fun i hi => ?_⟩
    rw [Function.update_of_ne hi.ne]
  · simp only [Packing.put, if_neg hdot]
    refine ⟨Nat.lt_succ_of_lt hw, le_refl _, fun i hi => ?_⟩
    split
    · rw [Function.update_of_ne hi.ne, Function.update_of_ne (hi.trans hw).ne]
    · rw [Function.update_of_ne (hi.trans hw).ne]

theorem Packing.foldl_frame {w : Packing} (hw : w.chunkLen < w.p) (cs : List UInt8) :
    w.chunkLen < (cs.foldl Packing.put w).p ∧
      ∀ i, i < w.chunkLen → (cs.foldl Packing.put w).pkt i = w.pkt i := by
  induction cs generalizing w with
  | nil => exact ⟨hw, fun _ _ => rfl⟩
  | cons c cs ih =>
      obtain ⟨hlt, hle, hframe⟩ := Packing.put_frame hw c
      obtain ⟨hp, hrest⟩ := ih hlt
      refine ⟨Nat.lt_of_le_of_lt hle hp, fun i hi => ?_⟩
      rw [List.foldl_cons, hrest i (Nat.lt_of_lt_of_le hi hle), hframe i hi]

/-- The packet carries the id it was packed with. -/
theorem packUdp_id (pkt : Mem) (id : UInt16) (host : CStr) :
    raw16 (packUdp pkt id host).1 0 = id := by
  have hkeep : ∀ i, i < 2 → (packUdp pkt id host).1 i = putRaw16 pkt 0 id i := by
    intro i hi
    obtain ⟨hp, hframe⟩ := Packing.foldl_frame
      (w := ⟨putBe16 (putBe16 (putBe16 (putBe16 (putBe16 (putRaw16 pkt 0 id) 2 0x0100) 4 1) 6 0) 8 0)
        10 0, dnsDataOffset, dnsDataOffset + 1⟩) (Nat.lt_succ_self _) (host ++ [0])
    simp only [dnsDataOffset] at hp hframe
    simp only [packUdp, dnsDataOffset]
    rw [Function.update_of_ne (by omega), Function.update_of_ne (by omega),
      Function.update_of_ne (by omega), Function.update_of_ne (by omega), hframe i (by omega)]
    simp only [putBe16]
    repeat rw [Function.update_of_ne (by omega)]
  rw [raw16_congr (hkeep 0 (by omega)) (hkeep 1 (by omega)), raw16_putRaw16]

/-! ## The byte walk of `parse_udp` -/

/-- The skip over QNAME from offset `p`: the first zero byte, or the end. -/
def skipQname (pkt : Mem) (len : Nat) : Nat → Nat → Nat
  | 0, p => p
  | fuel + 1, p => if p < len ∧ pkt p ≠ 0 then skipQname pkt len fuel (p + 1) else p

/-- The inner loop of the answer walk, over an owner name that does not start with `0xC0`. -/
def skipName (pkt : Mem) (len : Nat) : Nat → Nat → Nat
  | 0, p => p
  | fuel + 1, p => if pkt p ≠ 0 ∧ p + 12 < len then skipName pkt len fuel (p + 1) else p

/-- Where the fields of the record at `p` are read: two bytes before its type field. -/
def recordBase (pkt : Mem) (len p : Nat) : Nat :=
  if pkt p ≠ 0xC0 then skipName pkt len (len - p) p - 1 else p

/-- The type field of a record. -/
def recordType (pkt : Mem) (p : Nat) : Nat := be16 pkt (p + 2)

/-- The length field of a record. -/
def recordLen (pkt : Mem) (p : Nat) : Nat := be16 pkt (p + 10)

/-- The answer loop from offset `p`: the final `found` and `p`. Every turn that goes on moves `p`
forward, so `len` turns are enough. -/
def answerWalk (pkt : Mem) (len : Nat) : Nat → Nat → Bool × Nat
  | 0, p => (false, p)
  | fuel + 1, p =>
      if p + 12 < len then
        let p := recordBase pkt len p
        if recordType pkt p = 5 then answerWalk pkt len fuel (p + (12 + recordLen pkt p))
        else if recordType pkt p = 1 then (true, p)
        else (false, p)
      else (false, p)

/-- The ways `parse_udp` leaves the byte walk: by `goto failed`, with nothing found, or with the
address. -/
inductive Answer where
  | failed
  | notFound
  | address (sinAddr : InAddr)
  deriving DecidableEq, Repr

/-- The address built from the four bytes at `p`. -/
def addrAt (pkt : Mem) (p : Nat) : InAddr := ⟨pkt p, pkt (p + 1), pkt (p + 2), pkt (p + 3)⟩

/-- The question check of `parse_udp`, at the end `p` of the question's name. -/
def questionOk (pkt : Mem) (len p : Nat) : Prop := ¬ (p + 5 > len ∨ be16 pkt (p + 1) ≠ 1)

instance (pkt : Mem) (len p : Nat) : Decidable (questionOk pkt len p) := by
  unfold questionOk; infer_instance

/-- The end of the question's name. -/
def questionEnd (pkt : Mem) (len : Nat) : Nat :=
  skipQname pkt len (len - dnsDataOffset) dnsDataOffset

/-- `parse_udp` from the skip over QNAME to the address. -/
def parseAnswer (pkt : Mem) (len : Nat) : Answer :=
  let p := questionEnd pkt len
  if ¬ questionOk pkt len p then .failed
  else
    let (found, p) := answerWalk pkt len len (p + 5)
    if found ∧ p + 12 < len then
      if recordLen pkt p ≠ 4 then .failed else .address (addrAt pkt (p + 12))
    else .notFound

/-! ## What the walk reads -/

/-- Two buffers hold the same `n` received bytes. -/
def AgreeBelow (n : Nat) (m m' : Mem) : Prop := ∀ i, i < n → m i = m' i

theorem AgreeBelow.be16 {n : Nat} {m m' : Mem} (h : AgreeBelow n m m') {i : Nat} (hi : i + 1 < n) :
    be16 m i = be16 m' i :=
  be16_congr (h i (by omega)) (h (i + 1) hi)

theorem AgreeBelow.raw16 {n : Nat} {m m' : Mem} (h : AgreeBelow n m m') {i : Nat} (hi : i + 1 < n) :
    raw16 m i = raw16 m' i :=
  raw16_congr (h i (by omega)) (h (i + 1) hi)

theorem skipQname_ge (pkt : Mem) (len fuel p : Nat) : p ≤ skipQname pkt len fuel p := by
  induction fuel generalizing p with
  | zero => exact le_refl p
  | succ fuel ih =>
      rw [skipQname]
      split
      · exact (Nat.le_succ p).trans (ih (p + 1))
      · exact le_refl p

theorem skipQname_congr {n : Nat} {m m' : Mem} (h : AgreeBelow n m m') (fuel p : Nat) :
    skipQname m n fuel p = skipQname m' n fuel p := by
  induction fuel generalizing p with
  | zero => rfl
  | succ fuel ih =>
      rw [skipQname, skipQname, ih]
      by_cases hp : p < n
      · rw [h p hp]
      · simp [hp]

/-- The byte the skip stops at, when it stops inside the datagram, is zero. -/
theorem skipQname_stop (pkt : Mem) (len fuel p : Nat) (hfuel : len - p ≤ fuel)
    (hlt : skipQname pkt len fuel p < len) : pkt (skipQname pkt len fuel p) = 0 := by
  induction fuel generalizing p with
  | zero => simp only [skipQname] at hlt; omega
  | succ fuel ih =>
      rw [skipQname] at hlt ⊢
      split at hlt
      case isTrue hc =>
        rw [if_pos hc]
        exact ih (p + 1) (by omega) hlt
      case isFalse hc =>
        rw [if_neg hc]
        by_contra hne
        exact hc ⟨hlt, hne⟩

/-- The bytes skipped over are not zero. -/
theorem skipQname_nonzero (pkt : Mem) (len fuel p i : Nat) (hi : p ≤ i)
    (hlt : i < skipQname pkt len fuel p) : pkt i ≠ 0 := by
  induction fuel generalizing p with
  | zero => simp only [skipQname] at hlt; omega
  | succ fuel ih =>
      rw [skipQname] at hlt
      split at hlt
      case isTrue hc =>
        rcases Nat.eq_or_lt_of_le hi with rfl | hpi
        · exact hc.2
        · exact ih (p + 1) hpi hlt
      case isFalse => omega

/-- The inner loop keeps `p` inside the range in which the fixed fields are received. -/
theorem skipName_bounds (pkt : Mem) (len fuel p : Nat) (hp : p + 12 < len) :
    p ≤ skipName pkt len fuel p ∧ skipName pkt len fuel p + 12 ≤ len := by
  induction fuel generalizing p with
  | zero => exact ⟨le_refl p, hp.le⟩
  | succ fuel ih =>
      rw [skipName]
      split
      case isTrue hc =>
        by_cases hnext : p + 1 + 12 < len
        · have := ih (p + 1) hnext
          omega
        · -- the next turn stops at once
          have hstop : skipName pkt len fuel (p + 1) = p + 1 := by
            cases fuel with
            | zero => rfl
            | succ fuel => rw [skipName, if_neg (by omega)]
          omega
      case isFalse => exact ⟨le_refl p, hp.le⟩

theorem skipName_congr {n : Nat} {m m' : Mem} (h : AgreeBelow n m m') (fuel p : Nat)
    (hp : p < n) : skipName m n fuel p = skipName m' n fuel p := by
  induction fuel generalizing p with
  | zero => rfl
  | succ fuel ih =>
      rw [skipName, skipName, h p hp]
      by_cases hc : m' p ≠ 0 ∧ p + 12 < n
      · rw [if_pos hc, if_pos hc, ih (p + 1) (by omega)]
      · rw [if_neg hc, if_neg hc]

/-- The fields of a record whose fixed part is received are read inside the datagram. -/
theorem recordBase_bounds (pkt : Mem) {len p : Nat} (hp : p + 12 < len) :
    p ≤ recordBase pkt len p + 1 ∧ recordBase pkt len p + 12 < len + 1 := by
  rw [recordBase]
  split
  · have := skipName_bounds pkt len (len - p) p hp
    omega
  · omega

theorem recordBase_congr {n : Nat} {m m' : Mem} (h : AgreeBelow n m m') {p : Nat}
    (hp : p + 12 < n) : recordBase m n p = recordBase m' n p := by
  rw [recordBase, recordBase, h p (by omega), skipName_congr h _ p (by omega)]

/-- The answer loop depends on the received bytes only. -/
theorem answerWalk_congr {n : Nat} {m m' : Mem} (h : AgreeBelow n m m') (fuel p : Nat) :
    answerWalk m n fuel p = answerWalk m' n fuel p := by
  induction fuel generalizing p with
  | zero => rfl
  | succ fuel ih =>
      rw [answerWalk, answerWalk]
      by_cases hp : p + 12 < n
      · have hbound := recordBase_bounds m hp
        have htype : recordType m (recordBase m n p) = recordType m' (recordBase m n p) :=
          h.be16 (by omega)
        have hlen : recordLen m (recordBase m n p) = recordLen m' (recordBase m n p) :=
          h.be16 (by omega)
        simp only [if_pos hp, ← recordBase_congr h hp, htype, hlen, ih]
      · rw [if_neg hp, if_neg hp]

/-! ## The datagrams cut inside their address -/

/-- From record position `p` the walk over CNAME records settles on an address record at `r`. -/
inductive SettlesOn (pkt : Mem) (len : Nat) : Nat → Nat → Prop
  | address {p : Nat} : p + 12 < len → recordType pkt (recordBase pkt len p) = 1 →
      SettlesOn pkt len p (recordBase pkt len p)
  | cname {p r : Nat} : p + 12 < len → recordType pkt (recordBase pkt len p) = 5 →
      SettlesOn pkt len (recordBase pkt len p + (12 + recordLen pkt (recordBase pkt len p))) r →
      SettlesOn pkt len p r

theorem SettlesOn.unique {pkt : Mem} {len p r r' : Nat} (h : SettlesOn pkt len p r)
    (h' : SettlesOn pkt len p r') : r = r' := by
  induction h with
  | address _ ht =>
      cases h' with
      | address => rfl
      | cname _ ht' => rw [ht] at ht'; cases ht'
  | cname _ ht _ ih =>
      cases h' with
      | address _ ht' => rw [ht] at ht'; cases ht'
      | cname _ _ hr' => exact ih hr'

/-- The loop finds an address record exactly where the walk settles on one. -/
theorem answerWalk_found_iff (pkt : Mem) (len fuel p r : Nat) (hp : 1 ≤ p)
    (hfuel : len < fuel + p + 12) :
    answerWalk pkt len fuel p = (true, r) ↔ SettlesOn pkt len p r := by
  induction fuel generalizing p with
  | zero =>
      refine ⟨fun h => by simp [answerWalk] at h, fun h => ?_⟩
      cases h <;> omega
  | succ fuel ih =>
      rw [answerWalk]
      by_cases hlt : p + 12 < len
      · have hbound := recordBase_bounds pkt hlt
        simp only [if_pos hlt]
        by_cases h5 : recordType pkt (recordBase pkt len p) = 5
        · rw [if_pos h5, ih _ (by omega) (by omega)]
          constructor
          · exact fun h => .cname hlt h5 h
          · intro h
            cases h with
            | address _ ht => rw [h5] at ht; cases ht
            | cname _ _ hr => exact hr
        · rw [if_neg h5]
          by_cases h1 : recordType pkt (recordBase pkt len p) = 1
          · rw [if_pos h1]
            constructor
            · intro h
              obtain rfl : recordBase pkt len p = r := by simpa using h
              exact .address hlt h1
            · intro h
              rw [h.unique (.address hlt h1)]
          · rw [if_neg h1]
            refine ⟨fun h => by simp at h, fun h => ?_⟩
            cases h with
            | address _ ht => exact absurd ht h1
            | cname _ ht => exact absurd ht h5
      · rw [if_neg hlt]
        refine ⟨fun h => by simp at h, fun h => ?_⟩
        cases h <;> omega

/-- The datagram passes the question check and its answer walk settles on an IPv4 address record at
`r` whose first address byte is received. -/
structure Delivers (pkt : Mem) (n r : Nat) : Prop where
  question : questionOk pkt n (questionEnd pkt n)
  settles : SettlesOn pkt n (questionEnd pkt n + 5) r
  received : r + 12 < n
  len : recordLen pkt r = 4

/-- The datagram ends inside the four address bytes of the record it delivers. -/
def Cut (pkt : Mem) (n : Nat) : Prop := ∃ r, Delivers pkt n r ∧ n < r + 16

theorem questionEnd_ge (pkt : Mem) (n : Nat) : dnsDataOffset ≤ questionEnd pkt n :=
  skipQname_ge _ _ _ _

theorem questionEnd_congr {n : Nat} {m m' : Mem} (h : AgreeBelow n m m') :
    questionEnd m n = questionEnd m' n :=
  skipQname_congr h _ _

theorem questionOk_congr {n : Nat} {m m' : Mem} (h : AgreeBelow n m m') (p : Nat) :
    questionOk m n p ↔ questionOk m' n p := by
  rw [questionOk, questionOk]
  by_cases hp : p + 5 > n
  · simp [hp]
  · rw [h.be16 (by omega)]

theorem parseAnswer_address_iff (pkt : Mem) (n : Nat) (a : InAddr) :
    parseAnswer pkt n = .address a ↔ ∃ r, Delivers pkt n r ∧ a = addrAt pkt (r + 12) := by
  have hge : 12 ≤ questionEnd pkt n := questionEnd_ge pkt n
  have hiff := fun r => answerWalk_found_iff pkt n n (questionEnd pkt n + 5) r (by omega) (by omega)
  constructor
  · intro h
    simp only [parseAnswer] at h
    split at h
    case isTrue => cases h
    case isFalse hq =>
      split at h
      case isTrue hf =>
        split at h
        case isTrue => cases h
        case isFalse hl =>
          refine ⟨_, ⟨not_not.mp hq, (hiff _).mp (Prod.ext hf.1 rfl), hf.2, not_not.mp hl⟩, ?_⟩
          exact (Answer.address.inj h).symm
      case isFalse => cases h
  · rintro ⟨r, ⟨hq, hs, hr, hl⟩, rfl⟩
    simp only [parseAnswer, (hiff r).mpr hs]
    rw [if_neg (not_not.mpr hq), if_pos ⟨trivial, hr⟩, if_neg (not_not.mpr hl)]

theorem Delivers.congr {n : Nat} {m m' : Mem} (h : AgreeBelow n m m') {r : Nat}
    (hd : Delivers m n r) : Delivers m' n r := by
  obtain ⟨hq, hs, hr, hl⟩ := hd
  have hge : 12 ≤ questionEnd m n := questionEnd_ge m n
  have hend := questionEnd_congr h
  refine ⟨by rw [← hend]; exact (questionOk_congr h _).mp hq, ?_, hr, ?_⟩
  · rw [← hend]
    rw [← answerWalk_found_iff _ _ n _ _ (by omega) (by omega)] at hs ⊢
    rw [← answerWalk_congr h, hs]
  · rw [← hl]
    exact (h.be16 (by omega)).symm

/-- A datagram that is not cut is parsed from the received bytes. -/
theorem parseAnswer_congr {n : Nat} {m m' : Mem} (h : AgreeBelow n m m') (hc : ¬ Cut m n) :
    parseAnswer m n = parseAnswer m' n := by
  have hend := questionEnd_congr h
  simp only [parseAnswer]
  rw [← hend, ← answerWalk_congr h]
  by_cases hq : questionOk m n (questionEnd m n)
  · rw [if_neg (not_not.mpr hq), if_neg (not_not.mpr ((questionOk_congr h _).mp hq))]
    by_cases hf : (answerWalk m n n (questionEnd m n + 5)).1 = true ∧
        (answerWalk m n n (questionEnd m n + 5)).2 + 12 < n
    · rw [if_pos hf, if_pos hf]
      have hlen : recordLen m (answerWalk m n n (questionEnd m n + 5)).2 =
          recordLen m' (answerWalk m n n (questionEnd m n + 5)).2 := h.be16 (by omega)
      rw [hlen]
      split
      · rfl
      · have hge : 12 ≤ questionEnd m n := questionEnd_ge m n
        have hs := (answerWalk_found_iff m n n (questionEnd m n + 5) _ (by omega) (by omega)).mp
          (Prod.ext hf.1 rfl)
        have hd : Delivers m n (answerWalk m n n (questionEnd m n + 5)).2 :=
          ⟨hq, hs, hf.2, by rw [hlen]; exact not_not.mp ‹_›⟩
        have hfull : ¬ n < (answerWalk m n n (questionEnd m n + 5)).2 + 16 := fun hlt =>
          hc ⟨_, hd, hlt⟩
        rw [addrAt, addrAt, h _ (by omega), h _ (by omega), h _ (by omega), h _ (by omega)]
    · rw [if_neg hf, if_neg hf]
  · rw [if_pos hq, if_pos (fun hq' => hq ((questionOk_congr h _).mpr hq'))]

/-- A cut datagram gives another address when the last address byte, which was not received, is
another one. -/
theorem Cut.exists_address_ne {m : Mem} {n : Nat} (hc : Cut m n) :
    ∃ m' a a', AgreeBelow n m m' ∧ parseAnswer m n = .address a ∧
      parseAnswer m' n = .address a' ∧ a ≠ a' := by
  obtain ⟨r, hd, hlt⟩ := hc
  have hagree : AgreeBelow n m (Function.update m (r + 15) (m (r + 15) + 1)) := by
    intro i hi
    rw [Function.update_of_ne (by omega)]
  refine ⟨_, _, _, hagree, (parseAnswer_address_iff _ _ _).mpr ⟨r, hd, rfl⟩,
    (parseAnswer_address_iff _ _ _).mpr ⟨r, hd.congr hagree, rfl⟩, fun h => ?_⟩
  have hlast : m (r + 15) = Function.update m (r + 15) (m (r + 15) + 1) (r + 15) :=
    congrArg InAddr.b3 h
  rw [Function.update_self] at hlast
  have hnat := congrArg UInt8.toNat hlast
  rw [UInt8.toNat_add, show (1 : UInt8).toNat = 1 from rfl] at hnat
  have := (m (r + 15)).toNat_lt
  omega

end Crawler.Dns
