/-
# Crawler.Dns.Walk — the byte walk of `parse_udp`, read by read

The skip over QNAME, the question check and the answer loop of `parse_udp` as a program that learns of
the datagram only by asking for one byte after another. Its loops end, and what they compute is what
`questionEnd`, `questionOk` and `answerWalk` say; every byte asked for is one of the `n` received, and a
turn of the answer loop that goes on moves `p` forward (`parseWalk_inside`).

The guard of the answer loop is tested before the owner name is scanned and not after. It is the inner
loop's own guard that keeps the scan twelve bytes away from the end, and the step back after it that
leaves the length field inside.
-/
import Crawler.Dns.Packet
import Crawler.Lib.Loop

namespace Crawler.Dns

open Crawler.Lib Prog

/-! ## The program -/

/-- A program that asks for bytes of the datagram by their index. -/
abbrev Reads := Prog Nat UInt8

/-- A field in network order. -/
def readField (i : Nat) : Reads Nat := do
  let hi ← send i
  let lo ← send (i + 1)
  return hi.toNat * 256 + lo.toNat

/-- One turn of the skip over QNAME. -/
def qnameTurn (len p : Nat) : Reads (Option (Nat ⊕ Nat)) :=
  if p < len then do
    let c ← send p
    return some (if c ≠ 0 then .inl (p + 1) else .inr p)
  else return some (.inr p)

/-- The question check. -/
def questionCheck (len p : Nat) : Reads Bool :=
  if p + 5 > len then return false
  else do
    let type ← readField (p + 1)
    return type = 1

/-- One turn of the inner loop: `*p` is read before the guard is tested. -/
def nameTurn (len p : Nat) : Reads (Option (Nat ⊕ Nat)) := do
  let c ← send p
  return some (if c ≠ 0 ∧ p + 12 < len then .inl (p + 1) else .inr p)

/-- `--p`; not defined at the start of the datagram. -/
def stepBack : Nat → Option Nat
  | 0 => none
  | p + 1 => some p

/-- The scan of an owner name, up to the step back. -/
def nameScan (len fuel p : Nat) : Reads (Option Nat) := do
  let c ← send p
  if c ≠ 0xC0 then
    let p ← loop (nameTurn len) fuel p
    return p.bind stepBack
  else return some p

/-- One turn of the answer loop. -/
def answerTurn (len fuel p : Nat) : Reads (Option (Nat ⊕ (Bool × Nat))) :=
  if p + 12 < len then do
    match ← nameScan len fuel p with
    | none => return none
    | some p =>
        let type ← readField (p + 2)
        if type = 5 then
          let dlen ← readField (p + 10)
          return some (.inl (p + (12 + dlen)))
        else if type = 1 then return some (.inr (true, p))
        else return some (.inr (false, p))
  else return some (.inr (false, p))

/-- The walk: `none` inside for `goto failed`, else `found` and `p` behind the answer loop. -/
def parseWalk (len fuel : Nat) : Reads (Option (Option (Bool × Nat))) := do
  match ← loop (qnameTurn len) fuel dnsDataOffset with
  | none => return none
  | some p =>
      if ← questionCheck len p then
        let r ← loop (answerTurn len fuel) fuel (p + 5)
        return r.map some
      else return some none

/-! ## What each part reads and computes -/

section

variable {pkt : Mem} {n : Nat}

/-- The program reads received bytes only, and its result is `a`. -/
abbrev Computes {α : Type} (pkt : Mem) (n : Nat) (p : Reads α) (a : α) : Prop :=
  Meets pkt (· < n) p (· = a)

theorem send_computes {i : Nat} (hi : i < n) : Computes pkt n (send i) (pkt i) :=
  Meets.send (C := (· < n)) hi

theorem readField_computes {i : Nat} (hi : i + 1 < n) : Computes pkt n (readField i) (be16 pkt i) := by
  refine (send_computes (Nat.lt_of_succ_lt hi)).bind ?_
  rintro _ rfl
  refine (send_computes hi).bind ?_
  rintro _ rfl
  exact .pure rfl

/-- The skip over QNAME. What is left to skip ends where the whole skip ends; the variant is the
number of bytes ahead. -/
theorem qname_computes {fuel p : Nat} (hfuel : n - p < fuel) :
    Computes pkt n (loop (qnameTurn n) fuel p) (some (skipQname pkt n (n - p) p)) := by
  have hturn : ∀ q, skipQname pkt n (n - q) q = skipQname pkt n (n - p) p →
      TurnMeets pkt (· < n) (fun q => skipQname pkt n (n - q) q = skipQname pkt n (n - p) p)
        (fun q => n - q) (· = skipQname pkt n (n - p) p) q (qnameTurn n q) := by
    intro q hq
    rw [qnameTurn]
    split
    case isTrue hlt =>
      obtain ⟨k, hk⟩ : ∃ k, n - q = k + 1 := ⟨n - q - 1, by omega⟩
      rw [hk, skipQname] at hq
      refine (send_computes hlt).bind ?_
      rintro _ rfl
      by_cases hc : pkt q ≠ 0
      · rw [if_pos ⟨hlt, hc⟩] at hq
        rw [if_pos hc]
        obtain rfl : k = n - (q + 1) := by omega
        exact .pure (.inl ⟨q + 1, rfl, hq, Nat.sub_lt_sub_left hlt (Nat.lt_succ_self q)⟩)
      · rw [if_neg fun hand => hc hand.2] at hq
        rw [if_neg hc]
        exact .pure (.inr ⟨q, rfl, hq⟩)
    case isFalse hge =>
      rw [Nat.sub_eq_zero_of_le (Nat.not_lt.mp hge)] at hq
      exact .pure (.inr ⟨q, rfl, hq⟩)
  obtain ⟨hsent, a, ha, rfl⟩ := Meets.loop hturn rfl hfuel
  exact ⟨hsent, ha⟩

/-- The question check. -/
theorem questionCheck_computes (p : Nat) :
    Computes pkt n (questionCheck n p) (decide (questionOk pkt n p)) := by
  rw [questionCheck]
  split
  case isTrue hgt => exact .pure (by simp [questionOk, hgt])
  case isFalse hle =>
    refine (readField_computes (by omega)).bind ?_
    rintro _ rfl
    exact .pure (by simp [questionOk, hle])

/-- The inner loop, which keeps twelve bytes away from the end. -/
theorem name_computes {fuel p : Nat} (hp : p + 12 < n) (hfuel : n - p < fuel) :
    Computes pkt n (loop (nameTurn n) fuel p) (some (skipName pkt n (n - p) p)) := by
  have hturn : ∀ q, q + 12 ≤ n ∧ skipName pkt n (n - q) q = skipName pkt n (n - p) p →
      TurnMeets pkt (· < n)
        (fun q => q + 12 ≤ n ∧ skipName pkt n (n - q) q = skipName pkt n (n - p) p)
        (fun q => n - q) (· = skipName pkt n (n - p) p) q (nameTurn n q) := by
    rintro q ⟨hle, hq⟩
    obtain ⟨k, hk⟩ : ∃ k, n - q = k + 1 := ⟨n - q - 1, by omega⟩
    rw [hk, skipName] at hq
    refine (send_computes (show q < n by omega)).bind ?_
    rintro _ rfl
    by_cases hc : pkt q ≠ 0 ∧ q + 12 < n
    · rw [if_pos hc] at hq
      rw [if_pos hc]
      obtain rfl : k = n - (q + 1) := by omega
      exact .pure (.inl ⟨q + 1, rfl, ⟨hc.2, hq⟩,
        Nat.sub_lt_sub_left (by omega) (Nat.lt_succ_self q)⟩)
    · rw [if_neg hc] at hq
      rw [if_neg hc]
      exact .pure (.inr ⟨q, rfl, hq⟩)
  obtain ⟨hsent, a, ha, rfl⟩ := Meets.loop hturn ⟨Nat.le_of_lt hp, rfl⟩ hfuel
  exact ⟨hsent, ha⟩

/-- The scan of an owner name behind the header never steps back out of the datagram. -/
theorem nameScan_computes {fuel p : Nat} (hpos : 0 < p) (hp : p + 12 < n) (hfuel : n - p < fuel) :
    Computes pkt n (nameScan n fuel p) (some (recordBase pkt n p)) := by
  rw [recordBase]
  refine (send_computes (show p < n by omega)).bind ?_
  rintro _ rfl
  split
  case isTrue =>
    refine (name_computes hp hfuel).bind ?_
    rintro _ rfl
    obtain ⟨q, hq⟩ : ∃ q, skipName pkt n (n - p) p = q + 1 :=
      ⟨_, (Nat.sub_add_cancel (Nat.le_trans hpos (skipName_bounds pkt n _ p hp).1)).symm⟩
    rw [hq]
    exact .pure rfl
  case isFalse => exact .pure rfl

/-- A turn of the answer loop: what is left to walk ends where the whole walk ends. -/
theorem answerTurn_meets {fuel p : Nat} {r : Bool × Nat} (hn : n < fuel)
    (h : 0 < p ∧ ∃ k, n < k + p + 12 ∧ answerWalk pkt n k p = r) :
    TurnMeets pkt (· < n) (fun p => 0 < p ∧ ∃ k, n < k + p + 12 ∧ answerWalk pkt n k p = r)
      (fun p => n - p) (· = r) p (answerTurn n fuel p) := by
  obtain ⟨hpos, k, hk, hr⟩ := h
  rw [answerTurn]
  split
  case isFalse hge =>
    have hr' : answerWalk pkt n k p = (false, p) := by
      cases k with
      | zero => rfl
      | succ k => rw [answerWalk, if_neg hge]
    exact .pure (.inr ⟨(false, p), rfl, hr'.symm.trans hr⟩)
  case isTrue hlt =>
    obtain ⟨k, rfl⟩ : ∃ j, k = j + 1 := ⟨k - 1, by omega⟩
    have hbounds := recordBase_bounds pkt hlt
    rw [answerWalk, if_pos hlt] at hr
    refine (nameScan_computes hpos hlt (by omega)).bind ?_
    rintro _ rfl
    refine (readField_computes (by omega)).bind ?_
    rintro _ rfl
    split
    case isTrue htype =>
      have htype : recordType pkt (recordBase pkt n p) = 5 := htype
      rw [if_pos htype] at hr
      refine (readField_computes (by omega)).bind ?_
      rintro _ rfl
      exact .pure (.inl ⟨_, rfl, ⟨by omega, k, by omega, hr⟩,
        Nat.sub_lt_sub_left (by omega) (by omega)⟩)
    case isFalse htype =>
      have htype : ¬ recordType pkt (recordBase pkt n p) = 5 := htype
      rw [if_neg htype] at hr
      split
      case isTrue haddr =>
        have haddr : recordType pkt (recordBase pkt n p) = 1 := haddr
        rw [if_pos haddr] at hr
        exact .pure (.inr ⟨_, rfl, hr⟩)
      case isFalse haddr =>
        have haddr : ¬ recordType pkt (recordBase pkt n p) = 1 := haddr
        rw [if_neg haddr] at hr
        exact .pure (.inr ⟨_, rfl, hr⟩)

/-- The answer loop. -/
theorem answer_computes {fuel p : Nat} (hpos : 0 < p) (hn : n < fuel) :
    Computes pkt n (loop (answerTurn n fuel) fuel p) (some (answerWalk pkt n n p)) := by
  have hstart : 0 < p ∧ ∃ k, n < k + p + 12 ∧ answerWalk pkt n k p = answerWalk pkt n n p :=
    ⟨hpos, n, by omega, rfl⟩
  obtain ⟨hsent, a, ha, rfl⟩ := Meets.loop (fun q hq => answerTurn_meets hn hq) hstart
    (Nat.lt_of_le_of_lt (Nat.sub_le n p) hn)
  exact ⟨hsent, ha⟩

/-- What the walk of a datagram ends with. -/
def walkEnd (pkt : Mem) (n : Nat) : Option (Bool × Nat) :=
  if questionOk pkt n (questionEnd pkt n) then
    some (answerWalk pkt n n (questionEnd pkt n + 5))
  else none

/-- What `parse_udp` makes of it. -/
theorem parseAnswer_eq (pkt : Mem) (n : Nat) : parseAnswer pkt n =
    match walkEnd pkt n with
    | none => .failed
    | some (found, p) =>
        if found ∧ p + 12 < n then
          if recordLen pkt p ≠ 4 then .failed else .address (addrAt pkt (p + 12))
        else .notFound := by
  rw [parseAnswer, walkEnd]
  by_cases hq : questionOk pkt n (questionEnd pkt n)
  · rw [if_neg (not_not.mpr hq), if_pos hq]
  · rw [if_pos hq, if_neg hq]

theorem parseWalk_computes {fuel : Nat} (hn : n < fuel) :
    Computes pkt n (parseWalk n fuel) (some (walkEnd pkt n)) := by
  refine (qname_computes (Nat.lt_of_le_of_lt (Nat.sub_le _ _) hn)).bind ?_
  rintro _ rfl
  refine (questionCheck_computes _).bind ?_
  rintro _ rfl
  rw [walkEnd, questionEnd]
  split
  case isTrue hq =>
    rw [if_pos (of_decide_eq_true hq)]
    refine (answer_computes (Nat.succ_pos _) hn).bind ?_
    rintro _ rfl
    exact .pure rfl
  case isFalse hq =>
    rw [if_neg fun hok => hq (decide_eq_true hok)]
    exact .pure rfl

/-- A turn that goes on moves `p` forward. -/
theorem answerTurn_forward {fuel p p' : Nat} (hn : n < fuel)
    (h : (answerTurn n fuel p).result pkt = some (.inl p')) : p < p' := by
  rcases Nat.eq_zero_or_pos p with rfl | hpos
  · -- no walk gets here, since the question lies in front
    rw [answerTurn] at h
    split at h
    case isFalse => cases h
    case isTrue =>
      rw [result_bind] at h
      cases hscan : (nameScan n fuel 0).result pkt with
      | none =>
          rw [hscan] at h
          cases h
      | some q =>
          rw [hscan] at h
          simp only [result_bind] at h
          split at h
          · simp only [result_bind, result_pure, Option.some.injEq, Sum.inl.injEq] at h
            omega
          · split at h <;> cases h
  · have hstart : 0 < p ∧ ∃ k, n < k + p + 12 ∧ answerWalk pkt n k p = answerWalk pkt n n p :=
      ⟨hpos, n, by omega, rfl⟩
    rcases (answerTurn_meets hn hstart).result with ⟨q, hq, -, hlt⟩ | ⟨a, ha, -⟩
    · obtain rfl : p' = q := Sum.inl.inj (Option.some.inj (h.symm.trans hq))
      have hlt : n - p' < n - p := hlt
      omega
    · rw [h] at ha
      cases ha

end

/-- The walk ends inside the datagram. With more turns than bytes both of its loops leave, every byte
read is one of the `n` received, and a turn of the answer loop that goes on moves `p` forward. -/
theorem parseWalk_inside (pkt : Mem) (n : Nat) : ∀ fuel, n < fuel →
    (parseWalk n fuel).result pkt = some (walkEnd pkt n) ∧
      (∀ i ∈ (parseWalk n fuel).sent pkt, i < n) ∧
        ∀ p p', (answerTurn n fuel p).result pkt = some (.inl p') → p < p' :=
  fun _ hn => ⟨(parseWalk_computes hn).result, (parseWalk_computes hn).sent,
    fun _ _ h => answerTurn_forward hn h⟩

/-- The question is for the root, and its one CNAME record claims 65535 bytes of data. -/
def farJump : Mem := fun i =>
  [0, 0, 0, 0, 0, 0, 0, 0, 0, 0, 0, 0, 0, 0, 1, 0, 1, 0xC0, 12, 0, 5, 0, 1, 0, 0, 0, 0, 255, 255].getD i 0

theorem parseWalk_inside_farJump :
    (parseWalk 30 31).result farJump = some (some (false, 65564)) ∧
      (∀ i ∈ (parseWalk 30 31).sent farJump, i < 30) ∧ 17 < 65564 := by
  obtain ⟨hresult, hsent, hforward⟩ := parseWalk_inside farJump 30 31 (by decide)
  exact ⟨hresult.trans (by decide), hsent, hforward 17 65564 (by decide)⟩

end Crawler.Dns
