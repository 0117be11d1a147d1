/-
# Crawler.Dns.Names — the forms of a name that the answer walk gets past

The owner of a record is written as labels up to a zero byte, as a pointer of two bytes, or as labels
up to a pointer. `parse_udp` tells two of these apart by one byte: at `0xC0` it takes the name to be
two bytes long, and anything else it takes to end at the next zero byte. So it gets past a name that
has its only zero byte at its end, and past a pointer to one of the first 256 bytes
(`OwnerName.Readable`). Past any other name it reads the type one byte late, finds neither an alias
nor an address, and stops (`ResourceRecord.type_late`).
-/
import Crawler.Dns.Question
import Crawler.Dns.Replies

namespace Crawler.Dns

open Crawler.Lib Crawler.Lib.Ring Crawler.Queue

/-! ## Bytes in memory -/

/-- The bytes `bytes` stand at offset `i`. -/
def Holds (m : Mem) (i : Nat) (bytes : List UInt8) : Prop := bytesAt m i bytes.length = bytes

theorem holds_append {m : Mem} {i : Nat} {xs ys : List UInt8} :
    Holds m i (xs ++ ys) ↔ Holds m i xs ∧ Holds m (i + xs.length) ys := by
  rw [Holds, Holds, Holds, List.length_append, bytesAt_add]
  constructor
  · intro h
    refine List.append_inj h ?_
    rw [bytesAt, List.length_map, List.length_range']
  · rintro ⟨hx, hy⟩
    rw [hx, hy]

theorem holds_cons {m : Mem} {i : Nat} {b : UInt8} {ys : List UInt8} :
    Holds m i (b :: ys) ↔ m i = b ∧ Holds m (i + 1) ys := by
  rw [← List.singleton_append, holds_append]
  exact and_congr_left fun _ => List.singleton_inj

/-- What holds of all bytes that stand somewhere holds there. -/
theorem Holds.forall {m : Mem} {i : Nat} {bytes : List UInt8} (h : Holds m i bytes) {P : UInt8 → Prop}
    (hP : ∀ b ∈ bytes, P b) {j : Nat} (hij : i ≤ j) (hj : j < i + bytes.length) : P (m j) := by
  refine hP _ ?_
  rw [← h, bytesAt]
  refine List.mem_map_of_mem (List.mem_range'_1.mpr ⟨hij, ?_⟩)
  exact hj

/-- A field of two bytes in network order. -/
def be16Bytes (v : Nat) : List UInt8 := [(v / 256).toUInt8, (v % 256).toUInt8]

theorem Holds.be16 {m : Mem} {i v : Nat} (hv : v < 65536) (h : Holds m i (be16Bytes v)) :
    be16 m i = v := by
  obtain ⟨h0, h1⟩ := holds_cons.mp h
  have hhigh : (v / 256).toUInt8.toNat = v / 256 := by
    simp only [UInt8.toNat_ofNat']
    omega
  have hlow : (v % 256).toUInt8.toNat = v % 256 := by simp
  rw [Dns.be16, h0, (holds_cons.mp h1).1, hhigh, hlow]
  omega

/-! ## Owner names and records -/

/-- An owner name: labels, and the offset they go on at, if they do not end with a zero byte. -/
structure OwnerName where
  labels : List CStr
  pointer : Option (Fin 16384)
  labelsOk : ∀ l ∈ labels, LabelOk l

/-- A pointer: two set bits, and an offset of 14 bits. -/
def pointerBytes (offset : Fin 16384) : List UInt8 :=
  [(0xC0 + offset.val / 256).toUInt8, (offset.val % 256).toUInt8]

/-- What a name ends with. -/
def OwnerName.ending (o : OwnerName) : List UInt8 :=
  match o.pointer with
  | none => [0]
  | some offset => pointerBytes offset

/-- A name as it is written. -/
def OwnerName.bytes (o : OwnerName) : List UInt8 := encodeName o.labels ++ o.ending

/-- A record, without its type. -/
structure ResourceRecord where
  owner : OwnerName
  ttl : UInt32
  data : List UInt8
  dataOk : data.length < 65536

/-- What stands behind the owner: type, class, time to live, and the data behind its length. -/
def ResourceRecord.fields (r : ResourceRecord) (type : Nat) : List UInt8 :=
  be16Bytes type ++ (be16Bytes 1 ++ (be16Bytes (r.ttl.toNat / 65536) ++
    (be16Bytes (r.ttl.toNat % 65536) ++ (be16Bytes r.data.length ++ r.data))))

/-- A record of class IN with a type. -/
def ResourceRecord.bytes (r : ResourceRecord) (type : Nat) : List UInt8 :=
  r.owner.bytes ++ r.fields type

/-- No label has a zero byte in it. -/
def OwnerName.Plain (o : OwnerName) : Prop := ∀ l ∈ o.labels, 0 ∉ l

/-- The names that the walk gets past: without zero bytes in labels, and ended by a zero byte, by a
pointer whose second byte is zero, or one that is the whole name and has an offset below 256. -/
structure OwnerName.Readable (o : OwnerName) : Prop where
  plain : o.Plain
  ending : ∀ offset, o.pointer = some offset →
    offset.val % 256 = 0 ∨ (o.labels = [] ∧ offset.val < 256)

/-! ## Getting past a name -/

/-- No byte of written labels is zero, unless a label has it. -/
theorem encodeName_ne_zero {labels : List CStr} (hok : ∀ l ∈ labels, LabelOk l)
    (hplain : ∀ l ∈ labels, 0 ∉ l) : ∀ b ∈ encodeName labels, b ≠ 0 := by
  intro b hb
  obtain ⟨l, hl, hmem⟩ := List.mem_flatMap.mp hb
  rcases List.mem_cons.mp hmem with rfl | hmem
  · intro hzero
    have hnat : l.length % 256 = 0 := by
      rw [← UInt8.toNat_ofNat', ← Nat.toUInt8, hzero]
      rfl
    have hlabel := hok l hl
    rw [LabelOk] at hlabel
    omega
  · exact fun hzero => hplain l hl (hzero ▸ hmem)

/-- The inner loop stops at the first zero byte. -/
theorem skipName_eq {pkt : Mem} {n p z fuel : Nat} (hpz : p ≤ z)
    (hnz : ∀ i, p ≤ i → i < z → pkt i ≠ 0) (hz : pkt z = 0) (hroom : z + 11 < n)
    (hfuel : z ≤ p + fuel) : skipName pkt n fuel p = z := by
  induction fuel generalizing p with
  | zero => exact Nat.le_antisymm hpz hfuel
  | succ fuel ih =>
      rw [skipName]
      rcases Nat.eq_or_lt_of_le hpz with rfl | hlt
      · exact if_neg fun h => h.1 hz
      · rw [if_pos ⟨hnz p (le_refl p) hlt, by omega⟩]
        exact ih hlt (fun i hi => hnz i (Nat.le_of_succ_le hi)) (by omega)

/-- The skip over the name of the question stops at its first zero byte too. -/
theorem skipQname_eq {pkt : Mem} {n p z fuel : Nat} (hpz : p ≤ z)
    (hnz : ∀ i, p ≤ i → i < z → pkt i ≠ 0) (hz : pkt z = 0) (hroom : z ≤ n)
    (hfuel : z ≤ p + fuel) : skipQname pkt n fuel p = z := by
  induction fuel generalizing p with
  | zero => exact Nat.le_antisymm hpz hfuel
  | succ fuel ih =>
      rw [skipQname]
      rcases Nat.eq_or_lt_of_le hpz with rfl | hlt
      · exact if_neg fun h => h.2 hz
      · rw [if_pos ⟨by omega, hnz p (le_refl p) hlt⟩]
        exact ih hlt (fun i hi => hnz i (Nat.le_of_succ_le hi)) (by omega)

/-- At a byte other than `0xC0` the fields are taken to start two bytes before the end of what the
first zero byte ends. -/
theorem recordBase_eq {pkt : Mem} {n p z : Nat} (hfirst : pkt p ≠ 0xC0) (hpz : p ≤ z)
    (hnz : ∀ i, p ≤ i → i < z → pkt i ≠ 0) (hz : pkt z = 0) (hroom : z + 11 < n) :
    recordBase pkt n p = z - 1 := by
  rw [recordBase, if_pos hfirst, skipName_eq hpz hnz hz hroom (by omega)]

/-- A name that is a pointer to one of the first 256 bytes. -/
def OwnerName.Short (o : OwnerName) : Prop :=
  o.labels = [] ∧ ∃ offset, o.pointer = some offset ∧ offset.val < 256

/-- Only a pointer starts with `0xC0`. -/
theorem OwnerName.first_iff {o : OwnerName} {pkt : Mem} {p : Nat} (h : Holds pkt p o.bytes) :
    pkt p = 0xC0 ↔ o.Short := by
  obtain ⟨hlabels, hending⟩ := holds_append.mp h
  rw [OwnerName.Short]
  cases hls : o.labels with
  | cons l labels =>
      -- the first byte is a length
      rw [hls, encodeName, List.flatMap_cons, List.cons_append] at hlabels
      have hfirst := (holds_cons.mp hlabels).1
      have hok := o.labelsOk l (by rw [hls]; exact List.mem_cons_self)
      rw [LabelOk] at hok
      refine ⟨fun hc0 => ?_, fun hshort => absurd hshort.1 (List.cons_ne_nil _ _)⟩
      have hnat := congrArg UInt8.toNat (hfirst.symm.trans hc0)
      simp only [Nat.toUInt8, UInt8.toNat_ofNat'] at hnat
      change l.length % 256 = 192 at hnat
      omega
  | nil =>
      rw [hls] at hending
      change Holds pkt p o.ending at hending
      rw [OwnerName.ending] at hending
      cases hp : o.pointer with
      | none =>
          rw [hp] at hending
          rw [(holds_cons.mp hending).1]
          simp
      | some offset =>
          rw [hp] at hending
          rw [(holds_cons.mp hending).1, ← UInt8.toNat_inj]
          have hlt := offset.isLt
          simp only [Nat.toUInt8, UInt8.toNat_ofNat', Option.some.injEq, true_and, exists_eq_left']
          change (192 + offset.val / 256) % 256 = 192 ↔ offset.val < 256
          omega

theorem pointerBytes_high (offset : Fin 16384) : (0xC0 + offset.val / 256).toUInt8 ≠ 0 := by
  intro hzero
  have hnat := congrArg UInt8.toNat hzero
  have hlt := offset.isLt
  simp only [Nat.toUInt8, UInt8.toNat_ofNat'] at hnat
  change (192 + offset.val / 256) % 256 = 0 at hnat
  omega

theorem OwnerName.Short.length {o : OwnerName} (h : o.Short) : o.bytes.length = 2 := by
  obtain ⟨hlabels, offset, hp, -⟩ := h
  rw [OwnerName.bytes, OwnerName.ending, hlabels, hp]
  rfl

/-- A readable name that does not start with `0xC0` has its only zero byte at its end. -/
theorem OwnerName.Readable.split {o : OwnerName} (h : o.Readable) (hnot : ¬ o.Short) :
    ∃ front, o.bytes = front ++ [0] ∧ ∀ b ∈ front, b ≠ 0 := by
  have hlabels := encodeName_ne_zero o.labelsOk h.plain
  rw [OwnerName.bytes, OwnerName.ending]
  cases hp : o.pointer with
  | none => exact ⟨_, rfl, hlabels⟩
  | some offset =>
      have hzero : offset.val % 256 = 0 :=
        (h.ending offset hp).resolve_right fun ⟨hnil, hlt⟩ => hnot ⟨hnil, offset, hp, hlt⟩
      refine ⟨encodeName o.labels ++ [(0xC0 + offset.val / 256).toUInt8], ?_, fun b hb => ?_⟩
      · rw [List.append_assoc]
        simp only [pointerBytes, hzero]
        rfl
      · rcases List.mem_append.mp hb with hb | hb
        · exact hlabels b hb
        · rw [List.mem_singleton.mp hb]
          exact pointerBytes_high offset

/-- A name that is not readable, though without zero bytes in labels, has no zero byte at all. -/
theorem OwnerName.ne_zero_of_not_readable {o : OwnerName} (hplain : o.Plain) (h : ¬ o.Readable) :
    ¬ o.Short ∧ ∀ b ∈ o.bytes, b ≠ 0 := by
  have hex : ∃ offset, o.pointer = some offset ∧
      ¬ (offset.val % 256 = 0 ∨ (o.labels = [] ∧ offset.val < 256)) := by
    by_contra hno
    exact h ⟨hplain, fun offset hp => by_contra fun hbad => hno ⟨offset, hp, hbad⟩⟩
  obtain ⟨offset, hp, hbad⟩ := hex
  constructor
  · rintro ⟨hnil, offset', hp', hlt⟩
    obtain rfl : offset = offset' := Option.some.inj (hp.symm.trans hp')
    exact hbad (.inr ⟨hnil, hlt⟩)
  · intro b hb
    rw [OwnerName.bytes, OwnerName.ending, hp] at hb
    rcases List.mem_append.mp hb with hb | hb
    · exact encodeName_ne_zero o.labelsOk hplain b hb
    · rcases List.mem_cons.mp hb with rfl | hb
      · exact pointerBytes_high offset
      · rw [List.mem_singleton.mp hb]
        intro hzero
        have hnat := congrArg UInt8.toNat hzero
        simp only [Nat.toUInt8, UInt8.toNat_ofNat'] at hnat
        change offset.val % 256 % 256 = 0 at hnat
        exact hbad (.inl (by omega))

/-- Past a readable name the fields are read where they are. -/
theorem OwnerName.Readable.recordBase {o : OwnerName} (hr : o.Readable) {pkt : Mem} {n p : Nat}
    (hp : 1 ≤ p) (h : Holds pkt p o.bytes) (hroom : p + o.bytes.length + 11 < n) :
    recordBase pkt n p + 2 = p + o.bytes.length := by
  by_cases hshort : o.Short
  · have hfirst := (OwnerName.first_iff h).mpr hshort
    rw [hshort.length, Dns.recordBase, if_neg (not_not.mpr hfirst)]
  · obtain ⟨front, hbytes, hfront⟩ := hr.split hshort
    have hfirst := fun hc0 => hshort ((OwnerName.first_iff h).mp hc0)
    rw [hbytes] at h hroom ⊢
    obtain ⟨hnz, hz⟩ := holds_append.mp h
    rw [List.length_append, List.length_singleton] at hroom ⊢
    rw [recordBase_eq hfirst (Nat.le_add_right p front.length)
      (fun i hi hlt => hnz.forall hfront hi hlt) (holds_cons.mp hz).1 (by omega)]
    omega

/-- Past another name, whose next byte is the high byte of the type, they are read one byte late. -/
theorem OwnerName.recordBase_late {o : OwnerName} (hplain : o.Plain) (hr : ¬ o.Readable) {pkt : Mem}
    {n p : Nat} (h : Holds pkt p o.bytes) (hnext : pkt (p + o.bytes.length) = 0)
    (hroom : p + o.bytes.length + 11 < n) :
    recordBase pkt n p = p + o.bytes.length - 1 := by
  obtain ⟨hshort, hnz⟩ := OwnerName.ne_zero_of_not_readable hplain hr
  exact recordBase_eq (fun hc0 => hshort ((OwnerName.first_iff h).mp hc0)) (Nat.le_add_right p _)
    (fun i hi hlt => h.forall hnz hi hlt) hnext hroom

/-! ## Getting past a record -/

theorem OwnerName.bytes_pos (o : OwnerName) : 1 ≤ o.bytes.length := by
  rw [OwnerName.bytes, OwnerName.ending, List.length_append]
  cases o.pointer with
  | none => exact Nat.le_add_left 1 _
  | some offset => exact Nat.le_add_left_of_le (by decide : 1 ≤ 2)

theorem ResourceRecord.bytes_length (r : ResourceRecord) (type : Nat) :
    (r.bytes type).length = r.owner.bytes.length + 10 + r.data.length := by
  simp only [ResourceRecord.bytes, ResourceRecord.fields, be16Bytes, List.length_append,
    List.length_cons, List.length_nil]
  omega

/-- The fields behind the owner. -/
theorem ResourceRecord.fields_at {r : ResourceRecord} {type : Nat} (htype : type < 256) {pkt : Mem}
    {i : Nat} (h : Holds pkt i (r.fields type)) :
    pkt i = 0 ∧ be16 pkt i = type ∧ be16 pkt (i + 1) = type * 256 ∧
      be16 pkt (i + 8) = r.data.length ∧ Holds pkt (i + 10) r.data := by
  obtain ⟨ht, h⟩ := holds_append.mp h
  obtain ⟨hclass, h⟩ := holds_append.mp h
  obtain ⟨-, h⟩ := holds_append.mp h
  obtain ⟨-, h⟩ := holds_append.mp h
  obtain ⟨hlen, hdata⟩ := holds_append.mp h
  have hhigh : pkt i = 0 := by
    rw [(holds_cons.mp ht).1, Nat.div_eq_of_lt htype]
    rfl
  have hlow : pkt (i + 1) = type.toUInt8 := by
    rw [(holds_cons.mp (holds_cons.mp ht).2).1, Nat.mod_eq_of_lt htype]
  have hnext : pkt (i + 1 + 1) = 0 := (holds_cons.mp hclass).1
  refine ⟨hhigh, ht.be16 (by omega), ?_, hlen.be16 r.dataOk, hdata⟩
  rw [Dns.be16, hlow, hnext, Nat.toUInt8, UInt8.toNat_ofNat', Nat.mod_eq_of_lt htype,
    UInt8.toNat_zero, Nat.add_zero]

/-- The record at `p` with a readable owner is read as it was written. -/
theorem ResourceRecord.read {r : ResourceRecord} (hr : r.owner.Readable) {type : Nat}
    (htype : type < 256) {pkt : Mem} {n p : Nat} (hp : 1 ≤ p) (h : Holds pkt p (r.bytes type))
    (hroom : p + r.owner.bytes.length + 11 < n) :
    recordBase pkt n p + 2 = p + r.owner.bytes.length ∧
      recordType pkt (recordBase pkt n p) = type ∧
      recordLen pkt (recordBase pkt n p) = r.data.length ∧
      Holds pkt (recordBase pkt n p + 12) r.data := by
  obtain ⟨howner, hfields⟩ := holds_append.mp h
  have hbase := hr.recordBase hp howner hroom
  obtain ⟨-, ht, -, hlen, hdata⟩ := r.fields_at htype hfields
  rw [← hbase] at ht hlen hdata
  exact ⟨hbase, ht, hlen, hdata⟩

/-- Behind another owner the type is the low byte of the type and the high byte of the class. -/
theorem ResourceRecord.type_late {r : ResourceRecord} (hplain : r.owner.Plain)
    (hr : ¬ r.owner.Readable) {type : Nat} (htype : type < 256) {pkt : Mem} {n p : Nat}
    (h : Holds pkt p (r.bytes type)) (hroom : p + r.owner.bytes.length + 11 < n) :
    recordType pkt (recordBase pkt n p) = type * 256 := by
  obtain ⟨howner, hfields⟩ := holds_append.mp h
  obtain ⟨hzero, -, hlate, -, -⟩ := r.fields_at htype hfields
  rw [OwnerName.recordBase_late hplain hr howner hzero hroom, recordType, ← hlate]
  have hpos := r.owner.bytes_pos
  congr 1
  omega

/-! ## The answer section -/

/-- The records that lead from the name asked for to an address. -/
def answerBytes (aliases : List ResourceRecord) (answer : ResourceRecord) : List UInt8 :=
  aliases.flatMap (·.bytes 5) ++ answer.bytes 1

theorem answerBytes_cons (r : ResourceRecord) (aliases : List ResourceRecord)
    (answer : ResourceRecord) :
    answerBytes (r :: aliases) answer = r.bytes 5 ++ answerBytes aliases answer := by
  rw [answerBytes, List.flatMap_cons, List.append_assoc]
  rfl

/-- An address record has room for a walk past its owner, and so has every alias before it. -/
theorem answerBytes_room (aliases : List ResourceRecord) {answer : ResourceRecord}
    (haddress : answer.data.length = 4) :
    answer.owner.bytes.length + 14 ≤ (answerBytes aliases answer).length := by
  rw [answerBytes, List.length_append, answer.bytes_length, haddress]
  omega

/-- Over readable owners the walk settles on the address. -/
theorem settlesOn_of_readable {aliases : List ResourceRecord} {answer : ResourceRecord}
    (haddress : answer.data.length = 4) (halias : ∀ r ∈ aliases, r.owner.Readable)
    (hanswer : answer.owner.Readable) {pkt : Mem} {n p : Nat} (hp : 1 ≤ p)
    (h : Holds pkt p (answerBytes aliases answer))
    (hend : p + (answerBytes aliases answer).length ≤ n) :
    ∃ r, SettlesOn pkt n p r ∧ r + 12 < n ∧ recordLen pkt r = 4 ∧ Holds pkt (r + 12) answer.data := by
  have hpos := answer.owner.bytes_pos
  induction aliases generalizing p with
  | nil =>
      have hbytes : Holds pkt p (answer.bytes 1) := h
      have hroom : p + answer.owner.bytes.length + 11 < n := by
        have hlast := answerBytes_room [] haddress
        omega
      obtain ⟨hbase, htype, hlen, hdata⟩ := answer.read hanswer (by decide) hp hbytes hroom
      exact ⟨_, .address (by omega) htype, by omega, hlen.trans haddress, hdata⟩
  | cons r aliases ih =>
      obtain ⟨hr, hrest⟩ := List.forall_mem_cons.mp halias
      have hmore := answerBytes_room aliases haddress
      rw [answerBytes_cons] at h hend
      obtain ⟨hbytes, htail⟩ := holds_append.mp h
      rw [List.length_append, r.bytes_length] at hend
      have hroom : p + r.owner.bytes.length + 11 < n := by omega
      obtain ⟨hbase, htype, hlen, -⟩ := r.read hr (by decide) hp hbytes hroom
      -- the walk goes on where the record ends
      have hnext : recordBase pkt n p + (12 + recordLen pkt (recordBase pkt n p)) =
          p + (r.bytes 5).length := by
        rw [hlen, r.bytes_length]
        omega
      obtain ⟨r', hsettles, hfound⟩ :=
        ih hrest (by omega) htail (by rw [r.bytes_length]; omega)
      exact ⟨r', .cname (by omega) htype (by rw [hnext]; exact hsettles), hfound⟩

/-- A walk that settles somewhere has got past every owner. -/
theorem readable_of_settlesOn {aliases : List ResourceRecord} {answer : ResourceRecord}
    (haddress : answer.data.length = 4) (hplain : ∀ r ∈ aliases, r.owner.Plain)
    (hanswer : answer.owner.Plain) {pkt : Mem} {n p r : Nat} (hp : 1 ≤ p)
    (h : Holds pkt p (answerBytes aliases answer))
    (hend : p + (answerBytes aliases answer).length ≤ n) (hsettles : SettlesOn pkt n p r) :
    (∀ r ∈ aliases, r.owner.Readable) ∧ answer.owner.Readable := by
  induction aliases generalizing p with
  | nil =>
      refine ⟨fun _ hr => (by cases hr), ?_⟩
      by_contra hbad
      have hroom : p + answer.owner.bytes.length + 11 < n := by
        have hlast := answerBytes_room [] haddress
        omega
      have hlate := answer.type_late hanswer hbad (by decide) h hroom
      cases hsettles with
      | address _ htype => rw [hlate] at htype; cases htype
      | cname _ htype _ => rw [hlate] at htype; cases htype
  | cons first aliases ih =>
      obtain ⟨hfirst, hrest⟩ := List.forall_mem_cons.mp hplain
      have hmore := answerBytes_room aliases haddress
      rw [answerBytes_cons] at h hend
      obtain ⟨hbytes, htail⟩ := holds_append.mp h
      rw [List.length_append, first.bytes_length] at hend
      have hroom : p + first.owner.bytes.length + 11 < n := by omega
      have hread : first.owner.Readable := by
        by_contra hbad
        have hlate := first.type_late hfirst hbad (by decide) hbytes hroom
        cases hsettles with
        | address _ htype => rw [hlate] at htype; cases htype
        | cname _ htype _ => rw [hlate] at htype; cases htype
      obtain ⟨hbase, htype, hlen, -⟩ := first.read hread (by decide) hp hbytes hroom
      cases hsettles with
      | address _ haddr =>
          rw [htype] at haddr
          cases haddr
      | cname _ _ hsettles =>
          have hnext : recordBase pkt n p + (12 + recordLen pkt (recordBase pkt n p)) =
              p + (first.bytes 5).length := by
            rw [hlen, first.bytes_length]
            omega
          rw [hnext] at hsettles
          obtain ⟨halias, hlast⟩ :=
            ih hrest (by omega) htail (by rw [first.bytes_length]; omega) hsettles
          exact ⟨List.forall_mem_cons.mpr ⟨hread, halias⟩, hlast⟩

/-! ## Responses -/

/-- A response to a query for the address of `qname`: aliases, then an address, then any bytes. -/
structure Response where
  id : UInt16
  flags : UInt16
  ancount : UInt16
  nscount : UInt16
  arcount : UInt16
  qname : List CStr
  aliases : List ResourceRecord
  owner : OwnerName
  ttl : UInt32
  address : InAddr
  rest : List UInt8
  qnameOk : ∀ l ∈ qname, LabelOk l ∧ 0 ∉ l
  counted : aliases.length < ancount.toNat

/-- The address record. -/
def Response.answer (r : Response) : ResourceRecord where
  owner := r.owner
  ttl := r.ttl
  data := [r.address.b0, r.address.b1, r.address.b2, r.address.b3]
  dataOk := by simp

/-- The header, with the bytes of the id as they were received with the query. -/
def Response.header (r : Response) : List UInt8 :=
  [(r.id.toNat % 256).toUInt8, (r.id.toNat / 256).toUInt8] ++ (be16Bytes r.flags.toNat ++
    (be16Bytes 1 ++ (be16Bytes r.ancount.toNat ++ (be16Bytes r.nscount.toNat ++
      be16Bytes r.arcount.toNat))))

/-- The datagram. -/
def Response.bytes (r : Response) : List UInt8 :=
  r.header ++ (packedQuestion r.qname ++ (answerBytes r.aliases r.answer ++ r.rest))

/-- Every owner on the way to the address is readable. -/
def Response.Readable (r : Response) : Prop :=
  (∀ x ∈ r.aliases, x.owner.Readable) ∧ r.owner.Readable

/-- No owner on the way to the address has a zero byte in a label. -/
def Response.Plain (r : Response) : Prop :=
  (∀ x ∈ r.aliases, x.owner.Plain) ∧ r.owner.Plain

theorem Response.header_at {r : Response} {pkt : Mem} (h : Holds pkt 0 r.header) :
    raw16 pkt 0 = r.id ∧ be16 pkt 4 = 1 ∧ raw16 pkt 6 ≠ 0 := by
  obtain ⟨hid, h⟩ := holds_append.mp h
  obtain ⟨-, h⟩ := holds_append.mp h
  obtain ⟨hone, h⟩ := holds_append.mp h
  obtain ⟨hcount, -⟩ := holds_append.mp h
  refine ⟨?_, hone.be16 (by decide), fun hzero => ?_⟩
  · have hsame : raw16 pkt 0 = raw16 (putRaw16 pkt 0 r.id) 0 := by
      refine raw16_congr ?_ ?_
      · rw [(holds_cons.mp hid).1]
        rfl
      · rw [(holds_cons.mp (holds_cons.mp hid).2).1]
        rfl
    rw [hsame, raw16_putRaw16]
  · have hval : be16 pkt 6 = r.ancount.toNat := hcount.be16 r.ancount.toNat_lt
    have hnat := congrArg UInt16.toNat hzero
    have hhigh := (pkt 6).toNat_lt
    have hlow := (pkt (6 + 1)).toNat_lt
    have hcounted := r.counted
    rw [raw16, UInt16.toNat_ofNat'] at hnat
    change ((pkt 6).toNat + 256 * (pkt (6 + 1)).toNat) % 65536 = 0 at hnat
    rw [Dns.be16] at hval
    omega

/-- The question is skipped up to its end. -/
theorem question_at {labels : List CStr} (hok : ∀ l ∈ labels, LabelOk l ∧ 0 ∉ l) {pkt : Mem} {n : Nat}
    (h : Holds pkt dnsDataOffset (packedQuestion labels))
    (hend : dnsDataOffset + (packedQuestion labels).length ≤ n) :
    questionEnd pkt n + 5 = dnsDataOffset + (packedQuestion labels).length ∧
      questionOk pkt n (questionEnd pkt n) := by
  obtain ⟨hlabels, htail⟩ := holds_append.mp h
  obtain ⟨hz, htype⟩ := holds_cons.mp htail
  have hlength : (packedQuestion labels).length = (encodeName labels).length + 5 :=
    List.length_append
  have hnz := encodeName_ne_zero (fun l hl => (hok l hl).1) (fun l hl => (hok l hl).2)
  have hstop : questionEnd pkt n = dnsDataOffset + (encodeName labels).length :=
    skipQname_eq (Nat.le_add_right _ _) (fun i hi hlt => hlabels.forall hnz hi hlt) hz (by omega)
      (by omega)
  rw [hstop]
  refine ⟨by omega, not_or.mpr ⟨by omega, not_not.mpr ?_⟩⟩
  obtain ⟨h0, h1⟩ := holds_cons.mp htype
  rw [Dns.be16, h0, (holds_cons.mp h1).1]
  rfl

/-- Where the parts of a response stand. -/
theorem Response.parts {r : Response} {pkt : Mem} (h : Holds pkt 0 r.bytes) :
    Holds pkt 0 r.header ∧ questionOk pkt r.bytes.length (questionEnd pkt r.bytes.length) ∧
      Holds pkt (questionEnd pkt r.bytes.length + 5) (answerBytes r.aliases r.answer) ∧
      questionEnd pkt r.bytes.length + 5 + (answerBytes r.aliases r.answer).length ≤
        r.bytes.length := by
  obtain ⟨hheader, htail⟩ := holds_append.mp h
  obtain ⟨hquestion, htail⟩ := holds_append.mp htail
  obtain ⟨hanswers, -⟩ := holds_append.mp htail
  have hlength : r.bytes.length = dnsDataOffset + (packedQuestion r.qname).length +
      (answerBytes r.aliases r.answer).length + r.rest.length := by
    rw [Response.bytes, List.length_append, List.length_append, List.length_append, ← Nat.add_assoc,
      ← Nat.add_assoc]
    rfl
  have hroom : dnsDataOffset + (packedQuestion r.qname).length ≤ r.bytes.length := by omega
  obtain ⟨hend, hok⟩ := question_at r.qnameOk hquestion hroom
  refine ⟨hheader, hok, ?_, ?_⟩
  · rw [hend]
    exact hanswers
  · rw [hend, hlength]
    omega

theorem Response.parseAnswer_of_readable {r : Response} (hr : r.Readable) {pkt : Mem}
    (h : Holds pkt 0 r.bytes) : parseAnswer pkt r.bytes.length = .address r.address := by
  obtain ⟨-, hok, hanswers, hend⟩ := Response.parts h
  obtain ⟨i, hsettles, hreceived, hlen, hdata⟩ :=
    settlesOn_of_readable rfl hr.1 hr.2 (Nat.le_add_left 1 _) hanswers hend
  refine (parseAnswer_address_iff _ _ _).mpr ⟨i, ⟨hok, hsettles, hreceived, hlen⟩, ?_⟩
  obtain ⟨h0, hdata⟩ := holds_cons.mp hdata
  obtain ⟨h1, hdata⟩ := holds_cons.mp hdata
  obtain ⟨h2, hdata⟩ := holds_cons.mp hdata
  obtain ⟨h3, -⟩ := holds_cons.mp hdata
  rw [addrAt, h0, h1, h2, h3]

theorem Response.readable_of_parseAnswer {r : Response} (hplain : r.Plain) {pkt : Mem} {a : InAddr}
    (h : Holds pkt 0 r.bytes) (hans : parseAnswer pkt r.bytes.length = .address a) : r.Readable := by
  obtain ⟨-, -, hanswers, hend⟩ := Response.parts h
  obtain ⟨i, hd, -⟩ := (parseAnswer_address_iff _ _ _).mp hans
  exact readable_of_settlesOn rfl hplain.1 hplain.2 (Nat.le_add_left 1 _) hanswers hend hd.settles

/-- The handler of `q` is called once, with this address. -/
def Handles (s : Resolver) (pkt : Mem) (n : Nat) (q : DnsQuery) (sinAddr : InAddr) : Prop :=
  ∀ garbage rc now, (parseUdp s pkt n garbage rc now).final.calls =
    s.calls ++ [⟨q.handler, q.url, sinAddr⟩]

/-- The query that an id finds is `q`, or one for the same URL and the same handler. -/
def Foremost (s : Resolver) (id : UInt16) (q : DnsQuery) : Prop :=
  ∀ a p, findQuery s id = some a → s.query a = some p → p.handler = q.handler ∧ p.url = q.url

/-- An outstanding query is answered by every response whose owners are all readable, unless an older
query has its id; and by no other one, labels with zero bytes apart. -/
theorem handles_response {s : Resolver} (hr : Reachable resolver s) {a : Addr} {q : DnsQuery}
    (hq : s.query a = some q) {r : Response} (hid : q.id = r.id.toUInt32) {pkt : Mem}
    (hpkt : Holds pkt 0 r.bytes) :
    (Foremost s r.id q ∧ r.Readable → Handles s pkt r.bytes.length q r.address) ∧
      (r.Plain → Handles s pkt r.bytes.length q r.address → Foremost s r.id q ∧ r.Readable) := by
  obtain ⟨xs, hw⟩ := reachable_wellformed hr
  obtain ⟨hraw, hone, hcount⟩ := Response.header_at (Response.parts hpkt).1
  have hcalls : ∀ b p sinAddr garbage rc now, findQuery s r.id = some b → s.query b = some p →
      parseAnswer pkt r.bytes.length = .address sinAddr →
      (parseUdp s pkt r.bytes.length garbage rc now).final.calls =
        s.calls ++ [⟨p.handler, p.url, sinAddr⟩] := by
    intro b p sinAddr garbage rc now hfound hp hans
    have hm : Matches s pkt b := ⟨hone, hraw.symm ▸ hfound, hcount⟩
    obtain ⟨p', hp', hparse⟩ := hm.parseUdp hans garbage rc now
    obtain rfl : p = p' := Option.some.inj (hp.symm.trans hp')
    rw [hparse, (dropQuery_final _ b).1]
    rfl
  constructor
  · rintro ⟨hfore, hread⟩ garbage rc now
    have hlinked : a ∈ xs := (hw.live a).mp (by rw [hq]; rfl)
    have hawaited : Awaited s r.id := ⟨a, q, ⟨xs, hw.ring, hlinked⟩, hq, hid⟩
    obtain ⟨b, hfound⟩ := Option.ne_none_iff_exists'.mp fun hnone =>
      (hw.findQuery_none_iff r.id).mp hnone hawaited
    obtain ⟨p, hp, -⟩ := findQuery_live hfound
    obtain ⟨hhandler, hurl⟩ := hfore b p hfound hp
    rw [hcalls b p r.address garbage rc now hfound hp (Response.parseAnswer_of_readable hread hpkt),
      hhandler, hurl]
  · intro hplain hhandles
    have hcall := hhandles none 0 0
    have haccepts : Accepts s pkt r.bytes.length none 0 0 := by
      refine .inl fun hsame => ?_
      rw [hsame] at hcall
      simp at hcall
    obtain ⟨b, sinAddr, -, hans⟩ := haccepts.matches
    refine ⟨fun b p hfound hp => ?_, Response.readable_of_parseAnswer hplain hpkt hans⟩
    have hsame := (hcalls b p sinAddr none 0 0 hfound hp hans).symm.trans hcall
    have hcalled := List.singleton_inj.mp (List.append_cancel_left hsame)
    exact ⟨congrArg HandlerCall.handler hcalled, congrArg HandlerCall.url hcalled⟩

theorem holds_memOf (bytes : List UInt8) : Holds (memOf bytes) 0 bytes := by
  rw [Holds, bytesAt, ← List.range_eq_range']
  refine List.ext_getElem (by simp) fun i hi hi' => ?_
  rw [List.getElem_map, List.getElem_range, memOf]
  simp [hi']

/-- The name `b`, and then what stands at the offset given. -/
def nameB (offset : Fin 16384) : OwnerName := ⟨[lit "b"], some offset, by decide⟩

/-- The name at the offset given. -/
def nameAt (offset : Fin 16384) : OwnerName := ⟨[], some offset, by decide⟩

/-- A response to the query for `a` whose address record belongs to `owner`. -/
def responseFrom (aliases : List ResourceRecord) (owner : OwnerName)
    (counted : aliases.length < (2 : UInt16).toNat) : Response where
  id := 1
  flags := 0x8180
  ancount := 2
  nscount := 0
  arcount := 0
  qname := [lit "a"]
  aliases := aliases
  owner := owner
  ttl := 60
  address := ⟨10, 6, 6, 6⟩
  rest := []
  qnameOk := by decide
  counted := counted

theorem handles_response_plain :
    let r := responseFrom [] (nameAt 12) (by decide)
    (Foremost askedForA r.id (newQuery 1 ⟨80, [], [97], []⟩ 0) ∧ r.Readable →
        Handles askedForA (memOf r.bytes) r.bytes.length (newQuery 1 ⟨80, [], [97], []⟩ 0) r.address) ∧
      (r.Plain →
        Handles askedForA (memOf r.bytes) r.bytes.length (newQuery 1 ⟨80, [], [97], []⟩ 0) r.address →
        Foremost askedForA r.id (newQuery 1 ⟨80, [], [97], []⟩ 0) ∧ r.Readable) :=
  @handles_response askedForA askedForA_reachable 1 (newQuery 1 ⟨80, [], [97], []⟩ 0) rfl
    (responseFrom [] (nameAt 12) (by decide)) rfl _ (holds_memOf _)

/-- `a` is an alias of `b.a`, written as `b` and a pointer to the question, and this has an address. -/
def aliasedResponse : Response :=
  responseFrom [⟨nameAt 12, 60, [1, 98, 0xC0, 12], by decide⟩] (nameB 12) (by decide)

/-- The query is dropped without a call: the type behind `b` and the pointer is read one byte late. -/
theorem aliasedResponse_not_handles :
    Reachable resolver askedForA ∧
      askedForA.query 1 = some (newQuery 1 ⟨80, [], [97], []⟩ 0) ∧
      (newQuery 1 ⟨80, [], [97], []⟩ 0).id = aliasedResponse.id.toUInt32 ∧
      aliasedResponse.bytes.length ≤ dnsUdpSize ∧
      (parseUdp askedForA (memOf aliasedResponse.bytes) aliasedResponse.bytes.length none 0 0).final.calls
        = [] ∧
      ¬ Handles askedForA (memOf aliasedResponse.bytes) aliasedResponse.bytes.length
        (newQuery 1 ⟨80, [], [97], []⟩ 0) aliasedResponse.address := by
  have hcalls : (parseUdp askedForA (memOf aliasedResponse.bytes) aliasedResponse.bytes.length none 0
      0).final.calls = [] := by rfl
  refine ⟨askedForA_reachable, rfl, rfl, by decide, hcalls, fun h => ?_⟩
  have hnone := hcalls.symm.trans (h none 0 0)
  cases hnone

end Crawler.Dns
