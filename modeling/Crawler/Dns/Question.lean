/-
# Crawler.Dns.Question — the question that a query packet asks

A name is written as labels, each behind its length byte, up to a zero byte; `readMessage` reads a
packet as a name server does. `pack_udp` writes the labels of any host in one pass, each length byte
when its label has ended (`packUdp_spec`). The packet asks a well-formed question exactly when no
label is empty or longer than 63 bytes and the host not longer than 253 (`asksOne_iff`), and it fits
its buffer when the host is not longer than 4078 bytes. `dns_query` checks neither.
-/
import Crawler.Dns.Resolver

namespace Crawler.Dns

/-! ## Reading a message -/

/-- The labels up to the zero byte, each of 1 to 63 bytes, and the bytes after it. -/
def readName : Nat → List UInt8 → Option (List CStr × List UInt8)
  | 0, _ => none
  | _ + 1, [] => none
  | fuel + 1, n :: bytes =>
      if n = 0 then some ([], bytes)
      else if n ≤ 63 ∧ n.toNat ≤ bytes.length then
        (readName fuel (bytes.drop n.toNat)).map fun r => (bytes.take n.toNat :: r.1, r.2)
      else none

/-- The size of a name with its length bytes and its zero byte. -/
def nameSize : List CStr → Nat
  | [] => 1
  | l :: labels => l.length + 1 + nameSize labels

/-- A question: a name, a type and a class. -/
structure Question where
  name : List CStr
  qtype : Nat
  qclass : Nat
  deriving DecidableEq, Repr

/-- A field in network order. -/
def word (high low : UInt8) : Nat := high.toNat * 256 + low.toNat

/-- A question with a name of at most 255 bytes, and the bytes after it. -/
def readQuestion (bytes : List UInt8) : Option (Question × List UInt8) :=
  match readName bytes.length bytes with
  | some (name, t0 :: t1 :: c0 :: c1 :: rest) =>
      if nameSize name ≤ 255 then some (⟨name, word t0 t1, word c0 c1⟩, rest) else none
  | _ => none

/-- A message with its first question. -/
structure Message where
  id : Nat
  flags : Nat
  qdcount : Nat
  ancount : Nat
  nscount : Nat
  arcount : Nat
  question : Question
  rest : List UInt8
  deriving DecidableEq, Repr

/-- A message, every field of its header in network order. -/
def readMessage : List UInt8 → Option Message
  | i0 :: i1 :: f0 :: f1 :: q0 :: q1 :: a0 :: a1 :: n0 :: n1 :: r0 :: r1 :: bytes =>
      (readQuestion bytes).map fun q => {
        id := word i0 i1, flags := word f0 f1, qdcount := word q0 q1, ancount := word a0 a1
        nscount := word n0 n1, arcount := word r0 r1, question := q.1, rest := q.2 }
  | _ => none

/-! ## Writing names -/

/-- Labels behind their length bytes, which are cut to 8 bits. -/
def encodeName (labels : List CStr) : List UInt8 := labels.flatMap fun l => l.length.toUInt8 :: l

/-- A label that a name may have. -/
def LabelOk (l : CStr) : Prop := 1 ≤ l.length ∧ l.length ≤ 63

instance (l : CStr) : Decidable (LabelOk l) := by unfold LabelOk; infer_instance

theorem encodeName_cons (l : CStr) (labels : List CStr) (rest : List UInt8) :
    encodeName (l :: labels) ++ rest = l.length.toUInt8 :: (l ++ (encodeName labels ++ rest)) := by
  rw [encodeName, List.flatMap_cons, List.cons_append, List.cons_append, List.append_assoc]
  rfl

theorem encodeName_length (labels : List CStr) : (encodeName labels).length + 1 = nameSize labels := by
  induction labels with
  | nil => rfl
  | cons l labels ih =>
      rw [encodeName] at ih ⊢
      rw [List.flatMap_cons, List.length_append, List.length_cons, nameSize]
      omega

/-- A name that has been read is as long as its labels say, and they are labels it may have. -/
theorem readName_spec {fuel : Nat} {bytes rest : List UInt8} {name : List CStr}
    (h : readName fuel bytes = some (name, rest)) :
    bytes.length = nameSize name + rest.length ∧ ∀ l ∈ name, LabelOk l := by
  induction fuel generalizing bytes name rest with
  | zero => cases h
  | succ fuel ih =>
      cases bytes with
      | nil => cases h
      | cons n bytes =>
          rw [readName] at h
          split_ifs at h with hzero hlabel
          · cases h
            refine ⟨?_, fun l hl => (by cases hl)⟩
            rw [List.length_cons, nameSize]
            exact Nat.add_comm _ _
          · obtain ⟨⟨labels, rest'⟩, hread, heq⟩ := Option.map_eq_some_iff.mp h
            cases heq
            obtain ⟨hlen, hlabels⟩ := ih hread
            have htake : (bytes.take n.toNat).length = n.toNat := by
              rw [List.length_take]
              exact Nat.min_eq_left hlabel.2
            have hpos : n.toNat ≠ 0 := fun h0 => hzero (UInt8.toNat_inj.mp h0)
            have hle : n.toNat ≤ 63 := UInt8.le_iff_toNat_le.mp hlabel.1
            have hroom := hlabel.2
            constructor
            · show (n :: bytes).length = nameSize (bytes.take n.toNat :: labels) + rest'.length
              rw [List.length_drop] at hlen
              rw [nameSize, List.length_cons, htake]
              omega
            · refine List.forall_mem_cons.mpr ⟨?_, hlabels⟩
              rw [LabelOk, htake]
              omega

/-- Reading labels that have been written gives them back, or goes wrong at the first one that no name
may have: at an empty one the name ends early. -/
theorem readName_encodeName {fuel : Nat} {labels name : List CStr} {tail rest : List UInt8}
    (hshort : ∀ l ∈ labels, l.length < 256)
    (h : readName fuel (encodeName labels ++ 0 :: tail) = some (name, rest)) :
    (name = labels ∧ rest = tail) ∨ tail.length < rest.length := by
  induction labels generalizing fuel name rest with
  | nil =>
      cases fuel with
      | zero => cases h
      | succ fuel =>
          cases h
          exact .inl ⟨rfl, rfl⟩
  | cons l labels ih =>
      obtain ⟨hl, hrest⟩ := List.forall_mem_cons.mp hshort
      have hnat : l.length.toUInt8.toNat = l.length := by
        rw [Nat.toUInt8, UInt8.toNat_ofNat', Nat.mod_eq_of_lt hl]
      cases fuel with
      | zero => cases h
      | succ fuel =>
          rw [encodeName_cons, readName] at h
          split_ifs at h with hzero hlabel
          · -- an empty label is taken for the end
            cases h
            refine .inr ?_
            simp only [List.length_append, List.length_cons]
            omega
          · rw [hnat, List.drop_left, List.take_left] at h
            obtain ⟨⟨name', rest'⟩, hread, heq⟩ := Option.map_eq_some_iff.mp h
            cases heq
            exact (ih hrest hread).imp_left fun ⟨hname, htail⟩ => ⟨congrArg (l :: ·) hname, htail⟩

/-- Labels that a name may have are read back. -/
theorem readName_of_labelsOk {labels : List CStr} (h : ∀ l ∈ labels, LabelOk l) (rest : List UInt8)
    {fuel : Nat} (hfuel : labels.length < fuel) :
    readName fuel (encodeName labels ++ 0 :: rest) = some (labels, rest) := by
  induction labels generalizing fuel with
  | nil =>
      obtain ⟨fuel, rfl⟩ := Nat.exists_eq_succ_of_ne_zero (Nat.ne_of_gt hfuel)
      rfl
  | cons l labels ih =>
      obtain ⟨hl, hrest⟩ := List.forall_mem_cons.mp h
      obtain ⟨fuel, rfl⟩ := Nat.exists_eq_succ_of_ne_zero (Nat.ne_of_gt (Nat.zero_lt_of_lt hfuel))
      have hle := hl.2
      have hnat : l.length.toUInt8.toNat = l.length := by
        rw [Nat.toUInt8, UInt8.toNat_ofNat', Nat.mod_eq_of_lt (by omega)]
      have hne : l.length.toUInt8 ≠ 0 := by
        intro hzero
        rw [hzero] at hnat
        exact absurd hl.1 (by rw [← hnat]; decide)
      have hlabel : l.length.toUInt8 ≤ 63 ∧
          l.length.toUInt8.toNat ≤ (l ++ (encodeName labels ++ 0 :: rest)).length := by
        rw [UInt8.le_iff_toNat_le, hnat, List.length_append]
        exact ⟨hl.2, Nat.le_add_right _ _⟩
      rw [encodeName_cons, readName, if_neg hne, if_pos hlabel, hnat, List.drop_left, List.take_left,
        ih hrest (Nat.lt_of_succ_lt_succ hfuel)]
      rfl

/-! ## When a question can be read -/

/-- The labels of a host: what stands between its dots. -/
def hostLabels (host : CStr) : List CStr := host.splitOn 46

/-- A host that a name can be written of. -/
def HostOk (host : CStr) : Prop := (∀ l ∈ hostLabels host, LabelOk l) ∧ host.length ≤ 253

theorem intercalate_length (labels : List CStr) (h : labels ≠ []) :
    (([46] : CStr).intercalate labels).length + 2 = nameSize labels := by
  induction labels with
  | nil => exact absurd rfl h
  | cons l labels ih =>
      cases labels with
      | nil =>
          rw [List.intercalate_singleton]
          rfl
      | cons l' labels =>
          have hrest := ih (List.cons_ne_nil _ _)
          rw [nameSize, List.intercalate_cons_cons, List.length_append, List.length_append,
            List.length_singleton]
          omega

/-- The dots of a host take the places of all length bytes but one. -/
theorem hostLabels_size (host : CStr) : nameSize (hostLabels host) = host.length + 2 := by
  have hne : hostLabels host ≠ [] := List.splitOn_ne_nil 46 host
  rw [← intercalate_length _ hne, hostLabels, List.intercalate_splitOn]

theorem length_lt_nameSize (labels : List CStr) : labels.length < nameSize labels := by
  induction labels with
  | nil => exact Nat.lt_succ_self 0
  | cons l labels ih =>
      rw [List.length_cons, nameSize]
      omega

theorem label_length_le {labels : List CStr} {l : CStr} (h : l ∈ labels) :
    l.length + 1 < nameSize labels := by
  induction labels with
  | nil => cases h
  | cons l' labels ih =>
      have hpos := length_lt_nameSize labels
      rw [nameSize]
      rcases List.mem_cons.mp h with rfl | h
      · omega
      · exact Nat.lt_add_left _ (ih h)

/-- What `pack_udp` writes behind the header for the labels `labels`. -/
def packedQuestion (labels : List CStr) : List UInt8 := encodeName labels ++ 0 :: [0, 1, 0, 1]

theorem packedQuestion_length (labels : List CStr) :
    (packedQuestion labels).length = nameSize labels + 4 := by
  rw [packedQuestion, List.length_append, ← encodeName_length]
  rfl

/-- The labels read back are those written, when the question takes all the bytes. -/
theorem readQuestion_packed {labels : List CStr} {q : Question}
    (h : readQuestion (packedQuestion labels) = some (q, [])) :
    q.name = labels ∧ (∀ l ∈ labels, LabelOk l) ∧ nameSize labels ≤ 255 := by
  rw [readQuestion] at h
  split at h
  case h_1 name t0 t1 c0 c1 rest hread =>
    split_ifs at h with hsize
    cases h
    obtain ⟨hlen, hlabels⟩ := readName_spec hread
    have hwritten := packedQuestion_length labels
    have hshort : ∀ l ∈ labels, l.length < 256 := by
      intro l hl
      have hlabel := label_length_le hl
      simp only [List.length_cons, List.length_nil] at hlen
      omega
    rcases readName_encodeName hshort hread with ⟨rfl, -⟩ | hlonger
    · exact ⟨rfl, hlabels, hsize⟩
    · simp at hlonger
  case h_2 => cases h

/-- The question packed for labels can be read up to its end exactly when a name may have them. -/
theorem readQuestion_packed_iff (labels : List CStr) :
    readQuestion (packedQuestion labels) = some (⟨labels, 1, 1⟩, []) ↔
      (∀ l ∈ labels, LabelOk l) ∧ nameSize labels ≤ 255 := by
  constructor
  · exact fun h => (readQuestion_packed h).2
  · rintro ⟨hlabels, hsize⟩
    have hfuel : labels.length < (packedQuestion labels).length := by
      rw [packedQuestion_length]
      exact Nat.lt_add_right 4 (length_lt_nameSize labels)
    have hread : readName (packedQuestion labels).length (packedQuestion labels) =
        some (labels, [0, 1, 0, 1]) := readName_of_labelsOk hlabels _ hfuel
    rw [readQuestion, hread]
    exact if_pos hsize

/-! ## What `pack_udp` writes -/

/-- The `n` bytes from offset `i` on. -/
def bytesAt (m : Mem) (i n : Nat) : List UInt8 := (List.range' i n).map m

theorem bytesAt_add (m : Mem) (i j k : Nat) :
    bytesAt m i (j + k) = bytesAt m i j ++ bytesAt m (i + j) k := by
  rw [bytesAt, bytesAt, bytesAt, ← List.map_append, List.range'_append_1]

theorem bytesAt_one (m : Mem) (i : Nat) : bytesAt m i 1 = [m i] := rfl

/-- A byte written elsewhere. -/
theorem bytesAt_update {m : Mem} {i n j : Nat} (h : j < i ∨ i + n ≤ j) (v : UInt8) :
    bytesAt (Function.update m j v) i n = bytesAt m i n := by
  refine List.map_congr_left fun k hk => Function.update_of_ne ?_ v m
  have hrange := List.mem_range'_1.mp hk
  omega

/-- A byte written right behind others. -/
theorem bytesAt_write (m : Mem) (n : Nat) (v : UInt8) :
    bytesAt (Function.update m n v) 0 (n + 1) = bytesAt m 0 n ++ [v] := by
  rw [bytesAt_add, bytesAt_one, bytesAt_update (.inr (Nat.le_of_eq (Nat.zero_add n))), Nat.zero_add,
    Function.update_self]

/-- The loop has written `done`, has left out the length byte of the label it is in, and has written
`cur` behind that. -/
structure Wrote (w : Packing) (done cur : List UInt8) : Prop where
  chunkLen : w.chunkLen = done.length
  p : w.p = done.length + 1 + cur.length
  written : bytesAt w.pkt 0 done.length = done
  pending : bytesAt w.pkt (done.length + 1) cur.length = cur

/-- With the length byte written, the label stands behind what was written before. -/
theorem Wrote.close {w : Packing} {done cur : List UInt8} (h : Wrote w done cur) :
    bytesAt (Function.update w.pkt w.chunkLen w.labelLen) 0 w.p =
      done ++ cur.length.toUInt8 :: cur := by
  have hlen : w.labelLen = cur.length.toUInt8 := by
    rw [Packing.labelLen, h.p, h.chunkLen]
    congr 1
    omega
  have hcur : bytesAt (Function.update w.pkt done.length cur.length.toUInt8) (done.length + 1)
      cur.length = cur := by
    rw [bytesAt_update (.inl (Nat.lt_succ_self _)), h.pending]
  rw [h.p, h.chunkLen, hlen, bytesAt_add, bytesAt_write, h.written, Nat.zero_add, hcur,
    List.append_assoc]
  rfl

/-- A byte of a label. -/
theorem Wrote.put {w : Packing} {done cur : List UInt8} (h : Wrote w done cur) {c : UInt8}
    (hdot : c ≠ 46) (hnul : c ≠ 0) : Wrote (w.put c) done (cur ++ [tolower c]) := by
  have hput : w.put c =
      { pkt := Function.update w.pkt w.p (tolower c), chunkLen := w.chunkLen, p := w.p + 1 } := by
    simp only [Packing.put, if_neg hdot, if_neg hnul]
  rw [hput]
  refine ⟨h.chunkLen, ?_, ?_, ?_⟩
  · rw [List.length_append, List.length_singleton, ← Nat.add_assoc, ← h.p]
  · rw [bytesAt_update (.inr (by rw [h.p]; omega)), h.written]
  · show bytesAt (Function.update w.pkt w.p (tolower c)) (done.length + 1)
      (cur ++ [tolower c]).length = cur ++ [tolower c]
    rw [List.length_append, List.length_singleton, bytesAt_add, bytesAt_one,
      bytesAt_update (.inr (Nat.le_of_eq h.p.symm)), h.pending, ← h.p, Function.update_self]

/-- A whole label. -/
theorem Wrote.label {w : Packing} {done cur : List UInt8} (h : Wrote w done cur) {l : CStr}
    (hdot : 46 ∉ l) (hnul : 0 ∉ l) :
    Wrote (l.foldl Packing.put w) done (cur ++ l.map tolower) := by
  induction l generalizing w cur with
  | nil => simpa using h
  | cons c l ih =>
      have hnext := ih (h.put (List.ne_of_not_mem_cons hdot).symm (List.ne_of_not_mem_cons hnul).symm)
        (List.not_mem_of_not_mem_cons hdot) (List.not_mem_of_not_mem_cons hnul)
      simpa using hnext

/-- A dot ends the label. -/
theorem Wrote.dot {w : Packing} {done cur : List UInt8} (h : Wrote w done cur) :
    Wrote (w.put 46) (done ++ cur.length.toUInt8 :: cur) [] := by
  have hlen : (done ++ cur.length.toUInt8 :: cur).length = w.p := by
    rw [h.p, List.length_append, List.length_cons]
    omega
  refine ⟨hlen.symm, ?_, ?_, rfl⟩
  · rw [hlen]
    rfl
  · rw [hlen]
    exact h.close

/-- The NUL behind the host ends the last label, and is the zero byte behind it. -/
theorem Wrote.nul {w : Packing} {done cur : List UInt8} (h : Wrote w done cur) :
    (w.put 0).p = w.p + 1 ∧
      bytesAt (w.put 0).pkt 0 (w.p + 1) = done ++ cur.length.toUInt8 :: cur ++ [0] := by
  have hlt : w.chunkLen < w.p := by
    rw [h.chunkLen, h.p]
    omega
  have hput : w.put 0 = {
      pkt := Function.update (Function.update w.pkt w.chunkLen w.labelLen) w.p 0
      chunkLen := w.chunkLen, p := w.p + 1 } := by
    have hcomm := Function.update_comm hlt.ne' (0 : UInt8) w.labelLen w.pkt
    rw [← hcomm]
    rfl
  rw [hput]
  exact ⟨rfl, by rw [bytesAt_write, h.close]⟩

/-- The loop over a host writes its labels, each behind its length byte. -/
theorem Wrote.host {w : Packing} {done : List UInt8} (h : Wrote w done []) {labels : List CStr}
    (hne : labels ≠ []) (hplain : ∀ l ∈ labels, 46 ∉ l ∧ 0 ∉ l) :
    let w' := (([46] : CStr).intercalate labels ++ [0]).foldl Packing.put w
    w'.p = done.length + nameSize labels ∧
      bytesAt w'.pkt 0 w'.p = done ++ encodeName (labels.map (·.map tolower)) ++ [0] := by
  induction labels generalizing w done with
  | nil => exact absurd rfl hne
  | cons l labels ih =>
      obtain ⟨⟨hdot, hnul⟩, hrest⟩ := List.forall_mem_cons.mp hplain
      have hlabel := h.label hdot hnul
      rw [List.nil_append] at hlabel
      cases labels with
      | nil =>
          obtain ⟨hp, hbytes⟩ := hlabel.nul
          have hhost : ([46] : CStr).intercalate [l] = l := by simp
          simp only [hhost, List.foldl_append, List.foldl_cons, List.foldl_nil]
          refine ⟨?_, ?_⟩
          · rw [hp, hlabel.p, List.length_map]
            simp only [nameSize]
            omega
          · rw [hp, hbytes]
            simp [encodeName]
      | cons l' labels =>
          have hhost : ([46] : CStr).intercalate (l :: l' :: labels) ++ [0] =
              l ++ 46 :: (([46] : CStr).intercalate (l' :: labels) ++ [0]) := by
            rw [List.intercalate_cons_cons]
            simp
          obtain ⟨hp, hbytes⟩ := ih hlabel.dot (List.cons_ne_nil _ _) hrest
          rw [hhost, List.foldl_append, List.foldl_cons]
          refine ⟨?_, ?_⟩
          · rw [hp, List.length_append, List.length_cons, List.length_map]
            simp only [nameSize]
            omega
          · rw [hbytes]
            simp [encodeName]

/-- No label of a host has a dot in it, or a byte that the host has not. -/
theorem hostLabels_plain {host l : CStr} (hl : l ∈ hostLabels host) :
    46 ∉ l ∧ ∀ c ∈ l, c ∈ host := by
  induction host generalizing l with
  | nil =>
      have hnil : l = [] := by simpa [hostLabels] using hl
      subst hnil
      exact ⟨List.not_mem_nil, fun c hc => (by cases hc)⟩
  | cons b host ih =>
      rw [hostLabels, List.splitOn_cons_eq_if_modifyHead] at hl
      by_cases hdot : b = 46
      · rw [if_pos (by simpa using hdot)] at hl
        rcases List.mem_cons.mp hl with rfl | hl
        · exact ⟨List.not_mem_nil, fun c hc => (by cases hc)⟩
        · exact ⟨(ih hl).1, fun c hc => List.mem_cons_of_mem b ((ih hl).2 c hc)⟩
      · rw [if_neg (by simpa using hdot)] at hl
        obtain ⟨first, rest, hlabels⟩ := List.exists_cons_of_ne_nil (List.splitOn_ne_nil 46 host)
        rw [hlabels, List.modifyHead_cons] at hl
        rcases List.mem_cons.mp hl with rfl | hl
        · -- the first label goes on
          have hfirst := ih (l := first) (by rw [hostLabels, hlabels]; exact List.mem_cons_self)
          refine ⟨List.not_mem_cons_of_ne_of_not_mem (Ne.symm hdot) hfirst.1, ?_⟩
          exact List.forall_mem_cons.mpr ⟨List.mem_cons_self, fun c hc =>
            List.mem_cons_of_mem b (hfirst.2 c hc)⟩
        · have hlater := ih (l := l) (by rw [hostLabels, hlabels]; exact List.mem_cons_of_mem _ hl)
          exact ⟨hlater.1, fun c hc => List.mem_cons_of_mem b (hlater.2 c hc)⟩

/-- The twelve bytes before the question. The id stands as it is stored, low byte first. -/
def packetHeader (id : UInt16) : List UInt8 :=
  [(id.toNat % 256).toUInt8, (id.toNat / 256).toUInt8, 1, 0, 0, 1, 0, 0, 0, 0, 0, 0]

/-- The labels of a host as `pack_udp` writes them. -/
def lowerLabels (host : CStr) : List CStr := (hostLabels host).map (·.map tolower)

theorem nameSize_map (labels : List CStr) (f : UInt8 → UInt8) :
    nameSize (labels.map (·.map f)) = nameSize labels := by
  induction labels with
  | nil => rfl
  | cons l labels ih => rw [List.map_cons, nameSize, nameSize, ih, List.length_map]

theorem lowerLabels_size (host : CStr) : nameSize (lowerLabels host) = host.length + 2 := by
  rw [lowerLabels, nameSize_map, hostLabels_size]

theorem lowerLabels_ok (host : CStr) :
    (∀ l ∈ lowerLabels host, LabelOk l) ↔ ∀ l ∈ hostLabels host, LabelOk l := by
  rw [lowerLabels, List.forall_mem_map]
  simp only [LabelOk, List.length_map]

/-- The packet of a host: the header, and the question for its labels in lower case. -/
theorem packUdp_spec (pkt : Mem) (id : UInt16) {host : CStr} (hnul : 0 ∉ host) :
    (packUdp pkt id host).2 = host.length + 18 ∧
      bytesAt (packUdp pkt id host).1 0 (packUdp pkt id host).2 =
        packetHeader id ++ packedQuestion (lowerLabels host) := by
  have hne : hostLabels host ≠ [] := List.splitOn_ne_nil 46 host
  have hplain : ∀ l ∈ hostLabels host, 46 ∉ l ∧ 0 ∉ l := fun l hl =>
    ⟨(hostLabels_plain hl).1, fun h0 => hnul ((hostLabels_plain hl).2 0 h0)⟩
  have hstart : ∀ m : Mem, bytesAt m 0 12 = packetHeader id →
      Wrote ⟨m, dnsDataOffset, dnsDataOffset + 1⟩ (packetHeader id) [] :=
    fun m hm => ⟨rfl, rfl, hm, rfl⟩
  have hloop := fun m hm => (hstart m hm).host hne hplain
  rw [hostLabels, List.intercalate_splitOn, ← hostLabels, hostLabels_size] at hloop
  obtain ⟨hp, hbytes⟩ := hloop _ (by rfl :
    bytesAt (putBe16 (putBe16 (putBe16 (putBe16 (putBe16 (putRaw16 pkt 0 id) 2 0x0100) 4 1) 6 0) 8 0)
      10 0) 0 12 = packetHeader id)
  constructor
  · rw [packUdp, hp]
    show 12 + (host.length + 2) + 4 = host.length + 18
    omega
  · rw [packUdp]
    simp only
    rw [bytesAt_write, bytesAt_write, bytesAt_write, bytesAt_write, hbytes, packedQuestion]
    simp [lowerLabels]

/-! ## The packet as a message -/

/-- The bytes of the packet that `pack_udp` builds. -/
def packedBytes (pkt : Mem) (id : UInt16) (host : CStr) : List UInt8 :=
  bytesAt (packUdp pkt id host).1 0 (packUdp pkt id host).2

/-- An id with its two bytes exchanged. -/
def exchanged (id : UInt16) : Nat := id.toNat % 256 * 256 + id.toNat / 256

/-- A query with this id for the address of these labels, recursion desired, and nothing behind it. -/
def queryMessage (id : Nat) (labels : List CStr) : Message where
  id := id
  flags := 0x0100
  qdcount := 1
  ancount := 0
  nscount := 0
  arcount := 0
  question := ⟨labels.map (·.map tolower), 1, 1⟩
  rest := []

/-- The host of the labels `labels`. -/
def hostOf (labels : List CStr) : CStr := ([46] : CStr).intercalate labels

/-- Labels that a host is made of. -/
def HostLabel (l : CStr) : Prop := LabelOk l ∧ 46 ∉ l ∧ 0 ∉ l

instance (l : CStr) : Decidable (HostLabel l) := by unfold HostLabel; infer_instance

theorem hostLabels_hostOf {labels : List CStr} (hne : labels ≠ []) (h : ∀ l ∈ labels, HostLabel l) :
    hostLabels (hostOf labels) = labels :=
  List.splitOn_intercalate 46 (fun l hl => (h l hl).2.1) hne

theorem hostOf_plain {labels : List CStr} (h : ∀ l ∈ labels, HostLabel l) : 0 ∉ hostOf labels := by
  induction labels with
  | nil => exact List.not_mem_nil
  | cons l labels ih =>
      obtain ⟨hl, hrest⟩ := List.forall_mem_cons.mp h
      cases labels with
      | nil =>
          rw [hostOf, List.intercalate_singleton]
          exact hl.2.2
      | cons l' labels =>
          rw [hostOf, List.intercalate_cons_cons, List.mem_append, List.mem_append]
          rintro ((h0 | h0) | h0)
          · exact hl.2.2 h0
          · exact absurd h0 (by decide)
          · exact ih hrest h0

/-- A header in front of a question. -/
theorem readMessage_packetHeader (id : UInt16) (bytes : List UInt8) :
    readMessage (packetHeader id ++ bytes) = (readQuestion bytes).map fun q => {
      id := exchanged id, flags := 0x0100, qdcount := 1, ancount := 0, nscount := 0, arcount := 0
      question := q.1, rest := q.2 } := by
  have hv : id.toNat < 65536 := id.toNat_lt
  have hlow : (id.toNat % 256).toUInt8.toNat = id.toNat % 256 := by simp
  have hhigh : (id.toNat / 256).toUInt8.toNat = id.toNat / 256 := by
    simp only [UInt8.toNat_ofNat']
    omega
  have hid : word (id.toNat % 256).toUInt8 (id.toNat / 256).toUInt8 = exchanged id := by
    rw [word, hlow, hhigh, exchanged]
  rw [← hid]
  rfl

/-- A message read from the packet of a host with labels that a name may have: its labels in lower
case, and its id as the bytes stand in memory. -/
theorem readMessage_packedBytes (pkt : Mem) (id : UInt16) {labels : List CStr} (hne : labels ≠ [])
    (hlabels : ∀ l ∈ labels, HostLabel l) (hlen : (hostOf labels).length ≤ 253) :
    readMessage (packedBytes pkt id (hostOf labels)) = some (queryMessage (exchanged id) labels) ∧
      raw16 (packUdp pkt id (hostOf labels)).1 0 = id := by
  refine ⟨?_, packUdp_id pkt id _⟩
  obtain ⟨-, hbytes⟩ := packUdp_spec pkt id (hostOf_plain hlabels)
  have hlower : lowerLabels (hostOf labels) = labels.map (·.map tolower) := by
    rw [lowerLabels, hostLabels_hostOf hne hlabels]
  have hok : ∀ l ∈ lowerLabels (hostOf labels), LabelOk l := by
    rw [lowerLabels_ok, hostLabels_hostOf hne hlabels]
    exact fun l hl => (hlabels l hl).1
  have hsize : nameSize (lowerLabels (hostOf labels)) ≤ 255 := by
    rw [lowerLabels_size]
    omega
  have hread := (readQuestion_packed_iff _).mpr ⟨hok, hsize⟩
  rw [packedBytes, hbytes, readMessage_packetHeader, hread, hlower]
  rfl

theorem readMessage_packedBytes_twoLabels :
    readMessage (packedBytes (fun _ => 0) 0x0102 (lit "Ab.c")) =
        some (queryMessage 0x0201 [lit "Ab", lit "c"]) ∧
      raw16 (packUdp (fun _ => 0) 0x0102 (lit "Ab.c")).1 0 = 0x0102 :=
  @readMessage_packedBytes (fun _ => 0) 0x0102 [lit "Ab", lit "c"] (by decide) (by decide) (by decide)

/-- The id is not stored in network order: id 1 is read as 256. -/
theorem readMessage_packedBytes_exchanged :
    (∀ l ∈ [lit "a"], HostLabel l) ∧ (hostOf [lit "a"]).length ≤ 253 ∧
      readMessage (packedBytes (fun _ => 0) 1 (hostOf [lit "a"])) =
        some (queryMessage 256 [lit "a"]) ∧
      readMessage (packedBytes (fun _ => 0) 1 (hostOf [lit "a"])) ≠
        some (queryMessage 1 [lit "a"]) := by
  decide

/-! ## The room that a packet needs -/

theorem Packing.put_p (w : Packing) (c : UInt8) : (w.put c).p = w.p + 1 := by
  rw [Packing.put]
  split <;> rfl

/-- Every byte of a host moves the loop on by one byte, dot or not; nothing is written from its
offset on. -/
theorem Packing.foldl_above {w : Packing} (hw : w.chunkLen < w.p) (cs : List UInt8) :
    (cs.foldl Packing.put w).p = w.p + cs.length ∧
      ∀ i, w.p + cs.length ≤ i → (cs.foldl Packing.put w).pkt i = w.pkt i := by
  induction cs generalizing w with
  | nil => exact ⟨rfl, fun _ _ => rfl⟩
  | cons c cs ih =>
      have hput := Packing.put_p w c
      obtain ⟨hp, habove⟩ := ih (Packing.put_frame hw c).1
      rw [hput] at hp habove
      refine ⟨?_, fun i hi => ?_⟩
      · rw [List.foldl_cons, hp, List.length_cons]
        omega
      · rw [List.length_cons] at hi
        rw [List.foldl_cons, habove i (by omega), Packing.put]
        split_ifs <;> simp only [] <;> repeat rw [Function.update_of_ne (by omega)]

/-- A packet is 18 bytes longer than its host, and no byte is written behind its end. -/
theorem packUdp_room (pkt : Mem) (id : UInt16) (host : CStr) :
    (packUdp pkt id host).2 = host.length + 18 ∧
      ∀ i, host.length + 18 ≤ i → (packUdp pkt id host).1 i = pkt i := by
  have hloop := fun m : Mem => Packing.foldl_above (w := ⟨m, dnsDataOffset, dnsDataOffset + 1⟩)
    (Nat.lt_succ_self _) (host ++ [0])
  simp only [List.length_append, List.length_singleton, dnsDataOffset] at hloop
  simp only [packUdp, dnsDataOffset]
  refine ⟨?_, fun i hi => ?_⟩
  · rw [(hloop _).1]
    omega
  · rw [(hloop _).1]
    repeat rw [Function.update_of_ne (by omega)]
    rw [(hloop _).2 i (by omega)]
    simp only [putBe16, putRaw16]
    repeat rw [Function.update_of_ne (by omega)]

/-- `pack_udp` writes below `DNS_UDP_SIZE` only, whatever the buffer holds, and returns a length that
is no larger. -/
def PackFits (id : UInt16) (host : CStr) : Prop :=
  ∀ pkt, (∀ i, dnsUdpSize ≤ i → (packUdp pkt id host).1 i = pkt i) ∧
    (packUdp pkt id host).2 ≤ dnsUdpSize

/-- The packet fits its buffer exactly for the hosts of at most 4078 bytes, of which `dns_query` lets
three lengths more pass. -/
theorem packFits_iff (id : UInt16) (host : CStr) :
    PackFits id host ↔ host.length ≤ dnsUdpSize - 18 := by
  constructor
  · intro h
    have hlen := (h fun _ => 0).2
    rw [(packUdp_room _ id host).1] at hlen
    exact Nat.le_sub_of_add_le hlen
  · intro hlen pkt
    have hroom : host.length + 18 ≤ dnsUdpSize := Nat.add_le_of_le_sub (by decide) hlen
    obtain ⟨hlen', habove⟩ := packUdp_room pkt id host
    exact ⟨fun i hi => habove i (hroom.trans hi), hlen'.trans_le hroom⟩

/-- A host that passes the check by far. -/
def longHost : CStr := List.replicate 4079 97

/-- Its packet is one byte too long. -/
theorem longHost_not_packFits :
    longHost.length < dnsUdpSize - dnsHeaderSize ∧ ∀ id, ¬ PackFits id longHost := by
  have hlength : longHost.length = 4079 := List.length_replicate
  refine ⟨by rw [hlength]; decide, fun id h => ?_⟩
  have hlen := (h fun _ => 0).2
  rw [(packUdp_room _ id longHost).1, hlength] at hlen
  exact absurd hlen (by decide)

/-! ## Which queries ask a question -/

/-- There is a question for the labels of the host. -/
def HasQuestion (host : CStr) : Prop :=
  ∃ bytes, readQuestion bytes = some (⟨lowerLabels host, 1, 1⟩, [])

theorem hostOk_iff (host : CStr) :
    HostOk host ↔ (∀ l ∈ lowerLabels host, LabelOk l) ∧ nameSize (lowerLabels host) ≤ 255 := by
  rw [HostOk, lowerLabels_ok, lowerLabels_size]
  exact and_congr_right fun _ => by omega

theorem hasQuestion_iff (host : CStr) : HasQuestion host ↔ HostOk host := by
  rw [hostOk_iff]
  constructor
  · rintro ⟨bytes, h⟩
    rw [readQuestion] at h
    split at h
    case h_1 name t0 t1 c0 c1 rest hread =>
      split_ifs at h with hsize
      have hname : name = lowerLabels host := congrArg Question.name (Prod.mk.inj (Option.some.inj h)).1
      rw [← hname]
      exact ⟨(readName_spec hread).2, hsize⟩
    case h_2 => cases h
  · exact fun h => ⟨_, (readQuestion_packed_iff _).mpr h⟩

/-- A packet has one well-formed question for an internet address behind its header, and ends with
it. -/
def AsksOne (packet : List UInt8) : Prop :=
  ∃ name, readQuestion (packet.drop dnsDataOffset) = some (⟨name, 1, 1⟩, [])

/-- The packet of a host asks one question exactly when there is one for it. -/
theorem asksOne_iff (pkt : Mem) (id : UInt16) {host : CStr} (hnul : 0 ∉ host) :
    AsksOne (packedBytes pkt id host) ↔ HostOk host := by
  have hbytes : (packedBytes pkt id host).drop dnsDataOffset = packedQuestion (lowerLabels host) := by
    rw [packedBytes, (packUdp_spec pkt id hnul).2]
    rfl
  rw [AsksOne, hbytes, hostOk_iff, ← readQuestion_packed_iff]
  constructor
  · rintro ⟨name, h⟩
    have hname : name = lowerLabels host := (readQuestion_packed h).1
    rw [h, hname]
  · exact fun h => ⟨_, h⟩

/-- What `dns_query` may do for a host: a packet that it sends asks one question, and a host that
there is no question for is refused before anything happens. -/
structure AsksWell (s : Resolver) (url : HttpUrl) (handler : Addr) (rc : Int) (now : UInt32) :
    Prop where
  asks : ∀ packet, (step s (.query url handler rc now)).final.sent = s.sent ++ [packet] →
    AsksOne packet
  refuses : ¬ HasQuestion url.host → dnsQuery s url handler rc now = .ok (-1, s)

/-- A query for a host that is neither too long nor cached is sent. -/
theorem dnsQuery_sent {s : Resolver} {url : HttpUrl} (hlen : url.host.length < dnsUdpSize - dnsHeaderSize)
    (hcache : findCache s.cache url.host = none) (handler : Addr) (rc : Int) (now : UInt32) :
    (step s (.query url handler rc now)).final.sent =
      s.sent ++ [packedBytes (fun _ => 0) (s.id + 1) url.host] := by
  have hpacket : (newQuery (s.id + 1) url handler).packet =
      packedBytes (fun _ => 0) (s.id + 1) url.host := by
    rw [DnsQuery.packet, List.range_eq_range']
    rfl
  rw [← hpacket, step, dnsQuery, if_neg (Nat.not_le.mpr hlen), hcache]
  by_cases hrc : rc < 0
  · simp only [if_pos hrc]
    rfl
  · simp only [if_neg hrc]
    split <;> rfl

/-- A refused host. -/
theorem dnsQuery_refused {s : Resolver} {url : HttpUrl}
    (hlen : dnsUdpSize - dnsHeaderSize ≤ url.host.length) (handler : Addr) (rc : Int) (now : UInt32) :
    dnsQuery s url handler rc now = .ok (-1, s) := by
  rw [dnsQuery, if_pos hlen]

/-- In any state a query behaves well exactly when its host can be asked for or is too long for the
check: nothing looks at the labels. -/
theorem asksWell_iff {url : HttpUrl} (hnul : 0 ∉ url.host) (s : Resolver) (handler : Addr) (rc : Int)
    (now : UInt32) :
    AsksWell s url handler rc now ↔
      HostOk url.host ∨ dnsUdpSize - dnsHeaderSize ≤ url.host.length := by
  constructor
  · rintro ⟨hasks, hrefuses⟩
    by_contra hbad
    obtain ⟨hhost, hlen⟩ := not_or.mp hbad
    have hshort := Nat.not_le.mp hlen
    cases hcache : findCache s.cache url.host with
    | none =>
        -- the packet is sent as it is
        have hsent := dnsQuery_sent hshort hcache handler rc now
        exact hhost ((asksOne_iff _ _ hnul).mp (hasks _ hsent))
    | some c =>
        -- the handler is called with an address that cannot have been asked for
        have hrefused := hrefuses fun hq => hhost ((hasQuestion_iff _).mp hq)
        rw [dnsQuery, if_neg hlen, hcache] at hrefused
        have hzero : (0 : Int) = -1 := congrArg Prod.fst (Except.ok.inj hrefused)
        exact absurd hzero (by decide)
  · intro hgood
    by_cases hlen : dnsUdpSize - dnsHeaderSize ≤ url.host.length
    · refine ⟨fun packet h => ?_, fun _ => dnsQuery_refused hlen handler rc now⟩
      rw [step, dnsQuery_refused hlen] at h
      exact absurd h (by simp [Except.map, Step.final])
    · have hhost : HostOk url.host := hgood.resolve_right hlen
      refine ⟨fun packet h => ?_, fun hno => absurd ((hasQuestion_iff _).mpr hhost) hno⟩
      cases hcache : findCache s.cache url.host with
      | none =>
          rw [dnsQuery_sent (Nat.not_le.mp hlen) hcache] at h
          rw [← List.singleton_inj.mp (List.append_cancel_left h)]
          exact (asksOne_iff _ _ hnul).mpr hhost
      | some c =>
          rw [step, dnsQuery, if_neg hlen, hcache] at h
          exact absurd h (by simp [Except.map, Step.final])

theorem asksWell_iff_plain :
    AsksWell dnsInit ⟨80, lit "http", lit "a.b", lit "/"⟩ 0 21 0 ↔
      HostOk (lit "a.b") ∨ dnsUdpSize - dnsHeaderSize ≤ (lit "a.b").length :=
  asksWell_iff (by decide) dnsInit 0 21 0

/-- A host with a dot at its end. -/
def dottedUrl : HttpUrl := ⟨80, lit "http", lit "a.", lit "/"⟩

/-- The name ends at the empty label: the type is read too early, and a byte is left over. -/
theorem dottedUrl_not_asksWell :
    0 ∉ dottedUrl.host ∧
      (step dnsInit (.query dottedUrl 0 20 0)).final.sent =
        dnsInit.sent ++ [[1, 0, 1, 0, 0, 1, 0, 0, 0, 0, 0, 0, 1, 97, 0, 0, 0, 1, 0, 1]] ∧
      readQuestion [1, 97, 0, 0, 0, 1, 0, 1] = some (⟨[lit "a"], 0, 256⟩, [1]) ∧
      ¬ AsksWell dnsInit dottedUrl 0 20 0 := by
  have hsent : (step dnsInit (.query dottedUrl 0 20 0)).final.sent =
      dnsInit.sent ++ [[1, 0, 1, 0, 0, 1, 0, 0, 0, 0, 0, 0, 1, 97, 0, 0, 0, 1, 0, 1]] := by rfl
  have hread : readQuestion [1, 97, 0, 0, 0, 1, 0, 1] = some (⟨[lit "a"], 0, 256⟩, [1]) := by decide
  refine ⟨by decide, hsent, hread, fun h => ?_⟩
  obtain ⟨name, hname⟩ := h.asks _ hsent
  exact absurd (hread.symm.trans hname) (by simp)

end Crawler.Dns
