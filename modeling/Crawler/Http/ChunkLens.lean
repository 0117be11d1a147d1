/-
# Crawler.Http.ChunkLens — the lengths that a chunked body announces

A chunk of `n` bytes is recorded, and the next size line is looked for `n + 2` bytes further, computed
in 32 bits. Where no size line up to the closing one announces 2^32 - 2 bytes or 2^32 - 1, the parser
has jumped over every chunk it has recorded when it begins to copy them: they lie in the received
bytes, and `chunk_sum` has not wrapped (`lensHold_iff`). Where one does, the parser goes on inside the
chunk, whose record reaches beyond them.
-/
import Crawler.Http.Chunked

namespace Crawler.Http

open Crawler.Lib

/-! ## The size lines of a body -/

/-- The lengths that the size lines of `body` announce, up to the closing one, each line being looked
for where a 32-bit jump over the chunk before leads. -/
inductive SizeLines : List UInt8 → List UInt32 → Prop
  | last {line half rest : List UInt8} : 13 ∉ line → 13 ∉ half → 10 ∉ half →
      lineLen (line ++ half) = 0 → SizeLines (line ++ 13 :: (half ++ 10 :: rest)) []
  | chunk {line half rest : List UInt8} {ns : List UInt32} : 13 ∉ line → 13 ∉ half → 10 ∉ half →
      lineLen (line ++ half) ≠ 0 →
      SizeLines (rest.drop (lineLen (line ++ half) + 2).toNat) ns →
      SizeLines (line ++ 13 :: (half ++ 10 :: rest)) (lineLen (line ++ half) :: ns)

/-- No jump over a chunk wraps. -/
def JumpsFit (ns : List UInt32) : Prop := ∀ n ∈ ns, n.toNat + 2 < 2 ^ 32

theorem SizeLines.ne_nil {body : List UInt8} {ns : List UInt32} (h : SizeLines body ns) : body ≠ [] := by
  cases h <;> simp

/-- Where no jump wraps, the chunks announced lie one after another in the body. -/
theorem SizeLines.sum_le {body : List UInt8} {ns : List UInt32} (h : SizeLines body ns)
    (hfit : JumpsFit ns) : (ns.map UInt32.toNat).sum ≤ body.length := by
  induction h with
  | last => exact Nat.zero_le _
  | @chunk line half rest ns _ _ _ _ hnext ih =>
      have hsum := ih fun n hm => hfit n (List.mem_cons_of_mem _ hm)
      have hjump : (lineLen (line ++ half) + 2).toNat = (lineLen (line ++ half)).toNat + 2 := by
        rw [UInt32.toNat_add]
        exact Nat.mod_eq_of_lt (hfit _ List.mem_cons_self)
      have hpos : 0 < (rest.drop (lineLen (line ++ half) + 2).toNat).length :=
        List.length_pos_iff.mpr hnext.ne_nil
      rw [List.length_drop, hjump] at hsum hpos
      simp only [List.map_cons, List.sum_cons, List.length_append, List.length_cons]
      omega

/-! ## What the scanner records -/

/-- A size line up to its LF is read whole. -/
theorem scan_sizeLine {line half : List UInt8} (hline : 13 ∉ line) (hhalf : 13 ∉ half)
    (hlf : 10 ∉ half) (pos : Nat) (rest : List UInt8) :
    scan sizeByte (lineStart pos) (line ++ 13 :: (half ++ 10 :: rest)) =
      .stop (.loop { status := .lenDone, chunkLen := lineLen (line ++ half),
                     pos := pos + (line ++ 13 :: half).length + 1 }) := by
  rw [scan_firstCr hline hhalf hlf]
  rfl

/-- Stopped while or after skipping, the scanner has skipped. -/
theorem scan_skip_stop {mc : HtmlCache} {k read : Nat} {bytes : List UInt8} {q : BodyStop}
    (h : scan bodyByte { mc := mc, chunkLen := 0, skip := k, read := read } bytes = .stop q) :
    scan bodyByte { mc := mc, chunkLen := 0, skip := 0, read := read + k } (bytes.drop k) =
      .stop q := by
  rw [scan_skip] at h
  rcases Nat.lt_or_ge bytes.length k with hlt | hle
  case inr => rwa [Nat.sub_eq_zero_of_le hle, Nat.min_eq_left hle] at h
  case inl =>
    -- all bytes are skipped, and the scanner would go on
    rw [List.drop_eq_nil_of_le (Nat.le_of_lt hlt)] at h
    cases h

/-- The record `mc'` holds the chunks of `mc` and chunks of the lengths `ns`. -/
structure Announced (mc mc' : HtmlCache) (ns : List UInt32) : Prop where
  lens : mc'.chunkQueue.map KeyValue.valueLen = mc.chunkQueue.map KeyValue.valueLen ++ ns
  sum : mc'.chunkSum = ns.foldl (· + ·) mc.chunkSum

/-- The scanner at the start of a size line. -/
def atSizeLine (mc : HtmlCache) (read : Nat) : BodyState :=
  { mc := mc, chunkLen := 0, skip := 0, read := read }

/-- A size line that announces a chunk is recorded, and the scanner goes on behind the jump. -/
theorem scan_announced {mc : HtmlCache} (hstatus : mc.status = .lenDone) {line half : List UInt8}
    (hline : 13 ∉ line) (hhalf : 13 ∉ half) (hlf : 10 ∉ half) (hlen : lineLen (line ++ half) ≠ 0)
    (read : Nat) (rest : List UInt8) :
    scan bodyByte (atSizeLine mc read) (line ++ 13 :: (half ++ 10 :: rest)) =
      scan bodyByte {
        mc := mc.chunk (read + (line ++ 13 :: half).length + 1) (lineLen (line ++ half))
        chunkLen := 0
        skip := (lineLen (line ++ half) + 2).toNat
        read := read + (line ++ 13 :: half).length + 1 } rest := by
  have hsize := scan_sizeLine hline hhalf hlf read rest
  have hrest : (line ++ 13 :: (half ++ 10 :: rest)).drop ((line ++ 13 :: half).length + 1) = rest := by
    have hsplit : line ++ 13 :: (half ++ 10 :: rest) = (line ++ 13 :: half ++ [10]) ++ rest := by simp
    have hlength : (line ++ 13 :: half).length + 1 = (line ++ 13 :: half ++ [10]).length := by
      simp only [List.length_append, List.length_cons, List.length_nil]
    rw [hsplit, hlength, List.drop_left]
  have hpos : read + (line ++ 13 :: half).length + 1 - read = (line ++ 13 :: half).length + 1 := by
    omega
  rw [atSizeLine, scan_line, hstatus, ← lineStart, hsize]
  simp only [bodyLine, if_neg hlen, Scan.more_bind, hpos, hrest, ← hstatus]

/-- The closing size line stops the scanner. -/
theorem scan_closing {mc : HtmlCache} (hstatus : mc.status = .lenDone) {line half : List UInt8}
    (hline : 13 ∉ line) (hhalf : 13 ∉ half) (hlf : 10 ∉ half) (hlen : lineLen (line ++ half) = 0)
    (read : Nat) (rest : List UInt8) :
    scan bodyByte (atSizeLine mc read) (line ++ 13 :: (half ++ 10 :: rest)) =
      .stop (.finished mc (read + (line ++ 13 :: half).length + 1)) := by
  have hsize := scan_sizeLine hline hhalf hlf read rest
  rw [atSizeLine, scan_line, hstatus, ← lineStart, hsize]
  simp only [bodyLine, hlen, if_true, Scan.stop_bind, ← hstatus]

theorem Announced.cons {mc mc' : HtmlCache} {pos : Nat} {n : UInt32} {ns : List UInt32}
    (h : Announced (mc.chunk pos n) mc' ns) : Announced mc mc' (n :: ns) where
  lens := by
    rw [h.lens, HtmlCache.chunk, List.map_append, List.append_assoc]
    rfl
  sum := h.sum

/-- Reading a body with its closing line, the scanner records what the size lines announce. -/
theorem SizeLines.finished {body : List UInt8} {ns : List UInt32} (h : SizeLines body ns)
    {mc : HtmlCache} (hstatus : mc.status = .lenDone) (read : Nat) :
    ∃ mc' pos, scan bodyByte (atSizeLine mc read) body = .stop (.finished mc' pos) ∧
      Announced mc mc' ns := by
  induction h generalizing mc read with
  | last hline hhalf hlf hlen =>
      exact ⟨mc, _, scan_closing hstatus hline hhalf hlf hlen read _, (List.append_nil _).symm, rfl⟩
  | @chunk line half rest ns hline hhalf hlf hlen hnext ih =>
      have hjump : (lineLen (line ++ half) + 2).toNat ≤ rest.length := by
        have hpos := List.length_pos_iff.mpr hnext.ne_nil
        rw [List.length_drop] at hpos
        omega
      have hstatus' : (mc.chunk (read + (line ++ 13 :: half).length + 1)
          (lineLen (line ++ half))).status = .lenDone := hstatus
      obtain ⟨mc', pos, hscan, hann⟩ := ih hstatus' (read + (line ++ 13 :: half).length + 1 +
        (lineLen (line ++ half) + 2).toNat)
      refine ⟨mc', pos, ?_, hann.cons⟩
      rw [scan_announced hstatus hline hhalf hlf hlen, scan_skip, Nat.sub_eq_zero_of_le hjump,
        Nat.min_eq_left hjump]
      exact hscan

/-- A body on which the scanner finishes has size lines up to a closing one. -/
theorem exists_sizeLines {body : List UInt8} {mc mc' : HtmlCache} (hstatus : mc.status = .lenDone)
    {read pos : Nat} (h : scan bodyByte (atSizeLine mc read) body = .stop (.finished mc' pos)) :
    ∃ ns, SizeLines body ns := by
  induction hn : body.length using Nat.strongRecOn generalizing body mc read with
  | ind n ih =>
    have hline := h
    rw [atSizeLine, scan_line, hstatus, ← lineStart] at hline
    rcases hsize : scan sizeByte (lineStart read) body with t | t | t
    · rw [hsize] at hline
      cases hline
    · rw [hsize] at hline
      cases hline
    · obtain ⟨line, half, rest, rfl, h13, hhalf, hlf, -⟩ := scan_loop_line hsize
      by_cases hlen : lineLen (line ++ half) = 0
      · exact ⟨[], .last h13 hhalf hlf hlen⟩
      · rw [scan_announced hstatus h13 hhalf hlf hlen] at h
        have hstatus' : (mc.chunk (read + (line ++ 13 :: half).length + 1)
            (lineLen (line ++ half))).status = .lenDone := hstatus
        have hshort : (rest.drop (lineLen (line ++ half) + 2).toNat).length < n := by
          rw [← hn, List.length_drop, List.length_append, List.length_cons, List.length_append,
            List.length_cons]
          omega
        obtain ⟨ns, hns⟩ := ih _ hshort hstatus' (scan_skip_stop h) rfl
        exact ⟨_, .chunk h13 hhalf hlf hlen hns⟩

/-! ## When the lengths hold -/

/-- The recorded chunks lie in the received bytes, and `chunk_sum` is the sum of their lengths. -/
structure LensExact (b : HttpBuf) (mc : HtmlCache) : Prop where
  inside : ∀ kv ∈ mc.chunkQueue, kv.value.toNat + kv.valueLen.toNat ≤ b.bytes.length
  sum : mc.chunkSum.toNat = (mc.chunkQueue.map fun kv => kv.valueLen.toNat).sum

/-- They do whenever the parser begins to copy the chunks of the body at `pos`. -/
def LensHold (b : HttpBuf) : Prop :=
  ∀ mc pos, scan bodyByte (bodyAt b.pos) (b.bytes.drop b.pos) = .stop (.finished mc pos) →
    LensExact b mc

/-- No size line up to the closing one announces a chunk whose jump wraps. -/
def NoLongLine (body : List UInt8) : Prop := ∀ ns, SizeLines body ns → JumpsFit ns

/-- Chunks that lie in the received bytes can be copied. -/
theorem chunkSlices_inside {b : HttpBuf} {kvs : List KeyValue}
    (h : ∀ kv ∈ kvs, kv.value.toNat + kv.valueLen.toNat ≤ b.bytes.length) :
    ∃ slices, kvs.mapM (chunkSlice b) = some slices := by
  induction kvs with
  | nil => exact ⟨[], rfl⟩
  | cons kv kvs ih =>
      obtain ⟨slices, hslices⟩ := ih fun kv' hm => h kv' (List.mem_cons_of_mem _ hm)
      have hslice : chunkSlice b kv = some (b.slice kv.value.toNat kv.valueLen.toNat) :=
        if_pos (h kv List.mem_cons_self)
      refine ⟨b.slice kv.value.toNat kv.valueLen.toNat :: slices, ?_⟩
      rw [List.mapM_cons, hslice, hslices]
      rfl

/-- Such chunks are copied, neither from beyond the received bytes nor past the buffer made for them. -/
theorem LensExact.gather {b : HttpBuf} {mc : HtmlCache} (h : LensExact b mc) :
    ∃ chunks, gather b mc = some chunks := by
  obtain ⟨slices, hslices⟩ := chunkSlices_inside h.inside
  have hfits : slices.flatten.length ≤ mc.chunkSum.toNat :=
    Nat.le_of_eq ((chunkSlices_length hslices).trans h.sum.symm)
  rw [Http.gather, hslices]
  exact ⟨_, if_pos hfits⟩

theorem foldl_add_toNat (sum : UInt32) (ns : List UInt32) :
    (ns.foldl (· + ·) sum).toNat = (sum.toNat + (ns.map UInt32.toNat).sum) % 2 ^ 32 := by
  induction ns generalizing sum with
  | nil => exact (Nat.mod_eq_of_lt sum.toNat_lt).symm
  | cons n ns ih =>
      rw [List.foldl_cons, ih, UInt32.toNat_add, List.map_cons, List.sum_cons, Nat.mod_add_mod,
        Nat.add_assoc]

/-- What the scanner has recorded when it finishes is what the size lines announce. -/
theorem finished_announced {b : HttpBuf} {mc : HtmlCache} {pos : Nat}
    (h : scan bodyByte (bodyAt b.pos) (b.bytes.drop b.pos) = .stop (.finished mc pos)) :
    ∃ ns, SizeLines (b.bytes.drop b.pos) ns ∧ Announced (bodyAt b.pos).mc mc ns := by
  have hstatus : (bodyAt b.pos).mc.status = .lenDone := rfl
  obtain ⟨ns, hns⟩ := exists_sizeLines hstatus h
  obtain ⟨mc', pos', hscan, hann⟩ := hns.finished hstatus b.pos
  cases h.symm.trans hscan
  exact ⟨ns, hns, hann⟩

/-- The lengths hold where no jump over a chunk wraps. -/
theorem lensHold_of_noLongLine {b : HttpBuf} (hlen : (b.bytes.drop b.pos).length < 2 ^ 31)
    (h : NoLongLine (b.bytes.drop b.pos)) : LensHold b := by
  intro mc pos hscan
  obtain ⟨ns, hns, hann⟩ := finished_announced hscan
  have hfit := h ns hns
  have hlens : mc.chunkQueue.map KeyValue.valueLen = ns := hann.lens
  constructor
  · intro kv hm
    have hends := scan_ends (k := b.pos) ⟨rfl, fun _ hm => by cases hm⟩ hscan kv hm
    have hkv : kv.valueLen.toNat + 2 < 2 ^ 32 := hfit _ (hlens ▸ List.mem_map_of_mem hm)
    have hpos : b.pos + (b.bytes.drop b.pos).length = b.bytes.length := by
      have := List.length_pos_iff.mpr hns.ne_nil
      rw [List.length_drop] at this ⊢
      omega
    rw [hpos] at hends
    exact hends.resolve_right (by omega)
  · have hsum : ((mc.chunkQueue.map fun kv => kv.valueLen.toNat)).sum = (ns.map UInt32.toNat).sum := by
      rw [← hlens, List.map_map]
      rfl
    have hle := hns.sum_le hfit
    have hzero : (bodyAt b.pos).mc.chunkSum.toNat = 0 := rfl
    rw [hsum, hann.sum, foldl_add_toNat, hzero, Nat.zero_add, Nat.mod_eq_of_lt (by omega)]

/-- A call on a body whose lengths hold overruns nothing. -/
theorem AtBody.call_some (inflateGzip : HttpBuf → HttpBuf → Int × HttpBuf) {client : HttpClient}
    {hc : HeadCache} {b : HttpBuf} {body : List UInt8} (h : AtBody client hc b body)
    (hchunk : hc.chunkFlag = true) (hhold : LensHold b) :
    ∃ r, httpParseHtml inflateGzip client = some r := by
  rw [h.call_eq inflateGzip hchunk]
  rcases hscan : scan bodyByte (bodyAt b.pos) body with s | ⟨mc, pos⟩ | ⟨mc, pos⟩
  · exact ⟨_, rfl⟩
  · exact ⟨_, rfl⟩
  · obtain ⟨chunks, hgather⟩ := (hhold mc pos (h.body ▸ hscan)).gather
    exact ⟨_, by rw [bodyEnd, hgather, Option.map_some]⟩

/-- The recorded chunks lie in the received bytes and `chunk_sum` is exact, in every body on which the
parser begins to copy them, when no size line announces a chunk whose jump wraps. In a buffer of less
than 4 GiB - 2 they do only then. -/
theorem lensHold_iff (b : HttpBuf) (hlen : (b.bytes.drop b.pos).length < 2 ^ 31) :
    (NoLongLine (b.bytes.drop b.pos) → LensHold b) ∧
      (b.bytes.length + 2 < 2 ^ 32 → LensHold b → NoLongLine (b.bytes.drop b.pos)) := by
  refine ⟨lensHold_of_noLongLine hlen, fun hshort hhold ns hns n hm => ?_⟩
  have hstatus : (bodyAt b.pos).mc.status = .lenDone := rfl
  obtain ⟨mc, pos, hscan, hann⟩ := hns.finished hstatus b.pos
  have hlens : mc.chunkQueue.map KeyValue.valueLen = ns := hann.lens
  obtain ⟨kv, hkv, rfl⟩ := List.mem_map.mp (hlens ▸ hm : n ∈ mc.chunkQueue.map KeyValue.valueLen)
  have hinside := (hhold mc pos hscan).inside kv hkv
  omega

theorem lensHold_iff_mixed :
    (NoLongLine (mixedRecv.bytes.drop mixedRecv.pos) → LensHold mixedRecv) ∧
      (mixedRecv.bytes.length + 2 < 2 ^ 32 →
        LensHold mixedRecv → NoLongLine (mixedRecv.bytes.drop mixedRecv.pos)) :=
  lensHold_iff mixedRecv (by decide)

/-- A size line of eight `f`s: the parser goes on one byte further, and copies 4 GiB. -/
theorem longLine_not_lensHold : ¬ LensHold { bytes := lit "ffffffff\r\nx0\r\n\r\n" } := by
  intro hhold
  have hscan : scan bodyByte (bodyAt 0) (lit "ffffffff\r\nx0\r\n\r\n") =
      .stop (.finished
        { start := 11, chunkSum := 0xffffffff,
          chunkQueue := [{ value := 10, valueLen := 0xffffffff }] } 14) := by rfl
  have hinside := (hhold _ _ hscan).inside _ List.mem_cons_self
  revert hinside
  decide

end Crawler.Http
