/-
# Crawler.Http.HtmlCuts — which bodies can be cut anywhere

Every way of cutting a chunked body is seen as one call on the whole exactly when the body does not
start with a size line that announces a chunk (`cutsAgree_iff`): such a line can be cut before its LF,
and the parser then takes the body for an empty one. A chunked body that is never cut inside the
digits of a size line is read as it is (`htmlFeed_eq_whole`), and so is one of known length, wherever
it is cut.
-/
import Crawler.Http.HtmlResume
import Mathlib.Tactic.Ring

namespace Crawler.Http

open Crawler.Lib

/-! ## Bodies that do not start with a chunk -/

/-- `t` has seen a tail of the digits `s` has seen. -/
def LenTail (s t : SizeState) : Prop :=
  s.status = t.status ∧ ∃ k, t.chunkLen.toNat = s.chunkLen.toNat % 16 ^ k

/-- Two ends of a size line, of all its digits and of a tail of them. -/
inductive StopTail : SizeStop → SizeStop → Prop
  | error {s t : SizeState} : LenTail s t → StopTail (.error s) (.error t)
  | loop {s t : SizeState} : LenTail s t → StopTail (.loop s) (.loop t)

theorem hexDigit_lt (c : UInt8) : (hexDigit c).toNat < 16 := by
  have hc : c.toUInt32.toNat = c.toNat := UInt8.toNat_toUInt32 c
  unfold hexDigit
  split_ifs with h0 h1 h2
  all_goals
    simp only [UInt8.le_iff_toNat_le, UInt8.toNat_ofNat] at *
    simp only [UInt32.toNat_sub, UInt32.toNat_add, UInt32.toNat_ofNat, hc]
    omega

/-- A digit shifted in, as arithmetic. -/
theorem shift_toNat (v d : UInt32) : ((v <<< 4) + d).toNat = (v.toNat * 16 + d.toNat) % 2 ^ 32 := by
  rw [UInt32.toNat_add, UInt32.toNat_shiftLeft, Nat.shiftLeft_eq]
  exact Nat.mod_add_mod _ _ _

/-- Cutting to the last `k` digits and to 32 bits, in either order. -/
theorem mod_mod_comm (x k : Nat) : x % 2 ^ 32 % 16 ^ k = x % 16 ^ k % 2 ^ 32 := by
  have hpow : 16 ^ k = 2 ^ (4 * k) := by rw [Nat.pow_mul]
  rw [hpow]
  rcases Nat.le_total (4 * k) 32 with hle | hle
  · have hdvd : 2 ^ (4 * k) ∣ 2 ^ 32 := Nat.pow_dvd_pow 2 hle
    have hlt : x % 2 ^ (4 * k) < 2 ^ 32 :=
      Nat.lt_of_lt_of_le (Nat.mod_lt _ (Nat.two_pow_pos _)) (Nat.pow_le_pow_right Nat.two_pos hle)
    rw [Nat.mod_mod_of_dvd x hdvd, Nat.mod_eq_of_lt hlt]
  · have hdvd : 2 ^ 32 ∣ 2 ^ (4 * k) := Nat.pow_dvd_pow 2 hle
    have hlt : x % 2 ^ 32 < 2 ^ (4 * k) :=
      Nat.lt_of_lt_of_le (Nat.mod_lt _ (Nat.two_pow_pos _)) (Nat.pow_le_pow_right Nat.two_pos hle)
    rw [Nat.mod_mod_of_dvd x hdvd, Nat.mod_eq_of_lt hlt]

/-- The last `k + 1` digits are the last `k` of what stood before and the new one. -/
theorem tail_digit (v k : Nat) {d : Nat} (hd : d < 16) :
    v % 16 ^ k * 16 + d = (v * 16 + d) % 16 ^ (k + 1) := by
  have hlt : v % 16 ^ k < 16 ^ k := Nat.mod_lt _ (Nat.pow_pos (by decide))
  have hsplit : v * 16 + d = v % 16 ^ k * 16 + d + 16 ^ (k + 1) * (v / 16 ^ k) := by
    calc v * 16 + d = (v % 16 ^ k + 16 ^ k * (v / 16 ^ k)) * 16 + d := by rw [Nat.mod_add_div]
      _ = v % 16 ^ k * 16 + d + 16 ^ (k + 1) * (v / 16 ^ k) := by ring
  have hsmall : v % 16 ^ k * 16 + d < 16 ^ (k + 1) := by
    rw [Nat.pow_succ]
    omega
  rw [hsplit, Nat.add_mul_mod_self_left, Nat.mod_eq_of_lt hsmall]

/-- A digit more on both sides. -/
theorem tail_shift {u v d : UInt32} {k : Nat} (h : u.toNat = v.toNat % 16 ^ k)
    (hd : d.toNat < 16) :
    ((u <<< 4) + d).toNat = ((v <<< 4) + d).toNat % 16 ^ (k + 1) := by
  rw [shift_toNat, shift_toNat, h, tail_digit v.toNat k hd, mod_mod_comm]

theorem sizeByte_tail (s t : SizeState) (c : UInt8) (h : LenTail s t) :
    Scan.Rel LenTail StopTail (sizeByte s c) (sizeByte t c) := by
  obtain ⟨hstatus, k, hlen⟩ := h
  unfold sizeByte
  simp only
  split_ifs
  case pos => exact .more ⟨hstatus, k, hlen⟩
  case pos =>
    rw [← hstatus]
    cases s.status with
    | lenDone => exact .more ⟨rfl, k, hlen⟩
    | lenHalf => exact .stop (.error ⟨rfl, k, hlen⟩)
  case pos =>
    rw [← hstatus]
    cases s.status with
    | lenDone => exact .more ⟨rfl, k, hlen⟩
    | lenHalf => exact .stop (.loop ⟨rfl, k, hlen⟩)
  case neg => exact .more ⟨hstatus, k + 1, tail_shift hlen (hexDigit_lt c)⟩

/-- The scanner that knows the whole size line, and the one that knows a part of it. -/
inductive LineBody (base : List UInt8) : Scan SizeState SizeStop → Scan BodyState BodyStop → Prop
  | more {t : SizeState} {v : UInt32} {pos : Nat} :
      LineBody base (.more t) (.more {
        mc := { firstCache base with status := t.status }, chunkLen := v, skip := 0, read := pos })
  | error {t : SizeState} {mc : HtmlCache} {pos : Nat} :
      LineBody base (.stop (.error t)) (.stop (.error mc pos))
  | finished {t : SizeState} {status : HtmlStatus} {pos : Nat} :
      LineBody base (.stop (.loop t)) (.stop (.finished { firstCache base with status := status } pos))

/-- What is seen after a size line that announces no chunk. -/
def lineSeen : Scan SizeState SizeStop → HtmlView
  | .more _ => { ret := 0, status := .headDone, html := none }
  | .stop (.error _) => { ret := -1, status := .headDone, html := none }
  | .stop (.loop _) => { ret := 0, status := .htmlDone, html := some [] }

theorem LineBody.seen {base bytes : List UInt8} {x : Scan SizeState SizeStop}
    {y : Scan BodyState BodyStop} (h : LineBody base x y) : bodySeen bytes y = some (lineSeen x) := by
  cases h <;> rfl

/-- The state of the first size line before its first byte. -/
def firstLine (base : List UInt8) : SizeState :=
  { status := .lenDone, chunkLen := 0, pos := base.length }

/-- Between two calls, the first size line not having ended. -/
def LineMidway (hc : HeadCache) (base : List UInt8) (client : HttpClient) (bytes : List UInt8) :
    Prop :=
  ∃ t, scan sizeByte (firstLine base) bytes = .more t ∧
    BodyMidway client hc base bytes { firstCache base with status := t.status } 0

section

variable {hc : HeadCache} {base : List UInt8}

/-- A size line that announces no chunk, resumed without the digits before the cut. -/
theorem scan_lineBody {bytes : List UInt8} {t : SizeState}
    (h : scan sizeByte (firstLine base) bytes = .more t) (frag : List UInt8)
    (hzero : ∀ t', scan sizeByte (firstLine base) (bytes ++ frag) = .stop (.loop t') → t'.chunkLen = 0)
    (pos : Nat) :
    LineBody base (scan sizeByte (firstLine base) (bytes ++ frag))
      (scan bodyByte { mc := { firstCache base with status := t.status }, chunkLen := 0, skip := 0,
                       read := pos } frag) := by
  have hrel : Scan.Rel LenTail StopTail (scan sizeByte (firstLine base) (bytes ++ frag))
      (scan sizeByte { status := t.status, chunkLen := 0, pos := pos } frag) := by
    have htail : LenTail t { status := t.status, chunkLen := 0, pos := pos } :=
      ⟨rfl, 0, (Nat.mod_one _).symm⟩
    rw [scan_append, h, Scan.more_bind]
    exact scan_rel sizeByte_tail htail frag
  generalize scan sizeByte (firstLine base) (bytes ++ frag) = x at hzero hrel
  rw [scan_line]
  generalize scan sizeByte _ frag = y at hrel
  cases hrel with
  | more htail =>
      rename_i s t
      have hstatus : s.status = t.status := htail.1
      simp only [← hstatus]
      exact .more
  | stop hstop =>
      cases hstop with
      | error _ => exact .error
      | loop htail =>
          rename_i s t
          obtain ⟨-, k, hlen⟩ := htail
          have hnone : t.chunkLen = 0 := by
            rw [hzero s rfl, UInt32.toNat_zero, Nat.zero_mod] at hlen
            exact UInt32.toNat_inj.mp hlen
          simp only [bodyLine, hnone, if_true]
          exact .finished

/-- A body that does not start with a chunk can be cut anywhere. -/
theorem line_resumable (inflateGzip : HttpBuf → HttpBuf → Int × HttpBuf)
    (hchunk : hc.chunkFlag = true) (hgzip : hc.gzipFlag = false) :
    Resumable (htmlCall inflateGzip) htmlFinal Fragment.bytes htmlView
      (fun bytes => some (lineSeen (scan sizeByte (firstLine base) bytes)))
      (fun bytes => ¬ StartsChunk bytes) (fun _ => True) (LineMidway hc base) where
  prefix_fits := fun bytes more h hstarts => h (hstarts.append more)
  view := by
    rintro client bytes frag ⟨t, hscan, hmid⟩ hfits
    have hbody := scan_lineBody hscan frag.bytes (fun _ => loop_len_eq_zero hfits)
      (base ++ bytes).length
    rw [hmid.seen inflateGzip hchunk hgzip, hbody.seen]
  next := by
    rintro client bytes frag r ⟨t, hscan, hmid⟩ hfits _ hr hfinal
    obtain ⟨s, hs, hmid'⟩ := hmid.next inflateGzip hchunk hgzip hr hfinal
    have hbody := scan_lineBody hscan frag.bytes (fun _ => loop_len_eq_zero hfits)
      (base ++ bytes).length
    rw [hs] at hbody
    generalize hx : scan sizeByte (firstLine base) (bytes ++ frag.bytes) = x at hbody
    cases hbody with
    | more => exact ⟨_, hx, hmid'⟩
  last := by
    rintro client bytes frag more ⟨t, hscan, hmid⟩ hfits _ hfinal
    obtain ⟨q, hq⟩ := hmid.stopped inflateGzip hchunk hfinal
    have hstarts : ¬ StartsChunk (bytes ++ frag.bytes) := fun h => hfits (h.append more)
    have hbody := scan_lineBody hscan frag.bytes (fun _ => loop_len_eq_zero hstarts)
      (base ++ bytes).length
    rw [hq] at hbody
    rw [scan_append]
    generalize scan sizeByte (firstLine base) (bytes ++ frag.bytes) = x at hbody
    cases hbody <;> rfl

end

/-! ## Bodies that start with a chunk -/

/-- A chunk of at least a byte has been recorded. -/
def HasChunk (mc : HtmlCache) : Prop := ∃ kv ∈ mc.chunkQueue, kv.valueLen ≠ 0

/-- A scanner that has recorded a chunk, or finishes with one. -/
def EndHasChunk : Scan BodyState BodyStop → Prop
  | .more s => HasChunk s.mc
  | .stop (.error _ _) => True
  | .stop (.finished mc _) => HasChunk mc

theorem bodyLine_hasChunk {mc : HtmlCache} (h : HasChunk mc) (t : SizeState) :
    EndHasChunk (bodyLine mc t) := by
  obtain ⟨kv, hm, hlen⟩ := h
  unfold bodyLine
  simp only
  split_ifs
  · exact ⟨kv, hm, hlen⟩
  · exact ⟨kv, List.mem_append_left _ hm, hlen⟩

theorem bodyByte_hasChunk {s : BodyState} (h : HasChunk s.mc) (c : UInt8) :
    EndHasChunk (bodyByte s c) := by
  unfold bodyByte
  split
  · exact h
  · split
    · exact h
    · trivial
    · exact bodyLine_hasChunk h _

theorem scan_hasChunk {s : BodyState} (h : HasChunk s.mc) (bytes : List UInt8) :
    EndHasChunk (scan bodyByte s bytes) := by
  induction bytes generalizing s with
  | nil => exact h
  | cons c bytes ih =>
      rw [scan]
      have hstep := bodyByte_hasChunk h c
      cases hs : bodyByte s c with
      | more t =>
          rw [hs] at hstep
          exact ih hstep
      | stop r =>
          rw [hs] at hstep
          exact hstep

theorem chunkSlice_length {b : HttpBuf} {kv : KeyValue} {slice : List UInt8}
    (h : chunkSlice b kv = some slice) : slice.length = kv.valueLen.toNat := by
  unfold chunkSlice at h
  split_ifs at h with hle
  cases h
  rw [HttpBuf.slice, List.length_take, List.length_drop]
  omega

/-- Copied, the recorded chunks are as long as their records say. -/
theorem chunkSlices_length {b : HttpBuf} {kvs : List KeyValue} {slices : List (List UInt8)}
    (h : kvs.mapM (chunkSlice b) = some slices) :
    slices.flatten.length = (kvs.map fun kv => kv.valueLen.toNat).sum := by
  induction kvs generalizing slices with
  | nil =>
      cases h
      rfl
  | cons kv kvs ih =>
      rw [List.mapM_cons] at h
      obtain ⟨slice, hslice, h⟩ := Option.bind_eq_some_iff.mp h
      obtain ⟨slices', hslices, h⟩ := Option.bind_eq_some_iff.mp h
      cases h
      rw [List.flatten_cons, List.length_append, ih hslices, chunkSlice_length hslice, List.map_cons,
        List.sum_cons]

/-- The slice of a recorded chunk is among those copied. -/
theorem mem_slices {b : HttpBuf} {kvs : List KeyValue} {slices : List (List UInt8)}
    (h : kvs.mapM (chunkSlice b) = some slices) {kv : KeyValue} (hm : kv ∈ kvs) :
    ∃ slice ∈ slices, chunkSlice b kv = some slice := by
  induction kvs generalizing slices with
  | nil => cases hm
  | cons kv' kvs ih =>
      rw [List.mapM_cons] at h
      obtain ⟨slice, hslice, h⟩ := Option.bind_eq_some_iff.mp h
      obtain ⟨slices', hslices, h⟩ := Option.bind_eq_some_iff.mp h
      cases h
      rcases List.mem_cons.mp hm with rfl | hm
      · exact ⟨slice, List.mem_cons_self, hslice⟩
      · obtain ⟨slice', hm', hkv⟩ := ih hslices hm
        exact ⟨slice', List.mem_cons_of_mem _ hm', hkv⟩

/-- A page copied from recorded chunks is not empty. -/
theorem gather_ne_nil {b chunks : HttpBuf} {mc : HtmlCache} (h : HasChunk mc)
    (hgather : gather b mc = some chunks) : chunks.bytes.take mc.chunkSum.toNat ≠ [] := by
  obtain ⟨kv, hm, hlen⟩ := h
  obtain ⟨slices, hslices, hcopy⟩ := Option.bind_eq_some_iff.mp hgather
  split_ifs at hcopy with hfit
  cases hcopy
  obtain ⟨slice, hslice, hkv⟩ := mem_slices hslices hm
  rw [List.take_of_length_le hfit]
  intro hnil
  have hempty : slice = [] := List.flatten_eq_nil_iff.mp hnil slice hslice
  have hzero : kv.valueLen.toNat = 0 := by
    rw [← chunkSlice_length hkv, hempty]
    rfl
  exact hlen (UInt32.toNat_inj.mp hzero)

/-- A body read with a chunk in it is not seen as an empty page. -/
theorem bodySeen_hasChunk {x : Scan BodyState BodyStop} (h : EndHasChunk x) (bytes : List UInt8) :
    bodySeen bytes x ≠ some { ret := 0, status := .htmlDone, html := some [] } := by
  rcases x with s | s | ⟨mc, pos⟩
  · simp [bodySeen]
  · simp [bodySeen]
  · intro hseen
    obtain ⟨chunks, hgather, hview⟩ := Option.map_eq_some_iff.mp hseen
    simp only [HtmlView.mk.injEq, Option.some.injEq, true_and] at hview
    exact gather_ne_nil h hgather hview

section

variable (inflateGzip : HttpBuf → HttpBuf → Int × HttpBuf)

/-- Every way of cutting the body is seen as one call on the whole body. -/
def CutsAgree (client : HttpClient) (body : List UInt8) : Prop :=
  ∀ frag rest moves, (frag :: rest).flatMap Fragment.bytes = body →
    (feed (htmlCall inflateGzip) htmlFinal client frag rest).map htmlView =
      (htmlCall inflateGzip client { moves := moves, bytes := body }).map htmlView

variable {client : HttpClient} {hc : HeadCache} {b : HttpBuf}

/-- The scanner right before the LF of a first size line. -/
theorem scanBody_beforeLf {line half : List UInt8} (hline : 13 ∉ line) (hhalf : 13 ∉ half)
    (hlf : 10 ∉ half) (base : List UInt8) (pos : Nat) :
    scan bodyByte { mc := firstCache base, chunkLen := 0, skip := 0, read := pos }
      (line ++ 13 :: half) =
        .more { mc := { firstCache base with status := .lenHalf }, chunkLen := lineLen (line ++ half),
                skip := 0, read := pos + (line ++ 13 :: half).length } := by
  rw [scan_line, show (firstCache base).status = .lenDone from rfl,
    scan_beforeLf hline hhalf hlf pos]

/-- A first size line that announces a chunk leaves one recorded. -/
theorem scanBody_hasChunk {line half : List UInt8} (hline : 13 ∉ line) (hhalf : 13 ∉ half)
    (hlf : 10 ∉ half) (hlen : lineLen (line ++ half) ≠ 0) (rest base : List UInt8) (pos : Nat) :
    EndHasChunk (scan bodyByte { mc := firstCache base, chunkLen := 0, skip := 0, read := pos }
      ((line ++ 13 :: half) ++ 10 :: rest)) := by
  rw [scan_append, scanBody_beforeLf hline hhalf hlf, Scan.more_bind, scan]
  have hline' : ∀ pos, bodyByte
      { mc := { firstCache base with status := .lenHalf }, chunkLen := lineLen (line ++ half),
        skip := 0, read := pos } 10 =
      .more { mc := (firstCache base).chunk (pos + 1) (lineLen (line ++ half)), chunkLen := 0,
              skip := (lineLen (line ++ half) + 2).toNat, read := pos + 1 } :=
    fun pos => if_neg hlen
  rw [hline', Scan.more_bind]
  refine scan_hasChunk ⟨_, List.mem_append_right _ (List.mem_singleton.mpr rfl), hlen⟩ rest

/-- Cut before the LF of its first size line, a body that starts with a chunk is seen as empty. -/
theorem startsChunk_not_cutsAgree (hready : BodyReady client hc b) (hchunk : hc.chunkFlag = true)
    {body : List UInt8} (hstarts : StartsChunk body) : ¬ CutsAgree inflateGzip client body := by
  obtain ⟨line, half, rest, rfl, hline, hhalf, hlf, hlen⟩ := hstarts
  intro hagree
  have hsplit : line ++ 13 :: (half ++ 10 :: rest) = (line ++ 13 :: half) ++ 10 :: rest := by simp
  have hmid := hready.midway
  have hbefore := scanBody_beforeLf hline hhalf hlf b.bytes (b.bytes ++ []).length
  -- the call before the LF leaves the client waiting for it
  obtain ⟨r, hr, hfinal⟩ : ∃ r, htmlCall inflateGzip client { bytes := line ++ 13 :: half } = some r ∧
      htmlFinal r = false := hmid.more inflateGzip hchunk hbefore
  obtain ⟨s, hs, hnext⟩ := hmid.next inflateGzip hchunk hready.gzip hr hfinal
  cases hs.symm.trans hbefore
  -- and the next one takes the LF for the end of an empty size line
  have hempty : (htmlCall inflateGzip r.2 { bytes := 10 :: rest }).map htmlView =
      some { ret := 0, status := .htmlDone, html := some [] } := by
    rw [hnext.seen inflateGzip hchunk hready.gzip]
    rfl
  have hfeed : feed (htmlCall inflateGzip) htmlFinal client { bytes := line ++ 13 :: half }
      [{ bytes := 10 :: rest }] = htmlCall inflateGzip r.2 { bytes := 10 :: rest } := by
    rw [feed, hr, Option.bind_eq_bind, Option.bind_some, hfinal]
    rfl
  have hcut := hagree { bytes := line ++ 13 :: half } [{ bytes := 10 :: rest }] [] (by simp)
  rw [hfeed, hempty, hmid.seen inflateGzip hchunk hready.gzip, hsplit] at hcut
  exact bodySeen_hasChunk (scanBody_hasChunk hline hhalf hlf hlen rest b.bytes _) _ hcut.symm

/-! ## Bodies of known length -/

/-- Between two calls, `bytes` of the body having been received. -/
structure LengthMidway (hc : HeadCache) (base : List UInt8) (client : HttpClient)
    (bytes : List UInt8) : Prop where
  status : client.status = .headDone
  head : client.head = some hc
  recv : ∃ b, client.recv = some b ∧ b.bytes = base ++ bytes ∧ b.pos = base.length
  html : ∀ mc, client.html = some mc → mc.chunks = none

/-- What is seen when `bytes` of the body have been received. -/
def lengthSeen (hc : HeadCache) (bytes : List UInt8) : HtmlView :=
  if hc.contentLen ≠ 0 ∧ hc.contentLen.toNat ≤ bytes.length then
    { ret := 0, status := .htmlDone, html := some (bytes.take hc.contentLen.toNat) }
  else { ret := 0, status := .headDone, html := none }

/-- Once the body is there, what follows it is not seen. -/
theorem lengthSeen_append {bytes : List UInt8}
    (h : hc.contentLen ≠ 0 ∧ hc.contentLen.toNat ≤ bytes.length) (more : List UInt8) :
    lengthSeen hc (bytes ++ more) = lengthSeen hc bytes := by
  have hmore : hc.contentLen ≠ 0 ∧ hc.contentLen.toNat ≤ (bytes ++ more).length :=
    ⟨h.1, Nat.le_trans h.2 (List.prefix_append bytes more).length_le⟩
  rw [lengthSeen, lengthSeen, if_pos h, if_pos hmore, List.take_append_of_le_length h.2]

/-- A call copies the body or leaves the client waiting. -/
theorem LengthMidway.call {base bytes : List UInt8} (h : LengthMidway hc base client bytes)
    (hchunk : hc.chunkFlag = false) (hgzip : hc.gzipFlag = false) (frag : Fragment) :
    ∃ r, htmlCall inflateGzip client frag = some r ∧ htmlView r = lengthSeen hc (bytes ++ frag.bytes) ∧
      (htmlFinal r = false → LengthMidway hc base r.2 (bytes ++ frag.bytes)) ∧
      (htmlFinal r = true →
        hc.contentLen ≠ 0 ∧ hc.contentLen.toNat ≤ (bytes ++ frag.bytes).length) := by
  obtain ⟨b, hrecv, hbytes, hpos⟩ := h.recv
  have hrecvd : (client.recvd frag).recv = some (b.recvd frag) := by
    rw [HttpClient.recvd, hrecv]
    rfl
  have hhead : (client.recvd frag).head = some hc := h.head
  have hnew : (b.recvd frag).bytes = base ++ (bytes ++ frag.bytes) := by
    rw [HttpBuf.recvd_bytes, hbytes, List.append_assoc]
  have hslice : ∀ n, (b.recvd frag).slice (b.recvd frag).pos n = (bytes ++ frag.bytes).take n := by
    intro n
    rw [HttpBuf.slice, HttpBuf.recvd_pos, hnew, hpos, List.drop_left]
  have hleft : (b.recvd frag).bytes.length - (b.recvd frag).pos = (bytes ++ frag.bytes).length := by
    rw [HttpBuf.recvd_pos, hnew, hpos, List.length_append, Nat.add_sub_cancel_left]
  rw [htmlCall, httpParseHtml, hrecvd, hhead]
  simp only [Option.bind_eq_bind, Option.bind_some, hchunk, Bool.false_eq_true, if_false, hleft, hslice]
  have hnone : ((client.recvd frag).htmlCache (b.recvd frag)).chunks = none := by
    rw [HttpClient.htmlCache, show (client.recvd frag).html = client.html from rfl]
    cases hmc : client.html with
    | none => rfl
    | some mc => exact h.html mc hmc
  have hstatus : (client.recvd frag).status = .headDone := h.status
  rw [lengthSeen]
  split_ifs with henough
  · refine ⟨_, rfl, ?_, ?_, fun _ => henough⟩
    · simp [htmlCopy, hgzip, htmlView, List.take_take]
    · simp [htmlCopy, hgzip, htmlFinal]
  · rw [htmlCopy, hnone]
    refine ⟨_, rfl, ?_, ?_, ?_⟩
    · simp [htmlView, hstatus]
    · intro _
      refine ⟨h.status, h.head, ⟨b.recvd frag, hrecvd, hnew, b.recvd_pos frag ▸ hpos⟩, ?_⟩
      rintro mc ⟨⟩
      exact hnone
    · simp [htmlFinal, hstatus]

/-- A body of known length can be cut anywhere. -/
theorem length_resumable (hchunk : hc.chunkFlag = false) (hgzip : hc.gzipFlag = false)
    (base : List UInt8) :
    Resumable (htmlCall inflateGzip) htmlFinal Fragment.bytes htmlView
      (fun bytes => some (lengthSeen hc bytes)) (fun _ => True) (fun _ => True)
      (LengthMidway hc base) where
  prefix_fits := fun _ _ _ => trivial
  view := by
    intro client bytes frag h _
    obtain ⟨r, hr, hview, -⟩ := h.call inflateGzip hchunk hgzip frag
    rw [hr, Option.map_some, hview]
  next := by
    intro client bytes frag r h _ _ hr hfinal
    obtain ⟨r', hr', -, hnext, -⟩ := h.call inflateGzip hchunk hgzip frag
    cases hr.symm.trans hr'
    exact hnext hfinal
  last := by
    intro client bytes frag more h _ _ hfinal
    obtain ⟨r, hr, -, -, henough⟩ := h.call inflateGzip hchunk hgzip frag
    exact congrArg some (lengthSeen_append (henough (hfinal r hr)) more)

theorem BodyReady.lengthMidway (hready : BodyReady client hc b) :
    LengthMidway hc b.bytes client [] where
  status := hready.status
  head := hready.head
  recv := ⟨b, hready.recv, (List.append_nil _).symm, hready.pos⟩
  html := by
    intro mc hmc
    rw [hready.html] at hmc
    cases hmc

/-! ## Every way of cutting -/

/-- Every way of cutting a body is seen as one call on the whole body exactly when the body is not
chunked or does not start with a chunk. -/
theorem cutsAgree_iff (hready : BodyReady client hc b) (body : List UInt8) :
    CutsAgree inflateGzip client body ↔ (hc.chunkFlag = true → ¬ StartsChunk body) := by
  constructor
  · exact fun hagree hchunk hstarts =>
      startsChunk_not_cutsAgree inflateGzip hready hchunk hstarts hagree
  · rintro hnot frag rest moves rfl
    cases hchunk : hc.chunkFlag with
    | true =>
        have hmid : LineMidway hc b.bytes client [] := ⟨_, rfl, hready.midway⟩
        exact (line_resumable inflateGzip hchunk hready.gzip).feed_eq_call hmid (hnot hchunk)
          (fun _ _ _ => trivial) rfl
    | false =>
        exact (length_resumable inflateGzip hchunk hready.gzip b.bytes).feed_eq_call
          hready.lengthMidway trivial (fun _ _ _ => trivial) rfl

end

/-! ## Cuts outside the digits of a size line -/

/-- The scanner before the first byte of the body. -/
def bodyStart (base : List UInt8) : BodyState :=
  { mc := firstCache base, chunkLen := 0, skip := 0, read := base.length }

/-- A cut after `bytes` loses no digits: none has been read of the current size line but zeros. -/
def CutSafe (base bytes : List UInt8) : Prop :=
  ∀ s, scan bodyByte (bodyStart base) bytes = .more s → s.chunkLen = 0

/-- A recorded chunk ends before `pos`, or is too long for its end to have been computed right. -/
def ChunkEnds (pos : Nat) (kv : KeyValue) : Prop :=
  kv.value.toNat + kv.valueLen.toNat ≤ pos ∨ 2 ^ 32 ≤ kv.valueLen.toNat + 2

/-- The scanner after `k` bytes of `recv`. -/
structure ChunksEnd (k : Nat) (s : BodyState) : Prop where
  read : s.read = k
  ends : ∀ kv ∈ s.mc.chunkQueue, ChunkEnds (s.read + s.skip) kv

/-- What the scanner stops with after `k` bytes of `recv`. -/
def StopEnds (k : Nat) : BodyStop → Prop
  | .error _ _ => True
  | .finished mc _ => ∀ kv ∈ mc.chunkQueue, ChunkEnds k kv

theorem ChunkEnds.mono {pos pos' : Nat} {kv : KeyValue} (h : ChunkEnds pos kv) (hle : pos ≤ pos') :
    ChunkEnds pos' kv :=
  h.imp_left fun hpos => Nat.le_trans hpos hle

/-- The chunk just announced ends where the scanner will go on. -/
theorem chunk_ends (mc : HtmlCache) (pos : Nat) (chunkLen : UInt32)
    (h : ∀ kv ∈ mc.chunkQueue, ChunkEnds pos kv) :
    ∀ kv ∈ (mc.chunk pos chunkLen).chunkQueue, ChunkEnds (pos + (chunkLen + 2).toNat) kv := by
  intro kv hm
  rcases List.mem_append.mp hm with hm | hm
  · exact (h kv hm).mono (Nat.le_add_right _ _)
  · rw [List.mem_singleton.mp hm]
    have hpos : (UInt32.ofNat pos).toNat ≤ pos := by
      rw [UInt32.toNat_ofNat']
      exact Nat.mod_le _ _
    have hadd : (chunkLen + 2).toNat = (chunkLen.toNat + 2) % 2 ^ 32 := UInt32.toNat_add _ _
    rw [ChunkEnds, hadd]
    rcases Nat.lt_or_ge (chunkLen.toNat + 2) (2 ^ 32) with hlt | hge
    · rw [Nat.mod_eq_of_lt hlt]
      exact .inl (by simp only; omega)
    · exact .inr hge

theorem bodyByte_ends {k : Nat} {s : BodyState} (h : ChunksEnd k s) (c : UInt8) :
    (∀ t, bodyByte s c = .more t → ChunksEnd (k + 1) t) ∧
      ∀ r, bodyByte s c = .stop r → StopEnds (k + 1) r := by
  have hread := h.read
  unfold bodyByte
  split_ifs with hskip
  · refine ⟨?_, fun r hr => by cases hr⟩
    rintro t ⟨⟩
    refine ⟨congrArg (· + 1) hread, fun kv hm => (h.ends kv hm).mono ?_⟩
    simp only
    omega
  · have hzero : s.skip = 0 := Decidable.not_not.mp hskip
    have hends : ∀ kv ∈ s.mc.chunkQueue, ChunkEnds (s.read + 1) kv := fun kv hm =>
      (h.ends kv hm).mono (by omega)
    split
    case h_1 t hsize =>
      have hpos : t.pos = s.read + 1 := (sizeByte_pos _ c).1 t hsize
      refine ⟨?_, fun r hr => by cases hr⟩
      rintro t' ⟨⟩
      refine ⟨hpos.trans (congrArg (· + 1) hread), fun kv hm => (hends kv hm).mono ?_⟩
      simp only
      omega
    case h_2 => exact ⟨fun t ht => (by cases ht), by rintro r ⟨⟩; trivial⟩
    case h_3 t hsize =>
      have hpos : t.pos = s.read + 1 := (sizeByte_pos _ c).2 t hsize
      unfold bodyLine
      simp only
      split_ifs
      · refine ⟨fun t ht => (by cases ht), ?_⟩
        rintro r ⟨⟩
        exact fun kv hm => (hends kv hm).mono (by omega)
      · refine ⟨?_, fun r hr => by cases hr⟩
        rintro t' ⟨⟩
        refine ⟨hpos.trans (congrArg (· + 1) hread), ?_⟩
        exact chunk_ends _ t.pos t.chunkLen fun kv hm => (hends kv hm).mono (by omega)

/-- A chunk that ends in the bytes received is copied alike when more have come, and one too long for
them is not copied at all. -/
theorem chunkSlice_eq {b b' : HttpBuf} (hb : b.bytes <+: b'.bytes) (hlen : b'.bytes.length + 2 < 2 ^ 32)
    {kv : KeyValue} (h : ChunkEnds b.bytes.length kv) : chunkSlice b' kv = chunkSlice b kv := by
  have hle := hb.length_le
  rcases h with hin | hlong
  · rw [chunkSlice, chunkSlice, if_pos (Nat.le_trans hin hle), if_pos hin,
      HttpBuf.slice_of_prefix hb hin]
  · rw [chunkSlice, chunkSlice, if_neg (by omega), if_neg (by omega)]

theorem chunkSlices_eq {b b' : HttpBuf} (hb : b.bytes <+: b'.bytes)
    (hlen : b'.bytes.length + 2 < 2 ^ 32) {kvs : List KeyValue}
    (h : ∀ kv ∈ kvs, ChunkEnds b.bytes.length kv) :
    kvs.mapM (chunkSlice b') = kvs.mapM (chunkSlice b) := by
  induction kvs with
  | nil => rfl
  | cons kv kvs ih =>
      rw [List.mapM_cons, List.mapM_cons, chunkSlice_eq hb hlen (h kv List.mem_cons_self),
        ih fun kv hm => h kv (List.mem_cons_of_mem _ hm)]

theorem StopEnds.mono {k k' : Nat} {q : BodyStop} (h : StopEnds k q) (hle : k ≤ k') :
    StopEnds k' q := by
  rcases q with _ | ⟨mc, pos⟩
  · trivial
  · exact fun kv hm => (h kv hm).mono hle

/-- The scanner stops with chunks that end in what it has read. -/
theorem scan_ends {k : Nat} {s : BodyState} (hs : ChunksEnd k s) {bytes : List UInt8} {q : BodyStop}
    (h : scan bodyByte s bytes = .stop q) : StopEnds (k + bytes.length) q := by
  have hmore : ∀ j s c t, j < k + bytes.length → ChunksEnd j s → bodyByte s c = .more t →
      ChunksEnd (j + 1) t := fun j s c t _ hs => (bodyByte_ends hs c).1 t
  have hstop : ∀ j s c r, j < k + bytes.length → ChunksEnd j s → bodyByte s c = .stop r →
      StopEnds (j + 1) r := fun j s c r _ hs => (bodyByte_ends hs c).2 r
  obtain ⟨j, hj, hends⟩ := (scan_invariant hmore hstop hs (Nat.le_refl _)).2 q h
  exact hends.mono hj

/-- What is seen of a stopped scanner does not depend on what follows. -/
theorem bodySeen_append {base bytes more : List UInt8} {q : BodyStop}
    (h : scan bodyByte (bodyStart base) bytes = .stop q)
    (hlen : (base ++ (bytes ++ more)).length + 2 < 2 ^ 32) :
    bodySeen (base ++ (bytes ++ more)) (.stop q) = bodySeen (base ++ bytes) (.stop q) := by
  have hstart : ChunksEnd base.length (bodyStart base) := ⟨rfl, fun _ hm => by cases hm⟩
  have hends := scan_ends hstart h
  rcases q with _ | ⟨mc, pos⟩
  · rfl
  · have hends' : ∀ kv ∈ mc.chunkQueue, ChunkEnds (base ++ bytes).length kv := fun kv hm =>
      (hends kv hm).mono (Nat.le_of_eq List.length_append.symm)
    have hslices : mc.chunkQueue.mapM (chunkSlice { bytes := base ++ (bytes ++ more) }) =
        mc.chunkQueue.mapM (chunkSlice { bytes := base ++ bytes }) :=
      chunkSlices_eq ⟨more, List.append_assoc base bytes more⟩ hlen hends'
    rw [bodySeen, bodySeen, gather, gather, hslices]

/-- Between two calls, no digits having been lost. -/
def SafeMidway (hc : HeadCache) (base : List UInt8) (client : HttpClient) (bytes : List UInt8) :
    Prop :=
  ∃ s, scan bodyByte (bodyStart base) bytes = .more s ∧ s.chunkLen = 0 ∧
    BodyMidway client hc base bytes s.mc s.skip

section

variable {hc : HeadCache} {base : List UInt8}

/-- A call goes on where the scanner has got to. -/
theorem SafeMidway.scan_eq {bytes : List UInt8} {s : BodyState}
    (h : scan bodyByte (bodyStart base) bytes = .more s) (hzero : s.chunkLen = 0)
    (frag : List UInt8) :
    scan bodyByte { mc := s.mc, chunkLen := 0, skip := s.skip, read := (base ++ bytes).length } frag =
      scan bodyByte (bodyStart base) (bytes ++ frag) := by
  have hread : s.read = (base ++ bytes).length := (scan_more h).1.trans List.length_append.symm
  rw [scan_append, h, Scan.more_bind, ← hread, ← hzero]

/-- A chunked body can be cut outside the digits of its size lines. -/
theorem safe_resumable (inflateGzip : HttpBuf → HttpBuf → Int × HttpBuf)
    (hchunk : hc.chunkFlag = true) (hgzip : hc.gzipFlag = false) :
    Resumable (htmlCall inflateGzip) htmlFinal Fragment.bytes htmlView
      (fun bytes => bodySeen (base ++ bytes) (scan bodyByte (bodyStart base) bytes))
      (fun bytes => (base ++ bytes).length + 2 < 2 ^ 32) (CutSafe base) (SafeMidway hc base) where
  prefix_fits := by
    intro bytes more h
    rw [← List.append_assoc, List.length_append] at h
    omega
  view := by
    rintro client bytes frag ⟨s, hs, hzero, hmid⟩ -
    rw [hmid.seen inflateGzip hchunk hgzip, SafeMidway.scan_eq hs hzero]
  next := by
    rintro client bytes frag r ⟨s, hs, hzero, hmid⟩ - hsafe hr hfinal
    obtain ⟨t, ht, hmid'⟩ := hmid.next inflateGzip hchunk hgzip hr hfinal
    rw [SafeMidway.scan_eq hs hzero] at ht
    exact ⟨t, ht, hsafe t ht, hmid'⟩
  last := by
    rintro client bytes frag more ⟨s, hs, hzero, hmid⟩ hfits - hfinal
    obtain ⟨q, hq⟩ := hmid.stopped inflateGzip hchunk hfinal
    rw [SafeMidway.scan_eq hs hzero] at hq
    rw [scan_append, hq, Scan.stop_bind]
    exact bodySeen_append hq hfits

end

/-- A chunked body in a buffer of less than 4 GiB that is never cut inside the digits of a size line
is seen as in one call. -/
theorem htmlFeed_eq_whole (inflateGzip : HttpBuf → HttpBuf → Int × HttpBuf) {client : HttpClient}
    {hc : HeadCache} {b : HttpBuf} (hready : BodyReady client hc b) (hchunk : hc.chunkFlag = true)
    (frag : Fragment) (rest : List Fragment) (moves : List Addr)
    (hlen : (b.bytes ++ (frag :: rest).flatMap Fragment.bytes).length + 2 < 2 ^ 32)
    (hsafe : ∀ k, 0 < k → k < (frag :: rest).length →
      CutSafe b.bytes (((frag :: rest).take k).flatMap Fragment.bytes)) :
    (feed (htmlCall inflateGzip) htmlFinal client frag rest).map htmlView =
      (htmlCall inflateGzip client
        { moves := moves, bytes := (frag :: rest).flatMap Fragment.bytes }).map htmlView := by
  have hmid : SafeMidway hc b.bytes client [] := ⟨_, rfl, rfl, hready.midway⟩
  exact (safe_resumable inflateGzip hchunk hready.gzip).feed_eq_call hmid hlen hsafe rfl

/-! ## A body cut before the LF of its first size line -/

/-- A client that has parsed the head of a chunked answer. -/
def chunkedClient : HttpClient :=
  { status := .headDone, url := { port := 80, schema := [], host := [], path := [] },
    recv := some (createTempBuf 4096 4096), head := some { status := .headDone, chunkFlag := true } }

theorem chunkedClient_ready :
    BodyReady chunkedClient { status := .headDone, chunkFlag := true } (createTempBuf 4096 4096) :=
  ⟨rfl, rfl, rfl, rfl, rfl, rfl⟩

theorem cutsAgree_iff_oneByte :
    CutsAgree (fun _ dest => (0, dest)) chunkedClient (lit "1\r\nx\r\n0\r\n\r\n") ↔
      (true = true → ¬ StartsChunk (lit "1\r\nx\r\n0\r\n\r\n")) :=
  cutsAgree_iff (fun _ dest => (0, dest)) chunkedClient_ready _

/-- The chunk of one byte is lost when the first size line is cut between its CR and LF. -/
theorem oneByte_not_cutsAgree :
    ¬ CutsAgree (fun _ dest => (0, dest)) chunkedClient (lit "1\r\nx\r\n0\r\n\r\n") := by
  intro hagree
  have hcut := hagree { bytes := lit "1\r" } [{ bytes := lit "\nx\r\n0\r\n\r\n" }] [] rfl
  revert hcut
  decide

end Crawler.Http
