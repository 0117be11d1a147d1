/-
# Crawler.Http.TlsReads — what successive calls of `ssl_recv` return

One call of `ssl_recv` gathers what several calls of `SSL_read` bring, until its buffer is full or one
of them brings nothing (`Gathers`). Where bytes have been gathered it returns them, and what stopped it
waits in `c->ssl->last`: the end of the stream or an error is reported by the next call, which does not
ask `SSL_read` again, and by every later one. So the bytes returned are those that `SSL_read` brought, in
order, and an end is reported behind all of them (`sslRecv_losesNothing`).
-/
import Crawler.Http.Phases

namespace Crawler.Http

open Crawler.Lib Crawler.EventTimer Crawler.Connections

/-! ## Calls of `SSL_read` -/

/-- The two ends of a stream. -/
inductive Ending where
  | eof
  | error
  deriving DecidableEq, Repr

/-- What `c->ssl->last` is after the end. -/
def Ending.last : Ending → Int
  | .eof => -4
  | .error => -1

/-- What `ssl_recv` returns for it. -/
def Ending.rc : Ending → Int
  | .eof => 0
  | .error => -1

/-- The end that a call of `SSL_read` has met: a shutdown or an error. An error that leaves nothing in
the error queue counts as a shutdown. -/
def SslRead.ending (r : SslRead) : Option Ending :=
  if r.bytes = [] then
    match r.err with
    | .zeroReturn => some .eof
    | .other => some (if r.queued then .error else .eof)
    | _ => none
  else none

/-- A call of `SSL_read` that has to read or to write first. -/
def SslRead.Wants (r : SslRead) : Prop := r.bytes = [] ∧ (r.err = .wantRead ∨ r.err = .wantWrite)

theorem SslRead.wants_iff (r : SslRead) : r.Wants ↔ r.bytes = [] ∧ r.ending = none := by
  rw [Wants, ending]
  refine and_congr_right fun hnil => ?_
  rw [if_pos hnil]
  cases r.err <;> simp

/-- What a call of `SSL_read` that has brought nothing leaves in `c->ssl->last`. One that has to write
first leaves an error where `event_add` fails. -/
def SslRead.Leaves (r : SslRead) (last : Int) : Prop :=
  match r.ending with
  | some e => last = e.last
  | none => last = -eagain ∨ r.err = .wantWrite ∧ last = -1

/-- The bytes that calls of `SSL_read` bring to a buffer with room for `size`. -/
def produced : Nat → List SslRead → List UInt8
  | _, [] => []
  | size, r :: rs => r.bytes.take size ++ produced (size - (r.bytes.take size).length) rs

/-- The calls of `SSL_read` that one `ssl_recv` makes for a buffer with room for `size`, the bytes they
bring, and the call that has brought none, if it is that which stops them. -/
inductive Gathers : Nat → List SslRead → List UInt8 → Option SslRead → Prop
  | full {size : Nat} {r : SslRead} : r.bytes ≠ [] → size ≤ r.bytes.length →
      Gathers size [r] (r.bytes.take size) none
  | stop {size : Nat} {r : SslRead} : r.bytes = [] → Gathers size [r] [] (some r)
  | more {size : Nat} {r : SslRead} {rs : List SslRead} {bytes : List UInt8} {stop : Option SslRead} :
      r.bytes ≠ [] → r.bytes.length < size → Gathers (size - r.bytes.length) rs bytes stop →
      Gathers size (r :: rs) (r.bytes ++ bytes) stop

namespace Gathers

variable {size : Nat} {reads : List SslRead} {bytes : List UInt8} {stop : Option SslRead}
  (h : Gathers size reads bytes stop)

include h

theorem produced_eq : produced size reads = bytes := by
  induction h with
  | full _ _ => rw [produced, produced, List.append_nil]
  | stop hnil => rw [produced, produced, hnil, List.take_nil, List.append_nil]
  | @more size r rs bytes stop _ hlt _ ih =>
      rw [produced, List.take_of_length_le (Nat.le_of_lt hlt), ih]

/-- The bytes fit into the buffer. -/
theorem length_le : bytes.length ≤ size := by
  induction h with
  | full _ _ =>
      rw [List.length_take]
      exact Nat.min_le_left _ _
  | stop _ => exact Nat.zero_le _
  | more _ hlt _ ih =>
      rw [List.length_append]
      omega

/-- The last call is the one that stops them, or none does. -/
theorem last_eq : ∃ before r, reads = before ++ [r] ∧
    (stop = some r ∧ r.bytes = [] ∨ stop = none ∧ r.bytes ≠ []) := by
  induction h with
  | full hne _ => exact ⟨[], _, rfl, .inr ⟨rfl, hne⟩⟩
  | stop hnil => exact ⟨[], _, rfl, .inl ⟨rfl, hnil⟩⟩
  | @more size r rs bytes stop _ _ _ ih =>
      obtain ⟨before, last, rfl, hlast⟩ := ih
      exact ⟨r :: before, last, rfl, hlast⟩

/-- A buffer that has been filled has not been left empty. -/
theorem ne_nil (hsize : 0 < size) (hstop : stop = none) : bytes ≠ [] := by
  cases h with
  | full hne _ =>
      rw [ne_eq, List.take_eq_nil_iff, not_or]
      exact ⟨Nat.ne_of_gt hsize, hne⟩
  | stop _ => cases hstop
  | more hne _ _ => exact fun hnil => hne (List.append_eq_nil_iff.mp hnil).1

/-- The calls are determined by what `SSL_read` goes on to return. -/
theorem eq_of_append {reads' more : List SslRead} {bytes' : List UInt8} {stop' : Option SslRead}
    (h' : Gathers size reads' bytes' stop') (hreads : reads = reads' ++ more) : more = [] := by
  induction h generalizing reads' bytes' stop' with
  | full hne hle =>
      cases h' with
      | full _ _ => exact (List.cons.inj hreads).2.symm
      | stop hnil =>
          obtain rfl := (List.cons.inj hreads).1
          exact absurd hnil hne
      | more _ hlt _ =>
          obtain rfl := (List.cons.inj hreads).1
          exact absurd hlt (Nat.not_lt.mpr hle)
  | stop hnil =>
      cases h' with
      | full _ _ => exact (List.cons.inj hreads).2.symm
      | stop _ => exact (List.cons.inj hreads).2.symm
      | more hne _ _ =>
          obtain rfl := (List.cons.inj hreads).1
          exact absurd hnil hne
  | more hne hlt _ ih =>
      cases h' with
      | full _ hle =>
          obtain rfl := (List.cons.inj hreads).1
          exact absurd hlt (Nat.not_lt.mpr hle)
      | stop hnil =>
          obtain rfl := (List.cons.inj hreads).1
          exact absurd hnil hne
      | more _ _ hrest =>
          obtain ⟨rfl, htail⟩ := List.cons.inj hreads
          exact ih hrest htail

end Gathers

/-- Whatever `SSL_read` goes on to return, some of its calls are those of one `ssl_recv`. -/
theorem exists_gathers (outs : Nat → SslRead) {size : Nat} (hsize : 0 < size) (start : Nat) :
    ∃ k bytes stop, Gathers size ((List.range' start k).map outs) bytes stop := by
  induction size using Nat.strong_induction_on generalizing start with
  | _ size ih =>
  by_cases hnil : (outs start).bytes = []
  · exact ⟨1, _, _, .stop hnil⟩
  · by_cases hle : size ≤ (outs start).bytes.length
    · exact ⟨1, _, _, .full hnil hle⟩
    · have hpos : 0 < (outs start).bytes.length := List.length_pos_iff.mpr hnil
      obtain ⟨k, bytes, stop, hrest⟩ := ih (size - (outs start).bytes.length) (by omega) (by omega)
        (start + 1)
      refine ⟨k + 1, (outs start).bytes ++ bytes, stop, ?_⟩
      rw [List.range'_succ, List.map_cons]
      exact .more hnil (Nat.not_le.mp hle) hrest

/-! ## One turn of the loop -/

/-- The pointers that receiving on `c` follows. -/
structure Wired (s : Sockets) (c : Slot) : Prop where
  read : (s.pool.connections c).read = some (.read c)
  write : (s.pool.connections c).write = some (.write c)
  data : (s.pool.events.ev (.write c)).data = some c

/-- The connection of a client is wired. -/
theorem OwnedBy.wired {s : Sockets} {c : Slot} {o : Addr} (h : OwnedBy s.pool c o) : Wired s c :=
  ⟨h.names.1, h.names.2.1, h.names.2.2.2⟩

/-- `c->ssl->last`. -/
def Sockets.sslLast (s : Sockets) (c : Slot) : Option Int := (s.io c).ssl.map SslConnection.last

theorem Sockets.isSome_of_sslLast (s : Sockets) {c : Slot} {last : Int}
    (h : s.sslLast c = some last) : (s.io c).ssl.isSome := by
  obtain ⟨ssl, hssl, -⟩ := Option.map_eq_some_iff.mp h
  rw [hssl]
  rfl

section

variable {s : Sockets} {c : Slot} (h : Wired s c)

include h

theorem Wired.modifyEvent (e : EventRef) {f : Event → Event}
    (hdata : (f (s.pool.events.ev e)).data = (s.pool.events.ev e).data) :
    Wired (s.modifyEvent e f) c where
  read := h.read
  write := h.write
  data := by
    rw [modifyEvent_ev]
    split
    case isTrue heq => rw [hdata, ← heq, h.data]
    case isFalse => exact h.data

theorem Wired.modifySsl (f : SslConnection → SslConnection) : Wired (s.modifySsl c f) c :=
  ⟨h.read, h.write, h.data⟩

/-- `event_add` on the write event ends. -/
theorem Wired.watch (ctl : EpollCtl → Int) : ∃ rc s', s.watch (.write c) .write ctl = some (rc, s') ∧
    Wired s' c ∧ s'.io = s.io := by
  rw [Sockets.watch]
  split
  case isTrue => exact ⟨0, s, rfl, h, rfl⟩
  case isFalse =>
    simp only [eventAdd, h.data, otherHalf, h.read, Option.bind_eq_bind, Option.bind_some,
      Option.pure_def]
    have hask : ∀ call, Wired (s.ask call) c := fun _ => ⟨h.read, h.write, h.data⟩
    have hactive : ∀ call, Wired ((s.ask call).modifyEvent (.write c) fun ev =>
        { ev with active := true }) c := fun call => (hask call).modifyEvent (.write c) rfl
    split_ifs
    · exact ⟨-1, _, rfl, hask _, rfl⟩
    · exact ⟨0, _, rfl, hactive _, rfl⟩
    · exact ⟨-1, _, rfl, hask _, rfl⟩
    · exact ⟨0, _, rfl, hactive _, rfl⟩

/-- What `ssl_handle_recv` returns: 0 after bytes, and else what has stopped them. -/
theorem Wired.sslHandleRecv {ssl : SslConnection} (hssl : (s.io c).ssl = some ssl) (n : Nat)
    {r : SslRead} (hnil : n = 0 → r.bytes = []) (ctl : EpollCtl → Int) :
    ∃ last s', sslHandleRecv s c ssl n r ctl = some (last, s') ∧ Wired s' c ∧
      (s'.io c).ssl.isSome ∧ (if 0 < n then last = 0 else r.Leaves last) := by
  have hsome : (s.io c).ssl.isSome := by rw [hssl]; rfl
  simp only [Http.sslHandleRecv, h.read, h.write, Option.bind_eq_bind, Option.bind_some, Option.pure_def]
  by_cases hn : 0 < n
  · rw [if_pos hn]
    cases hsaved : ssl.savedWriteHandler with
    | none => exact ⟨0, s, rfl, h, hsome, by rw [if_pos hn]⟩
    | some f =>
        refine ⟨0, _, rfl, (h.modifyEvent _ rfl).modifySsl _, ?_, by rw [if_pos hn]⟩
        rw [modifySsl_ssl, modifyEvent_io, Option.isSome_map]
        exact hsome
  · have hbytes := hnil (Nat.eq_zero_of_not_pos hn)
    simp only [if_neg hn]
    cases herr : r.err with
    | wantRead =>
        exact ⟨-eagain, _, rfl, h.modifyEvent _ rfl, hsome, by
          simp [SslRead.Leaves, SslRead.ending, hbytes, herr]⟩
    | wantWrite =>
        have h₁ := h.modifyEvent (.write c) (f := fun ev => { ev with ready := false }) rfl
        obtain ⟨rc, s₂, hwatch, h₂, hio⟩ := h₁.watch ctl
        have hsome₂ : (s₂.io c).ssl.isSome := by rw [hio]; exact hsome
        simp only [hwatch, Option.bind_some]
        by_cases hrc : rc < 0
        · simp only [if_pos hrc]
          exact ⟨-1, s₂, rfl, h₂, hsome₂, by
            simp [SslRead.Leaves, SslRead.ending, hbytes, herr]⟩
        · simp only [if_neg hrc]
          by_cases hnone : ssl.savedWriteHandler = none
          · simp only [if_pos hnone]
            refine ⟨-eagain, _, rfl, (h₂.modifySsl _).modifyEvent _ rfl, ?_, by
              simp [SslRead.Leaves, SslRead.ending, hbytes, herr]⟩
            rw [modifyEvent_io, modifySsl_ssl, Option.isSome_map]
            exact hsome₂
          · simp only [if_neg hnone]
            exact ⟨-eagain, s₂, rfl, h₂, hsome₂, by
              simp [SslRead.Leaves, SslRead.ending, hbytes, herr]⟩
    | zeroReturn =>
        exact ⟨-4, s, rfl, h, hsome, by
          simp [SslRead.Leaves, SslRead.ending, hbytes, herr, Ending.last]⟩
    | other =>
        refine ⟨if r.queued = false then -4 else -1, s, by simp, h, hsome, ?_⟩
        cases hq : r.queued <;>
          simp [SslRead.Leaves, SslRead.ending, hbytes, herr, hq, Ending.last]

end

/-! ## One call of `ssl_recv` -/

/-- An end is reported: by the value returned and in the read event. -/
def Ending.Reported (e : Ending) (n : Int) (rev : Event) : Prop :=
  n = e.rc ∧ match e with
    | .eof => rev.eof = true
    | .error => rev.error = true

/-- What `ssl_recv` returns once it has gathered `bytes`, `stop` being the call of `SSL_read` that has
stopped it. -/
structure Returned (c : Slot) (bytes : List UInt8) (stop : Option SslRead) (n : Int) (s : Sockets) :
    Prop where
  wired : Wired s c
  count : bytes ≠ [] → n = bytes.length
  left : ∃ last, s.sslLast c = some last ∧ (stop = none → last = 0) ∧
    (∀ r, stop = some r → r.Leaves last) ∧
    (bytes = [] → n = -eagain ∧ last = -eagain ∨
      ∃ e : Ending, last = e.last ∧ e.Reported n (s.pool.events.ev (.read c)))

theorem SslRead.Leaves.cases {r : SslRead} {last : Int} (h : r.Leaves last) :
    last = -eagain ∨ ∃ e : Ending, last = e.last := by
  rw [Leaves] at h
  cases hending : r.ending with
  | some e =>
      rw [hending] at h
      exact .inr ⟨e, h⟩
  | none =>
      rw [hending] at h
      exact h.imp_right fun herr => ⟨.error, herr.2⟩

theorem SslRead.Leaves.ne_zero {r : SslRead} {last : Int} (h : r.Leaves last) : last ≠ 0 := by
  rcases h.cases with rfl | ⟨e, rfl⟩
  · decide
  · cases e <;> decide

/-- Where something stops the loop: by what has been gathered. -/
theorem Wired.stopped {s : Sockets} {c : Slot} (h : Wired s c) {r : SslRead} {last : Int}
    (hlast : s.sslLast c = some last) (hr : r.Leaves last) (got : List UInt8) :
    ∃ n s', (if got.length ≠ 0 then
        if last ≠ -eagain then
          some ((got.length : Int), got, s.modifyEvent (.read c) fun ev => { ev with ready := true })
        else some ((got.length : Int), got, s)
      else if last = -4 then
        some (0, [], s.modifyEvent (.read c) fun ev => { ev with ready := false, eof := true })
      else if last = -1 then
        some (-1, [], s.modifyEvent (.read c) fun ev => { ev with error := true })
      else some (last, [], s)) = some (n, got, s') ∧ Returned c got (some r) n s' := by
  have hstop : ∀ r', some r = some r' → r'.Leaves last := by
    rintro _ ⟨⟩
    exact hr
  by_cases hgot : got = []
  · subst hgot
    rcases hr.cases with rfl | ⟨e, rfl⟩
    · exact ⟨-eagain, s, by simp [eagain], h, fun hne => absurd rfl hne,
        -eagain, hlast, by simp, hstop, fun _ => .inl ⟨rfl, rfl⟩⟩
    · cases e with
      | eof =>
          exact ⟨0, _, rfl, h.modifyEvent _ rfl, fun hne => absurd rfl hne, _, hlast, by simp, hstop,
            fun _ => .inr ⟨.eof, rfl, rfl, by simp⟩⟩
      | error =>
          exact ⟨-1, _, rfl, h.modifyEvent _ rfl, fun hne => absurd rfl hne, _, hlast, by simp, hstop,
            fun _ => .inr ⟨.error, rfl, rfl, by simp⟩⟩
  · rw [if_pos (by rwa [ne_eq, List.length_eq_zero_iff])]
    split
    case isTrue =>
      exact ⟨_, _, rfl, h.modifyEvent _ rfl, fun _ => rfl, last, hlast, by simp, hstop,
        fun hnil => absurd hnil hgot⟩
    case isFalse =>
      exact ⟨_, _, rfl, h, fun _ => rfl, last, hlast, by simp, hstop, fun hnil => absurd hnil hgot⟩

/-- One turn of the loop, `SSL_read` returning `r`. -/
theorem Wired.sslReadLoop {s : Sockets} {c : Slot} (h : Wired s c) (hssl : (s.io c).ssl.isSome)
    (ctl : EpollCtl → Int) {size : Nat} (hsize : 0 < size) (r : SslRead) (got : List UInt8) :
    ∃ last s', Wired s' c ∧ s'.sslLast c = some last ∧
      (if 0 < (r.bytes.take size).length then last = 0 else r.Leaves last) ∧
      ∀ rs, sslReadLoop c ctl (r :: rs) size got s =
        if last = 0 then
          if size - (r.bytes.take size).length = 0 then
            some (((got ++ r.bytes.take size).length : Int), got ++ r.bytes.take size,
              s'.modifyEvent (.read c) fun ev => { ev with ready := true })
          else Http.sslReadLoop c ctl rs (size - (r.bytes.take size).length) (got ++ r.bytes.take size) s'
        else if (got ++ r.bytes.take size).length ≠ 0 then
          if last ≠ -eagain then
            some (((got ++ r.bytes.take size).length : Int), got ++ r.bytes.take size,
              s'.modifyEvent (.read c) fun ev => { ev with ready := true })
          else some (((got ++ r.bytes.take size).length : Int), got ++ r.bytes.take size, s')
        else if last = -4 then
          some (0, [], s'.modifyEvent (.read c) fun ev => { ev with ready := false, eof := true })
        else if last = -1 then
          some (-1, [], s'.modifyEvent (.read c) fun ev => { ev with error := true })
        else some (last, [], s') := by
  obtain ⟨ssl, hssl⟩ := Option.isSome_iff_exists.mp hssl
  have hnil : (r.bytes.take size).length = 0 → r.bytes = [] := fun hlen =>
    (List.take_eq_nil_iff.mp (List.length_eq_zero_iff.mp hlen)).resolve_left (Nat.ne_of_gt hsize)
  obtain ⟨last, s₁, hrecv, h₁, hsome₁, hlast⟩ := h.sslHandleRecv hssl _ hnil ctl
  obtain ⟨ssl₁, hssl₁⟩ := Option.isSome_iff_exists.mp hsome₁
  refine ⟨last, s₁.modifySsl c fun ssl => { ssl with last := last }, h₁.modifySsl _, ?_, hlast,
    fun rs => ?_⟩
  · rw [Sockets.sslLast, modifySsl_ssl, hssl₁]
    rfl
  · simp only [Http.sslReadLoop, h.read, hssl, hrecv, Option.bind_eq_bind, Option.bind_some,
      Option.pure_def]

/-- The loop makes the calls that gather, whatever could be read behind them. By induction on them. -/
theorem sslReadLoop_gathers {c : Slot} (ctl : EpollCtl → Int) {size : Nat} {reads : List SslRead}
    {bytes : List UInt8} {stop : Option SslRead} (hg : Gathers size reads bytes stop)
    (hsize : 0 < size) (more : List SslRead) {s : Sockets} (h : Wired s c)
    (hssl : (s.io c).ssl.isSome) (got : List UInt8) :
    ∃ n s', sslReadLoop c ctl (reads ++ more) size got s = some (n, got ++ bytes, s') ∧
      Returned c (got ++ bytes) stop n s' := by
  induction hg generalizing s got with
  | @full size r hne hle =>
      obtain ⟨last, s₁, h₁, hlast₁, hlast, hturn⟩ := h.sslReadLoop hssl ctl hsize r got
      have hlen : (r.bytes.take size).length = size := by
        rw [List.length_take, Nat.min_eq_left hle]
      rw [hlen, if_pos hsize] at hlast
      subst hlast
      have hfull : got ++ r.bytes.take size ≠ [] := by
        rw [← List.length_pos_iff, List.length_append, hlen]
        omega
      rw [List.singleton_append, hturn, if_pos rfl, hlen, Nat.sub_self, if_pos rfl]
      exact ⟨_, _, rfl, h₁.modifyEvent _ rfl, fun _ => rfl, 0, hlast₁, fun _ => rfl, by simp,
        fun hnil => absurd hnil hfull⟩
  | @stop size r hnil =>
      obtain ⟨last, s₁, h₁, hlast₁, hlast, hturn⟩ := h.sslReadLoop hssl ctl hsize r got
      rw [hnil, List.take_nil, List.length_nil, if_neg (Nat.lt_irrefl 0)] at hlast
      rw [List.singleton_append, hturn, hnil, List.take_nil, List.append_nil, if_neg hlast.ne_zero]
      exact h₁.stopped hlast₁ hlast got
  | @more size r rs bytes stop hne hlt _ ih =>
      obtain ⟨last, s₁, h₁, hlast₁, hlast, hturn⟩ := h.sslReadLoop hssl ctl hsize r got
      rw [List.take_of_length_le (Nat.le_of_lt hlt)] at hlast hturn
      rw [if_pos (List.length_pos_iff.mpr hne)] at hlast
      subst hlast
      rw [List.cons_append, hturn, if_pos rfl, if_neg (by omega), ← List.append_assoc]
      exact ih (by omega) h₁ (s₁.isSome_of_sslLast hlast₁) (got ++ r.bytes)

/-- A loop that has ended has made calls that gather. By induction on what `SSL_read` returns. -/
theorem exists_gathers_of_sslReadLoop {c : Slot} {ctl : EpollCtl → Int} {reads : List SslRead}
    {size : Nat} (hsize : 0 < size) {got : List UInt8} {s : Sockets} (h : Wired s c)
    (hssl : (s.io c).ssl.isSome) {res : Int × List UInt8 × Sockets}
    (hres : sslReadLoop c ctl reads size got s = some res) :
    ∃ used more bytes stop, reads = used ++ more ∧ Gathers size used bytes stop := by
  induction reads generalizing size got s with
  | nil => cases hres
  | cons r reads ih =>
      by_cases hnil : r.bytes = []
      · exact ⟨[r], reads, [], some r, rfl, .stop hnil⟩
      · by_cases hle : size ≤ r.bytes.length
        · exact ⟨[r], reads, _, none, rfl, .full hnil hle⟩
        · obtain ⟨last, s₁, h₁, hlast₁, hlast, hturn⟩ := h.sslReadLoop hssl ctl hsize r got
          have hlt : r.bytes.length < size := Nat.not_le.mp hle
          rw [List.take_of_length_le (Nat.le_of_lt hlt)] at hlast hturn
          rw [if_pos (List.length_pos_iff.mpr hnil)] at hlast
          subst hlast
          rw [hturn, if_pos rfl, if_neg (by omega)] at hres
          obtain ⟨used, more, bytes, stop, rfl, hrest⟩ :=
            ih (by omega) h₁ (s₁.isSome_of_sslLast hlast₁) hres
          exact ⟨r :: used, more, r.bytes ++ bytes, stop, rfl, .more hnil hlt hrest⟩

/-! ## Successive calls of `ssl_recv` -/

/-- One call of `ssl_recv`: the calls of `SSL_read` it makes, what it returns and the read event it
leaves. -/
structure SslCall where
  size : Nat
  ctl : EpollCtl → Int
  reads : List SslRead
  n : Int
  bytes : List UInt8
  rev : Event

/-- `ssl_recv` goes from `s` to `s'`: it returns after these calls of `SSL_read`, and not before. Its
`bytes` is an `int`, which holds the sizes below `2 ^ 31`. -/
structure SslCall.Goes (call : SslCall) (c : Slot) (s s' : Sockets) : Prop where
  size : 0 < call.size ∧ call.size < 2 ^ 31
  returns : sslRecv s c call.size call.reads call.ctl = some (call.n, call.bytes, s')
  notBefore : ∀ k < call.reads.length, sslRecv s c call.size (call.reads.take k) call.ctl = none
  rev : call.rev = s'.pool.events.ev (.read c)

/-- The calls of `ssl_recv` on `c` from `s₀` on. What the program does between them leaves the pointers
and `c->ssl->last`. -/
inductive SslRun (c : Slot) (s₀ : Sockets) : List SslCall → Sockets → Prop
  | start : SslRun c s₀ [] s₀
  | call {calls : List SslCall} {s : Sockets} {call : SslCall} {s' : Sockets} :
      SslRun c s₀ calls s → call.Goes c s s' → SslRun c s₀ (calls ++ [call]) s'
  | elsewhere {calls : List SslCall} {s s' : Sockets} :
      SslRun c s₀ calls s → Wired s' c → s'.sslLast c = s.sslLast c → SslRun c s₀ calls s'

/-- All calls of `SSL_read` that they have made. -/
def sslReads (calls : List SslCall) : List SslRead := calls.flatMap SslCall.reads

/-- The call returns no bytes and reports the end. -/
def SslCall.Reports (call : SslCall) (e : Ending) : Prop :=
  call.bytes = [] ∧ e.Reported call.n call.rev

/-- The call `call` that follows `calls` does what it should. -/
structure SslCall.Ok (calls : List SslCall) (call : SslCall) : Prop where
  bytes : call.bytes = produced call.size call.reads
  count : call.bytes ≠ [] → call.n = call.bytes.length
  empty : call.bytes = [] → call.n = -eagain ∨ ∃ e, call.Reports e
  /-- Without an end met before, it makes at least one call of `SSL_read`. -/
  reads : call.reads = [] → ∃ e r, (sslReads calls).getLast? = some r ∧ r.bytes = [] ∧
    (r.ending = some e ∨ r.err = .wantWrite ∧ e = .error) ∧ call.Reports e
  /-- It tells the handler to wait only for a call of `SSL_read` that has to read or to write. -/
  waits : call.n = -eagain → call.bytes = [] ∧ ∃ r, call.reads.getLast? = some r ∧ r.Wants
  /-- And for such a call it does so, unless it has bytes to return or `event_add` fails. -/
  wanted : ∀ r, call.reads.getLast? = some r → r.Wants →
    call.bytes ≠ [] ∨ call.n = -eagain ∨ r.err = .wantWrite ∧ call.Reports .error
  /-- An end is reported for the last call of `SSL_read`, behind all bytes. -/
  behind : ∀ e : Ending, call.n = e.rc → call.Reports e ∧
    ∃ r, (sslReads (calls ++ [call])).getLast? = some r ∧ r.bytes = [] ∧
      (r.ending = some e ∨ r.err = .wantWrite ∧ e = .error)
  /-- An end that this call meets is reported by it, unless it has bytes to return. -/
  atOnce : ∀ r e, call.reads.getLast? = some r → r.ending = some e → call.bytes ≠ [] ∨ call.Reports e
  /-- An end that an earlier call has met is reported without another call of `SSL_read`. -/
  later : ∀ r e, (sslReads calls).getLast? = some r → r.ending = some e →
    call.reads = [] ∧ call.Reports e
  /-- So is an end that has been reported. -/
  again : ∀ earlier ∈ calls, ∀ e : Ending, earlier.n = e.rc → call.reads = [] ∧ call.Reports e

theorem Ending.last_injective : Function.Injective Ending.last := by
  intro e e' h
  cases e <;> cases e' <;> first | rfl | exact absurd h (by decide)

theorem Ending.rc_injective : Function.Injective Ending.rc := by
  intro e e' h
  cases e <;> cases e' <;> first | rfl | exact absurd h (by decide)

theorem Ending.last_ne (e : Ending) : e.last ≠ 0 ∧ e.last ≠ -eagain := by
  cases e <;> decide

theorem Ending.rc_ne (e : Ending) : e.rc ≤ 0 ∧ e.rc ≠ -eagain := by
  cases e <;> decide

/-- What `c->ssl->last` tells after the calls. -/
structure Remembers (calls : List SslCall) (last : Int) : Prop where
  fresh : sslReads calls = [] → last = 0
  met : ∀ r, (sslReads calls).getLast? = some r → if r.bytes = [] then r.Leaves last else last = 0
  told : ∀ call ∈ calls, ∀ e : Ending, call.n = e.rc → last = e.last

theorem SslRead.nil_of_ending {r : SslRead} {e : Ending} (h : r.ending = some e) : r.bytes = [] := by
  rw [ending] at h
  by_contra hne
  rw [if_neg hne] at h
  cases h

theorem SslRead.Leaves.eq_last {r : SslRead} {last : Int} (h : r.Leaves last) {e : Ending}
    (he : r.ending = some e) : last = e.last := by
  rwa [Leaves, he] at h

/-- The end remembered is that of the last call of `SSL_read`. -/
theorem Remembers.exists_last {calls : List SslCall} {last : Int} (h : Remembers calls last)
    {e : Ending} (he : last = e.last) : ∃ r, (sslReads calls).getLast? = some r ∧ r.bytes = [] ∧
      (r.ending = some e ∨ r.err = .wantWrite ∧ e = .error) := by
  subst he
  cases hlast : (sslReads calls).getLast? with
  | none => exact absurd (h.fresh (List.getLast?_eq_none_iff.mp hlast)) e.last_ne.1
  | some r =>
      have hmet := h.met r hlast
      by_cases hnil : r.bytes = []
      · rw [if_pos hnil, SslRead.Leaves] at hmet
        refine ⟨r, rfl, hnil, ?_⟩
        cases hending : r.ending with
        | some e' =>
            rw [hending] at hmet
            exact .inl (congrArg some (Ending.last_injective hmet).symm)
        | none =>
            rw [hending] at hmet
            exact .inr (hmet.elim (fun h => absurd h e.last_ne.2)
              fun h => ⟨h.1, Ending.last_injective (show e.last = Ending.error.last from h.2)⟩)
      · rw [if_neg hnil] at hmet
        exact absurd hmet e.last_ne.1

/-- A call that finds an end remembered. -/
theorem Wired.sslRecv_ended {s : Sockets} {c : Slot} (h : Wired s c) {e : Ending}
    (hlast : s.sslLast c = some e.last) (size : Nat) (reads : List SslRead) (ctl : EpollCtl → Int) :
    ∃ s', sslRecv s c size reads ctl = some (e.rc, [], s') ∧ Wired s' c ∧
      s'.sslLast c = some e.last ∧ e.Reported e.rc (s'.pool.events.ev (.read c)) := by
  obtain ⟨ssl, hssl, hsslLast⟩ := Option.map_eq_some_iff.mp hlast
  simp only [sslRecv, h.read, hssl, hsslLast, Option.bind_eq_bind, Option.bind_some, Option.pure_def]
  cases e with
  | eof => exact ⟨_, rfl, h.modifyEvent _ rfl, hlast, rfl, by simp⟩
  | error => exact ⟨_, rfl, h.modifyEvent _ rfl, hlast, rfl, by simp⟩

/-- A call that finds none goes into the loop. -/
theorem Wired.sslRecv_loop {s : Sockets} {c : Slot} (h : Wired s c) {last : Int}
    (hlast : s.sslLast c = some last) (hne : ∀ e : Ending, last ≠ e.last) (size : Nat)
    (reads : List SslRead) (ctl : EpollCtl → Int) :
    sslRecv s c size reads ctl = Http.sslReadLoop c ctl reads size [] s := by
  obtain ⟨ssl, hssl, hsslLast⟩ := Option.map_eq_some_iff.mp hlast
  have herror : ssl.last ≠ -1 := hsslLast ▸ hne .error
  have heof : ssl.last ≠ -4 := hsslLast ▸ hne .eof
  simp only [sslRecv, h.read, hssl, Option.bind_eq_bind, Option.bind_some, if_neg herror, if_neg heof]

/-- What one call does: it reports the end remembered, or it gathers. -/
theorem SslCall.Goes.cases {call : SslCall} {c : Slot} {s s' : Sockets} (hgoes : call.Goes c s s')
    (h : Wired s c) {last : Int} (hlast : s.sslLast c = some last) :
    (∃ e : Ending, last = e.last ∧ call.reads = [] ∧ call.Reports e ∧ Wired s' c ∧
      s'.sslLast c = some last) ∨
    ((∀ e : Ending, last ≠ e.last) ∧ ∃ stop, Gathers call.size call.reads call.bytes stop ∧
      Returned c call.bytes stop call.n s') := by
  by_cases hended : ∃ e : Ending, last = e.last
  · obtain ⟨e, rfl⟩ := hended
    obtain ⟨s₁, hrecv, h₁, hlast₁, hreported⟩ :=
      h.sslRecv_ended hlast call.size call.reads call.ctl
    have hres := hrecv.symm.trans hgoes.returns
    simp only [Option.some.injEq, Prod.mk.injEq] at hres
    obtain ⟨hn, hbytes, rfl⟩ := hres
    refine .inl ⟨e, rfl, ?_, ⟨hbytes.symm, ?_⟩, h₁, hlast₁⟩
    · by_contra hne
      obtain ⟨s₂, hfirst, -⟩ := h.sslRecv_ended hlast call.size (call.reads.take 0) call.ctl
      have hnot := hgoes.notBefore 0 (List.length_pos_iff.mpr hne)
      rw [hfirst] at hnot
      cases hnot
    · rw [hgoes.rev, ← hn]
      exact hreported
  · have hne : ∀ e : Ending, last ≠ e.last := fun e he => hended ⟨e, he⟩
    have hloop := h.sslRecv_loop hlast hne call.size
    have hssl := s.isSome_of_sslLast hlast
    have hres := hgoes.returns
    rw [hloop] at hres
    obtain ⟨used, more, bytes, stop, hreads, hg⟩ :=
      exists_gathers_of_sslReadLoop hgoes.size.1 h hssl hres
    obtain ⟨n, s₁, hused, hret⟩ := sslReadLoop_gathers call.ctl hg hgoes.size.1 more h hssl []
    rw [← hreads, hres, List.nil_append] at hused
    simp only [Option.some.injEq, Prod.mk.injEq] at hused
    obtain ⟨rfl, rfl, rfl⟩ := hused
    have hmore : more = [] := by
      by_contra hmore
      obtain ⟨n, s₂, hfirst, -⟩ := sslReadLoop_gathers call.ctl hg hgoes.size.1 [] h hssl []
      have hlt : used.length < call.reads.length := by
        rw [hreads, List.length_append]
        exact Nat.lt_add_of_pos_right (List.length_pos_iff.mpr hmore)
      have hnot := hgoes.notBefore used.length hlt
      rw [hloop, hreads, List.take_left, ← List.append_nil used, hfirst] at hnot
      cases hnot
    rw [hmore, List.append_nil] at hreads
    exact .inr ⟨hne, stop, hreads ▸ hg, hret⟩

theorem sslReads_append (calls : List SslCall) (call : SslCall) :
    sslReads (calls ++ [call]) = sslReads calls ++ call.reads := by
  rw [sslReads, List.flatMap_append, List.flatMap_singleton]
  rfl

/-- A call that reports the end remembered. -/
theorem Remembers.report {calls : List SslCall} {e : Ending} (h : Remembers calls e.last)
    {call : SslCall} (hreads : call.reads = []) (hreports : call.Reports e) :
    Remembers (calls ++ [call]) e.last ∧ call.Ok calls := by
  have hall : sslReads (calls ++ [call]) = sslReads calls := by
    rw [sslReads_append, hreads, List.append_nil]
  have hafter : Remembers (calls ++ [call]) e.last :=
    { fresh := fun hnil => h.fresh (hall ▸ hnil)
      met := fun r hr => h.met r (hall ▸ hr)
      told := fun call' hmem e' hn => by
        rcases List.mem_append.mp hmem with hmem | hmem
        · exact h.told call' hmem e' hn
        · obtain rfl := List.mem_singleton.mp hmem
          rw [Ending.rc_injective (hreports.2.1.symm.trans hn)] }
  have hsame : ∀ e' : Ending, e.last = e'.last → call.reads = [] ∧ call.Reports e' := fun e' he => by
    rw [← Ending.last_injective he]
    exact ⟨hreads, hreports⟩
  refine ⟨hafter, ?_, fun hne => absurd hreports.1 hne, fun _ => .inr ⟨e, hreports⟩,
    fun _ => ?_, fun hn => absurd (hreports.2.1.symm.trans hn) e.rc_ne.2, ?_, fun e' hn => ?_, ?_,
    fun r e' hr he => ?_, fun earlier hmem e' hn => hsame e' (h.told earlier hmem e' hn)⟩
  · rw [hreads, hreports.1]
    rfl
  · obtain ⟨r, hr, hnil, hend⟩ := h.exists_last rfl
    exact ⟨e, r, hr, hnil, hend, hreports⟩
  · rw [hreads]
    simp
  · obtain rfl := Ending.rc_injective (hreports.2.1.symm.trans hn)
    exact ⟨hreports, hafter.exists_last rfl⟩
  · rw [hreads]
    simp
  · have hmet := h.met r hr
    rw [if_pos (SslRead.nil_of_ending he)] at hmet
    exact hsame e' (hmet.eq_last he)

/-- What a call that gathers has done: `r` is its last call of `SSL_read`, and `last` what it leaves in
`c->ssl->last`. -/
structure SslCall.Gathered (call : SslCall) (r : SslRead) (last : Int) : Prop where
  reads : call.reads.getLast? = some r
  met : if r.bytes = [] then r.Leaves last else last = 0
  bytes : call.bytes = produced call.size call.reads
  count : call.bytes ≠ [] → call.n = call.bytes.length
  empty : call.bytes = [] → call.n = -eagain ∧ last = -eagain ∨
    ∃ e : Ending, last = e.last ∧ call.Reports e

theorem SslCall.Goes.gathered {call : SslCall} {c : Slot} {s s' : Sockets} (hgoes : call.Goes c s s')
    {stop : Option SslRead} (hg : Gathers call.size call.reads call.bytes stop)
    (hret : Returned c call.bytes stop call.n s') :
    ∃ r last, s'.sslLast c = some last ∧ call.Gathered r last := by
  obtain ⟨last, hlast, hnone, hsome, hempty⟩ := hret.left
  obtain ⟨before, r, hreads, hr⟩ := hg.last_eq
  refine ⟨r, last, hlast, by rw [hreads, List.getLast?_concat], ?_, hg.produced_eq.symm, hret.count,
    fun hnil => (hempty hnil).imp_right fun ⟨e, he, hreported⟩ => ⟨e, he, hnil, hgoes.rev ▸ hreported⟩⟩
  rcases hr with ⟨hstop, hnil⟩ | ⟨hstop, hne⟩
  · rw [if_pos hnil]
    exact hsome r hstop
  · rw [if_neg hne]
    exact hnone hstop

namespace SslCall.Gathered

variable {call : SslCall} {r : SslRead} {last : Int} (h : call.Gathered r last)

include h

theorem leaves (hnil : r.bytes = []) : r.Leaves last := by
  have hmet := h.met
  rwa [if_pos hnil] at hmet

/-- An end that is returned is reported. -/
theorem told {e : Ending} (hn : call.n = e.rc) : last = e.last ∧ call.Reports e := by
  by_cases hnil : call.bytes = []
  · rcases h.empty hnil with ⟨hagain, -⟩ | ⟨e', he', hreports⟩
    · exact absurd (hn.symm.trans hagain) e.rc_ne.2
    · obtain rfl := Ending.rc_injective (hreports.2.1.symm.trans hn)
      exact ⟨he', hreports⟩
  · have hcount := h.count hnil
    have hpos := List.length_pos_iff.mpr hnil
    have hle := e.rc_ne.1
    omega

theorem waits (hn : call.n = -eagain) : call.bytes = [] ∧ r.Wants := by
  have hnil : call.bytes = [] := by
    by_contra hnil
    rw [h.count hnil, eagain] at hn
    omega
  rcases h.empty hnil with ⟨-, hagain⟩ | ⟨e, -, hreports⟩
  · refine ⟨hnil, r.wants_iff.mpr ?_⟩
    by_cases hr : r.bytes = []
    · refine ⟨hr, ?_⟩
      cases hending : r.ending with
      | none => rfl
      | some e => exact absurd (((h.leaves hr).eq_last hending).symm.trans hagain) e.last_ne.2
    · have hmet := h.met
      rw [if_neg hr] at hmet
      exact absurd (hmet.symm.trans hagain) (by decide)
  · exact absurd (hreports.2.1.symm.trans hn) e.rc_ne.2

theorem wanted (hwants : r.Wants) :
    call.bytes ≠ [] ∨ call.n = -eagain ∨ r.err = .wantWrite ∧ call.Reports .error := by
  obtain ⟨hr, hending⟩ := r.wants_iff.mp hwants
  by_cases hnil : call.bytes = []
  · rcases h.empty hnil with ⟨hagain, -⟩ | ⟨e, he, hreports⟩
    · exact .inr (.inl hagain)
    · -- `event_add` has failed
      have hleaves := h.leaves hr
      rw [SslRead.Leaves, hending] at hleaves
      obtain ⟨hwrite, herror⟩ := hleaves.resolve_left (he ▸ e.last_ne.2)
      have hlast : e.last = Ending.error.last := he.symm.trans herror
      exact .inr (.inr ⟨hwrite, Ending.last_injective hlast ▸ hreports⟩)
  · exact .inl hnil

theorem atOnce {e : Ending} (he : r.ending = some e) : call.bytes ≠ [] ∨ call.Reports e := by
  by_cases hnil : call.bytes = []
  · have hlast := (h.leaves (SslRead.nil_of_ending he)).eq_last he
    rcases h.empty hnil with ⟨-, hagain⟩ | ⟨e', he', hreports⟩
    · exact absurd (hlast.symm.trans hagain) e.last_ne.2
    · obtain rfl := Ending.last_injective (hlast.symm.trans he')
      exact .inr hreports
  · exact .inl hnil

end SslCall.Gathered

/-- A call that gathers. -/
theorem Remembers.gather {calls : List SslCall} {last last' : Int} (h : Remembers calls last)
    (hne : ∀ e : Ending, last ≠ e.last) {call : SslCall} {r : SslRead} (hg : call.Gathered r last') :
    Remembers (calls ++ [call]) last' ∧ call.Ok calls := by
  have hsome : call.reads ≠ [] := by
    intro hnil
    have hlast := hg.reads
    rw [hnil] at hlast
    cases hlast
  have hall : (sslReads (calls ++ [call])).getLast? = some r := by
    rw [sslReads_append, List.getLast?_append, hg.reads, Option.some_or]
  have hafter : Remembers (calls ++ [call]) last' :=
    { fresh := fun hnil => by
        rw [hnil] at hall
        cases hall
      met := fun r' hr' => by
        obtain rfl := Option.some.inj (hall.symm.trans hr')
        exact hg.met
      told := fun call' hmem e hn => by
        rcases List.mem_append.mp hmem with hmem | hmem
        · exact absurd (h.told call' hmem e hn) (hne e)
        · obtain rfl := List.mem_singleton.mp hmem
          exact (hg.told hn).1 }
  have hlast : ∀ r', call.reads.getLast? = some r' → r' = r := fun r' hr' =>
    Option.some.inj (hr'.symm.trans hg.reads)
  exact ⟨hafter,
    { bytes := hg.bytes
      count := hg.count
      empty := fun hnil => (hg.empty hnil).imp And.left fun ⟨e, _, hreports⟩ => ⟨e, hreports⟩
      reads := fun hnil => absurd hnil hsome
      waits := fun hn => ⟨(hg.waits hn).1, r, hg.reads, (hg.waits hn).2⟩
      wanted := fun r' hr' hwants => by
        rw [hlast r' hr'] at hwants ⊢
        exact hg.wanted hwants
      behind := fun e hn => ⟨(hg.told hn).2, hafter.exists_last (hg.told hn).1⟩
      atOnce := fun r' e hr' he => hg.atOnce (hlast r' hr' ▸ he)
      later := fun r' e hr' he => by
        have hmet := h.met r' hr'
        rw [if_pos (SslRead.nil_of_ending he)] at hmet
        exact absurd (hmet.eq_last he) (hne e)
      again := fun earlier hmem e hn => absurd (h.told earlier hmem e hn) (hne e) }⟩

/-- One call. -/
theorem SslCall.Goes.step {call : SslCall} {c : Slot} {s s' : Sockets} (hgoes : call.Goes c s s')
    (h : Wired s c) {last : Int} (hlast : s.sslLast c = some last) {calls : List SslCall}
    (hrem : Remembers calls last) : call.Ok calls ∧ Wired s' c ∧
      ∃ last', s'.sslLast c = some last' ∧ Remembers (calls ++ [call]) last' := by
  rcases hgoes.cases h hlast with ⟨e, rfl, hreads, hreports, h', hlast'⟩ | ⟨hne, stop, hg, hret⟩
  · obtain ⟨hrem', hok⟩ := hrem.report hreads hreports
    exact ⟨hok, h', e.last, hlast', hrem'⟩
  · obtain ⟨r, last', hlast', hgathered⟩ := hgoes.gathered hg hret
    obtain ⟨hrem', hok⟩ := hrem.gather hne hgathered
    exact ⟨hok, hret.wired, last', hlast', hrem'⟩

/-- All calls of a run. -/
theorem SslRun.remembers {c : Slot} {s₀ s : Sockets} {calls : List SslCall}
    (hrun : SslRun c s₀ calls s) (h₀ : Wired s₀ c) (hlast₀ : s₀.sslLast c = some 0) :
    Wired s c ∧ (∃ last, s.sslLast c = some last ∧ Remembers calls last) ∧
      calls.flatMap SslCall.bytes = calls.flatMap fun call => produced call.size call.reads := by
  induction hrun with
  | start => exact ⟨h₀, ⟨0, hlast₀, fun _ => rfl, by simp [sslReads], by simp⟩, rfl⟩
  | call _ hgoes ih =>
      obtain ⟨h, ⟨last, hlast, hrem⟩, hbytes⟩ := ih
      obtain ⟨hok, h', hrem'⟩ := hgoes.step h hlast hrem
      refine ⟨h', hrem', ?_⟩
      rw [List.flatMap_append, List.flatMap_append, hbytes, List.flatMap_singleton,
        List.flatMap_singleton, hok.bytes]
  | elsewhere _ h' hlast' ih =>
      obtain ⟨-, ⟨last, hlast, hrem⟩, hbytes⟩ := ih
      exact ⟨h', ⟨last, hlast'.trans hlast, hrem⟩, hbytes⟩

/-- Whatever `SSL_read` goes on to return, a call of `ssl_recv` ends. -/
theorem exists_goes (outs : Nat → SslRead) (start : Nat) {s : Sockets} {c : Slot} (h : Wired s c)
    {last : Int} (hlast : s.sslLast c = some last) {size : Nat} (hsize : 0 < size ∧ size < 2 ^ 31)
    (ctl : EpollCtl → Int) : ∃ call s' k, SslCall.Goes call c s s' ∧ (call.size, call.ctl) = (size, ctl) ∧
      call.reads = (List.range' start k).map outs := by
  by_cases hended : ∃ e : Ending, last = e.last
  · obtain ⟨e, rfl⟩ := hended
    obtain ⟨s', hrecv, -, -, -⟩ := h.sslRecv_ended hlast size [] ctl
    refine ⟨⟨size, ctl, [], e.rc, [], s'.pool.events.ev (.read c)⟩, s', 0, ⟨hsize, hrecv, ?_, rfl⟩,
      rfl, rfl⟩
    exact fun k hk => absurd hk (Nat.not_lt_zero k)
  · have hne : ∀ e : Ending, last ≠ e.last := fun e he => hended ⟨e, he⟩
    have hloop := h.sslRecv_loop hlast hne size
    have hssl := s.isSome_of_sslLast hlast
    obtain ⟨k, bytes, stop, hg⟩ := exists_gathers outs hsize.1 start
    obtain ⟨n, s', hrecv, -⟩ := sslReadLoop_gathers ctl hg hsize.1 [] h hssl []
    rw [List.append_nil] at hrecv
    refine ⟨⟨size, ctl, (List.range' start k).map outs, n, bytes, s'.pool.events.ev (.read c)⟩, s', k,
      ⟨hsize, (hloop _ _).trans hrecv, fun j hj => ?_, rfl⟩, rfl, rfl⟩
    -- a call that ended earlier would have gathered with fewer calls of `SSL_read`
    rw [hloop, ← Option.not_isSome_iff_eq_none]
    intro hearly
    obtain ⟨res, hres⟩ := Option.isSome_iff_exists.mp hearly
    obtain ⟨used, more, bytes', stop', htake, hg'⟩ :=
      exists_gathers_of_sslReadLoop hsize.1 h hssl hres
    have hreads := List.take_append_drop j ((List.range' start k).map outs)
    rw [htake, List.append_assoc] at hreads
    have hdrop := (List.append_eq_nil_iff.mp (hg.eq_of_append hg' hreads.symm)).2
    rw [List.drop_eq_nil_iff] at hdrop
    exact absurd hj (Nat.not_lt.mpr hdrop)

/-- `ssl_recv` loses nothing and repeats nothing. The bytes returned are those that `SSL_read` has
brought, and an end is reported behind them, by every call from then on. And for every sequence of
results of `SSL_read` and every sequence of calls there is such a run. -/
theorem sslRecv_losesNothing {c : Slot} {s₀ : Sockets} (h₀ : Wired s₀ c)
    (hlast₀ : s₀.sslLast c = some 0) :
    (∀ calls s, SslRun c s₀ calls s →
      calls.flatMap SslCall.bytes = (calls.flatMap fun call => produced call.size call.reads) ∧
        ∀ call s', SslCall.Goes call c s s' → call.Ok calls) ∧
      ∀ (outs : Nat → SslRead) (plan : List (Nat × (EpollCtl → Int))),
        (∀ x ∈ plan, 0 < x.1 ∧ x.1 < 2 ^ 31) →
          ∃ calls s k, SslRun c s₀ calls s ∧ calls.map (fun call => (call.size, call.ctl)) = plan ∧
            sslReads calls = (List.range' 0 k).map outs := by
  refine ⟨fun calls s hrun => ?_, fun outs plan hplan => ?_⟩
  · obtain ⟨h, ⟨last, hlast, hrem⟩, hbytes⟩ := hrun.remembers h₀ hlast₀
    exact ⟨hbytes, fun call s' hgoes => (hgoes.step h hlast hrem).1⟩
  · induction plan using List.reverseRecOn with
    | nil => exact ⟨[], s₀, 0, .start, rfl, rfl⟩
    | append_singleton plan x ih =>
        obtain ⟨calls, s, k, hrun, hcalls, hreads⟩ :=
          ih fun y hy => hplan y (List.mem_append_left _ hy)
        obtain ⟨h, ⟨last, hlast, -⟩, -⟩ := hrun.remembers h₀ hlast₀
        obtain ⟨call, s', j, hgoes, hcall, hmore⟩ := exists_goes outs (0 + k) h hlast
          (hplan x (List.mem_append_right _ (List.mem_singleton_self x))) x.2
        refine ⟨calls ++ [call], s', k + j, .call hrun hgoes, ?_, ?_⟩
        · rw [List.map_append, hcalls, List.map_singleton, hcall]
        · rw [sslReads_append, hreads, hmore, ← List.map_append, List.range'_append_1]

/-- One connection, whose TLS object has just been made. -/
def freshTls : Sockets where
  pool :=
    { n := 1
      connections := fun i =>
        { data := .owner 1, read := some (.read i), write := some (.write i), fd := 3 }
      events := { ev := fun e => { data := some e.slot }, rbtree := [] }
      freeConnections := .null
      freeConnectionN := 0 }
  io := fun _ => { recv := some .ssl, send := some .ssl, ssl := some {} }

/-- Three bytes, and then a shutdown over and over. -/
def threeBytes : Nat → SslRead
  | 0 => { bytes := [72, 105, 33] }
  | _ => { err := .zeroReturn }

/-- Three calls on them: the bytes come first, and then the end, twice. -/
theorem sslRecv_losesNothing_threeBytes : ∃ calls s k, SslRun 0 freshTls calls s ∧
    calls.map SslCall.size = [4, 4, 4] ∧ sslReads calls = (List.range' 0 k).map threeBytes ∧
      calls.flatMap SslCall.bytes = calls.flatMap fun call => produced call.size call.reads := by
  have hwired : Wired freshTls 0 := ⟨rfl, rfl, rfl⟩
  obtain ⟨hruns, hexists⟩ := sslRecv_losesNothing hwired rfl
  obtain ⟨calls, s, k, hrun, hcalls, hreads⟩ :=
    hexists threeBytes [(4, fun _ => 0), (4, fun _ => 0), (4, fun _ => 0)] (by simp)
  refine ⟨calls, s, k, hrun, ?_, hreads, (hruns calls s hrun).1⟩
  have hsizes := congrArg (List.map Prod.fst) hcalls
  rwa [List.map_map] at hsizes

end Crawler.Http
