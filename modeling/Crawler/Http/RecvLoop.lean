/-
# Crawler.Http.RecvLoop — what one run of the receive loop appends

`http_read_event_process` calls `c->recv` for the room between `last` and `end`, and resizes the
buffer when there is none. A resized buffer is larger, so that `c->recv` is never asked for no bytes;
that would look like the end of the stream. What is received is appended, and the position keeps its
offset, wherever it is: a skipped chunk leaves it beyond `last`, and `resize_temp_buf` moves it along
with the bytes (`Receives.run`).
-/
import Crawler.Http.Handlers

namespace Crawler.Http

open Crawler.Lib Crawler.EventTimer Crawler.Connections

/-! ## The buffer -/

/-- The buffer holds no more than it has room for, and `last` is behind what has been written. -/
structure Roomy (b : HttpBuf) : Prop where
  cap : 0 < b.cap
  le : b.bytes.length ≤ b.cap
  excess : b.excess = 0

/-- `b'` holds the bytes of `b` and `more` behind them, and its position has the same offset. -/
structure Extends (b b' : HttpBuf) (more : List UInt8) : Prop where
  bytes : b'.bytes = b.bytes ++ more
  pos : b'.pos = b.pos

theorem Extends.trans {b₀ b₁ b₂ : HttpBuf} {bytes bytes' : List UInt8} (h : Extends b₀ b₁ bytes)
    (h' : Extends b₁ b₂ bytes') : Extends b₀ b₂ (bytes ++ bytes') where
  bytes := by rw [h'.bytes, h.bytes, List.append_assoc]
  pos := h'.pos.trans h.pos

/-- `if (b->last == b->end) resize_temp_buf(b)`. -/
def makeRoom (b : HttpBuf) (start : Addr) : HttpBuf :=
  if b.bytes.length = b.cap then resizeTempBuf b start else b

/-- Afterwards there is room. -/
theorem Roomy.makeRoom {b : HttpBuf} (h : Roomy b) (start : Addr) :
    Roomy (makeRoom b start) ∧ (makeRoom b start).bytes.length < (makeRoom b start).cap ∧
      Extends b (makeRoom b start) [] := by
  have hle := h.le
  have hcap := h.cap
  rw [Http.makeRoom]
  split
  case isTrue hfull =>
    have hgrows : b.cap < (resizeTempBuf b start).cap := by
      simp only [resizeTempBuf]
      split
      · omega
      · rw [baseRange]
        omega
    have hroom : b.bytes.length < (resizeTempBuf b start).cap := Nat.lt_of_le_of_lt hle hgrows
    exact ⟨⟨Nat.lt_trans hcap hgrows, Nat.le_of_lt hroom, h.excess⟩, hroom,
      (List.append_nil _).symm, rfl⟩
  case isFalse hfull =>
    exact ⟨h, Nat.lt_of_le_of_ne hle hfull, (List.append_nil _).symm, rfl⟩

theorem Roomy.append {b : HttpBuf} (h : Roomy b) {bytes : List UInt8}
    (hle : bytes.length ≤ b.cap - b.bytes.length) : Roomy (b.append bytes) where
  cap := h.cap
  le := by
    rw [HttpBuf.append, List.length_append]
    exact Nat.add_le_of_le_sub' h.le hle
  excess := h.excess

/-! ## One call of `c->recv` -/

/-- One call of `c->recv`: the size asked for, the value returned, and the bytes received. -/
structure RecvCall where
  size : Nat
  n : Int
  bytes : List UInt8
  deriving DecidableEq, Repr

/-- The loop ends with this call. -/
def RecvCall.Ends (call : RecvCall) : Prop := call.n = -eagain ∨ call.n = 0 ∨ call.n = -1

instance (call : RecvCall) : Decidable call.Ends := by unfold RecvCall.Ends; infer_instance

/-- What `c->recv` keeps to: it was asked for at least one byte, and it returns as many as it says, or
none with one of the values that end the loop. -/
structure RecvCall.Ok (call : RecvCall) : Prop where
  size : 0 < call.size
  bytes : call.bytes ≠ [] → call.n = call.bytes.length ∧ call.bytes.length ≤ call.size
  nil : call.bytes = [] → call.Ends

/-- A call has received something, or it ends the loop. -/
theorem RecvCall.Ok.cases {call : RecvCall} (h : call.Ok) :
    0 < call.n ∧ call.bytes ≠ [] ∧ ¬ call.Ends ∨ ¬ 0 < call.n ∧ call.bytes = [] ∧ call.Ends := by
  by_cases hnil : call.bytes = []
  · have hends := h.nil hnil
    refine .inr ⟨?_, hnil, hends⟩
    rcases hends with hn | hn | hn <;> rw [hn] <;> decide
  · have hn := (h.bytes hnil).1
    have hpos : 0 < call.n := by
      rw [hn]
      exact Int.natCast_pos.mpr (List.length_pos_iff.mpr hnil)
    refine .inl ⟨hpos, hnil, ?_⟩
    rintro (hends | hends | hends) <;> rw [hends] at hpos <;> exact absurd hpos (by decide)

/-- A call that has received something. -/
theorem RecvCall.Ok.received {size : Nat} (hsize : 0 < size) {bytes : List UInt8} (hne : bytes ≠ [])
    (hle : bytes.length ≤ size) : RecvCall.Ok ⟨size, bytes.length, bytes⟩ :=
  ⟨hsize, fun _ => ⟨rfl, hle⟩, fun hnil => absurd hnil hne⟩

/-- A call that ends the loop. -/
theorem RecvCall.Ok.ended {size : Nat} (hsize : 0 < size) {n : Int}
    (hn : n = -eagain ∨ n = 0 ∨ n = -1) : RecvCall.Ok ⟨size, n, []⟩ :=
  ⟨hsize, fun hne => absurd rfl hne, fun _ => hn⟩

theorem unixRecv_ok {size : Nat} (hsize : 0 < size) {ev ev' : Event} {sys : List SysRecv} {n : Int}
    {bytes : List UInt8} (h : unixRecv size ev sys = some (n, bytes, ev')) :
    RecvCall.Ok ⟨size, n, bytes⟩ := by
  induction sys with
  | nil => cases h
  | cons r sys ih =>
      cases r with
      | bytes bs =>
          simp only [unixRecv] at h
          split at h
          case isTrue =>
            cases h
            exact .ended hsize (.inr (.inl rfl))
          case isFalse hlen =>
            cases h
            refine .received hsize (fun hnil => hlen (congrArg List.length hnil)) ?_
            rw [List.length_take]
            exact Nat.min_le_left _ _
      | again =>
          cases h
          exact .ended hsize (.inl rfl)
      | intr => exact ih h
      | error =>
          cases h
          exact .ended hsize (.inr (.inr rfl))

/-- `ssl_handle_recv` returns 0 after bytes, and else a value other than 0. -/
theorem sslHandleRecv_last {s s' : Sockets} {c : Slot} {ssl : SslConnection} {n : Nat} {r : SslRead}
    {ctl : EpollCtl → Int} {last : Int} (h : sslHandleRecv s c ssl n r ctl = some (last, s')) :
    0 < n ∧ last = 0 ∨ n = 0 ∧ (last = -eagain ∨ last = -4 ∨ last = -1) := by
  obtain ⟨rev, -, h⟩ := Option.bind_eq_some_iff.mp h
  obtain ⟨wev, -, h⟩ := Option.bind_eq_some_iff.mp h
  by_cases hn : 0 < n
  · refine .inl ⟨hn, ?_⟩
    simp only [if_pos hn] at h
    cases hsaved : ssl.savedWriteHandler <;> rw [hsaved] at h <;> cases h <;> rfl
  · refine .inr ⟨Nat.eq_zero_of_not_pos hn, ?_⟩
    simp only [if_neg hn] at h
    cases herr : r.err with
    | wantRead =>
        rw [herr] at h
        cases h
        exact .inl rfl
    | wantWrite =>
        rw [herr] at h
        obtain ⟨⟨rc, k⟩, -, h⟩ := Option.bind_eq_some_iff.mp h
        simp only at h
        split_ifs at h <;> cases h
        · exact .inr (.inr rfl)
        · exact .inl rfl
        · exact .inl rfl
    | zeroReturn =>
        rw [herr] at h
        cases h
        exact .inr (.inl rfl)
    | other =>
        rw [herr] at h
        cases h
        split
        · exact .inr (.inl rfl)
        · exact .inr (.inr rfl)

/-- What the loop of `ssl_recv` returns, by induction on the calls of `SSL_read`: `got` is never longer
than the buffer was at first. -/
theorem sslReadLoop_ok {c : Slot} {ctl : EpollCtl → Int} {total : Nat} (htotal : 0 < total)
    {reads : List SslRead} {size : Nat} {got : List UInt8} {s k : Sockets} {n : Int} {bytes : List UInt8}
    (hsize : got.length + size = total) (h : sslReadLoop c ctl reads size got s = some (n, bytes, k)) :
    RecvCall.Ok ⟨total, n, bytes⟩ := by
  induction reads generalizing size got s with
  | nil => cases h
  | cons r reads ih =>
      obtain ⟨rev, -, h⟩ := Option.bind_eq_some_iff.mp h
      obtain ⟨ssl, -, h⟩ := Option.bind_eq_some_iff.mp h
      obtain ⟨⟨last, s'⟩, hhandle, h⟩ := Option.bind_eq_some_iff.mp h
      have hlast := sslHandleRecv_last hhandle
      have htake : (r.bytes.take size).length ≤ size := by
        rw [List.length_take]
        exact Nat.min_le_left _ _
      generalize r.bytes.take size = more at h hlast htake
      have hgot : (got ++ more).length ≤ total := by
        rw [List.length_append]
        omega
      simp only at h
      by_cases hzero : last = 0
      · -- bytes have come: it goes on unless the buffer is full
        have hmore : more ≠ [] := by
          rcases hlast with ⟨hpos, -⟩ | ⟨-, hlast⟩
          · exact List.length_pos_iff.mp hpos
          · rw [hzero] at hlast
            exact absurd hlast (by decide)
        rw [if_pos hzero] at h
        split_ifs at h
        · cases h
          exact .received htotal (List.append_ne_nil_of_right_ne_nil _ hmore) hgot
        · refine ih ?_ h
          rw [List.length_append]
          omega
      · -- none have come: it returns what it has got, or else the reason
        rw [if_neg hzero] at h
        have hstop := (hlast.resolve_left fun hpos => hzero hpos.2).2
        by_cases hne : (got ++ more).length ≠ 0
        · have hreceived : RecvCall.Ok ⟨total, (got ++ more).length, got ++ more⟩ :=
            .received htotal (fun hnil => hne (congrArg List.length hnil)) hgot
          rw [if_pos hne] at h
          split_ifs at h <;> cases h <;> exact hreceived
        · rw [if_neg hne] at h
          split_ifs at h with heof herror <;> cases h
          · exact .ended htotal (.inr (.inl rfl))
          · exact .ended htotal (.inr (.inr rfl))
          · exact .ended htotal (.inl (hstop.resolve_right fun hend => hend.elim heof herror))

theorem sslRecv_ok {s k : Sockets} {c : Slot} {size : Nat} (hsize : 0 < size) {reads : List SslRead}
    {ctl : EpollCtl → Int} {n : Int} {bytes : List UInt8}
    (h : sslRecv s c size reads ctl = some (n, bytes, k)) : RecvCall.Ok ⟨size, n, bytes⟩ := by
  obtain ⟨rev, -, h⟩ := Option.bind_eq_some_iff.mp h
  obtain ⟨ssl, -, h⟩ := Option.bind_eq_some_iff.mp h
  split_ifs at h
  · cases h
    exact .ended hsize (.inr (.inr rfl))
  · cases h
    exact .ended hsize (.inr (.inl rfl))
  · exact sslReadLoop_ok hsize (Nat.zero_add size) h

/-- Whatever `c->recv` is, it keeps to what the loop expects of it. -/
theorem recv_ok {s k : Sockets} {c : Slot} {size : Nat} (hsize : 0 < size) {turn : RecvTurn}
    {ctl : EpollCtl → Int} {n : Int} {bytes : List UInt8}
    (h : s.recv c size turn ctl = some (n, bytes, k)) : RecvCall.Ok ⟨size, n, bytes⟩ := by
  rw [Sockets.recv] at h
  cases hio : (s.io c).recv with
  | none =>
      rw [hio] at h
      cases h
  | some io =>
      rw [hio] at h
      cases io with
      | unix =>
          obtain ⟨rev, -, h⟩ := Option.bind_eq_some_iff.mp h
          obtain ⟨⟨m, bs, ev⟩, hunix, h⟩ := Option.bind_eq_some_iff.mp h
          cases h
          exact unixRecv_ok hsize hunix
      | ssl => exact sslRecv_ok hsize h

/-! ## The loop -/

/-- One turn of the receive loop: the call of `c->recv` it makes and the state it leaves. -/
def recvTurn (c : Slot) (o : Addr) (ctl : EpollCtl → Int) (turn : RecvTurn) (s : EventLoop) :
    Option (RecvCall × EventLoop) := do
  let client ← s.clients o
  let b ← client.recv
  let b := makeRoom b turn.start
  let (n, bytes, k) ← s.sockets.recv c (b.cap - b.bytes.length) turn ctl
  let call : RecvCall := ⟨b.cap - b.bytes.length, n, bytes⟩
  let b := if 0 < n then b.append bytes else b
  return (call, (s.withSockets k).modify o fun client => { client with recv := some b })

/-- The calls that the receive loop makes and the state behind the last one. -/
def recvRun (c : Slot) (o : Addr) (ctl : EpollCtl → Int) :
    List RecvTurn → EventLoop → List RecvCall × EventLoop
  | [], s => ([], s)
  | turn :: turns, s =>
      match recvTurn c o ctl turn s with
      | none => ([], s)
      | some (call, s') =>
          if call.Ends then ([call], s')
          else
            let r := recvRun c o ctl turns s'
            (call :: r.1, r.2)

/-- How the loop ends: by what its last call has returned. -/
def loopEnd (resetTime : Bool) (r : List RecvCall × EventLoop) :
    Option (Except EventLoop (EventLoop × Bool)) :=
  match r.1.getLast? with
  | none => none
  | some call =>
      if call.n = -eagain ∨ call.n = 0 then
        some (.ok (r.2, resetTime || r.1.any fun call => 0 < call.n))
      else if call.n = -1 then some (.error r.2)
      else none

/-- The state it ends in is the one behind that call. -/
theorem loopEnd_cases {resetTime : Bool} {run : List RecvCall × EventLoop}
    {r : Except EventLoop (EventLoop × Bool)} (h : loopEnd resetTime run = some r) :
    r = .error run.2 ∨ ∃ resetTime', r = .ok (run.2, resetTime') := by
  rw [loopEnd] at h
  split at h
  · cases h
  · split_ifs at h <;> cases h
    · exact .inr ⟨_, rfl⟩
    · exact .inl rfl

section

variable {c : Slot} {o : Addr} {ctl : EpollCtl → Int}

theorem recvLoop_cons (turn : RecvTurn) (turns : List RecvTurn) (s : EventLoop) (resetTime : Bool) :
    recvLoop c o ctl (turn :: turns) s resetTime =
      (recvTurn c o ctl turn s).bind fun (call, s') =>
        if call.n = -eagain ∨ call.n = 0 then some (.ok (s', resetTime || decide (0 < call.n)))
        else if call.n = -1 then some (.error s')
        else recvLoop c o ctl turns s' (resetTime || decide (0 < call.n)) := by
  simp only [recvLoop, recvTurn, makeRoom, Option.bind_eq_bind, Option.bind_assoc, Option.pure_def,
    Option.bind_some]

/-- The loop ends when a call ends it, with the first such call, and goes on receiving otherwise. By
induction on the calls. -/
theorem recvLoop_eq (turns : List RecvTurn) (s : EventLoop) (resetTime : Bool) :
    recvLoop c o ctl turns s resetTime = loopEnd resetTime (recvRun c o ctl turns s) := by
  induction turns generalizing s resetTime with
  | nil => rfl
  | cons turn turns ih =>
      rw [recvLoop_cons, recvRun]
      cases hturn : recvTurn c o ctl turn s with
      | none => rfl
      | some r =>
          obtain ⟨call, s'⟩ := r
          simp only [Option.bind_some]
          by_cases hends : call.Ends
          · rw [if_pos hends]
            simp only [loopEnd, List.getLast?_singleton, List.any_cons, List.any_nil, Bool.or_false]
            rcases hends with hn | hn | hn <;> simp [hn, eagain]
          · have hgo : ¬ (call.n = -eagain ∨ call.n = 0) := fun h => hends (h.imp_right .inl)
            rw [if_neg hends, if_neg hgo, if_neg fun h => hends (.inr (.inr h)), ih]
            generalize recvRun c o ctl turns s' = r
            obtain ⟨calls, s''⟩ := r
            cases calls with
            | nil =>
                simp only [loopEnd, List.getLast?_nil, List.getLast?_singleton]
                rw [if_neg hgo, if_neg fun h => hends (.inr (.inr h))]
            | cons call' calls =>
                simp only [loopEnd, List.getLast?_cons_cons, List.any_cons, Bool.or_assoc]

/-- The client `o` has `b` to receive into. -/
structure Receives (o : Addr) (b : HttpBuf) (s : EventLoop) : Prop where
  buffer : (s.clients o).map HttpClient.recv = some (some b)
  roomy : Roomy b

/-- One turn appends what it has received. -/
theorem Receives.turn {b : HttpBuf} {s s' : EventLoop} (h : Receives o b s) {turn : RecvTurn}
    {call : RecvCall} (hturn : recvTurn c o ctl turn s = some (call, s')) :
    call.Ok ∧ ∃ b', Receives o b' s' ∧ Extends b b' call.bytes := by
  obtain ⟨client, hclient, hb⟩ := Option.map_eq_some_iff.mp h.buffer
  obtain ⟨hroomy, hroom, hmade⟩ := h.roomy.makeRoom turn.start
  simp only [recvTurn, hclient, hb, Option.bind_eq_bind, Option.bind_some, Option.pure_def] at hturn
  generalize makeRoom b turn.start = b₁ at hturn hroomy hroom hmade
  obtain ⟨⟨n, bytes, k⟩, hrecv, hturn⟩ := Option.bind_eq_some_iff.mp hturn
  have hsize : 0 < b₁.cap - b₁.bytes.length := Nat.sub_pos_of_lt hroom
  have hok := recv_ok hsize hrecv
  simp only [Option.some.injEq, Prod.mk.injEq] at hturn
  obtain ⟨rfl, rfl⟩ := hturn
  -- `b->last` moves only where something has been received
  refine ⟨hok, if 0 < n then b₁.append bytes else b₁, ⟨?_, ?_⟩, ?_⟩
  · simp [EventLoop.modify, World.modify, EventLoop.withSockets, hclient]
  · rcases hok.cases with ⟨hn, hne, -⟩ | ⟨hn, -, -⟩
    · rw [if_pos hn]
      exact hroomy.append (hok.bytes hne).2
    · rw [if_neg hn]
      exact hroomy
  · rcases hok.cases with ⟨hn, -, -⟩ | ⟨hn, hnil, -⟩
    · rw [if_pos hn]
      exact hmade.trans ⟨rfl, rfl⟩
    · rw [if_neg hn, show bytes = [] from hnil]
      exact hmade

/-- What holds of the calls that one run of the loop makes. -/
structure CallsOk (calls : List RecvCall) : Prop where
  ok : ∀ call ∈ calls, call.Ok
  /-- Only the last one may end the loop. -/
  goesOn : ∀ call ∈ calls.dropLast, 0 < call.n

/-- A call in front that has received something. -/
theorem CallsOk.cons {call : RecvCall} {calls : List RecvCall} (h : CallsOk calls) (hok : call.Ok)
    (hgo : ¬ call.Ends) : CallsOk (call :: calls) where
  ok := List.forall_mem_cons.mpr ⟨hok, h.ok⟩
  goesOn := by
    have hpos : 0 < call.n := (hok.cases.resolve_right fun hand => hgo hand.2.2).1
    cases calls with
    | nil => exact fun _ hx => absurd hx List.not_mem_nil
    | cons next rest =>
        rw [List.dropLast_cons_cons]
        exact List.forall_mem_cons.mpr ⟨hpos, h.goesOn⟩

/-- The loop appends what its calls receive, whatever the calls, and wherever the position is. By
induction on the calls. -/
theorem Receives.run {b : HttpBuf} {s : EventLoop} (h : Receives o b s) (turns : List RecvTurn) :
    CallsOk (recvRun c o ctl turns s).1 ∧ ∃ b', Receives o b' (recvRun c o ctl turns s).2 ∧
      Extends b b' ((recvRun c o ctl turns s).1.flatMap RecvCall.bytes) := by
  induction turns generalizing b s with
  | nil => exact ⟨⟨by simp [recvRun], by simp [recvRun]⟩, b, h, (List.append_nil _).symm, rfl⟩
  | cons turn turns ih =>
      rw [recvRun]
      cases hturn : recvTurn c o ctl turn s with
      | none => exact ⟨⟨by simp, by simp⟩, b, h, (List.append_nil _).symm, rfl⟩
      | some r =>
          obtain ⟨call, s'⟩ := r
          obtain ⟨hok, b₁, h₁, hext₁⟩ := h.turn hturn
          simp only
          by_cases hends : call.Ends
          · rw [if_pos hends]
            refine ⟨⟨by simpa using hok, by simp⟩, b₁, h₁, ?_⟩
            rw [List.flatMap_singleton]
            exact hext₁
          · rw [if_neg hends]
            obtain ⟨hcalls, b₂, h₂, hext₂⟩ := ih h₁
            refine ⟨hcalls.cons hok hends, b₂, h₂, ?_⟩
            rw [List.flatMap_cons]
            exact hext₁.trans hext₂

end

end Crawler.Http
