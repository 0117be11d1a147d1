/-
# Crawler.Http.Write — sending the request

`pack_req_buf` and `http_write_event_process` of `http_client.c`, `unix_send` of `connection.c`, and
the half of `event_process` that dispatches write events, on the pool of connections.

The handler has three ways to go: everything sent, something sent, nothing sent. The last two fall
through into the label `failed:`, since nothing returns before it. So a client with a handler is
given up at the first send that leaves a byte behind; only a client without one is sent piece by
piece.
-/
import Crawler.Connections.Invariant
import Crawler.Http.Client

namespace Crawler.Http

open Crawler.Lib Crawler.EventTimer Crawler.Connections

/-! ## `pack_req_buf` -/

/-- `LINE0`. -/
def line0 : CStr := lit "GET  HTTP/1.1\r\n"

/-- `LINE1`. -/
def line1 : CStr := lit "Host: \r\n"

/-- `LINE2`: the fixed header fields and the empty line. -/
def line2 : CStr := lit (
  "Connection: keep-alive\r\n" ++
  "Upgrade-Insecure-Requests: 1\r\n" ++
  "Cache-Control: max-age=0\r\n" ++
  "Accept: text/html,application/xhtml+xml,application/xml;q=0.9,image/webp,*/*;q=0.8\r\n" ++
  "User-Agent: Mozilla/5.0 (Windows NT 10.0; Win64; x64) AppleWebKit/537.36 (KHTML, like Gecko) " ++
  "Chrome/54.0.2840.71 Safari/537.36\r\n" ++
  "Accept-Encoding: gzip, deflate, sdch\r\n" ++
  "Accept-Language: en-US,en;q=0.8,zh-CN;q=0.6,zh;q=0.4\r\n" ++
  "\r\n")

/-- What `sprintf` writes, without its NUL. -/
def reqText (url : HttpUrl) : CStr :=
  lit "GET " ++ url.path ++ lit " HTTP/1.1\r\n" ++ lit "Host: " ++ url.host ++ lit "\r\n" ++ line2

/-- `req_buf_len`. -/
def reqBufLen (url : HttpUrl) : Nat :=
  line0.length + line1.length + line2.length + url.host.length + url.path.length + 1

/-- `pack_req_buf(client)`: the text in a zeroed buffer, with `last` at its end. -/
def packReqBuf (start : Addr) (url : HttpUrl) : HttpBuf :=
  { createTempBuf start (reqBufLen url) with
    bytes := (reqText url ++ List.replicate (reqBufLen url) 0).take (reqBufLen url) }

/-! ## `unix_send` -/

/-- What one call of `send` returns. -/
inductive SysSend where
  | count (n : Nat)
  | again
  | intr
  | error
  deriving DecidableEq, Repr

/-- What `unix_send` returns, and the flags of the write event. -/
structure SendResult where
  n : Int
  ready : Bool
  error : Bool
  deriving DecidableEq, Repr

/-- `EAGAIN`. -/
def eagain : Int := 11

/-- The loop of `unix_send(c, buf, size)` on what the calls of `send` return in turn, from the flags
of `r`; `none` while it is still calling. -/
def unixSend (size : Nat) (r : SendResult) : List SysSend → Option SendResult
  | [] => none
  | .count n :: _ =>
      if 0 < n then some { r with n := n, ready := if n < size then false else r.ready }
      else some { r with n := 0, ready := false }
  | .again :: _ => some { r with n := -eagain, ready := false }
  | .intr :: sys => unixSend size { r with ready := false } sys
  | .error :: _ => some { r with n := -1, error := true }

/-- The value `unix_send` returns: interrupted calls are repeated. -/
def sendValue : List SysSend → Option Int
  | [] => none
  | .count n :: _ => some n
  | .again :: _ => some (-eagain)
  | .intr :: sys => sendValue sys
  | .error :: _ => some (-1)

/-- The value returned depends neither on the size offered nor on the flags. -/
theorem unixSend_n (size : Nat) (r : SendResult) (sys : List SysSend) :
    (unixSend size r sys).map SendResult.n = sendValue sys := by
  induction sys generalizing r with
  | nil => rfl
  | cons x sys ih =>
      cases x with
      | count n =>
          rw [unixSend, sendValue]
          split
          case isTrue => rfl
          case isFalse hn =>
            obtain rfl : n = 0 := by omega
            rfl
      | again => rfl
      | intr => exact ih _
      | error => rfl

/-! ## The handler -/

/-- The pool with the clients that own its connections. `wire` are the bytes the socket has accepted
and `calls` the clients whose handler was called, oldest first. -/
structure World where
  pool : Pool
  clients : Addr → Option HttpClient
  wire : List UInt8
  calls : List Addr

/-- What the environment decides about one write event: the results of `send`, if it is called, and of
`epoll_ctl`, the clock, and where `calloc` finds a buffer. -/
structure WriteEnv where
  sys : List SysSend
  ctl : EpollCtl → Int
  now : UInt32
  buf : Addr

/-- `TIMEOUT_SEND`. -/
def timeoutSend : UInt32 := 5000

/-- `TIMEOUT_RECV`. -/
def timeoutRecv : UInt32 := 20000

/-- A part of the handler: it ends, jumps to `failed` (`error`), or goes wrong (`none`). -/
abbrev Flow := Option (Except World World)

/-- Go on unless the part before jumped or went wrong. -/
def Flow.andThen (f : Flow) (k : World → Flow) : Flow :=
  match f with
  | some (.ok s) => k s
  | some (.error s) => some (.error s)
  | none => none

/-- Change the record of client `o`. -/
def World.modify (s : World) (o : Addr) (f : HttpClient → HttpClient) : World :=
  { s with clients := Function.update s.clients o ((s.clients o).map f) }

/-- Call `client->handler(client)`, unless it is NULL. -/
def World.callHandler (s : World) (o : Addr) (client : HttpClient) : World :=
  match client.handler with
  | some _ => { s with calls := s.calls ++ [o] }
  | none => s

/-- Run a timer operation. -/
def World.withTimers (s : World) (op : Timers EventRef → Option (Timers EventRef)) : Flow :=
  (s.pool.withTimers op).map fun p => .ok { s with pool := p }

/-- Run `event_add` or `event_del`, and `goto failed` when it returns an error. -/
def World.register (s : World) (r : Option (Int × Pool)) : Flow :=
  r.map fun (rc, p) =>
    if rc < 0 then .error { s with pool := p } else .ok { s with pool := p }

/-- The flags `unix_send` leaves on the write event. -/
def World.leave (s : World) (wev : EventRef) (r : SendResult) : World :=
  { s with
    pool := s.pool.setEvent wev { s.pool.events.ev wev with ready := r.ready, error := r.error } }

/-- The socket accepts `n` bytes, and `pos` moves on. -/
def World.accept (s : World) (o : Addr) (b : HttpBuf) (n : Nat) : World :=
  { s.modify o fun client => { client with req := some { b with pos := b.pos + n } } with
    wire := s.wire ++ b.slice b.pos n }

/-- The block `if (size && wev->ready)`, with `unix_send` as `c->send`. -/
def sendReq (s : World) (wev : EventRef) (o : Addr) (b : HttpBuf) (env : WriteEnv) : Flow :=
  let ev := s.pool.events.ev wev
  let size := b.bytes.length - b.pos
  if size ≠ 0 ∧ ev.ready then
    match unixSend size ⟨0, ev.ready, ev.error⟩ env.sys with
    | none => none
    | some r =>
        let s := s.leave wev r
        if r.n = -1 then some (.error s)
        else
          let s := if 0 < r.n then s.accept o b r.n.toNat else s
          if r.n = -eagain then s.withTimers (eventAddTimer env.now · wev timeoutSend)
          else some (.ok s)
  else some (.ok s)

/-- The block `if (b->pos == b->last)`; without it the handler runs on into `failed`. -/
def transEnd (s : World) (c : Slot) (wev : EventRef) (o : Addr) (env : WriteEnv) : Flow :=
  match (s.clients o).bind HttpClient.req with
  | none => none
  | some b =>
      if b.pos = b.bytes.length then
        Flow.andThen
          (if (s.pool.events.ev wev).timerSet then s.withTimers (eventDelTimer · wev)
            else some (.ok s)) fun s =>
        Flow.andThen
          (if (s.pool.events.ev wev).active then s.register (eventDel s.pool wev .write 0 env.ctl)
            else some (.ok s)) fun s =>
        match (s.pool.connections c).read with
        | none => none
        | some rev =>
            let ev := s.pool.events.ev rev
            let s := { s with
              pool := s.pool.setEvent rev { ev with handler := some .httpReadEventProcess } }
            Flow.andThen
              (if (s.pool.events.ev rev).active then some (.ok s)
                else s.register (eventAdd s.pool rev .read clearEvent env.ctl)) fun s =>
            Flow.andThen (s.withTimers (eventAddTimer env.now · rev timeoutRecv)) fun s =>
            some (.ok (s.modify o fun client => { client with status := .reqDone }))
      else some (.error s)

/-- `http_write_event_process(wev)`. -/
def httpWriteEventProcess (s : World) (wev : EventRef) (env : WriteEnv) : Option World := do
  let c ← (s.pool.events.ev wev).data
  let o ← match (s.pool.connections c).data with
    | .owner o => some o
    | _ => none
  let client ← s.clients o
  if (s.pool.events.ev wev).timedout then return s.callHandler o client
  else
    let b := client.req.getD (packReqBuf env.buf client.url)
    let s := s.modify o fun client => { client with req := some b }
    match (sendReq s wev o b env).andThen fun s => transEnd s c wev o env with
    | none => none
    | some (.ok s) => return s
    | some (.error s) => return s.callHandler o client

/-- The half of `event_process` that dispatches a write event of connection `c`. -/
def eventProcessWrite (s : World) (c : Slot) (env : WriteEnv) : Option World :=
  if (s.pool.connections c).fd = -1 then some s
  else do
    let wev ← (s.pool.connections c).write
    let ev := s.pool.events.ev wev
    if ev.active then
      let s := { s with pool := s.pool.setEvent wev { ev with ready := true } }
      match ev.handler with
      | some .httpWriteEventProcess => httpWriteEventProcess s wev env
      | _ => none
    else return s

/-! ## One write event -/

/-- Connection `c` of a good pool is held by client `o`. -/
structure OwnedBy (p : Pool) (c : Slot) (o : Addr) : Prop where
  ok : ∃ xs, PoolOk p xs
  held : Held p c
  owner : (p.connections c).data = .owner o

theorem OwnedBy.setEvent {p : Pool} {c : Slot} {o : Addr} (h : OwnedBy p c o) {e : EventRef}
    {v : Event} (he : e.slot = c) (hdata : v.data = (p.events.ev e).data)
    (hset : v.timerSet = (p.events.ev e).timerSet) : OwnedBy (p.setEvent e v) c o := by
  obtain ⟨xs, hok⟩ := h.ok
  exact ⟨⟨xs, hok.setEvent hdata hset fun _ => he ▸ h.held⟩, h.held, h.owner⟩

theorem OwnedBy.withTimers {p : Pool} {c : Slot} {o : Addr} (h : OwnedBy p c o) {e : EventRef}
    (he : e.slot = c) {t : Timers EventRef} {linked : Prop} (hc : Consistent t)
    (haff : Affects p.events t e linked) : OwnedBy { p with events := t } c o := by
  obtain ⟨xs, hok⟩ := h.ok
  exact ⟨⟨xs, hok.affects hc haff fun _ => he ▸ h.held⟩, h.held, h.owner⟩

theorem OwnedBy.consistent {p : Pool} {c : Slot} {o : Addr} (h : OwnedBy p c o) :
    Consistent p.events := by
  obtain ⟨xs, hok⟩ := h.ok
  exact hok.timers

theorem OwnedBy.ask {p : Pool} {c : Slot} {o : Addr} (h : OwnedBy p c o) (call : KernelCall) :
    OwnedBy (p.ask call) c o :=
  ⟨h.ok.imp fun _ hok => hok.ask call, h.held, h.owner⟩

/-- What `event_add` and `event_del` do when `epoll_ctl` succeeds: but for the call recorded, they set
`active`. -/
theorem OwnedBy.eventAdd {p : Pool} {c : Slot} {o : Addr} (h : OwnedBy p c o) {e : EventRef}
    (he : e.slot = c) (event : IoEvent) (flags : UInt32) {ctl : EpollCtl → Int}
    (hctl : ∀ req, ctl req = 0) :
    ∃ p', eventAdd p e event flags ctl = some (0, p'.setActive e true) ∧ OwnedBy p' c o ∧
      p'.events = p.events := by
  obtain ⟨xs, hok⟩ := h.ok
  obtain ⟨req, hadd⟩ := hok.eventAdd (he.symm ▸ h.held) event flags ctl
  refine ⟨p.ask (.ctl req e.slot (ctl req)), ?_, h.ask _, rfl⟩
  rw [hadd, hctl req]
  simp

theorem OwnedBy.eventDel {p : Pool} {c : Slot} {o : Addr} (h : OwnedBy p c o) {e : EventRef}
    (he : e.slot = c) (event : IoEvent) (flags : UInt32) {ctl : EpollCtl → Int}
    (hctl : ∀ req, ctl req = 0) :
    ∃ p', eventDel p e event flags ctl = some (0, p'.setActive e false) ∧ OwnedBy p' c o ∧
      p'.events = p.events := by
  obtain ⟨xs, hok⟩ := h.ok
  obtain ⟨req, hdel⟩ := hok.eventDel (he.symm ▸ h.held) event flags ctl
  by_cases hclose : flags &&& closeEvent = 0
  · refine ⟨p.ask (.ctl req e.slot (ctl req)), ?_, h.ask _, rfl⟩
    rw [hdel, if_neg (not_not.mpr hclose), hctl req]
    simp
  · exact ⟨p, by rw [hdel, if_pos hclose], h, rfl⟩

/-- Setting a timer of the connection: the event stays as it is but for its timer. -/
theorem OwnedBy.addTimer {s : World} {c : Slot} {o : Addr} (h : OwnedBy s.pool c o) {e : EventRef}
    (he : e.slot = c) (now timer : UInt32) :
    ∃ p, s.withTimers (eventAddTimer now · e timer) = some (.ok { s with pool := p }) ∧
      OwnedBy p c o ∧ (∀ e', e' ≠ e → p.events.ev e' = s.pool.events.ev e') ∧
      (p.events.ev e).active = (s.pool.events.ev e).active ∧
      (p.events.ev e).handler = (s.pool.events.ev e).handler ∧
      (p.events.ev e).timedout = (s.pool.events.ev e).timedout := by
  obtain ⟨t, hadd, hc, haff⟩ := h.consistent.eventAddTimer now e timer
  refine ⟨{ s.pool with events := t }, ?_, h.withTimers he hc haff, haff.other_ev, haff.active,
    haff.handler, eventAddTimer_timedout hadd⟩
  simp [World.withTimers, Pool.withTimers, hadd]

/-- Disarming an event of the connection, if it is armed. -/
theorem OwnedBy.delTimerIfSet {s : World} {c : Slot} {o : Addr} (h : OwnedBy s.pool c o)
    {e : EventRef} (he : e.slot = c) :
    ∃ p, (if (s.pool.events.ev e).timerSet then s.withTimers (eventDelTimer · e)
        else some (.ok s)) = some (.ok { s with pool := p }) ∧ OwnedBy p c o := by
  split
  case isTrue hset =>
    obtain ⟨t, hdel, hc, haff⟩ := h.consistent.eventDelTimer ((h.consistent.set_iff e).mp hset)
    exact ⟨_, by simp [World.withTimers, Pool.withTimers, hdel], h.withTimers he hc haff⟩
  case isFalse => exact ⟨s.pool, rfl, h⟩

/-- Taking an event of the connection out of epoll, if it is in. -/
theorem OwnedBy.eventDelIfActive {s : World} {c : Slot} {o : Addr} (h : OwnedBy s.pool c o)
    {e : EventRef} (he : e.slot = c) (event : IoEvent) (flags : UInt32) {ctl : EpollCtl → Int}
    (hctl : ∀ req, ctl req = 0) :
    ∃ p, (if (s.pool.events.ev e).active then
        s.register (Connections.eventDel s.pool e event flags ctl)
        else some (.ok s)) = some (.ok { s with pool := p }) ∧
      OwnedBy p c o ∧ (p.events.ev e).active = false := by
  split
  case isTrue =>
    obtain ⟨p, hdel, hown, -⟩ := h.eventDel he event flags hctl
    refine ⟨p.setActive e false, ?_, hown.setEvent he rfl rfl, ?_⟩
    · simp [World.register, hdel]
    · simp [Pool.setActive, Pool.setEvent]
  case isFalse hoff => exact ⟨s.pool, rfl, h, Bool.eq_false_iff.mpr hoff⟩

/-- Putting an event of the connection into epoll, unless it is in; no other event changes. -/
theorem OwnedBy.eventAddUnlessActive {s : World} {c : Slot} {o : Addr} (h : OwnedBy s.pool c o)
    {e : EventRef} (he : e.slot = c) (event : IoEvent) (flags : UInt32) {ctl : EpollCtl → Int}
    (hctl : ∀ req, ctl req = 0) :
    ∃ p, (if (s.pool.events.ev e).active then some (.ok s)
        else s.register (Connections.eventAdd s.pool e event flags ctl)) =
        some (.ok { s with pool := p }) ∧
      OwnedBy p c o ∧ ∀ e', e' ≠ e → p.events.ev e' = s.pool.events.ev e' := by
  split
  case isTrue => exact ⟨s.pool, rfl, h, fun _ _ => rfl⟩
  case isFalse =>
    obtain ⟨p, hadd, hown, hev⟩ := h.eventAdd he event flags hctl
    refine ⟨p.setActive e true, ?_, hown.setEvent he rfl rfl, fun e' he' => ?_⟩
    · simp [World.register, hadd]
    · simp [Pool.setActive, Pool.setEvent, he', hev]

/-- The block at the end of the transmission, when everything is sent: the write event is taken out
of epoll and the client is done. -/
theorem transEnd_done {s : World} {c : Slot} {o : Addr} {client : HttpClient} {b : HttpBuf}
    {env : WriteEnv} (h : OwnedBy s.pool c o) (hclient : s.clients o = some client)
    (hreq : client.req = some b) (hend : b.pos = b.bytes.length) (hctl : ∀ req, env.ctl req = 0) :
    ∃ p, transEnd s c (.write c) o env =
        some (.ok ({ s with pool := p }.modify o fun client => { client with status := .reqDone })) ∧
      OwnedBy p c o ∧ (p.events.ev (.write c)).active = false := by
  have hne : EventRef.write c ≠ .read c := by simp
  rw [transEnd, hclient]
  simp only [Option.bind_some, hreq, if_pos hend]
  -- the write event: its timer, then its registration
  obtain ⟨p₁, h₁, hown₁⟩ := h.delTimerIfSet (e := .write c) rfl
  obtain ⟨p₂, h₂, hown₂, hoff₂⟩ := OwnedBy.eventDelIfActive (s := { s with pool := p₁ }) hown₁
    (e := .write c) rfl .write 0 hctl
  have hread : (p₂.connections c).read = some (.read c) := by
    obtain ⟨xs, hok⟩ := hown₂.ok
    exact (hok.names c hown₂.held.1).1
  simp only [h₁, Flow.andThen, h₂, hread]
  -- the read event: its handler, its registration, its timer
  have hown₃ : OwnedBy (p₂.setEvent (.read c)
      { p₂.events.ev (.read c) with handler := some .httpReadEventProcess }) c o :=
    hown₂.setEvent rfl rfl rfl
  obtain ⟨p₄, h₄, hown₄, hother₄⟩ := OwnedBy.eventAddUnlessActive
    (s := { s with pool := p₂.setEvent (.read c) _ }) hown₃ (e := .read c) rfl .read clearEvent hctl
  obtain ⟨p₅, h₅, hown₅, hother₅, -⟩ := OwnedBy.addTimer (s := { s with pool := p₄ }) hown₄
    (e := .read c) rfl env.now timeoutRecv
  simp only [h₄, h₅]
  refine ⟨p₅, rfl, hown₅, ?_⟩
  rw [hother₅ _ hne, hother₄ _ hne]
  simpa [Pool.setEvent] using hoff₂

end Crawler.Http
