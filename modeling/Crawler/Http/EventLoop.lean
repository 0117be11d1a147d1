/-
# Crawler.Http.EventLoop — clients from their creation to their release

The event handlers of `http_client.c`, `http_conn`, `http_client_create` and `http_client_retrieve`
with `parse_html` as the client's handler, one entry of `event_process`, and one round of
`event_expire_timers`, as the steps of one system.

Every call of an event handler and of `http_client_retrieve` is logged before it runs. Where a
handler then follows a pointer to nothing or writes outside a buffer, the loop is marked `wrong` and
takes no further step; the log stays.
-/
import Crawler.Http.Head
import Crawler.Http.Html
import Crawler.Http.Tls

namespace Crawler.Http

open Crawler.Lib Crawler.EventTimer Crawler.Connections

/-! ## The state -/

/-- The fields `connection` and `ssl_flag` of a client. -/
structure ClientLink where
  connection : Option Slot := none
  sslFlag : Bool := false
  deriving DecidableEq, Repr

/-- One call of an event handler: whether the slot of its event was free, and whether the slot's owner
was a client that had not been released. -/
structure Invocation where
  event : EventRef
  handler : Option EventHandler
  free : Bool
  live : Bool
  deriving DecidableEq, Repr

/-- The calls of `http_client_retrieve` and of event handlers, oldest first. -/
structure Log where
  retrieved : List Addr := []
  invoked : List Invocation := []
  wrong : Bool := false
  deriving DecidableEq, Repr

/-- The process: the pool and the clients, the other fields of both, and the slot that `dns_init` has
taken, if it has run. -/
structure EventLoop extends World where
  io : Slot → ConnIo
  link : Addr → ClientLink
  brk : Addr
  log : Log
  dns : Option Slot

/-- What the environment decides about one call of a handler: besides `send`, `epoll_ctl`, the clock
and `calloc` the results of `recv`, of `SSL_read`, of `SSL_write`, of `SSL_connect` (`none` is
success), and whether the TLS library makes its objects. -/
structure Env extends WriteEnv where
  turns : List RecvTurn := []
  sslWrite : SslWrite := {}
  sslConnect : Option SslError := none
  sslNew : Bool := true

/-- The pool with the connections' other fields. -/
def EventLoop.sockets (s : EventLoop) : Sockets := { pool := s.pool, io := s.io }

/-- Put back what a function of `connection.c` has left. -/
def EventLoop.withSockets (s : EventLoop) (k : Sockets) : EventLoop :=
  { s with pool := k.pool, io := k.io }

/-- Change the record of client `o`. -/
def EventLoop.modify (s : EventLoop) (o : Addr) (f : HttpClient → HttpClient) : EventLoop :=
  { s with toWorld := s.toWorld.modify o f }

/-- The loop has followed a pointer to nothing. -/
def EventLoop.goWrong (s : EventLoop) : EventLoop := { s with log := { s.log with wrong := true } }

/-- The result of a part of a step that may go wrong. -/
def EventLoop.settle (s : EventLoop) (r : Option EventLoop) : EventLoop := r.getD s.goWrong

/-- Run a timer operation. -/
def EventLoop.timer (s : EventLoop) (op : Timers EventRef → Option (Timers EventRef)) :
    Option EventLoop :=
  (s.pool.withTimers op).map fun p => { s with pool := p }

/-- The connection of an event, its owner, and the owner's record. -/
def EventLoop.owner (s : EventLoop) (e : EventRef) : Option (Slot × Addr × HttpClient) := do
  let c ← (s.pool.events.ev e).data
  match (s.pool.connections c).data with
  | .owner o => (s.clients o).map fun client => (c, o, client)
  | _ => none

/-! ## Releasing a client -/

/-- `http_client_retrieve(client)`. -/
def httpClientRetrieve (s : EventLoop) (o : Addr) : EventLoop :=
  let s := { s with log := { s.log with retrieved := s.log.retrieved ++ [o] } }
  match s.clients o with
  | none => s.goWrong
  | some _ =>
      match (s.link o).connection with
      | none => { s with clients := Function.update s.clients o none }
      | some c =>
          match closeConnection s.pool c with
          | none => s.goWrong
          | some p =>
              { s with
                pool := p
                io := Function.update s.io c { s.io c with ssl := none }
                link := Function.update s.link o { s.link o with connection := none }
                clients := Function.update s.clients o none }

/-- `parse_html(client)`, as far as the client's life goes: whatever it makes of the page, it ends by
releasing the client. -/
def parseHtml (s : EventLoop) (o : Addr) : EventLoop :=
  let done := (s.clients o).any fun client => client.status = .htmlDone
  httpClientRetrieve
    (if done then s.modify o fun client => { client with status := .parseDone } else s) o

/-- `client->handler(client)`, unless it is NULL. -/
def EventLoop.callHandler (s : EventLoop) (o : Addr) (client : HttpClient) : EventLoop :=
  let s := { s with toWorld := s.toWorld.callHandler o client }
  match client.handler with
  | some _ => parseHtml s o
  | none => s

/-! ## The write handler -/

/-- A part of a handler: it ends, jumps to `failed` (`error`), or goes wrong (`none`). -/
abbrev Turn := Option (Except EventLoop EventLoop)

/-- Go on unless the part before jumped or went wrong. -/
def Turn.andThen (f : Turn) (k : EventLoop → Turn) : Turn :=
  match f with
  | some (.ok s) => k s
  | some (.error s) => some (.error s)
  | none => none

/-- Run a part that needs the world only. -/
def EventLoop.within (s : EventLoop) (f : Flow) : Turn :=
  match f with
  | some (.ok w) => some (.ok { s with toWorld := w })
  | some (.error w) => some (.error { s with toWorld := w })
  | none => none

/-- The block `if (size && wev->ready)`, with `c->send`. -/
def EventLoop.sendReq (s : EventLoop) (c : Slot) (wev : EventRef) (o : Addr) (b : HttpBuf)
    (env : Env) : Turn :=
  let size := b.bytes.length - b.pos
  if size ≠ 0 ∧ (s.pool.events.ev wev).ready then
    match s.sockets.send c size env.sys env.sslWrite env.ctl with
    | none => none
    | some (n, k) =>
        let s := s.withSockets k
        if n = -1 then some (.error s)
        else
          let s := if 0 < n then { s with toWorld := s.toWorld.accept o b n.toNat } else s
          if n = -eagain then (s.timer (eventAddTimer env.now · wev timeoutSend)).map .ok
          else some (.ok s)
  else some (.ok s)

/-- `http_write_event_process(wev)`. -/
def EventLoop.httpWriteEventProcess (s : EventLoop) (wev : EventRef) (env : Env) :
    Option EventLoop := do
  let (c, o, client) ← s.owner wev
  if (s.pool.events.ev wev).timedout then return s.callHandler o client
  else
    let b := client.req.getD (packReqBuf env.buf client.url)
    let s := s.modify o fun client => { client with req := some b }
    match (s.sendReq c wev o b env).andThen fun s =>
      s.within (transEnd s.toWorld c wev o env.toWriteEnv) with
    | none => none
    | some (.ok s) => return s
    | some (.error s) => return s.callHandler o client

/-! ## The TLS handshake -/

/-- `TIMEOUT_SSL`. -/
def timeoutSsl : UInt32 := 10000

/-- `ssl_create(c)`. -/
def sslCreate (s : Sockets) (c : Slot) (env : Env) : Option (Int × Sockets) := do
  if env.sslNew = false then return (-1, s)
  else
    let rev ← (s.pool.connections c).read
    let wev ← (s.pool.connections c).write
    let s := s.modifyEvent rev fun ev => { ev with handler := some .sslHandshakeHandler }
    let s := s.modifyEvent wev fun ev => { ev with handler := some .sslHandshakeHandler }
    let (rc, s) ← s.watch wev .write env.ctl
    if rc ≠ 0 then return (-1, s)
    else
      let (rc, s) ← s.watch rev .read env.ctl
      if rc ≠ 0 then return (-1, s)
      else return (0, { s with io := Function.update s.io c { s.io c with ssl := some {} } })

/-- The end of `http_ssl_handshake`, from the call of `SSL_connect` on. -/
def sslConnect (s : Sockets) (c : Slot) (env : Env) : Int × Sockets :=
  match env.sslConnect with
  | none =>
      let s := s.modifySsl c fun ssl => { ssl with handshaked := true }
      (0, { s with
        io := Function.update s.io c { s.io c with recv := some .ssl, send := some .ssl } })
  | some .wantRead => (eagain, s)
  | some .wantWrite => (eagain, s)
  | some _ => (-1, s)

/-- `http_ssl_handshake(c)`. -/
def httpSslHandshake (s : Sockets) (c : Slot) (env : Env) : Option (Int × Sockets) := do
  if (s.io c).ssl = none then
    let (rc, s) ← sslCreate s c env
    if rc < 0 then return (-1, s)
    else return sslConnect s c env
  else return sslConnect s c env

/-- `ssl_handshake_handler(ev)`. -/
def sslHandshakeHandler (s : EventLoop) (ev : EventRef) (env : Env) : Option EventLoop := do
  let (c, o, client) ← s.owner ev
  if (s.pool.events.ev ev).timedout then return s.callHandler o client
  else
    let (rc, k) ← httpSslHandshake s.sockets c env
    let wev ← (k.pool.connections c).write
    let s := s.withSockets k
    if rc = eagain then s.timer (eventAddTimer env.now · wev timeoutSsl)
    else if rc < 0 then return s.callHandler o client
    else
      let ssl ← (k.io c).ssl
      if ssl.handshaked then
        let s := s.withSockets
          (k.modifyEvent wev fun ev => { ev with handler := some .httpWriteEventProcess })
        s.timer (eventAddTimer env.now · wev timeoutSend)
      else return s

/-! ## The read handler -/

section

-- `inflate_gzip(source, dest, 47)`: its return value and the buffer it leaves in `dest`
variable (inflateGzip : HttpBuf → HttpBuf → Int × HttpBuf)

/-- `http_process_response(client)`: its return value and the client it leaves. -/
def httpProcessResponse (client : HttpClient) : Option (Int × HttpClient) :=
  let head := if client.status = .reqDone then httpParseHead client else some (0, client)
  head.bind fun (rc, client) =>
    if rc < 0 then some (-1, client)
    else
      let html :=
        if client.status = .headDone then httpParseHtml inflateGzip client else some (0, client)
      html.map fun (rc, client) => (if rc < 0 then -1 else 0, client)

/-- The receive loop of `http_read_event_process` on what the calls of `c->recv` return in turn: it
jumps to `failed` (`error`), or ends with `reset_time`; `none` while it is still receiving. -/
def recvLoop (c : Slot) (o : Addr) (ctl : EpollCtl → Int) :
    List RecvTurn → EventLoop → Bool → Option (Except EventLoop (EventLoop × Bool))
  | [], _, _ => none
  | turn :: turns, s, resetTime => do
      let client ← s.clients o
      let b ← client.recv
      let b := if b.bytes.length = b.cap then resizeTempBuf b turn.start else b
      let (n, bytes, k) ← s.sockets.recv c (b.cap - b.bytes.length) turn ctl
      let b := if 0 < n then b.append bytes else b
      let s := (s.withSockets k).modify o fun client => { client with recv := some b }
      if n = -eagain ∨ n = 0 then return .ok (s, resetTime || decide (0 < n))
      else if n = -1 then return .error s
      else recvLoop c o ctl turns s (resetTime || decide (0 < n))

/-- The block `if (reset_time)`. -/
def resetTimer (s : EventLoop) (rev : EventRef) (resetTime : Bool) (now : UInt32) :
    Option EventLoop :=
  if resetTime then s.timer (eventAddTimer now · rev timeoutRecv) else some s

/-- `http_read_event_process(rev)`. -/
def httpReadEventProcess (s : EventLoop) (rev : EventRef) (env : Env) : Option EventLoop := do
  let (c, o, client) ← s.owner rev
  if (s.pool.events.ev rev).timedout then return s.callHandler o client
  else
    let b := client.recv.getD (createTempBuf env.buf baseRange)
    let s := s.modify o fun client => { client with recv := some b }
    match ← recvLoop c o env.ctl env.turns s false with
    | .error s => return s.callHandler o client
    | .ok (s, resetTime) =>
        let s ← resetTimer s rev resetTime env.now
        let response ← s.clients o
        let (rc, response) ← httpProcessResponse inflateGzip response
        let s := s.modify o fun _ => response
        if rc < 0 then return s.callHandler o client
        else if response.status = .htmlDone ∨ (s.pool.events.ev rev).pendingEof then
          return s.callHandler o client
        else return s

/-! ## Calling a handler -/

/-- Log the call of the handler of event `e`. -/
def EventLoop.note (s : EventLoop) (e : EventRef) : EventLoop :=
  let call : Invocation := {
    event := e
    handler := (s.pool.events.ev e).handler
    free := (s.pool.connections e.slot).fd = -1
    live := match (s.pool.connections e.slot).data with
      | .owner o => (s.clients o).isSome
      | _ => false }
  { s with log := { s.log with invoked := s.log.invoked ++ [call] } }

/-- `ev->handler(ev)`. `ssl_write_handler` and `ssl_read_handler` call the other event's handler in
turn; `depth` bounds how far this goes. -/
def invoke : Nat → EventLoop → EventRef → Env → EventLoop
  | 0, s, _, _ => s.goWrong
  | depth + 1, s, e, env =>
      let s := s.note e
      let c := (s.pool.events.ev e).data.map s.pool.connections
      match (s.pool.events.ev e).handler with
      | some .httpReadEventProcess => s.settle (httpReadEventProcess inflateGzip s e env)
      | some .httpWriteEventProcess => s.settle (s.httpWriteEventProcess e env)
      | some .sslHandshakeHandler => s.settle (sslHandshakeHandler s e env)
      | some .sslWriteHandler =>
          s.settle ((c.bind Connection.read).map fun rev => invoke depth s rev env)
      | some .sslReadHandler =>
          s.settle ((c.bind Connection.write).map fun wev => invoke depth s wev env)
      | _ => s.goWrong

/-- How many handlers call one another at most: `ssl_write_handler`, and the read handler it calls. -/
def handlerDepth : Nat := 2

/-! ## `event_process` and `event_expire_timers` -/

/-- `EPOLLIN`. -/
def epollIn : UInt32 := 0x1

/-- `EPOLLOUT`. -/
def epollOut : UInt32 := 0x4

/-- `EPOLLERR|EPOLLHUP`. -/
def epollErr : UInt32 := 0x18

/-- `EPOLLRDHUP`. -/
def epollRdhup : UInt32 := 0x2000

/-- Errors without `EPOLLIN` and `EPOLLOUT` are handed to both handlers. -/
def reventsOf (events : UInt32) : UInt32 :=
  if events &&& epollErr ≠ 0 ∧ events &&& (epollIn ||| epollOut) = 0 then
    events ||| (epollIn ||| epollOut)
  else events

/-- The half of an entry that is about reading. -/
def dispatchRead (s : EventLoop) (c : Slot) (revents : UInt32) (env : Env) : EventLoop :=
  match (s.pool.connections c).read with
  | none => s.goWrong
  | some rev =>
      if revents &&& epollIn ≠ 0 ∧ (s.pool.events.ev rev).active then
        let k := s.sockets.modifyEvent rev fun ev =>
          let eof := if revents &&& epollRdhup ≠ 0 then true else ev.pendingEof
          { ev with pendingEof := eof, ready := true }
        invoke inflateGzip handlerDepth (s.withSockets k) rev env
      else s

/-- The half of an entry that is about writing; the read handler may have closed the connection. -/
def dispatchWrite (s : EventLoop) (c : Slot) (revents : UInt32) (env : Env) : EventLoop :=
  match (s.pool.connections c).write with
  | none => s.goWrong
  | some wev =>
      if revents &&& epollOut ≠ 0 ∧ (s.pool.events.ev wev).active then
        if (s.pool.connections c).fd = -1 then s
        else
          let k := s.sockets.modifyEvent wev fun ev => { ev with ready := true }
          invoke inflateGzip handlerDepth (s.withSockets k) wev env
      else s

/-- One entry of the loop of `event_process`: the connection and the events reported for it. -/
def eventEntry (s : EventLoop) (c : Slot) (events : UInt32) (renv wenv : Env) : EventLoop :=
  if (s.pool.connections c).fd = -1 then s
  else
    let s := dispatchRead inflateGzip s c (reventsOf events) renv
    if s.log.wrong then s else dispatchWrite inflateGzip s c (reventsOf events) wenv

/-- One round of `event_expire_timers`, for the event found. -/
def expireRound (s : EventLoop) (e : EventRef) (env : Env) : EventLoop :=
  s.settle ((s.timer (expireTimer · e)).map fun s => invoke inflateGzip handlerDepth s e env)

end

/-! ## Creating a client -/

/-- What `connect` returns. -/
inductive Connect where
  | done
  | inProgress
  | error
  deriving DecidableEq, Repr

/-- `TIMEOUT_CONN`. -/
def timeoutConn : UInt32 := 5000

/-- What the environment decides about `http_conn`: what `socket`, `nonblocking`, `epoll_ctl` and
`connect` return, and the clock. -/
structure ConnEnv where
  fd : Int
  nonblocking : Int
  ctl : EpollCtl → Int
  connect : Connect
  now : UInt32

/-- The end of `http_conn`. -/
def connDone (s : EventLoop) (o : Addr) (c : Slot) : Int × EventLoop :=
  (0, { s with link := Function.update s.link o { s.link o with connection := some c } }.modify o
    fun client => { client with status := .connDone })

/-- The label `failed:` of `http_conn`. -/
def connFailed (s : EventLoop) (c : Slot) : Option (Int × EventLoop) :=
  (closeConnection s.pool c).map fun p => (-1, { s with pool := p })

/-- Fill in the connection `c` that `get_connection` has handed out. -/
def connSetup (s : EventLoop) (o : Addr) (c : Slot) (wev : EventRef) : EventLoop :=
  let handler : EventHandler :=
    if (s.link o).sslFlag then .sslHandshakeHandler else .httpWriteEventProcess
  let k : Sockets :=
    { pool := s.pool, io := Function.update s.io c { recv := some .unix, send := some .unix } }
  let k := k.modifyEvent wev fun ev => { ev with handler := some handler }
  s.withSockets
    { k with pool := k.pool.setConn c { k.pool.connections c with data := .owner o } }

/-- The call of `connect` in `http_conn`, and what follows it. -/
def connConnect (s : EventLoop) (o : Addr) (c : Slot) (wev : EventRef) (env : ConnEnv) :
    Option (Int × EventLoop) :=
  match env.connect with
  | .error => connFailed s c
  | .inProgress =>
      (s.timer (eventAddTimer env.now · wev timeoutConn)).map fun s => connDone s o c
  | .done => some (connDone s o c)

/-- The part of `http_conn` that fills in the connection `c` it has got. -/
def connOpen (s : EventLoop) (o : Addr) (c : Slot) (env : ConnEnv) : Option (Int × EventLoop) := do
  if env.nonblocking < 0 then connFailed s c
  else
    let wev ← (s.pool.connections c).write
    let s := connSetup s o c wev
    let (rc, p) ← eventAdd s.pool wev .write clearEvent env.ctl
    let s := { s with pool := p }
    if rc < 0 then connFailed s c
    else connConnect s o c wev env

/-- `http_conn(client)`. `get_connection` zeroes the connection it hands out. -/
def httpConn (s : EventLoop) (o : Addr) (env : ConnEnv) : Option (Int × EventLoop) := do
  if env.fd < 0 then return (-1, s)
  else
    let (found, p) ← getConnection s.pool env.fd
    match found with
    | none => return (-1, { s with pool := p.ask (.close env.fd) })
    | some c => connOpen { s with pool := p, io := Function.update s.io c {} } o c env

/-- The address of `parse_html`. -/
def parseHtmlAddr : Addr := 0

/-- The client that `http_client_create` fills in. -/
def newClient (url : HttpUrl) : HttpClient := { url := url, handler := some parseHtmlAddr }

/-- `http_client_create` up to the call of `http_conn`, `calloc` succeeding. -/
def addClient (s : EventLoop) (url : HttpUrl) : EventLoop :=
  { s with
    brk := s.brk + 1
    clients := Function.update s.clients s.brk (some (newClient url))
    link := Function.update s.link s.brk { sslFlag := url.schema = lit "https" } }

/-- `http_client_create(url, sin_addr, parse_html)`. -/
def httpClientCreate (s : EventLoop) (url : HttpUrl) (env : ConnEnv) : EventLoop :=
  let o := s.brk
  let s := addClient s url
  s.settle ((httpConn s o env).map fun (rc, s) =>
    if rc < 0 then s.callHandler o (newClient url) else s)

/-! ## The system -/

/-- What can happen to the loop. -/
inductive LoopAction where
  | create (url : HttpUrl) (env : ConnEnv)
  | entry (c : Slot) (events : UInt32) (renv wenv : Env)
  | expire (e : EventRef) (now : UInt32) (env : Env)

/-- The step of each action. -/
def loopStep (inflateGzip : HttpBuf → HttpBuf → Int × HttpBuf) (s : EventLoop) :
    LoopAction → EventLoop
  | .create url env => httpClientCreate s url env
  | .entry c events renv wenv => eventEntry inflateGzip s c events renv wenv
  | .expire e _ env => expireRound inflateGzip s e env

/-- A loop that has gone wrong does nothing more. An entry is about a connection other than the
resolver's, and a timer expires when it is linked and due. The entries of a batch, in whatever number
and order, and the clients created between them, are steps one after another. -/
def loopEnabled (s : EventLoop) : LoopAction → Prop
  | .create .. => s.log.wrong = false
  | .entry c .. => s.log.wrong = false ∧ c < s.pool.n ∧ s.dns ≠ some c
  | .expire e now _ => s.log.wrong = false ∧ e ∈ s.pool.events.rbtree ∧ Due now s.pool.events e

/-- The loop on a pool without clients. -/
def loopStart (p : Pool) : EventLoop where
  pool := p
  clients := fun _ => none
  wire := []
  calls := []
  io := fun _ => {}
  link := fun _ => {}
  brk := 1
  log := {}
  dns := none

/-- The end of `dns_init`: the resolver takes a slot and waits for datagrams. -/
def loopDnsInit (s : EventLoop) (fd : Int) (ctl : EpollCtl → Int) : Option EventLoop := do
  let (found, p) ← getConnection s.pool fd
  let c ← found
  let rev ← (p.connections c).read
  let p := p.setEvent rev { p.events.ev rev with handler := some .dnsProcessEvent }
  let (rc, p) ← eventAdd p rev .read clearEvent ctl
  if rc = -1 then none else return { s with pool := p, dns := some c }

/-- The process after `connection_init(n)`, before or after `dns_init`. -/
def LoopInit (n : UInt32) (s : EventLoop) : Prop :=
  ∃ p, connectionInit n = some p ∧
    (s = loopStart p ∨ ∃ fd ctl, 0 ≤ fd ∧ loopDnsInit (loopStart p) fd ctl = some s)

/-- The event loop with a pool of `n` connections. -/
def eventLoop (n : UInt32) (inflateGzip : HttpBuf → HttpBuf → Int × HttpBuf) :
    System EventLoop LoopAction where
  init := LoopInit n
  enabled := loopEnabled
  next := fun s a => some (loopStep inflateGzip s a)

end Crawler.Http
