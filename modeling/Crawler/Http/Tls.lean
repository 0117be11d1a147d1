/-
# Crawler.Http.Tls — receiving and sending on a connection

`unix_recv`, `ssl_handle_recv`, `ssl_recv` and `ssl_send` of `connection.c`, over the pool together
with the fields of the connections that they use.

TLS may have to write before it can go on reading. `ssl_handle_recv` then puts the handler of the
write event aside and leaves `ssl_write_handler` in its place until a read succeeds; `ssl_send` does
the same to the read event.
-/
import Crawler.Http.Write

namespace Crawler.Http

open Crawler.Lib Crawler.EventTimer Crawler.Connections

/-! ## The data -/

/-- The functions stored in `recv` and `send` of a connection. -/
inductive Io where
  | unix
  | ssl
  deriving DecidableEq, Repr

/-- `ssl_connection_t`, without the two objects of the TLS library. -/
structure SslConnection where
  savedReadHandler : Option EventHandler := none
  savedWriteHandler : Option EventHandler := none
  last : Int := 0
  handshaked : Bool := false
  deriving DecidableEq, Repr

/-- The fields `recv`, `send` and `ssl` of a connection. -/
structure ConnIo where
  recv : Option Io := none
  send : Option Io := none
  ssl : Option SslConnection := none
  deriving DecidableEq, Repr

/-- The pool with these fields of every connection. -/
structure Sockets where
  pool : Pool
  io : Slot → ConnIo

/-- Change one event. -/
def Sockets.modifyEvent (s : Sockets) (e : EventRef) (f : Event → Event) : Sockets :=
  { s with pool := s.pool.setEvent e (f (s.pool.events.ev e)) }

/-- Change `c->ssl`, where there is one. -/
def Sockets.modifySsl (s : Sockets) (c : Slot) (f : SslConnection → SslConnection) : Sockets :=
  { s with io := Function.update s.io c { s.io c with ssl := (s.io c).ssl.map f } }

/-- `event_add(ev, event, CLEAR_EVENT)`, unless the event is active. -/
def Sockets.watch (s : Sockets) (e : EventRef) (event : IoEvent) (ctl : EpollCtl → Int) :
    Option (Int × Sockets) :=
  if (s.pool.events.ev e).active then some (0, s)
  else (eventAdd s.pool e event clearEvent ctl).map fun (rc, p) => (rc, { s with pool := p })

/-! ## `unix_recv` -/

/-- What one call of `recv` returns; no bytes are the end of the stream. -/
inductive SysRecv where
  | bytes (bytes : List UInt8)
  | again
  | intr
  | error
  deriving DecidableEq, Repr

/-- The loop of `unix_recv(c, buf, size)` on what the calls of `recv` return in turn: the value
returned, the bytes received, and the read event; `none` while it is still calling. -/
def unixRecv (size : Nat) (ev : Event) : List SysRecv → Option (Int × List UInt8 × Event)
  | [] => none
  | .bytes bytes :: _ =>
      let bytes := bytes.take size
      if bytes.length = 0 then some (0, [], { ev with ready := false, eof := true })
      else
        let ready := if bytes.length < size then false else ev.ready
        some (bytes.length, bytes, { ev with ready := ready })
  | .again :: _ => some (-eagain, [], { ev with ready := false })
  | .intr :: sys => unixRecv size ev sys
  | .error :: _ => some (-1, [], { ev with ready := false, error := true })

/-! ## `ssl_recv` -/

/-- What `SSL_get_error` returns, as far as the code tells it apart. -/
inductive SslError where
  | wantRead
  | wantWrite
  | zeroReturn
  | other
  deriving DecidableEq, Repr

/-- One call of `SSL_read`: the bytes on offer and, where there are none, the error, with `queued`
telling whether the error queue holds anything. -/
structure SslRead where
  bytes : List UInt8 := []
  err : SslError := .wantRead
  queued : Bool := false
  deriving DecidableEq, Repr

/-- `ssl_handle_recv(c, n)` after the call `r` of `SSL_read`. -/
def sslHandleRecv (s : Sockets) (c : Slot) (ssl : SslConnection) (n : Nat) (r : SslRead)
    (ctl : EpollCtl → Int) : Option (Int × Sockets) := do
  let rev ← (s.pool.connections c).read
  let wev ← (s.pool.connections c).write
  if 0 < n then
    match ssl.savedWriteHandler with
    | some h =>
        let s := s.modifyEvent wev fun ev => { ev with handler := some h, ready := true }
        return (0, s.modifySsl c fun ssl => { ssl with savedWriteHandler := none })
    | none => return (0, s)
  else
    match r.err with
    | .wantRead => return (-eagain, s.modifyEvent rev fun ev => { ev with ready := false })
    | .wantWrite =>
        let s := s.modifyEvent wev fun ev => { ev with ready := false }
        let (rc, s) ← s.watch wev .write ctl
        if rc < 0 then return (-1, s)
        else if ssl.savedWriteHandler = none then
          -- the peer renegotiates: write events go to the read handler until a read succeeds
          let h := (s.pool.events.ev wev).handler
          let s := s.modifySsl c fun ssl => { ssl with savedWriteHandler := h }
          let s := s.modifyEvent wev fun ev => { ev with handler := some .sslWriteHandler }
          return (-eagain, s)
        else return (-eagain, s)
    | err => return (if err = .zeroReturn ∨ r.queued = false then -4 else -1, s)

/-- The loop of `ssl_recv` on what the calls of `SSL_read` return in turn, with `size` bytes to go
and `got` received. -/
def sslReadLoop (c : Slot) (ctl : EpollCtl → Int) :
    List SslRead → Nat → List UInt8 → Sockets → Option (Int × List UInt8 × Sockets)
  | [], _, _, _ => none
  | r :: rs, size, got, s => do
      let rev ← (s.pool.connections c).read
      let ssl ← (s.io c).ssl
      let bytes := r.bytes.take size
      let got := got ++ bytes
      let (last, s) ← sslHandleRecv s c ssl bytes.length r ctl
      let s := s.modifySsl c fun ssl => { ssl with last := last }
      if last = 0 then
        let size := size - bytes.length
        if size = 0 then
          return (got.length, got, s.modifyEvent rev fun ev => { ev with ready := true })
        else sslReadLoop c ctl rs size got s
      else if got.length ≠ 0 then
        if last ≠ -eagain then
          return (got.length, got, s.modifyEvent rev fun ev => { ev with ready := true })
        else return (got.length, got, s)
      else if last = -4 then
        return (0, [], s.modifyEvent rev fun ev => { ev with ready := false, eof := true })
      else if last = -1 then
        return (-1, [], s.modifyEvent rev fun ev => { ev with error := true })
      else return (last, [], s)

/-- `ssl_recv(c, buf, size)`. -/
def sslRecv (s : Sockets) (c : Slot) (size : Nat) (reads : List SslRead) (ctl : EpollCtl → Int) :
    Option (Int × List UInt8 × Sockets) := do
  let rev ← (s.pool.connections c).read
  let ssl ← (s.io c).ssl
  if ssl.last = -1 then
    return (-1, [], s.modifyEvent rev fun ev => { ev with error := true })
  else if ssl.last = -4 then
    return (0, [], s.modifyEvent rev fun ev => { ev with ready := false, eof := true })
  else sslReadLoop c ctl reads size [] s

/-- What the environment decides about one call of `c->recv`: where `realloc` moves a full buffer
before it, and the results of `recv` or of `SSL_read`. -/
structure RecvTurn where
  start : Addr := 0
  sys : List SysRecv := []
  ssl : List SslRead := []
  deriving DecidableEq, Repr

/-- `c->recv(c, buf, size)`. -/
def Sockets.recv (s : Sockets) (c : Slot) (size : Nat) (turn : RecvTurn) (ctl : EpollCtl → Int) :
    Option (Int × List UInt8 × Sockets) := do
  match (s.io c).recv with
  | none => none
  | some .unix =>
      let rev ← (s.pool.connections c).read
      let (n, bytes, ev) ← unixRecv size (s.pool.events.ev rev) turn.sys
      return (n, bytes, s.modifyEvent rev fun _ => ev)
  | some .ssl => sslRecv s c size turn.ssl ctl

/-! ## `ssl_send` -/

/-- One call of `SSL_write`: the bytes taken and, where there are none, the error. -/
structure SslWrite where
  n : Nat := 0
  err : SslError := .wantWrite
  deriving DecidableEq, Repr

/-- `ssl_send(c, buf, size)`. -/
def sslSend (s : Sockets) (c : Slot) (r : SslWrite) (ctl : EpollCtl → Int) :
    Option (Int × Sockets) := do
  let rev ← (s.pool.connections c).read
  let wev ← (s.pool.connections c).write
  let ssl ← (s.io c).ssl
  if 0 < r.n then
    match ssl.savedReadHandler with
    | some h =>
        let s := s.modifyEvent rev fun ev => { ev with handler := some h, ready := true }
        return (r.n, s.modifySsl c fun ssl => { ssl with savedReadHandler := none })
    | none => return (r.n, s)
  else
    match r.err with
    | .wantWrite => return (-eagain, s.modifyEvent wev fun ev => { ev with ready := false })
    | .wantRead =>
        let s := s.modifyEvent rev fun ev => { ev with ready := false }
        let (rc, s) ← s.watch rev .read ctl
        if rc < 0 then return (-1, s)
        else if ssl.savedReadHandler = none then
          let h := (s.pool.events.ev rev).handler
          let s := s.modifySsl c fun ssl => { ssl with savedReadHandler := h }
          let s := s.modifyEvent rev fun ev => { ev with handler := some .sslReadHandler }
          return (-eagain, s)
        else return (-eagain, s)
    | _ => return (-1, s.modifyEvent wev fun ev => { ev with error := true })

/-- `c->send(c, buf, size)`: its value, the bytes taken by the socket being counted by it. -/
def Sockets.send (s : Sockets) (c : Slot) (size : Nat) (sys : List SysSend) (r : SslWrite)
    (ctl : EpollCtl → Int) : Option (Int × Sockets) := do
  match (s.io c).send with
  | none => none
  | some .unix =>
      let wev ← (s.pool.connections c).write
      let ev := s.pool.events.ev wev
      let res ← unixSend size ⟨0, ev.ready, ev.error⟩ sys
      return (res.n, s.modifyEvent wev fun ev => { ev with ready := res.ready, error := res.error })
  | some .ssl => sslSend s c r ctl

end Crawler.Http
