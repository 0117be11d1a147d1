/-
# Crawler.Connections.Pool — the connection pool, its events and their timers

`connection_init`, `get_connection`, `free_connection` and `close_connection` of `connection.c` with
`event_add` and `event_del` of `event.c`, over one array of connections and the two arrays of their
events. The word `data` of a connection is the free-list link while the slot is free and the
owner's pointer while it is held; `fd` is -1 exactly while it is free.

Where the code would follow a pointer that is no connection or no event, or `rbtree_delete` would run
into NULL, the step is `none`.
-/
import Crawler.Core
import Crawler.EventTimer
import Crawler.Lib.Chain
import Crawler.Lib.Run

namespace Crawler.Connections

open Crawler.Lib Crawler.EventTimer

/-! ## The data -/

/-- An index into `connections`; it also names the connection's address. -/
abbrev Slot := Addr

/-- An entry of `read_events` or `write_events`. -/
inductive EventRef where
  | read (i : Slot)
  | write (i : Slot)
  deriving DecidableEq, Repr

/-- The index of an event in its array. -/
def EventRef.slot : EventRef → Slot
  | .read i => i
  | .write i => i

/-- What `data` of a connection and `free_connections` hold: NULL, a connection, or the owner. -/
inductive Ptr where
  | null
  | conn (i : Slot)
  | owner (o : Addr)
  deriving DecidableEq, Repr

/-- The pointers of the free list. -/
def pointers : Pointers Slot Ptr where
  null := .null
  cell := .conn
  cell_injective := fun _ _ h => Ptr.conn.inj h
  cell_ne_null := fun _ h => by cases h

/-- `connection_t`, as far as the pool uses it; `calloc` gives the defaults. -/
structure Connection where
  data : Ptr := .null
  read : Option EventRef := none
  write : Option EventRef := none
  fd : Int := 0
  deriving DecidableEq, Repr

/-- The operations of `epoll_ctl`. -/
inductive EpollOp where
  | add
  | mod
  | del
  deriving DecidableEq, Repr

/-- One call of `epoll_ctl`. -/
structure EpollCtl where
  op : EpollOp
  fd : Int
  events : UInt32
  deriving DecidableEq, Repr

/-- A call about a descriptor: `epoll_ctl`, for the connection `c` and with what it returned, or
`close`. -/
inductive KernelCall where
  | ctl (req : EpollCtl) (c : Slot) (rc : Int)
  | close (fd : Int)
  deriving DecidableEq, Repr

/-- The globals of `connection.c`, with the timer tree. `asked` is a record of the calls made about
descriptors, oldest first, which no code reads. -/
structure Pool where
  n : Nat
  connections : Slot → Connection
  events : Timers EventRef
  freeConnections : Ptr
  freeConnectionN : UInt32
  asked : List KernelCall := []

/-- Overwrite one connection. -/
def Pool.setConn (s : Pool) (i : Slot) (c : Connection) : Pool :=
  { s with connections := Function.update s.connections i c }

/-- Overwrite one event. -/
def Pool.setEvent (s : Pool) (e : EventRef) (v : Event) : Pool :=
  { s with events := s.events.set e v }

/-- Record a call. -/
def Pool.ask (s : Pool) (call : KernelCall) : Pool := { s with asked := s.asked ++ [call] }

@[simp] theorem Pool.ask_connections (s : Pool) (call : KernelCall) :
    (s.ask call).connections = s.connections := rfl

@[simp] theorem Pool.ask_events (s : Pool) (call : KernelCall) : (s.ask call).events = s.events := rfl

/-- Run a timer operation. -/
def Pool.withTimers (s : Pool) (op : Timers EventRef → Option (Timers EventRef)) : Option Pool :=
  (op s.events).map fun t => { s with events := t }

/-! ## `connection_init` -/

/-- The loop of `connection_init` with `i` turns to go. -/
def initSlots : Nat → Ptr → (Slot → Connection) → Ptr × (Slot → Connection)
  | 0, next, c => (next, c)
  | i + 1, next, c =>
      initSlots i (.conn i)
        (Function.update c i { data := next, read := some (.read i), write := some (.write i), fd := -1 })

/-- `connection_init(n)`, `calloc` succeeding. The loop counts down an `int`: where `n` gives one
that is not positive, its first turn writes before the array. -/
def connectionInit (n : UInt32) : Option Pool :=
  let i := n.toInt32
  if i ≤ 0 then none
  else
    let (next, c) := initSlots i.toNatClampNeg .null (fun _ => {})
    some
      { n := n.toNat, connections := c, events := { ev := fun _ => {}, rbtree := [] },
        freeConnections := next, freeConnectionN := n }

/-! ## `get_connection` and `free_connection` -/

/-- The end of `get_connection`: take `c` off the list, zero it and its events, and fill them in. -/
def Pool.handOut (s : Pool) (c : Slot) (rev wev : EventRef) (fd : Int) : Pool :=
  let s := { s with
    freeConnections := (s.connections c).data
    freeConnectionN := s.freeConnectionN - 1 }
  let s := s.setConn c { data := .null, read := some rev, write := some wev, fd := fd }
  let s := s.setEvent rev { data := some c }
  s.setEvent wev { data := some c }

/-- `get_connection(s)`; the first component is `none` for NULL. -/
def getConnection (s : Pool) (fd : Int) : Option (Option Slot × Pool) :=
  match s.freeConnections with
  | .null => some (none, s)
  | .owner _ => none
  | .conn c => do
      let rev ← (s.connections c).read
      let wev ← (s.connections c).write
      return (some c, s.handOut c rev wev fd)

/-- `free_connection(c)`. -/
def freeConnection (s : Pool) (c : Slot) : Pool :=
  let s := s.setConn c { s.connections c with data := s.freeConnections }
  { s with freeConnections := .conn c, freeConnectionN := s.freeConnectionN + 1 }

/-! ## `event_add` and `event_del` -/

/-- The two masks handed to `event_add` and `event_del`. -/
inductive IoEvent where
  | read
  | write
  deriving DecidableEq, Repr

/-- `READ_EVENT` is `EPOLLIN|EPOLLRDHUP`, `WRITE_EVENT` is `EPOLLOUT`. -/
def IoEvent.mask : IoEvent → UInt32
  | .read => 0x2001
  | .write => 0x4

/-- `CLEAR_EVENT`, which is `EPOLLET`. -/
def clearEvent : UInt32 := 0x80000000

/-- `CLOSE_EVENT`. -/
def closeEvent : UInt32 := 1

/-- The other half of the connection, and the mask it is registered with. -/
def otherHalf (c : Connection) : IoEvent → Option EventRef × UInt32
  | .read => (c.write, IoEvent.write.mask)
  | .write => (c.read, IoEvent.read.mask)

/-- Set or clear `active`. -/
def Pool.setActive (s : Pool) (e : EventRef) (active : Bool) : Pool :=
  s.setEvent e { s.events.ev e with active := active }

/-- `event_add(ev, event, flags)`; `ctl` is what `epoll_ctl` returns. -/
def eventAdd (s : Pool) (e : EventRef) (event : IoEvent) (flags : UInt32) (ctl : EpollCtl → Int) :
    Option (Int × Pool) := do
  let c ← (s.events.ev e).data
  let (other, prev) := otherHalf (s.connections c) event
  let other ← other
  let req : EpollCtl :=
    if (s.events.ev other).active then
      ⟨.mod, (s.connections c).fd, (event.mask ||| prev) ||| flags⟩
    else ⟨.add, (s.connections c).fd, event.mask ||| flags⟩
  let s := s.ask (.ctl req c (ctl req))
  if ctl req = -1 then return (-1, s)
  else return (0, s.setActive e true)

/-- `event_del(ev, event, flags)`. -/
def eventDel (s : Pool) (e : EventRef) (event : IoEvent) (flags : UInt32) (ctl : EpollCtl → Int) :
    Option (Int × Pool) :=
  if flags &&& closeEvent ≠ 0 then some (0, s.setActive e false)
  else do
    let c ← (s.events.ev e).data
    let (other, prev) := otherHalf (s.connections c) event
    let other ← other
    let req : EpollCtl :=
      if (s.events.ev other).active then ⟨.mod, (s.connections c).fd, prev ||| flags⟩
      else ⟨.del, (s.connections c).fd, 0⟩
    let s := s.ask (.ctl req c (ctl req))
    if ctl req = -1 then return (-1, s)
    else return (0, s.setActive e false)

/-! ## `close_connection` -/

/-- `if (ev->active) event_del(ev, READ_EVENT, CLOSE_EVENT)`. -/
def closeActive (s : Pool) (e : EventRef) : Option Pool :=
  if (s.events.ev e).active then (eventDel s e .read closeEvent fun _ => 0).map Prod.snd else some s

/-- `if (ev->timer_set) event_del_timer(ev)`. -/
def closeTimer (s : Pool) (e : EventRef) : Option Pool :=
  if (s.events.ev e).timerSet then s.withTimers (eventDelTimer · e) else some s

/-- `close_connection(c)`. -/
def closeConnection (s : Pool) (c : Slot) : Option Pool :=
  if (s.connections c).fd = -1 then some s
  else do
    let rev ← (s.connections c).read
    let wev ← (s.connections c).write
    let s ← closeActive s rev
    let s ← closeActive s wev
    let s ← closeTimer s rev
    let s ← closeTimer s wev
    let s := freeConnection s c
    let fd := (s.connections c).fd
    return (s.setConn c { s.connections c with fd := -1 }).ask (.close fd)

/-! ## The system -/

/-- A connection that has been handed out and not closed. -/
def Held (s : Pool) (i : Slot) : Prop := i < s.n ∧ (s.connections i).fd ≠ -1

/-- What can happen to the pool. `setOwner` is the assignment `c->data = client`; `fire` is one round
of `event_expire_timers`, and what its handler does are the actions that follow. -/
inductive Action where
  | getConnection (fd : Int)
  | eventAdd (e : EventRef) (event : IoEvent) (flags : UInt32) (ctl : EpollCtl → Int)
  | eventDel (e : EventRef) (event : IoEvent) (flags : UInt32) (ctl : EpollCtl → Int)
  | addTimer (e : EventRef) (now timer : UInt32)
  | delTimer (e : EventRef)
  | setOwner (i : Slot) (o : Addr)
  | fire (e : EventRef) (now : UInt32)
  | closeConnection (i : Slot)

/-- The step of each action. -/
def step (s : Pool) : Action → Option Pool
  | .getConnection fd => (getConnection s fd).map Prod.snd
  | .eventAdd e event flags ctl => (eventAdd s e event flags ctl).map Prod.snd
  | .eventDel e event flags ctl => (eventDel s e event flags ctl).map Prod.snd
  | .addTimer e now timer => s.withTimers (eventAddTimer now · e timer)
  | .delTimer e => s.withTimers (eventDelTimer · e)
  | .setOwner i o => some (s.setConn i { s.connections i with data := .owner o })
  | .fire e _ => s.withTimers (expireTimer · e)
  | .closeConnection i => closeConnection s i

/-- Events are used while their connection is held, a timer is deleted when it is set, and any slot
may be closed. -/
def enabled (s : Pool) : Action → Prop
  | .getConnection fd => 0 ≤ fd
  | .eventAdd e .. => Held s e.slot
  | .eventDel e .. => Held s e.slot
  | .addTimer e .. => Held s e.slot
  | .delTimer e => Held s e.slot ∧ (s.events.ev e).timerSet = true
  | .setOwner i _ => Held s i
  | .fire e now => e ∈ s.events.rbtree ∧ Due now s.events e
  | .closeConnection i => i < s.n

/-- The pool after `connection_init(n)`. -/
def pool (n : UInt32) : System Pool Action where
  init := fun s => connectionInit n = some s
  enabled := enabled
  next := step

end Crawler.Connections
