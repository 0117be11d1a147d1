/-
# Crawler.Http.Creation — what creating a client does

`http_conn` fails and leaves the free list as it was, or gives the client the first slot of the list, in
its first phase (`httpConn_cases`). A client that got no connection is released at once, so that
`http_client_create` keeps the invariant of the loop. The timer is set where the connect is in
progress, and not where it succeeds at once.
-/
import Crawler.Http.Lifecycle

namespace Crawler.Http

open Crawler.Lib Crawler.EventTimer Crawler.Connections

/-! ## `http_conn` -/

/-- Connection `c` has been handed out for socket `fd` and filled in for client `o`, and is not armed
yet. -/
structure Prepared (s₀ s : Sockets) (c : Slot) (fd : Int) (o : Addr) (ys : List Slot) : Prop where
  ok : PoolOk s.pool ys
  held : Held s.pool c
  owner : (s.pool.connections c).data = .owner o
  socket : (s.pool.connections c).fd = fd
  idle : (s.pool.events.ev (.read c)).active = false
  away : AwayFrom c s₀ s
  early : Early s c
  unarmed : ¬ HasTimer s.pool c

theorem Prepared.owned {s₀ s : Sockets} {c : Slot} {fd : Int} {o : Addr} {ys : List Slot}
    (h : Prepared s₀ s c fd o ys) : OwnedBy s.pool c o :=
  ⟨⟨ys, h.ok⟩, h.held, h.owner⟩

/-- The first slot of the free list, handed out. -/
theorem handOut_awayFrom (p : Pool) (io : Slot → ConnIo) (c : Slot) (fd : Int) (x : ConnIo) :
    AwayFrom c ⟨p, io⟩ ⟨p.handOut c (.read c) (.write c) fd, Function.update io c x⟩ where
  n := rfl
  connections i hi := by simp [hi]
  ev e he := by
    have hr : e ≠ .read c := fun heq => he (heq ▸ rfl)
    have hw : e ≠ .write c := fun heq => he (heq ▸ rfl)
    simp [hr, hw]
  io i hi := by simp [hi]

/-- `http_conn` gives the write event the handler that starts the connection. -/
theorem connSetup_ev (s : EventLoop) (o : Addr) (c : Slot) :
    ∃ h, (h = .sslHandshakeHandler ∨ h = .httpWriteEventProcess) ∧
      (connSetup s o c (.write c)).pool = (s.pool.setEvent (.write c)
        { s.pool.events.ev (.write c) with handler := some h }).setConn c
          { s.pool.connections c with data := .owner o } ∧
      ∀ e, (connSetup s o c (.write c)).pool.events.ev e =
        if e = .write c then { s.pool.events.ev (.write c) with handler := some h }
        else s.pool.events.ev e := by
  refine ⟨if (s.link o).sslFlag then .sslHandshakeHandler else .httpWriteEventProcess, ?_, rfl,
    fun e => ?_⟩
  · split
    · exact Or.inl rfl
    · exact Or.inr rfl
  · simp only [connSetup, EventLoop.withSockets, Sockets.modifyEvent, Pool.setConn, Pool.setEvent,
      Timers.set_ev]

@[simp] theorem connSetup_connections (s : EventLoop) (o : Addr) (c i : Slot) :
    (connSetup s o c (.write c)).pool.connections i =
      if i = c then { s.pool.connections c with data := .owner o } else s.pool.connections i := by
  by_cases hi : i = c
  · simp [connSetup, EventLoop.withSockets, Sockets.modifyEvent, Pool.setConn, Pool.setEvent, hi]
  · simp [connSetup, EventLoop.withSockets, Sockets.modifyEvent, Pool.setConn, Pool.setEvent, hi]

@[simp] theorem connSetup_io (s : EventLoop) (o : Addr) (c i : Slot) :
    (connSetup s o c (.write c)).io i =
      if i = c then { recv := some .unix, send := some .unix } else s.io i := by
  by_cases hi : i = c
  · simp [connSetup, EventLoop.withSockets, Sockets.modifyEvent, hi]
  · simp [connSetup, EventLoop.withSockets, Sockets.modifyEvent, hi]

/-- The connection as `http_conn` fills it in. -/
theorem connSetup_prepared {s : EventLoop} {c : Slot} {ys : List Slot} {fd : Int} {o : Addr}
    {io : Slot → ConnIo} (hio : ∀ i, i ≠ c → s.io i = io i) {p : Pool}
    (hpool : s.pool = p.handOut c (.read c) (.write c) fd)
    (hok : PoolOk s.pool ys) (hheld : Held s.pool c) :
    Prepared ⟨p, io⟩ (connSetup s o c (.write c)).sockets c fd o ys := by
  obtain ⟨handler, hcases, hsetup, hev⟩ := connSetup_ev s o c
  have hne : EventRef.read c ≠ .write c := by simp
  have hfd : ((connSetup s o c (.write c)).pool.connections c).fd = (s.pool.connections c).fd := by
    rw [connSetup_connections, if_pos rfl]
  have hr : (connSetup s o c (.write c)).pool.events.ev (.read c) = { data := some c } := by
    rw [hev, if_neg hne, hpool]
    simp
  have hw : (connSetup s o c (.write c)).pool.events.ev (.write c) =
      { data := some c, handler := some handler } := by
    rw [hev, if_pos rfl, hpool]
    simp
  refine ⟨?_, ⟨hheld.1, fun hclosed => hheld.2 (hfd.symm.trans hclosed)⟩, ?_, hfd.trans ?_,
    congrArg Event.active hr, ?_, ?_, ?_⟩
  · have hevent := hok.setEvent (e := .write c)
      (v := { s.pool.events.ev (.write c) with handler := some handler }) rfl rfl fun _ => hheld
    have howner := hevent.setOwner (i := c) hheld o
    show PoolOk (connSetup s o c (.write c)).pool ys
    rw [hsetup]
    exact howner
  · show ((connSetup s o c (.write c)).pool.connections c).data = .owner o
    rw [connSetup_connections, if_pos rfl]
  · rw [hpool]
    simp
  · have haway := handOut_awayFrom p io c fd {}
    refine ⟨?_, fun i hi => ?_, fun e he => ?_, fun i hi => ?_⟩
    · show s.pool.n = p.n
      rw [hpool]
      rfl
    · show (connSetup s o c (.write c)).pool.connections i = p.connections i
      rw [connSetup_connections, if_neg hi, hpool]
      exact haway.connections i hi
    · have hother : e ≠ .write c := fun heq => he (heq ▸ rfl)
      show (connSetup s o c (.write c)).pool.events.ev e = p.events.ev e
      rw [hev, if_neg hother, hpool]
      exact haway.ev e he
    · show (connSetup s o c (.write c)).io i = io i
      rw [connSetup_io, if_neg hi, hio i hi]
  · refine ⟨?_, Or.inl (congrArg Event.active hr), congrArg Event.timerSet hr, fun ssl hssl => ?_⟩
    · have hstart : ((connSetup s o c (.write c)).sockets.pool.events.ev (.write c)).handler =
          some handler := congrArg Event.handler hw
      rw [hstart, Option.some.injEq, Option.some.injEq]
      exact hcases
    · have hnone : ((connSetup s o c (.write c)).io c).ssl = none := by
        rw [connSetup_io, if_pos rfl]
      cases hnone.symm.trans hssl
  · show ¬ HasTimer (connSetup s o c (.write c)).pool c
    rw [HasTimer, hr, hw]
    simp

/-- `event_add` of the write event adds the socket, and changes nothing but the event's activity. -/
theorem Prepared.eventAdd {s₀ s : Sockets} {c : Slot} {fd : Int} {o : Addr} {ys : List Slot}
    (h : Prepared s₀ s c fd o ys) (flags : UInt32) (ctl : EpollCtl → Int) :
    ∃ p, eventAdd s.pool (.write c) .write flags ctl =
        some (if ctl ⟨.add, fd, IoEvent.write.mask ||| flags⟩ = -1 then (-1, p) else (0, p)) ∧
      Prepared s₀ { s with pool := p } c fd o ys := by
  have hne : EventRef.read c ≠ .write c := by simp
  obtain ⟨hread, -, -, hdata⟩ := h.owned.names
  generalize hcall : KernelCall.ctl ⟨.add, fd, IoEvent.write.mask ||| flags⟩ c
    (ctl ⟨.add, fd, IoEvent.write.mask ||| flags⟩) = call
  have hask := Within.ask c s call
  by_cases hctl : ctl ⟨.add, fd, IoEvent.write.mask ||| flags⟩ = -1
  · refine ⟨s.pool.ask call, ?_, h.ok.ask call, h.held, h.owner, h.socket, h.idle,
      h.away.trans hask.awayFrom, ⟨h.early.write, h.early.read, h.early.disarmed, h.early.saved⟩,
      h.unarmed⟩
    simp [Connections.eventAdd, hdata, otherHalf, hread, h.idle, h.socket, ← hcall, hctl]
  · have hw : Within c s { s with pool := (s.pool.ask call).setActive (.write c) true } :=
      hask.trans (Within.modifyEvent (f := fun ev => { ev with active := true }) (hask.owned h.owned)
        (e := .write c) rfl rfl rfl)
    have hown := hw.owned h.owned
    refine ⟨(s.pool.ask call).setActive (.write c) true, ?_, hw.ok ys h.ok, hown.held, hown.owner,
      h.socket, ?_, h.away.trans hw.awayFrom, ⟨?_, ?_, ?_, h.early.saved⟩, ?_⟩
    · simp [Connections.eventAdd, hdata, otherHalf, hread, h.idle, h.socket, ← hcall, hctl]
    · simpa [Pool.setActive, Pool.setEvent] using h.idle
    · simpa [Pool.setActive, Pool.setEvent] using h.early.write
    · simpa [Pool.setActive, Pool.setEvent] using h.early.read
    · simpa [Pool.setActive, Pool.setEvent] using h.early.disarmed
    · simpa [HasTimer, Pool.setActive, Pool.setEvent] using h.unarmed

/-- The call of `http_conn` gets as far as `connect`. -/
def ReachesConnect (s : EventLoop) (env : ConnEnv) : Prop :=
  0 ≤ env.fd ∧ s.pool.freeConnections ≠ .null ∧ 0 ≤ env.nonblocking ∧
    env.ctl ⟨.add, env.fd, IoEvent.write.mask ||| clearEvent⟩ ≠ -1

/-- `http_conn` has failed: the free list is what it was, and no held connection was touched. -/
structure ConnFails (xs : List Slot) (s s' : EventLoop) : Prop where
  ok : PoolOk s'.pool xs
  away : ∃ c, ¬ Held s.pool c ∧ ¬ Held s'.pool c ∧ AwayFrom c s.sockets s'.sockets
  clients : s'.clients = s.clients
  link : s'.link = s.link
  brk : s'.brk = s.brk
  log : s'.log = s.log
  dns : s'.dns = s.dns

/-- `http_conn` has given connection `c` to client `o`, and `ys` is left of the free list. -/
structure ConnGives (c : Slot) (ys : List Slot) (o : Addr) (env : ConnEnv) (s s' : EventLoop) :
    Prop where
  ok : PoolOk s'.pool ys
  owned : OwnedBy s'.pool c o
  idle : ¬ Held s.pool c
  away : AwayFrom c s.sockets s'.sockets
  early : Early s'.sockets c
  timer : HasTimer s'.pool c ↔ env.connect = .inProgress
  clients : ∃ f : HttpClient → HttpClient, (∀ client, (f client).handler = client.handler) ∧
    s'.clients = Function.update s.clients o ((s.clients o).map f)
  link : s'.link = Function.update s.link o { s.link o with connection := some c }
  brk : s'.brk = s.brk
  log : s'.log = s.log
  dns : s'.dns = s.dns

theorem ConnFails.refl {xs : List Slot} {s : EventLoop} (h : PoolOk s.pool xs) :
    ConnFails xs s s := by
  have hout : ¬ Held s.pool s.pool.n := fun hheld => Nat.lt_irrefl _ hheld.1
  exact ⟨h, ⟨s.pool.n, hout, hout, rfl, fun _ _ => rfl, fun _ _ => rfl, fun _ _ => rfl⟩, rfl, rfl,
    rfl, rfl, rfl⟩

theorem ConnFails.ask {xs : List Slot} {s s' : EventLoop} (h : ConnFails xs s s') (call : KernelCall) :
    ConnFails xs s { s' with pool := s'.pool.ask call } := by
  obtain ⟨c, hidle, hidle', haway⟩ := h.away
  exact ⟨h.ok.ask call, ⟨c, hidle, hidle', haway.trans (Within.ask c s'.sockets call).awayFrom⟩,
    h.clients, h.link, h.brk, h.log, h.dns⟩

section Open

variable {s₀ s : EventLoop} {c : Slot} {ys : List Slot} {o : Addr} {env : ConnEnv}

/-- The records of the loop that `http_conn` leaves alone until it ends. -/
structure SameRecords (s₀ s : EventLoop) : Prop where
  clients : s.clients = s₀.clients
  link : s.link = s₀.link
  brk : s.brk = s₀.brk
  log : s.log = s₀.log
  dns : s.dns = s₀.dns

/-- The label `failed:` puts the connection back. -/
theorem connFailed_cases (hok : PoolOk s.pool ys) (hheld : Held s.pool c) (hidle : ¬ Held s₀.pool c)
    (haway : AwayFrom c s₀.sockets s.sockets) (hrec : SameRecords s₀ s) :
    ∃ s', connFailed s c = some (-1, s') ∧ ConnFails (c :: ys) s₀ s' := by
  obtain ⟨p, hclose, hcl⟩ := hok.closeHeld hheld
  refine ⟨{ s with pool := p }, by rw [connFailed, hclose, Option.map_some], hcl.ok,
    ⟨c, hidle, fun hh => hh.2 hcl.closed, haway.trans ⟨hcl.n, hcl.other, hcl.ev, fun _ _ => rfl⟩⟩,
    hrec.clients, hrec.link, hrec.brk, hrec.log, hrec.dns⟩

/-- `connect` fails, or the client gets the connection: with the timer set where the connect is in
progress. -/
theorem connConnect_cases (hp : Prepared s₀.sockets s.sockets c env.fd o ys)
    (hidle : ¬ Held s₀.pool c) (hrec : SameRecords s₀ s) :
    (env.connect = .error ∧
        ∃ s', connConnect s o c (.write c) env = some (-1, s') ∧ ConnFails (c :: ys) s₀ s') ∨
      env.connect ≠ .error ∧
        ∃ s', connConnect s o c (.write c) env = some (0, s') ∧ ConnGives c ys o env s₀ s' := by
  rw [connConnect]
  have hgives : ∀ s₁ : EventLoop, PoolOk s₁.pool ys → OwnedBy s₁.pool c o →
      AwayFrom c s₀.sockets s₁.sockets → Early s₁.sockets c →
      (HasTimer s₁.pool c ↔ env.connect = .inProgress) → SameRecords s₀ s₁ →
      ConnGives c ys o env s₀ (connDone s₁ o c).2 := by
    intro s₁ hok hown haway hearly htimer hrec₁
    refine ⟨hok, hown, hidle, haway, hearly, htimer, ?_, ?_, hrec₁.brk, hrec₁.log, hrec₁.dns⟩
    · refine ⟨fun client => { client with status := .connDone }, fun _ => rfl, ?_⟩
      rw [← hrec₁.clients]
      rfl
    · rw [← hrec₁.link]
      rfl
  cases hconnect : env.connect with
  | error => exact Or.inl ⟨rfl, connFailed_cases hp.ok hp.held hidle hp.away hrec⟩
  | inProgress =>
      obtain ⟨p, hadd, hw, hearly, harm⟩ := hp.early.addTimer hp.owned env.now timeoutConn
      have hadd' : s.pool.withTimers (eventAddTimer env.now · (.write c) timeoutConn) = some p := hadd
      simp only [EventLoop.timer, hadd', Option.map_some]
      refine Or.inr ⟨by simp, _, rfl, hgives { s with pool := p } (hw.ok ys hp.ok)
        (hw.owned hp.owned) (hp.away.trans hw.awayFrom) hearly ?_ ⟨hrec.clients, hrec.link, hrec.brk,
          hrec.log, hrec.dns⟩⟩
      rw [hconnect]
      exact iff_of_true (Or.inr harm) rfl
  | done =>
      refine Or.inr ⟨by simp, _, rfl, hgives s hp.ok hp.owned hp.away hp.early ?_ hrec⟩
      rw [hconnect]
      exact iff_of_false hp.unarmed (by simp)

/-- The connection got is filled in, registered and connected, or put back. -/
theorem connOpen_cases {p : Pool} (hpool : s.pool = p.handOut c (.read c) (.write c) env.fd)
    (hp₀ : s₀.pool = p) (hok : PoolOk s.pool ys) (hheld : Held s.pool c) (hidle : ¬ Held s₀.pool c)
    (haway : AwayFrom c s₀.sockets s.sockets) (hrec : SameRecords s₀ s) :
    let reached := 0 ≤ env.nonblocking ∧
      env.ctl ⟨.add, env.fd, IoEvent.write.mask ||| clearEvent⟩ ≠ -1
    (¬ (reached ∧ env.connect ≠ .error) ∧
        ∃ s', connOpen s o c env = some (-1, s') ∧ ConnFails (c :: ys) s₀ s') ∨
      (reached ∧ env.connect ≠ .error) ∧
        ∃ s', connOpen s o c env = some (0, s') ∧ ConnGives c ys o env s₀ s' := by
  intro reached
  rw [connOpen]
  by_cases hnb : env.nonblocking < 0
  · rw [if_pos hnb]
    refine Or.inl ⟨fun hr => ?_, connFailed_cases hok hheld hidle haway hrec⟩
    have hpos := hr.1.1
    omega
  · have hwrite : (s.pool.connections c).write = some (.write c) := by
      rw [hpool]
      simp
    have hprep : Prepared ⟨p, s₀.io⟩ (connSetup s o c (.write c)).sockets c env.fd o ys :=
      connSetup_prepared haway.io hpool hok hheld
    obtain ⟨q, hadd, hprep'⟩ := hprep.eventAdd clearEvent env.ctl
    have hadd' : eventAdd (connSetup s o c (.write c)).pool (.write c) .write clearEvent env.ctl =
        _ := hadd
    have hs₀ : s₀.sockets = ⟨p, s₀.io⟩ := by rw [← hp₀]; rfl
    rw [← hs₀] at hprep'
    rw [if_neg hnb, hwrite]
    simp only [Option.bind_eq_bind, Option.bind_some]
    rw [hadd']
    have hrec' : SameRecords s₀ { connSetup s o c (.write c) with pool := q } :=
      ⟨hrec.clients, hrec.link, hrec.brk, hrec.log, hrec.dns⟩
    by_cases hctl : env.ctl ⟨.add, env.fd, IoEvent.write.mask ||| clearEvent⟩ = -1
    · rw [if_pos hctl]
      refine Or.inl ⟨fun hr => hr.1.2 hctl, ?_⟩
      exact connFailed_cases hprep'.ok hprep'.held hidle hprep'.away hrec'
    · rw [if_neg hctl]
      have hreached : reached := ⟨Int.not_lt.mp hnb, hctl⟩
      rcases connConnect_cases (s := { connSetup s o c (.write c) with pool := q }) hprep' hidle hrec'
        with ⟨herr, hfail⟩ | ⟨hne, hgive⟩
      · exact Or.inl ⟨fun hr => hr.2 herr, hfail⟩
      · exact Or.inr ⟨⟨hreached, hne⟩, hgive⟩

end Open

/-- `http_conn` fails and changes nothing that counts, or gives the client the first free slot. -/
theorem httpConn_cases {s : EventLoop} {xs : List Slot} (hok : PoolOk s.pool xs) (o : Addr)
    (env : ConnEnv) :
    (¬ (ReachesConnect s env ∧ env.connect ≠ .error) ∧
        ∃ s', httpConn s o env = some (-1, s') ∧ ConnFails xs s s') ∨
      (ReachesConnect s env ∧ env.connect ≠ .error) ∧
        ∃ c ys s', xs = c :: ys ∧ httpConn s o env = some (0, s') ∧ ConnGives c ys o env s s' := by
  rw [httpConn]
  by_cases hfd : env.fd < 0
  · rw [if_pos hfd]
    refine Or.inl ⟨fun hr => ?_, s, rfl, ConnFails.refl hok⟩
    have hpos := hr.1.1
    omega
  · rw [if_neg hfd]
    have hfd' : 0 ≤ env.fd := Int.not_lt.mp hfd
    rcases hok.getConnection hfd' with ⟨rfl, hget⟩ | ⟨c, ys, rfl, hget, hok₁, hheld₁⟩
    · -- the pool is exhausted
      have hnull : s.pool.freeConnections = .null := by
        rcases hok.chain.start with ⟨hp, -⟩ | ⟨_, _, -, hcons, -⟩
        · exact hp
        · cases hcons
      refine Or.inl ⟨fun hr => hr.1.2.1 hnull, _, ?_, (ConnFails.refl hok).ask (.close env.fd)⟩
      rw [hget]
      rfl
    · obtain ⟨hcn, hcfd⟩ := (hok.free c).mp (by simp)
      have hidle : ¬ Held s.pool c := fun hheld => hheld.2 hcfd
      have hsome : s.pool.freeConnections ≠ .null := by
        rcases hok.chain.start with ⟨-, hnil⟩ | ⟨_, _, hp, -, -⟩
        · cases hnil
        · rw [hp]
          exact fun hn => by cases hn
      rw [hget]
      simp only [Option.bind_eq_bind, Option.bind_some]
      have hsame : SameRecords s { s with
          pool := s.pool.handOut c (.read c) (.write c) env.fd
          io := Function.update s.io c {} } := ⟨rfl, rfl, rfl, rfl, rfl⟩
      have haway : AwayFrom c s.sockets (EventLoop.sockets { s with
          pool := s.pool.handOut c (.read c) (.write c) env.fd
          io := Function.update s.io c {} }) := handOut_awayFrom s.pool s.io c env.fd {}
      rcases connOpen_cases (o := o) rfl rfl hok₁ hheld₁ hidle haway hsame with
        ⟨hnot, hfail⟩ | ⟨⟨hreached, hne⟩, s', hgive, hg⟩
      · exact Or.inl ⟨fun hr => hnot ⟨hr.1.2.2, hr.2⟩, hfail⟩
      · exact Or.inr ⟨⟨⟨hfd', hsome, hreached⟩, hne⟩, c, ys, s', rfl, hgive, hg⟩

/-! ## `http_client_create` -/

/-- From `s` to `s'` client `s.brk` has come and perhaps gone again, on a connection `c` that was free;
nothing else has happened. -/
structure Adds (c : Slot) (s s' : EventLoop) : Prop where
  ok : ∃ xs, PoolOk s'.pool xs
  idle : ¬ Held s.pool c
  away : AwayFrom c s.sockets s'.sockets
  clients : ∀ o, o ≠ s.brk → s'.clients o = s.clients o
  link : ∀ o, o ≠ s.brk → s'.link o = s.link o
  brk : s'.brk = s.brk + 1
  dns : s'.dns = s.dns

section Create

variable {guarded : Prop} {s s' : EventLoop} {c : Slot}

theorem Adds.holds (h : Adds c s s') (hok : LoopOk guarded s) {i : Slot} {o : Addr}
    (hi : Holds guarded s i o) : Holds guarded s' i o := by
  obtain ⟨client, howns⟩ := hi.client
  have hic : i ≠ c := by
    rintro rfl
    exact h.idle howns.owned.held
  have hob : o ≠ s.brk := by
    rintro rfl
    exact Nat.lt_irrefl _ (hok.below _ (by simp [howns.record]))
  exact hi.away h.away hic h.ok (h.clients o hob) (h.link o hob)

/-- What is left to show of the invariant: the state of the new client and of its connection. -/
theorem Adds.loopOk (h : Adds c s s') (hok : LoopOk guarded s)
    (hslot : Held s'.pool c → ∃ o, Holds guarded s' c o)
    (hclient : (s'.clients s.brk).isSome → ∃ i, Holds guarded s' i s.brk) : LoopOk guarded s' where
  pool := h.ok
  slots i hi := by
    by_cases hic : i = c
    · subst hic
      exact Or.inr (hslot hi)
    · rw [h.dns]
      exact (hok.slots i ((h.away.held_iff hic).mp hi)).imp_right fun ⟨o, ho⟩ =>
        ⟨o, h.holds hok ho⟩
  clients o ho := by
    by_cases hob : o = s.brk
    · subst hob
      exact hclient ho
    · rw [h.clients o hob] at ho
      obtain ⟨i, hi⟩ := hok.clients o ho
      exact ⟨i, h.holds hok hi⟩
  dns i hi := by
    rw [h.dns] at hi
    have hres := hok.dns i hi
    refine hres.away h.away ?_
    rintro rfl
    exact h.idle hres.held
  below o ho := by
    rw [h.brk]
    by_cases hob : o = s.brk
    · exact hob ▸ Nat.lt_succ_self _
    · rw [h.clients o hob] at ho
      exact Nat.lt_succ_of_lt (hok.below o ho)

/-- A client without a connection is released by its handler. -/
theorem callHandler_bare {o : Addr} {url : HttpUrl} (hrec : s.clients o = some (newClient url))
    (hlink : (s.link o).connection = none) :
    ∃ calls, s.callHandler o (newClient url) =
      { s with
        clients := Function.update s.clients o none
        calls := calls
        log := { s.log with retrieved := s.log.retrieved ++ [o] } } := by
  refine ⟨s.calls ++ [o], ?_⟩
  simp [EventLoop.callHandler, World.callHandler, newClient, parseHtml, httpClientRetrieve, hrec,
    hlink]

theorem addClient_clients (s : EventLoop) (url : HttpUrl) {o : Addr} (ho : o ≠ s.brk) :
    (addClient s url).clients o = s.clients o := by
  simp [addClient, ho]

theorem addClient_link (s : EventLoop) (url : HttpUrl) {o : Addr} (ho : o ≠ s.brk) :
    (addClient s url).link o = s.link o := by
  simp [addClient, ho]

/-- Clients that were released stay released. -/
theorem Adds.retired (hadds : Adds c s s') (h : Journal s) :
    ∀ o ∈ s.log.retrieved, o < s'.brk ∧ s'.clients o = none := by
  intro o ho
  obtain ⟨hlt, hdead⟩ := h.retired o ho
  rw [hadds.brk]
  refine ⟨Nat.lt_succ_of_lt hlt, ?_⟩
  rw [hadds.clients o (Nat.ne_of_lt hlt)]
  exact hdead

/-- A client that could get no connection is released at once. -/
theorem LoopInv.createFails (h : LoopInv guarded s) {xs : List Slot} (hok : PoolOk s.pool xs)
    {url : HttpUrl} {env : ConnEnv} (hconn : httpConn (addClient s url) s.brk env = some (-1, s'))
    (hfail : ConnFails xs (addClient s url) s') :
    LoopInv guarded (httpClientCreate s url env) ∧
      Spends 1 s.pool (httpClientCreate s url env).pool := by
  rw [httpClientCreate]
  simp only [hconn, Option.map_some, EventLoop.settle, Option.getD_some]
  obtain ⟨c, hidle, hidle', haway⟩ := hfail.away
  have hrec : s'.clients s.brk = some (newClient url) := by
    rw [hfail.clients]
    simp [addClient]
  have hlink : (s'.link s.brk).connection = none := by
    rw [hfail.link]
    simp [addClient]
  obtain ⟨calls, hcall⟩ := callHandler_bare hrec hlink
  rw [if_pos (by decide), hcall]
  have hlog : s'.log = s.log := hfail.log
  have hadds : Adds c s { s' with
      clients := Function.update s'.clients s.brk none
      calls := calls
      log := { s'.log with retrieved := s'.log.retrieved ++ [s.brk] } } := by
    refine ⟨⟨xs, hfail.ok⟩, hidle, haway, fun o ho => ?_, fun o ho => ?_, hfail.brk, hfail.dns⟩
    · rw [← addClient_clients s url ho, ← hfail.clients]
      exact Function.update_of_ne ho _ _
    · rw [← addClient_link s url ho, ← hfail.link]
  refine ⟨⟨hadds.loopOk h.ok (fun hheld => absurd hheld hidle') (fun hsome => ?_), ?_, ?_⟩,
    fun zs hzs => ⟨xs, hfail.ok, ?_⟩⟩
  · simp at hsome
  · have hnew : s.brk ∉ s.log.retrieved := fun hm =>
      Nat.lt_irrefl _ (h.journal.retired _ hm).1
    rw [hlog]
    exact ⟨List.nodup_append'.mpr ⟨h.journal.orderly.once, List.nodup_singleton _,
      List.disjoint_singleton.mpr hnew⟩, h.journal.orderly.sound⟩
  · intro o ho
    simp only [hlog, List.mem_append, List.mem_singleton] at ho
    rcases ho with ho | rfl
    · exact hadds.retired h.journal o ho
    · rw [hadds.brk]
      exact ⟨Nat.lt_succ_self _, by simp⟩
  · obtain rfl := hok.unique hzs
    exact Nat.le_succ _

/-- A client that gets connection `c`. -/
theorem LoopInv.createGives (h : LoopInv guarded s) {ys : List Slot} (hok : PoolOk s.pool (c :: ys))
    {url : HttpUrl} {env : ConnEnv} (hconn : httpConn (addClient s url) s.brk env = some (0, s'))
    (hgive : ConnGives c ys s.brk env (addClient s url) s')
    (htimer : guarded → env.connect = .inProgress) :
    LoopInv guarded (httpClientCreate s url env) ∧
      Spends 1 s.pool (httpClientCreate s url env).pool := by
  rw [httpClientCreate]
  simp only [hconn, Option.map_some, EventLoop.settle, Option.getD_some]
  rw [if_neg (by decide)]
  obtain ⟨f, hf, hcl⟩ := hgive.clients
  have hadds : Adds c s s' := by
    refine ⟨⟨ys, hgive.ok⟩, hgive.idle, hgive.away, fun o ho => ?_, fun o ho => ?_, hgive.brk,
      hgive.dns⟩
    · rw [hcl, Function.update_of_ne ho]
      exact addClient_clients s url ho
    · rw [hgive.link, Function.update_of_ne ho]
      exact addClient_link s url ho
  have hrec : s'.clients s.brk = some (f (newClient url)) := by
    rw [hcl, Function.update_self]
    simp [addClient]
  have hholds : Holds guarded s' c s.brk := by
    refine ⟨⟨f (newClient url), hgive.owned, hrec, ?_⟩, ?_, Or.inl hgive.early, fun hguard => ?_⟩
    · rw [hf]
      simp [newClient]
    · rw [hgive.link, Function.update_self]
    · exact hgive.timer.mpr (htimer hguard)
  have hlog : s'.log = s.log := hgive.log
  refine ⟨⟨hadds.loopOk h.ok (fun _ => ⟨s.brk, hholds⟩) (fun _ => ⟨c, hholds⟩), ?_, ?_⟩,
    fun zs hzs => ⟨ys, hgive.ok, ?_⟩⟩
  · rw [hlog]
    exact h.journal.orderly
  · rw [hlog]
    exact hadds.retired h.journal
  · obtain rfl := hok.unique hzs
    exact Nat.le_refl _

/-- Creating a client keeps the invariant, a client that could get no connection being released at
once. With `guarded` the connect must not succeed at once. -/
theorem LoopInv.create (h : LoopInv guarded s) (url : HttpUrl) {env : ConnEnv}
    (hg : guarded → ¬ (ReachesConnect s env ∧ env.connect = .done)) :
    LoopInv guarded (httpClientCreate s url env) ∧
      Spends 1 s.pool (httpClientCreate s url env).pool := by
  obtain ⟨xs, hok⟩ := h.ok.pool
  have hok' : PoolOk (addClient s url).pool xs := hok
  rcases httpConn_cases hok' s.brk env with
    ⟨-, s', hconn, hfail⟩ | ⟨⟨hreach, hne⟩, c, ys, s', rfl, hconn, hgive⟩
  · exact h.createFails hok hconn hfail
  · refine h.createGives hok hconn hgive fun hguard => ?_
    have hdone : env.connect ≠ .done := fun hd => hg hguard ⟨hreach, hd⟩
    cases hc : env.connect with
    | done => exact absurd hc hdone
    | inProgress => rfl
    | error => exact absurd hc hne

end Create

end Crawler.Http
