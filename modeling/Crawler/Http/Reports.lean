/-
# Crawler.Http.Reports — the event loop keeps the interest list

Every `epoll_ctl` that a step of the event loop makes is one that the interest list allows, as long as
`socket` gives descriptors that no connection holds. So in every state of a run the calls recorded leave
a list, and it is what the `active` bits say (`reachable_registered`); and whatever the kernel reports
from it is about a connection that is held and finds a handler (`reachable_reported`).
-/
import Crawler.Http.Interest

namespace Crawler.Http

open Crawler.Lib Crawler.EventTimer Crawler.Connections

/-! ## The steps of the loop -/

section Loop

variable {guarded : Prop} {s : EventLoop} {c : Slot} {o : Addr}

/-- A handler that ends, or goes wrong in the state it was called in. -/
theorem settle_traced {r : Option EventLoop} (hr : ∀ s', r = some s' → Traced s.pool s'.pool) :
    Traced s.pool (s.settle r).pool := by
  cases hres : r with
  | none => exact .refl _
  | some s' => exact hr s' hres

variable (inflateGzip : HttpBuf → HttpBuf → Int × HttpBuf)

/-- The handler of an event that epoll may report. -/
theorem Holds.invoke_traced (hc : Holds guarded s c o) {e : EventRef} (he : e.slot = c)
    (hactive : (s.pool.events.ev e).active = true) (env : Env) :
    Traced s.pool (invoke inflateGzip handlerDepth s e env).pool := by
  have hcn : Holds guarded (s.note e) c o := hc.withLog _
  obtain ⟨client, howns⟩ := hcn.client
  rw [handlerDepth, Http.invoke]
  show Traced (s.note e).pool _
  cases hcn.activeHandler he hactive with
  | handshake hearly hhan =>
      simp only [hhan]
      exact settle_traced fun s' hs' => sslHandshakeHandler_traced howns hcn.link he hs'
  | write hew hsaved hhan =>
      subst hew
      simp only [hhan]
      exact settle_traced fun s' hs' => httpWriteEventProcess_traced howns hcn.link hs'
  | read her hlate hhan =>
      subst her
      simp only [hhan]
      exact settle_traced fun s' hs' => httpReadEventProcess_traced howns hcn.link hs'
  | aside hew hlate hhan =>
      -- `ssl_write_handler` calls the read handler
      subst hew
      obtain ⟨hread, -, -, hdata⟩ := howns.owned.names
      have hcn₂ : Holds guarded ((s.note (.write c)).note (.read c)) c o := hcn.withLog _
      obtain ⟨client₂, howns₂⟩ := hcn₂.client
      have hhan₂ : (((s.note (.write c)).note (.read c)).pool.events.ev (.read c)).handler =
          some .httpReadEventProcess := hlate.read
      simp only [hhan, hdata, Option.map_some, Option.bind_some, hread, EventLoop.settle,
        Option.getD_some]
      rw [Http.invoke]
      simp only [hhan₂]
      show Traced ((s.note (.write c)).note (.read c)).pool _
      exact settle_traced fun s' hs' => httpReadEventProcess_traced howns₂ hcn₂.link hs'

/-- Setting flags of an event before its handler is called. -/
theorem Holds.flag_traced (hc : Holds guarded s c o) {e : EventRef} (he : e.slot = c)
    {f : Event → Event} (hdata : (f (s.pool.events.ev e)).data = (s.pool.events.ev e).data)
    (hset : (f (s.pool.events.ev e)).timerSet = (s.pool.events.ev e).timerSet)
    (hactive : (f (s.pool.events.ev e)).active = (s.pool.events.ev e).active) :
    Traced s.pool (s.withSockets (s.sockets.modifyEvent e f)).pool := by
  obtain ⟨client, howns⟩ := hc.client
  exact (Tracks.modifyEvent (s := s.sockets) (.refl howns.owned) he hdata hset hactive).traced

theorem LoopInv.dispatchRead_traced (h : LoopInv guarded s) (hc : Holds guarded s c o)
    (revents : UInt32) (env : Env) :
    Traced s.pool (Http.dispatchRead inflateGzip s c revents env).pool := by
  obtain ⟨client, howns⟩ := hc.client
  rw [Http.dispatchRead, howns.owned.names.1]
  simp only
  split
  case isTrue hon =>
    obtain ⟨-, hcf⟩ := h.flag hc (e := .read c) rfl
      (f := fun ev =>
        { ev with
          pendingEof := if revents &&& epollRdhup ≠ 0 then true else ev.pendingEof
          ready := true }) rfl rfl rfl rfl
    refine (hc.flag_traced rfl rfl rfl rfl).trans (hcf.invoke_traced inflateGzip rfl ?_ env)
    have hact : (s.sockets.pool.events.ev (.read c)).active = true := hon.2
    simpa [EventLoop.withSockets] using hact
  case isFalse => exact .refl _

theorem LoopInv.dispatchWrite_traced (h : LoopInv guarded s) (hn : c < s.pool.n)
    (hdns : s.dns ≠ some c) (revents : UInt32) (env : Env) :
    Traced s.pool (Http.dispatchWrite inflateGzip s c revents env).pool := by
  obtain ⟨xs, hok⟩ := h.ok.pool
  rw [Http.dispatchWrite, (hok.names c hn).2]
  simp only
  split
  case isTrue hon =>
    split
    case isTrue => exact .refl _
    case isFalse hfd =>
      obtain ⟨o, hc⟩ := (h.ok.slots c ⟨hn, hfd⟩).resolve_left hdns
      obtain ⟨-, hcf⟩ := h.flag hc (e := .write c) rfl (f := fun ev => { ev with ready := true })
        rfl rfl rfl rfl
      refine (hc.flag_traced rfl rfl rfl rfl).trans (hcf.invoke_traced inflateGzip rfl ?_ env)
      have hact : (s.sockets.pool.events.ev (.write c)).active = true := hon.2
      simpa [EventLoop.withSockets] using hact
  case isFalse => exact .refl _

theorem LoopInv.entry_traced (h : LoopInv guarded s) (hn : c < s.pool.n) (hdns : s.dns ≠ some c)
    (events : UInt32) (renv wenv : Env) :
    Traced s.pool (eventEntry inflateGzip s c events renv wenv).pool := by
  rw [eventEntry]
  split
  case isTrue => exact .refl _
  case isFalse hfd =>
    obtain ⟨o, hc⟩ := (h.ok.slots c ⟨hn, hfd⟩).resolve_left hdns
    have hr := h.dispatchRead inflateGzip hc (reventsOf events) renv
    have ht := h.dispatchRead_traced inflateGzip hc (reventsOf events) renv
    simp only
    split
    case isTrue => exact ht
    case isFalse =>
      refine ht.trans (hr.inv.dispatchWrite_traced inflateGzip ?_ ?_ (reventsOf events) wenv)
      · rw [hr.n]
        exact hn
      · rw [hr.dns]
        exact hdns

/-- A round of `event_expire_timers` takes the timer of a client's connection out of the tree, and the
client's handler is called at once. -/
theorem LoopInv.expire_eq (h : LoopInv guarded s) {e : EventRef} (he : e ∈ s.pool.events.rbtree)
    (env : Env) : ∃ o client t, Holds guarded s e.slot o ∧ Owns s e.slot o client ∧
      Affects s.pool.events t e False ∧ Within e.slot s.sockets ⟨{ s.pool with events := t }, s.io⟩ ∧
      (t.ev e).timedout = true ∧
      s.timer (expireTimer · e) = some (s.withSockets ⟨{ s.pool with events := t }, s.io⟩) ∧
      expireRound inflateGzip s e env =
        ((s.withSockets ⟨{ s.pool with events := t }, s.io⟩).note e).callHandler o client := by
  obtain ⟨xs, hok⟩ := h.ok.pool
  have hset : (s.pool.events.ev e).timerSet = true := (hok.timers.set_iff e).mpr he
  have hdns : s.dns ≠ some e.slot := by
    intro hdns
    have hoff := (h.ok.dns e.slot hdns).disarmed e rfl
    rw [hset] at hoff
    cases hoff
  obtain ⟨o, hc⟩ := (h.ok.slots e.slot (hok.linked e he)).resolve_left hdns
  obtain ⟨client, howns⟩ := hc.client
  have hhan := hc.armedHandler rfl hset
  obtain ⟨t, hexp, hcons, haff⟩ := hok.timers.expireTimer he
  have hw : Within e.slot s.sockets ⟨{ s.pool with events := t }, s.io⟩ :=
    ⟨rfl, fun e' he' => haff.other_ev e' fun heq => he' (heq ▸ rfl), fun _ _ => rfl,
      fun ys hys => hys.affects hcons haff fun hf => hf.elim⟩
  have htimer : s.timer (expireTimer · e) =
      some (s.withSockets ⟨{ s.pool with events := t }, s.io⟩) := by
    simp [EventLoop.timer, Pool.withTimers, hexp, EventLoop.withSockets]
  have hout := expireTimer_timedout hexp
  refine ⟨o, client, t, hc, howns, haff, hw, hout, htimer, ?_⟩
  have howns₁ : Owns (s.withSockets ⟨{ s.pool with events := t }, s.io⟩) e.slot o client :=
    ⟨hw.owned howns.owned, howns.record, howns.handler⟩
  rw [expireRound, htimer, Option.map_some, EventLoop.settle, Option.getD_some]
  rw [← haff.handler] at hhan
  exact invoke_timedout inflateGzip howns₁ rfl hout hhan env

theorem LoopInv.expire_traced (h : LoopInv guarded s) {e : EventRef} (he : e ∈ s.pool.events.rbtree)
    (env : Env) : Traced s.pool (expireRound inflateGzip s e env).pool := by
  obtain ⟨o, client, t, hc, howns, haff, hw, -, -, hexp⟩ := h.expire_eq inflateGzip he env
  have htracks : Tracks e.slot o s.pool { s.pool with events := t } := by
    refine Tracks.within (s := s.sockets) (.refl howns.owned) hw (fun e' _ => ?_) rfl
    by_cases hee : e' = e
    · rw [hee]
      exact haff.active
    · exact congrArg Event.active (haff.other_ev e' hee)
  rw [hexp]
  have hnote : Tends e.slot o s
      ((s.withSockets ⟨{ s.pool with events := t }, s.io⟩).note e) := ⟨htracks, rfl⟩
  exact hnote.callHandler client hc.link

end Loop

/-! ## Creating a client -/

section Conn

variable {s s' : EventLoop} {c : Slot} {ys : List Slot} {o : Addr} {env : ConnEnv} {rc : Int}

theorem connFailed_traced (hheld : Held s.pool c) (h : connFailed s c = some (rc, s')) :
    Traced s.pool s'.pool := by
  obtain ⟨p, hclose, heq⟩ := Option.map_eq_some_iff.mp h
  cases heq
  exact .closeConnection hheld hclose

theorem connOpen_traced {p : Pool} (hpool : s.pool = p.handOut c (.read c) (.write c) env.fd)
    (hok : PoolOk s.pool ys) (hheld : Held s.pool c) (h : connOpen s o c env = some (rc, s')) :
    Traced s.pool s'.pool := by
  rw [connOpen] at h
  split at h
  case isTrue => exact connFailed_traced hheld h
  case isFalse =>
    have hwrite : (s.pool.connections c).write = some (.write c) := by
      rw [hpool]
      simp
    have hoff : ((connSetup s o c (.write c)).pool.events.ev (.write c)).active = false := by
      obtain ⟨handler, -, -, hev⟩ := connSetup_ev s o c
      rw [hev, if_pos rfl, hpool]
      simp
    obtain ⟨handler, -, hsetup, hev⟩ := connSetup_ev s o c
    have hprep := connSetup_prepared (s := s) (o := o) (fun i (_ : i ≠ c) => Eq.refl (s.io i)) hpool hok hheld
    -- filling the connection in is nothing to epoll
    have hquiet : Quiet s.pool (connSetup s o c (.write c)).pool := by
      refine ⟨by rw [hsetup]; rfl, fun i => ?_, fun e => ?_, fun xs hxs => ?_, by rw [hsetup]; rfl⟩
      · rw [connSetup_connections]
        split
        case isTrue heq => rw [heq]
        case isFalse => rfl
      · rw [hev]
        split
        case isTrue heq => rw [heq]
        case isFalse => rfl
      · rw [hsetup]
        have hevent := hxs.setEvent (e := .write c)
          (v := { s.pool.events.ev (.write c) with handler := some handler }) rfl rfl fun _ => hheld
        exact hevent.setOwner (i := c) hheld o
    have h₀ : Tracks c o s.pool (connSetup s o c (.write c)).sockets.pool :=
      ⟨hprep.owned, .quiet hquiet⟩
    rw [hwrite] at h
    simp only [Option.bind_eq_bind, Option.bind_some] at h
    obtain ⟨⟨rc₁, q⟩, hadd, h⟩ := Option.bind_eq_some_iff.mp h
    have h₁ : Tracks c o s.pool q :=
      h₀.eventAdd (e := .write c) rfl (fun hon => by
        have hon' : ((connSetup s o c (.write c)).pool.events.ev (.write c)).active = true := hon
        rw [hoff] at hon'
        cases hon') hadd
    simp only at h
    split at h
    · exact h₁.traced.trans
        (connFailed_traced (s := { connSetup s o c (.write c) with pool := q }) h₁.owned.held h)
    · rw [connConnect] at h
      split at h
      · exact h₁.traced.trans
          (connFailed_traced (s := { connSetup s o c (.write c) with pool := q }) h₁.owned.held h)
      · obtain ⟨s₂, htimer, heq⟩ := Option.map_eq_some_iff.mp h
        cases heq
        obtain ⟨p₂, hp₂, rfl⟩ := Option.map_eq_some_iff.mp htimer
        exact (Tracks.addTimer (s := ⟨q, fun _ => {}⟩) h₁ (e := .write c) rfl hp₂).traced
      · cases h
        exact h₁.traced

/-- A descriptor that `socket` gives belongs to no connection. -/
def FreshFd (s : EventLoop) (env : ConnEnv) : Prop :=
  ∀ i, Held s.pool i → (s.pool.connections i).fd ≠ env.fd

theorem httpConn_traced {xs : List Slot} (hok : PoolOk s.pool xs) (hfresh : FreshFd s env)
    (h : httpConn s o env = some (rc, s')) : Traced s.pool s'.pool := by
  rw [httpConn] at h
  split at h
  case isTrue =>
    cases h
    exact .refl _
  case isFalse hfd =>
    rcases hok.getConnection (Int.not_lt.mp hfd) with ⟨-, hget⟩ | ⟨c, ys, rfl, hget, hok₁, hheld₁⟩
    · rw [hget] at h
      cases h
      exact .close hfresh
    · rw [hget] at h
      simp only [Option.bind_eq_bind, Option.bind_some] at h
      refine (Traced.getConnection ⟨_, hok⟩ (Int.not_lt.mp hfd) hfresh hget).trans ?_
      exact connOpen_traced (s := { s with
        pool := s.pool.handOut c (.read c) (.write c) env.fd
        io := Function.update s.io c {} }) rfl hok₁ hheld₁ h

theorem httpClientCreate_traced {xs : List Slot} (hok : PoolOk s.pool xs) (hfresh : FreshFd s env)
    (url : HttpUrl) : Traced s.pool (httpClientCreate s url env).pool := by
  have hok' : PoolOk (addClient s url).pool xs := hok
  rw [httpClientCreate]
  rcases httpConn_cases hok' s.brk env with
    ⟨-, s', hconn, hfail⟩ | ⟨-, c, ys, s', -, hconn, -⟩
  · have htraced : Traced s.pool s'.pool := httpConn_traced (s := addClient s url) hok' hfresh hconn
    have hrec : s'.clients s.brk = some (newClient url) := by
      rw [hfail.clients]
      simp [addClient]
    have hlink : (s'.link s.brk).connection = none := by
      rw [hfail.link]
      simp [addClient]
    obtain ⟨calls, hcall⟩ := callHandler_bare hrec hlink
    simp only [hconn, Option.map_some, EventLoop.settle, Option.getD_some]
    rw [if_pos (by decide), hcall]
    exact htraced
  · have htraced : Traced s.pool s'.pool := httpConn_traced (s := addClient s url) hok' hfresh hconn
    simp only [hconn, Option.map_some, EventLoop.settle, Option.getD_some]
    rw [if_neg (by decide)]
    exact htraced

end Conn

/-! ## Runs -/

/-- The action gets a descriptor that no connection holds, if it asks for one. -/
def Fresh (s : EventLoop) : LoopAction → Prop
  | .create _ env => FreshFd s env
  | _ => True

theorem LoopInv.step_traced {guarded : Prop} {inflateGzip : HttpBuf → HttpBuf → Int × HttpBuf}
    {s : EventLoop} (h : LoopInv guarded s) {a : LoopAction} (he : loopEnabled s a) (hf : Fresh s a) :
    Traced s.pool (loopStep inflateGzip s a).pool := by
  cases a with
  | create url env =>
      obtain ⟨xs, hok⟩ := h.ok.pool
      exact httpClientCreate_traced hok hf url
  | entry c events renv wenv => exact h.entry_traced inflateGzip he.2.1 he.2.2 events renv wenv
  | expire e now env => exact h.expire_traced inflateGzip he.2.1 env

/-- The resolver's socket is registered like any other. -/
theorem loopDnsInit_traced {p : Pool} {xs : List Slot} (hok : PoolOk p xs)
    (hidle : ∀ i, ¬ Held p i) {fd : Int} (hfd : 0 ≤ fd) {ctl : EpollCtl → Int} {s : EventLoop}
    (h : loopDnsInit (loopStart p) fd ctl = some s) : Traced p s.pool := by
  rw [loopDnsInit] at h
  rcases hok.getConnection hfd with ⟨-, hget⟩ | ⟨c, ys, rfl, hget, hok₁, hheld₁⟩
  · have hget' : getConnection (loopStart p).pool fd = some (none, p) := hget
    simp [hget'] at h
  · have hget' : getConnection (loopStart p).pool fd = _ := hget
    simp only [hget', Option.bind_eq_bind, Option.bind_some, handOut_connections, if_true,
      Option.pure_def] at h
    obtain ⟨⟨rc, q⟩, hadd, h⟩ := Option.bind_eq_some_iff.mp h
    have hfirst : Traced p (p.handOut c (.read c) (.write c) fd) :=
      .getConnection ⟨_, hok⟩ hfd (fun i hi => absurd hi (hidle i)) hget
    refine hfirst.trans ?_
    generalize hp₁ : p.handOut c (.read c) (.write c) fd = p₁ at hadd hok₁ hheld₁
    have hoff : (p₁.events.ev (.read c)).active = false := by
      rw [← hp₁]
      simp
    have hok₂ := hok₁.setEvent (e := .read c)
      (v := { p₁.events.ev (.read c) with handler := some .dnsProcessEvent }) rfl rfl fun _ => hheld₁
    have hquiet : Quiet p₁ (p₁.setEvent (.read c)
        { p₁.events.ev (.read c) with handler := some .dnsProcessEvent }) := by
      refine ⟨rfl, fun _ => rfl, fun e => ?_, fun zs hzs => hzs.setEvent rfl rfl fun _ => hheld₁, rfl⟩
      simp only [Pool.setEvent, Timers.set_ev]
      split
      case isTrue heq => rw [heq]
      case isFalse => rfl
    have hadded := Traced.eventAdd hok₂ (e := .read c) hheld₁ (by simp [Pool.setEvent, hoff]) hadd
    simp only at h
    split at h
    · cases h
    · cases h
      exact (Traced.quiet hquiet).trans hadded

theorem LoopInit.listed {n : UInt32} {s : EventLoop} (h : LoopInit n s) :
    ∃ k, Listed s.pool k ∧ Registered s.pool k := by
  obtain ⟨p, hinit, hstart⟩ := h
  have hlisted : Listed p fun _ => none := connectionInit_listed hinit
  have hreg : Registered p fun _ => none := connectionInit_registered hinit
  rcases hstart with rfl | ⟨fd, ctl, hfd, hdns⟩
  · exact ⟨_, hlisted, hreg⟩
  · exact loopDnsInit_traced (connectionInit_ok hinit) (connectionInit_idle hinit) hfd hdns _ hlisted
      hreg

theorem run_listed {n : UInt32} {inflateGzip : HttpBuf → HttpBuf → Int × HttpBuf} {s t : EventLoop}
    {as : List LoopAction} (hinit : LoopInit n s) (hr : Run (eventLoop n inflateGzip) s as t)
    (hfresh : EveryStep (eventLoop n inflateGzip) s as Fresh) :
    LoopInv False t ∧ ∃ k, Listed t.pool k ∧ Registered t.pool k := by
  refine hfresh.everyState (P := fun t => LoopInv False t ∧ ∃ k, Listed t.pool k ∧ Registered t.pool k)
    ⟨hinit.inv False, hinit.listed⟩ ?_ as t (List.prefix_refl as) hr
  rintro t a u ⟨hinv, k, hlisted, hreg⟩ hf he hn
  obtain rfl := Option.some.inj hn
  exact ⟨hinv.step he fun hfalse => hfalse.elim, hinv.step_traced he hf k hlisted hreg⟩

/-- In every run of the event loop in which `socket` gives descriptors that no connection holds,
`epoll_ctl` is never asked to add what is registered, or to change or delete what is not: every request
recorded is one that the list then allows. And the list they leave always has exactly the sockets of the
connections with an active event, each with the masks of its active events and its own connection. -/
theorem reachable_registered {n : UInt32} {inflateGzip : HttpBuf → HttpBuf → Int × HttpBuf}
    {s t : EventLoop} {as : List LoopAction} (hinit : LoopInit n s)
    (hr : Run (eventLoop n inflateGzip) s as t)
    (hfresh : EveryStep (eventLoop n inflateGzip) s as Fresh) :
    ∃ k, Listed t.pool k ∧ Registered t.pool k :=
  (run_listed hinit hr hfresh).2

/-! ## Reports -/

/-- What `epoll_wait` may say about a descriptor: the pointer it is registered with, and of the events
those it is registered for; errors are reported whether asked for or not. -/
def Reports (k : Interest) (fd : Int) (c : Slot) (events : UInt32) : Prop :=
  ∃ r, k fd = some r ∧ r.ptr = c ∧ events &&& (r.events ||| epollErr) = events

theorem and_or_eq_zero {a b c : UInt32} : a &&& (b ||| c) = 0 ↔ a &&& b = 0 ∧ a &&& c = 0 := by
  rw [← UInt32.toNat_inj, ← UInt32.toNat_inj, ← UInt32.toNat_inj]
  simp only [UInt32.toNat_and, UInt32.toNat_or, Nat.and_or_distrib_left]
  simp

/-- Bits outside the mask are not reported. -/
theorem and_eq_zero_of_reported {events m b : UInt32} (h : events &&& m = events)
    (hb : m &&& b = 0) : events &&& b = 0 := by
  rw [← h, UInt32.and_assoc, hb, UInt32.and_zero]

/-- What a report says of the connection it is about: it is held, and the events named are active. -/
structure Watched (p : Pool) (c : Slot) (events : UInt32) : Prop where
  held : Held p c
  read : events &&& epollIn ≠ 0 → (p.events.ev (.read c)).active = true
  write : events &&& epollOut ≠ 0 → (p.events.ev (.write c)).active = true
  any : (p.events.ev (.read c)).active = true ∨ (p.events.ev (.write c)).active = true

/-- A report is about the connection that holds the descriptor. -/
theorem Reports.watched {p : Pool} {k : Interest} {fd : Int} {c : Slot} {events : UInt32}
    (hrep : Reports k fd c events) (h : Registered p k) :
    Watched p c events ∧ (p.connections c).fd = fd := by
  obtain ⟨r, hk, hptr, hsub⟩ := hrep
  obtain ⟨i, hi, hfd⟩ : ∃ i, Held p i ∧ (p.connections i).fd = fd := by
    by_contra hnone
    rw [h.others fd fun i hi heq => hnone ⟨i, hi, heq⟩] at hk
    cases hk
  have hexp := h.held i hi
  rw [hfd, hk] at hexp
  obtain ⟨hself, hne, hevents⟩ := hexp
  obtain rfl : i = c := hself.symm.trans hptr
  suffices hboth : _ ∧ _ ∧ _ from ⟨⟨hi, hboth.1, hboth.2.1, hboth.2.2⟩, hfd⟩
  cases hread : (p.events.ev (.read i)).active <;> cases hwrite : (p.events.ev (.write i)).active
  · exact absurd (by simp [Pool.watched, hread, hwrite]) hne
  · have hw : p.watched i = IoEvent.write.mask := by simp [Pool.watched, hread, hwrite]
    rw [hw] at hevents
    rcases hevents with heq | ⟨-, hfalse⟩
    · rw [heq] at hsub
      refine ⟨fun hin => absurd (and_eq_zero_of_reported hsub (by decide)) hin, fun _ => rfl,
        Or.inr rfl⟩
    · exact absurd hfalse (by decide)
  · have hw : p.watched i = IoEvent.read.mask := by simp [Pool.watched, hread, hwrite]
    rw [hw] at hevents
    refine ⟨fun _ => rfl, fun hout => absurd ?_ hout, Or.inl rfl⟩
    rcases hevents with heq | ⟨heq, -⟩
    · rw [heq] at hsub
      exact and_eq_zero_of_reported hsub (by decide)
    · rw [heq] at hsub
      exact and_eq_zero_of_reported hsub (by decide)
  · exact ⟨fun _ => rfl, fun _ => rfl, Or.inl rfl⟩

theorem callHandler_invoked (s : EventLoop) (o : Addr) (client : HttpClient) :
    (s.callHandler o client).log.invoked = s.log.invoked := by
  have hretrieve : ∀ s₁ : EventLoop, (httpClientRetrieve s₁ o).log.invoked = s₁.log.invoked := by
    intro s₁
    rw [httpClientRetrieve]
    simp only
    split
    · rfl
    · split
      · rfl
      · split <;> rfl
  rw [EventLoop.callHandler]
  simp only
  split
  · rw [parseHtml, hretrieve]
    split <;> rfl
  · rfl

theorem After.invoked {c : Slot} {o : Addr} {s s' : EventLoop} (h : After c o s s') :
    s'.log.invoked = s.log.invoked := by
  rcases h with hk | ⟨s₁, client, hs, -, rfl⟩
  · rw [hk.serving.log]
  · rw [callHandler_invoked, hs.log]

section Dispatch

variable {guarded : Prop} {s : EventLoop} {c : Slot} {o : Addr}
  (inflateGzip : HttpBuf → HttpBuf → Int × HttpBuf)

/-- A handler of `e` was called in `s'` after all that had been called in `s`. -/
def Calls (e : EventRef) (s s' : EventLoop) : Prop :=
  ∃ call : Invocation, call.event = e ∧ s.log.invoked ++ [call] <+: s'.log.invoked

theorem settle_invoked {r : Option EventLoop}
    (hr : ∀ s', r = some s' → s'.log.invoked = s.log.invoked) :
    (s.settle r).log.invoked = s.log.invoked := by
  cases hres : r with
  | none => rfl
  | some s' => exact hr s' hres

theorem Holds.invoke_calls (hc : Holds guarded s c o) {e : EventRef} (he : e.slot = c)
    (hactive : (s.pool.events.ev e).active = true) (env : Env) :
    Calls e s (invoke inflateGzip handlerDepth s e env) := by
  have hcn : Holds guarded (s.note e) c o := hc.withLog _
  obtain ⟨client, howns⟩ := hcn.client
  have hnote : (s.note e).log.invoked <+: (invoke inflateGzip handlerDepth s e env).log.invoked →
      Calls e s (invoke inflateGzip handlerDepth s e env) := fun hpre => ⟨_, rfl, hpre⟩
  refine hnote ?_
  rw [handlerDepth, Http.invoke]
  cases hcn.activeHandler he hactive with
  | handshake hearly hhan =>
      simp only [hhan]
      rw [settle_invoked fun s' hs' => (sslHandshakeHandler_after he howns hearly hs').invoked]
  | write hew hsaved hhan =>
      subst hew
      simp only [hhan]
      rw [settle_invoked fun s' hs' => (httpWriteEventProcess_after howns hhan hsaved hs').invoked]
  | read her hlate hhan =>
      subst her
      simp only [hhan]
      rw [settle_invoked fun s' hs' => (httpReadEventProcess_after howns hlate hs').invoked]
  | aside hew hlate hhan =>
      subst hew
      obtain ⟨hread, -, -, hdata⟩ := howns.owned.names
      have hcn₂ : Holds guarded ((s.note (.write c)).note (.read c)) c o := hcn.withLog _
      obtain ⟨client₂, howns₂⟩ := hcn₂.client
      have hhan₂ : (((s.note (.write c)).note (.read c)).pool.events.ev (.read c)).handler =
          some .httpReadEventProcess := hlate.read
      have hlate₂ : Late ((s.note (.write c)).note (.read c)).sockets c := hlate
      simp only [hhan, hdata, Option.map_some, Option.bind_some, hread, EventLoop.settle,
        Option.getD_some]
      rw [Http.invoke]
      simp only [hhan₂]
      rw [settle_invoked fun s' hs' => (httpReadEventProcess_after howns₂ hlate₂ hs').invoked]
      exact List.prefix_append _ _

theorem LoopInv.dispatchRead_calls (h : LoopInv guarded s) (hc : Holds guarded s c o)
    {revents : UInt32} (hin : revents &&& epollIn ≠ 0)
    (hactive : (s.pool.events.ev (.read c)).active = true) (env : Env) :
    Calls (.read c) s (Http.dispatchRead inflateGzip s c revents env) := by
  obtain ⟨client, howns⟩ := hc.client
  rw [Http.dispatchRead, howns.owned.names.1]
  simp only
  rw [if_pos ⟨hin, hactive⟩]
  obtain ⟨-, hcf⟩ := h.flag hc (e := .read c) rfl
    (f := fun ev =>
      { ev with
        pendingEof := if revents &&& epollRdhup ≠ 0 then true else ev.pendingEof
        ready := true }) rfl rfl rfl rfl
  refine hcf.invoke_calls inflateGzip rfl ?_ env
  have hact : (s.sockets.pool.events.ev (.read c)).active = true := hactive
  simpa [EventLoop.withSockets] using hact

/-- The half about writing calls the write handler, if it is to, and takes nothing off the log. -/
theorem LoopInv.dispatchWrite_calls (h : LoopInv guarded s) (hn : c < s.pool.n)
    (hdns : s.dns ≠ some c) (revents : UInt32) (env : Env) :
    s.log.invoked <+: (Http.dispatchWrite inflateGzip s c revents env).log.invoked ∧
      (revents &&& epollOut ≠ 0 → (s.pool.events.ev (.write c)).active = true →
        (s.pool.connections c).fd ≠ -1 →
        Calls (.write c) s (Http.dispatchWrite inflateGzip s c revents env)) := by
  obtain ⟨xs, hok⟩ := h.ok.pool
  rw [Http.dispatchWrite, (hok.names c hn).2]
  simp only
  split
  case isTrue hon =>
    split
    case isTrue hclosed => exact ⟨List.prefix_refl _, fun _ _ hfd => absurd hclosed hfd⟩
    case isFalse hfd =>
      obtain ⟨o, hc⟩ := (h.ok.slots c ⟨hn, hfd⟩).resolve_left hdns
      obtain ⟨-, hcf⟩ := h.flag hc (e := .write c) rfl (f := fun ev => { ev with ready := true })
        rfl rfl rfl rfl
      have hact : (s.sockets.pool.events.ev (.write c)).active = true := hon.2
      have hcalls := hcf.invoke_calls inflateGzip (e := .write c) rfl
        (by simpa [EventLoop.withSockets] using hact) env
      obtain ⟨call, hcall, hpre⟩ := hcalls
      exact ⟨(List.prefix_append _ [call]).trans hpre, fun _ _ _ => ⟨call, hcall, hpre⟩⟩
  case isFalse hoff => exact ⟨List.prefix_refl _, fun hout hact _ => absurd ⟨hout, hact⟩ hoff⟩

end Dispatch

/-- Some handler is called for every report that names more than the end of the peer's writing. -/
theorem LoopInv.reported {guarded : Prop} {s : EventLoop} (h : LoopInv guarded s) {c : Slot}
    {events : UInt32} (hw : Watched s.pool c events)
    (hsome : events &&& (epollIn ||| epollOut ||| epollErr) ≠ 0) (hdns : s.dns ≠ some c)
    (hright : s.log.wrong = false) (inflateGzip : HttpBuf → HttpBuf → Int × HttpBuf)
    (renv wenv : Env) :
    ∃ e : EventRef, e.slot = c ∧ (s.pool.events.ev e).active = true ∧
      Calls e s (eventEntry inflateGzip s c events renv wenv) := by
  obtain ⟨hheld, hin, hout, hany⟩ := hw
  obtain ⟨o, hc⟩ := (h.ok.slots c hheld).resolve_left hdns
  obtain ⟨client, howns⟩ := hc.client
  -- which of the two events the entry is handed to
  have hgo : (reventsOf events &&& epollIn ≠ 0 ∧ (s.pool.events.ev (.read c)).active = true) ∨
      reventsOf events &&& epollOut ≠ 0 ∧ (s.pool.events.ev (.write c)).active = true := by
    rw [reventsOf]
    by_cases hio : events &&& (epollIn ||| epollOut) = 0
    · have herr : events &&& epollErr ≠ 0 := fun hzero => hsome (and_or_eq_zero.mpr ⟨hio, hzero⟩)
      rw [if_pos ⟨herr, hio⟩]
      refine hany.imp (fun hread => ⟨fun hzero => ?_, hread⟩) fun hwrite => ⟨fun hzero => ?_, hwrite⟩
      · rw [UInt32.and_comm, and_or_eq_zero] at hzero
        exact absurd hzero.2 (by decide)
      · rw [UInt32.and_comm, and_or_eq_zero] at hzero
        exact absurd hzero.2 (by decide)
    · rw [if_neg fun hand => hio hand.2]
      by_cases hzero : events &&& epollIn = 0
      · have hne : events &&& epollOut ≠ 0 := fun hz => hio (and_or_eq_zero.mpr ⟨hzero, hz⟩)
        exact Or.inr ⟨hne, hout hne⟩
      · exact Or.inl ⟨hzero, hin hzero⟩
  have hentry : eventEntry inflateGzip s c events renv wenv =
      if (Http.dispatchRead inflateGzip s c (reventsOf events) renv).log.wrong then
        Http.dispatchRead inflateGzip s c (reventsOf events) renv
      else Http.dispatchWrite inflateGzip
        (Http.dispatchRead inflateGzip s c (reventsOf events) renv) c (reventsOf events) wenv := by
    rw [eventEntry, if_neg hheld.2]
  by_cases hr : reventsOf events &&& epollIn ≠ 0 ∧ (s.pool.events.ev (.read c)).active = true
  · -- the read handler is called, and the rest of the entry only adds to the log
    obtain ⟨call, hcall, hpre⟩ := h.dispatchRead_calls inflateGzip hc hr.1 hr.2 renv
    refine ⟨.read c, rfl, hr.2, call, hcall, ?_⟩
    have hon := h.dispatchRead inflateGzip hc (reventsOf events) renv
    rw [hentry]
    split
    · exact hpre
    · refine hpre.trans (hon.inv.dispatchWrite_calls inflateGzip ?_ ?_ (reventsOf events) wenv).1
      · rw [hon.n]
        exact hheld.1
      · rw [hon.dns]
        exact hdns
  · -- nothing is read, and the write handler is called in the same state
    obtain ⟨hout', hwrite⟩ := hgo.resolve_left hr
    have hsame : Http.dispatchRead inflateGzip s c (reventsOf events) renv = s := by
      rw [Http.dispatchRead, howns.owned.names.1]
      simp only
      rw [if_neg hr]
    rw [hentry, hsame, hright, if_neg (by decide)]
    exact ⟨.write c, rfl, hwrite,
      (h.dispatchWrite_calls inflateGzip hheld.1 hdns (reventsOf events) wenv).2 hout' hwrite hheld.2⟩

/-- In every such run the kernel, with the list that the calls leave, reports held connections only,
under their own descriptors; and a report for a client's connection that says more than that the peer
writes no further (`EPOLLRDHUP`) leads to the call of a handler of an active event, whatever the handler
then does. -/
theorem reachable_reported {n : UInt32} {inflateGzip : HttpBuf → HttpBuf → Int × HttpBuf}
    {s t : EventLoop} {as : List LoopAction} (hinit : LoopInit n s)
    (hr : Run (eventLoop n inflateGzip) s as t)
    (hfresh : EveryStep (eventLoop n inflateGzip) s as Fresh) (hright : t.log.wrong = false) :
    ∃ k, Listed t.pool k ∧ Registered t.pool k ∧
      ∀ fd c events, Reports k fd c events → Held t.pool c ∧ (t.pool.connections c).fd = fd ∧
        (events &&& (epollIn ||| epollOut ||| epollErr) ≠ 0 → t.dns ≠ some c → ∀ renv wenv,
          ∃ e : EventRef, e.slot = c ∧ (t.pool.events.ev e).active = true ∧
            Calls e t (eventEntry inflateGzip t c events renv wenv)) := by
  obtain ⟨hinv, k, hlisted, hreg⟩ := run_listed hinit hr hfresh
  refine ⟨k, hlisted, hreg, fun fd c events hrep => ?_⟩
  obtain ⟨hw, hfd⟩ := hrep.watched hreg
  exact ⟨hw.held, hfd, fun hsome hdns renv wenv =>
    hinv.reported hw hsome hdns hright inflateGzip renv wenv⟩

/-- `Fresh`, checked slot by slot. -/
def freshCheck (s : EventLoop) : LoopAction → Bool
  | .create _ env => (List.range s.pool.n).all fun i =>
      (s.pool.connections i).fd == -1 || (s.pool.connections i).fd != env.fd
  | _ => true

theorem freshCheck_sound (s : EventLoop) (a : LoopAction) (h : freshCheck s a = true) : Fresh s a := by
  cases a with
  | create url env =>
      intro i hi
      have hone := List.all_eq_true.mp h i (List.mem_range.mpr hi.1)
      simpa [hi.2] using hone
  | entry => trivial
  | expire => trivial

/-- The socket of a client whose connect is in progress is registered for writing: it has been added, and
nothing else has been asked for. -/
theorem reachable_registered_oneClient :
    (oneClient .inProgress).pool.asked = [.ctl ⟨.add, 5, IoEvent.write.mask ||| clearEvent⟩ 0 0] ∧
      ∃ k, Listed (oneClient .inProgress).pool k ∧
        k 5 = some ⟨IoEvent.write.mask ||| clearEvent, 0⟩ := by
  obtain ⟨k, hlisted, hreg⟩ := reachable_registered twoSlots_init (oneClient_run .inProgress)
    (everyStep_of_check freshCheck_sound (by decide))
  refine ⟨by decide, k, hlisted, ?_⟩
  have hedge := hreg.edge (i := 0) ⟨by decide, by decide⟩ (by decide) (by decide)
  have hfd : ((oneClient .inProgress).pool.connections 0).fd = 5 := by decide
  have hwatched : (oneClient .inProgress).pool.watched 0 = IoEvent.write.mask := by decide
  rw [hfd, hwatched] at hedge
  exact hedge

/-- A report on it finds the client's connection. -/
theorem reachable_reported_oneClient : ∃ k, Listed (oneClient .inProgress).pool k ∧
    ∀ c, Reports k 5 c epollOut →
      ∃ e : EventRef, e.slot = c ∧ Calls e (oneClient .inProgress)
        (eventEntry noInflate (oneClient .inProgress) c epollOut silentEnv silentEnv) := by
  obtain ⟨k, hlisted, -, hrep⟩ := reachable_reported twoSlots_init (oneClient_run .inProgress)
    (everyStep_of_check freshCheck_sound (by decide)) (by decide)
  refine ⟨k, hlisted, fun c hc => ?_⟩
  obtain ⟨-, -, hgo⟩ := hrep 5 c epollOut hc
  have hdns : (oneClient .inProgress).dns ≠ some c := by
    have hnone : (oneClient .inProgress).dns = none := by decide
    rw [hnone]
    exact fun h => by cases h
  obtain ⟨e, he, -, hcall⟩ := hgo (by decide) hdns silentEnv silentEnv
  exact ⟨e, he, hcall⟩

end Crawler.Http
