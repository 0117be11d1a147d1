/-
# Crawler.Http.Serving — how a handler ends

A handler of client `o` on connection `c` touches nothing but these two (`Serving`). When it returns,
the client is in one of its phases with a timer armed, or the client's handler was called as the last
thing (`After`).
-/
import Crawler.Http.EventLoop
import Crawler.Http.Phases

namespace Crawler.Http

open Crawler.Lib Crawler.EventTimer Crawler.Connections

/-! ## The frame -/

/-- `s` differs from `s₀` in connection `c` and in the record of client `o` only, and the client keeps
its handler. -/
structure Serving (c : Slot) (o : Addr) (s₀ s : EventLoop) : Prop where
  within : Within c s₀.sockets s.sockets
  clients : ∀ o', o' ≠ o → s.clients o' = s₀.clients o'
  handler : (s.clients o).map HttpClient.handler = (s₀.clients o).map HttpClient.handler
  link : s.link = s₀.link
  brk : s.brk = s₀.brk
  log : s.log = s₀.log
  dns : s.dns = s₀.dns

@[simp] theorem withSockets_sockets (s : EventLoop) (k : Sockets) :
    (s.withSockets k).sockets = k := rfl

theorem Serving.refl (c : Slot) (o : Addr) (s : EventLoop) : Serving c o s s :=
  ⟨Within.refl c _, fun _ _ => rfl, rfl, rfl, rfl, rfl, rfl⟩

theorem Serving.trans {c : Slot} {o : Addr} {s₀ s₁ s₂ : EventLoop} (h : Serving c o s₀ s₁)
    (h' : Serving c o s₁ s₂) : Serving c o s₀ s₂ where
  within := h.within.trans h'.within
  clients := fun o' ho' => (h'.clients o' ho').trans (h.clients o' ho')
  handler := h'.handler.trans h.handler
  link := h'.link.trans h.link
  brk := h'.brk.trans h.brk
  log := h'.log.trans h.log
  dns := h'.dns.trans h.dns

/-- Client `o` holds connection `c`. -/
structure Owns (s : EventLoop) (c : Slot) (o : Addr) (client : HttpClient) : Prop where
  owned : OwnedBy s.pool c o
  record : s.clients o = some client
  handler : client.handler ≠ none

theorem Serving.owns {c : Slot} {o : Addr} {s₀ s : EventLoop} {client : HttpClient}
    (h : Serving c o s₀ s) (h₀ : Owns s₀ c o client) :
    ∃ client', Owns s c o client' ∧ client'.handler = client.handler := by
  have hh := h.handler
  rw [h₀.record, Option.map_some, Option.map_eq_some_iff] at hh
  obtain ⟨client', hrec, hhandler⟩ := hh
  exact ⟨client', ⟨h.within.owned h₀.owned, hrec, hhandler ▸ h₀.handler⟩, hhandler⟩

theorem Owns.owner {s : EventLoop} {c : Slot} {o : Addr} {client : HttpClient}
    (h : Owns s c o client) {e : EventRef} (he : e.slot = c) : s.owner e = some (c, o, client) := by
  have hdata : (s.pool.events.ev e).data = some c := by
    obtain ⟨xs, hok⟩ := h.owned.ok
    exact he ▸ hok.owned e (he ▸ h.owned.held)
  simp [EventLoop.owner, hdata, h.owned.owner, h.record]

section Frame

variable {c : Slot} {o : Addr} {s₀ s : EventLoop} (h : Serving c o s₀ s)
include h

theorem Serving.withSockets {k : Sockets} (hk : Within c s.sockets k) :
    Serving c o s₀ (s.withSockets k) :=
  ⟨h.within.trans hk, h.clients, h.handler, h.link, h.brk, h.log, h.dns⟩

/-- Changing the client's record, but not its handler. -/
theorem Serving.modify {f : HttpClient → HttpClient}
    (hf : ∀ client, s.clients o = some client → (f client).handler = client.handler) :
    Serving c o s₀ (s.modify o f) := by
  refine ⟨h.within, fun o' ho' => ?_, ?_, h.link, h.brk, h.log, h.dns⟩
  · rw [← h.clients o' ho']
    exact Function.update_of_ne ho' _ _
  · rw [← h.handler]
    simp only [EventLoop.modify, World.modify, Function.update_self]
    cases hrec : s.clients o with
    | none => rfl
    | some client => simp [hf client hrec]

/-- A result of the same frame that a part of the world has made. -/
theorem Serving.accept (b : HttpBuf) (n : Nat) :
    Serving c o s₀ { s with toWorld := s.toWorld.accept o b n } := by
  have hm := h.modify (f := fun client => { client with req := some { b with pos := b.pos + n } })
    fun _ _ => rfl
  exact ⟨hm.within, hm.clients, hm.handler, hm.link, hm.brk, hm.log, hm.dns⟩

end Frame

/-! ## How a handler ends -/

/-- The client stays, in one of its phases and with one of its two timers armed. -/
structure Kept (c : Slot) (o : Addr) (s₀ s : EventLoop) : Prop where
  serving : Serving c o s₀ s
  phase : Early s.sockets c ∨ Late s.sockets c
  armed : (s.pool.events.ev (.read c)).timerSet = true ∨ (s.pool.events.ev (.write c)).timerSet = true

/-- The last thing done is the call of the client's handler. -/
def Gone (c : Slot) (o : Addr) (s₀ s : EventLoop) : Prop :=
  ∃ s₁ client, Serving c o s₀ s₁ ∧ client.handler ≠ none ∧ s = s₁.callHandler o client

/-- The two ends of a handler. -/
def After (c : Slot) (o : Addr) (s₀ s : EventLoop) : Prop := Kept c o s₀ s ∨ Gone c o s₀ s

/-- A client that is in its second phase is armed. -/
theorem Serving.kept_late {c : Slot} {o : Addr} {s₀ s : EventLoop} (h : Serving c o s₀ s)
    (hl : Late s.sockets c) : Kept c o s₀ s :=
  ⟨h, Or.inr hl, Or.inl hl.armed⟩

/-! ## The timers of a connection -/

/-- Arming an event of the connection. -/
theorem Within.addTimer {c : Slot} {o : Addr} {s : Sockets} (hs : OwnedBy s.pool c o) {e : EventRef}
    (he : e.slot = c) (now timer : UInt32) :
    ∃ p, s.pool.withTimers (eventAddTimer now · e timer) = some p ∧
      Within c s { s with pool := p } ∧ (p.events.ev e).timerSet = true ∧
      (p.events.ev e).handler = (s.pool.events.ev e).handler ∧
      (p.events.ev e).active = (s.pool.events.ev e).active ∧
      ∀ e', e' ≠ e → p.events.ev e' = s.pool.events.ev e' := by
  obtain ⟨t, hadd, hc, haff⟩ := hs.consistent.eventAddTimer now e timer
  refine ⟨{ s.pool with events := t }, by rw [Pool.withTimers, hadd, Option.map_some], ?_,
    (hc.set_iff e).mpr (haff.self.mpr trivial), haff.handler, haff.active, haff.other_ev⟩
  refine ⟨rfl, fun e' he' => ?_, fun _ _ => rfl, fun xs hok => hok.affects hc haff fun _ => ?_⟩
  · exact haff.other_ev e' fun heq => he' (heq ▸ he)
  · exact he ▸ hs.held

/-- Disarming an event of the connection, if it is armed. -/
theorem Within.delTimerIfSet {c : Slot} {o : Addr} {w : World} (io : Slot → ConnIo)
    (hs : OwnedBy w.pool c o) {e : EventRef} (he : e.slot = c) :
    ∃ p, (if (w.pool.events.ev e).timerSet then w.withTimers (eventDelTimer · e)
        else some (.ok w)) = some (.ok { w with pool := p }) ∧
      Within c ⟨w.pool, io⟩ ⟨p, io⟩ ∧ (p.events.ev e).timerSet = false ∧
      (p.events.ev e).handler = (w.pool.events.ev e).handler ∧
      ∀ e', e' ≠ e → p.events.ev e' = w.pool.events.ev e' := by
  split
  case isTrue hset =>
    obtain ⟨t, hdel, hc, haff⟩ := hs.consistent.eventDelTimer ((hs.consistent.set_iff e).mp hset)
    have hoff : e ∉ t.rbtree := fun hm => haff.self.mp hm
    refine ⟨{ w.pool with events := t }, by simp [World.withTimers, Pool.withTimers, hdel], ?_,
      Bool.eq_false_iff.mpr fun hon => hoff ((hc.set_iff e).mp hon), haff.handler, haff.other_ev⟩
    refine ⟨rfl, fun e' he' => haff.other_ev e' fun heq => he' (heq ▸ he), fun _ _ => rfl,
      fun xs hok => hok.affects hc haff fun hf => hf.elim⟩
  case isFalse hset =>
    exact ⟨w.pool, rfl, Within.refl c _, Bool.eq_false_iff.mpr hset, rfl, fun _ _ => rfl⟩

/-- Only `active` is set. -/
theorem setActive_keeps (p : Pool) (e e' : EventRef) (b : Bool) :
    ((p.setActive e b).events.ev e').handler = (p.events.ev e').handler ∧
      ((p.setActive e b).events.ev e').timerSet = (p.events.ev e').timerSet := by
  simp only [Pool.setActive, Pool.setEvent, Timers.set_ev]
  split
  case isTrue heq => rw [heq]; exact ⟨rfl, rfl⟩
  case isFalse => exact ⟨rfl, rfl⟩

/-- Taking an event of the connection out of epoll, if it is in: it may fail. -/
theorem Within.eventDelIfActive {c : Slot} {o : Addr} {w : World} (io : Slot → ConnIo)
    (hs : OwnedBy w.pool c o) {e : EventRef} (he : e.slot = c) (event : IoEvent)
    (ctl : EpollCtl → Int) :
    ∃ p, Within c ⟨w.pool, io⟩ ⟨p, io⟩ ∧
      (∀ e', (p.events.ev e').handler = (w.pool.events.ev e').handler ∧
        (p.events.ev e').timerSet = (w.pool.events.ev e').timerSet) ∧
      ((if (w.pool.events.ev e).active then w.register (eventDel w.pool e event 0 ctl)
          else some (.ok w)) = some (.ok { w with pool := p }) ∨
        (if (w.pool.events.ev e).active then w.register (eventDel w.pool e event 0 ctl)
          else some (.ok w)) = some (.error { w with pool := p })) := by
  split
  case isTrue =>
    obtain ⟨xs, hok⟩ := hs.ok
    obtain ⟨req, hdel⟩ := hok.eventDel (he.symm ▸ hs.held) event 0 ctl
    rw [hdel, if_neg (by decide)]
    have hw := Within.ask c ⟨w.pool, io⟩ (.ctl req e.slot (ctl req))
    by_cases hreq : ctl req = -1
    · exact ⟨_, hw, fun _ => ⟨rfl, rfl⟩, Or.inr (by simp [World.register, hreq])⟩
    · refine ⟨(w.pool.ask (.ctl req e.slot (ctl req))).setActive e false, hw.trans
        (Within.modifyEvent (hw.owned hs) he (f := fun ev => { ev with active := false }) rfl rfl),
          fun e' => setActive_keeps _ e e' false, Or.inl ?_⟩
      rw [if_neg hreq]
      simp [World.register]
  case isFalse => exact ⟨w.pool, Within.refl c _, fun _ => ⟨rfl, rfl⟩, Or.inl rfl⟩

/-- Putting an event of the connection into epoll, unless it is in: it may fail. -/
theorem Within.eventAddUnlessActive {c : Slot} {o : Addr} {w : World} (io : Slot → ConnIo)
    (hs : OwnedBy w.pool c o) {e : EventRef} (he : e.slot = c) (event : IoEvent) (flags : UInt32)
    (ctl : EpollCtl → Int) :
    ∃ p, Within c ⟨w.pool, io⟩ ⟨p, io⟩ ∧
      (∀ e', (p.events.ev e').handler = (w.pool.events.ev e').handler ∧
        (p.events.ev e').timerSet = (w.pool.events.ev e').timerSet) ∧
      ((if (w.pool.events.ev e).active then some (.ok w)
          else w.register (eventAdd w.pool e event flags ctl)) = some (.ok { w with pool := p }) ∨
        (if (w.pool.events.ev e).active then some (.ok w)
          else w.register (eventAdd w.pool e event flags ctl)) =
          some (.error { w with pool := p })) := by
  split
  case isTrue => exact ⟨w.pool, Within.refl c _, fun _ => ⟨rfl, rfl⟩, Or.inl rfl⟩
  case isFalse =>
    obtain ⟨xs, hok⟩ := hs.ok
    obtain ⟨req, hadd⟩ := hok.eventAdd (he.symm ▸ hs.held) event flags ctl
    rw [hadd]
    have hw := Within.ask c ⟨w.pool, io⟩ (.ctl req e.slot (ctl req))
    by_cases hreq : ctl req = -1
    · exact ⟨_, hw, fun _ => ⟨rfl, rfl⟩, Or.inr (by simp [World.register, hreq])⟩
    · refine ⟨(w.pool.ask (.ctl req e.slot (ctl req))).setActive e true, hw.trans
        (Within.modifyEvent (hw.owned hs) he (f := fun ev => { ev with active := true }) rfl rfl),
          fun e' => setActive_keeps _ e e' true, Or.inl ?_⟩
      rw [if_neg hreq]
      simp [World.register]

end Crawler.Http
