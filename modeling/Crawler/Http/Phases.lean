/-
# Crawler.Http.Phases — the handlers of a connection, and what they may touch

The handlers of connection `c` change the two events of `c` and its own fields, and leave the free
list and every other connection alone (`Within`). Its life has two phases. Until the request is sent
the write event carries the timer (`Early`); from then on the read event does (`Late`). Receiving
stays in the second phase, with the write handler put aside or not.
-/
import Crawler.Http.Tls

namespace Crawler.Http

open Crawler.Lib Crawler.EventTimer Crawler.Connections

/-! ## The frame -/

/-- `s` differs from `s₀` in the events and the fields of connection `c` only, and in the calls
recorded. -/
structure Within (c : Slot) (s₀ s : Sockets) : Prop where
  frame : s.pool = { s₀.pool with events := s.pool.events, asked := s.pool.asked }
  ev : ∀ e : EventRef, e.slot ≠ c → s.pool.events.ev e = s₀.pool.events.ev e
  io : ∀ i, i ≠ c → s.io i = s₀.io i
  ok : ∀ xs, PoolOk s₀.pool xs → PoolOk s.pool xs

theorem Within.refl (c : Slot) (s : Sockets) : Within c s s :=
  ⟨rfl, fun _ _ => rfl, fun _ _ => rfl, fun _ => id⟩

theorem Within.trans {c : Slot} {s₀ s₁ s₂ : Sockets} (h : Within c s₀ s₁) (h' : Within c s₁ s₂) :
    Within c s₀ s₂ where
  frame := by rw [h'.frame, h.frame]
  ev := fun e he => (h'.ev e he).trans (h.ev e he)
  io := fun i hi => (h'.io i hi).trans (h.io i hi)
  ok := fun xs hok => h'.ok xs (h.ok xs hok)

theorem Within.connections {c : Slot} {s₀ s : Sockets} (h : Within c s₀ s) :
    s.pool.connections = s₀.pool.connections := by
  rw [h.frame]

theorem Within.held_iff {c : Slot} {s₀ s : Sockets} (h : Within c s₀ s) (i : Slot) :
    Held s.pool i ↔ Held s₀.pool i := by
  rw [h.frame]
  rfl

theorem Within.owned {c : Slot} {o : Addr} {s₀ s : Sockets} (h : Within c s₀ s)
    (h₀ : OwnedBy s₀.pool c o) : OwnedBy s.pool c o := by
  obtain ⟨xs, hok⟩ := h₀.ok
  refine ⟨⟨xs, h.ok xs hok⟩, (h.held_iff c).mpr h₀.held, ?_⟩
  rw [h.connections]
  exact h₀.owner

/-- The pointers of an owned connection to its events, and of these to it. -/
theorem OwnedBy.names {p : Pool} {c : Slot} {o : Addr} (h : OwnedBy p c o) :
    (p.connections c).read = some (.read c) ∧ (p.connections c).write = some (.write c) ∧
      (p.events.ev (.read c)).data = some c ∧ (p.events.ev (.write c)).data = some c := by
  obtain ⟨xs, hok⟩ := h.ok
  obtain ⟨hread, hwrite⟩ := hok.names c h.held.1
  exact ⟨hread, hwrite, hok.owned (.read c) h.held, hok.owned (.write c) h.held⟩

@[simp] theorem modifyEvent_ev (s : Sockets) (e e' : EventRef) (f : Event → Event) :
    (s.modifyEvent e f).pool.events.ev e' =
      if e' = e then f (s.pool.events.ev e) else s.pool.events.ev e' := by
  simp [Sockets.modifyEvent, Pool.setEvent]

@[simp] theorem modifyEvent_io (s : Sockets) (e : EventRef) (f : Event → Event) :
    (s.modifyEvent e f).io = s.io := rfl

/-- Record a call. -/
def Sockets.ask (s : Sockets) (call : KernelCall) : Sockets := { s with pool := s.pool.ask call }

@[simp] theorem modifySsl_pool (s : Sockets) (c : Slot) (f : SslConnection → SslConnection) :
    (s.modifySsl c f).pool = s.pool := rfl

@[simp] theorem modifySsl_ssl (s : Sockets) (c : Slot) (f : SslConnection → SslConnection) :
    ((s.modifySsl c f).io c).ssl = (s.io c).ssl.map f := by
  simp [Sockets.modifySsl]

section Frame

variable {c : Slot} {o : Addr} {s : Sockets} (hs : OwnedBy s.pool c o)

/-- Changing an event of `c`, its `data` and its timer left as they are. -/
theorem Within.modifyEvent (hs : OwnedBy s.pool c o) {e : EventRef} (he : e.slot = c)
    {f : Event → Event}
    (hdata : (f (s.pool.events.ev e)).data = (s.pool.events.ev e).data)
    (hset : (f (s.pool.events.ev e)).timerSet = (s.pool.events.ev e).timerSet) :
    Within c s (s.modifyEvent e f) where
  frame := rfl
  ev e' he' := by
    have hne : e' ≠ e := fun heq => he' (heq ▸ he)
    rw [modifyEvent_ev, if_neg hne]
  io _ _ := rfl
  ok _ hok := hok.setEvent hdata hset fun _ => he ▸ hs.held

theorem Within.modifySsl (c : Slot) (s : Sockets) (f : SslConnection → SslConnection) :
    Within c s (s.modifySsl c f) where
  frame := rfl
  ev _ _ := rfl
  io _ hi := Function.update_of_ne hi _ _
  ok _ := id

/-- Recording a call. -/
theorem Within.ask (c : Slot) (s : Sockets) (call : KernelCall) : Within c s (s.ask call) where
  frame := rfl
  ev _ _ := rfl
  io _ _ := rfl
  ok _ hok := hok.ask call

/-- Changing the fields of `c`. -/
theorem Within.setIo (c : Slot) (s : Sockets) (x : ConnIo) :
    Within c s { s with io := Function.update s.io c x } where
  frame := rfl
  ev _ _ := rfl
  io _ hi := Function.update_of_ne hi _ _
  ok _ := id

include hs

/-- What `watch` does: nothing, or it makes a call and may set `active`. -/
theorem watch_cases {e : EventRef} (he : e.slot = c) {event : IoEvent} {ctl : EpollCtl → Int}
    {rc : Int} {s' : Sockets} (h : s.watch e event ctl = some (rc, s')) :
    s' = s ∨ ∃ call, s' = s.ask call ∨
      s' = (s.ask call).modifyEvent e fun ev => { ev with active := true } := by
  rw [Sockets.watch] at h
  split at h
  case isTrue => exact Or.inl (congrArg Prod.snd (Option.some.inj h)).symm
  case isFalse =>
    obtain ⟨xs, hok⟩ := hs.ok
    obtain ⟨req, hadd⟩ := hok.eventAdd (he.symm ▸ hs.held) event clearEvent ctl
    rw [hadd, Option.map_some] at h
    have hs' := congrArg Prod.snd (Option.some.inj h)
    refine Or.inr ⟨.ctl req e.slot (ctl req), ?_⟩
    by_cases hreq : ctl req = -1
    · rw [if_pos hreq] at hs'
      exact Or.inl hs'.symm
    · rw [if_neg hreq] at hs'
      exact Or.inr hs'.symm

theorem Within.watch {e : EventRef} (he : e.slot = c) {event : IoEvent} {ctl : EpollCtl → Int}
    {rc : Int} {s' : Sockets} (h : s.watch e event ctl = some (rc, s')) : Within c s s' := by
  rcases watch_cases hs he h with rfl | ⟨call, rfl | rfl⟩
  · exact Within.refl c s'
  · exact Within.ask c s call
  · have hw := Within.ask c s call
    exact hw.trans (Within.modifyEvent (hw.owned hs) he rfl rfl)

end Frame

/-! ## The two phases -/

/-- No handler is put aside. -/
def NoneSaved (s : Sockets) (c : Slot) : Prop :=
  ∀ ssl, (s.io c).ssl = some ssl → ssl.savedReadHandler = none ∧ ssl.savedWriteHandler = none

/-- Before the request is sent: the read event is not waited for, or both wait for the handshake. -/
structure Early (s : Sockets) (c : Slot) : Prop where
  write : (s.pool.events.ev (.write c)).handler = some .sslHandshakeHandler ∨
    (s.pool.events.ev (.write c)).handler = some .httpWriteEventProcess
  read : (s.pool.events.ev (.read c)).active = false ∨
    (s.pool.events.ev (.read c)).handler = some .sslHandshakeHandler
  disarmed : (s.pool.events.ev (.read c)).timerSet = false
  saved : NoneSaved s c

/-- After the request is sent: the read event is armed. The write handler may be put aside. -/
structure Late (s : Sockets) (c : Slot) : Prop where
  read : (s.pool.events.ev (.read c)).handler = some .httpReadEventProcess
  armed : (s.pool.events.ev (.read c)).timerSet = true
  disarmed : (s.pool.events.ev (.write c)).timerSet = false
  write : (s.pool.events.ev (.write c)).handler = some .httpWriteEventProcess ∧ NoneSaved s c ∨
    (s.pool.events.ev (.write c)).handler = some .sslWriteHandler ∧
      ∀ ssl, (s.io c).ssl = some ssl → ssl.savedReadHandler = none ∧
        ssl.savedWriteHandler = some .httpWriteEventProcess

/-- The phase depends on the handlers, the timers, the activity of the read event, and the handlers
put aside. -/
theorem Late.congr {s s' : Sockets} {c : Slot} (h : Late s c)
    (hread : (s'.pool.events.ev (.read c)).handler = (s.pool.events.ev (.read c)).handler)
    (hwrite : (s'.pool.events.ev (.write c)).handler = (s.pool.events.ev (.write c)).handler)
    (hset : ∀ e : EventRef, (s'.pool.events.ev e).timerSet = (s.pool.events.ev e).timerSet)
    (hssl : ∀ ssl', (s'.io c).ssl = some ssl' → ∃ ssl, (s.io c).ssl = some ssl ∧
      ssl'.savedReadHandler = ssl.savedReadHandler ∧
      ssl'.savedWriteHandler = ssl.savedWriteHandler) : Late s' c where
  read := hread.trans h.read
  armed := (hset _).trans h.armed
  disarmed := (hset _).trans h.disarmed
  write := by
    rw [hwrite]
    refine h.write.imp (And.imp id fun hs ssl' hssl' => ?_) (And.imp id fun hs ssl' hssl' => ?_)
    · obtain ⟨ssl, hsome, hr, hw⟩ := hssl ssl' hssl'
      rw [hr, hw]
      exact hs ssl hsome
    · obtain ⟨ssl, hsome, hr, hw⟩ := hssl ssl' hssl'
      rw [hr, hw]
      exact hs ssl hsome

/-- Flags do not matter in the second phase. -/
theorem Late.modifyEvent {s : Sockets} {c : Slot} (h : Late s c) {e : EventRef} {f : Event → Event}
    (hhandler : (f (s.pool.events.ev e)).handler = (s.pool.events.ev e).handler)
    (hset : (f (s.pool.events.ev e)).timerSet = (s.pool.events.ev e).timerSet) :
    Late (s.modifyEvent e f) c := by
  have hsame : ∀ e' : EventRef,
      ((s.modifyEvent e f).pool.events.ev e').handler = (s.pool.events.ev e').handler ∧
        ((s.modifyEvent e f).pool.events.ev e').timerSet = (s.pool.events.ev e').timerSet := by
    intro e'
    rw [modifyEvent_ev]
    split
    case isTrue heq => rw [heq]; exact ⟨hhandler, hset⟩
    case isFalse => exact ⟨rfl, rfl⟩
  exact h.congr (hsame _).1 (hsame _).1 (fun e' => (hsame e').2) fun ssl hssl =>
    ⟨ssl, hssl, rfl, rfl⟩

/-- Nor does the last result of `ssl_handle_recv`. -/
theorem Late.setLast {s : Sockets} {c : Slot} (h : Late s c) (last : Int) :
    Late (s.modifySsl c fun ssl => { ssl with last := last }) c := by
  refine h.congr rfl rfl (fun _ => rfl) fun ssl' hssl' => ?_
  rw [modifySsl_ssl, Option.map_eq_some_iff] at hssl'
  obtain ⟨ssl, hssl, rfl⟩ := hssl'
  exact ⟨ssl, hssl, rfl, rfl⟩

/-- What receiving keeps: the connection's owner, and the second phase. -/
structure Receiving (c : Slot) (o : Addr) (s₀ s : Sockets) : Prop where
  within : Within c s₀ s
  owned : OwnedBy s.pool c o
  late : Late s c

section Receive

variable {c : Slot} {o : Addr} {s₀ s : Sockets} (h : Receiving c o s₀ s)
include h

theorem Receiving.modifyEvent {e : EventRef} (he : e.slot = c) {f : Event → Event}
    (hdata : (f (s.pool.events.ev e)).data = (s.pool.events.ev e).data)
    (hhandler : (f (s.pool.events.ev e)).handler = (s.pool.events.ev e).handler)
    (hset : (f (s.pool.events.ev e)).timerSet = (s.pool.events.ev e).timerSet) :
    Receiving c o s₀ (s.modifyEvent e f) :=
  have hw := Within.modifyEvent h.owned he hdata hset
  ⟨h.within.trans hw, hw.owned h.owned, h.late.modifyEvent hhandler hset⟩

theorem Receiving.setLast (last : Int) :
    Receiving c o s₀ (s.modifySsl c fun ssl => { ssl with last := last }) :=
  have hw := Within.modifySsl c s fun ssl => { ssl with last := last }
  ⟨h.within.trans hw, h.owned, h.late.setLast last⟩

theorem Receiving.ask (call : KernelCall) : Receiving c o s₀ (s.ask call) :=
  ⟨h.within.trans (Within.ask c s call), h.owned.ask call,
    h.late.congr rfl rfl (fun _ => rfl) fun ssl hssl => ⟨ssl, hssl, rfl, rfl⟩⟩

theorem Receiving.watch {e : EventRef} (he : e.slot = c) {event : IoEvent} {ctl : EpollCtl → Int}
    {rc : Int} {s' : Sockets} (hwatch : s.watch e event ctl = some (rc, s')) :
    Receiving c o s₀ s' ∧ s'.io = s.io := by
  rcases watch_cases h.owned he hwatch with rfl | ⟨call, rfl | rfl⟩
  · exact ⟨h, rfl⟩
  · exact ⟨h.ask call, rfl⟩
  · exact ⟨(h.ask call).modifyEvent he rfl rfl rfl, rfl⟩

/-- The write handler is put aside. -/
theorem Receiving.putAside {ssl : SslConnection} (hssl : (s.io c).ssl = some ssl)
    (hnone : ssl.savedWriteHandler = none) :
    Receiving c o s₀ ((s.modifySsl c fun ssl => { ssl with
        savedWriteHandler := (s.pool.events.ev (.write c)).handler }).modifyEvent (.write c)
      fun ev => { ev with handler := some .sslWriteHandler }) := by
  have hw₁ := Within.modifySsl c s fun ssl => { ssl with
    savedWriteHandler := (s.pool.events.ev (.write c)).handler }
  have hown₁ := hw₁.owned h.owned
  have hw₂ := Within.modifyEvent hown₁ (e := .write c) rfl
    (f := fun ev => { ev with handler := some .sslWriteHandler }) rfl rfl
  refine ⟨(h.within.trans hw₁).trans hw₂, hw₂.owned hown₁, ?_⟩
  rcases h.late.write with ⟨hwrite, hsaved⟩ | ⟨-, hsaved⟩
  · refine ⟨?_, ?_, ?_, Or.inr ⟨by simp, fun ssl' hssl' => ?_⟩⟩
    · simpa using h.late.read
    · simpa using h.late.armed
    · simpa using h.late.disarmed
    · rw [modifyEvent_io, modifySsl_ssl, hssl, Option.map_some] at hssl'
      obtain rfl := Option.some.inj hssl'
      exact ⟨(hsaved ssl hssl).1, hwrite⟩
  · rw [(hsaved ssl hssl).2] at hnone
    cases hnone

/-- The write handler is put back. -/
theorem Receiving.putBack {ssl : SslConnection} (hssl : (s.io c).ssl = some ssl) {f : EventHandler}
    (hsome : ssl.savedWriteHandler = some f) :
    Receiving c o s₀ ((s.modifyEvent (.write c) fun ev =>
        { ev with handler := some f, ready := true }).modifySsl c fun ssl =>
      { ssl with savedWriteHandler := none }) := by
  have hw₁ := Within.modifyEvent h.owned (e := .write c) rfl
    (f := fun ev => { ev with handler := some f, ready := true }) rfl rfl
  have hown₁ := hw₁.owned h.owned
  have hw₂ := Within.modifySsl c (s.modifyEvent (.write c) fun ev =>
    { ev with handler := some f, ready := true }) fun ssl => { ssl with savedWriteHandler := none }
  refine ⟨(h.within.trans hw₁).trans hw₂, hw₂.owned hown₁, ?_⟩
  rcases h.late.write with ⟨-, hsaved⟩ | ⟨-, hsaved⟩
  · rw [(hsaved ssl hssl).2] at hsome
    cases hsome
  · obtain rfl : .httpWriteEventProcess = f :=
      Option.some.inj ((hsaved ssl hssl).2.symm.trans hsome)
    refine ⟨?_, ?_, ?_, Or.inl ⟨by simp, fun ssl' hssl' => ?_⟩⟩
    · simpa using h.late.read
    · simpa using h.late.armed
    · simpa using h.late.disarmed
    · rw [modifySsl_ssl, modifyEvent_io, hssl, Option.map_some] at hssl'
      obtain rfl := Option.some.inj hssl'
      exact ⟨(hsaved ssl hssl).1, rfl⟩

/-! ## Receiving -/

theorem Receiving.sslHandleRecv {ssl : SslConnection} (hssl : (s.io c).ssl = some ssl) {n : Nat}
    {r : SslRead} {ctl : EpollCtl → Int} {last : Int} {s' : Sockets}
    (hr : sslHandleRecv s c ssl n r ctl = some (last, s')) : Receiving c o s₀ s' := by
  obtain ⟨hread, hwrite, -, -⟩ := h.owned.names
  simp only [Http.sslHandleRecv, hread, hwrite, Option.bind_eq_bind, Option.bind_some,
    Option.pure_def] at hr
  by_cases hn : 0 < n
  · rw [if_pos hn] at hr
    cases hsaved : ssl.savedWriteHandler with
    | none =>
        simp only [hsaved] at hr
        cases hr
        exact h
    | some f =>
        simp only [hsaved] at hr
        cases hr
        exact h.putBack hssl hsaved
  · rw [if_neg hn] at hr
    cases herr : r.err with
    | wantRead =>
        simp only [herr] at hr
        cases hr
        exact h.modifyEvent rfl rfl rfl rfl
    | wantWrite =>
        simp only [herr] at hr
        have h₁ := h.modifyEvent (e := .write c) (f := fun ev => { ev with ready := false })
          rfl rfl rfl rfl
        cases hwatch : (s.modifyEvent (.write c) fun ev => { ev with ready := false }).watch
            (.write c) .write ctl with
        | none =>
            rw [hwatch] at hr
            cases hr
        | some p =>
            obtain ⟨rc, s₂⟩ := p
            obtain ⟨h₂, hio⟩ := h₁.watch rfl hwatch
            simp only [hwatch, Option.bind_some] at hr
            by_cases hrc : rc < 0
            · rw [if_pos hrc] at hr
              cases hr
              exact h₂
            · rw [if_neg hrc] at hr
              by_cases hnone : ssl.savedWriteHandler = none
              · rw [if_pos hnone] at hr
                cases hr
                have hssl₂ : (s₂.io c).ssl = some ssl := by rw [hio]; exact hssl
                exact h₂.putAside hssl₂ hnone
              · rw [if_neg hnone] at hr
                cases hr
                exact h₂
    | zeroReturn =>
        simp only [herr] at hr
        cases hr
        exact h
    | other =>
        simp only [herr] at hr
        cases hr
        exact h

end Receive

/-- By induction on the calls of `SSL_read`. -/
theorem Receiving.sslReadLoop {c : Slot} {o : Addr} {s₀ s s' : Sockets} (h : Receiving c o s₀ s)
    {ctl : EpollCtl → Int} {reads : List SslRead} {size : Nat} {got bytes : List UInt8} {n : Int}
    (hr : sslReadLoop c ctl reads size got s = some (n, bytes, s')) : Receiving c o s₀ s' := by
  induction reads generalizing s size got with
  | nil => cases hr
  | cons r reads ih =>
      obtain ⟨hread, -, -, -⟩ := h.owned.names
      cases hssl : (s.io c).ssl with
      | none => simp [Http.sslReadLoop, hread, hssl] at hr
      | some ssl =>
          simp only [Http.sslReadLoop, hread, hssl, Option.bind_eq_bind, Option.bind_some,
            Option.pure_def] at hr
          cases hrecv : Http.sslHandleRecv s c ssl (r.bytes.take size).length r ctl with
          | none =>
              rw [hrecv] at hr
              cases hr
          | some p =>
              obtain ⟨last, s₁⟩ := p
              have h₁ := (h.sslHandleRecv hssl hrecv).setLast last
              simp only [hrecv, Option.bind_some] at hr
              split_ifs at hr
              · cases hr
                exact h₁.modifyEvent rfl rfl rfl rfl
              · exact ih h₁ hr
              · cases hr
                exact h₁.modifyEvent rfl rfl rfl rfl
              · cases hr
                exact h₁
              · cases hr
                exact h₁.modifyEvent rfl rfl rfl rfl
              · cases hr
                exact h₁.modifyEvent rfl rfl rfl rfl
              · cases hr
                exact h₁

theorem Receiving.sslRecv {c : Slot} {o : Addr} {s₀ s s' : Sockets} (h : Receiving c o s₀ s)
    {ctl : EpollCtl → Int} {reads : List SslRead} {size : Nat} {bytes : List UInt8} {n : Int}
    (hr : sslRecv s c size reads ctl = some (n, bytes, s')) : Receiving c o s₀ s' := by
  obtain ⟨hread, -, -, -⟩ := h.owned.names
  cases hssl : (s.io c).ssl with
  | none => simp [Http.sslRecv, hread, hssl] at hr
  | some ssl =>
      simp only [Http.sslRecv, hread, hssl, Option.bind_eq_bind, Option.bind_some,
        Option.pure_def] at hr
      split_ifs at hr
      · cases hr
        exact h.modifyEvent rfl rfl rfl rfl
      · cases hr
        exact h.modifyEvent rfl rfl rfl rfl
      · exact h.sslReadLoop hr

/-- `unix_recv` changes flags of the read event only. -/
theorem unixRecv_keeps {size : Nat} {ev ev' : Event} {sys : List SysRecv} {n : Int}
    {bytes : List UInt8} (h : unixRecv size ev sys = some (n, bytes, ev')) :
    ev'.data = ev.data ∧ ev'.handler = ev.handler ∧ ev'.timerSet = ev.timerSet := by
  induction sys with
  | nil => cases h
  | cons r sys ih =>
      cases r with
      | bytes bs =>
          simp only [unixRecv] at h
          split at h
          · cases h
            exact ⟨rfl, rfl, rfl⟩
          · cases h
            exact ⟨rfl, rfl, rfl⟩
      | again =>
          cases h
          exact ⟨rfl, rfl, rfl⟩
      | intr => exact ih h
      | error =>
          cases h
          exact ⟨rfl, rfl, rfl⟩

/-- However `c->recv` goes, the connection stays in its second phase. -/
theorem Receiving.recv {c : Slot} {o : Addr} {s₀ s s' : Sockets} (h : Receiving c o s₀ s)
    {size : Nat} {turn : RecvTurn} {ctl : EpollCtl → Int} {n : Int} {bytes : List UInt8}
    (hr : s.recv c size turn ctl = some (n, bytes, s')) : Receiving c o s₀ s' := by
  obtain ⟨hread, -, -, -⟩ := h.owned.names
  rw [Sockets.recv] at hr
  cases hio : (s.io c).recv with
  | none =>
      rw [hio] at hr
      cases hr
  | some io =>
      cases io with
      | unix =>
          simp only [hio, hread, Option.bind_eq_bind, Option.bind_some, Option.pure_def] at hr
          cases hunix : unixRecv size (s.pool.events.ev (.read c)) turn.sys with
          | none =>
              rw [hunix] at hr
              cases hr
          | some p =>
              obtain ⟨m, bs, ev⟩ := p
              obtain ⟨hdata, hhandler, hset⟩ := unixRecv_keeps hunix
              simp only [hunix, Option.bind_some] at hr
              cases hr
              exact h.modifyEvent rfl hdata hhandler hset
      | ssl =>
          simp only [hio] at hr
          exact h.sslRecv hr

/-! ## Sending -/

/-- Neither the handlers nor the timers nor the activity of the events have changed, nor the fields of
the connections. -/
structure Unmoved (s s' : Sockets) : Prop where
  io : s'.io = s.io
  handler : ∀ e, (s'.pool.events.ev e).handler = (s.pool.events.ev e).handler
  timerSet : ∀ e, (s'.pool.events.ev e).timerSet = (s.pool.events.ev e).timerSet
  active : ∀ e, (s'.pool.events.ev e).active = (s.pool.events.ev e).active

theorem Unmoved.refl (s : Sockets) : Unmoved s s := ⟨rfl, fun _ => rfl, fun _ => rfl, fun _ => rfl⟩

/-- The flags of an event may change. -/
theorem Unmoved.modifyEvent {s : Sockets} {e : EventRef} {f : Event → Event}
    (hhandler : (f (s.pool.events.ev e)).handler = (s.pool.events.ev e).handler)
    (hset : (f (s.pool.events.ev e)).timerSet = (s.pool.events.ev e).timerSet)
    (hactive : (f (s.pool.events.ev e)).active = (s.pool.events.ev e).active) :
    Unmoved s (s.modifyEvent e f) := by
  refine ⟨rfl, fun x => ?_, fun x => ?_, fun x => ?_⟩
  all_goals
    rw [modifyEvent_ev]
    split
    case isTrue heq => rw [heq]; assumption
    case isFalse => rfl

/-- `SSL_write` that waits for the peer: the read handler is put aside, unless `event_add` fails. -/
theorem putAside_cases {c : Slot} {o : Addr} {s s' : Sockets} (hs : OwnedBy s.pool c o)
    {ctl : EpollCtl → Int} {n rc : Int} {s₂ : Sockets}
    (hwatch : (s.modifyEvent (.read c) fun ev => { ev with ready := false }).watch (.read c) .read
      ctl = some (rc, s₂))
    (hr : (if rc < 0 then some (-1, s₂) else
      some (-eagain, (s₂.modifySsl c fun ssl => { ssl with
        savedReadHandler := (s₂.pool.events.ev (.read c)).handler }).modifyEvent (.read c) fun ev =>
          { ev with handler := some .sslReadHandler })) = some (n, s')) :
    Within c s s' ∧ (n = -1 ∨ n = -eagain) := by
  have hw₁ := Within.modifyEvent hs (e := .read c)
    (f := fun ev => { ev with ready := false }) rfl rfl rfl
  have hw₂ := hw₁.trans (Within.watch (hw₁.owned hs) rfl hwatch)
  by_cases hrc : rc < 0
  · rw [if_pos hrc] at hr
    cases hr
    exact ⟨hw₂, Or.inl rfl⟩
  · rw [if_neg hrc] at hr
    cases hr
    have hw₃ := hw₂.trans (Within.modifySsl c s₂ fun ssl => { ssl with
      savedReadHandler := (s₂.pool.events.ev (.read c)).handler })
    have hw₄ := Within.modifyEvent (hw₃.owned hs) (e := .read c)
      (f := fun ev => { ev with handler := some .sslReadHandler }) rfl rfl rfl
    exact ⟨hw₃.trans hw₄, Or.inr rfl⟩

/-- `ssl_send` of a connection with no handler put aside. -/
theorem sslSend_cases {c : Slot} {o : Addr} {s s' : Sockets} (hs : OwnedBy s.pool c o)
    (hsaved : NoneSaved s c) {r : SslWrite} {ctl : EpollCtl → Int} {n : Int}
    (hr : sslSend s c r ctl = some (n, s')) :
    Within c s s' ∧ (n = -1 ∨ n = -eagain ∨ Unmoved s s') := by
  obtain ⟨hread, hwrite, -, -⟩ := hs.names
  cases hssl : (s.io c).ssl with
  | none => simp [sslSend, hread, hwrite, hssl] at hr
  | some ssl =>
      obtain ⟨hnone, -⟩ := hsaved ssl hssl
      simp only [sslSend, hread, hwrite, hssl, hnone, Option.bind_eq_bind,
        Option.bind_some, Option.pure_def] at hr
      by_cases hn : 0 < r.n
      · rw [if_pos hn] at hr
        cases hr
        exact ⟨Within.refl c s, Or.inr (Or.inr (Unmoved.refl s))⟩
      · rw [if_neg hn] at hr
        cases herr : r.err with
        | wantWrite =>
            simp only [herr] at hr
            cases hr
            exact ⟨Within.modifyEvent hs rfl rfl rfl, Or.inr (Or.inl rfl)⟩
        | wantRead =>
            simp only [herr] at hr
            cases hwatch : (s.modifyEvent (.read c) fun ev =>
                { ev with ready := false }).watch (.read c) .read ctl with
            | none =>
                rw [hwatch] at hr
                cases hr
            | some p =>
                simp only [hwatch, Option.bind_some] at hr
                obtain ⟨hw, hn⟩ := putAside_cases hs hwatch hr
                exact ⟨hw, hn.imp_right Or.inl⟩
        | zeroReturn =>
            simp only [herr] at hr
            cases hr
            exact ⟨Within.modifyEvent hs rfl rfl rfl, Or.inl rfl⟩
        | other =>
            simp only [herr] at hr
            cases hr
            exact ⟨Within.modifyEvent hs rfl rfl rfl, Or.inl rfl⟩

/-- `c->send` of a connection with no handler put aside: something is sent and no handler or timer
changes, or nothing is sent. -/
theorem send_cases {c : Slot} {o : Addr} {s s' : Sockets} (hs : OwnedBy s.pool c o)
    (hsaved : NoneSaved s c) {size : Nat} {sys : List SysSend} {r : SslWrite}
    {ctl : EpollCtl → Int} {n : Int} (hr : s.send c size sys r ctl = some (n, s')) :
    Within c s s' ∧ (n = -1 ∨ n = -eagain ∨ Unmoved s s') := by
  obtain ⟨-, hwrite, -, -⟩ := hs.names
  rw [Sockets.send] at hr
  cases hio : (s.io c).send with
  | none =>
      rw [hio] at hr
      cases hr
  | some io =>
      cases io with
      | unix =>
          simp only [hio, hwrite, Option.bind_eq_bind, Option.bind_some, Option.pure_def] at hr
          cases hunix : unixSend size ⟨0, (s.pool.events.ev (.write c)).ready,
              (s.pool.events.ev (.write c)).error⟩ sys with
          | none =>
              rw [hunix] at hr
              cases hr
          | some res =>
              simp only [hunix, Option.bind_some] at hr
              cases hr
              exact ⟨Within.modifyEvent hs rfl rfl rfl,
                Or.inr (Or.inr (Unmoved.modifyEvent rfl rfl rfl))⟩
      | ssl =>
          simp only [hio] at hr
          exact sslSend_cases hs hsaved hr

end Crawler.Http
