/-
# Crawler.Http.Interest — what the handlers ask of epoll

Every handler is followed through the pool: each `epoll_ctl` that it makes is one that the interest list
allows (`Tracks`), because `event_add` is reached with the event not active and `event_del` with it
active, whatever the library calls return on the way.
-/
import Crawler.Connections.Epoll
import Crawler.Http.RecvLog

namespace Crawler.Http

open Crawler.Lib Crawler.EventTimer Crawler.Connections

/-! ## One connection -/

/-- Connection `c` is client `o`'s, and the calls recorded since `p₀` are such as the list allows. -/
structure Tracks (c : Slot) (o : Addr) (p₀ p : Pool) : Prop where
  owned : OwnedBy p c o
  traced : Traced p₀ p

theorem Tracks.refl {c : Slot} {o : Addr} {p : Pool} (h : OwnedBy p c o) : Tracks c o p p :=
  ⟨h, .refl p⟩

/-- A timer operation makes no call. -/
theorem withTimers_asked {p p' : Pool} {op : Timers EventRef → Option (Timers EventRef)}
    (h : p.withTimers op = some p') : p'.asked = p.asked := by
  obtain ⟨t, -, rfl⟩ := Option.map_eq_some_iff.mp h
  rfl

theorem Within.quiet {c : Slot} {s s' : Sockets} (h : Within c s s')
    (hactive : ∀ e : EventRef, e.slot = c →
      (s'.pool.events.ev e).active = (s.pool.events.ev e).active)
    (hasked : s'.pool.asked = s.pool.asked) : Quiet s.pool s'.pool where
  n := h.awayFrom.n
  fd i := by rw [h.connections]
  active e := by
    by_cases he : e.slot = c
    · exact hactive e he
    · rw [h.ev e he]
  ok := h.ok
  asked := hasked

section Steps

variable {c : Slot} {o : Addr} {p₀ : Pool} {s : Sockets} (h : Tracks c o p₀ s.pool)

include h

/-- Nothing that epoll knows of has changed. -/
theorem Tracks.within {s' : Sockets} (hw : Within c s s')
    (hactive : ∀ e : EventRef, e.slot = c →
      (s'.pool.events.ev e).active = (s.pool.events.ev e).active)
    (hasked : s'.pool.asked = s.pool.asked) : Tracks c o p₀ s'.pool :=
  ⟨hw.owned h.owned, h.traced.trans (.quiet (hw.quiet hactive hasked))⟩

theorem Tracks.modifyEvent {e : EventRef} (he : e.slot = c) {f : Event → Event}
    (hdata : (f (s.pool.events.ev e)).data = (s.pool.events.ev e).data)
    (hset : (f (s.pool.events.ev e)).timerSet = (s.pool.events.ev e).timerSet)
    (hactive : (f (s.pool.events.ev e)).active = (s.pool.events.ev e).active) :
    Tracks c o p₀ (s.modifyEvent e f).pool := by
  refine h.within (.modifyEvent h.owned he hdata hset) (fun e' _ => ?_) rfl
  rw [modifyEvent_ev]
  split
  case isTrue heq => rw [heq]; exact hactive
  case isFalse => rfl

theorem Tracks.addTimer {e : EventRef} (he : e.slot = c) {now timer : UInt32} {p : Pool}
    (hadd : s.pool.withTimers (eventAddTimer now · e timer) = some p) : Tracks c o p₀ p := by
  obtain ⟨p', hp', hw, -, -, hact, hother⟩ := Within.addTimer h.owned he now timer
  obtain rfl := Option.some.inj (hp'.symm.trans hadd)
  refine Tracks.within h hw (fun e' _ => ?_) (withTimers_asked hadd)
  by_cases hee : e' = e
  · rw [hee]
    exact hact
  · exact congrArg Event.active (hother e' hee)

theorem Tracks.delTimer {e : EventRef} (he : e.slot = c) {p : Pool}
    (hdel : s.pool.withTimers (eventDelTimer · e) = some p) : Tracks c o p₀ p := by
  obtain ⟨t, ht, rfl⟩ := Option.map_eq_some_iff.mp hdel
  have hmem : e ∈ s.pool.events.rbtree := by
    by_contra hnot
    simp [eventDelTimer, rbtreeDelete, hnot] at ht
  obtain ⟨t', ht', hc, haff⟩ := h.owned.consistent.eventDelTimer hmem
  obtain rfl := Option.some.inj (ht'.symm.trans ht)
  have hw : Within c s { s with pool := { s.pool with events := t' } } :=
    ⟨rfl, fun e' he' => haff.other_ev e' fun heq => he' (heq ▸ he), fun _ _ => rfl,
      fun xs hok => hok.affects hc haff fun hf => hf.elim⟩
  refine Tracks.within h hw (fun e' _ => ?_) rfl
  by_cases hee : e' = e
  · rw [hee]
    exact haff.active
  · exact congrArg Event.active (haff.other_ev e' hee)

/-- `event_add` of an event that is not active. -/
theorem Tracks.eventAdd {e : EventRef} (he : e.slot = c) (hoff : ¬ (s.pool.events.ev e).active = true)
    {ctl : EpollCtl → Int} {rc : Int} {p : Pool}
    (hadd : eventAdd s.pool e e.half clearEvent ctl = some (rc, p)) : Tracks c o p₀ p := by
  have hwatch : s.watch e e.half ctl = some (rc, { s with pool := p }) := by
    rw [Sockets.watch, if_neg hoff, hadd]
    rfl
  obtain ⟨xs, hok⟩ := h.owned.ok
  exact ⟨(Within.watch h.owned he hwatch).owned h.owned, h.traced.trans
    (.eventAdd hok (he.symm ▸ h.owned.held) (Bool.eq_false_iff.mpr hoff) hadd)⟩

/-- `event_del` of the write event, which is active. -/
theorem Tracks.eventDel (hon : (s.pool.events.ev (.write c)).active = true) {ctl : EpollCtl → Int}
    {rc : Int} {p : Pool} (hdel : eventDel s.pool (.write c) .write 0 ctl = some (rc, p)) :
    Tracks c o p₀ p := by
  obtain ⟨xs, hok⟩ := h.owned.ok
  refine ⟨?_, h.traced.trans (.eventDel hok h.owned.held hon hdel)⟩
  obtain ⟨req, hdel'⟩ := hok.eventDel (e := .write c) h.owned.held .write 0 ctl
  rw [hdel', if_neg (by decide)] at hdel
  have hask := h.owned.ask (.ctl req c (ctl req))
  split at hdel
  · obtain rfl := (Prod.mk.inj (Option.some.inj hdel)).2
    exact hask
  · obtain rfl := (Prod.mk.inj (Option.some.inj hdel)).2
    exact hask.setEvent rfl rfl rfl

/-- `event_add`, unless the event is active. -/
theorem Tracks.watch {e : EventRef} (he : e.slot = c) {ctl : EpollCtl → Int} {rc : Int} {s' : Sockets}
    (hwatch : s.watch e e.half ctl = some (rc, s')) : Tracks c o p₀ s'.pool := by
  rw [Sockets.watch] at hwatch
  split at hwatch
  case isTrue =>
    obtain rfl := (Prod.mk.inj (Option.some.inj hwatch)).2
    exact h
  case isFalse hoff =>
    obtain ⟨⟨rc', p⟩, hadd, heq⟩ := Option.map_eq_some_iff.mp hwatch
    obtain rfl := (Prod.mk.inj heq).2
    exact h.eventAdd he hoff hadd

/-! ## Receiving and sending -/

theorem Tracks.sslHandleRecv {ssl : SslConnection} {n : Nat} {r : SslRead} {ctl : EpollCtl → Int}
    {last : Int} {s' : Sockets} (hr : sslHandleRecv s c ssl n r ctl = some (last, s')) :
    Tracks c o p₀ s'.pool := by
  obtain ⟨hread, hwrite, -, -⟩ := h.owned.names
  simp only [Http.sslHandleRecv, hread, hwrite, Option.bind_eq_bind, Option.bind_some,
    Option.pure_def] at hr
  split at hr
  case isTrue =>
    split at hr
    case h_1 f _ =>
      cases hr
      exact h.modifyEvent (e := .write c)
        (f := fun ev => { ev with handler := some f, ready := true }) rfl rfl rfl rfl
    case h_2 =>
      cases hr
      exact h
  case isFalse =>
    split at hr
    · cases hr
      exact h.modifyEvent (e := .read c) rfl rfl rfl rfl
    · -- SSL_ERROR_WANT_WRITE
      have h₁ := h.modifyEvent (e := .write c) (f := fun ev => { ev with ready := false }) rfl rfl
        rfl rfl
      obtain ⟨⟨rc, s₂⟩, hwatch, hr⟩ := Option.bind_eq_some_iff.mp hr
      have h₂ := h₁.watch (e := .write c) rfl hwatch
      simp only at hr
      split_ifs at hr <;> cases hr
      · exact h₂
      · exact Tracks.modifyEvent (s := s₂.modifySsl c _) h₂ (e := .write c)
          (f := fun ev => { ev with handler := some .sslWriteHandler }) rfl rfl rfl rfl
      · exact h₂
    · cases hr
      exact h

end Steps

/-- By induction on the calls of `SSL_read`. -/
theorem Tracks.sslReadLoop {c : Slot} {o : Addr} {p₀ : Pool} {s s' : Sockets}
    (h : Tracks c o p₀ s.pool) {ctl : EpollCtl → Int} {reads : List SslRead} {size : Nat}
    {got bytes : List UInt8} {n : Int}
    (hr : sslReadLoop c ctl reads size got s = some (n, bytes, s')) : Tracks c o p₀ s'.pool := by
  induction reads generalizing s size got with
  | nil => cases hr
  | cons r reads ih =>
      rw [Http.sslReadLoop] at hr
      simp only [h.owned.names.1, Option.bind_eq_bind, Option.bind_some, Option.pure_def] at hr
      obtain ⟨ssl, -, hr⟩ := Option.bind_eq_some_iff.mp hr
      obtain ⟨⟨last, s₁⟩, hone, hr⟩ := Option.bind_eq_some_iff.mp hr
      have hs₁ : Tracks c o p₀ s₁.pool := h.sslHandleRecv hone
      have h₁ : Tracks c o p₀ (s₁.modifySsl c fun ssl => { ssl with last := last }).pool := hs₁
      simp only at hr
      split_ifs at hr
      · cases hr
        exact h₁.modifyEvent (e := .read c) rfl rfl rfl rfl
      · exact ih h₁ hr
      · cases hr
        exact h₁.modifyEvent (e := .read c) rfl rfl rfl rfl
      · cases hr
        exact h₁
      · cases hr
        exact h₁.modifyEvent (e := .read c) rfl rfl rfl rfl
      · cases hr
        exact h₁.modifyEvent (e := .read c) rfl rfl rfl rfl
      · cases hr
        exact h₁

/-- `unix_recv` does not touch the registration. -/
theorem unixRecv_active {size : Nat} {ev ev' : Event} {sys : List SysRecv} {n : Int}
    {bytes : List UInt8} (h : unixRecv size ev sys = some (n, bytes, ev')) :
    ev'.active = ev.active := by
  induction sys with
  | nil => cases h
  | cons r sys ih =>
      cases r with
      | bytes bs =>
          simp only [unixRecv] at h
          split at h <;> cases h <;> rfl
      | again => cases h; rfl
      | intr => exact ih h
      | error => cases h; rfl

section Io

variable {c : Slot} {o : Addr} {p₀ : Pool} {s s' : Sockets} (h : Tracks c o p₀ s.pool)

include h

theorem Tracks.sslRecv {size : Nat} {reads : List SslRead} {ctl : EpollCtl → Int} {n : Int}
    {bytes : List UInt8} (hr : sslRecv s c size reads ctl = some (n, bytes, s')) :
    Tracks c o p₀ s'.pool := by
  rw [Http.sslRecv] at hr
  simp only [h.owned.names.1, Option.bind_eq_bind, Option.bind_some, Option.pure_def] at hr
  obtain ⟨ssl, -, hr⟩ := Option.bind_eq_some_iff.mp hr
  split_ifs at hr
  · cases hr
    exact h.modifyEvent (e := .read c) rfl rfl rfl rfl
  · cases hr
    exact h.modifyEvent (e := .read c) rfl rfl rfl rfl
  · exact h.sslReadLoop hr

theorem Tracks.recv {size : Nat} {turn : RecvTurn} {ctl : EpollCtl → Int} {n : Int}
    {bytes : List UInt8} (hr : s.recv c size turn ctl = some (n, bytes, s')) :
    Tracks c o p₀ s'.pool := by
  rw [Sockets.recv] at hr
  split at hr
  · cases hr
  · simp only [h.owned.names.1, Option.bind_eq_bind, Option.bind_some, Option.pure_def] at hr
    obtain ⟨⟨n', bytes', ev⟩, hunix, hr⟩ := Option.bind_eq_some_iff.mp hr
    cases hr
    obtain ⟨hdata, -, hset⟩ := unixRecv_keeps hunix
    exact h.modifyEvent (e := .read c) rfl hdata hset (unixRecv_active hunix)
  · exact h.sslRecv hr

theorem Tracks.sslSend {r : SslWrite} {ctl : EpollCtl → Int} {n : Int}
    (hr : sslSend s c r ctl = some (n, s')) : Tracks c o p₀ s'.pool := by
  obtain ⟨hread, hwrite, -, -⟩ := h.owned.names
  simp only [Http.sslSend, hread, hwrite, Option.bind_eq_bind, Option.bind_some,
    Option.pure_def] at hr
  obtain ⟨ssl, -, hr⟩ := Option.bind_eq_some_iff.mp hr
  split at hr
  case isTrue =>
    split at hr
    case h_1 f _ =>
      cases hr
      exact h.modifyEvent (e := .read c)
        (f := fun ev => { ev with handler := some f, ready := true }) rfl rfl rfl rfl
    case h_2 =>
      cases hr
      exact h
  case isFalse =>
    split at hr
    · cases hr
      exact h.modifyEvent (e := .write c) rfl rfl rfl rfl
    · -- SSL_ERROR_WANT_READ
      have h₁ := h.modifyEvent (e := .read c) (f := fun ev => { ev with ready := false }) rfl rfl rfl
        rfl
      obtain ⟨⟨rc, s₂⟩, hwatch, hr⟩ := Option.bind_eq_some_iff.mp hr
      have h₂ := h₁.watch (e := .read c) rfl hwatch
      simp only at hr
      split_ifs at hr <;> cases hr
      · exact h₂
      · exact Tracks.modifyEvent (s := s₂.modifySsl c _) h₂ (e := .read c)
          (f := fun ev => { ev with handler := some .sslReadHandler }) rfl rfl rfl rfl
      · exact h₂
    · cases hr
      exact h.modifyEvent (e := .write c) rfl rfl rfl rfl

theorem Tracks.send {size : Nat} {sys : List SysSend} {r : SslWrite} {ctl : EpollCtl → Int} {n : Int}
    (hr : s.send c size sys r ctl = some (n, s')) : Tracks c o p₀ s'.pool := by
  rw [Sockets.send] at hr
  split at hr
  · cases hr
  · simp only [h.owned.names.2.1, Option.bind_eq_bind, Option.bind_some, Option.pure_def] at hr
    obtain ⟨res, -, hr⟩ := Option.bind_eq_some_iff.mp hr
    cases hr
    exact h.modifyEvent (e := .write c) rfl rfl rfl rfl
  · exact h.sslSend hr

/-! ## The handshake -/

theorem Tracks.sslCreate {env : Env} {rc : Int} (hr : sslCreate s c env = some (rc, s')) :
    Tracks c o p₀ s'.pool := by
  obtain ⟨hread, hwrite, -, -⟩ := h.owned.names
  simp only [Http.sslCreate, hread, hwrite, Option.bind_eq_bind, Option.bind_some,
    Option.pure_def] at hr
  split at hr
  · cases hr
    exact h
  · have h₁ := h.modifyEvent (e := .read c)
      (f := fun ev => { ev with handler := some .sslHandshakeHandler }) rfl rfl rfl rfl
    have h₂ := h₁.modifyEvent (e := .write c)
      (f := fun ev => { ev with handler := some .sslHandshakeHandler }) rfl rfl rfl rfl
    obtain ⟨⟨rc₃, s₃⟩, hwatch₃, hr⟩ := Option.bind_eq_some_iff.mp hr
    have h₃ := h₂.watch (e := .write c) rfl hwatch₃
    simp only at hr
    split at hr
    · cases hr
      exact h₃
    · obtain ⟨⟨rc₄, s₄⟩, hwatch₄, hr⟩ := Option.bind_eq_some_iff.mp hr
      have h₄ := h₃.watch (e := .read c) rfl hwatch₄
      simp only at hr
      split at hr <;> cases hr
      · exact h₄
      · exact h₄

theorem Tracks.sslConnect {env : Env} {rc : Int} (hr : sslConnect s c env = (rc, s')) :
    Tracks c o p₀ s'.pool := by
  unfold Http.sslConnect at hr
  split at hr <;> cases hr
  · exact h
  · exact h
  · exact h
  · exact h

theorem Tracks.httpSslHandshake {env : Env} {rc : Int}
    (hr : httpSslHandshake s c env = some (rc, s')) : Tracks c o p₀ s'.pool := by
  rw [Http.httpSslHandshake] at hr
  split at hr
  · obtain ⟨⟨rc₁, s₁⟩, hcreate, hr⟩ := Option.bind_eq_some_iff.mp hr
    have h₁ := h.sslCreate hcreate
    simp only [Option.pure_def] at hr
    split at hr
    · cases hr
      exact h₁
    · exact h₁.sslConnect (Option.some.inj hr)
  · exact h.sslConnect (Option.some.inj hr)

end Io

/-! ## The handlers -/

section Parts

variable {c : Slot} {o : Addr} {p₀ : Pool}

theorem Tracks.register {w : World} {r : Option (Int × Pool)}
    (hr : ∀ rc p, r = some (rc, p) → Tracks c o p₀ p) :
    Outcomes (fun w' => Tracks c o p₀ w'.pool) (w.register r) := by
  cases r with
  | none => exact .none
  | some r =>
      obtain ⟨rc, p⟩ := r
      have hp := hr rc p rfl
      rw [World.register, Option.map_some]
      simp only
      split
      · exact .error hp
      · exact .ok hp

theorem Tracks.withTimers {w : World} {op : Timers EventRef → Option (Timers EventRef)}
    (hop : ∀ p, w.pool.withTimers op = some p → Tracks c o p₀ p) :
    Outcomes (fun w' => Tracks c o p₀ w'.pool) (w.withTimers op) := by
  rw [World.withTimers]
  cases hp : w.pool.withTimers op with
  | none => exact .none
  | some p => exact .ok (hop p hp)

/-- The end of the transmission: the write event is taken out where it is in, and the read event is put
in where it is not. -/
theorem Tracks.transEnd {w : World} (h : Tracks c o p₀ w.pool) (env : WriteEnv) :
    Outcomes (fun w' => Tracks c o p₀ w'.pool) (transEnd w c (.write c) o env) := by
  rw [Http.transEnd]
  split
  · exact .none
  · split
    case isFalse => exact .error h
    case isTrue =>
      refine .andThen ?_ fun w₁ h₁ => .andThen ?_ fun w₂ h₂ => ?_
      · split
        · exact .withTimers fun p hp => Tracks.delTimer (s := ⟨w.pool, fun _ => {}⟩) h rfl hp
        · exact .ok h
      · split
        case isTrue hon =>
          exact .register fun rc p hp => Tracks.eventDel (s := ⟨w₁.pool, fun _ => {}⟩) h₁ hon hp
        case isFalse => exact .ok h₁
      · rw [h₂.owned.names.1]
        have h₃ : Tracks c o p₀ (w₂.pool.setEvent (.read c)
            { w₂.pool.events.ev (.read c) with handler := some .httpReadEventProcess }) :=
          Tracks.modifyEvent (s := ⟨w₂.pool, fun _ => {}⟩) h₂ (e := .read c)
            (f := fun ev => { ev with handler := some .httpReadEventProcess }) rfl rfl rfl rfl
        refine .andThen ?_ fun w₄ h₄ => .andThen (.withTimers fun p hp => ?_) fun w₅ h₅ => .ok h₅
        · split
          case isTrue => exact .ok h₃
          case isFalse hoff =>
            exact .register fun rc p hp =>
              Tracks.eventAdd (s := ⟨_, fun _ => {}⟩) h₃ (e := .read c) rfl hoff hp
        · exact Tracks.addTimer (s := ⟨w₄.pool, fun _ => {}⟩) h₄ rfl hp

end Parts

/-- A handler of client `o`, whose connection is `c`, has come from `s₀` to `s`. -/
structure Tends (c : Slot) (o : Addr) (s₀ s : EventLoop) : Prop where
  tracks : Tracks c o s₀.pool s.pool
  link : s.link = s₀.link

section Tend

variable {c : Slot} {o : Addr} {s₀ s : EventLoop}

theorem Tends.refl (h : OwnedBy s.pool c o) : Tends c o s s := ⟨.refl h, rfl⟩

variable (h : Tends c o s₀ s)

include h

theorem Tends.withSockets {k : Sockets} (hk : Tracks c o s₀.pool k.pool) :
    Tends c o s₀ (s.withSockets k) := ⟨hk, h.link⟩

theorem Tends.modify (f : HttpClient → HttpClient) : Tends c o s₀ (s.modify o f) :=
  ⟨h.tracks, h.link⟩

theorem Tends.timer {s' : EventLoop} {e : EventRef} (he : e.slot = c) {now timer : UInt32}
    (hadd : s.timer (eventAddTimer now · e timer) = some s') : Tends c o s₀ s' := by
  obtain ⟨p, hp, rfl⟩ := Option.map_eq_some_iff.mp hadd
  exact ⟨Tracks.addTimer (s := s.sockets) h.tracks he hp, h.link⟩

/-- Calling the client's handler closes the connection. -/
theorem Tends.callHandler (client : HttpClient) (hlink : (s₀.link o).connection = some c) :
    Traced s₀.pool (s.callHandler o client).pool := by
  have hpool : (s.toWorld.callHandler o client).pool = s.pool := by
    rw [World.callHandler]
    split <;> rfl
  have hretrieve : ∀ s₁ : EventLoop, s₁.pool = s.pool → s₁.link = s.link →
      Traced s₀.pool (httpClientRetrieve s₁ o).pool := by
    intro s₁ hp₁ hl₁
    have hstay : Traced s₀.pool s₁.pool := hp₁ ▸ h.tracks.traced
    have hc : Held s₁.pool c := hp₁ ▸ h.tracks.owned.held
    rw [httpClientRetrieve]
    simp only [hl₁, h.link, hlink]
    split
    · exact hstay
    · split
      · exact hstay
      case h_2 p hclose => exact hstay.trans (.closeConnection hc hclose)
  rw [EventLoop.callHandler]
  simp only
  split
  · rw [parseHtml]
    split
    · exact hretrieve _ hpool rfl
    · exact hretrieve _ hpool rfl
  · rw [hpool]
    exact h.tracks.traced

theorem Tends.sendReq (b : HttpBuf) (env : Env) :
    Outcomes (Tends c o s₀) (s.sendReq c (.write c) o b env) := by
  rw [EventLoop.sendReq]
  simp only
  split
  case isFalse => exact .ok h
  case isTrue =>
    split
    · exact .none
    case h_2 n k hsend =>
      have hk := h.withSockets (Tracks.send (s := s.sockets) h.tracks hsend)
      split
      · exact .error hk
      · have hacc : Tends c o s₀ (if 0 < n then
            { s.withSockets k with toWorld := (s.withSockets k).toWorld.accept o b n.toNat }
            else s.withSockets k) := by
          split
          · exact ⟨hk.tracks, hk.link⟩
          · exact hk
        split
        · rintro s' (hs' | hs')
          · obtain ⟨s₁, htimer, hs₁⟩ := Option.map_eq_some_iff.mp hs'
            cases hs₁
            exact hacc.timer (e := .write c) rfl htimer
          · obtain ⟨s₁, -, hs₁⟩ := Option.map_eq_some_iff.mp hs'
            cases hs₁
        · exact .ok hacc

/-- The receive loop, by induction on the calls of `c->recv`. -/
theorem Tends.recvLoop {ctl : EpollCtl → Int} {turns : List RecvTurn} {resetTime : Bool}
    {r : Except EventLoop (EventLoop × Bool)} (hr : recvLoop c o ctl turns s resetTime = some r) :
    ∃ s', Tends c o s₀ s' ∧ (r = .error s' ∨ ∃ b, r = .ok (s', b)) := by
  induction turns generalizing s resetTime with
  | nil => cases hr
  | cons turn turns ih =>
      rw [Http.recvLoop] at hr
      obtain ⟨client, -, hr⟩ := Option.bind_eq_some_iff.mp hr
      obtain ⟨b, -, hr⟩ := Option.bind_eq_some_iff.mp hr
      generalize (if b.bytes.length = b.cap then resizeTempBuf b turn.start else b) = b' at hr
      obtain ⟨⟨n, bytes, k⟩, hrecv, hr⟩ := Option.bind_eq_some_iff.mp hr
      generalize hb : (if 0 < n then b'.append bytes else b') = b'' at hr
      have h₁ := (h.withSockets (Tracks.recv (s := s.sockets) h.tracks hrecv)).modify fun client =>
        { client with recv := some b'' }
      simp only [hb] at hr
      split_ifs at hr
      · obtain rfl := Option.some.inj hr
        exact ⟨_, h₁, Or.inr ⟨_, rfl⟩⟩
      · obtain rfl := Option.some.inj hr
        exact ⟨_, h₁, Or.inl rfl⟩
      · exact ih h₁ hr

end Tend

section Calls

variable {c : Slot} {o : Addr} {s s' : EventLoop} {client : HttpClient} {env : Env}
  (hs : Owns s c o client) (hlink : (s.link o).connection = some c)

include hs hlink

theorem httpWriteEventProcess_traced (h : s.httpWriteEventProcess (.write c) env = some s') :
    Traced s.pool s'.pool := by
  rw [EventLoop.httpWriteEventProcess, hs.owner rfl] at h
  simp only [Option.bind_eq_bind, Option.bind_some, Option.pure_def] at h
  have hrefl := Tends.refl hs.owned
  split at h
  · cases h
    exact hrefl.callHandler client hlink
  · generalize client.req.getD (packReqBuf env.buf client.url) = b at h
    have hreq := hrefl.modify fun client => { client with req := some b }
    generalize (s.modify o fun client => { client with req := some b }) = s₁ at h hreq
    have hparts : Outcomes (Tends c o s) ((s₁.sendReq c (.write c) o b env).andThen fun s =>
        s.within (transEnd s.toWorld c (.write c) o env.toWriteEnv)) := by
      refine .turn (hreq.sendReq b env) fun s₂ h₂ => .within ?_
      exact fun w hw => ⟨h₂.tracks.transEnd env.toWriteEnv w hw, h₂.link⟩
    split at h
    · cases h
    case h_2 s₂ hs₂ =>
      cases h
      exact (hparts _ (.inl hs₂)).tracks.traced
    case h_3 s₂ hs₂ =>
      cases h
      exact (hparts _ (.inr hs₂)).callHandler client hlink

theorem sslHandshakeHandler_traced {ev : EventRef} (hev : ev.slot = c)
    (h : sslHandshakeHandler s ev env = some s') : Traced s.pool s'.pool := by
  rw [sslHandshakeHandler, hs.owner hev] at h
  simp only [Option.bind_eq_bind, Option.bind_some, Option.pure_def] at h
  have hrefl := Tends.refl hs.owned
  split at h
  · cases h
    exact hrefl.callHandler client hlink
  · obtain ⟨⟨rc, k⟩, hshake, h⟩ := Option.bind_eq_some_iff.mp h
    have hk : Tracks c o s.pool k.pool := Tracks.httpSslHandshake (s := s.sockets) hrefl.tracks hshake
    have h₁ := hrefl.withSockets hk
    simp only [hk.owned.names.2.1, Option.bind_some] at h
    split_ifs at h
    · exact (h₁.timer (e := .write c) rfl h).tracks.traced
    · cases h
      exact h₁.callHandler client hlink
    · obtain ⟨ssl, -, h⟩ := Option.bind_eq_some_iff.mp h
      split_ifs at h
      · have h₂ := h₁.withSockets (hk.modifyEvent (e := .write c)
          (f := fun ev => { ev with handler := some .httpWriteEventProcess }) rfl rfl rfl rfl)
        exact (h₂.timer (e := .write c) rfl h).tracks.traced
      · cases h
        exact hk.traced

theorem httpReadEventProcess_traced {inflateGzip : HttpBuf → HttpBuf → Int × HttpBuf}
    (h : httpReadEventProcess inflateGzip s (.read c) env = some s') : Traced s.pool s'.pool := by
  rw [httpReadEventProcess, hs.owner rfl] at h
  simp only [Option.bind_eq_bind, Option.bind_some, Option.pure_def] at h
  have hrefl := Tends.refl hs.owned
  split at h
  · cases h
    exact hrefl.callHandler client hlink
  · generalize client.recv.getD (createTempBuf env.buf baseRange) = b at h
    have h₀ := hrefl.modify fun client => { client with recv := some b }
    obtain ⟨r, hloop, h⟩ := Option.bind_eq_some_iff.mp h
    obtain ⟨s₁, h₁, rfl | ⟨resetTime, rfl⟩⟩ := h₀.recvLoop hloop
    · cases h
      exact h₁.callHandler client hlink
    · simp only at h
      obtain ⟨s₂, hreset, h⟩ := Option.bind_eq_some_iff.mp h
      have h₂ : Tends c o s s₂ := by
        rw [resetTimer] at hreset
        split at hreset
        · exact h₁.timer (e := .read c) rfl hreset
        · cases hreset
          exact h₁
      obtain ⟨response, -, h⟩ := Option.bind_eq_some_iff.mp h
      obtain ⟨⟨rc, response'⟩, -, h⟩ := Option.bind_eq_some_iff.mp h
      have h₃ := h₂.modify fun _ => response'
      simp only at h
      split_ifs at h <;> cases h
      · exact h₃.callHandler client hlink
      · exact h₃.callHandler client hlink
      · exact h₃.tracks.traced

end Calls

end Crawler.Http
