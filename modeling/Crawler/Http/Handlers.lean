/-
# Crawler.Http.Handlers — what one call of each handler does

`http_write_event_process`, `ssl_handshake_handler` and `http_read_event_process` one after the other:
whatever the calls of the library return, each of them leaves its client waiting with a timer armed,
or gives it up. With its timer run out a handler always gives the client up.
-/
import Crawler.Http.Serving

namespace Crawler.Http

open Crawler.Lib Crawler.EventTimer Crawler.Connections

/-! ## The write handler -/

/-- The block at the end of the transmission leaves the client in its second phase, or jumps. -/
theorem transEnd_cases {w : World} (io : Slot → ConnIo) {c : Slot} {o : Addr} {env : WriteEnv}
    {r : Except World World} (hs : OwnedBy w.pool c o)
    (hwrite : (w.pool.events.ev (.write c)).handler = some .httpWriteEventProcess)
    (hsaved : NoneSaved ⟨w.pool, io⟩ c) (h : transEnd w c (.write c) o env = some r) :
    (∃ p, r = .error { w with pool := p } ∧ Within c ⟨w.pool, io⟩ ⟨p, io⟩) ∨
      ∃ p, r = .ok ({ w with pool := p }.modify o fun client => { client with status := .reqDone }) ∧
        Within c ⟨w.pool, io⟩ ⟨p, io⟩ ∧ Late ⟨p, io⟩ c := by
  have hne : EventRef.write c ≠ .read c := by simp
  rw [transEnd] at h
  split at h
  case h_1 => cases h
  case h_2 b hb =>
    by_cases hend : b.pos = b.bytes.length
    · rw [if_pos hend] at h
      -- the write event: its timer, then its registration
      obtain ⟨p₁, h₁, hw₁, hoff₁, hhan₁, -⟩ := Within.delTimerIfSet io hs (e := .write c) rfl
      obtain ⟨p₂, hw₂, hkeep₂, h₂⟩ := Within.eventDelIfActive (w := { w with pool := p₁ }) io
        (hw₁.owned hs) (e := .write c) rfl .write env.ctl
      have hw₁₂ := hw₁.trans hw₂
      have hown₂ := hw₁₂.owned hs
      have hread : (p₂.connections c).read = some (.read c) := hown₂.names.1
      simp only [h₁, Flow.andThen] at h
      rcases h₂ with h₂ | h₂
      · -- the read event: its handler, its registration, its timer
        simp only [h₂, hread] at h
        have hw₃ := hw₁₂.trans (Within.modifyEvent (s := ⟨p₂, io⟩) hown₂ (e := .read c) rfl
          (f := fun ev => { ev with handler := some .httpReadEventProcess }) rfl rfl)
        obtain ⟨p₄, hw₄, hkeep₄, h₄⟩ := Within.eventAddUnlessActive
          (w := { w with pool := (p₂.setEvent (.read c)
            { p₂.events.ev (.read c) with handler := some .httpReadEventProcess }) }) io
          (hw₃.owned hs) (e := .read c) rfl .read clearEvent env.ctl
        have hw₃₄ := hw₃.trans hw₄
        rcases h₄ with h₄ | h₄
        · obtain ⟨p₅, h₅, hw₅, harm₅, hhan₅, -, hother₅⟩ :=
            Within.addTimer (s := ⟨p₄, io⟩) (hw₃₄.owned hs) (e := .read c) rfl env.now timeoutRecv
          simp only [h₄, World.withTimers, h₅, Option.map_some] at h
          obtain rfl := Option.some.inj h
          refine Or.inr ⟨p₅, rfl, hw₃₄.trans hw₅, ?_, harm₅, ?_, Or.inl ⟨?_, hsaved⟩⟩
          · exact hhan₅.trans ((hkeep₄ _).1.trans (by simp [Pool.setEvent]))
          · show (p₅.events.ev (.write c)).timerSet = false
            rw [hother₅ _ hne, (hkeep₄ _).2]
            simpa [Pool.setEvent] using (hkeep₂ (.write c)).2.trans hoff₁
          · show (p₅.events.ev (.write c)).handler = some .httpWriteEventProcess
            rw [hother₅ _ hne, (hkeep₄ _).1]
            simpa [Pool.setEvent] using ((hkeep₂ (.write c)).1.trans hhan₁).trans hwrite
        · simp only [h₄] at h
          obtain rfl := Option.some.inj h
          exact Or.inl ⟨p₄, rfl, hw₃₄⟩
      · simp only [h₂] at h
        obtain rfl := Option.some.inj h
        exact Or.inl ⟨p₂, rfl, hw₁₂⟩
    · rw [if_neg hend] at h
      obtain rfl := Option.some.inj h
      exact Or.inl ⟨w.pool, rfl, Within.refl c _⟩

theorem timer_within (s : EventLoop) (w : World)
    (op : Timers EventRef → Option (Timers EventRef)) :
    (({ s with toWorld := w } : EventLoop).timer op).map .ok = s.within (w.withTimers op) := by
  unfold EventLoop.timer World.withTimers
  cases w.pool.withTimers op <;> rfl

/-- On a connection without TLS the send is the one of `Http.Write`. -/
theorem sendReq_unix {s : EventLoop} {c : Slot} {wev : EventRef} (hio : (s.io c).send = some .unix)
    (hwrite : (s.pool.connections c).write = some wev) (o : Addr) (b : HttpBuf) (env : Env) :
    s.sendReq c wev o b env = s.within (sendReq s.toWorld wev o b env.toWriteEnv) := by
  have hio' : (s.sockets.io c).send = some .unix := hio
  have hwrite' : (s.sockets.pool.connections c).write = some wev := hwrite
  have hev : s.sockets.pool.events.ev wev = s.pool.events.ev wev := rfl
  rw [EventLoop.sendReq, sendReq]
  dsimp only
  split
  case isTrue =>
    rw [Sockets.send]
    simp only [hio', hwrite', hev, Option.bind_eq_bind, Option.bind_some, Option.pure_def]
    cases hsend : unixSend (b.bytes.length - b.pos) ⟨0, (s.pool.events.ev wev).ready,
        (s.pool.events.ev wev).error⟩ env.sys with
    | none => rfl
    | some r =>
        simp only [Option.bind_some]
        have hleave : s.withSockets (s.sockets.modifyEvent wev fun ev =>
            { ev with ready := r.ready, error := r.error }) =
            { s with toWorld := s.toWorld.leave wev r } := rfl
        rw [hleave]
        split_ifs
        · rfl
        · exact timer_within s _ _
        · exact timer_within s _ _
        · rfl
        · rfl
  case isFalse => rfl

/-- The send jumps, or something is sent, or nothing is sent and the request is not at its end. -/
theorem sendReq_cases {s : EventLoop} {c : Slot} {o : Addr} {client : HttpClient} {b : HttpBuf}
    {env : Env} {r : Except EventLoop EventLoop} (hs : Owns s c o client)
    (hsaved : NoneSaved s.sockets c)
    (h : s.sendReq c (.write c) o b env = some r) :
    ∃ s', Serving c o s s' ∧
      (r = .error s' ∨ r = .ok s' ∧
        (Unmoved s.sockets s'.sockets ∨ s'.clients o = some client ∧ b.pos ≠ b.bytes.length)) := by
  have hrefl := Serving.refl c o s
  rw [EventLoop.sendReq] at h
  by_cases hsize : b.bytes.length - b.pos ≠ 0 ∧ (s.pool.events.ev (.write c)).ready = true
  · rw [if_pos hsize] at h
    split at h
    case h_1 => cases h
    case h_2 n k hsend =>
      obtain ⟨hk, hcases⟩ := send_cases hs.owned hsaved hsend
      have h₁ := hrefl.withSockets hk
      by_cases hone : n = -1
      · simp only [if_pos hone] at h
        obtain rfl := Option.some.inj h
        exact ⟨_, h₁, Or.inl rfl⟩
      · simp only [if_neg hone] at h
        by_cases hagain : n = -eagain
        · -- nothing is sent: the timer is set, and the request is not at its end
          have hneg : ¬ 0 < n := by rw [hagain]; decide
          obtain ⟨p, hadd, hw, -⟩ := Within.addTimer (s := k) (hk.owned hs.owned) (e := .write c) rfl
            env.now timeoutSend
          rw [if_neg hneg, if_pos hagain, EventLoop.timer] at h
          have hadd' : (s.withSockets k).pool.withTimers (eventAddTimer env.now · (.write c)
              timeoutSend) = some p := hadd
          rw [hadd', Option.map_some, Option.map_some] at h
          obtain rfl := Option.some.inj h
          exact ⟨_, h₁.withSockets hw, Or.inr ⟨rfl, Or.inr ⟨hs.record, by omega⟩⟩⟩
        · rw [if_neg hagain] at h
          obtain rfl := Option.some.inj h
          have hunmoved := (hcases.resolve_left hone).resolve_left hagain
          by_cases hpos : 0 < n
          · rw [if_pos hpos]
            exact ⟨_, h₁.accept b n.toNat, Or.inr ⟨rfl, Or.inl hunmoved⟩⟩
          · rw [if_neg hpos]
            exact ⟨_, h₁, Or.inr ⟨rfl, Or.inl hunmoved⟩⟩
  · rw [if_neg hsize] at h
    obtain rfl := Option.some.inj h
    exact ⟨s, hrefl, Or.inr ⟨rfl, Or.inl (Unmoved.refl _)⟩⟩

/-- The two blocks of the write handler: they jump, or leave the client in its second phase. -/
theorem sendParts_cases {s : EventLoop} {c : Slot} {o : Addr} {client : HttpClient} {b : HttpBuf}
    {env : Env} {r : Except EventLoop EventLoop} (hs : Owns s c o client)
    (hreq : client.req = some b)
    (hwrite : (s.pool.events.ev (.write c)).handler = some .httpWriteEventProcess)
    (hsaved : NoneSaved s.sockets c)
    (h : (s.sendReq c (.write c) o b env).andThen (fun s =>
      s.within (transEnd s.toWorld c (.write c) o env.toWriteEnv)) = some r) :
    ∃ s', Serving c o s s' ∧ (r = .error s' ∨ r = .ok s' ∧ Late s'.sockets c) := by
  cases hsend : s.sendReq c (.write c) o b env with
  | none =>
      rw [hsend] at h
      cases h
  | some r₂ =>
      obtain ⟨s₂, h₂, hr₂⟩ := sendReq_cases hs hsaved hsend
      rw [hsend] at h
      rcases hr₂ with rfl | ⟨rfl, hr₂⟩
      · exact ⟨s₂, h₂, Or.inl (Option.some.inj h).symm⟩
      · simp only [Turn.andThen] at h
        cases hend : transEnd s₂.toWorld c (.write c) o env.toWriteEnv with
        | none =>
            rw [hend] at h
            cases h
        | some r₃ =>
            rw [hend] at h
            rcases hr₂ with hun | ⟨hrec, hshort⟩
            · have hwrite₂ : (s₂.pool.events.ev (.write c)).handler = some .httpWriteEventProcess :=
                (hun.handler _).trans hwrite
              have hsaved₂ : NoneSaved ⟨s₂.pool, s₂.io⟩ c := by
                intro ssl hssl
                refine hsaved ssl ?_
                rw [← hun.io]
                exact hssl
              rcases transEnd_cases s₂.io (h₂.within.owned hs.owned) hwrite₂ hsaved₂ hend with
                ⟨p, rfl, hw⟩ | ⟨p, rfl, hw, hlate⟩
              · exact ⟨_, h₂.withSockets (k := ⟨p, s₂.io⟩) hw, Or.inl (Option.some.inj h).symm⟩
              · refine ⟨_, (h₂.withSockets (k := ⟨p, s₂.io⟩) hw).modify (f := fun client =>
                  { client with status := .reqDone }) fun _ _ => rfl,
                  Or.inr ⟨(Option.some.inj h).symm, hlate⟩⟩
            · -- short of the end the block is skipped
              have hskip : r₃ = .error s₂.toWorld := by
                rw [transEnd, hrec] at hend
                simp only [Option.bind_some, hreq, if_neg hshort] at hend
                exact (Option.some.inj hend).symm
              subst hskip
              exact ⟨s₂, h₂, Or.inl (Option.some.inj h).symm⟩

/-- With the timer run out the client is given up. -/
theorem httpWriteEventProcess_timedout {s : EventLoop} {c : Slot} {o : Addr} {client : HttpClient}
    (hs : Owns s c o client) (htime : (s.pool.events.ev (.write c)).timedout = true) (env : Env) :
    s.httpWriteEventProcess (.write c) env = some (s.callHandler o client) := by
  rw [EventLoop.httpWriteEventProcess, hs.owner rfl]
  simp [htime]

/-- `http_write_event_process` leaves the client in its second phase or gives it up. -/
theorem httpWriteEventProcess_after {s s' : EventLoop} {c : Slot} {o : Addr} {client : HttpClient}
    {env : Env} (hs : Owns s c o client)
    (hwrite : (s.pool.events.ev (.write c)).handler = some .httpWriteEventProcess)
    (hsaved : NoneSaved s.sockets c) (h : s.httpWriteEventProcess (.write c) env = some s') :
    After c o s s' := by
  have hrefl := Serving.refl c o s
  by_cases htime : (s.pool.events.ev (.write c)).timedout = true
  · rw [httpWriteEventProcess_timedout hs htime] at h
    obtain rfl := Option.some.inj h
    exact Or.inr ⟨s, client, hrefl, hs.handler, rfl⟩
  · rw [EventLoop.httpWriteEventProcess, hs.owner rfl] at h
    simp only [Option.bind_eq_bind, Option.bind_some, Option.pure_def] at h
    rw [if_neg htime] at h
    generalize hb : client.req.getD (packReqBuf env.buf client.url) = b at h
    -- the request is packed
    have h₁ := hrefl.modify (f := fun client => { client with req := some b }) fun _ _ => rfl
    have hs₁ : Owns (s.modify o fun client => { client with req := some b }) c o
        { client with req := some b } :=
      ⟨hs.owned, by simp [EventLoop.modify, World.modify, hs.record], hs.handler⟩
    split at h
    case h_1 => cases h
    case h_2 s₂ hparts =>
      obtain ⟨s₃, h₂, hr⟩ := sendParts_cases hs₁ rfl hwrite hsaved hparts
      obtain rfl := Option.some.inj h
      rcases hr with hr | ⟨hr, hlate⟩
      · cases hr
      · obtain rfl := Except.ok.inj hr
        exact Or.inl ((h₁.trans h₂).kept_late hlate)
    case h_3 s₂ hparts =>
      obtain ⟨s₃, h₂, hr⟩ := sendParts_cases hs₁ rfl hwrite hsaved hparts
      obtain rfl := Option.some.inj h
      rcases hr with hr | ⟨hr, -⟩
      · obtain rfl := Except.error.inj hr
        exact Or.inr ⟨_, client, h₁.trans h₂, hs.handler, rfl⟩
      · cases hr

/-! ## The handshake -/

/-- Flags of an event do not matter in the first phase either. -/
theorem Early.modifyEvent {s : Sockets} {c : Slot} (h : Early s c) {e : EventRef} {f : Event → Event}
    (hhandler : (f (s.pool.events.ev e)).handler = (s.pool.events.ev e).handler)
    (hset : (f (s.pool.events.ev e)).timerSet = (s.pool.events.ev e).timerSet)
    (hactive : (f (s.pool.events.ev e)).active = (s.pool.events.ev e).active) :
    Early (s.modifyEvent e f) c := by
  have hsame : ∀ e' : EventRef,
      ((s.modifyEvent e f).pool.events.ev e').handler = (s.pool.events.ev e').handler ∧
        ((s.modifyEvent e f).pool.events.ev e').timerSet = (s.pool.events.ev e').timerSet ∧
        ((s.modifyEvent e f).pool.events.ev e').active = (s.pool.events.ev e').active := by
    intro e'
    rw [modifyEvent_ev]
    split
    case isTrue heq => rw [heq]; exact ⟨hhandler, hset, hactive⟩
    case isFalse => exact ⟨rfl, rfl, rfl⟩
  refine ⟨?_, ?_, (hsame _).2.1.trans h.disarmed, h.saved⟩
  · rw [(hsame _).1]
    exact h.write
  · rw [(hsame _).1, (hsame _).2.2]
    exact h.read

/-- Both events of `c` wait for the handshake, the read event without a timer. -/
structure Shaking (s : Sockets) (c : Slot) : Prop where
  handler : ∀ e : EventRef, e.slot = c →
    (s.pool.events.ev e).handler = some .sslHandshakeHandler
  disarmed : (s.pool.events.ev (.read c)).timerSet = false

theorem Shaking.watch {s s' : Sockets} {c : Slot} {o : Addr} (h : Shaking s c)
    (hs : OwnedBy s.pool c o) {e : EventRef} (he : e.slot = c) {event : IoEvent}
    {ctl : EpollCtl → Int} {rc : Int} (hwatch : s.watch e event ctl = some (rc, s')) :
    Shaking s' c := by
  rcases watch_cases hs he hwatch with rfl | ⟨call, rfl | rfl⟩
  · exact h
  · exact ⟨h.handler, h.disarmed⟩
  · refine ⟨fun e' he' => ?_, ?_⟩
    · rw [modifyEvent_ev]
      split
      case isTrue heq => exact h.handler e he
      case isFalse => exact h.handler e' he'
    · rw [modifyEvent_ev]
      split
      case isTrue heq => subst heq; exact h.disarmed
      case isFalse => exact h.disarmed

/-- `ssl_create` fails, or leaves the client waiting for the handshake. -/
theorem sslCreate_cases {s s' : Sockets} {c : Slot} {o : Addr} (hs : OwnedBy s.pool c o)
    (he : Early s c) {env : Env} {rc : Int} (h : sslCreate s c env = some (rc, s')) :
    Within c s s' ∧ (rc < 0 ∨ Early s' c) := by
  obtain ⟨hread, hwrite, -, -⟩ := hs.names
  rw [sslCreate] at h
  by_cases hnew : env.sslNew = false
  · rw [if_pos hnew] at h
    cases h
    exact ⟨Within.refl c s, Or.inl (by decide)⟩
  · rw [if_neg hnew] at h
    simp only [hread, hwrite, Option.bind_eq_bind, Option.bind_some, Option.pure_def] at h
    have hw₁ := Within.modifyEvent hs (e := .read c)
      (f := fun ev => { ev with handler := some .sslHandshakeHandler }) rfl rfl rfl
    have hw₂ := hw₁.trans (Within.modifyEvent (hw₁.owned hs) (e := .write c)
      (f := fun ev => { ev with handler := some .sslHandshakeHandler }) rfl rfl rfl)
    have hsh₂ : Shaking ((s.modifyEvent (.read c) fun ev =>
        { ev with handler := some .sslHandshakeHandler }).modifyEvent (.write c) fun ev =>
        { ev with handler := some .sslHandshakeHandler }) c := by
      refine ⟨fun e hec => ?_, ?_⟩
      · rcases EventRef.eq_of_slot hec with rfl | rfl <;> simp
      · simpa using he.disarmed
    obtain ⟨⟨rc₃, s₃⟩, hwatch₃, h⟩ := Option.bind_eq_some_iff.mp h
    have hw₃ := hw₂.trans (Within.watch (hw₂.owned hs) rfl hwatch₃)
    have hsh₃ := hsh₂.watch (hw₂.owned hs) rfl hwatch₃
    by_cases hrc₃ : rc₃ ≠ 0
    · rw [if_pos hrc₃] at h
      cases h
      exact ⟨hw₃, Or.inl (by decide)⟩
    · rw [if_neg hrc₃] at h
      obtain ⟨⟨rc₄, s₄⟩, hwatch₄, h⟩ := Option.bind_eq_some_iff.mp h
      have hw₄ := hw₃.trans (Within.watch (hw₃.owned hs) rfl hwatch₄)
      have hsh₄ := hsh₃.watch (hw₃.owned hs) rfl hwatch₄
      by_cases hrc₄ : rc₄ ≠ 0
      · rw [if_pos hrc₄] at h
        cases h
        exact ⟨hw₄, Or.inl (by decide)⟩
      · rw [if_neg hrc₄] at h
        cases h
        refine ⟨hw₄.trans (Within.setIo c s₄ _), Or.inr ⟨Or.inl (hsh₄.handler _ rfl),
          Or.inr (hsh₄.handler _ rfl), hsh₄.disarmed, fun ssl hssl => ?_⟩⟩
        obtain rfl : ({} : SslConnection) = ssl := by simpa using hssl
        exact ⟨rfl, rfl⟩

/-- `SSL_connect` and what follows leave the phase alone, and end in one of three ways. -/
theorem sslConnect_cases {s s' : Sockets} {c : Slot} (he : Early s c) {env : Env} {rc : Int}
    (h : sslConnect s c env = (rc, s')) :
    Within c s s' ∧ Early s' c ∧ (rc = eagain ∨ rc < 0 ∨
      ∀ ssl, (s'.io c).ssl = some ssl → ssl.handshaked = true) := by
  unfold sslConnect at h
  split at h
  case h_1 =>
    cases h
    refine ⟨(Within.modifySsl c s _).trans (Within.setIo c _ _),
      ⟨he.write, he.read, he.disarmed, fun ssl hssl => ?_⟩, Or.inr (Or.inr fun ssl hssl => ?_)⟩
    · simp only [Function.update_self, modifySsl_ssl, Option.map_eq_some_iff] at hssl
      obtain ⟨ssl', hssl', rfl⟩ := hssl
      exact he.saved ssl' hssl'
    · simp only [Function.update_self, modifySsl_ssl, Option.map_eq_some_iff] at hssl
      obtain ⟨ssl', -, rfl⟩ := hssl
      rfl
  case h_2 => cases h; exact ⟨Within.refl c s, he, Or.inl rfl⟩
  case h_3 => cases h; exact ⟨Within.refl c s, he, Or.inl rfl⟩
  case h_4 => cases h; exact ⟨Within.refl c s, he, Or.inr (Or.inl (by decide))⟩

theorem httpSslHandshake_cases {s s' : Sockets} {c : Slot} {o : Addr} (hs : OwnedBy s.pool c o)
    (he : Early s c) {env : Env} {rc : Int} (h : httpSslHandshake s c env = some (rc, s')) :
    Within c s s' ∧ (rc < 0 ∨ Early s' c ∧ (rc = eagain ∨
      ∀ ssl, (s'.io c).ssl = some ssl → ssl.handshaked = true)) := by
  rw [httpSslHandshake] at h
  by_cases hnull : (s.io c).ssl = none
  · rw [if_pos hnull] at h
    obtain ⟨⟨rc₁, s₁⟩, hcreate, h⟩ := Option.bind_eq_some_iff.mp h
    obtain ⟨hw₁, hcases⟩ := sslCreate_cases hs he hcreate
    by_cases hrc : rc₁ < 0
    · simp only [if_pos hrc, Option.pure_def] at h
      cases h
      exact ⟨hw₁, Or.inl (by decide)⟩
    · simp only [if_neg hrc, Option.pure_def] at h
      obtain ⟨hw₂, he₂, hrc₂⟩ := sslConnect_cases (hcases.resolve_left hrc) (Option.some.inj h)
      exact ⟨hw₁.trans hw₂, by tauto⟩
  · rw [if_neg hnull] at h
    obtain ⟨hw₂, he₂, hrc₂⟩ := sslConnect_cases he (Option.some.inj h)
    exact ⟨hw₂, by tauto⟩

/-- Arming the write event in the first phase. -/
theorem Early.addTimer {s : Sockets} {c : Slot} {o : Addr} (he : Early s c)
    (hs : OwnedBy s.pool c o) (now timer : UInt32) :
    ∃ p, s.pool.withTimers (eventAddTimer now · (.write c) timer) = some p ∧
      Within c s { s with pool := p } ∧ Early { s with pool := p } c ∧
      (p.events.ev (.write c)).timerSet = true := by
  have hne : EventRef.read c ≠ .write c := by simp
  obtain ⟨p, hp, hw, harm, hhan, -, hother⟩ :=
    Within.addTimer hs (e := .write c) rfl now timer
  refine ⟨p, hp, hw, ⟨?_, ?_, ?_, he.saved⟩, harm⟩
  · show (p.events.ev (.write c)).handler = _ ∨ (p.events.ev (.write c)).handler = _
    rw [hhan]
    exact he.write
  · show (p.events.ev (.read c)).active = false ∨ (p.events.ev (.read c)).handler = _
    rw [hother _ hne]
    exact he.read
  · show (p.events.ev (.read c)).timerSet = false
    rw [hother _ hne]
    exact he.disarmed

theorem Serving.kept_early {c : Slot} {o : Addr} {s₀ s s' : EventLoop} (h : Serving c o s₀ s)
    (hs : OwnedBy s.pool c o) (he : Early s.sockets c) {now timer : UInt32}
    (hadd : s.timer (eventAddTimer now · (.write c) timer) = some s') : Kept c o s₀ s' := by
  obtain ⟨p, hp, hw, he', harm⟩ := he.addTimer hs now timer
  have hp' : s.pool.withTimers (eventAddTimer now · (.write c) timer) = some p := hp
  rw [EventLoop.timer, hp', Option.map_some] at hadd
  obtain rfl := Option.some.inj hadd
  exact ⟨h.withSockets (k := ⟨p, s.io⟩) hw, Or.inl he', Or.inr harm⟩

theorem sslHandshakeHandler_timedout {s : EventLoop} {c : Slot} {o : Addr} {client : HttpClient}
    (hs : Owns s c o client) {ev : EventRef} (hev : ev.slot = c)
    (htime : (s.pool.events.ev ev).timedout = true) (env : Env) :
    sslHandshakeHandler s ev env = some (s.callHandler o client) := by
  rw [sslHandshakeHandler, hs.owner hev]
  simp [htime]

/-- `ssl_handshake_handler` leaves the client in its first phase with the write event armed, or gives
it up. -/
theorem sslHandshakeHandler_after {s s' : EventLoop} {c : Slot} {o : Addr} {client : HttpClient}
    {ev : EventRef} (hev : ev.slot = c) {env : Env} (hs : Owns s c o client)
    (he : Early s.sockets c) (h : sslHandshakeHandler s ev env = some s') : After c o s s' := by
  have hrefl := Serving.refl c o s
  by_cases htime : (s.pool.events.ev ev).timedout = true
  · rw [sslHandshakeHandler_timedout hs hev htime] at h
    obtain rfl := Option.some.inj h
    exact Or.inr ⟨s, client, hrefl, hs.handler, rfl⟩
  · rw [sslHandshakeHandler, hs.owner hev] at h
    simp only [Option.bind_eq_bind, Option.bind_some, Option.pure_def] at h
    rw [if_neg htime] at h
    obtain ⟨⟨rc, k⟩, hshake, h⟩ := Option.bind_eq_some_iff.mp h
    obtain ⟨hw, hcases⟩ := httpSslHandshake_cases hs.owned he hshake
    have hk := hw.owned hs.owned
    have h₁ := hrefl.withSockets hw
    simp only [hk.names.2.1, Option.bind_some] at h
    by_cases hagain : rc = eagain
    · rw [if_pos hagain] at h
      have hpos : ¬ rc < 0 := by rw [hagain]; decide
      exact Or.inl (h₁.kept_early hk (hcases.resolve_left hpos).1 h)
    · rw [if_neg hagain] at h
      by_cases hneg : rc < 0
      · rw [if_pos hneg] at h
        obtain rfl := Option.some.inj h
        exact Or.inr ⟨_, client, h₁, hs.handler, rfl⟩
      · rw [if_neg hneg] at h
        obtain ⟨he₂, hshaken⟩ := hcases.resolve_left hneg
        obtain ⟨ssl, hssl, h⟩ := Option.bind_eq_some_iff.mp h
        rw [if_pos (hshaken.resolve_left hagain ssl hssl)] at h
        -- the request is sent next
        have hw₂ := Within.modifyEvent hk (e := .write c)
          (f := fun ev => { ev with handler := some .httpWriteEventProcess }) rfl rfl rfl
        refine Or.inl ((hrefl.withSockets (hw.trans hw₂)).kept_early (hw₂.owned hk)
          ⟨Or.inr ?_, ?_, ?_, he₂.saved⟩ h)
        · simp
        · simpa using he₂.read
        · simpa using he₂.disarmed

/-! ## The read handler -/

/-- What the parsers leave of a client: its handler, and its buffer but for the position. -/
structure Parses (client client' : HttpClient) : Prop where
  handler : client'.handler = client.handler
  recv : ∃ move : HttpBuf → Nat, client'.recv = client.recv.map fun b => { b with pos := move b }

theorem Parses.of_recv {client client' : HttpClient} (hhandler : client'.handler = client.handler)
    (hrecv : client'.recv = client.recv) : Parses client client' := by
  refine ⟨hhandler, HttpBuf.pos, ?_⟩
  rw [hrecv]
  exact (congrFun Option.map_id client.recv).symm

theorem Parses.refl (client : HttpClient) : Parses client client := .of_recv rfl rfl

theorem Parses.trans {client₀ client₁ client₂ : HttpClient} (h : Parses client₀ client₁)
    (h' : Parses client₁ client₂) : Parses client₀ client₂ := by
  obtain ⟨move, hrecv⟩ := h.recv
  obtain ⟨move', hrecv'⟩ := h'.recv
  refine ⟨h'.handler.trans h.handler, fun b => move' { b with pos := move b }, ?_⟩
  rw [hrecv', hrecv, Option.map_map]
  rfl

theorem Parses.move {client client' : HttpClient} {b : HttpBuf} (hb : client.recv = some b) (pos : Nat)
    (hhandler : client'.handler = client.handler)
    (hrecv : client'.recv = some { b with pos := pos }) : Parses client client' :=
  ⟨hhandler, fun _ => pos, by rw [hrecv, hb]; rfl⟩

theorem httpParseHead_parses {client client' : HttpClient} {rc : Int}
    (h : httpParseHead client = some (rc, client')) : Parses client client' := by
  rw [httpParseHead] at h
  obtain ⟨b, hb, h⟩ := Option.bind_eq_some_iff.mp h
  generalize scan headByte (client.headState b) (b.bytes.drop b.pos) = r at h
  rcases r with s | s | s
  · cases h
    exact .move hb s.pos rfl rfl
  · cases h
    exact .move hb s.pos rfl rfl
  · obtain ⟨⟨rc', hc⟩, -, h⟩ := Option.bind_eq_some_iff.mp h
    cases h
    exact .move hb s.pos rfl rfl

theorem htmlCopy_parses (inflateGzip : HttpBuf → HttpBuf → Int × HttpBuf) (client : HttpClient)
    (hc : HeadCache) (mc : HtmlCache) : Parses client (htmlCopy inflateGzip client hc mc).2 := by
  rw [htmlCopy]
  split
  · exact .of_recv rfl rfl
  · simp only
    split_ifs <;> exact .of_recv rfl rfl

theorem httpParseHtml_parses {inflateGzip : HttpBuf → HttpBuf → Int × HttpBuf}
    {client client' : HttpClient} {rc : Int}
    (h : httpParseHtml inflateGzip client = some (rc, client')) : Parses client client' := by
  rw [httpParseHtml] at h
  obtain ⟨b, hb, h⟩ := Option.bind_eq_some_iff.mp h
  obtain ⟨hc, -, h⟩ := Option.bind_eq_some_iff.mp h
  by_cases hchunk : hc.chunkFlag = true
  · simp only [if_pos hchunk, Option.map_eq_some_iff] at h
    obtain ⟨stop, -, hstop⟩ := h
    cases stop with
    | ret rc mc pos =>
        cases hstop
        exact .move hb pos rfl rfl
    | out mc pos =>
        have hcopy := htmlCopy_parses inflateGzip { client with recv := some { b with pos := pos } } hc mc
        rw [chunkEnd] at hstop
        rw [hstop] at hcopy
        have hmove : Parses client { client with recv := some { b with pos := pos } } :=
          .move hb pos rfl rfl
        exact hmove.trans hcopy
  · simp only [if_neg hchunk] at h
    split at h
    · have hcopy := htmlCopy_parses inflateGzip client hc { client.htmlCache b with
        chunks := some { bytes := b.slice b.pos hc.contentLen.toNat, cap := hc.contentLen.toNat }
        chunkSum := hc.contentLen }
      rw [Option.some.inj h] at hcopy
      exact hcopy
    · have hcopy := htmlCopy_parses inflateGzip client hc (client.htmlCache b)
      rw [Option.some.inj h] at hcopy
      exact hcopy

theorem httpProcessResponse_parses {inflateGzip : HttpBuf → HttpBuf → Int × HttpBuf}
    {client client' : HttpClient} {rc : Int}
    (h : httpProcessResponse inflateGzip client = some (rc, client')) : Parses client client' := by
  rw [httpProcessResponse] at h
  obtain ⟨⟨rc₁, client₁⟩, hhead, h⟩ := Option.bind_eq_some_iff.mp h
  have h₁ : Parses client client₁ := by
    split at hhead
    · exact httpParseHead_parses hhead
    · cases hhead
      exact .refl client
  by_cases hrc : rc₁ < 0
  · simp only [if_pos hrc] at h
    cases h
    exact h₁
  · simp only [if_neg hrc] at h
    obtain ⟨⟨rc₂, client₂⟩, hhtml, h⟩ := Option.map_eq_some_iff.mp h
    have h₂ : Parses client₁ client₂ := by
      split at hhtml
      · exact httpParseHtml_parses hhtml
      · cases hhtml
        exact .refl client₁
    cases h
    exact h₁.trans h₂

/-- What the read handler keeps until it ends. -/
structure Reading (c : Slot) (o : Addr) (s₀ s : EventLoop) : Prop where
  serving : Serving c o s₀ s
  owned : OwnedBy s.pool c o
  late : Late s.sockets c

/-- The receive loop, by induction on the calls of `c->recv`. -/
theorem recvLoop_cases {c : Slot} {o : Addr} {ctl : EpollCtl → Int} {turns : List RecvTurn}
    {s₀ s : EventLoop} (h : Reading c o s₀ s) {resetTime : Bool}
    {r : Except EventLoop (EventLoop × Bool)} (hr : recvLoop c o ctl turns s resetTime = some r) :
    ∃ s', Reading c o s₀ s' ∧ (r = .error s' ∨ ∃ b, r = .ok (s', b)) := by
  induction turns generalizing s resetTime with
  | nil => cases hr
  | cons turn turns ih =>
      rw [recvLoop] at hr
      obtain ⟨client, hrec, hr⟩ := Option.bind_eq_some_iff.mp hr
      obtain ⟨b, -, hr⟩ := Option.bind_eq_some_iff.mp hr
      generalize (if b.bytes.length = b.cap then resizeTempBuf b turn.start else b) = b' at hr
      obtain ⟨⟨n, bytes, k⟩, hrecv, hr⟩ := Option.bind_eq_some_iff.mp hr
      have hk : Receiving c o s.sockets k :=
        Receiving.recv ⟨Within.refl c s.sockets, h.owned, h.late⟩ hrecv
      generalize hb : (if 0 < n then b'.append bytes else b') = b'' at hr
      have h₁ : Reading c o s₀
          ((s.withSockets k).modify o fun client => { client with recv := some b'' }) :=
        ⟨(h.serving.withSockets hk.within).modify fun _ _ => rfl, hk.owned, hk.late⟩
      simp only [hb] at hr
      split_ifs at hr
      · obtain rfl := Option.some.inj hr
        exact ⟨_, h₁, Or.inr ⟨_, rfl⟩⟩
      · obtain rfl := Option.some.inj hr
        exact ⟨_, h₁, Or.inl rfl⟩
      · exact ih h₁ hr

/-- Arming the read event again. -/
theorem Reading.resetTimer {c : Slot} {o : Addr} {s₀ s s' : EventLoop} (h : Reading c o s₀ s)
    {resetTime : Bool} {now : UInt32} (hreset : resetTimer s (.read c) resetTime now = some s') :
    Reading c o s₀ s' := by
  have hne : EventRef.write c ≠ .read c := by simp
  rw [Http.resetTimer] at hreset
  split at hreset
  case isTrue =>
    obtain ⟨p, hp, hw, harm, hhan, -, hother⟩ :=
      Within.addTimer (s := s.sockets) h.owned (e := .read c) rfl now timeoutRecv
    have hp' : s.pool.withTimers (eventAddTimer now · (.read c) timeoutRecv) = some p := hp
    rw [EventLoop.timer, hp', Option.map_some] at hreset
    obtain rfl := Option.some.inj hreset
    refine ⟨h.serving.withSockets (k := ⟨p, s.io⟩) hw, hw.owned h.owned, ?_⟩
    refine h.late.congr hhan (congrArg Event.handler (hother _ hne)) (fun e => ?_) fun ssl hssl =>
      ⟨ssl, hssl, rfl, rfl⟩
    by_cases he : e = .read c
    · subst he
      exact harm.trans h.late.armed.symm
    · exact congrArg Event.timerSet (hother e he)
  case isFalse =>
    obtain rfl := Option.some.inj hreset
    exact h

theorem httpReadEventProcess_timedout {inflateGzip : HttpBuf → HttpBuf → Int × HttpBuf}
    {s : EventLoop} {c : Slot} {o : Addr} {client : HttpClient} (hs : Owns s c o client)
    (htime : (s.pool.events.ev (.read c)).timedout = true) (env : Env) :
    httpReadEventProcess inflateGzip s (.read c) env = some (s.callHandler o client) := by
  rw [httpReadEventProcess, hs.owner rfl]
  simp [htime]

/-- `http_read_event_process` leaves the client in its second phase, armed, or gives it up. -/
theorem httpReadEventProcess_after {inflateGzip : HttpBuf → HttpBuf → Int × HttpBuf}
    {s s' : EventLoop} {c : Slot} {o : Addr} {client : HttpClient} {env : Env}
    (hs : Owns s c o client) (hl : Late s.sockets c)
    (h : httpReadEventProcess inflateGzip s (.read c) env = some s') : After c o s s' := by
  have hrefl := Serving.refl c o s
  by_cases htime : (s.pool.events.ev (.read c)).timedout = true
  · rw [httpReadEventProcess_timedout hs htime] at h
    obtain rfl := Option.some.inj h
    exact Or.inr ⟨s, client, hrefl, hs.handler, rfl⟩
  · rw [httpReadEventProcess, hs.owner rfl] at h
    simp only [Option.bind_eq_bind, Option.bind_some, Option.pure_def] at h
    rw [if_neg htime] at h
    generalize hb : client.recv.getD (createTempBuf env.buf baseRange) = b at h
    have h₀ : Reading c o s (s.modify o fun client => { client with recv := some b }) :=
      ⟨hrefl.modify fun _ _ => rfl, hs.owned, hl⟩
    obtain ⟨r, hloop, h⟩ := Option.bind_eq_some_iff.mp h
    obtain ⟨s₁, h₁, rfl | ⟨resetTime, rfl⟩⟩ := recvLoop_cases h₀ hloop
    · obtain rfl := Option.some.inj h
      exact Or.inr ⟨s₁, client, h₁.serving, hs.handler, rfl⟩
    · simp only at h
      obtain ⟨s₂, hreset, h⟩ := Option.bind_eq_some_iff.mp h
      have h₂ := h₁.resetTimer hreset
      obtain ⟨response, hrec, h⟩ := Option.bind_eq_some_iff.mp h
      obtain ⟨⟨rc, response'⟩, hprocess, h⟩ := Option.bind_eq_some_iff.mp h
      have hkeep := (httpProcessResponse_parses hprocess).handler
      have h₃ : Serving c o s (s₂.modify o fun _ => response') := by
        refine h₂.serving.modify fun client' hrec' => ?_
        obtain rfl := Option.some.inj (hrec.symm.trans hrec')
        exact hkeep
      simp only at h
      split_ifs at h
      · obtain rfl := Option.some.inj h
        exact Or.inr ⟨_, client, h₃, hs.handler, rfl⟩
      · obtain rfl := Option.some.inj h
        exact Or.inr ⟨_, client, h₃, hs.handler, rfl⟩
      · obtain rfl := Option.some.inj h
        exact Or.inl (h₃.kept_late h₂.late)

end Crawler.Http
