/-
# Crawler.Http.Plain — connections without TLS

On such a connection the handlers do not change places. What is done while it is read touches the read
event and the client's record only (`ReadsPlain`), and the buffer is what one fragment makes of it,
however many calls of `recv` it took (`recvRun_plain`). The write handler sends the whole request and
asks for no more write events, or gives the client up (`httpWriteEventProcess_plain`).
-/
import Crawler.Http.Reports

namespace Crawler.Http

open Crawler.Lib Crawler.EventTimer Crawler.Connections

/-- `recv` and `send` of a connection without TLS. -/
def plainIo : ConnIo := { recv := some .unix, send := some .unix }

/-! ## Fragments -/

theorem resizeTempBufs_append (b : HttpBuf) (bytes : List UInt8) (moves : List Addr) :
    moves.foldl resizeTempBuf (b.append bytes) = (moves.foldl resizeTempBuf b).append bytes := by
  induction moves generalizing b with
  | nil => rfl
  | cons start moves ih => exact ih (resizeTempBuf b start)

/-- Two fragments are received like one. -/
theorem HttpBuf.recvd_recvd (b : HttpBuf) (frag frag' : Fragment) :
    (b.recvd frag).recvd frag' =
      b.recvd { moves := frag.moves ++ frag'.moves, bytes := frag.bytes ++ frag'.bytes } := by
  rw [recvd, recvd, recvd, resizeTempBufs_append, List.foldl_append, append, append, append,
    List.append_assoc]

theorem HttpClient.recvd_recvd (client : HttpClient) (frag frag' : Fragment) :
    (client.recvd frag).recvd frag' = client.recvd
      { moves := frag.moves ++ frag'.moves, bytes := frag.bytes ++ frag'.bytes } := by
  have hrecvd : (client.recv.map fun b => b.recvd frag).map (fun b => b.recvd frag') =
      client.recv.map fun b => b.recvd
        { moves := frag.moves ++ frag'.moves, bytes := frag.bytes ++ frag'.bytes } := by
    rw [Option.map_map]
    exact congrArg (client.recv.map ·) (funext fun b => b.recvd_recvd frag frag')
  rw [HttpClient.recvd, HttpClient.recvd, HttpClient.recvd, hrecvd]

/-- A fragment without bytes that moves nothing. -/
theorem HttpClient.recvd_nil (client : HttpClient) : client.recvd { bytes := [] } = client := by
  have hrecvd : (client.recv.map fun b => b.recvd { bytes := [] }) = client.recv := by
    cases client.recv with
    | none => rfl
    | some b =>
        rw [Option.map_some, HttpBuf.recvd, List.foldl_nil, HttpBuf.append, List.append_nil]
  rw [HttpClient.recvd, hrecvd]

/-! ## Receiving -/

/-- From `s₀` to `s` connection `c` is read: nothing but its read event and the record of its client has
changed. -/
structure ReadsPlain (c : Slot) (o : Addr) (s₀ s : EventLoop) : Prop where
  reading : Reading c o s₀ s
  io : s.io = s₀.io
  write : s.pool.events.ev (.write c) = s₀.pool.events.ev (.write c)

section

variable {c : Slot} {o : Addr} {s₀ s s' : EventLoop} {client : HttpClient}

theorem ReadsPlain.refl (hs : Owns s c o client) (hl : Late s.sockets c) : ReadsPlain c o s s :=
  ⟨⟨.refl c o s, hs.owned, hl⟩, rfl, rfl⟩

/-- The record may change, but for the handler. -/
theorem ReadsPlain.modify (h : ReadsPlain c o s₀ s) {f : HttpClient → HttpClient}
    (hf : ∀ client, s.clients o = some client → (f client).handler = client.handler) :
    ReadsPlain c o s₀ (s.modify o f) :=
  ⟨⟨h.reading.serving.modify hf, h.reading.owned, h.reading.late⟩, h.io, h.write⟩

theorem modify_clients_self {o : Addr} (h : s.clients o = some client) (f : HttpClient → HttpClient) :
    (s.modify o f).clients o = some (f client) := by
  simp [EventLoop.modify, World.modify, h]

/-- One call of `recv`. -/
theorem ReadsPlain.turn (h : ReadsPlain c o s₀ s) (hio : s₀.io c = plainIo)
    (hclient : s.clients o = some client) {b : HttpBuf} (hb : Receives o b s) {ctl : EpollCtl → Int}
    {turn : RecvTurn} {call : RecvCall} (hturn : recvTurn c o ctl turn s = some (call, s')) :
    ReadsPlain c o s₀ s' ∧ ∃ moves, s'.clients o = some (client.recvd { moves, bytes := call.bytes }) := by
  have hok := (hb.turn hturn).1
  have hrecv : client.recv = some b := by
    have hbuffer := hb.buffer
    rw [hclient, Option.map_some, Option.some.injEq] at hbuffer
    exact hbuffer
  rw [recvTurn, hclient] at hturn
  simp only [Option.bind_eq_bind, Option.bind_some, hrecv, Option.pure_def] at hturn
  obtain ⟨⟨n, bytes, k⟩, hcall, hturn⟩ := Option.bind_eq_some_iff.mp hturn
  cases hturn
  have hk : Receiving c o s.sockets k :=
    Receiving.recv ⟨.refl c s.sockets, h.reading.owned, h.reading.late⟩ hcall
  -- only the flags of the read event have changed
  have hplain : (s.sockets.io c).recv = some .unix := by
    show (s.io c).recv = some .unix
    rw [h.io, hio]
    rfl
  rw [Sockets.recv, hplain] at hcall
  have hread : (s.sockets.pool.connections c).read = some (.read c) := h.reading.owned.names.1
  simp only [hread, Option.bind_eq_bind, Option.bind_some, Option.pure_def] at hcall
  obtain ⟨⟨n', bytes', ev⟩, -, hcall⟩ := Option.bind_eq_some_iff.mp hcall
  cases hcall
  have hkept : ReadsPlain c o s₀ (s.withSockets (s.sockets.modifyEvent (.read c) fun _ => ev)) := by
    refine ⟨⟨h.reading.serving.withSockets hk.within, hk.owned, hk.late⟩, h.io, ?_⟩
    show (s.sockets.modifyEvent (.read c) fun _ => ev).pool.events.ev (.write c) = _
    rw [modifyEvent_ev, if_neg (by simp)]
    exact h.write
  refine ⟨hkept.modify fun _ _ => rfl, if b.bytes.length = b.cap then [turn.start] else [], ?_⟩
  have hmade : ∀ more, (makeRoom b turn.start).append more =
      b.recvd { moves := if b.bytes.length = b.cap then [turn.start] else [], bytes := more } := by
    intro more
    rw [makeRoom, HttpBuf.recvd]
    split <;> rfl
  rw [modify_clients_self (s := s.withSockets _) hclient, HttpClient.recvd, hrecv, Option.map_some,
    ← hmade]
  rcases hok.cases with ⟨hn, -, -⟩ | ⟨hn, hnil, -⟩
  · rw [if_pos hn]
  · rw [if_neg hn, show bytes' = [] from hnil, HttpBuf.append, List.append_nil]

/-- One run of the receive loop receives one fragment. By induction on the calls. -/
theorem ReadsPlain.run (h : ReadsPlain c o s₀ s) (hio : s₀.io c = plainIo)
    (hclient : s.clients o = some client) {b : HttpBuf} (hb : Receives o b s) (ctl : EpollCtl → Int)
    (turns : List RecvTurn) :
    ReadsPlain c o s₀ (recvRun c o ctl turns s).2 ∧ ∃ frag : Fragment,
      frag.bytes = (recvRun c o ctl turns s).1.flatMap RecvCall.bytes ∧
      (recvRun c o ctl turns s).2.clients o = some (client.recvd frag) := by
  induction turns generalizing s client b with
  | nil => exact ⟨h, { bytes := [] }, rfl, hclient.trans (congrArg some client.recvd_nil.symm)⟩
  | cons turn turns ih =>
      rw [recvRun]
      cases hturn : recvTurn c o ctl turn s with
      | none => exact ⟨h, { bytes := [] }, rfl, hclient.trans (congrArg some client.recvd_nil.symm)⟩
      | some r =>
          obtain ⟨call, s'⟩ := r
          obtain ⟨h', moves, hclient'⟩ := h.turn hio hclient hb hturn
          obtain ⟨-, b', hb', -⟩ := hb.turn hturn
          simp only
          split
          · exact ⟨h', _, (List.append_nil _).symm, hclient'⟩
          · obtain ⟨h'', frag, hfrag, hclient''⟩ := ih h' hclient' hb'
            refine ⟨h'', _, ?_, hclient''.trans (congrArg some (client.recvd_recvd _ frag))⟩
            rw [List.flatMap_cons, hfrag]

/-- Setting a timer changes its own event only, and not the handler. -/
theorem eventAddTimer_ev {now : UInt32} {p p' : Pool} {e : EventRef} {timer : UInt32}
    (h : p.withTimers (eventAddTimer now · e timer) = some p') :
    (∀ e', e' ≠ e → p'.events.ev e' = p.events.ev e') ∧
      (p'.events.ev e).handler = (p.events.ev e).handler := by
  obtain ⟨t, ht, rfl⟩ := Option.map_eq_some_iff.mp h
  show (∀ e', e' ≠ e → t.ev e' = _) ∧ (t.ev e).handler = _
  have harm : ∀ (t : Timers EventRef) key, (∀ e', e' ≠ e → (armTimer t e key).ev e' = t.ev e') ∧
      ((armTimer t e key).ev e).handler = (t.ev e).handler := fun t key =>
    ⟨fun e' he => by simp [armTimer, rbtreeInsert, he], by simp [armTimer, rbtreeInsert]⟩
  simp only [eventAddTimer] at ht
  split_ifs at ht
  · cases ht
    exact ⟨fun _ _ => rfl, rfl⟩
  · obtain ⟨t₁, ht₁, ht⟩ := Option.bind_eq_some_iff.mp ht
    obtain ⟨t₂, ht₂, ht₁⟩ := Option.bind_eq_some_iff.mp ht₁
    rw [rbtreeDelete] at ht₂
    split_ifs at ht₂
    cases ht
    cases ht₁
    cases ht₂
    refine ⟨fun e' he => ?_, ?_⟩
    · rw [(harm _ _).1 e' he, Timers.set_ev, if_neg he]
      exact Function.update_of_ne he _ _
    · rw [(harm _ _).2]
      simp
  · cases ht
    exact harm _ _

theorem ReadsPlain.resetTimer (h : ReadsPlain c o s₀ s) {resetTime : Bool} {now : UInt32}
    (hreset : resetTimer s (.read c) resetTime now = some s') :
    ReadsPlain c o s₀ s' ∧ s'.clients = s.clients := by
  have hreading := h.reading.resetTimer hreset
  rw [Http.resetTimer] at hreset
  split at hreset
  · obtain ⟨p, hp, rfl⟩ := Option.map_eq_some_iff.mp hreset
    exact ⟨⟨hreading, h.io, ((eventAddTimer_ev hp).1 _ (by simp)).trans h.write⟩, rfl⟩
  · cases hreset
    exact ⟨h, rfl⟩

end

/-! ## Sending -/

/-- A part that has not jumped. -/
theorem Flow.andThen_ok {f : Flow} {k : World → Flow} {w' : World}
    (h : f.andThen k = some (.ok w')) : ∃ w, f = some (.ok w) ∧ k w = some (.ok w') := by
  rcases f with _ | (w | w)
  · cases h
  · cases h
  · exact ⟨w, rfl, h⟩

theorem register_ok {w w' : World} {r : Option (Int × Pool)} (h : w.register r = some (.ok w')) :
    ∃ rc p, r = some (rc, p) ∧ ¬ rc < 0 ∧ w' = { w with pool := p } := by
  obtain ⟨⟨rc, p⟩, rfl, hr⟩ := Option.map_eq_some_iff.mp h
  simp only at hr
  split_ifs at hr with hrc
  cases hr
  exact ⟨rc, p, rfl, hrc, rfl⟩

/-- What `event_del` has taken out of epoll is not active. -/
theorem eventDel_inactive {p p' : Pool} {e : EventRef} {event : IoEvent} {flags : UInt32}
    {ctl : EpollCtl → Int} {rc : Int} (h : eventDel p e event flags ctl = some (rc, p'))
    (hrc : ¬ rc < 0) : (p'.events.ev e).active = false := by
  have hoff : ((p.setActive e false).events.ev e).active = false := by
    simp [Pool.setActive, Pool.setEvent]
  rw [eventDel] at h
  split at h
  · cases h
    exact hoff
  · obtain ⟨c, -, h⟩ := Option.bind_eq_some_iff.mp h
    obtain ⟨other, -, h⟩ := Option.bind_eq_some_iff.mp h
    generalize (if (p.events.ev other).active = true then _ else _ : EpollCtl) = req at h
    simp only at h
    split at h <;> cases h
    · exact absurd (by decide) hrc
    · exact hoff

/-- `event_add` changes the activity of its own event only. -/
theorem eventAdd_ev {p p' : Pool} {e : EventRef} {event : IoEvent} {flags : UInt32}
    {ctl : EpollCtl → Int} {rc : Int} (h : eventAdd p e event flags ctl = some (rc, p')) :
    (∀ e', e' ≠ e → p'.events.ev e' = p.events.ev e') ∧
      (p'.events.ev e).handler = (p.events.ev e).handler := by
  obtain ⟨c, -, h⟩ := Option.bind_eq_some_iff.mp h
  obtain ⟨other, -, h⟩ := Option.bind_eq_some_iff.mp h
  generalize (if (p.events.ev other).active = true then _ else _ : EpollCtl) = req at h
  simp only at h
  split at h <;> cases h
  · exact ⟨fun _ _ => rfl, rfl⟩
  · exact ⟨fun e' he => by simp [Pool.setActive, Pool.setEvent, he],
      by simp [Pool.setActive, Pool.setEvent]⟩

/-- At the end of the transmission no more write events are asked for, and the request counts as sent. -/
theorem transEnd_ok {w w' : World} (io : Slot → ConnIo) {c : Slot} {o : Addr} {env : WriteEnv}
    (hs : OwnedBy w.pool c o) (h : transEnd w c (.write c) o env = some (.ok w')) :
    (w'.pool.events.ev (.write c)).active = false ∧
      w'.clients = (w.modify o fun client => { client with status := .reqDone }).clients := by
  have hne : EventRef.write c ≠ .read c := by simp
  rw [transEnd] at h
  split at h
  · cases h
  · split at h
    case isFalse => cases h
    case isTrue =>
      -- the write event: its timer, then its registration
      obtain ⟨p₁, h₁, hw₁, -⟩ := Within.delTimerIfSet io hs (e := .write c) rfl
      rw [h₁] at h
      obtain ⟨w₁, hdone, h⟩ := Flow.andThen_ok h
      cases hdone
      obtain ⟨p₂, hw₂, -, h₂⟩ := Within.eventDelIfActive (w := { w with pool := p₁ }) io
        (hw₁.owned hs) (e := .write c) rfl .write env.ctl
      obtain ⟨w₂, hdel, h⟩ := Flow.andThen_ok h
      obtain rfl : w₂ = { w with pool := p₂ } := by
        rcases h₂ with h₂ | h₂
        · exact Except.ok.inj (Option.some.inj (hdel.symm.trans h₂))
        · cases hdel.symm.trans h₂
      have hoff : (p₂.events.ev (.write c)).active = false := by
        split at hdel
        case isTrue =>
          obtain ⟨rc, p, hp, hrc, hw⟩ := register_ok hdel
          rw [show p₂ = p from congrArg World.pool hw]
          exact eventDel_inactive hp hrc
        case isFalse hactive =>
          obtain rfl : p₁ = p₂ := congrArg World.pool (Except.ok.inj (Option.some.inj hdel))
          exact Bool.eq_false_iff.mpr hactive
      -- the read event: its handler, its registration, its timer
      have hread : (p₂.connections c).read = some (.read c) := ((hw₁.trans hw₂).owned hs).names.1
      simp only [hread] at h
      obtain ⟨w₄, hadd, h⟩ := Flow.andThen_ok h
      obtain ⟨w₅, htimer, h⟩ := Flow.andThen_ok h
      cases h
      obtain ⟨p₅, hp₅, hw₅⟩ := Option.map_eq_some_iff.mp htimer
      cases hw₅
      have hkept : (w₄.pool.events.ev (.write c)).active = false ∧ w₄.clients = w.clients := by
        split at hadd
        case isTrue =>
          cases hadd
          exact ⟨by simpa [Pool.setEvent] using hoff, rfl⟩
        case isFalse =>
          obtain ⟨rc, p, hp, -, rfl⟩ := register_ok hadd
          refine ⟨?_, rfl⟩
          rw [(eventAdd_ev hp).1 _ hne]
          simpa [Pool.setEvent] using hoff
      refine ⟨?_, ?_⟩
      · show (p₅.events.ev (.write c)).active = false
        rw [(eventAddTimer_ev hp₅).1 _ hne]
        exact hkept.1
      · show Function.update w₄.clients o _ = Function.update w.clients o _
        rw [hkept.2]

/-- Sending changes nothing of the record but the request. -/
theorem sendReq_record {w w' : World} {wev : EventRef} {o : Addr} {b : HttpBuf} {env : WriteEnv}
    {client : HttpClient} (hclient : w.clients o = some client)
    (h : sendReq w wev o b env = some (.ok w')) :
    ∃ req, w'.clients o = some { client with req := req } := by
  have hsame : ∃ req, w.clients o = some { client with req := req } := ⟨client.req, hclient⟩
  rw [sendReq] at h
  simp only at h
  split at h
  case isFalse =>
    cases h
    exact hsame
  case isTrue =>
    split at h
    · cases h
    case h_2 r _ =>
      have hsent : ∃ req, (if 0 < r.n then (w.leave wev r).accept o b r.n.toNat
          else w.leave wev r).clients o = some { client with req := req } := by
        split
        · refine ⟨some { b with pos := b.pos + r.n.toNat }, ?_⟩
          have hleft : (w.leave wev r).clients o = some client := hclient
          simp [World.accept, World.modify, hleft]
        · exact hsame
      generalize (if 0 < r.n then (w.leave wev r).accept o b r.n.toNat else w.leave wev r) = w₁
        at h hsent
      split_ifs at h
      · cases h
      · obtain ⟨p, -, hw⟩ := Option.map_eq_some_iff.mp h
        cases hw
        exact hsent
      · cases h
        exact hsent

theorem within_ok {s s' : EventLoop} {f : Flow} (h : s.within f = some (.ok s')) :
    ∃ w, f = some (.ok w) ∧ s' = { s with toWorld := w } := by
  rcases f with _ | (w | w)
  · cases h
  · cases h
  · cases h
    exact ⟨w, rfl, rfl⟩

theorem Turn.andThen_ok {f : Turn} {k : EventLoop → Turn} {s' : EventLoop}
    (h : f.andThen k = some (.ok s')) : ∃ s, f = some (.ok s) ∧ k s = some (.ok s') := by
  rcases f with _ | (s | s)
  · cases h
  · cases h
  · exact ⟨s, rfl, h⟩

section

variable {s s' : EventLoop} {c : Slot} {o : Addr} {client : HttpClient} {env : Env}

theorem plainIo_noneSaved (hio : s.io c = plainIo) : NoneSaved s.sockets c := by
  intro ssl hssl
  have hnone : (s.sockets.io c).ssl = none := congrArg ConnIo.ssl hio
  cases hnone.symm.trans hssl

/-- Where the two blocks of the write handler do not jump, the request has been sent. -/
theorem sendParts_plain (hs : Owns s c o client) (hio : s.io c = plainIo) {b : HttpBuf}
    (h : (s.sendReq c (.write c) o b env).andThen (fun s =>
      s.within (transEnd s.toWorld c (.write c) o env.toWriteEnv)) = some (.ok s')) :
    s'.io = s.io ∧ (s'.pool.events.ev (.write c)).active = false ∧
      ∃ req, s'.clients o = some { client with req := req, status := .reqDone } := by
  have hsend : (s.io c).send = some .unix := congrArg ConnIo.send hio
  obtain ⟨s₁, h₁, h₂⟩ := Turn.andThen_ok h
  obtain ⟨s₁', hserving, hs₁'⟩ := sendReq_cases hs (plainIo_noneSaved hio) h₁
  obtain rfl : s₁ = s₁' := by
    rcases hs₁' with hs₁' | ⟨hs₁', -⟩
    · cases hs₁'
    · exact Except.ok.inj hs₁'
  rw [sendReq_unix hsend hs.owned.names.2.1] at h₁
  obtain ⟨w, hw, rfl⟩ := within_ok h₁
  obtain ⟨w', hw', rfl⟩ := within_ok h₂
  obtain ⟨req, hrecord⟩ := sendReq_record hs.record hw
  have hown : OwnedBy w.pool c o := hserving.within.owned hs.owned
  obtain ⟨hoff, hclients⟩ := transEnd_ok s.io hown hw'
  refine ⟨rfl, hoff, req, ?_⟩
  show w'.clients o = _
  rw [hclients]
  simp [World.modify, hrecord]

/-- The write handler sends the whole request and then waits for the response, or it gives the client
up. -/
theorem httpWriteEventProcess_plain (hs : Owns s c o client) (hio : s.io c = plainIo)
    (hwrite : (s.pool.events.ev (.write c)).handler = some .httpWriteEventProcess)
    (h : s.httpWriteEventProcess (.write c) env = some s') :
    Gone c o s s' ∨ Serving c o s s' ∧ Late s'.sockets c ∧ s'.io c = plainIo ∧
      (s'.pool.events.ev (.write c)).active = false ∧
      ∃ req, s'.clients o = some { client with req := req, status := .reqDone } := by
  have hrefl := Serving.refl c o s
  by_cases htime : (s.pool.events.ev (.write c)).timedout = true
  · rw [httpWriteEventProcess_timedout hs htime] at h
    obtain rfl := Option.some.inj h
    exact .inl ⟨s, client, hrefl, hs.handler, rfl⟩
  · rw [EventLoop.httpWriteEventProcess, hs.owner rfl] at h
    simp only [Option.bind_eq_bind, Option.bind_some, Option.pure_def] at h
    rw [if_neg htime] at h
    generalize client.req.getD (packReqBuf env.buf client.url) = b at h
    -- the request is packed
    have h₁ := hrefl.modify (f := fun client => { client with req := some b }) fun _ _ => rfl
    have hs₁ : Owns (s.modify o fun client => { client with req := some b }) c o
        { client with req := some b } :=
      ⟨hs.owned, modify_clients_self hs.record _, hs.handler⟩
    have hsaved : NoneSaved s.sockets c := plainIo_noneSaved hio
    split at h
    case h_1 => cases h
    case h_2 s₂ hparts =>
      cases h
      obtain ⟨s₃, h₂, hr⟩ := sendParts_cases hs₁ rfl hwrite hsaved hparts
      obtain ⟨hio₂, hoff, req, hrecord⟩ := sendParts_plain hs₁ hio hparts
      rcases hr with hr | ⟨hr, hlate⟩
      · cases hr
      · cases hr
        exact .inr ⟨h₁.trans h₂, hlate, (congrFun hio₂ c).trans hio, hoff, req, hrecord⟩
    case h_3 s₂ hparts =>
      cases h
      obtain ⟨s₃, h₂, hr⟩ := sendParts_cases hs₁ rfl hwrite hsaved hparts
      rcases hr with hr | ⟨hr, -⟩
      · cases hr
        exact .inl ⟨_, client, h₁.trans h₂, hs.handler, rfl⟩
      · cases hr

end

/-! ## Connecting -/

/-- A client without TLS that has its connection: nothing has been sent or received. -/
structure Connected (s : EventLoop) (c : Slot) (o : Addr) (client : HttpClient) : Prop where
  link : (s.link o).connection = some c
  io : s.io c = plainIo
  write : (s.pool.events.ev (.write c)).handler = some .httpWriteEventProcess
  read : (s.pool.events.ev (.read c)).active = false
  record : s.clients o = some { client with status := .connDone }

section

variable {s s' : EventLoop} {c : Slot} {o : Addr} {client : HttpClient} {env : ConnEnv}

theorem connFailed_neg {rc : Int} (h : connFailed s c = some (rc, s')) : rc < 0 := by
  obtain ⟨p, -, hr⟩ := Option.map_eq_some_iff.mp h
  cases hr
  decide

/-- The end of `http_conn`. -/
theorem connDone_connected (hio : s.io c = plainIo)
    (hwrite : (s.pool.events.ev (.write c)).handler = some .httpWriteEventProcess)
    (hread : (s.pool.events.ev (.read c)).active = false) (hclient : s.clients o = some client) :
    Connected (connDone s o c).2 c o client where
  link := by simp [connDone, EventLoop.modify]
  io := hio
  write := hwrite
  read := hread
  record := by simp [connDone, EventLoop.modify, World.modify, hclient]

/-- A connection that has been filled in without TLS. -/
theorem connOpen_connected {rc : Int} (hwev : (s.pool.connections c).write = some (.write c))
    (hread : (s.pool.events.ev (.read c)).active = false) (hflag : (s.link o).sslFlag = false)
    (hclient : s.clients o = some client) (h : connOpen s o c env = some (rc, s')) (hrc : ¬ rc < 0) :
    Connected s' c o client := by
  have hne : EventRef.read c ≠ .write c := by simp
  rw [connOpen] at h
  split at h
  · exact absurd (connFailed_neg h) hrc
  · simp only [hwev, Option.bind_eq_bind, Option.bind_some] at h
    obtain ⟨⟨rc', p⟩, hadd, h⟩ := Option.bind_eq_some_iff.mp h
    simp only at h
    split at h
    · exact absurd (connFailed_neg h) hrc
    · have hio : (connSetup s o c (.write c)).io c = plainIo := by
        rw [connSetup_io, if_pos rfl]
        rfl
      have hclient' : (connSetup s o c (.write c)).clients o = some client := hclient
      have hwrite : (p.events.ev (.write c)).handler = some .httpWriteEventProcess := by
        rw [(eventAdd_ev hadd).2]
        simp [connSetup, EventLoop.withSockets, Pool.setConn, hflag]
      have hread' : (p.events.ev (.read c)).active = false := by
        rw [(eventAdd_ev hadd).1 _ hne]
        simpa [connSetup, EventLoop.withSockets, Pool.setConn] using hread
      rw [connConnect] at h
      split at h
      · exact absurd (connFailed_neg h) hrc
      · obtain ⟨s₁, htimer, h⟩ := Option.map_eq_some_iff.mp h
        obtain ⟨q, hq, rfl⟩ := Option.map_eq_some_iff.mp htimer
        cases h
        obtain ⟨hother, hhan⟩ := eventAddTimer_ev hq
        exact connDone_connected (s := { connSetup s o c (.write c) with pool := q }) hio
          (hhan.trans hwrite) (hother _ hne ▸ hread') hclient'
      · cases h
        exact connDone_connected hio hwrite hread' hclient'

theorem httpConn_connected {xs : List Slot} (hok : PoolOk s.pool xs)
    (hflag : (s.link o).sslFlag = false) (hclient : s.clients o = some client) {rc : Int}
    (h : httpConn s o env = some (rc, s')) (hrc : ¬ rc < 0) : ∃ c, Connected s' c o client := by
  rw [httpConn] at h
  split at h
  case isTrue =>
    cases h
    exact absurd (by decide) hrc
  case isFalse hfd =>
    rcases hok.getConnection (Int.not_lt.mp hfd) with ⟨-, hget⟩ | ⟨c, ys, rfl, hget, -, -⟩
    · rw [hget] at h
      cases h
      exact absurd (by decide) hrc
    · rw [hget] at h
      simp only [Option.bind_eq_bind, Option.bind_some] at h
      exact ⟨c, connOpen_connected (s := { s with
        pool := s.pool.handOut c (.read c) (.write c) env.fd
        io := Function.update s.io c {} }) (by simp) (by simp) hflag hclient h hrc⟩

/-- A client that is created for a page without TLS has been released when `http_client_create` returns,
or it has its connection. -/
theorem LoopInv.create_connected {guarded : Prop} (h : LoopInv guarded s) {url : HttpUrl}
    (hurl : url.schema ≠ lit "https") (env : ConnEnv) :
    s.brk < (httpClientCreate s url env).brk ∧
      ((httpClientCreate s url env).clients s.brk = none ∨
        ∃ c, Connected (httpClientCreate s url env) c s.brk (newClient url)) := by
  obtain ⟨xs, hok⟩ := h.ok.pool
  have hok' : PoolOk (addClient s url).pool xs := hok
  have hflag : ((addClient s url).link s.brk).sslFlag = false := by simp [addClient, hurl]
  have hclient : (addClient s url).clients s.brk = some (newClient url) := by simp [addClient]
  rw [httpClientCreate]
  rcases httpConn_cases hok' s.brk env with
    ⟨-, s', hconn, hfail⟩ | ⟨-, c, ys, s', -, hconn, hgive⟩
  · have hrec : s'.clients s.brk = some (newClient url) := by
      rw [hfail.clients, hclient]
    have hlink : (s'.link s.brk).connection = none := by
      rw [hfail.link]
      simp [addClient]
    obtain ⟨calls, hcall⟩ := callHandler_bare hrec hlink
    simp only [hconn, Option.map_some, EventLoop.settle, Option.getD_some]
    rw [if_pos (by decide), hcall]
    refine ⟨?_, .inl (Function.update_self ..)⟩
    show s.brk < s'.brk
    rw [hfail.brk]
    exact Nat.lt_succ_self _
  · simp only [hconn, Option.map_some, EventLoop.settle, Option.getD_some]
    rw [if_neg (by decide)]
    refine ⟨?_, .inr (httpConn_connected hok' hflag hclient hconn (by decide))⟩
    rw [hgive.brk]
    exact Nat.lt_succ_self _

end

end Crawler.Http
