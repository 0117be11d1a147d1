/-
# Crawler.Http.Transmit — runs of write events

What a run of write events puts on the wire. While a request is being sent the bytes accepted are the
first `pos` bytes of the buffer (`Sending`); when the client is done they are all of it (`Sent`). One
write event leads from the first to the second when its send takes all that is left. Otherwise it
ends in the label `failed:`, which calls the client's handler, or does nothing when there is none.
-/
import Crawler.Http.Write

namespace Crawler.Http

open Crawler.Lib Crawler.EventTimer Crawler.Connections

/-- The bytes offered to the next send. -/
def offered (client : HttpClient) : Nat :=
  match client.req with
  | some b => b.bytes.length - b.pos
  | none => reqBufLen client.url

/-- Client `o` on connection `c` waits for write events, with the first `pos` bytes of its request
sent. -/
structure Sending (s : World) (c : Slot) (o : Addr) (client : HttpClient) : Prop where
  owned : OwnedBy s.pool c o
  record : s.clients o = some client
  status : client.status = .connDone
  active : (s.pool.events.ev (.write c)).active = true
  handler : (s.pool.events.ev (.write c)).handler = some .httpWriteEventProcess
  inTime : (s.pool.events.ev (.write c)).timedout = false
  calls : s.calls = []
  unpacked : client.req = none → s.wire = []
  packed : ∀ b, client.req = some b → b.pos ≤ b.bytes.length ∧ s.wire = b.bytes.take b.pos

/-- Client `o` has sent its request and no longer waits for write events. -/
structure Sent (s : World) (c : Slot) (o : Addr) (client : HttpClient) : Prop where
  owned : OwnedBy s.pool c o
  record : s.clients o = some client
  quiet : (s.pool.events.ev (.write c)).active = false
  calls : s.calls = []
  wire : ∃ b, client.req = some b ∧ s.wire = b.bytes

theorem packReqBuf_length (start : Addr) (url : HttpUrl) :
    (packReqBuf start url).bytes.length = reqBufLen url := by
  simp [packReqBuf]

/-- The request as the handler finds or packs it. -/
theorem Sending.request {s : World} {c : Slot} {o : Addr} {client : HttpClient}
    (h : Sending s c o client) (buf : Addr) :
    ∃ b, client.req.getD (packReqBuf buf client.url) = b ∧ b.pos + offered client = b.bytes.length ∧
      s.wire = b.bytes.take b.pos := by
  rw [offered]
  cases hreq : client.req with
  | none =>
      refine ⟨_, rfl, ?_, ?_⟩
      · rw [Option.getD_none, packReqBuf_length, show (packReqBuf buf client.url).pos = 0 from rfl,
          Nat.zero_add]
      · rw [h.unpacked hreq]
        rfl
  | some b =>
      obtain ⟨hle, hwire⟩ := h.packed b hreq
      refine ⟨b, rfl, ?_, hwire⟩
      simp only
      omega

/-- `send` takes the next `n` bytes of the request. -/
theorem take_append_slice (b : HttpBuf) (n : Nat) :
    b.bytes.take b.pos ++ b.slice b.pos n = b.bytes.take (b.pos + n) := by
  rw [HttpBuf.slice, List.take_add]

theorem modify_clients {s : World} {o : Addr} {client : HttpClient} (h : s.clients o = some client)
    (f : HttpClient → HttpClient) : (s.modify o f).clients o = some (f client) := by
  simp [World.modify, h]

/-- The world when the handler starts: the write event is ready, the request is packed. -/
def World.started (s : World) (c : Slot) (o : Addr) (b : HttpBuf) : World :=
  let ev := s.pool.events.ev (.write c)
  { s with pool := s.pool.setEvent (.write c) { ev with ready := true } }.modify o
    fun client => { client with req := some b }

/-- The end of the handler. -/
def finish (f : Flow) (o : Addr) (client : HttpClient) : Option World :=
  match f with
  | none => none
  | some (.ok s) => some s
  | some (.error s) => some (s.callHandler o client)

/-- The handler of a connection whose timer has not run out. -/
theorem httpWriteEventProcess_eq {s : World} {c : Slot} {o : Addr} {client : HttpClient}
    {b : HttpBuf} {env : WriteEnv} {wev : EventRef} (hdata : (s.pool.events.ev wev).data = some c)
    (howner : (s.pool.connections c).data = .owner o) (hrec : s.clients o = some client)
    (htime : (s.pool.events.ev wev).timedout = false)
    (hb : client.req.getD (packReqBuf env.buf client.url) = b) :
    httpWriteEventProcess s wev env =
      finish ((sendReq (s.modify o fun client => { client with req := some b }) wev o b env).andThen
        fun s => transEnd s c wev o env) o client := by
  rw [httpWriteEventProcess]
  simp only [hdata, howner, hrec, htime, hb, Option.bind_eq_bind, Option.bind_some,
    Bool.false_eq_true, if_false]
  rfl

section Started

variable {s : World} {c : Slot} {o : Addr} {client : HttpClient} (h : Sending s c o client)

include h

/-- A write event of a client that is sending reaches the handler's two blocks. -/
theorem Sending.eventProcessWrite_eq {b : HttpBuf} {env : WriteEnv}
    (hb : client.req.getD (packReqBuf env.buf client.url) = b) :
    eventProcessWrite s c env =
      finish ((sendReq (s.started c o b) (.write c) o b env).andThen
        fun s => transEnd s c (.write c) o env) o client := by
  obtain ⟨xs, hok⟩ := h.owned.ok
  have hwrite := (hok.names c h.owned.held.1).2
  have hdata : (s.pool.events.ev (.write c)).data = some c := hok.owned (.write c) h.owned.held
  rw [eventProcessWrite, if_neg h.owned.held.2, hwrite]
  simp only [Option.bind_eq_bind, Option.bind_some]
  rw [if_pos h.active]
  split
  case h_1 =>
    refine httpWriteEventProcess_eq ?_ h.owned.owner h.record ?_ hb
    · simpa [Pool.setEvent] using hdata
    · simpa [Pool.setEvent] using h.inTime
  case h_2 hne => exact absurd h.handler hne

/-- The world in which the handler starts: the client is sending the request it has packed. -/
theorem Sending.started {b : HttpBuf} (hpos : b.pos ≤ b.bytes.length)
    (hwire : s.wire = b.bytes.take b.pos) :
    Sending (s.started c o b) c o { client with req := some b } ∧
      ((s.started c o b).pool.events.ev (.write c)).ready = true := by
  refine ⟨⟨h.owned.setEvent rfl rfl rfl, modify_clients h.record _, h.status, ?_, ?_, ?_, h.calls,
    by simp, ?_⟩, ?_⟩
  · simpa [World.started, World.modify, Pool.setEvent] using h.active
  · simpa [World.started, World.modify, Pool.setEvent] using h.handler
  · simpa [World.started, World.modify, Pool.setEvent] using h.inTime
  · rintro _ ⟨⟩
    exact ⟨hpos, hwire⟩
  · simp [World.started, World.modify, Pool.setEvent]

end Started

/-! ## The send -/

/-- The block, once `unix_send` has returned `r`. -/
theorem sendReq_eq {s : World} {c : Slot} {o : Addr} {b : HttpBuf} {env : WriteEnv} {n : Int}
    (hsize : b.bytes.length - b.pos ≠ 0) (hready : (s.pool.events.ev (.write c)).ready = true)
    (hn : sendValue env.sys = some n) :
    ∃ r : SendResult, r.n = n ∧ sendReq s (.write c) o b env =
      if n = -1 then some (.error (s.leave (.write c) r))
      else
        let s := if 0 < n then (s.leave (.write c) r).accept o b n.toNat else s.leave (.write c) r
        if n = -eagain then s.withTimers (eventAddTimer env.now · (.write c) timeoutSend)
        else some (.ok s) := by
  have hval := unixSend_n (b.bytes.length - b.pos)
    ⟨0, (s.pool.events.ev (.write c)).ready, (s.pool.events.ev (.write c)).error⟩ env.sys
  rw [hn, Option.map_eq_some_iff] at hval
  obtain ⟨r, hr, rfl⟩ := hval
  refine ⟨r, rfl, ?_⟩
  rw [sendReq]
  simp only [if_pos (And.intro hsize hready), hr]

section Step

variable {s : World} {c : Slot} {o : Addr} {client : HttpClient} (h : Sending s c o client)
  {b : HttpBuf} {env : WriteEnv}

include h

/-- Nothing was accepted: the write event's timer is set, and the client goes on sending. -/
theorem Sending.sendReq_again (hready : (s.pool.events.ev (.write c)).ready = true)
    (hsize : b.bytes.length - b.pos ≠ 0) (hn : sendValue env.sys = some (-eagain)) :
    ∃ s', sendReq s (.write c) o b env = some (.ok s') ∧ Sending s' c o client := by
  obtain ⟨r, -, hsend⟩ := sendReq_eq (o := o) hsize hready hn
  have hown : OwnedBy (s.leave (.write c) r).pool c o := h.owned.setEvent rfl rfl rfl
  obtain ⟨p, hadd, hownp, -, hact, hhan, htime⟩ :=
    hown.addTimer (e := .write c) rfl env.now timeoutSend
  refine ⟨{ s.leave (.write c) r with pool := p }, ?_, hownp, h.record, h.status, hact.trans ?_,
    hhan.trans ?_, htime.trans ?_, h.calls, h.unpacked, h.packed⟩
  · have hone : -eagain ≠ -1 := by decide
    have hlow : ¬ 0 < -eagain := by decide
    rw [hsend]
    simp only [if_neg hone, if_neg hlow, if_true]
    exact hadd
  · simpa [World.leave, Pool.setEvent] using h.active
  · simpa [World.leave, Pool.setEvent] using h.handler
  · simpa [World.leave, Pool.setEvent] using h.inTime

variable (hreq : client.req = some b)

include hreq

/-- `n` bytes were accepted: the client goes on sending from `pos + n`. -/
theorem Sending.sendReq_count (hready : (s.pool.events.ev (.write c)).ready = true) {n : Nat}
    (hn : sendValue env.sys = some (Int.ofNat n)) (hlow : 0 < n) (hle : b.pos + n ≤ b.bytes.length) :
    ∃ s', sendReq s (.write c) o b env = some (.ok s') ∧
      Sending s' c o { client with req := some { b with pos := b.pos + n } } := by
  obtain ⟨r, -, hsend⟩ := sendReq_eq (o := o) (b := b) (by omega) hready hn
  have hone : Int.ofNat n ≠ -1 := by simp
  have hpos : 0 < Int.ofNat n := by simpa using hlow
  have hagain : Int.ofNat n ≠ -eagain := by rw [eagain, Int.ofNat_eq_natCast]; omega
  refine ⟨(s.leave (.write c) r).accept o b n, ?_, h.owned.setEvent rfl rfl rfl,
    modify_clients (s := s.leave (.write c) r) h.record _, h.status, ?_, ?_, ?_, h.calls, by simp, ?_⟩
  · rw [hsend]
    simp only [if_neg hone, if_pos hpos, if_neg hagain]
    rfl
  · simpa [World.accept, World.leave, World.modify, Pool.setEvent] using h.active
  · simpa [World.accept, World.leave, World.modify, Pool.setEvent] using h.handler
  · simpa [World.accept, World.leave, World.modify, Pool.setEvent] using h.inTime
  · rintro _ ⟨⟩
    refine ⟨hle, ?_⟩
    show s.wire ++ b.slice b.pos n = b.bytes.take (b.pos + n)
    rw [(h.packed b hreq).2, take_append_slice]

/-- With everything sent the client is done. -/
theorem Sending.transEnd_sent (hend : b.pos = b.bytes.length) (hctl : ∀ req, env.ctl req = 0)
    (client₀ : HttpClient) :
    ∃ s' client', finish (transEnd s c (.write c) o env) o client₀ = some s' ∧
      Sent s' c o client' := by
  obtain ⟨p, hdone, hownp, hoff⟩ := transEnd_done h.owned h.record hreq hend hctl
  have hwire : s.wire = b.bytes := by
    rw [(h.packed b hreq).2, hend, List.take_length]
  refine ⟨_, { client with status := .reqDone }, by rw [hdone]; rfl, ?_⟩
  exact ⟨hownp, modify_clients (s := { s with pool := p }) h.record _, hoff, h.calls, b, hreq, hwire⟩

/-- Short of the end the handler runs on into `failed:`. The client's handler is called; a client
without one goes on sending. -/
theorem Sending.transEnd_short (hlt : b.pos < b.bytes.length) (env : WriteEnv) {client₀ : HttpClient}
    (hsame : client.handler = client₀.handler) :
    ∃ s' client', finish (transEnd s c (.write c) o env) o client₀ = some s' ∧
      if client₀.handler = none then Sending s' c o client' ∧ client'.handler = none
      else s'.calls = [o] := by
  have hfail : transEnd s c (.write c) o env = some (.error s) := by
    rw [transEnd, h.record]
    simp only [Option.bind_some, hreq, if_neg hlt.ne]
  rw [hfail]
  by_cases hnull : client₀.handler = none
  · refine ⟨s, client, by simp [finish, World.callHandler, hnull], ?_⟩
    rw [if_pos hnull]
    exact ⟨h, hsame.trans hnull⟩
  · obtain ⟨f, hf⟩ := Option.ne_none_iff_exists'.mp hnull
    refine ⟨{ s with calls := s.calls ++ [o] }, client, by simp [finish, World.callHandler, hf], ?_⟩
    rw [if_neg hnull]
    simp [h.calls]

end Step

/-! ## One write event -/

/-- What one write event does to a client that is sending, `epoll_ctl` succeeding. -/
theorem Sending.dispatch {s : World} {c : Slot} {o : Addr} {client : HttpClient} {env : WriteEnv}
    (h : Sending s c o client) (hctl : ∀ req, env.ctl req = 0)
    (hr : offered client ≠ 0 → sendValue env.sys = some (-eagain) ∨
      ∃ n, sendValue env.sys = some (Int.ofNat n) ∧ 0 < n ∧ n ≤ offered client) :
    ∃ s' client', eventProcessWrite s c env = some s' ∧
      if offered client = 0 ∨ sendValue env.sys = some (Int.ofNat (offered client)) then
        Sent s' c o client'
      else if client.handler = none then Sending s' c o client' ∧ client'.handler = none
      else s'.calls = [o] := by
  obtain ⟨b, hb, hpos, hwire⟩ := h.request env.buf
  obtain ⟨h₁, hready⟩ := h.started (b := b) (by omega) hwire
  rw [h.eventProcessWrite_eq hb]
  have hsame : client.handler = client.handler := rfl
  by_cases hzero : offered client = 0
  · -- nothing is left to send: the block is skipped
    have hskip : sendReq (s.started c o b) (.write c) o b env = some (.ok (s.started c o b)) := by
      rw [sendReq, if_neg fun hand => hand.1 (by omega)]
    obtain ⟨s', client', hs', hsent⟩ := h₁.transEnd_sent rfl (by omega) hctl client
    refine ⟨s', client', by rw [hskip]; exact hs', ?_⟩
    rw [if_pos (Or.inl hzero)]
    exact hsent
  · rcases hr hzero with hagain | ⟨n, hn, hlow, hhigh⟩
    · obtain ⟨s₂, hsend, h₂⟩ := h₁.sendReq_again (b := b) hready (by omega) hagain
      obtain ⟨s', client', hs', hcase⟩ := h₂.transEnd_short rfl (by omega) env hsame
      refine ⟨s', client', by rw [hsend]; exact hs', ?_⟩
      rw [if_neg (by rw [hagain, eagain, Option.some.injEq, Int.ofNat_eq_natCast]; omega)]
      exact hcase
    · obtain ⟨s₂, hsend, h₂⟩ := h₁.sendReq_count rfl hready hn hlow (by omega)
      by_cases hall : n = offered client
      · have hend : b.pos + n = b.bytes.length := by omega
        obtain ⟨s', client', hs', hsent⟩ := h₂.transEnd_sent rfl hend hctl client
        refine ⟨s', client', by rw [hsend]; exact hs', ?_⟩
        rw [if_pos (Or.inr (by rw [hn, hall]))]
        exact hsent
      · have hlt : b.pos + n < b.bytes.length := by omega
        obtain ⟨s', client', hs', hcase⟩ := h₂.transEnd_short rfl hlt env hsame
        have hpart : ¬ (offered client = 0 ∨
            sendValue env.sys = some (Int.ofNat (offered client))) := by
          rintro (h0 | hn')
          · exact hzero h0
          · exact hall (Int.ofNat.inj (Option.some.inj (hn.symm.trans hn')))
        refine ⟨s', client', by rw [hsend]; exact hs', ?_⟩
        rw [if_neg hpart]
        exact hcase

/-- A send that leaves a byte behind makes the handler give the client up. -/
theorem Sending.dispatch_part {s : World} {c : Slot} {o : Addr} {client : HttpClient} {env : WriteEnv}
    (h : Sending s c o client) (hctl : ∀ req, env.ctl req = 0) {n : Nat}
    (hn : sendValue env.sys = some (Int.ofNat n)) (hlow : 0 < n) (hlt : n < offered client)
    (hhandler : client.handler ≠ none) :
    ∃ s', eventProcessWrite s c env = some s' ∧ s'.calls = [o] := by
  obtain ⟨s', client', hs', hcase⟩ := h.dispatch hctl fun _ => Or.inr ⟨n, hn, hlow, hlt.le⟩
  have hpart : ¬ (offered client = 0 ∨ sendValue env.sys = some (Int.ofNat (offered client))) := by
    rintro (h0 | h1)
    · omega
    · have heq : n = offered client := Int.ofNat.inj (Option.some.inj (hn.symm.trans h1))
      omega
  rw [if_neg hpart, if_neg hhandler] at hcase
  exact ⟨s', hs', hcase⟩

/-! ## Runs of write events -/

/-- The write events of connection `c`, held by client `o`, with `epoll_ctl` succeeding and each send
taking some of the bytes offered or none for now. A handler that was called has released the client,
so nothing is dispatched after it. -/
def transmission (c : Slot) (o : Addr) : System World WriteEnv where
  init := fun s => ∃ client, Sending s c o client ∧ s.wire = [] ∧
    ∀ b, client.req = some b → b.pos = 0
  enabled := fun s env => s.calls = [] ∧ (∀ req, env.ctl req = 0) ∧
    ∀ client, s.clients o = some client → offered client ≠ 0 →
      sendValue env.sys = some (-eagain) ∨
        ∃ n, sendValue env.sys = some (Int.ofNat n) ∧ 0 < n ∧ n ≤ offered client
  next := fun s env => eventProcessWrite s c env

/-- The handler was not called, and a client that is done has put its whole request on the wire. -/
def Transmits (o : Addr) (s : World) : Prop :=
  s.calls = [] ∧ ∀ client, s.clients o = some client → client.status = .reqDone →
    ∃ b, client.req = some b ∧ s.wire = b.bytes

/-- The write event is not waited for, or its client has no handler, or nothing is left to send, or
the send takes all that is left. -/
def TakesAll (c : Slot) (o : Addr) (s : World) (env : WriteEnv) : Prop :=
  (s.pool.events.ev (.write c)).active = true → ∀ client, s.clients o = some client →
    client.handler = none ∨ offered client = 0 ∨
      sendValue env.sys = some (Int.ofNat (offered client))

/-- The invariant of the runs in which every send takes all that is left. -/
def Underway (c : Slot) (o : Addr) (s : World) : Prop :=
  ∃ client, Sending s c o client ∨ Sent s c o client

theorem Underway.transmits {c : Slot} {o : Addr} {s : World} (h : Underway c o s) :
    Transmits o s := by
  obtain ⟨client, hsend | hsent⟩ := h
  · refine ⟨hsend.calls, fun client' hrec hdone => ?_⟩
    obtain rfl := Option.some.inj (hsend.record.symm.trans hrec)
    rw [hsend.status] at hdone
    cases hdone
  · refine ⟨hsent.calls, fun client' hrec _ => ?_⟩
    obtain rfl := Option.some.inj (hsent.record.symm.trans hrec)
    exact hsent.wire

/-- A client that is done is not disturbed by further write events. -/
theorem Sent.dispatch {s : World} {c : Slot} {o : Addr} {client : HttpClient} (h : Sent s c o client)
    (env : WriteEnv) : eventProcessWrite s c env = some s := by
  obtain ⟨xs, hok⟩ := h.owned.ok
  have hwrite := (hok.names c h.owned.held.1).2
  rw [eventProcessWrite, if_neg h.owned.held.2, hwrite]
  simp [h.quiet]

/-- In a run of write events the handler is never called and a client that is done has sent exactly
its request, exactly when every send takes all that is left or the client has no handler. -/
theorem everyState_transmits_iff {c : Slot} {o : Addr} {s₀ u : World} {envs : List WriteEnv}
    (hinit : (transmission c o).init s₀) (hrun : Run (transmission c o) s₀ envs u) :
    EveryState (transmission c o) s₀ envs (Transmits o) ↔
      EveryStep (transmission c o) s₀ envs (TakesAll c o) := by
  apply everyState_iff hrun (P := Underway c o)
  · obtain ⟨client, hsend, -⟩ := hinit
    exact ⟨client, Or.inl hsend⟩
  · exact fun s h => h.transmits
  · rintro s env s' ⟨client, hsend | hsent⟩ hall ⟨-, hctl, hr⟩ hn
    · obtain ⟨s₁, client', hs₁, hcase⟩ := hsend.dispatch hctl (hr client hsend.record)
      obtain rfl := Option.some.inj (hs₁.symm.trans hn)
      split at hcase
      case isTrue => exact ⟨client', Or.inr hcase⟩
      case isFalse hshort =>
        rcases hall hsend.active client hsend.record with hnull | hdone
        · rw [if_pos hnull] at hcase
          exact ⟨client', Or.inl hcase.1⟩
        · exact absurd hdone hshort
    · obtain rfl := Option.some.inj ((hsent.dispatch env).symm.trans hn)
      exact ⟨client, Or.inr hsent⟩
  · rintro s env s' ⟨client, hsend | hsent⟩ hnot ⟨-, hctl, hr⟩ hn htr
    · obtain ⟨s₁, client', hs₁, hcase⟩ := hsend.dispatch hctl (hr client hsend.record)
      obtain rfl := Option.some.inj (hs₁.symm.trans hn)
      apply hnot
      intro _ client₁ hrec
      obtain rfl := Option.some.inj (hsend.record.symm.trans hrec)
      by_contra hno
      obtain ⟨hhandler, hrest⟩ := not_or.mp hno
      rw [if_neg hrest, if_neg hhandler, htr.1] at hcase
      cases hcase
    · exact hnot fun hact => by rw [hsent.quiet] at hact; cases hact

/-- The client of a page `/` on host `a`. -/
def sampleClient : HttpClient := { url := ⟨80, lit "http", lit "a", lit "/"⟩, handler := some 0 }

/-- One of two slots, taken, registered for writing, and given to client 7. -/
theorem sampleRun : ∃ p, Run (pool 2) twoSlots
      [.getConnection 5, .eventAdd (.write 0) .write clearEvent (fun _ => 0), .setOwner 0 7] p ∧
    Held p 0 ∧ (p.connections 0).data = .owner 7 ∧ (p.events.ev (.write 0)).active = true ∧
    (p.events.ev (.write 0)).timedout = false := by
  have hget : Run (pool 2) twoSlots [.getConnection 5] _ :=
    .snoc .nil (show (0 : Int) ≤ 5 by decide) rfl
  have hadd : Run (pool 2) twoSlots
      [.getConnection 5, .eventAdd (.write 0) .write clearEvent (fun _ => 0)] _ :=
    .snoc hget ⟨by decide, by decide⟩ rfl
  have howner : Run (pool 2) twoSlots
      [.getConnection 5, .eventAdd (.write 0) .write clearEvent (fun _ => 0), .setOwner 0 7] _ :=
    .snoc hadd ⟨by decide, by decide⟩ rfl
  exact ⟨_, howner, ⟨by decide, by decide⟩, rfl, rfl, rfl⟩

/-- A connected client that has sent nothing. -/
theorem exists_connected : ∃ s, (transmission 0 7).init s ∧ s.clients 7 = some sampleClient := by
  obtain ⟨p, hrun, hheld, howner, hact, htime⟩ := sampleRun
  obtain ⟨xs, hok⟩ := reachable_ok (n := 2) ⟨twoSlots, _, rfl, hrun⟩
  have hown : OwnedBy p 0 7 := ⟨⟨xs, hok⟩, hheld, howner⟩
  let s : World :=
    { pool := p.setEvent (.write 0)
        { p.events.ev (.write 0) with handler := some .httpWriteEventProcess }
      clients := fun _ => some sampleClient
      wire := []
      calls := [] }
  refine ⟨s, ⟨sampleClient, ?_, rfl, by simp [sampleClient]⟩, rfl⟩
  refine ⟨hown.setEvent rfl rfl rfl, rfl, rfl, ?_, ?_, ?_, rfl, fun _ => rfl, by simp [sampleClient]⟩
  · simpa [s, Pool.setEvent] using hact
  · simp [s, Pool.setEvent]
  · simpa [s, Pool.setEvent] using htime

/-- A send that takes one byte. -/
def oneByte : WriteEnv := { sys := [.intr, .count 1], ctl := fun _ => 0, now := 0, buf := 0 }

theorem oneByte_run : ∃ s u, (transmission 0 7).init s ∧ s.clients 7 = some sampleClient ∧
    Run (transmission 0 7) s [oneByte] u ∧ u.calls = [7] := by
  obtain ⟨s, ⟨client, hsend, hwire, hpos⟩, hrec⟩ := exists_connected
  obtain rfl := Option.some.inj (hsend.record.symm.trans hrec)
  have hoff : 1 < offered sampleClient := by
    have hline : line0.length = 15 := by decide
    change 1 < reqBufLen sampleClient.url
    rw [reqBufLen]
    omega
  have hone : sendValue oneByte.sys = some (Int.ofNat 1) := rfl
  obtain ⟨u, hu, hcalls⟩ := hsend.dispatch_part (fun _ => rfl) hone (by decide) hoff
    (by simp [sampleClient])
  refine ⟨s, u, ⟨sampleClient, hsend, hwire, hpos⟩, hrec, ?_, hcalls⟩
  have hen : (transmission 0 7).enabled s oneByte := by
    refine ⟨hsend.calls, fun _ => rfl, fun client hrec' _ => ?_⟩
    obtain rfl := Option.some.inj (hrec.symm.trans hrec')
    exact Or.inr ⟨1, rfl, by decide, hoff.le⟩
  have hnone : Run (transmission 0 7) s [] s := .nil
  exact hnone.snoc hen hu

theorem everyState_transmits_iff_oneByte : ∃ s, s.clients 7 = some sampleClient ∧
    (EveryState (transmission 0 7) s [oneByte] (Transmits 7) ↔
      EveryStep (transmission 0 7) s [oneByte] (TakesAll 0 7)) := by
  obtain ⟨s, u, hinit, hrec, hrun, -⟩ := oneByte_run
  exact ⟨s, hrec, everyState_transmits_iff hinit hrun⟩

/-- After a send of one byte the handler is called. -/
theorem oneByte_not_transmits :
    ¬ ∀ c o s₀ envs u, (transmission c o).init s₀ → Run (transmission c o) s₀ envs u →
      EveryState (transmission c o) s₀ envs (Transmits o) := by
  intro hclaim
  obtain ⟨s, u, hinit, -, hrun, hcalls⟩ := oneByte_run
  have htr := hclaim 0 7 s [oneByte] u hinit hrun [oneByte] u (List.prefix_refl _) hrun
  rw [htr.1] at hcalls
  cases hcalls

end Crawler.Http
