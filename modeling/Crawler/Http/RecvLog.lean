/-
# Crawler.Http.RecvLog — the receive buffer is a log of bytes

Only `http_read_event_process` writes to `client->recv`, and what it writes is appended. The parsers
move the position and nothing else, and the handlers of the write event leave the buffer alone. So in
every run the buffer holds all the bytes that its client has received, in order, and every offset that
the parsers have recorded names the same bytes ever after (`recvLog`). The runs of the event loop are
runs of each of its clients (`exists_clientRun`).
-/
import Crawler.Http.RecvLoop
import Crawler.Http.Runs

namespace Crawler.Http

open Crawler.Lib Crawler.EventTimer Crawler.Connections

/-! ## What a handler does to the clients -/

/-- A handler of client `o` does nothing to the others. -/
structure Handles (o : Addr) (s s' : EventLoop) : Prop where
  others : ∀ o', o' ≠ o → s'.clients o' = s.clients o'
  brk : s'.brk = s.brk

/-- The buffer, wherever its position is. -/
def HttpClient.stored (client : HttpClient) : Option HttpBuf :=
  client.recv.map fun b => { b with pos := 0 }

theorem Parses.stored {client client' : HttpClient} (h : Parses client client') :
    client'.stored = client.stored := by
  obtain ⟨move, hrecv⟩ := h.recv
  rw [HttpClient.stored, HttpClient.stored, hrecv, Option.map_map]
  rfl

/-- The client itself, if it stays, keeps its buffer but for the position. -/
structure Keeps (o : Addr) (s s' : EventLoop) : Prop extends Handles o s s' where
  stored : ∀ client', s'.clients o = some client' →
    ∃ client, s.clients o = some client ∧ client'.stored = client.stored

theorem Handles.trans {o : Addr} {s₀ s₁ s₂ : EventLoop} (h : Handles o s₀ s₁) (h' : Handles o s₁ s₂) :
    Handles o s₀ s₂ where
  others o' ho' := (h'.others o' ho').trans (h.others o' ho')
  brk := h'.brk.trans h.brk

theorem Keeps.trans {o : Addr} {s₀ s₁ s₂ : EventLoop} (h : Keeps o s₀ s₁) (h' : Keeps o s₁ s₂) :
    Keeps o s₀ s₂ where
  toHandles := h.toHandles.trans h'.toHandles
  stored client₂ hclient₂ := by
    obtain ⟨client₁, hclient₁, hstored₁⟩ := h'.stored client₂ hclient₂
    obtain ⟨client₀, hclient₀, hstored₀⟩ := h.stored client₁ hclient₁
    exact ⟨client₀, hclient₀, hstored₁.trans hstored₀⟩

theorem Keeps.of_eq {o : Addr} {s s' : EventLoop} (hclients : s'.clients = s.clients)
    (hbrk : s'.brk = s.brk) : Keeps o s s' where
  others o' _ := by rw [hclients]
  brk := hbrk
  stored client' hclient' := ⟨client', hclients ▸ hclient', rfl⟩

/-- Changing the record. -/
theorem Handles.modify (s : EventLoop) (o : Addr) (f : HttpClient → HttpClient) :
    Handles o s (s.modify o f) where
  others _ ho' := Function.update_of_ne ho' _ _
  brk := rfl

/-- Changing the record, but not the buffer. -/
theorem Keeps.modify (s : EventLoop) (o : Addr) {f : HttpClient → HttpClient}
    (hf : ∀ client, s.clients o = some client → (f client).stored = client.stored) :
    Keeps o s (s.modify o f) where
  toHandles := .modify s o f
  stored client' hclient' := by
    have hmap : Function.update s.clients o ((s.clients o).map f) o = some client' := hclient'
    rw [Function.update_self] at hmap
    obtain ⟨client, hclient, rfl⟩ := Option.map_eq_some_iff.mp hmap
    exact ⟨client, hclient, hf client hclient⟩

/-- A record that is gone has no buffer. -/
theorem Keeps.remove {o : Addr} {s s' : EventLoop}
    (hclients : s'.clients = Function.update s.clients o none) (hbrk : s'.brk = s.brk) :
    Keeps o s s' where
  others o' ho' := by rw [hclients, Function.update_of_ne ho']
  brk := hbrk
  stored client' hclient' := by
    rw [hclients, Function.update_self] at hclient'
    cases hclient'

theorem httpClientRetrieve_keeps (s : EventLoop) (o : Addr) : Keeps o s (httpClientRetrieve s o) := by
  unfold httpClientRetrieve
  simp only
  split
  · exact .of_eq rfl rfl
  · split
    · exact .remove rfl rfl
    · split
      · exact .of_eq rfl rfl
      · exact .remove rfl rfl

theorem callHandler_keeps (s : EventLoop) (o : Addr) (client : HttpClient) :
    Keeps o s (s.callHandler o client) := by
  have hcall : Keeps o s { s with toWorld := s.toWorld.callHandler o client } := by
    refine .of_eq ?_ rfl
    rw [World.callHandler]
    split <;> rfl
  rw [EventLoop.callHandler]
  simp only
  split
  · rw [parseHtml]
    refine Keeps.trans ?_ (httpClientRetrieve_keeps _ o)
    split
    · exact hcall.trans (.modify _ o fun _ _ => rfl)
    · exact hcall
  · exact hcall

theorem timer_keeps (o : Addr) {s s' : EventLoop} {op : Timers EventRef → Option (Timers EventRef)}
    (h : s.timer op = some s') : Keeps o s s' := by
  obtain ⟨p, -, rfl⟩ := Option.map_eq_some_iff.mp h
  exact .of_eq rfl rfl

/-! ## The handlers that keep the buffer -/

/-- However a part of a handler ends, `P` holds of the state it leaves. -/
def Outcomes {σ : Type} (P : σ → Prop) (f : Option (Except σ σ)) : Prop :=
  ∀ s, f = some (.ok s) ∨ f = some (.error s) → P s

theorem Outcomes.none {σ : Type} {P : σ → Prop} : Outcomes P Option.none := by
  rintro s (h | h) <;> cases h

theorem Outcomes.ok {σ : Type} {P : σ → Prop} {s : σ} (h : P s) : Outcomes P (some (.ok s)) := by
  rintro s' (h' | h') <;> cases h'
  exact h

theorem Outcomes.error {σ : Type} {P : σ → Prop} {s : σ} (h : P s) : Outcomes P (some (.error s)) := by
  rintro s' (h' | h') <;> cases h'
  exact h

theorem Outcomes.andThen {P : World → Prop} {f : Flow} {k : World → Flow} (hf : Outcomes P f)
    (hk : ∀ w, P w → Outcomes P (k w)) : Outcomes P (f.andThen k) := by
  cases f with
  | none => exact .none
  | some r =>
      cases r with
      | error w => exact .error (hf w (.inr rfl))
      | ok w => exact hk w (hf w (.inl rfl))

theorem Outcomes.turn {P : EventLoop → Prop} {f : Turn} {k : EventLoop → Turn} (hf : Outcomes P f)
    (hk : ∀ s, P s → Outcomes P (k s)) : Outcomes P (f.andThen k) := by
  cases f with
  | none => exact .none
  | some r =>
      cases r with
      | error s => exact .error (hf s (.inr rfl))
      | ok s => exact hk s (hf s (.inl rfl))

theorem Outcomes.within {P : EventLoop → Prop} {s : EventLoop} {f : Flow}
    (hf : Outcomes (fun w => P { s with toWorld := w }) f) : Outcomes P (s.within f) := by
  cases f with
  | none => exact .none
  | some r =>
      cases r with
      | error w => exact .error (hf w (.inr rfl))
      | ok w => exact .ok (hf w (.inl rfl))

section

variable {o : Addr} {s₀ s : EventLoop} {w : World} (h : Keeps o s₀ { s with toWorld := w })

include h

theorem Keeps.withTimers (op : Timers EventRef → Option (Timers EventRef)) :
    Outcomes (fun w => Keeps o s₀ { s with toWorld := w }) (w.withTimers op) := by
  rw [World.withTimers]
  cases w.pool.withTimers op with
  | none => exact .none
  | some p => exact .ok (h.trans (.of_eq rfl rfl))

theorem Keeps.register (r : Option (Int × Pool)) :
    Outcomes (fun w => Keeps o s₀ { s with toWorld := w }) (w.register r) := by
  cases r with
  | none => exact .none
  | some r =>
      obtain ⟨rc, p⟩ := r
      have hpool : Keeps o s₀ { s with toWorld := { w with pool := p } } := h.trans (.of_eq rfl rfl)
      rw [World.register, Option.map_some]
      simp only
      by_cases hrc : rc < 0
      · rw [if_pos hrc]
        exact .error hpool
      · rw [if_neg hrc]
        exact .ok hpool

theorem Keeps.transEnd (c : Slot) (wev : EventRef) (env : WriteEnv) :
    Outcomes (fun w => Keeps o s₀ { s with toWorld := w }) (transEnd w c wev o env) := by
  rw [Http.transEnd]
  split
  · exact .none
  · split
    case isFalse => exact .error h
    case isTrue =>
      -- the timer, the registration, the read event's handler, its registration, its timer
      refine .andThen ?_ fun w₁ h₁ => .andThen ?_ fun w₂ h₂ => ?_
      · split
        · exact h.withTimers _
        · exact .ok h
      · split
        · exact h₁.register _
        · exact .ok h₁
      · split
        · exact .none
        case h_2 rev _ =>
          have h₃ : Keeps o s₀ { s with toWorld := { w₂ with
              pool := w₂.pool.setEvent rev
                { w₂.pool.events.ev rev with handler := some .httpReadEventProcess } } } :=
            h₂.trans (.of_eq rfl rfl)
          refine .andThen ?_ fun w₄ h₄ => .andThen (h₄.withTimers _) fun w₅ h₅ => .ok ?_
          · split
            · exact .ok h₃
            · exact h₃.register _
          · exact h₅.trans (.modify { s with toWorld := w₅ } o fun _ _ => rfl)

end

theorem sendReq_keeps (s : EventLoop) (c : Slot) (wev : EventRef) (o : Addr) (b : HttpBuf) (env : Env) :
    Outcomes (Keeps o s) (s.sendReq c wev o b env) := by
  rw [EventLoop.sendReq]
  simp only
  split
  case isFalse => exact .ok (.of_eq rfl rfl)
  case isTrue =>
    split
    · exact .none
    case h_2 n k hsend =>
      have hk : Keeps o s (s.withSockets k) := .of_eq rfl rfl
      by_cases hone : n = -1
      · rw [if_pos hone]
        exact .error hk
      · rw [if_neg hone]
        have hacc : Keeps o s (if 0 < n then
            { s.withSockets k with toWorld := (s.withSockets k).toWorld.accept o b n.toNat }
            else s.withSockets k) := by
          split
          · refine (hk.trans (.modify _ o (f := fun client =>
              { client with req := some { b with pos := b.pos + n.toNat } }) fun _ _ => rfl)).trans ?_
            exact .of_eq rfl rfl
          · exact hk
        split
        · rintro s' (hs' | hs')
          · obtain ⟨s₁, htimer, hs₁⟩ := Option.map_eq_some_iff.mp hs'
            cases hs₁
            exact hacc.trans (timer_keeps o htimer)
          · obtain ⟨s₁, -, hs₁⟩ := Option.map_eq_some_iff.mp hs'
            cases hs₁
        · exact .ok hacc

/-- The write handler. -/
theorem httpWriteEventProcess_keeps {s s' : EventLoop} {wev : EventRef} {env : Env}
    (h : s.httpWriteEventProcess wev env = some s') :
    ∃ c o client, s.owner wev = some (c, o, client) ∧ Keeps o s s' := by
  obtain ⟨⟨c, o, client⟩, howner, h⟩ := Option.bind_eq_some_iff.mp h
  refine ⟨c, o, client, howner, ?_⟩
  simp only at h
  split at h
  · cases h
    exact callHandler_keeps s o client
  · generalize client.req.getD (packReqBuf env.buf client.url) = b at h
    have hreq : Keeps o s (s.modify o fun client => { client with req := some b }) :=
      .modify s o fun _ _ => rfl
    generalize (s.modify o fun client => { client with req := some b }) = s₁ at h hreq
    have hparts : Outcomes (Keeps o s) ((s₁.sendReq c wev o b env).andThen fun s =>
        s.within (transEnd s.toWorld c wev o env.toWriteEnv)) := by
      refine .turn (fun s₂ hs₂ => hreq.trans (sendReq_keeps s₁ c wev o b env s₂ hs₂)) fun s₂ h₂ => ?_
      exact .within (h₂.transEnd c wev env.toWriteEnv)
    split at h
    · cases h
    case h_2 s₂ hs₂ =>
      cases h
      exact hparts _ (.inl hs₂)
    case h_3 s₂ hs₂ =>
      cases h
      exact (hparts _ (.inr hs₂)).trans (callHandler_keeps s₂ o client)

/-- The handshake's handler. -/
theorem sslHandshakeHandler_keeps {s s' : EventLoop} {ev : EventRef} {env : Env}
    (h : sslHandshakeHandler s ev env = some s') :
    ∃ c o client, s.owner ev = some (c, o, client) ∧ Keeps o s s' := by
  obtain ⟨⟨c, o, client⟩, howner, h⟩ := Option.bind_eq_some_iff.mp h
  refine ⟨c, o, client, howner, ?_⟩
  simp only at h
  split at h
  · cases h
    exact callHandler_keeps s o client
  · obtain ⟨⟨rc, k⟩, -, h⟩ := Option.bind_eq_some_iff.mp h
    obtain ⟨wev, -, h⟩ := Option.bind_eq_some_iff.mp h
    have hk : ∀ k, Keeps o s (s.withSockets k) := fun k => .of_eq rfl rfl
    simp only at h
    split_ifs at h
    · exact (hk k).trans (timer_keeps o h)
    · cases h
      exact (hk k).trans (callHandler_keeps _ o client)
    · obtain ⟨ssl, -, h⟩ := Option.bind_eq_some_iff.mp h
      split_ifs at h
      · exact (hk _).trans (timer_keeps o h)
      · cases h
        exact hk k

/-! ## The read handler -/

/-- The buffer that `http_read_event_process` receives into. -/
def openBuf (client : HttpClient) (env : Env) : HttpBuf :=
  client.recv.getD (createTempBuf env.buf baseRange)

/-- The loop with this buffer in place. -/
def openRecv (s : EventLoop) (o : Addr) (client : HttpClient) (env : Env) : EventLoop :=
  s.modify o fun x => { x with recv := some (openBuf client env) }

/-- The calls of `c->recv` that `http_read_event_process` makes, and the state behind the last one. -/
def readRun (s : EventLoop) (e : EventRef) (c : Slot) (o : Addr) (client : HttpClient) (env : Env) :
    List RecvCall × EventLoop :=
  if (s.pool.events.ev e).timedout then ([], s)
  else recvRun c o env.ctl env.turns (openRecv s o client env)

/-- The receive loop of client `o` does nothing to the others. By induction on the calls. -/
theorem recvRun_handles (c : Slot) (o : Addr) (ctl : EpollCtl → Int) (turns : List RecvTurn)
    (s : EventLoop) : Handles o s (recvRun c o ctl turns s).2 := by
  induction turns generalizing s with
  | nil => exact ⟨fun _ _ => rfl, rfl⟩
  | cons turn turns ih =>
      rw [recvRun]
      cases hturn : recvTurn c o ctl turn s with
      | none => exact ⟨fun _ _ => rfl, rfl⟩
      | some r =>
          obtain ⟨call, s'⟩ := r
          have h : Handles o s s' := by
            obtain ⟨client, -, hturn⟩ := Option.bind_eq_some_iff.mp hturn
            obtain ⟨b, -, hturn⟩ := Option.bind_eq_some_iff.mp hturn
            obtain ⟨⟨n, bytes, k⟩, -, hturn⟩ := Option.bind_eq_some_iff.mp hturn
            cases hturn
            have hk : Handles o s (s.withSockets k) := ⟨fun _ _ => rfl, rfl⟩
            exact hk.trans (.modify _ o _)
          simp only
          split
          · exact h
          · exact h.trans (ih s')

theorem resetTimer_keeps (o : Addr) {s s' : EventLoop} {rev : EventRef} {resetTime : Bool}
    {now : UInt32} (h : resetTimer s rev resetTime now = some s') : Keeps o s s' := by
  rw [resetTimer] at h
  split at h
  · exact timer_keeps o h
  · cases h
    exact .of_eq rfl rfl

/-- Behind the receive loop `http_read_event_process` keeps the buffer. -/
theorem httpReadEventProcess_keeps {inflateGzip : HttpBuf → HttpBuf → Int × HttpBuf}
    {s s' : EventLoop} {e : EventRef} {env : Env} {c : Slot} {o : Addr} {client : HttpClient}
    (howner : s.owner e = some (c, o, client))
    (h : httpReadEventProcess inflateGzip s e env = some s') :
    Keeps o (readRun s e c o client env).2 s' := by
  rw [httpReadEventProcess, howner] at h
  simp only [Option.bind_eq_bind, Option.bind_some, Option.pure_def] at h
  rw [readRun]
  split at h
  case isTrue htime =>
    cases h
    rw [if_pos htime]
    exact callHandler_keeps s o client
  case isFalse htime =>
    rw [if_neg htime]
    obtain ⟨r, hloop, h⟩ := Option.bind_eq_some_iff.mp h
    have hend : loopEnd false (recvRun c o env.ctl env.turns (openRecv s o client env)) = some r :=
      (recvLoop_eq env.turns (openRecv s o client env) false).symm.trans hloop
    generalize recvRun c o env.ctl env.turns (openRecv s o client env) = run at hend ⊢
    rcases loopEnd_cases hend with rfl | ⟨resetTime, rfl⟩
    · -- `c->recv` has failed: the client is given up
      cases h
      exact callHandler_keeps run.2 o client
    · obtain ⟨s₁, hreset, h⟩ := Option.bind_eq_some_iff.mp h
      have h₁ := resetTimer_keeps o hreset
      obtain ⟨response, hrec, h⟩ := Option.bind_eq_some_iff.mp h
      obtain ⟨⟨rc, response'⟩, hprocess, h⟩ := Option.bind_eq_some_iff.mp h
      have h₂ : Keeps o run.2 (s₁.modify o fun _ => response') := by
        refine h₁.trans (.modify s₁ o fun client' hclient' => ?_)
        obtain rfl := Option.some.inj (hrec.symm.trans hclient')
        exact (httpProcessResponse_parses hprocess).stored
      simp only at h
      split_ifs at h <;> cases h
      · exact h₂.trans (callHandler_keeps _ o client)
      · exact h₂.trans (callHandler_keeps _ o client)
      · exact h₂

/-! ## The log -/

/-- The buffer of the client holds `bytes`; without a buffer there are none. -/
def HttpClient.Logs (client : HttpClient) (bytes : List UInt8) : Prop :=
  match client.recv with
  | none => bytes = []
  | some b => b.bytes = bytes ∧ Roomy b

theorem HttpClient.Logs.congr {client client' : HttpClient} {bytes : List UInt8}
    (h : client.Logs bytes) (hstored : client'.stored = client.stored) : client'.Logs bytes := by
  rw [HttpClient.Logs] at h ⊢
  rw [HttpClient.stored, HttpClient.stored] at hstored
  cases hrecv : client.recv with
  | none =>
      rw [hrecv, Option.map_none, Option.map_eq_none_iff] at hstored
      rw [hrecv] at h
      rw [hstored]
      exact h
  | some b =>
      rw [hrecv, Option.map_some, Option.map_eq_some_iff] at hstored
      obtain ⟨b', hrecv', hb⟩ := hstored
      rw [hrecv] at h
      rw [hrecv']
      simp only [HttpBuf.mk.injEq] at hb
      obtain ⟨-, hbytes, hcap, -, hexcess⟩ := hb
      exact ⟨hbytes.trans h.1, hcap ▸ h.2.cap, by rw [hbytes, hcap]; exact h.2.le,
        hexcess.trans h.2.excess⟩

/-- Where there is a client `o`, its buffer holds `bytes`. -/
def Logged (o : Addr) (bytes : List UInt8) (s : EventLoop) : Prop :=
  ∀ client, s.clients o = some client → client.Logs bytes

theorem Logged.congr {o : Addr} {bytes : List UInt8} {s s' : EventLoop} (h : Logged o bytes s)
    (hclients : s'.clients o = s.clients o) : Logged o bytes s' :=
  fun client hclient => h client (hclients ▸ hclient)

/-- A handler that keeps the buffers keeps the log, whoever its client is. -/
theorem Logged.keeps {o o' : Addr} {bytes : List UInt8} {s s' : EventLoop} (h : Logged o bytes s)
    (hkeeps : Keeps o' s s') : Logged o bytes s' := by
  by_cases ho : o = o'
  · subst ho
    intro client' hclient'
    obtain ⟨client, hclient, hstored⟩ := hkeeps.stored client' hclient'
    exact (h client hclient).congr hstored
  · exact h.congr (hkeeps.others o ho)

/-- The record that an event leads to. -/
theorem EventLoop.clients_of_owner {s : EventLoop} {e : EventRef} {c : Slot} {o : Addr}
    {client : HttpClient} (h : s.owner e = some (c, o, client)) : s.clients o = some client := by
  obtain ⟨c', -, h⟩ := Option.bind_eq_some_iff.mp h
  split at h
  · obtain ⟨client', hclient, hpair⟩ := Option.map_eq_some_iff.mp h
    cases hpair
    exact hclient
  · cases h

theorem createTempBuf_roomy (start : Addr) : Roomy (createTempBuf start baseRange) where
  cap := by
    show 0 < baseRange
    decide
  le := Nat.zero_le _
  excess := rfl

/-- The buffer that is received into holds what has been received. -/
theorem HttpClient.Logs.openBuf {client : HttpClient} {bytes : List UInt8} (h : client.Logs bytes)
    (env : Env) : (openBuf client env).bytes = bytes ∧ Roomy (openBuf client env) := by
  rw [HttpClient.Logs] at h
  rw [Http.openBuf]
  cases hrecv : client.recv with
  | none =>
      rw [hrecv] at h
      exact ⟨h.symm, createTempBuf_roomy env.buf⟩
  | some b =>
      rw [hrecv] at h
      exact h

theorem Logged.openRecv {o : Addr} {bytes : List UInt8} {s : EventLoop} (h : Logged o bytes s)
    {client : HttpClient} (hclient : s.clients o = some client) (env : Env) :
    Receives o (openBuf client env) (openRecv s o client env) where
  buffer := by
    rw [Http.openRecv, EventLoop.modify, World.modify]
    simp only [Function.update_self, hclient, Option.map_some]
  roomy := ((h client hclient).openBuf env).2

theorem Receives.logged {o : Addr} {b : HttpBuf} {s : EventLoop} (h : Receives o b s) :
    Logged o b.bytes s := by
  intro client hclient
  have hbuffer := h.buffer
  rw [hclient, Option.map_some, Option.some.injEq] at hbuffer
  rw [HttpClient.Logs, hbuffer]
  exact ⟨rfl, h.roomy⟩

/-- Whatever state a client is in, this is what its receive loop does: it ends with the first call that
returns `-EAGAIN` or 0, and what its calls receive is appended to the buffer, whose position keeps its
offset. -/
structure ReadsOn (c : Slot) (o : Addr) (client : HttpClient) (env : Env) (s : EventLoop) : Prop where
  ends : recvLoop c o env.ctl env.turns (openRecv s o client env) false =
    loopEnd false (recvRun c o env.ctl env.turns (openRecv s o client env))
  calls : CallsOk (recvRun c o env.ctl env.turns (openRecv s o client env)).1
  appends : ∃ b, Receives o b (recvRun c o env.ctl env.turns (openRecv s o client env)).2 ∧
    Extends (openBuf client env) b
      ((recvRun c o env.ctl env.turns (openRecv s o client env)).1.flatMap RecvCall.bytes)

theorem Logged.readsOn {o : Addr} {bytes : List UInt8} {s : EventLoop} (h : Logged o bytes s)
    {client : HttpClient} (hclient : s.clients o = some client) (c : Slot) (env : Env) :
    ReadsOn c o client env s := by
  have hopen := h.openRecv hclient env
  exact ⟨recvLoop_eq _ _ _, (hopen.run env.turns).1, (hopen.run env.turns).2⟩

/-- One call of `http_read_event_process`: the log grows by what has been received. -/
theorem Logged.read {inflateGzip : HttpBuf → HttpBuf → Int × HttpBuf} {o : Addr} {bytes : List UInt8}
    {s s' : EventLoop} (h : Logged o bytes s) {e : EventRef} {env : Env} {c : Slot}
    {client : HttpClient} (howner : s.owner e = some (c, o, client))
    (hread : httpReadEventProcess inflateGzip s e env = some s') :
    (∀ call ∈ (readRun s e c o client env).1, call.Ok) ∧
      Logged o (bytes ++ (readRun s e c o client env).1.flatMap RecvCall.bytes) s' := by
  have hkeeps := httpReadEventProcess_keeps howner hread
  have hclient := EventLoop.clients_of_owner howner
  rw [readRun] at hkeeps ⊢
  split
  case isTrue htime =>
    rw [if_pos htime] at hkeeps
    refine ⟨fun _ hmem => absurd hmem List.not_mem_nil, ?_⟩
    rw [List.flatMap_nil, List.append_nil]
    exact h.keeps hkeeps
  case isFalse htime =>
    rw [if_neg htime] at hkeeps
    have hreads := h.readsOn hclient c env
    obtain ⟨b, hreceives, hext⟩ := hreads.appends
    refine ⟨hreads.calls.ok, ?_⟩
    rw [← ((h client hclient).openBuf env).1, ← hext.bytes]
    exact hreceives.logged.keeps hkeeps

/-! ## Runs -/

/-- What happens to client `o` from `s₀` on, in any order: its read handler is called, with `calls` the
calls of `c->recv` so far, or another handler, its own or another client's, or the client is not
concerned. -/
inductive ClientRun (inflateGzip : HttpBuf → HttpBuf → Int × HttpBuf) (o : Addr) (s₀ : EventLoop) :
    List RecvCall → EventLoop → Prop
  | start : ClientRun inflateGzip o s₀ [] s₀
  | read {calls : List RecvCall} {s s' : EventLoop} {e : EventRef} {env : Env} {c : Slot}
      {client : HttpClient} : ClientRun inflateGzip o s₀ calls s →
      s.owner e = some (c, o, client) → httpReadEventProcess inflateGzip s e env = some s' →
      ClientRun inflateGzip o s₀ (calls ++ (readRun s e c o client env).1) s'
  | write {calls : List RecvCall} {s s' : EventLoop} {e : EventRef} {env : Env} :
      ClientRun inflateGzip o s₀ calls s → s.httpWriteEventProcess e env = some s' →
      ClientRun inflateGzip o s₀ calls s'
  | handshake {calls : List RecvCall} {s s' : EventLoop} {e : EventRef} {env : Env} :
      ClientRun inflateGzip o s₀ calls s → sslHandshakeHandler s e env = some s' →
      ClientRun inflateGzip o s₀ calls s'
  | elsewhere {calls : List RecvCall} {s s' : EventLoop} :
      ClientRun inflateGzip o s₀ calls s → s'.clients o = s.clients o →
      ClientRun inflateGzip o s₀ calls s'

/-- The log over a run, by induction on the steps. -/
theorem ClientRun.logged {inflateGzip : HttpBuf → HttpBuf → Int × HttpBuf} {o : Addr}
    {s₀ s : EventLoop} {calls : List RecvCall} (hrun : ClientRun inflateGzip o s₀ calls s)
    {bytes : List UInt8} (h₀ : Logged o bytes s₀) :
    (∀ call ∈ calls, call.Ok) ∧ Logged o (bytes ++ calls.flatMap RecvCall.bytes) s := by
  induction hrun with
  | start =>
      rw [List.flatMap_nil, List.append_nil]
      exact ⟨fun _ hmem => absurd hmem List.not_mem_nil, h₀⟩
  | read _ howner hread ih =>
      obtain ⟨hok, hlogged⟩ := ih
      obtain ⟨hok', hlogged'⟩ := hlogged.read howner hread
      rw [List.flatMap_append, ← List.append_assoc]
      exact ⟨List.forall_mem_append.mpr ⟨hok, hok'⟩, hlogged'⟩
  | write _ hwrite ih =>
      obtain ⟨c', o', client', -, hkeeps⟩ := httpWriteEventProcess_keeps hwrite
      exact ⟨ih.1, ih.2.keeps hkeeps⟩
  | handshake _ hshake ih =>
      obtain ⟨c', o', client', -, hkeeps⟩ := sslHandshakeHandler_keeps hshake
      exact ⟨ih.1, ih.2.keeps hkeeps⟩
  | elsewhere _ hclients ih => exact ⟨ih.1, ih.2.congr hclients⟩

/-- The buffer is a log that only grows at its end. In every run of a client that starts with nothing
received, `c->recv` is always asked for at least one byte and the buffer holds what it has received, in
order; each receive loop ends with the first `-EAGAIN` or 0, and leaves the offset of the position; and
whatever slice of the buffer is recorded at some time, it holds the same bytes at every later time. -/
theorem recvLog {inflateGzip : HttpBuf → HttpBuf → Int × HttpBuf} {o : Addr} {s₀ s : EventLoop}
    {calls : List RecvCall} (h₀ : ∀ client, s₀.clients o = some client → client.recv = none)
    (hrun : ClientRun inflateGzip o s₀ calls s) :
    (∀ call ∈ calls, call.Ok) ∧
      Logged o (calls.flatMap RecvCall.bytes) s ∧
      (∀ c client env, s.clients o = some client → ReadsOn c o client env s) ∧
      ∀ later s', ClientRun inflateGzip o s later s' →
        ∀ client b client' b', s.clients o = some client → client.recv = some b →
          s'.clients o = some client' → client'.recv = some b' →
            ∀ off n, off + n ≤ b.bytes.length → b'.slice off n = b.slice off n := by
  have hnew : Logged o [] s₀ := fun client hclient => by
    rw [HttpClient.Logs, h₀ client hclient]
  obtain ⟨hok, hlogged⟩ := hrun.logged hnew
  rw [List.nil_append] at hlogged
  refine ⟨hok, hlogged, fun c client env hclient => hlogged.readsOn hclient c env, ?_⟩
  intro later s' hlater client b client' b' hclient hb hclient' hb' off n hle
  have h := hlogged client hclient
  have h' := (hlater.logged hlogged).2 client' hclient'
  rw [HttpClient.Logs, hb] at h
  rw [HttpClient.Logs, hb'] at h'
  refine HttpBuf.slice_of_prefix ?_ hle
  rw [h.1, h'.1]
  exact List.prefix_append _ _

/-- A client that has sent its request. -/
def requestDone : EventLoop :=
  (oneClient .inProgress).modify 1 fun client => { client with status := .reqDone }

/-- What fills the buffer that is opened: a head, the size of a chunk of 8192 bytes, and 4043 of these. -/
def firstBuffer : List UInt8 :=
  lit "HTTP/1.1 200 OK\r\nTransfer-Encoding: chunked\r\n\r\n2000\r\n" ++ List.replicate 4043 120

/-- They arrive and two bytes more, and no more for the time being. -/
def fillsBuffer : Env :=
  { silentEnv with turns :=
      [{ sys := [.bytes firstBuffer] }, { sys := [.bytes [120, 120]] }, { sys := [.again] }] }

/-- Two bytes arrive. -/
def twoBytes : Env := { silentEnv with turns := [{ sys := [.bytes [72, 105]] }, { sys := [.again] }] }

/-- The loop when the chunk has been skipped. -/
def skipping : EventLoop :=
  (httpReadEventProcess noInflate requestDone (.read 0) fillsBuffer).getD requestDone

/-- The calls that have led to it. -/
def skippingCalls : List RecvCall :=
  (readRun requestDone (.read 0) 0 1 { newClient samplePage with status := .reqDone } fillsBuffer).1

theorem skipping_reads :
    (httpReadEventProcess noInflate requestDone (.read 0) fillsBuffer).isSome = true ∧
      skippingCalls.map RecvCall.size = [4096, 4096, 4094] ∧
      (skippingCalls.map RecvCall.bytes == [firstBuffer, [120, 120], []]) = true ∧
      (skipping.owner (.read 0)).map (fun x => (x.1, x.2.1)) = some (0, 1) ∧
      (skipping.clients 1).map (fun client => (readRun skipping (.read 0) 0 1 client twoBytes).1) =
        some [⟨4094, 2, [72, 105]⟩, ⟨4092, -11, []⟩] ∧
      (httpReadEventProcess noInflate skipping (.read 0) twoBytes).map (fun s =>
        (s.clients 1).map fun client => client.recv.map fun b => (b.cap, b.pos)) =
          some (some (some (8192, 8247))) := by
  decide +kernel

/-- Over a resize, and with the position 4147 bytes beyond the last one received, the buffer holds what has
come. -/
theorem recvLog_skipping : ∃ calls s client b, ClientRun noInflate 1 requestDone calls s ∧
    calls.map RecvCall.size = [4096, 4096, 4094, 4094, 4092] ∧ s.clients 1 = some client ∧
      client.recv = some b ∧ b.bytes = firstBuffer ++ lit "xxHi" ∧ b.cap = 8192 ∧ b.pos = 8247 := by
  obtain ⟨hsome, hsizes, hbytes, howner₂, hcalls₂, hend⟩ := skipping_reads
  have hread₁ : httpReadEventProcess noInflate requestDone (.read 0) fillsBuffer = some skipping := by
    obtain ⟨s, hs⟩ := Option.isSome_iff_exists.mp hsome
    rw [skipping, hs, Option.getD_some]
  have howner₁ : requestDone.owner (.read 0) =
      some (0, 1, { newClient samplePage with status := .reqDone }) := by decide
  obtain ⟨⟨c, o, client⟩, howner₂, hco⟩ := Option.map_eq_some_iff.mp howner₂
  obtain ⟨rfl, rfl⟩ := Prod.mk.inj hco
  rw [EventLoop.clients_of_owner howner₂, Option.map_some, Option.some.injEq] at hcalls₂
  obtain ⟨s, hread₂, hlast⟩ := Option.map_eq_some_iff.mp hend
  obtain ⟨client', hclient', hbuf⟩ := Option.map_eq_some_iff.mp hlast
  obtain ⟨b, hb, hcap⟩ := Option.map_eq_some_iff.mp hbuf
  have hrun : ClientRun noInflate 1 requestDone ([] ++ skippingCalls ++ _) s :=
    .read (.read .start howner₁ hread₁) howner₂ hread₂
  rw [List.nil_append, hcalls₂] at hrun
  have h₀ : ∀ client, requestDone.clients 1 = some client → client.recv = none := by
    intro client hclient
    have hrecv : (requestDone.clients 1).map HttpClient.recv = some none := by decide
    rw [hclient, Option.map_some, Option.some.injEq] at hrecv
    exact hrecv
  have hlogs := (recvLog h₀ hrun).2.1 client' hclient'
  rw [HttpClient.Logs, hb] at hlogs
  refine ⟨_, s, client', b, hrun, ?_, hclient', hb, ?_, (Prod.mk.inj hcap).1, (Prod.mk.inj hcap).2⟩
  · rw [List.map_append, hsizes]
    rfl
  · have htail : lit "xxHi" = [120, 120, 72, 105] := by decide
    rw [hlogs.1, htail, List.flatMap_append, List.flatMap_def, eq_of_beq hbytes]
    simp

/-! ## The event loop -/

/-- From `s` to `s'` client `o` has taken some run. -/
structure Follows (inflateGzip : HttpBuf → HttpBuf → Int × HttpBuf) (o : Addr) (s s' : EventLoop) :
    Prop where
  run : ∃ calls, ClientRun inflateGzip o s calls s'
  brk : s.brk ≤ s'.brk

section

variable {inflateGzip : HttpBuf → HttpBuf → Int × HttpBuf} {o : Addr}

theorem ClientRun.trans {s₀ s s' : EventLoop} {calls later : List RecvCall}
    (h : ClientRun inflateGzip o s₀ calls s) (h' : ClientRun inflateGzip o s later s') :
    ClientRun inflateGzip o s₀ (calls ++ later) s' := by
  induction h' with
  | start =>
      rw [List.append_nil]
      exact h
  | read _ howner hread ih =>
      rw [← List.append_assoc]
      exact ih.read howner hread
  | write _ hwrite ih => exact ih.write hwrite
  | handshake _ hshake ih => exact ih.handshake hshake
  | elsewhere _ hclients ih => exact ih.elsewhere hclients

theorem Follows.trans {s₀ s₁ s₂ : EventLoop} (h : Follows inflateGzip o s₀ s₁)
    (h' : Follows inflateGzip o s₁ s₂) : Follows inflateGzip o s₀ s₂ := by
  obtain ⟨calls, hrun⟩ := h.run
  obtain ⟨later, hrun'⟩ := h'.run
  exact ⟨⟨_, hrun.trans hrun'⟩, Nat.le_trans h.brk h'.brk⟩

theorem Follows.elsewhere {s s' : EventLoop} (hclients : s'.clients o = s.clients o)
    (hbrk : s.brk ≤ s'.brk) : Follows inflateGzip o s s' :=
  ⟨⟨[], .elsewhere .start hclients⟩, hbrk⟩

theorem Follows.settle {s : EventLoop} {r : Option EventLoop}
    (hr : ∀ s', r = some s' → Follows inflateGzip o s s') : Follows inflateGzip o s (s.settle r) := by
  cases hres : r with
  | none => exact .elsewhere rfl (Nat.le_refl _)
  | some s' => exact hr s' hres

/-- The read handler, of whichever client. -/
theorem follows_read {s s' : EventLoop} {e : EventRef} {env : Env}
    (h : httpReadEventProcess inflateGzip s e env = some s') : Follows inflateGzip o s s' := by
  obtain ⟨⟨c, o', client⟩, howner, -⟩ := Option.bind_eq_some_iff.mp h
  have hrun : Handles o' s (readRun s e c o' client env).2 := by
    rw [readRun]
    split
    · exact ⟨fun _ _ => rfl, rfl⟩
    · exact (Handles.modify s o' _).trans (recvRun_handles ..)
  have hhandles := hrun.trans (httpReadEventProcess_keeps howner h).toHandles
  refine ⟨?_, Nat.le_of_eq hhandles.brk.symm⟩
  by_cases ho : o = o'
  · subst ho
    exact ⟨_, .read .start howner h⟩
  · exact ⟨_, .elsewhere .start (hhandles.others o ho)⟩

theorem follows_write {s s' : EventLoop} {e : EventRef} {env : Env}
    (h : s.httpWriteEventProcess e env = some s') : Follows inflateGzip o s s' := by
  obtain ⟨c, o', client, -, hkeeps⟩ := httpWriteEventProcess_keeps h
  exact ⟨⟨[], .write .start h⟩, Nat.le_of_eq hkeeps.brk.symm⟩

theorem follows_handshake {s s' : EventLoop} {e : EventRef} {env : Env}
    (h : sslHandshakeHandler s e env = some s') : Follows inflateGzip o s s' := by
  obtain ⟨c, o', client, -, hkeeps⟩ := sslHandshakeHandler_keeps h
  exact ⟨⟨[], .handshake .start h⟩, Nat.le_of_eq hkeeps.brk.symm⟩

/-- Calling a handler, by induction on how far handlers call one another. -/
theorem follows_invoke (depth : Nat) (s : EventLoop) (e : EventRef) (env : Env) :
    Follows inflateGzip o s (invoke inflateGzip depth s e env) := by
  induction depth generalizing s e with
  | zero => exact .elsewhere rfl (Nat.le_refl _)
  | succ depth ih =>
      have hnote : Follows inflateGzip o s (s.note e) := .elsewhere rfl (Nat.le_refl _)
      have haside : ∀ next : Option EventRef, Follows inflateGzip o (s.note e)
          ((s.note e).settle (next.map fun e' => invoke inflateGzip depth (s.note e) e' env)) := by
        intro next
        refine .settle fun s' hs' => ?_
        obtain ⟨e', -, rfl⟩ := Option.map_eq_some_iff.mp hs'
        exact ih (s.note e) e'
      rw [invoke]
      refine hnote.trans ?_
      split
      · exact .settle fun s' hs' => follows_read hs'
      · exact .settle fun s' hs' => follows_write hs'
      · exact .settle fun s' hs' => follows_handshake hs'
      · exact haside _
      · exact haside _
      · exact .elsewhere rfl (Nat.le_refl _)

theorem follows_dispatchRead (s : EventLoop) (c : Slot) (revents : UInt32) (env : Env) :
    Follows inflateGzip o s (dispatchRead inflateGzip s c revents env) := by
  rw [dispatchRead]
  split
  · exact .elsewhere rfl (Nat.le_refl _)
  · split
    · refine Follows.trans ?_ (follows_invoke _ _ _ _)
      exact .elsewhere rfl (Nat.le_refl _)
    · exact .elsewhere rfl (Nat.le_refl _)

theorem follows_dispatchWrite (s : EventLoop) (c : Slot) (revents : UInt32) (env : Env) :
    Follows inflateGzip o s (dispatchWrite inflateGzip s c revents env) := by
  rw [dispatchWrite]
  split
  · exact .elsewhere rfl (Nat.le_refl _)
  · split
    · split
      · exact .elsewhere rfl (Nat.le_refl _)
      · refine Follows.trans ?_ (follows_invoke _ _ _ _)
        exact .elsewhere rfl (Nat.le_refl _)
    · exact .elsewhere rfl (Nat.le_refl _)

theorem follows_entry (s : EventLoop) (c : Slot) (events : UInt32) (renv wenv : Env) :
    Follows inflateGzip o s (eventEntry inflateGzip s c events renv wenv) := by
  rw [eventEntry]
  split
  · exact .elsewhere rfl (Nat.le_refl _)
  · have hread : Follows inflateGzip o s (dispatchRead inflateGzip s c (reventsOf events) renv) :=
      follows_dispatchRead ..
    simp only
    split
    · exact hread
    · exact hread.trans (follows_dispatchWrite _ _ _ _)

theorem follows_expire (s : EventLoop) (e : EventRef) (env : Env) :
    Follows inflateGzip o s (expireRound inflateGzip s e env) := by
  rw [expireRound]
  refine .settle fun s' hs' => ?_
  obtain ⟨s₁, htimer, rfl⟩ := Option.map_eq_some_iff.mp hs'
  obtain ⟨p, -, rfl⟩ := Option.map_eq_some_iff.mp htimer
  refine Follows.trans ?_ (follows_invoke _ _ _ _)
  exact .elsewhere rfl (Nat.le_refl _)

/-- A client that is created is another one. -/
theorem follows_create {s : EventLoop} (hok : ∃ xs, PoolOk s.pool xs) (ho : o < s.brk) (url : HttpUrl)
    (env : ConnEnv) : Follows inflateGzip o s (httpClientCreate s url env) := by
  obtain ⟨xs, hok⟩ := hok
  have hok' : PoolOk (addClient s url).pool xs := hok
  have hne : o ≠ s.brk := Nat.ne_of_lt ho
  have hadd : Follows inflateGzip o s (addClient s url) :=
    .elsewhere (addClient_clients s url hne) (Nat.le_succ _)
  rw [httpClientCreate]
  refine hadd.trans ?_
  rcases httpConn_cases hok' s.brk env with
    ⟨-, s', hconn, hfail⟩ | ⟨-, c, ys, s', -, hconn, hgive⟩
  · have hneg : (-1 : Int) < 0 := by decide
    simp only [hconn, Option.map_some, EventLoop.settle, Option.getD_some, if_pos hneg]
    have hkeeps := callHandler_keeps s' s.brk (newClient url)
    refine .elsewhere ?_ ?_
    · rw [hkeeps.others o hne, hfail.clients]
    · rw [hkeeps.brk, hfail.brk]
  · have hneg : ¬ (0 : Int) < 0 := by decide
    simp only [hconn, Option.map_some, EventLoop.settle, Option.getD_some, if_neg hneg]
    obtain ⟨f, -, hclients⟩ := hgive.clients
    refine .elsewhere ?_ (Nat.le_of_eq hgive.brk.symm)
    rw [hclients, Function.update_of_ne hne]

theorem LoopInv.follows {guarded : Prop} {s : EventLoop} (h : LoopInv guarded s) (ho : o < s.brk)
    (a : LoopAction) : Follows inflateGzip o s (loopStep inflateGzip s a) := by
  cases a with
  | create url env => exact follows_create h.ok.pool ho url env
  | entry c events renv wenv => exact follows_entry s c events renv wenv
  | expire e now env => exact follows_expire s e env

/-- Every run of the event loop that starts with client `o` is a run of that client. -/
theorem exists_clientRun {n : UInt32} {s₀ s : EventLoop} {as : List LoopAction}
    (h₀ : Reachable (eventLoop n inflateGzip) s₀) (ho : (s₀.clients o).isSome)
    (hrun : Run (eventLoop n inflateGzip) s₀ as s) : ∃ calls, ClientRun inflateGzip o s₀ calls s := by
  have hinv₀ := reachable_loopInv h₀
  have hkept : LoopInv False s ∧ Follows inflateGzip o s₀ s := by
    apply hrun.invariant (P := fun s => LoopInv False s ∧ Follows inflateGzip o s₀ s)
    · exact ⟨hinv₀, .elsewhere rfl (Nat.le_refl _)⟩
    · rintro t a v ⟨ht, hfollows⟩ he hn
      obtain rfl := Option.some.inj hn
      have hlt := Nat.lt_of_lt_of_le (hinv₀.ok.below o ho) hfollows.brk
      exact ⟨ht.step he fun hf => hf.elim, hfollows.trans (ht.follows hlt a)⟩
  exact hkept.2.run

end

end Crawler.Http
