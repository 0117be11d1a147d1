/-
# Crawler.Http.Pages — the page that a client hands over

What the read handler does before it calls the client's handler is set apart (`readEnd`), so that the
page can be seen that it hands over. Over a whole run of the event loop, whatever else happens in it,
a client that was created for a page without TLS hands over the body of the response that its peer has
sent, once, as soon as all of it has been received, and nothing else ever (`reachable_page`).
-/
import Crawler.Http.Batch
import Crawler.Http.Plain
import Crawler.Http.Response

namespace Crawler.Http

open Crawler.Lib Crawler.EventTimer Crawler.Connections

/-! ## The read handler up to its end -/

/-- How `http_read_event_process` ends: the calls of `c->recv` it has made, the state it has come to, and
whether it calls the client's handler there. -/
structure ReadEnd where
  calls : List RecvCall
  state : EventLoop
  retrieves : Bool

section

variable (inflateGzip : HttpBuf → HttpBuf → Int × HttpBuf)

/-- `http_read_event_process(rev)` up to the call of the client's handler. -/
def readEnd (s : EventLoop) (rev : EventRef) (env : Env) : Option ReadEnd := do
  let (c, o, client) ← s.owner rev
  if (s.pool.events.ev rev).timedout then return ⟨[], s, true⟩
  else
    let run := recvRun c o env.ctl env.turns (openRecv s o client env)
    match ← loopEnd false run with
    | .error s => return ⟨run.1, s, true⟩
    | .ok (s, resetTime) =>
        let s ← resetTimer s rev resetTime env.now
        let response ← s.clients o
        let (rc, response) ← httpProcessResponse inflateGzip response
        let s := s.modify o fun _ => response
        let done := response.status = .htmlDone ∨ (s.pool.events.ev rev).pendingEof
        return ⟨run.1, s, decide (rc < 0 ∨ done)⟩

/-- The handler is that and the call. -/
theorem httpReadEventProcess_eq (s : EventLoop) (rev : EventRef) (env : Env) :
    httpReadEventProcess inflateGzip s rev env = (s.owner rev).bind fun (_, o, client) =>
      (readEnd inflateGzip s rev env).map fun e =>
        if e.retrieves then e.state.callHandler o client else e.state := by
  rw [httpReadEventProcess, readEnd]
  cases howner : s.owner rev with
  | none => rfl
  | some x =>
      obtain ⟨c, o, client⟩ := x
      simp only [Option.bind_eq_bind, Option.bind_some, Option.pure_def]
      split
      · rfl
      · have hloop : recvLoop c o env.ctl env.turns (s.modify o fun client' =>
            { client' with recv := some (client.recv.getD (createTempBuf env.buf baseRange)) }) false =
            loopEnd false (recvRun c o env.ctl env.turns (openRecv s o client env)) :=
          recvLoop_eq env.turns (openRecv s o client env) false
        rw [hloop]
        rcases loopEnd false (recvRun c o env.ctl env.turns (openRecv s o client env)) with
          _ | (s₁ | ⟨s₁, resetTime⟩)
        · rfl
        · rfl
        · simp only [Option.bind_some]
          cases resetTimer s₁ rev resetTime env.now with
          | none => rfl
          | some s₂ =>
              simp only [Option.bind_some]
              cases s₂.clients o with
              | none => rfl
              | some response =>
                  simp only [Option.bind_some]
                  rcases httpProcessResponse inflateGzip response with _ | ⟨rc, response'⟩
                  · rfl
                  · simp only [Option.bind_some, Option.map_some, decide_eq_true_eq]
                    split_ifs <;> first | rfl | tauto

end

/-! ## Waiting for the response -/

/-- The client with the buffer that it receives into. -/
def HttpClient.opened (client : HttpClient) (env : Env) : HttpClient :=
  { client with recv := some (openBuf client env) }

/-- On a connection without TLS, `got` of the response has been received. -/
structure Waiting (r : Response) (c : Slot) (o : Addr) (got : List UInt8) (s : EventLoop) : Prop where
  link : (s.link o).connection = some c
  io : s.io c = plainIo
  late : Late s.sockets c
  quiet : (s.pool.events.ev (.write c)).active = false
  record : ∃ client, s.clients o = some client ∧ client.Logs got ∧
    ∀ env, Midway r (client.opened env) got

/-- The page that has to be handed over after these calls: there is none until all bytes have come, and
none if a call has failed. -/
def Response.page (r : Response) (calls : List RecvCall) : Option (List UInt8) :=
  if r.need ≤ (calls.flatMap RecvCall.bytes).length ∧ ∀ call ∈ calls, call.n ≠ -1 then some r.body.data
  else none

theorem Response.page_short {r : Response} {calls : List RecvCall}
    (h : (calls.flatMap RecvCall.bytes).length < r.need) : r.page calls = none :=
  if_neg fun hall => absurd h (Nat.not_lt_of_le hall.1)

theorem pageOf_none {client : HttpClient} (h : client.status ≠ .htmlDone) : pageOf client = none :=
  if_neg h

/-- A client that has received into its buffer goes on with it. -/
theorem HttpClient.opened_of_recv {client : HttpClient} {b : HttpBuf} (h : client.recv = some b)
    (env : Env) : client.opened env = client := by
  have hopen : some (openBuf client env) = client.recv := by rw [openBuf, h, Option.getD_some]
  rw [HttpClient.opened, hopen]

section

variable {resetTime : Bool} {run : List RecvCall × EventLoop}

/-- The loop ends well when no call has failed. -/
theorem loopEnd_ok (h : CallsOk run.1) {x : EventLoop × Bool} (hend : loopEnd resetTime run = some (.ok x)) :
    x.1 = run.2 ∧ ∀ call ∈ run.1, call.n ≠ -1 := by
  rw [loopEnd] at hend
  split at hend
  · cases hend
  case h_2 last hlast =>
    obtain ⟨before, hcalls⟩ := List.getLast?_eq_some_iff.mp hlast
    have hgo := h.goesOn
    rw [hcalls, List.dropLast_concat] at hgo
    by_cases hn : last.n = -eagain ∨ last.n = 0
    · rw [if_pos hn] at hend
      cases hend
      refine ⟨rfl, fun call hcall => ?_⟩
      rw [hcalls, List.mem_append, List.mem_singleton] at hcall
      rcases hcall with hcall | rfl
      · have hpos := hgo call hcall
        omega
      · rcases hn with hn | hn <;> rw [hn] <;> decide
    · rw [if_neg hn] at hend
      split_ifs at hend
      cases hend

/-- It jumps when one has. -/
theorem loopEnd_error {s : EventLoop} (hend : loopEnd resetTime run = some (.error s)) :
    s = run.2 ∧ ∃ call ∈ run.1, call.n = -1 := by
  rw [loopEnd] at hend
  split at hend
  · cases hend
  case h_2 last hlast =>
    by_cases hok : last.n = -eagain ∨ last.n = 0
    · rw [if_pos hok] at hend
      cases hend
    · rw [if_neg hok] at hend
      split_ifs at hend with hn
      cases hend
      exact ⟨rfl, last, List.mem_of_getLast? hlast, hn⟩

end

section

variable {inflateGzip : HttpBuf → HttpBuf → Int × HttpBuf} {r : Response} {c : Slot} {o : Addr}
  {got trail : List UInt8} {s : EventLoop} {client : HttpClient} {env : Env} {e : ReadEnd}

theorem Waiting.status (h : Waiting r c o got s) (hclient : s.clients o = some client) :
    client.status ≠ .htmlDone := by
  obtain ⟨client', hclient', -, hmid⟩ := h.record
  obtain rfl := Option.some.inj (hclient.symm.trans hclient')
  exact (hmid { sys := [], ctl := fun _ => 0, now := 0, buf := 0 }).status

/-- The read handler, called when `got` has been received, ends as the bytes received by then make it. -/
structure ReadsPage (r : Response) (c : Slot) (o : Addr) (got : List UInt8) (s : EventLoop) (e : ReadEnd) :
    Prop where
  serving : Serving c o s e.state
  page : (e.state.clients o).bind pageOf =
    if r.need ≤ (got ++ e.calls.flatMap RecvCall.bytes).length ∧ ∀ call ∈ e.calls, call.n ≠ -1
    then some r.body.data else none
  goesOn : e.retrieves = false →
    (got ++ e.calls.flatMap RecvCall.bytes).length < r.need ∧ (∀ call ∈ e.calls, call.n ≠ -1) ∧
      (¬ CutsNumber r (got ++ e.calls.flatMap RecvCall.bytes) →
        Waiting r c o (got ++ e.calls.flatMap RecvCall.bytes) e.state)

/-- The client goes on waiting when more has been received. -/
theorem Waiting.next (h : Waiting r c o got s) {s' : EventLoop} (hplain : ReadsPlain c o s s')
    {client' : HttpClient} (hrec : s'.clients o = some client') {got' : List UInt8}
    (hlogs : client'.Logs got') {b : HttpBuf} (hb : client'.recv = some b) (hmid : Midway r client' got') :
    Waiting r c o got' s' where
  link := by
    rw [hplain.reading.serving.link]
    exact h.link
  io := (congrFun hplain.io c).trans h.io
  late := hplain.reading.late
  quiet := by
    rw [hplain.write]
    exact h.quiet
  record := ⟨client', hrec, hlogs, fun env => by
    rw [HttpClient.opened_of_recv hb]
    exact hmid⟩

/-- What `http_process_response` makes of the bytes received decides whether the page is handed over. -/
theorem Waiting.responds (h : Waiting r c o got s) {s' : EventLoop} (hplain : ReadsPlain c o s s')
    (hrec : s'.clients o = some client) {b : HttpBuf} (hb : client.recv = some b) {more : List UInt8}
    (hlogs : client.Logs more) {client' : HttpClient}
    (hproc : httpProcessResponse inflateGzip client = some (0, client'))
    (hnext : Midway.Next r client' more) {calls : List RecvCall}
    (hmore : more = got ++ calls.flatMap RecvCall.bytes) (hok : ∀ call ∈ calls, call.n ≠ -1)
    {retrieves : Bool} (hdone : client'.status = .htmlDone → retrieves = true) :
    ReadsPage r c o got s ⟨calls, s'.modify o fun _ => client', retrieves⟩ := by
  subst hmore
  have hparses := httpProcessResponse_parses hproc
  have hrec' : (s'.modify o fun _ => client').clients o = some client' := modify_clients_self hrec _
  have hplain' : ReadsPlain c o s (s'.modify o fun _ => client') := by
    refine hplain.modify fun x hx => ?_
    obtain rfl := Option.some.inj (hrec.symm.trans hx)
    exact hparses.handler
  rw [Midway.Next] at hnext
  refine ⟨hplain'.reading.serving, ?_, fun hgo => ?_⟩
  · rw [hrec', Option.bind_some]
    by_cases henough : r.need ≤ (got ++ calls.flatMap RecvCall.bytes).length
    · rw [if_pos henough] at hnext
      rw [if_pos ⟨henough, hok⟩]
      exact hnext.2
    · rw [if_neg henough] at hnext
      rw [if_neg fun hall => henough hall.1]
      exact pageOf_none hnext.1
  · have henough : ¬ r.need ≤ (got ++ calls.flatMap RecvCall.bytes).length := by
      intro henough
      rw [if_pos henough] at hnext
      cases hgo.symm.trans (hdone hnext.1)
    rw [if_neg henough] at hnext
    refine ⟨Nat.lt_of_not_le henough, hok, fun hcut => ?_⟩
    obtain ⟨move, hrecv⟩ := hparses.recv
    rw [hb] at hrecv
    exact h.next hplain' hrec' (hlogs.congr hparses.stored) hrecv (hnext.2 hcut)

/-- What has been received when the read handler ends decides whether it hands over the page. -/
theorem Waiting.readsPage (h : Waiting r c o got s) (hshort : got.length < r.need)
    (hs : Owns s c o client) (hread : readEnd inflateGzip s (.read c) env = some e)
    (hbegins : got ++ e.calls.flatMap RecvCall.bytes <+: r.bytes ++ trail) :
    ReadsPage r c o got s e := by
  have hstatus := h.status hs.record
  rw [readEnd, hs.owner rfl] at hread
  simp only [Option.bind_eq_bind, Option.bind_some, Option.pure_def] at hread
  split at hread
  · -- the timer has run out
    cases hread
    refine ⟨.refl c o s, ?_, fun hf => by cases hf⟩
    rw [List.flatMap_nil, List.append_nil, hs.record, Option.bind_some, pageOf_none hstatus,
      if_neg fun hall => absurd hshort (Nat.not_lt_of_le hall.1)]
  · obtain ⟨client', hclient', hlogs, hmid⟩ := h.record
    obtain rfl := Option.some.inj (hs.record.symm.trans hclient')
    have hlogged : Logged o got s := fun x hx => by
      obtain rfl := Option.some.inj (hs.record.symm.trans hx)
      exact hlogs
    have hopen := hlogged.openRecv hs.record env
    have hrec₀ : (openRecv s o client env).clients o = some (client.opened env) :=
      modify_clients_self hs.record _
    have hplain₀ : ReadsPlain c o s (openRecv s o client env) :=
      (ReadsPlain.refl hs h.late).modify fun _ _ => rfl
    -- the receive loop
    obtain ⟨hplain, frag, hfrag, hrec⟩ := hplain₀.run h.io hrec₀ hopen env.ctl env.turns
    obtain ⟨hcalls, b, hb, hext⟩ :
        CallsOk (recvRun c o env.ctl env.turns (openRecv s o client env)).1 ∧ _ := hopen.run env.turns
    generalize recvRun c o env.ctl env.turns (openRecv s o client env) = run at *
    obtain ⟨res, hloop, hread⟩ := Option.bind_eq_some_iff.mp hread
    rcases res with s₁ | ⟨s₁, resetTime⟩
    · obtain ⟨rfl, call, hcall, hn⟩ := loopEnd_error hloop
      cases hread
      refine ⟨hplain.reading.serving, ?_, fun hf => by cases hf⟩
      have hstatus' : ((client.opened env).recvd frag).status ≠ .htmlDone := hstatus
      rw [hrec, Option.bind_some, pageOf_none hstatus', if_neg fun hall => hall.2 call hcall hn]
    · obtain ⟨rfl, hok⟩ := loopEnd_ok hcalls hloop
      simp only at hread
      -- the response
      obtain ⟨s₂, hreset, hread⟩ := Option.bind_eq_some_iff.mp hread
      obtain ⟨hplain₂, hclients₂⟩ := hplain.resetTimer hreset
      obtain ⟨response, hrec₂, hread⟩ := Option.bind_eq_some_iff.mp hread
      rw [hclients₂, hrec] at hrec₂
      cases hrec₂
      have hbytes : b.bytes = got ++ frag.bytes := by rw [hext.bytes, (hlogs.openBuf env).1, hfrag]
      obtain ⟨res, hres, hread⟩ := Option.bind_eq_some_iff.mp hread
      have hcalled : e.calls = run.1 := by
        cases hread
        rfl
      rw [hcalled, ← hfrag] at hbegins
      obtain ⟨client', hproc, hnext⟩ := (hmid env).call inflateGzip hbegins
      cases hproc.symm.trans hres
      cases hread
      have hlogged : ((client.opened env).recvd frag).Logs (got ++ frag.bytes) := by
        rw [← hbytes]
        exact hb.logged _ hrec
      refine h.responds hplain₂ (hclients₂.symm ▸ hrec) rfl hlogged hproc hnext (congrArg (got ++ ·) hfrag) hok ?_
      intro hdone
      simp [hdone]

end

/-! ## What a step does to a client -/

/-- The flags that `event_process` sets on a read event. -/
def reportRead (revents : UInt32) (ev : Event) : Event :=
  let eof := if revents &&& epollRdhup ≠ 0 then true else ev.pendingEof
  { ev with pendingEof := eof, ready := true }

/-- The loop with these flags set, just before the handler is called. -/
def EventLoop.reported (s : EventLoop) (rev : EventRef) (revents : UInt32) : EventLoop :=
  (s.withSockets (s.sockets.modifyEvent rev (reportRead revents))).note rev

/-- The read handler as a step calls it, if it does: the state and the event it is called with, and what
the environment decides about the call. -/
def readCall (s : EventLoop) : LoopAction → Option (EventLoop × EventRef × Env)
  | .create .. => none
  | .entry c events renv _ => do
      let rev ← (s.pool.connections c).read
      let ev := s.pool.events.ev rev
      if (s.pool.connections c).fd ≠ -1 ∧ reventsOf events &&& epollIn ≠ 0 ∧ ev.active ∧
          ev.handler = some .httpReadEventProcess then
        return (s.reported rev (reventsOf events), rev, renv)
      else none
  | .expire e _ env => do
      let s ← s.timer (expireTimer · e)
      if (s.pool.events.ev e).handler = some .httpReadEventProcess then return (s.note e, e, env)
      else none

section

variable (inflateGzip : HttpBuf → HttpBuf → Int × HttpBuf)

/-- How the read handler of client `o` ends in a step, if it is called. -/
def readOf (o : Addr) (s : EventLoop) (a : LoopAction) : Option ReadEnd :=
  (readCall s a).bind fun (s, rev, env) =>
    if (s.owner rev).any fun x => x.2.1 = o then readEnd inflateGzip s rev env else none

/-- The calls of `c->recv` that client `o` makes in a step. -/
def recvCalls (o : Addr) (s : EventLoop) (a : LoopAction) : List RecvCall :=
  (readOf inflateGzip o s a).elim [] ReadEnd.calls

/-- The page that client `o` hands over in a step. -/
def pageHanded (o : Addr) (s : EventLoop) (a : LoopAction) : List (List UInt8) :=
  (readOf inflateGzip o s a).elim [] fun e =>
    if e.retrieves then ((e.state.clients o).bind pageOf).toList else []

variable (n : UInt32) (o : Addr) (s : EventLoop) (as : List LoopAction)

/-- The calls of `c->recv` that client `o` makes in a run, -/
def callsIn : List RecvCall := (eventLoop n inflateGzip).gather (recvCalls inflateGzip o) s as

/-- the bytes that it receives, -/
def bytesIn : List UInt8 := (callsIn inflateGzip n o s as).flatMap RecvCall.bytes

/-- and the pages that it hands over. -/
def pagesIn : List (List UInt8) := (eventLoop n inflateGzip).gather (pageHanded inflateGzip o) s as

end

section

variable {inflateGzip : HttpBuf → HttpBuf → Int × HttpBuf} {url : HttpUrl} {r : Response} {c : Slot}
  {o : Addr} {got : List UInt8} {s s' : EventLoop} {a : LoopAction}

/-- The read handler is called for the client of the connection that the action is about. -/
theorem LoopInv.readCall_owner {guarded : Prop} (h : LoopInv guarded s) (he : loopEnabled s a)
    {rev : EventRef} {env : Env} (hcall : readCall s a = some (s', rev, env)) :
    ∃ c o client, Holds guarded s c o ∧ a.On c ∧ s'.owner rev = some (c, o, client) := by
  cases a with
  | create url cenv => cases hcall
  | entry c events renv wenv =>
      obtain ⟨-, hn, hdns⟩ := he
      obtain ⟨xs, hok⟩ := h.ok.pool
      simp only [readCall, (hok.names c hn).1, Option.bind_eq_bind, Option.bind_some,
        Option.pure_def] at hcall
      split at hcall
      case isFalse => cases hcall
      case isTrue hon =>
        obtain ⟨o, hh⟩ := (h.ok.slots c ⟨hn, hon.1⟩).resolve_left hdns
        obtain ⟨client, howns⟩ := hh.client
        cases hcall
        have hw := Within.modifyEvent (s := s.sockets) howns.owned (e := .read c) rfl
          (f := reportRead (reventsOf events)) rfl rfl
        have howns' : Owns (s.reported (.read c) (reventsOf events)) c o client :=
          ⟨hw.owned howns.owned, howns.record, howns.handler⟩
        exact ⟨c, o, client, hh, rfl, howns'.owner rfl⟩
  | expire e now env' =>
      obtain ⟨o, client, t, hh, howns, -, hw, -, htimer, -⟩ := h.expire_eq noInflate he.2.1 env'
      simp only [readCall, htimer, Option.bind_eq_bind, Option.bind_some, Option.pure_def] at hcall
      have howns' : Owns ((s.withSockets ⟨{ s.pool with events := t }, s.io⟩).note e) e.slot o client :=
        ⟨hw.owned howns.owned, howns.record, howns.handler⟩
      have howner := howns'.owner (e := e) rfl
      split at hcall <;> cases hcall
      exact ⟨_, o, client, hh, rfl, howner⟩

/-- A client does not receive in a step that is not about a connection of its own. -/
theorem LoopInv.readOf_none {guarded : Prop} (h : LoopInv guarded s) (he : loopEnabled s a)
    (hnot : ∀ c, Holds guarded s c o → ¬ a.On c) : readOf inflateGzip o s a = none := by
  rw [readOf]
  cases hcall : readCall s a with
  | none => rfl
  | some x =>
      obtain ⟨s', rev, env⟩ := x
      obtain ⟨c, o', client, hh, hon, howner⟩ := h.readCall_owner he hcall
      have hne : o' ≠ o := by
        rintro rfl
        exact hnot c hh hon
      simp [howner, hne]

/-- The connection that a client holds is the one that its record names. -/
theorem LoopInv.holds {guarded : Prop} (h : LoopInv guarded s) {client : HttpClient}
    (hclient : s.clients o = some client) (hlink : (s.link o).connection = some c) :
    Holds guarded s c o := by
  obtain ⟨c', hh⟩ := h.ok.clients o (by simp [hclient])
  obtain rfl : c' = c := Option.some.inj (hh.link.symm.trans hlink)
  exact hh

theorem Holds.owns {guarded : Prop} (h : Holds guarded s c o) {client : HttpClient}
    (hclient : s.clients o = some client) : Owns s c o client := by
  obtain ⟨client', howns⟩ := h.client
  obtain rfl := Option.some.inj (howns.record.symm.trans hclient)
  exact howns

/-- A client that was given up is gone, and its connection is closed. -/
theorem Apart.gone_closed {guarded : Prop} (ha : Apart guarded s c o) (hg : Gone c o s s') :
    s'.clients o = none ∧ (s'.pool.connections c).fd = -1 := by
  obtain ⟨-, xs, s₁, -, -, hr⟩ := ha.gone hg
  rw [hr.clients, Function.update_self]
  exact ⟨rfl, hr.closes.closed⟩

theorem Connected.untouched {client : HttpClient} (h : Connected s c o client)
    (hu : Untouched c o s s') : Connected s' c o client where
  link := by
    rw [hu.link]
    exact h.link
  io := hu.io.trans h.io
  write := by
    rw [hu.ev _ rfl]
    exact h.write
  read := by
    rw [hu.ev _ rfl]
    exact h.read
  record := hu.client.trans h.record

theorem Waiting.untouched (h : Waiting r c o got s) (hu : Untouched c o s s') : Waiting r c o got s' where
  link := by
    rw [hu.link]
    exact h.link
  io := hu.io.trans h.io
  late := by
    have hr : s'.sockets.pool.events.ev (.read c) = s.sockets.pool.events.ev (.read c) := hu.ev _ rfl
    have hw : s'.sockets.pool.events.ev (.write c) = s.sockets.pool.events.ev (.write c) := hu.ev _ rfl
    have hio : s'.sockets.io c = s.sockets.io c := hu.io
    refine ⟨hr ▸ h.late.read, hr ▸ h.late.armed, hw ▸ h.late.disarmed, ?_⟩
    rw [hw, NoneSaved, hio]
    exact h.late.write
  quiet := by
    rw [hu.ev _ rfl]
    exact h.quiet
  record := by
    rw [hu.client]
    exact h.record

variable (inflateGzip) in
/-- When a timer runs out its client is gone, and nothing is handed over. -/
theorem LoopInv.expire_gone {guarded : Prop} (h : LoopInv guarded s) {e : EventRef}
    (he : e ∈ s.pool.events.rbtree) (hh : Holds guarded s e.slot o) {client : HttpClient}
    (hclient : s.clients o = some client) (hstatus : client.status ≠ .htmlDone) (now : UInt32) (env : Env) :
    (expireRound inflateGzip s e env).clients o = none ∧
      recvCalls inflateGzip o s (.expire e now env) = [] ∧
      pageHanded inflateGzip o s (.expire e now env) = [] := by
  obtain ⟨o', client', t, hh', howns, -, hw, hout, htimer, hexp⟩ := h.expire_eq inflateGzip he env
  obtain rfl : o' = o := hh'.unique (hh.owns hclient)
  obtain rfl := Option.some.inj (howns.record.symm.trans hclient)
  have hap := ((h.ok.apart hh).serving ((Serving.refl e.slot o' s).withSockets hw)).withLog
    ((s.withSockets ⟨{ s.pool with events := t }, s.io⟩).note e).log
  refine ⟨?_, ?_⟩
  · rw [hexp]
    exact (Apart.gone_closed hap ⟨_, client', .refl _ _ _, howns.handler, rfl⟩).1
  · have howns' : Owns ((s.withSockets ⟨{ s.pool with events := t }, s.io⟩).note e) e.slot o' client' :=
      ⟨hw.owned howns.owned, howns.record, howns.handler⟩
    generalize hs₁ : (s.withSockets ⟨{ s.pool with events := t }, s.io⟩).note e = s₁ at howns'
    have hread : readEnd inflateGzip s₁ e env = some ⟨[], s₁, true⟩ := by
      have hout' : (s₁.pool.events.ev e).timedout = true := by
        rw [← hs₁]
        exact hout
      rw [readEnd, howns'.owner rfl]
      simp only [Option.bind_eq_bind, Option.bind_some, Option.pure_def, if_pos hout']
    have hcases : readOf inflateGzip o' s (.expire e now env) = none ∨
        readOf inflateGzip o' s (.expire e now env) = some ⟨[], s₁, true⟩ := by
      simp only [readOf, readCall, htimer, Option.bind_eq_bind, Option.bind_some, Option.pure_def]
      split
      · simp [hs₁, howns'.owner rfl, hread]
      · exact .inl rfl
    rw [recvCalls, pageHanded]
    rcases hcases with hnone | hsome
    · rw [hnone]
      exact ⟨rfl, rfl⟩
    · rw [hsome]
      simp [howns'.record, pageOf_none hstatus]

/-- A request that has been sent. -/
theorem Waiting.start {url : HttpUrl} {req : Option HttpBuf} (hlink : (s.link o).connection = some c)
    (hio : s.io c = plainIo) (hlate : Late s.sockets c)
    (hquiet : (s.pool.events.ev (.write c)).active = false)
    (hrecord : s.clients o = some { newClient url with req := req, status := .reqDone }) :
    Waiting r c o [] s := by
  refine ⟨hlink, hio, hlate, hquiet, _, hrecord, rfl, fun env => .head (HeadFresh.midway ?_) rfl⟩
  exact ⟨rfl, rfl, _, rfl, rfl, rfl⟩

variable (inflateGzip) in
/-- An entry about a connection on which nothing has been sent: the write handler may be called. -/
theorem LoopInv.entry_connected {guarded : Prop} (h : LoopInv guarded s)
    (hc : Connected s c o (newClient url)) (r : Response) (events : UInt32) (renv wenv : Env) :
    readOf inflateGzip o s (.entry c events renv wenv) = none ∧
      (Connected (eventEntry inflateGzip s c events renv wenv) c o (newClient url) ∨
        Waiting r c o [] (eventEntry inflateGzip s c events renv wenv) ∨
        (eventEntry inflateGzip s c events renv wenv).clients o = none) := by
  have hh := h.holds hc.record hc.link
  have howns := hh.owns hc.record
  obtain ⟨hread, hwrite, -, -⟩ := howns.owned.names
  refine ⟨?_, ?_⟩
  · simp [readOf, readCall, hread, hc.read]
  · have hidle : Http.dispatchRead inflateGzip s c (reventsOf events) renv = s := by
      simp [Http.dispatchRead, hread, hc.read]
    rw [eventEntry, if_neg howns.owned.held.2, hidle]
    simp only
    split
    · exact .inl hc
    · rw [Http.dispatchWrite, hwrite]
      simp only
      split
      case isFalse => exact .inl hc
      case isTrue =>
        rw [if_neg howns.owned.held.2]
        obtain ⟨hf, hcf⟩ := h.flag hh (e := .write c) rfl (f := fun ev => { ev with ready := true })
          rfl rfl rfl rfl
        have hc₁ : Connected (s.withSockets (s.sockets.modifyEvent (.write c) fun ev =>
            { ev with ready := true })) c o (newClient url) := by
          have hhan : (s.sockets.pool.events.ev (.write c)).handler = some .httpWriteEventProcess :=
            hc.write
          have hoff : (s.sockets.pool.events.ev (.read c)).active = false := hc.read
          refine ⟨hc.link, hc.io, ?_, ?_, hc.record⟩
          · simpa [EventLoop.withSockets] using hhan
          · simpa [EventLoop.withSockets] using hoff
        generalize s.withSockets (s.sockets.modifyEvent (.write c) fun ev =>
          { ev with ready := true }) = s₁ at hf hcf hc₁
        have hc₂ : Connected (s₁.note (.write c)) c o (newClient url) := hc₁.untouched (.log c o _)
        have hh₂ := hf.inv.note hcf (e := .write c) rfl
        have hhan : ((s₁.note (.write c)).pool.events.ev (.write c)).handler =
          some .httpWriteEventProcess := hc₂.write
        rw [handlerDepth, Http.invoke]
        simp only [hhan]
        generalize s₁.note (.write c) = s₂ at hc₂ hh₂
        have howns₂ := (hh₂.inv.holds hc₂.record hc₂.link).owns hc₂.record
        cases hres : s₂.httpWriteEventProcess (.write c) wenv with
        | none => exact .inl (hc₂.untouched (.log c o _))
        | some s' =>
            rcases httpWriteEventProcess_plain howns₂ hc₂.io hc₂.write hres with
              hgone | ⟨hserving, hlate, hio, hquiet, req, hrecord⟩
            · exact .inr (.inr (Apart.gone_closed (hh₂.inv.ok.apart
                (hh₂.inv.holds hc₂.record hc₂.link)) hgone).1)
            · refine .inr (.inl (Waiting.start ?_ hio hlate hquiet hrecord))
              show (s'.link o).connection = some c
              rw [hserving.link]
              exact hc₂.link

/-- A connection that is closed or asks for no write events is not written to. -/
theorem dispatchWrite_idle (hwrite : (s.pool.connections c).write = some (.write c))
    (hidle : (s.pool.events.ev (.write c)).active = false ∨ (s.pool.connections c).fd = -1)
    (revents : UInt32) (env : Env) : dispatchWrite inflateGzip s c revents env = s := by
  rw [dispatchWrite, hwrite]
  simp only
  split
  case isFalse => rfl
  case isTrue hon =>
    rcases hidle with hoff | hclosed
    · rw [hon.2] at hoff
      cases hoff
    · rw [if_pos hclosed]

theorem invoke_read {e : EventRef} (h : (s.pool.events.ev e).handler = some .httpReadEventProcess)
    (depth : Nat) (env : Env) : invoke inflateGzip (depth + 1) s e env =
      (s.note e).settle (httpReadEventProcess inflateGzip (s.note e) e env) := by
  have hhan : ((s.note e).pool.events.ev e).handler = some .httpReadEventProcess := h
  rw [invoke]
  simp only [hhan]

/-- The flags of the read event do not matter, nor does the log. -/
theorem Waiting.reported (h : Waiting r c o got s) (revents : UInt32) :
    Waiting r c o got (s.reported (.read c) revents) := by
  have hquiet : (s.sockets.pool.events.ev (.write c)).active = false := h.quiet
  have hlate : Late (s.sockets.modifyEvent (.read c) (reportRead revents)) c :=
    h.late.modifyEvent rfl rfl
  refine ⟨h.link, h.io, hlate, ?_, h.record⟩
  simpa [EventLoop.reported, EventLoop.note, EventLoop.withSockets] using hquiet

/-- What one step makes of the calls and the pages of a client that was waiting. -/
inductive WaitingNext (r : Response) (c : Slot) (o : Addr) (got : List UInt8) (s' : EventLoop)
    (calls : List RecvCall) (pages : List (List UInt8)) : Prop
  | waiting : Waiting r c o (got ++ calls.flatMap RecvCall.bytes) s' →
      (got ++ calls.flatMap RecvCall.bytes).length < r.need → (∀ call ∈ calls, call.n ≠ -1) →
      pages = [] → WaitingNext r c o got s' calls pages
  | retrieved : s'.clients o = none →
      pages = (if r.need ≤ (got ++ calls.flatMap RecvCall.bytes).length ∧ ∀ call ∈ calls, call.n ≠ -1
        then some r.body.data else none).toList → WaitingNext r c o got s' calls pages

theorem Waiting.stay (h : Waiting r c o got s) (hshort : got.length < r.need) :
    WaitingNext r c o got s [] [] := by
  refine .waiting ?_ ?_ (fun _ hcall => absurd hcall List.not_mem_nil) rfl
  · rwa [List.flatMap_nil, List.append_nil]
  · rwa [List.flatMap_nil, List.append_nil]

/-- The read handler is called, and then the connection is not written to. -/
theorem LoopInv.read_waiting {guarded : Prop} (h : LoopInv guarded s) (hw : Waiting r c o got s)
    (hshort : got.length < r.need) (revents : UInt32) (env wenv : Env) {trail : List UInt8}
    (hbegins : got ++ ((readEnd inflateGzip s (.read c) env).elim [] ReadEnd.calls).flatMap
      RecvCall.bytes <+: r.bytes ++ trail)
    (hcut : ¬ CutsNumber r
      (got ++ ((readEnd inflateGzip s (.read c) env).elim [] ReadEnd.calls).flatMap RecvCall.bytes)) :
    WaitingNext r c o got
      (let s' := s.settle (httpReadEventProcess inflateGzip s (.read c) env)
       if s'.log.wrong then s' else Http.dispatchWrite inflateGzip s' c revents wenv)
      ((readEnd inflateGzip s (.read c) env).elim [] ReadEnd.calls)
      ((readEnd inflateGzip s (.read c) env).elim [] fun e =>
        if e.retrieves then ((e.state.clients o).bind pageOf).toList else []) := by
  obtain ⟨client, hrecord, -⟩ := hw.record
  have hh := h.holds hrecord hw.link
  have howns := hh.owns hrecord
  have hap := h.ok.apart hh
  rw [httpReadEventProcess_eq, howns.owner rfl]
  cases hread : readEnd inflateGzip s (.read c) env with
  | none =>
      have hwrong : (s.settle none).log.wrong = true := rfl
      simp only [Option.bind_some, Option.map_none, hwrong, if_true, Option.elim_none]
      exact (hw.untouched (.log c o _)).stay hshort
  | some e =>
      rw [hread] at hbegins hcut
      simp only [Option.elim_some] at hbegins hcut ⊢
      have hnext := hw.readsPage hshort howns hread hbegins
      simp only [Option.bind_some, Option.map_some, EventLoop.settle, Option.getD_some]
      cases hends : e.retrieves with
      | false =>
          obtain ⟨hless, hok, hgo⟩ := hnext.goesOn hends
          have hw' := hgo hcut
          have hwrite : (e.state.pool.connections c).write = some (.write c) :=
            (hnext.serving.within.owned howns.owned).names.2.1
          have hidle : Http.dispatchWrite inflateGzip e.state c revents wenv = e.state :=
            dispatchWrite_idle hwrite (.inl hw'.quiet) _ _
          simp only [Bool.false_eq_true, if_false, hidle, ite_self]
          exact .waiting hw' hless hok rfl
      | true =>
          have hgone : Gone c o s (e.state.callHandler o client) :=
            ⟨e.state, client, hnext.serving, howns.handler, rfl⟩
          obtain ⟨hnone, hclosed⟩ := hap.gone_closed hgone
          have honward := hap.after h.journal (.inr hgone)
          obtain ⟨xs, hok⟩ := honward.inv.ok.pool
          have hn : c < (e.state.callHandler o client).pool.n := honward.n ▸ howns.owned.held.1
          have hidle : Http.dispatchWrite inflateGzip (e.state.callHandler o client) c revents wenv =
              e.state.callHandler o client := dispatchWrite_idle (hok.names c hn).2 (.inr hclosed) _ _
          simp only [if_true, hidle, ite_self]
          exact .retrieved hnone (congrArg Option.toList hnext.page)

/-- An entry about a connection that is read: the read handler may be called. -/
theorem LoopInv.entry_waiting {guarded : Prop} (h : LoopInv guarded s) (hw : Waiting r c o got s)
    (hshort : got.length < r.need) (events : UInt32) (renv wenv : Env) {trail : List UInt8}
    (hbegins : got ++ (recvCalls inflateGzip o s (.entry c events renv wenv)).flatMap RecvCall.bytes <+:
      r.bytes ++ trail)
    (hcut : ¬ CutsNumber r
      (got ++ (recvCalls inflateGzip o s (.entry c events renv wenv)).flatMap RecvCall.bytes)) :
    WaitingNext r c o got (eventEntry inflateGzip s c events renv wenv)
      (recvCalls inflateGzip o s (.entry c events renv wenv))
      (pageHanded inflateGzip o s (.entry c events renv wenv)) := by
  obtain ⟨client, hrecord, -⟩ := hw.record
  have hh := h.holds hrecord hw.link
  have howns := hh.owns hrecord
  obtain ⟨hread, hwrite, -, -⟩ := howns.owned.names
  have hhan : (s.pool.events.ev (.read c)).handler = some .httpReadEventProcess := hw.late.read
  rw [eventEntry, if_neg howns.owned.held.2]
  by_cases hon : reventsOf events &&& epollIn ≠ 0 ∧ (s.pool.events.ev (.read c)).active = true
  · -- the read handler is called
    have hw₁ := hw.reported (reventsOf events)
    obtain ⟨hf, hcf⟩ := h.flag hh (e := .read c) rfl (f := reportRead (reventsOf events)) rfl rfl rfl rfl
    have hinv₁ : Onward guarded _ (s.reported (.read c) (reventsOf events)) :=
      hf.inv.note hcf (e := .read c) rfl
    have hcall : readOf inflateGzip o s (.entry c events renv wenv) =
        readEnd inflateGzip (s.reported (.read c) (reventsOf events)) (.read c) renv := by
      have howner := ((hinv₁.inv.holds hrecord hw₁.link).owns hrecord).owner (e := .read c) rfl
      have hcalled : (s.pool.connections c).fd ≠ -1 ∧ reventsOf events &&& epollIn ≠ 0 ∧
          (s.pool.events.ev (.read c)).active = true ∧
          (s.pool.events.ev (.read c)).handler = some .httpReadEventProcess :=
        ⟨howns.owned.held.2, hon.1, hon.2, hhan⟩
      simp only [readOf, readCall, hread, Option.bind_eq_bind, Option.bind_some, if_pos hcalled,
        Option.pure_def, howner, Option.any_some, decide_true, if_true]
    have hdispatch : Http.dispatchRead inflateGzip s c (reventsOf events) renv =
        (s.reported (.read c) (reventsOf events)).settle (httpReadEventProcess inflateGzip
          (s.reported (.read c) (reventsOf events)) (.read c) renv) := by
      have hhan₁ : ((s.withSockets (s.sockets.modifyEvent (.read c)
          (reportRead (reventsOf events)))).pool.events.ev (.read c)).handler =
          some .httpReadEventProcess := hw₁.late.read
      rw [Http.dispatchRead, hread]
      simp only [if_pos hon]
      exact invoke_read hhan₁ 1 renv
    rw [recvCalls, hcall] at hbegins hcut
    rw [recvCalls, pageHanded, hcall, hdispatch]
    exact hinv₁.inv.read_waiting hw₁ hshort (reventsOf events) renv wenv hbegins hcut
  · have hidle : Http.dispatchRead inflateGzip s c (reventsOf events) renv = s := by
      rw [Http.dispatchRead, hread]
      simp only [if_neg hon]
    have hnone : readOf inflateGzip o s (.entry c events renv wenv) = none := by
      have hnot : ¬ ((s.pool.connections c).fd ≠ -1 ∧ reventsOf events &&& epollIn ≠ 0 ∧
          (s.pool.events.ev (.read c)).active = true ∧
          (s.pool.events.ev (.read c)).handler = some .httpReadEventProcess) :=
        fun hall => hon ⟨hall.2.1, hall.2.2.1⟩
      simp only [readOf, readCall, hread, Option.bind_eq_bind, Option.bind_some, if_neg hnot,
        Option.bind_none]
    have hstay : Http.dispatchWrite inflateGzip s c (reventsOf events) wenv = s :=
      dispatchWrite_idle hwrite (.inl hw.quiet) _ _
    rw [hidle, recvCalls, pageHanded, hnone]
    simp only [hstay, ite_self]
    exact hw.stay hshort

/-! ## Runs -/

/-- How far client `o` has come when it has made `calls` of `c->recv` and has handed over `pages`. -/
inductive Stage (url : HttpUrl) (r : Response) (o : Addr) (s : EventLoop) :
    List RecvCall → List (List UInt8) → Prop
  | sending {c : Slot} : Connected s c o (newClient url) → Stage url r o s [] []
  | waiting {c : Slot} {calls : List RecvCall} : Waiting r c o (calls.flatMap RecvCall.bytes) s →
      (calls.flatMap RecvCall.bytes).length < r.need → (∀ call ∈ calls, call.n ≠ -1) →
      Stage url r o s calls []
  | retrieved {calls : List RecvCall} : s.clients o = none → o < s.brk →
      Stage url r o s calls (r.page calls).toList

/-- Nothing has been received, and nothing is to be handed over. -/
theorem Response.page_nil (r : Response) : r.page [] = none :=
  r.page_short (by simpa using r.need_pos)

theorem WaitingNext.stage {calls : List RecvCall} {url : HttpUrl} {more : List RecvCall}
    {pages : List (List UInt8)}
    (h : WaitingNext r c o (calls.flatMap RecvCall.bytes) s' more pages)
    (hok : ∀ call ∈ calls, call.n ≠ -1) (hbrk : o < s'.brk) : Stage url r o s' (calls ++ more) pages := by
  have hflat : (calls ++ more).flatMap RecvCall.bytes =
      calls.flatMap RecvCall.bytes ++ more.flatMap RecvCall.bytes := List.flatMap_append ..
  cases h with
  | waiting hw hless hmore hpages =>
      subst hpages
      rw [← hflat] at hw hless
      exact .waiting hw hless (List.forall_mem_append.mpr ⟨hok, hmore⟩)
  | retrieved hnone hpages =>
      subst hpages
      rw [← hflat]
      have hpage : r.page (calls ++ more) =
          if r.need ≤ ((calls ++ more).flatMap RecvCall.bytes).length ∧ ∀ call ∈ more, call.n ≠ -1
          then some r.body.data else none := by
        rw [Response.page]
        refine if_congr (and_congr_right fun _ => ?_) rfl rfl
        rw [List.forall_mem_append]
        exact and_iff_right hok
      rw [← hpage]
      exact .retrieved hnone hbrk

/-- A client that is gone does not come back. -/
theorem Keeps.gone {o' : Addr} (h : Keeps o' s s') (hnone : s.clients o = none) :
    s'.clients o = none := by
  by_cases ho : o = o'
  · subst ho
    cases hrec : s'.clients o with
    | none => rfl
    | some client' =>
        obtain ⟨client, hclient, -⟩ := h.stored client' hrec
        rw [hnone] at hclient
        cases hclient
  · exact (h.others o ho).trans hnone

theorem Follows.gone (h : Follows inflateGzip o s s') (hnone : s.clients o = none) :
    s'.clients o = none := by
  obtain ⟨calls, hrun⟩ := h.run
  clear h
  induction hrun with
  | start => exact hnone
  | read _ howner _ ih =>
      have hlive := EventLoop.clients_of_owner howner
      rw [ih] at hlive
      cases hlive
  | write _ hwrite ih =>
      obtain ⟨c', o', client', -, hkeeps⟩ := httpWriteEventProcess_keeps hwrite
      exact hkeeps.gone ih
  | handshake _ hshake ih =>
      obtain ⟨c', o', client', -, hkeeps⟩ := sslHandshakeHandler_keeps hshake
      exact hkeeps.gone ih
  | elsewhere _ hclients ih => exact hclients.trans ih

/-- Where the read handler is not called, nothing is received and nothing handed over. -/
theorem calls_of_readOf (hnone : readOf inflateGzip o s a = none) :
    recvCalls inflateGzip o s a = [] ∧ pageHanded inflateGzip o s a = [] := by
  rw [recvCalls, pageHanded, hnone]
  exact ⟨rfl, rfl⟩

variable (inflateGzip) in
/-- A step that is not about the connection of a client. -/
theorem LoopInv.elsewhere (h : LoopInv False s) (he : loopEnabled s a) {client : HttpClient}
    (hclient : s.clients o = some client) (hlink : (s.link o).connection = some c) (hon : ¬ a.On c) :
    readOf inflateGzip o s a = none ∧ Untouched c o s (loopStep inflateGzip s a) := by
  have hh := h.holds hclient hlink
  refine ⟨h.readOf_none he ?_, h.step_untouched hh he hon⟩
  intro c' hh' hon'
  obtain rfl : c' = c := Option.some.inj (hh'.link.symm.trans hlink)
  exact hon hon'

variable (inflateGzip) in
/-- Clients are only ever added. -/
theorem LoopInv.below_step (h : LoopInv False s) {client : HttpClient} (hclient : s.clients o = some client)
    (a : LoopAction) : o < (loopStep inflateGzip s a).brk := by
  have hlt := h.ok.below o (by simp [hclient])
  have hfollows : Follows inflateGzip o s (loopStep inflateGzip s a) := h.follows hlt a
  exact Nat.lt_of_lt_of_le hlt hfollows.brk

/-- A step of a client whose request has not been sent. -/
theorem LoopInv.stage_sending {url : HttpUrl} (h : LoopInv False s) (he : loopEnabled s a)
    (hc : Connected s c o (newClient url)) (r : Response) :
    Stage url r o (loopStep inflateGzip s a) (recvCalls inflateGzip o s a) (pageHanded inflateGzip o s a) := by
  have hbrk := h.below_step inflateGzip hc.record a
  have hnil : ([] : List (List UInt8)) = (r.page []).toList := by
    rw [r.page_nil]
    rfl
  by_cases hon : a.On c
  · cases a with
    | create url' env => exact hon.elim
    | entry c' events renv wenv =>
        obtain rfl : c' = c := hon
        obtain ⟨hnone, hcases⟩ := h.entry_connected inflateGzip hc r events renv wenv
        obtain ⟨hcalls, hpages⟩ := calls_of_readOf hnone
        rw [hcalls, hpages]
        rcases hcases with hc' | hw' | hgone
        · exact .sending hc'
        · refine .waiting hw' r.need_pos ?_
          intro call hcall
          exact absurd hcall List.not_mem_nil
        · rw [hnil]
          exact .retrieved hgone hbrk
    | expire e now env =>
        obtain rfl : e.slot = c := hon
        have hstatus : (newClient url).status ≠ .htmlDone := show ClientStatus.connDone ≠ _ by decide
        obtain ⟨hgone, hcalls, hpages⟩ := h.expire_gone inflateGzip he.2.1
          (h.holds hc.record hc.link) hc.record hstatus now env
        rw [hcalls, hpages, hnil]
        exact .retrieved hgone hbrk
  · obtain ⟨hnone, hu⟩ := h.elsewhere inflateGzip he hc.record hc.link hon
    obtain ⟨hcalls, hpages⟩ := calls_of_readOf hnone
    rw [hcalls, hpages]
    exact .sending (hc.untouched hu)

/-- A step of a client that is waiting for its response. -/
theorem LoopInv.stage_waiting {url : HttpUrl} (h : LoopInv False s) (he : loopEnabled s a)
    {calls : List RecvCall} (hw : Waiting r c o (calls.flatMap RecvCall.bytes) s)
    (hless : (calls.flatMap RecvCall.bytes).length < r.need) (hok : ∀ call ∈ calls, call.n ≠ -1)
    {trail : List UInt8}
    (hbegins : (calls ++ recvCalls inflateGzip o s a).flatMap RecvCall.bytes <+: r.bytes ++ trail)
    (hcut : ¬ CutsNumber r ((calls ++ recvCalls inflateGzip o s a).flatMap RecvCall.bytes)) :
    Stage url r o (loopStep inflateGzip s a) (calls ++ recvCalls inflateGzip o s a)
      (pageHanded inflateGzip o s a) := by
  obtain ⟨client, hclient, -⟩ := hw.record
  have hbrk := h.below_step inflateGzip hclient a
  by_cases hon : a.On c
  · cases a with
    | create url' env => exact hon.elim
    | entry c' events renv wenv =>
        obtain rfl : c' = c := hon
        rw [List.flatMap_append] at hbegins hcut
        exact (h.entry_waiting hw hless events renv wenv hbegins hcut).stage hok hbrk
    | expire e now env =>
        obtain rfl : e.slot = c := hon
        obtain ⟨hgone, hcalls, hpages⟩ := h.expire_gone inflateGzip he.2.1
          (h.holds hclient hw.link) hclient (hw.status hclient) now env
        have hnil : ([] : List (List UInt8)) = (r.page calls).toList := by
          rw [r.page_short hless]
          rfl
        rw [hcalls, hpages, List.append_nil, hnil]
        exact .retrieved hgone hbrk
  · obtain ⟨hnone, hu⟩ := h.elsewhere inflateGzip he hclient hw.link hon
    obtain ⟨hcalls, hpages⟩ := calls_of_readOf hnone
    rw [hcalls, hpages, List.append_nil]
    exact .waiting (hw.untouched hu) hless hok

/-- A client that has been released receives nothing more. -/
theorem LoopInv.stage_retrieved {url : HttpUrl} (h : LoopInv False s) (he : loopEnabled s a)
    (hnone : s.clients o = none) (hlt : o < s.brk) (r : Response) (calls : List RecvCall) :
    Stage url r o (loopStep inflateGzip s a) (calls ++ recvCalls inflateGzip o s a)
      ((r.page calls).toList ++ pageHanded inflateGzip o s a) := by
  have hfollows : Follows inflateGzip o s (loopStep inflateGzip s a) := h.follows hlt a
  have hread : readOf inflateGzip o s a = none := by
    refine h.readOf_none he ?_
    intro c hh hon
    obtain ⟨client, howns⟩ := hh.client
    cases hnone.symm.trans howns.record
  obtain ⟨hcalls, hpages⟩ := calls_of_readOf hread
  rw [hcalls, hpages, List.append_nil, List.append_nil]
  exact .retrieved (hfollows.gone hnone) (Nat.lt_of_lt_of_le hlt hfollows.brk)

/-- One step, whatever it is about. -/
theorem LoopInv.stage_step {url : HttpUrl} (h : LoopInv False s) {calls : List RecvCall}
    {pages : List (List UInt8)} (hstage : Stage url r o s calls pages) (he : loopEnabled s a)
    {trail : List UInt8}
    (hbegins : (calls ++ recvCalls inflateGzip o s a).flatMap RecvCall.bytes <+: r.bytes ++ trail)
    (hcut : ¬ CutsNumber r ((calls ++ recvCalls inflateGzip o s a).flatMap RecvCall.bytes)) :
    Stage url r o (loopStep inflateGzip s a) (calls ++ recvCalls inflateGzip o s a)
      (pages ++ pageHanded inflateGzip o s a) := by
  cases hstage with
  | sending hc => exact h.stage_sending he hc r
  | waiting hw hless hok => exact h.stage_waiting he hw hless hok hbegins hcut
  | retrieved hnone hlt => exact h.stage_retrieved he hnone hlt r calls

/-- A run from the creation of the client on, by induction on the steps. -/
theorem run_stage {n : UInt32} {url : HttpUrl} {as : List LoopAction} {t : EventLoop}
    (hrun : Run (eventLoop n inflateGzip) s as t) (h : LoopInv False s) (hstage : Stage url r o s [] [])
    {trail : List UInt8} (hbytes : bytesIn inflateGzip n o s as <+: r.bytes ++ trail)
    (hcuts : ∀ pre, pre <+: as → ¬ CutsNumber r (bytesIn inflateGzip n o s pre)) :
    LoopInv False t ∧
      Stage url r o t (callsIn inflateGzip n o s as) (pagesIn inflateGzip n o s as) := by
  induction hrun with
  | nil => exact ⟨h, hstage⟩
  | snoc hrun he hn ih =>
      rename_i as t u a
      obtain rfl := Option.some.inj hn
      have hcalls : callsIn inflateGzip n o s (as ++ [a]) =
          callsIn inflateGzip n o s as ++ recvCalls inflateGzip o t a := hrun.gather_snoc _ a
      have hpages : pagesIn inflateGzip n o s (as ++ [a]) =
          pagesIn inflateGzip n o s as ++ pageHanded inflateGzip o t a := hrun.gather_snoc _ a
      have hcut := hcuts _ (List.prefix_refl _)
      rw [bytesIn, hcalls] at hbytes hcut
      rw [hcalls, hpages]
      have hbefore : bytesIn inflateGzip n o s as <+: r.bytes ++ trail := by
        rw [List.flatMap_append] at hbytes
        exact (List.prefix_append _ _).trans hbytes
      obtain ⟨hinv, ht⟩ := ih hbefore fun pre hpre => hcuts pre (hpre.trans (List.prefix_append as [a]))
      exact ⟨hinv.step he fun hf => hf.elim, hinv.stage_step ht he hbytes hcut⟩

/-- The page of a client. Whatever happens in a run, a client that is created for a page without TLS
hands over the body of the response that its peer has sent, once, as soon as all that is waited for has
been received and unless a call of `recv` fails by then; it hands over nothing else, and it is not done
before. The bytes received are those of the response and may go on behind it, and no call of the read
handler may end in the middle of a chunk's size. -/
theorem reachable_page {n : UInt32} {trail : List UInt8} {url : HttpUrl} {env : ConnEnv}
    {as : List LoopAction} {t : EventLoop} (hr : Reachable (eventLoop n inflateGzip) s)
    (hurl : url.schema ≠ lit "https")
    (hrun : Run (eventLoop n inflateGzip) (httpClientCreate s url env) as t)
    (hbytes : bytesIn inflateGzip n s.brk (httpClientCreate s url env) as <+: r.bytes ++ trail)
    (hcuts : ∀ pre, pre <+: as →
      ¬ CutsNumber r (bytesIn inflateGzip n s.brk (httpClientCreate s url env) pre)) :
    pagesIn inflateGzip n s.brk (httpClientCreate s url env) as =
        (r.page (callsIn inflateGzip n s.brk (httpClientCreate s url env) as)).toList ∧
      ∀ client, t.clients s.brk = some client → client.status ≠ .htmlDone ∧
        (bytesIn inflateGzip n s.brk (httpClientCreate s url env) as).length < r.need := by
  have hinv := reachable_loopInv hr
  obtain ⟨hbrk, hcases⟩ := hinv.create_connected hurl env
  have hnil : ([] : List (List UInt8)) = (r.page []).toList := by
    rw [r.page_nil]
    rfl
  have hstage : Stage url r s.brk (httpClientCreate s url env) [] [] := by
    rcases hcases with hnone | ⟨c, hc⟩
    · rw [hnil]
      exact .retrieved hnone hbrk
    · exact .sending hc
  have hfirst : LoopInv False (httpClientCreate s url env) := (hinv.create url fun hf => hf.elim).1
  obtain ⟨-, hlast⟩ := run_stage hrun hfirst hstage hbytes hcuts
  rw [bytesIn]
  generalize callsIn inflateGzip n s.brk (httpClientCreate s url env) as = calls at hlast
  generalize pagesIn inflateGzip n s.brk (httpClientCreate s url env) as = pages at hlast
  cases hlast with
  | sending hc =>
      refine ⟨hnil, fun client hclient => ⟨?_, r.need_pos⟩⟩
      cases hc.record.symm.trans hclient
      exact show ClientStatus.connDone ≠ _ by decide
  | waiting hw hless hok =>
      refine ⟨by rw [r.page_short hless]; rfl, fun client hclient => ⟨hw.status hclient, hless⟩⟩
  | retrieved hnone hlt =>
      refine ⟨rfl, fun client hclient => ?_⟩
      cases hnone.symm.trans hclient

end

/-! ## Two pages -/

/-- `CutsNumber`, checked line by line. -/
def cutsLine : List ChunkText → List UInt8 → Bool
  | [], _ => false
  | t :: texts, got =>
      (got.isPrefixOf (t.line ++ [13]) && lineLen got != 0) ||
        (t.bytes.isPrefixOf got && cutsLine texts (got.drop t.bytes.length))

def cutsCheck (r : Response) (got : List UInt8) : Bool :=
  match r.body with
  | .sized _ => false
  | .chunked texts => r.head.isPrefixOf got && cutsLine texts (got.drop r.head.length)

theorem cutsLine_of_cut {before after : List ChunkText} {t : ChunkText} {begun : List UInt8}
    (hbegun : begun <+: t.line ++ [13]) (hlen : lineLen begun ≠ 0) :
    cutsLine (before ++ t :: after) (before.flatMap ChunkText.bytes ++ begun) = true := by
  induction before with
  | nil =>
      have hprefix : begun.isPrefixOf (t.line ++ [13]) = true := List.isPrefixOf_iff_prefix.mpr hbegun
      simp [cutsLine, hprefix, hlen]
  | cons t' before ih =>
      rw [List.cons_append, List.flatMap_cons, List.append_assoc, cutsLine, List.drop_left, ih]
      simp

theorem cutsCheck_sound {r : Response} {got : List UInt8} (h : cutsCheck r got = false) :
    ¬ CutsNumber r got := by
  rintro ⟨before, t, after, begun, hbody, rfl, hbegun, hlen⟩
  have hhead : r.head.isPrefixOf (r.head ++ (before.flatMap ChunkText.bytes ++ begun)) = true :=
    List.isPrefixOf_iff_prefix.mpr (List.prefix_append _ _)
  rw [cutsCheck, hbody] at h
  simp [cutsLine_of_cut hbegun hlen, hhead] at h

/-- A response with a body of five bytes. -/
def helloResponse : Response where
  head := oneField lengthField
  status := okStatus
  fields := [lengthField]
  last := emptyLine
  body := .sized (lit "hello")
  lines := oneField_lines (by decide)
  walked := ⟨by decide, by decide,
    List.forall_mem_singleton.mpr (HeadLine.fits_of_lt (by decide) (by decide))⟩
  announced := ⟨by decide +kernel, by decide⟩
  small := by decide

/-- The coding that a chunked body is announced with. -/
def codingField : HeadLine := lineOf (lit "Transfer-Encoding: chunked") (forall_mem_of_all (by decide))

/-- A response of three chunks. -/
def chunkedResponse : Response where
  head := oneField codingField
  status := okStatus
  fields := [codingField]
  last := emptyLine
  body := .chunked [upperText, oneByteText, lowerText]
  lines := oneField_lines (by decide)
  walked := ⟨by decide, by decide,
    List.forall_mem_singleton.mpr (HeadLine.fits_of_lt (by decide) (by decide))⟩
  announced := ⟨by decide +kernel, by decide +kernel⟩
  small := by decide

/-- The socket takes the 412 bytes of the request. -/
def requestSent : LoopAction :=
  .entry 0 epollOut silentEnv { silentEnv with sys := [.count 412] }

/-- These bytes come, and no more for the time being. -/
def arrives (bytes : List UInt8) : LoopAction :=
  .entry 0 epollIn { silentEnv with turns := [{ sys := [.intr, .bytes bytes] }, { sys := [.again] }] }
    silentEnv

/-- The request is sent, and `n` bytes of the response are received first, then all the others and one
byte more. -/
def served (r : Response) (n : Nat) : List LoopAction :=
  [requestSent, arrives (r.bytes.take n), arrives (r.bytes.drop n ++ lit "!")]

/-- The loop behind the first of these, -/
def requested : EventLoop := loopStep noInflate (oneClient .inProgress) requestSent

/-- and behind the second. -/
def halfServed (r : Response) (n : Nat) : EventLoop :=
  loopStep noInflate requested (arrives (r.bytes.take n))

/-- Events of the first connection may come. -/
def Ready (s : EventLoop) : Prop := s.log.wrong = false ∧ 0 < s.pool.n ∧ s.dns = none

instance (s : EventLoop) : Decidable (Ready s) := inferInstanceAs (Decidable (_ ∧ _ ∧ _))

theorem Ready.enabled {s : EventLoop} (h : Ready s) (bytes : List UInt8) :
    loopEnabled s (arrives bytes) :=
  ⟨h.1, h.2.1, by rw [h.2.2]; exact fun hc => by cases hc⟩

/-- Five bytes are received in two pieces, and three chunks with the cut in the first of them. -/
theorem served_calls : Ready requested ∧
    (Ready (halfServed helloResponse 41) ∧ callsIn noInflate 2 1 (oneClient .inProgress)
      (served helloResponse 41) = [⟨4096, 41, helloResponse.bytes.take 41⟩, ⟨4055, -11, []⟩,
        ⟨4055, 3, lit "lo!"⟩, ⟨4052, -11, []⟩]) ∧
    (Ready (halfServed chunkedResponse 55) ∧ callsIn noInflate 2 1 (oneClient .inProgress)
      (served chunkedResponse 55) = [⟨4096, 55, chunkedResponse.bytes.take 55⟩, ⟨4041, -11, []⟩,
        ⟨4041, 41, chunkedResponse.bytes.drop 55 ++ lit "!"⟩, ⟨4000, -11, []⟩]) ∧
    ∀ pre ∈ (served chunkedResponse 55).inits, cutsCheck chunkedResponse
      (bytesIn noInflate 2 1 (oneClient .inProgress) pre) = false := by
  decide +kernel

theorem served_run {r : Response} {n : Nat} (h : Ready (halfServed r n)) :
    ∃ t, Run (eventLoop 2 noInflate) (oneClient .inProgress) (served r n) t := by
  have hfirst : Run (eventLoop 2 noInflate) (oneClient .inProgress) [requestSent] requested :=
    .snoc .nil ⟨by decide, by decide, by decide⟩ rfl
  have hsecond : Run (eventLoop 2 noInflate) (oneClient .inProgress)
      [requestSent, arrives (r.bytes.take n)] (halfServed r n) :=
    .snoc hfirst (served_calls.1.enabled (r.bytes.take n)) rfl
  exact ⟨_, hsecond.snoc (h.enabled (r.bytes.drop n ++ lit "!")) rfl⟩

/-- Each page is handed over once, when its last byte has come. -/
theorem reachable_page_served :
    pagesIn noInflate 2 1 (oneClient .inProgress) (served helloResponse 41) = [lit "hello"] ∧
      pagesIn noInflate 2 1 (oneClient .inProgress) (served chunkedResponse 55) =
        [lit "0123456789xccccccCCCCCC"] := by
  obtain ⟨-, ⟨hhello, hhelloCalls⟩, ⟨hchunked, hchunkedCalls⟩, hchecked⟩ := served_calls
  have hreach : Reachable (eventLoop 2 noInflate) (loopStart twoSlots) := ⟨_, _, twoSlots_init, .nil⟩
  have hschema : samplePage.schema ≠ lit "https" := by decide
  have hpage : ∀ (r : Response) n, Ready (halfServed r n) →
      bytesIn noInflate 2 1 (oneClient .inProgress) (served r n) <+: r.bytes ++ lit "!" →
      (∀ pre, pre <+: served r n →
        ¬ CutsNumber r (bytesIn noInflate 2 1 (oneClient .inProgress) pre)) →
      pagesIn noInflate 2 1 (oneClient .inProgress) (served r n) =
        (r.page (callsIn noInflate 2 1 (oneClient .inProgress) (served r n))).toList := by
    intro r n hready hbegins hcuts
    obtain ⟨t, hrun⟩ := served_run hready
    have hcreated : oneClient .inProgress =
        httpClientCreate (loopStart twoSlots) samplePage (connEnv .inProgress) := rfl
    have hbrk : (loopStart twoSlots).brk = 1 := rfl
    rw [hcreated] at hrun hbegins hcuts ⊢
    rw [← hbrk] at hbegins hcuts ⊢
    exact (reachable_page hreach hschema hrun hbegins hcuts).1
  constructor
  · rw [hpage helloResponse 41 hhello, hhelloCalls]
    · decide
    · rw [bytesIn, hhelloCalls]
      decide +kernel
    · rintro pre - ⟨before, t, after, begun, hbody, -⟩
      cases hbody
  · rw [hpage chunkedResponse 55 hchunked, hchunkedCalls]
    · decide +kernel
    · rw [bytesIn, hchunkedCalls]
      decide +kernel
    · exact fun pre hpre => cutsCheck_sound (hchecked pre ((List.mem_inits _ _).mpr hpre))

end Crawler.Http
