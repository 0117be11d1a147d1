/-
# Crawler.Http.Batch — the events of one `epoll_wait`

`event_process` works through the whole list that `epoll_wait` has filled in, and by the time it comes
to an entry the handlers before it have closed connections, and the resolver's has opened others. The
code looks for a descriptor of -1 and for nothing else: a connection closed and handed out again in
between would pass.

It cannot happen: a handler closes no connection but its own, which is not reported twice, and a new
client gets a slot that was free. Each entry finds its connection and its client exactly as
`epoll_wait` has seen them (`batch_untouched`).
-/
import Crawler.Http.Reports

namespace Crawler.Http

open Crawler.Lib Crawler.EventTimer Crawler.Connections

/-! ## What is left alone -/

/-- Connection `c` and its client `o` are as they were. -/
structure Untouched (c : Slot) (o : Addr) (s s' : EventLoop) : Prop where
  connection : s'.pool.connections c = s.pool.connections c
  ev : ∀ e : EventRef, e.slot = c → s'.pool.events.ev e = s.pool.events.ev e
  io : s'.io c = s.io c
  client : s'.clients o = s.clients o
  link : s'.link o = s.link o
  n : s'.pool.n = s.pool.n
  dns : s'.dns = s.dns

theorem Untouched.refl (c : Slot) (o : Addr) (s : EventLoop) : Untouched c o s s :=
  ⟨rfl, fun _ _ => rfl, rfl, rfl, rfl, rfl, rfl⟩

theorem Untouched.trans {c : Slot} {o : Addr} {s₀ s₁ s₂ : EventLoop} (h : Untouched c o s₀ s₁)
    (h' : Untouched c o s₁ s₂) : Untouched c o s₀ s₂ where
  connection := h'.connection.trans h.connection
  ev e he := (h'.ev e he).trans (h.ev e he)
  io := h'.io.trans h.io
  client := h'.client.trans h.client
  link := h'.link.trans h.link
  n := h'.n.trans h.n
  dns := h'.dns.trans h.dns

/-- What happens to one connection leaves the others alone. -/
theorem AwayFrom.untouched {c c' : Slot} {o : Addr} {s s' : EventLoop}
    (h : AwayFrom c' s.sockets s'.sockets) (hc : c ≠ c') (hclient : s'.clients o = s.clients o)
    (hlink : s'.link o = s.link o) (hdns : s'.dns = s.dns) : Untouched c o s s' where
  connection := h.connections c hc
  ev e he := h.ev e (he ▸ hc)
  io := h.io c hc
  client := hclient
  link := hlink
  n := h.n
  dns := hdns

theorem Untouched.holds {guarded : Prop} {c : Slot} {o : Addr} {s s' : EventLoop}
    (h : Untouched c o s s') (hc : Holds guarded s c o) (hok : LoopOk guarded s') :
    Holds guarded s' c o := by
  obtain ⟨client, howns⟩ := hc.client
  have hheld : Held s'.pool c := by
    rw [Held, h.n, h.connection]
    exact howns.owned.held
  have hdns : s'.dns ≠ some c := by
    intro hdns
    have hdata := (hok.dns c hdns).data
    rw [h.connection, howns.owned.owner] at hdata
    cases hdata
  obtain ⟨o', ho'⟩ := (hok.slots c hheld).resolve_left hdns
  obtain ⟨client', howns'⟩ := ho'.client
  have hsame : o' = o := Ptr.owner.inj
    (howns'.owned.owner.symm.trans ((congrArg Connection.data h.connection).trans howns.owned.owner))
  exact hsame ▸ ho'

section Handlers

variable {guarded : Prop} {s s' : EventLoop} {c c' : Slot} {o o' : Addr}

/-- A handler leaves the connections of other clients alone, however it ends. -/
theorem After.untouched (ha : Apart guarded s c' o') (h : After c' o' s s') (hc : c ≠ c')
    (ho : o ≠ o') : Untouched c o s s' := by
  rcases h with hk | hg
  · exact hk.serving.within.awayFrom.untouched hc (hk.serving.clients o ho)
      (congrFun hk.serving.link o) hk.serving.dns
  · obtain ⟨-, xs, s₁, hs, -, hr⟩ := ha.gone hg
    have h₁ : Untouched c o s s₁ := hs.within.awayFrom.untouched hc (hs.clients o ho)
      (congrFun hs.link o) hs.dns
    refine h₁.trans (hr.awayFrom.untouched hc ?_ (hr.link o ho) hr.dns)
    rw [hr.clients, Function.update_of_ne ho]

theorem Untouched.log {s : EventLoop} (c : Slot) (o : Addr) (log : Log) :
    Untouched c o s { s with log := log } :=
  ⟨rfl, fun _ _ => rfl, rfl, rfl, rfl, rfl, rfl⟩

theorem settle_untouched (hc' : Apart guarded s c' o') (hc : c ≠ c') (ho : o ≠ o')
    {r : Option EventLoop} (hr : ∀ s', r = some s' → After c' o' s s') :
    Untouched c o s (s.settle r) := by
  cases hres : r with
  | none => exact .log c o _
  | some s' => exact (hr s' hres).untouched hc' hc ho

variable (inflateGzip : HttpBuf → HttpBuf → Int × HttpBuf)

theorem LoopInv.invoke_untouched (h : LoopInv guarded s) (hh : Holds guarded s c' o') {e : EventRef}
    (he : e.slot = c') (hactive : (s.pool.events.ev e).active = true) (hc : c ≠ c') (ho : o ≠ o')
    (env : Env) : Untouched c o s (Http.invoke inflateGzip handlerDepth s e env) := by
  have hcn : Holds guarded (s.note e) c' o' := hh.withLog _
  have hap : Apart guarded (s.note e) c' o' := (h.note hh he).inv.ok.apart hcn
  obtain ⟨client, howns⟩ := hcn.client
  refine (Untouched.log c o _ : Untouched c o s (s.note e)).trans ?_
  rw [handlerDepth, Http.invoke]
  cases hcn.activeHandler he hactive with
  | handshake hearly hhan =>
      simp only [hhan]
      exact settle_untouched hap hc ho fun s' hs' => sslHandshakeHandler_after he howns hearly hs'
  | write hew hsaved hhan =>
      subst hew
      simp only [hhan]
      exact settle_untouched hap hc ho fun s' hs' => httpWriteEventProcess_after howns hhan hsaved hs'
  | read her hlate hhan =>
      subst her
      simp only [hhan]
      exact settle_untouched hap hc ho fun s' hs' => httpReadEventProcess_after howns hlate hs'
  | aside hew hlate hhan =>
      -- `ssl_write_handler` calls the read handler
      subst hew
      obtain ⟨hread, -, -, hdata⟩ := howns.owned.names
      have hcn₂ : Holds guarded ((s.note (.write c')).note (.read c')) c' o' := hcn.withLog _
      have hap₂ : Apart guarded ((s.note (.write c')).note (.read c')) c' o' := hap.withLog _
      obtain ⟨client₂, howns₂⟩ := hcn₂.client
      have hhan₂ : (((s.note (.write c')).note (.read c')).pool.events.ev (.read c')).handler =
          some .httpReadEventProcess := hlate.read
      have hlate₂ : Late ((s.note (.write c')).note (.read c')).sockets c' := hlate
      simp only [hhan, hdata, Option.map_some, Option.bind_some, hread, EventLoop.settle,
        Option.getD_some]
      rw [Http.invoke]
      simp only [hhan₂]
      exact (Untouched.log c o _ : Untouched c o (s.note (.write c'))
        ((s.note (.write c')).note (.read c'))).trans (settle_untouched hap₂ hc ho fun s' hs' =>
          httpReadEventProcess_after howns₂ hlate₂ hs')

/-- Setting flags of an event before its handler is called. -/
theorem Holds.flag_untouched (hh : Holds guarded s c' o') {e : EventRef} (he : e.slot = c')
    {f : Event → Event} (hdata : (f (s.pool.events.ev e)).data = (s.pool.events.ev e).data)
    (hset : (f (s.pool.events.ev e)).timerSet = (s.pool.events.ev e).timerSet) (hc : c ≠ c') :
    Untouched c o s (s.withSockets (s.sockets.modifyEvent e f)) := by
  obtain ⟨client, howns⟩ := hh.client
  have hw : Within c' s.sockets (s.sockets.modifyEvent e f) :=
    Within.modifyEvent howns.owned he hdata hset
  have ha : AwayFrom c' s.sockets (s.withSockets (s.sockets.modifyEvent e f)).sockets := hw.awayFrom
  exact ha.untouched hc rfl rfl rfl

theorem LoopInv.dispatchRead_untouched (h : LoopInv guarded s) (hh : Holds guarded s c' o')
    (hc : c ≠ c') (ho : o ≠ o') (revents : UInt32) (env : Env) :
    Untouched c o s (Http.dispatchRead inflateGzip s c' revents env) := by
  obtain ⟨client, howns⟩ := hh.client
  rw [Http.dispatchRead, howns.owned.names.1]
  simp only
  split
  case isTrue hon =>
    obtain ⟨hf, hcf⟩ := h.flag hh (e := .read c') rfl
      (f := fun ev =>
        { ev with
          pendingEof := if revents &&& epollRdhup ≠ 0 then true else ev.pendingEof
          ready := true }) rfl rfl rfl rfl
    refine (hh.flag_untouched rfl rfl rfl hc).trans
      (hf.inv.invoke_untouched inflateGzip hcf rfl ?_ hc ho env)
    have hact : (s.sockets.pool.events.ev (.read c')).active = true := hon.2
    simpa [EventLoop.withSockets] using hact
  case isFalse => exact .refl c o s

theorem LoopInv.dispatchWrite_untouched (h : LoopInv guarded s) (hh : Holds guarded s c o)
    (hn : c' < s.pool.n) (hdns : s.dns ≠ some c') (hc : c ≠ c') (revents : UInt32) (env : Env) :
    Untouched c o s (Http.dispatchWrite inflateGzip s c' revents env) := by
  obtain ⟨xs, hok⟩ := h.ok.pool
  rw [Http.dispatchWrite, (hok.names c' hn).2]
  simp only
  split
  case isTrue hon =>
    split
    case isTrue => exact .refl c o s
    case isFalse hfd =>
      obtain ⟨o', hh'⟩ := (h.ok.slots c' ⟨hn, hfd⟩).resolve_left hdns
      have ho : o ≠ o' := by
        rintro rfl
        exact hc (Option.some.inj (hh.link.symm.trans hh'.link))
      obtain ⟨hf, hcf⟩ := h.flag hh' (e := .write c') rfl (f := fun ev => { ev with ready := true })
        rfl rfl rfl rfl
      refine (hh'.flag_untouched rfl rfl rfl hc).trans
        (hf.inv.invoke_untouched inflateGzip hcf rfl ?_ hc ho env)
      have hact : (s.sockets.pool.events.ev (.write c')).active = true := hon.2
      simpa [EventLoop.withSockets] using hact
  case isFalse => exact .refl c o s

/-- An entry leaves the connections of other clients alone. -/
theorem LoopInv.entry_untouched (h : LoopInv guarded s) (hh : Holds guarded s c o)
    (hn : c' < s.pool.n) (hdns : s.dns ≠ some c') (hc : c ≠ c') (events : UInt32) (renv wenv : Env) :
    Untouched c o s (eventEntry inflateGzip s c' events renv wenv) := by
  rw [eventEntry]
  split
  case isTrue => exact .refl c o s
  case isFalse hfd =>
    obtain ⟨o', hh'⟩ := (h.ok.slots c' ⟨hn, hfd⟩).resolve_left hdns
    have ho : o ≠ o' := by
      rintro rfl
      exact hc (Option.some.inj (hh.link.symm.trans hh'.link))
    have hr := h.dispatchRead inflateGzip hh' (reventsOf events) renv
    have hu := h.dispatchRead_untouched inflateGzip hh' hc ho (reventsOf events) renv
    simp only
    split
    case isTrue => exact hu
    case isFalse =>
      refine hu.trans (hr.inv.dispatchWrite_untouched inflateGzip (hu.holds hh hr.inv.ok) ?_ ?_ hc
        (reventsOf events) wenv)
      · rw [hr.n]
        exact hn
      · rw [hr.dns]
        exact hdns

/-- A round of `event_expire_timers` leaves the connections of other clients alone. -/
theorem LoopInv.expire_untouched (h : LoopInv guarded s) (hh : Holds guarded s c o) {e : EventRef}
    (he : e ∈ s.pool.events.rbtree) (hc : c ≠ e.slot) (env : Env) :
    Untouched c o s (expireRound inflateGzip s e env) := by
  obtain ⟨o', client, t, hh', howns, -, hw, -, -, hexp⟩ := h.expire_eq inflateGzip he env
  have ho : o ≠ o' := by
    rintro rfl
    exact hc (Option.some.inj (hh.link.symm.trans hh'.link))
  have hserving := (Serving.refl e.slot o' s).withSockets hw
  have hap := ((h.ok.apart hh').serving hserving).withLog
    ((s.withSockets ⟨{ s.pool with events := t }, s.io⟩).note e).log
  have hu : Untouched c o s (s.withSockets ⟨{ s.pool with events := t }, s.io⟩) :=
    AwayFrom.untouched hw.awayFrom hc rfl rfl rfl
  rw [hexp]
  exact (hu.trans (.log c o _)).trans (After.untouched hap
    (.inr ⟨_, client, .refl _ _ _, howns.handler, rfl⟩) hc ho)

end Handlers

/-! ## Creating a client -/

/-- Whatever becomes of the new client, the connection it was given was free. -/
theorem LoopInv.create_adds {guarded : Prop} {s : EventLoop} (h : LoopInv guarded s) (url : HttpUrl)
    (env : ConnEnv) : ∃ c, ¬ Held s.pool c ∧ AwayFrom c s.sockets (httpClientCreate s url env).sockets ∧
      (∀ o, o ≠ s.brk → (httpClientCreate s url env).clients o = s.clients o ∧
        (httpClientCreate s url env).link o = s.link o) ∧
      (httpClientCreate s url env).dns = s.dns := by
  obtain ⟨xs, hok⟩ := h.ok.pool
  have hok' : PoolOk (addClient s url).pool xs := hok
  rw [httpClientCreate]
  rcases httpConn_cases hok' s.brk env with
    ⟨-, s', hconn, hfail⟩ | ⟨-, c, ys, s', -, hconn, hgive⟩
  · obtain ⟨c, hidle, -, haway⟩ := hfail.away
    have hrec : s'.clients s.brk = some (newClient url) := by
      rw [hfail.clients]
      simp [addClient]
    have hlink : (s'.link s.brk).connection = none := by
      rw [hfail.link]
      simp [addClient]
    obtain ⟨calls, hcall⟩ := callHandler_bare hrec hlink
    simp only [hconn, Option.map_some, EventLoop.settle, Option.getD_some]
    rw [if_pos (by decide), hcall]
    refine ⟨c, hidle, haway, fun o ho => ⟨?_, ?_⟩, hfail.dns⟩
    · show Function.update s'.clients s.brk none o = s.clients o
      rw [Function.update_of_ne ho, hfail.clients, addClient_clients s url ho]
    · show s'.link o = s.link o
      rw [hfail.link, addClient_link s url ho]
  · obtain ⟨f, -, hcl⟩ := hgive.clients
    simp only [hconn, Option.map_some, EventLoop.settle, Option.getD_some]
    rw [if_neg (by decide)]
    refine ⟨c, hgive.idle, hgive.away, fun o ho => ⟨?_, ?_⟩, hgive.dns⟩
    · rw [hcl, Function.update_of_ne ho, addClient_clients s url ho]
    · rw [hgive.link, Function.update_of_ne ho, addClient_link s url ho]

theorem LoopInv.create_untouched {guarded : Prop} {s : EventLoop} (h : LoopInv guarded s) {c : Slot}
    {o : Addr} (hh : Holds guarded s c o) (url : HttpUrl) (env : ConnEnv) :
    Untouched c o s (httpClientCreate s url env) := by
  obtain ⟨client, howns⟩ := hh.client
  obtain ⟨c', hidle, haway, hsame, hdns⟩ := h.create_adds url env
  have hc : c ≠ c' := fun heq => hidle (heq ▸ howns.owned.held)
  have ho : o ≠ s.brk := fun heq =>
    Nat.lt_irrefl _ (heq ▸ h.ok.below o (by simp [howns.record]))
  exact haway.untouched hc (hsame o ho).1 (hsame o ho).2 hdns

/-- The action is about connection `c`. -/
def LoopAction.On (c : Slot) : LoopAction → Prop
  | .create .. => False
  | .entry c' .. => c' = c
  | .expire e .. => e.slot = c

/-- What is about something else leaves a connection and its client alone. -/
theorem LoopInv.step_untouched {guarded : Prop} {inflateGzip : HttpBuf → HttpBuf → Int × HttpBuf}
    {s : EventLoop} (h : LoopInv guarded s) {c : Slot} {o : Addr} (hh : Holds guarded s c o)
    {a : LoopAction} (he : loopEnabled s a) (hon : ¬ a.On c) :
    Untouched c o s (loopStep inflateGzip s a) := by
  cases a with
  | create url env => exact h.create_untouched hh url env
  | entry c' events renv wenv =>
      exact h.entry_untouched inflateGzip hh he.2.1 he.2.2 (fun hc => hon hc.symm) events renv wenv
  | expire e now env => exact h.expire_untouched inflateGzip hh he.2.1 (fun hc => hon hc.symm) env

/-! ## The batch -/

/-- What happens while `event_process` works through the list: an entry of a client's connection, or a
client that the resolver's handler creates in between. -/
inductive BatchItem where
  | entry (fd : Int) (c : Slot) (events : UInt32) (renv wenv : Env)
  | create (url : HttpUrl) (env : ConnEnv)

def BatchItem.action : BatchItem → LoopAction
  | .entry _ c events renv wenv => .entry c events renv wenv
  | .create url env => .create url env

def BatchItem.fd : BatchItem → Option Int
  | .entry fd .. => some fd
  | .create .. => none

/-- The entries are reports from the interest list `k`, with no descriptor reported twice. -/
structure Batch (k : Interest) (items : List BatchItem) : Prop where
  reported : ∀ fd c events renv wenv, .entry fd c events renv wenv ∈ items → Reports k fd c events
  once : (items.filterMap BatchItem.fd).Nodup

/-- A connection that is not among the entries is left alone, by induction on the entries. -/
theorem LoopInv.batch_untouched {n : UInt32} {inflateGzip : HttpBuf → HttpBuf → Int × HttpBuf}
    {s t : EventLoop} {k : Interest} {items : List BatchItem}
    (h : LoopInv False s) (hk : Registered s.pool k)
    (hrep : ∀ fd c events renv wenv, .entry fd c events renv wenv ∈ items → Reports k fd c events)
    (hr : Run (eventLoop n inflateGzip) s (items.map BatchItem.action) t) {c : Slot} {o : Addr}
    (hh : Holds False s c o) (hnot : (s.pool.connections c).fd ∉ items.filterMap BatchItem.fd) :
    LoopInv False t ∧ Untouched c o s t := by
  induction items using List.reverseRecOn generalizing t with
  | nil =>
      obtain rfl := Run.nil_iff.mp hr
      exact ⟨h, .refl c o t⟩
  | append_singleton items item ih =>
      rw [List.map_append, List.map_singleton, Run.snoc_iff] at hr
      obtain ⟨t₀, hr₀, he, hn⟩ := hr
      rw [List.filterMap_append, List.mem_append, not_or] at hnot
      obtain ⟨hinv, hu⟩ := ih (fun fd c events renv wenv hm => hrep fd c events renv wenv
        (List.mem_append_left _ hm)) hr₀ hnot.1
      have hh₀ := hu.holds hh hinv.ok
      obtain rfl := Option.some.inj hn
      refine ⟨hinv.step he fun hf => hf.elim, hu.trans ?_⟩
      refine hinv.step_untouched hh₀ he fun hon => ?_
      cases item with
      | entry fd c' events renv wenv =>
          obtain rfl : c' = c := hon
          obtain ⟨-, hfd⟩ := (hrep fd c' events renv wenv (by simp)).watched hk
          exact hnot.2 (by simp [BatchItem.fd, hfd])
      | create url env => exact hon

/-- Each entry of a batch finds its connection and the client that owns it exactly as they were when
`epoll_wait` returned, whatever the entries before it have closed and opened; and if it says more than
that the peer writes no further, it leads to the call of a handler of the connection. -/
theorem reachable_batch {n : UInt32} {inflateGzip : HttpBuf → HttpBuf → Int × HttpBuf}
    {s₀ s : EventLoop} {as : List LoopAction} (hinit : LoopInit n s₀)
    (hr : Run (eventLoop n inflateGzip) s₀ as s)
    (hfresh : EveryStep (eventLoop n inflateGzip) s₀ as Fresh) :
    ∃ k, Listed s.pool k ∧ Registered s.pool k ∧
      ∀ pre fd c events renv wenv post t, Batch k (pre ++ .entry fd c events renv wenv :: post) →
        Run (eventLoop n inflateGzip) s (pre.map BatchItem.action) t → s.dns ≠ some c →
        ∃ o, (s.pool.connections c).data = .owner o ∧ (s.clients o).isSome ∧ Held t.pool c ∧
          Untouched c o s t ∧
          (t.log.wrong = false → events &&& (epollIn ||| epollOut ||| epollErr) ≠ 0 →
            ∃ e : EventRef, e.slot = c ∧ (t.pool.events.ev e).active = true ∧
              Calls e t (eventEntry inflateGzip t c events renv wenv)) := by
  obtain ⟨hinv, k, hlisted, hreg⟩ := run_listed hinit hr hfresh
  refine ⟨k, hlisted, hreg, fun pre fd c events renv wenv post t hb ht hdns => ?_⟩
  obtain ⟨hw, hfd⟩ := (hb.reported fd c events renv wenv (by simp)).watched hreg
  obtain ⟨o, hh⟩ := (hinv.ok.slots c hw.held).resolve_left hdns
  obtain ⟨client, howns⟩ := hh.client
  have honce := hb.once
  rw [List.filterMap_append, List.nodup_append'] at honce
  have hnot : (s.pool.connections c).fd ∉ pre.filterMap BatchItem.fd := by
    rw [hfd]
    intro hm
    exact honce.2.2 hm (by simp [BatchItem.fd])
  obtain ⟨hinv', hu⟩ := hinv.batch_untouched hreg
    (fun fd c events renv wenv hm => hb.reported fd c events renv wenv (List.mem_append_left _ hm))
    ht hh hnot
  obtain ⟨client', howns'⟩ := (hu.holds hh hinv'.ok).client
  have hw' : Watched t.pool c events := by
    refine ⟨howns'.owned.held, fun hin => ?_, fun hout => ?_, ?_⟩
    · rw [hu.ev (.read c) rfl]
      exact hw.read hin
    · rw [hu.ev (.write c) rfl]
      exact hw.write hout
    · rw [hu.ev (.read c) rfl, hu.ev (.write c) rfl]
      exact hw.any
  refine ⟨o, howns.owned.owner, by simp [howns.record], howns'.owned.held, hu, fun hright hsome => ?_⟩
  exact hinv'.reported hw' hsome (hu.dns ▸ hdns) hright inflateGzip renv wenv

/-- A page that is fetched over TLS. -/
def securePage : HttpUrl := ⟨443, lit "https", lit "a", lit "/"⟩

/-- A second client, on descriptor 6. -/
def secondEnv : ConnEnv := { connEnv .inProgress with fd := 6 }

/-- Two clients on two slots. -/
def twoClients : EventLoop :=
  loopStep noInflate (loopStep noInflate (loopStart twoSlots) (.create securePage (connEnv .inProgress)))
    (.create samplePage secondEnv)

/-- A handshake for which there is no memory. -/
def brokenEnv : Env := { silentEnv with sslNew := false }

/-- An error on the first socket, for which its client is given up; a third client, which gets the same
slot and the same descriptor; and the second socket, which can be written to. -/
def reusedSlot : List BatchItem :=
  [.entry 5 0 epollErr brokenEnv brokenEnv, .create samplePage (connEnv .inProgress),
    .entry 6 1 epollOut silentEnv silentEnv]

/-- The loop when it comes to the last of them. -/
def reused : EventLoop :=
  loopStep noInflate (loopStep noInflate twoClients (.entry 0 epollErr brokenEnv brokenEnv))
    (.create samplePage (connEnv .inProgress))

/-- The first slot has another client now, and the second is as it was. -/
theorem reachable_batch_reused :
    (reused.pool.connections 0).data ≠ (twoClients.pool.connections 0).data ∧
      Untouched 1 2 twoClients reused ∧
      ∃ e : EventRef, e.slot = 1 ∧
        Calls e reused (eventEntry noInflate reused 1 epollOut silentEnv silentEnv) := by
  have hrun : Run (eventLoop 2 noInflate) (loopStart twoSlots)
      [.create securePage (connEnv .inProgress), .create samplePage secondEnv] twoClients := by
    have hone : Run (eventLoop 2 noInflate) (loopStart twoSlots)
        [.create securePage (connEnv .inProgress)] _ := .snoc .nil rfl rfl
    exact hone.snoc (show _ = false by decide) rfl
  obtain ⟨k, -, hreg, hbatch⟩ := reachable_batch twoSlots_init hrun
    (everyStep_of_check freshCheck_sound (by decide))
  have hfirst : k 5 = some ⟨IoEvent.write.mask ||| clearEvent, 0⟩ :=
    hreg.edge (i := 0) ⟨by decide, by decide⟩ (by decide) (by decide)
  have hsecond : k 6 = some ⟨IoEvent.write.mask ||| clearEvent, 1⟩ :=
    hreg.edge (i := 1) ⟨by decide, by decide⟩ (by decide) (by decide)
  have hb : Batch k reusedSlot := by
    refine ⟨fun fd c events renv wenv hm => ?_, by decide⟩
    simp only [reusedSlot, List.mem_cons, BatchItem.entry.injEq, reduceCtorEq, List.not_mem_nil,
      or_false, false_or] at hm
    rcases hm with ⟨rfl, rfl, rfl, -, -⟩ | ⟨rfl, rfl, rfl, -, -⟩
    · exact ⟨_, hfirst, rfl, by decide⟩
    · exact ⟨_, hsecond, rfl, by decide⟩
  have hpre : Run (eventLoop 2 noInflate) twoClients
      [.entry 0 epollErr brokenEnv brokenEnv, .create samplePage (connEnv .inProgress)] reused := by
    have hone : Run (eventLoop 2 noInflate) twoClients [.entry 0 epollErr brokenEnv brokenEnv] _ :=
      .snoc .nil ⟨by decide, by decide, by decide⟩ rfl
    exact hone.snoc (show _ = false by decide +kernel) rfl
  obtain ⟨o, ho, -, -, hu, hcall⟩ := hbatch
    [.entry 5 0 epollErr brokenEnv brokenEnv, .create samplePage (connEnv .inProgress)] 6 1 epollOut
    silentEnv silentEnv [] reused hb hpre (by decide)
  have howner : (twoClients.pool.connections 1).data = .owner 2 := by decide
  obtain rfl := Ptr.owner.inj (howner.symm.trans ho)
  obtain ⟨e, he, -, hlog⟩ := hcall (by decide +kernel) (by decide)
  exact ⟨by decide +kernel, hu, e, he, hlog⟩

end Crawler.Http
