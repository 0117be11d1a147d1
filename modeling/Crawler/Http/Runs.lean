/-
# Crawler.Http.Runs — every run of the event loop

The invariant holds at the start and is kept by every step, so that no client is released twice and no
handler is called for a free slot or for a client that is gone. A run in which no connect succeeds at
once also keeps a timer for every client that holds a connection; a connect that does succeed at once
leaves its client without one.
-/
import Crawler.Http.Creation

namespace Crawler.Http

open Crawler.Lib Crawler.EventTimer Crawler.Connections

/-! ## The start -/

/-- A fresh pool, no slot of it held. -/
theorem connectionInit_idle {n : UInt32} {p : Pool} (h : connectionInit n = some p) (c : Slot) :
    ¬ Held p c := by
  intro hheld
  have hok := connectionInit_ok h
  exact hheld.2 ((hok.free c).mp (List.mem_range.mpr hheld.1)).2

theorem Journal.start (p : Pool) : Journal (loopStart p) where
  orderly := ⟨List.nodup_nil, fun _ hcall => by cases hcall⟩
  retired := fun _ ho => by cases ho

/-- What `dns_init` leaves: the first slot of the pool, held for the resolver without a timer. -/
theorem loopDnsInit_cases {p : Pool} {xs : List Slot} (hok : PoolOk p xs) {fd : Int} (hfd : 0 ≤ fd)
    {ctl : EpollCtl → Int} {s : EventLoop} (h : loopDnsInit (loopStart p) fd ctl = some s) :
    ∃ c ys q, xs = c :: ys ∧ s = { loopStart p with pool := q, dns := some c } ∧ PoolOk q ys ∧
      Resolves q c ∧ ∀ i, i ≠ c → (Held q i ↔ Held p i) := by
  rw [loopDnsInit] at h
  rcases hok.getConnection hfd with ⟨-, hget⟩ | ⟨c, ys, rfl, hget, hok₁, hheld₁⟩
  · have hget' : getConnection (loopStart p).pool fd = some (none, p) := hget
    simp [hget'] at h
  · obtain ⟨hcn, -⟩ := (hok.free c).mp (by simp)
    have hget' : getConnection (loopStart p).pool fd = _ := hget
    simp only [hget', Option.bind_eq_bind, Option.bind_some, handOut_connections, if_true,
      Option.pure_def] at h
    generalize hq : p.handOut c (.read c) (.write c) fd = q at h hok₁ hheld₁
    have hheldq : ∀ i, i ≠ c → (Held q i ↔ Held p i) := fun i hi => by
      rw [← hq, handOut_held p _ _ hcn hfd]
      simp [hi]
    have hok₂ := hok₁.setEvent (e := .read c)
      (v := { q.events.ev (.read c) with handler := some .dnsProcessEvent }) rfl rfl fun _ => hheld₁
    obtain ⟨req, hadd⟩ := hok₂.eventAdd (e := .read c) hheld₁ .read clearEvent ctl
    have hpair : ∀ e : EventRef, e.slot = c → q.events.ev e = { data := some c } := by
      intro e he
      rw [← hq]
      rcases EventRef.eq_of_slot he with rfl | rfl <;> simp
    rw [hadd] at h
    by_cases hreq : ctl req = -1
    · simp [hreq] at h
    · rw [if_neg hreq] at h
      simp only [Option.bind_some] at h
      have hzero : ¬ (0 : Int) = -1 := by decide
      rw [if_neg hzero] at h
      obtain rfl := Option.some.inj h
      have hok₃ := hok₂.ask (.ctl req c (ctl req))
      refine ⟨c, ys, _, rfl, rfl, hok₃.setActive (e := .read c) fun _ => hheld₁,
        ⟨hheld₁, ?_, fun e he => ?_⟩, hheldq⟩
      · show (q.connections c).data = .null
        rw [← hq]
        simp
      · have hr := hpair e he
        simp only [Pool.setActive, Pool.setEvent, Timers.set_ev]
        by_cases her : e = .read c
        · subst her
          simp [hr]
        · simp [her, hr]

theorem LoopInit.inv {n : UInt32} {s : EventLoop} (h : LoopInit n s) (guarded : Prop) :
    LoopInv guarded s := by
  obtain ⟨p, hinit, hstart⟩ := h
  have hok := connectionInit_ok hinit
  have hidle := connectionInit_idle hinit
  rcases hstart with rfl | ⟨fd, ctl, hfd, hdns⟩
  · refine ⟨⟨⟨_, hok⟩, fun c hc => absurd hc (hidle c), fun o ho => ?_, fun c hc => ?_, fun o ho => ?_⟩,
      Journal.start p⟩
    · cases ho
    · cases hc
    · cases ho
  · obtain ⟨c, ys, q, -, rfl, hokq, hres, hheld⟩ := loopDnsInit_cases hok hfd hdns
    refine ⟨⟨⟨ys, hokq⟩, fun i hi => ?_, fun o ho => ?_, fun i hi => ?_, fun o ho => ?_⟩,
      ⟨List.nodup_nil, fun _ hcall => ?_⟩, fun _ ho => ?_⟩
    · by_cases hic : i = c
      · exact Or.inl (congrArg some hic.symm)
      · exact absurd ((hheld i hic).mp hi) (hidle i)
    · cases ho
    · obtain rfl : c = i := Option.some.inj hi
      exact hres
    · cases ho
    · cases hcall
    · cases ho

/-! ## Every step -/

/-- The action creates a client whose connect succeeds at once. -/
def ConnectsAtOnce (s : EventLoop) : LoopAction → Prop
  | .create _ env => ReachesConnect s env ∧ env.connect = .done
  | _ => False

/-- Every step keeps the invariant; with `guarded` it must not connect at once. -/
theorem LoopInv.step {guarded : Prop} {inflateGzip : HttpBuf → HttpBuf → Int × HttpBuf}
    {s : EventLoop} (h : LoopInv guarded s) {a : LoopAction} (he : loopEnabled s a)
    (hg : guarded → ¬ ConnectsAtOnce s a) : LoopInv guarded (loopStep inflateGzip s a) := by
  cases a with
  | create url env => exact (h.create url hg).1
  | entry c events renv wenv => exact (h.entry inflateGzip he.2.1 he.2.2 events renv wenv).inv
  | expire e now env => exact (h.expire inflateGzip he.2.1 env).inv

theorem reachable_loopInv {n : UInt32} {inflateGzip : HttpBuf → HttpBuf → Int × HttpBuf}
    {s : EventLoop} (hr : Reachable (eventLoop n inflateGzip) s) : LoopInv False s := by
  apply hr.invariant
  · exact fun s₀ hinit => LoopInit.inv hinit False
  · intro t a v ht he hn
    obtain rfl := Option.some.inj hn
    exact ht.step he fun hf => hf.elim

/-- In every state the loop reaches, each client has been released at most once, and no handler has
been called for a free slot or for a client that was released. -/
theorem reachable_orderly {n : UInt32} {inflateGzip : HttpBuf → HttpBuf → Int × HttpBuf}
    {s : EventLoop} (hr : Reachable (eventLoop n inflateGzip) s) : Orderly s.log :=
  (reachable_loopInv hr).journal.orderly

/-- A page `/` on host `a`. -/
def samplePage : HttpUrl := ⟨80, lit "http", lit "a", lit "/"⟩

/-- A socket whose connect ends as given. -/
def connEnv (connect : Connect) : ConnEnv :=
  { fd := 5, nonblocking := 0, ctl := fun _ => 0, connect := connect, now := 0 }

/-- Nothing is received or sent, at clock value 5000. -/
def silentEnv : Env := { sys := [], ctl := fun _ => 0, now := timeoutConn, buf := 0 }

/-- Pages are left as they came. -/
def noInflate : HttpBuf → HttpBuf → Int × HttpBuf := fun source _ => (0, source)

/-- The loop on two slots after a client has been created. -/
def oneClient (connect : Connect) : EventLoop :=
  loopStep noInflate (loopStart twoSlots) (.create samplePage (connEnv connect))

theorem twoSlots_init : LoopInit 2 (loopStart twoSlots) :=
  ⟨twoSlots, rfl, Or.inl rfl⟩

/-- A client is created. -/
theorem oneClient_run (connect : Connect) : Run (eventLoop 2 noInflate) (loopStart twoSlots)
    [.create samplePage (connEnv connect)] (oneClient connect) :=
  .snoc .nil (show (loopStart twoSlots).log.wrong = false from rfl) rfl

/-- The client's connect times out, and the client is released. -/
theorem reachable_orderly_timeout : ∃ s, Run (eventLoop 2 noInflate) (loopStart twoSlots)
    [.create samplePage (connEnv .inProgress), .expire (.write 0) timeoutConn silentEnv] s ∧
      s.log.retrieved = [1] ∧ Orderly s.log := by
  have hrun : Run (eventLoop 2 noInflate) (loopStart twoSlots)
      [.create samplePage (connEnv .inProgress), .expire (.write 0) timeoutConn silentEnv]
      (loopStep noInflate (oneClient .inProgress) (.expire (.write 0) timeoutConn silentEnv)) :=
    .snoc (oneClient_run .inProgress) ⟨by decide, by decide, by decide⟩ rfl
  exact ⟨_, hrun, by decide, reachable_orderly (n := 2) ⟨_, _, twoSlots_init, hrun⟩⟩

/-! ## Timers -/

/-- Every client that holds a connection has one of the connection's two timers set. -/
def NoneStranded (s : EventLoop) : Prop :=
  ∀ o c, (s.clients o).isSome → (s.link o).connection = some c → HasTimer s.pool c

theorem LoopInv.noneStranded {s : EventLoop} (h : LoopInv True s) : NoneStranded s := by
  intro o c ho hlink
  obtain ⟨i, hi⟩ := h.ok.clients o ho
  obtain rfl : i = c := Option.some.inj (hi.link.symm.trans hlink)
  exact hi.armed trivial

/-- A connect that succeeds at once strands its client. -/
theorem ConnectsAtOnce.strands {inflateGzip : HttpBuf → HttpBuf → Int × HttpBuf} {s : EventLoop}
    (h : LoopInv True s) {a : LoopAction} (ha : ConnectsAtOnce s a) :
    ¬ NoneStranded (loopStep inflateGzip s a) := by
  cases a with
  | create url env =>
      obtain ⟨hreach, hdone⟩ := ha
      obtain ⟨xs, hok⟩ := h.ok.pool
      have hok' : PoolOk (addClient s url).pool xs := hok
      have hne : env.connect ≠ .error := by rw [hdone]; simp
      rcases httpConn_cases hok' s.brk env with ⟨hnot, -⟩ | ⟨-, c, ys, s', -, hconn, hgive⟩
      · exact absurd ⟨hreach, hne⟩ hnot
      · have hneg : ¬ (0 : Int) < 0 := by decide
        have hstep : loopStep inflateGzip s (.create url env) = s' := by
          rw [loopStep, httpClientCreate]
          simp only [hconn, Option.map_some, EventLoop.settle, Option.getD_some]
          rw [if_neg hneg]
        rw [hstep]
        intro hq
        obtain ⟨f, -, hcl⟩ := hgive.clients
        have htimer : HasTimer s'.pool c := by
          refine hq s.brk c ?_ ?_
          · rw [hcl, Function.update_self]
            simp [addClient]
          · rw [hgive.link, Function.update_self]
        have hprog := hgive.timer.mp htimer
        rw [hdone] at hprog
        cases hprog
  | entry c events renv wenv => exact ha.elim
  | expire e now env => exact ha.elim

/-- Every client that holds a connection has a timer in every state of a run exactly when no client of
the run is created by a connect that succeeds at once. -/
theorem everyState_noneStranded_iff {n : UInt32}
    {inflateGzip : HttpBuf → HttpBuf → Int × HttpBuf} {s₀ u : EventLoop} {as : List LoopAction}
    (hinit : LoopInit n s₀) (hrun : Run (eventLoop n inflateGzip) s₀ as u) :
    EveryState (eventLoop n inflateGzip) s₀ as NoneStranded ↔
      EveryStep (eventLoop n inflateGzip) s₀ as (fun s a => ¬ ConnectsAtOnce s a) := by
  apply everyState_iff hrun (P := LoopInv True)
  · exact LoopInit.inv hinit True
  · exact fun s h => h.noneStranded
  · intro s a s' h hc he hn
    obtain rfl := Option.some.inj hn
    exact h.step he fun _ => hc
  · intro s a s' h hc he hn
    obtain rfl := Option.some.inj hn
    exact ConnectsAtOnce.strands h (not_not.mp hc)

theorem everyState_noneStranded_iff_inProgress :
    EveryState (eventLoop 2 noInflate) (loopStart twoSlots)
        [.create samplePage (connEnv .inProgress)] NoneStranded ↔
      EveryStep (eventLoop 2 noInflate) (loopStart twoSlots)
        [.create samplePage (connEnv .inProgress)] (fun s a => ¬ ConnectsAtOnce s a) :=
  everyState_noneStranded_iff twoSlots_init (oneClient_run .inProgress)

/-- A client created by a connect that succeeds at once has no timer. -/
theorem done_not_noneStranded :
    ¬ ∀ n inflateGzip s, Reachable (eventLoop n inflateGzip) s → NoneStranded s := by
  intro hclaim
  have hq := hclaim 2 noInflate (oneClient .done) ⟨_, _, twoSlots_init, oneClient_run .done⟩
  have htimer := hq 1 0 (by decide) (by decide)
  have hoff : ¬ HasTimer (oneClient .done).pool 0 := by
    rw [HasTimer]
    decide
  exact hoff htimer

end Crawler.Http
