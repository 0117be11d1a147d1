/-
# Crawler.ProcessCycle — the rounds of a worker, and the slots its queries will need

A round of `work_process_cycle` asks for one URL's address where more slots are free than
`connection_threshold`, and then lets the events and the timers have their turn. A slot is taken only
when the answer comes, and the gate does not count the queries that have none yet: in every run in
which a page is asked for only while fewer queries are in flight than slots are free, a client never
finds the pool exhausted, and otherwise it may.
-/
import Crawler.Dns.Steps
import Crawler.Http.Runs

namespace Crawler.ProcessCycle

open Crawler.Lib Crawler.EventTimer Crawler.Connections Crawler.Http Crawler.Dns

/-! ## The worker -/

/-- Where `work_process_cycle` is in its round: before the gate, in `event_process`, or in
`event_expire_timers`. -/
inductive Phase where
  | gate
  | events
  | timers
  deriving DecidableEq, Repr

/-- A worker process. The resolver's timers and those of the connections are kept apart here; the code
has them in one tree. `starved` lists the pages whose client found no free slot. -/
structure WorkProcess where
  resolver : Resolver
  loop : EventLoop
  phase : Phase
  crashed : Bool
  starved : List HttpUrl

/-- The address of `create_http_client`. -/
def createHttpClientAddr : Addr := 0

/-- `http_conn` asks for a connection and `get_connection` has none. -/
def starves (s : EventLoop) (env : ConnEnv) : Bool :=
  decide (0 ≤ env.fd) && (getConnection s.pool env.fd).any fun r => r.1.isNone

/-- `create_http_client(url, sin_addr)`. -/
def createHttpClient (s : WorkProcess) (url : HttpUrl) (env : ConnEnv) : WorkProcess :=
  { s with
    loop := httpClientCreate s.loop url env
    starved := if starves s.loop env then s.starved ++ [url] else s.starved }

/-- A step of the resolver, which calls `create_http_client` for every page whose address it has. The
process does not outlive a step that goes wrong, but what the step did before has been done. -/
def resolve (s : WorkProcess) (a : Dns.Action) (env : ConnEnv) : WorkProcess :=
  let r := Dns.step s.resolver a
  let calls := r.final.calls.drop s.resolver.calls.length
  calls.foldl (fun s call => createHttpClient s call.url env)
    { s with resolver := r.final, crashed := r.toOption.isNone }

/-- `get_free_connection_n() > connection_threshold`. The count is unsigned, so the threshold is
converted. -/
def passesGate (threshold : Int32) (s : WorkProcess) : Bool :=
  decide (threshold.toUInt32 < s.loop.pool.freeConnectionN)

/-- The part of a round before `event_process`; `url` is what `redis_list_lpop` and
`create_http_url` give, if they give something. -/
def popUrl (threshold : Int32) (s : WorkProcess) (url : Option HttpUrl) (rc : Int) (now : UInt32)
    (env : ConnEnv) : WorkProcess :=
  match url with
  | some url =>
      if passesGate threshold s then resolve s (.query url createHttpClientAddr rc now) env else s
  | none => s

/-- What can happen to a worker. `dns` is a datagram or the timeout of a query, `http` an entry about
a connection or its timeout, and `turn` the end of `event_process` or of `event_expire_timers`. -/
inductive WorkAction where
  | pop (url : Option HttpUrl) (rc : Int) (now : UInt32) (env : ConnEnv)
  | dns (a : Dns.Action) (env : ConnEnv)
  | http (a : LoopAction)
  | turn

/-- What follows a phase. -/
def Phase.next : Phase → Phase
  | .gate => .events
  | .events => .timers
  | .timers => .gate

/-- The step of each action. -/
def workStep (threshold : Int32) (inflateGzip : HttpBuf → HttpBuf → Int × HttpBuf)
    (s : WorkProcess) : WorkAction → WorkProcess
  | .pop url rc now env => { popUrl threshold s url rc now env with phase := s.phase.next }
  | .dns a env => resolve s a env
  | .http a => { s with loop := loopStep inflateGzip s.loop a }
  | .turn => { s with phase := s.phase.next }

/-- The phase in which the resolver takes a step that is no call of `dns_query`. -/
def dnsPhase : Dns.Action → Option Phase
  | .query .. => none
  | .datagram .. => some .events
  | .expire .. => some .timers

/-- The phase in which the loop takes a step of its own. -/
def httpPhase : LoopAction → Option Phase
  | .create .. => none
  | .entry .. => some .events
  | .expire .. => some .timers

/-- One URL is popped in a round; then any number of datagrams, entries and timeouts follow. -/
def workEnabled (s : WorkProcess) (a : WorkAction) : Prop :=
  s.crashed = false ∧ s.loop.log.wrong = false ∧
    match a with
    | .pop .. => s.phase = .gate
    | .dns a _ => dnsPhase a = some s.phase ∧ Dns.enabled s.resolver a
    | .http a => httpPhase a = some s.phase ∧ loopEnabled s.loop a
    | .turn => s.phase ≠ .gate

/-- The worker after `connection_init(n)` and `dns_init()`. -/
def WorkInit (n : UInt32) (s : WorkProcess) : Prop :=
  ∃ p fd ctl loop, connectionInit n = some p ∧ 0 ≤ fd ∧
    loopDnsInit (loopStart p) fd ctl = some loop ∧ s = ⟨dnsInit, loop, .gate, false, []⟩

/-- A worker with `n` connections and the threshold given. -/
def workProcess (n : UInt32) (threshold : Int32)
    (inflateGzip : HttpBuf → HttpBuf → Int × HttpBuf) : System WorkProcess WorkAction where
  init := WorkInit n
  enabled := workEnabled
  next := fun s a => some (workStep threshold inflateGzip s a)

/-! ## Slots for the queries in flight -/

/-- The queries that have no answer yet. -/
def inFlight (s : Resolver) : Nat := (List.range s.brk).countP fun a => (s.query a).isSome

/-- The live queries are those in `query_queue`. -/
theorem inFlight_eq {s : Resolver} {xs : List Addr} (hw : Wellformed s xs) :
    inFlight s = xs.length := by
  rw [inFlight, List.countP_eq_length_filter]
  apply List.Perm.length_eq
  apply (List.perm_ext_iff_of_nodup (List.nodup_range.filter _) hw.nodup).mpr
  intro a
  rw [List.mem_filter, List.mem_range, hw.live]
  exact and_iff_right_of_imp (hw.below a)

/-- `get_connection` finds a slot while one is free. -/
theorem starves_eq_false {s : EventLoop} (h : LoopInv False s) (hfree : 0 < s.pool.freeConnectionN.toNat)
    (env : ConnEnv) : starves s env = false := by
  obtain ⟨xs, hok⟩ := h.ok.pool
  by_cases hfd : 0 ≤ env.fd
  · rcases hok.getConnection hfd with ⟨rfl, -⟩ | ⟨c, ys, -, hget, -⟩
    · have hzero : s.pool.freeConnectionN.toNat = 0 := hok.count
      omega
    · simp [starves, hget]
  · simp [starves, hfd]

/-- Clients have been created, with at most `k` slots, none of them without one. -/
structure Serves (k : Nat) (s s' : WorkProcess) : Prop where
  loop : LoopInv False s'.loop
  free : s.loop.pool.freeConnectionN.toNat ≤ s'.loop.pool.freeConnectionN.toNat + k
  starved : s'.starved = s.starved
  resolver : s'.resolver = s.resolver
  crashed : s'.crashed = s.crashed

theorem createHttpClient_serves {s : WorkProcess} (h : LoopInv False s.loop)
    (hfree : 0 < s.loop.pool.freeConnectionN.toNat) (url : HttpUrl) (env : ConnEnv) :
    Serves 1 s (createHttpClient s url env) := by
  obtain ⟨xs, hok⟩ := h.ok.pool
  have hnot : False → ¬ (ReachesConnect s.loop env ∧ env.connect = .done) := fun hf => hf.elim
  obtain ⟨hinv, hspends⟩ := h.create url hnot
  refine ⟨hinv, hspends.freeConnectionN hok, ?_, rfl, rfl⟩
  simp [createHttpClient, starves_eq_false h hfree]

/-- As many clients as slots are free find one each. -/
theorem createHttpClients_serves {s : WorkProcess} (h : LoopInv False s.loop)
    (calls : List HandlerCall) (env : ConnEnv)
    (hfree : calls.length ≤ s.loop.pool.freeConnectionN.toNat) :
    Serves calls.length s (calls.foldl (fun s call => createHttpClient s call.url env) s) := by
  induction calls generalizing s with
  | nil => exact ⟨h, Nat.le_refl _, rfl, rfl, rfl⟩
  | cons call calls ih =>
      rw [List.length_cons] at hfree
      have hone := createHttpClient_serves h (by omega) call.url env
      have hfree₁ := hone.free
      have hrest := ih hone.loop (by omega)
      have hfree₂ := hrest.free
      refine ⟨hrest.loop, ?_, hrest.starved.trans hone.starved, hrest.resolver.trans hone.resolver,
        hrest.crashed.trans hone.crashed⟩
      rw [List.length_cons, List.foldl_cons]
      omega

/-- There is a free slot for every query in flight, and no client has found none. -/
structure WorkInv (s : WorkProcess) : Prop where
  loop : LoopInv False s.loop
  spare : s.crashed = false →
    ∃ xs, Wellformed s.resolver xs ∧ xs.length ≤ s.loop.pool.freeConnectionN.toNat
  starved : s.starved = []

/-- A step of the resolver keeps a slot for every query, if there was one for the query it may link. -/
theorem WorkInv.resolve {s : WorkProcess} (h : WorkInv s) {xs : List Addr}
    (hw : Wellformed s.resolver xs) {a : Dns.Action} (he : Dns.enabled s.resolver a)
    (hfree : xs.length + a.links ≤ s.loop.pool.freeConnectionN.toNat) (env : ConnEnv) :
    WorkInv (resolve s a env) := by
  obtain ⟨calls, hcalls, hle, hkeeps⟩ := hw.step_calls he
  have hdrop : (Dns.step s.resolver a).final.calls.drop s.resolver.calls.length = calls := by
    rw [hcalls, List.drop_left]
  rw [ProcessCycle.resolve]
  simp only [hdrop]
  have hserves := createHttpClients_serves
    (s := { s with
      resolver := (Dns.step s.resolver a).final
      crashed := (Dns.step s.resolver a).toOption.isNone })
    h.loop calls env (hle.trans hfree)
  have hspent := hserves.free
  generalize List.foldl _ _ calls = s₁ at hserves hspent
  refine ⟨hserves.loop, fun hup => ?_, hserves.starved.trans h.starved⟩
  rw [hserves.crashed] at hup
  rw [hserves.resolver]
  cases hstep : Dns.step s.resolver a with
  | error s' =>
      rw [hstep] at hup
      cases hup
  | ok s' =>
      obtain ⟨xs', hw', hle'⟩ := hkeeps s' hstep
      refine ⟨xs', hw', ?_⟩
      show xs'.length ≤ s₁.loop.pool.freeConnectionN.toNat
      have hall : s.loop.pool.freeConnectionN.toNat ≤
          s₁.loop.pool.freeConnectionN.toNat + calls.length := hspent
      omega

/-! ## Every step -/

/-- If the action asks for a page's address, fewer queries are in flight than slots are free. -/
def Covered (threshold : Int32) (s : WorkProcess) : WorkAction → Prop
  | .pop (some _) .. =>
      passesGate threshold s → inFlight s.resolver < s.loop.pool.freeConnectionN.toNat
  | _ => True

/-- The gate sees to it by itself while no more queries are in flight than the threshold. -/
theorem covered_of_inFlight_le {threshold : Int32} {s : WorkProcess}
    (h : inFlight s.resolver ≤ threshold.toUInt32.toNat) (a : WorkAction) :
    Covered threshold s a := by
  rcases a with ⟨_ | url, rc, now, env⟩ | _ | _ | _
  · trivial
  · intro hgate
    have hlt : threshold.toUInt32 < s.loop.pool.freeConnectionN := of_decide_eq_true hgate
    exact Nat.lt_of_le_of_lt h (UInt32.lt_iff_toNat_lt.mp hlt)
  · trivial
  · trivial
  · trivial

instance (threshold : Int32) (s : WorkProcess) (a : WorkAction) :
    Decidable (Covered threshold s a) :=
  match a with
  | .pop (some _) .. => inferInstanceAs (Decidable (_ → _ < _))
  | .pop none .. => .isTrue trivial
  | .dns .. => .isTrue trivial
  | .http .. => .isTrue trivial
  | .turn => .isTrue trivial

theorem WorkInit.inv {n : UInt32} {s : WorkProcess} (h : WorkInit n s) : WorkInv s := by
  obtain ⟨p, fd, ctl, loop, hinit, hfd, hdns, rfl⟩ := h
  refine ⟨LoopInit.inv ⟨p, hinit, Or.inr ⟨fd, ctl, hfd, hdns⟩⟩ False, fun _ => ?_, rfl⟩
  exact ⟨[], dnsInit_wellformed, Nat.zero_le _⟩

theorem WorkInv.withPhase {s : WorkProcess} (h : WorkInv s) (phase : Phase) :
    WorkInv { s with phase := phase } :=
  ⟨h.loop, h.spare, h.starved⟩

theorem WorkInv.step {threshold : Int32} {inflateGzip : HttpBuf → HttpBuf → Int × HttpBuf}
    {s : WorkProcess} (h : WorkInv s) {a : WorkAction} (he : workEnabled s a)
    (hc : Covered threshold s a) : WorkInv (workStep threshold inflateGzip s a) := by
  obtain ⟨hup, -, hact⟩ := he
  obtain ⟨xs, hw, hle⟩ := h.spare hup
  cases a with
  | pop url rc now env =>
      cases url with
      | none => exact h.withPhase _
      | some url =>
          rw [workStep, popUrl]
          split
          case isTrue hgate =>
            have hlt := hc hgate
            rw [inFlight_eq hw] at hlt
            refine (h.resolve hw (a := .query url createHttpClientAddr rc now) trivial ?_ env).withPhase _
            exact hlt
          case isFalse => exact h.withPhase _
  | dns a env =>
      obtain ⟨hphase, hdns⟩ := hact
      refine h.resolve hw hdns ?_ env
      -- neither a datagram nor a timeout links a query
      cases a with
      | query => cases hphase
      | datagram => exact hle
      | expire => exact hle
  | http a =>
      obtain ⟨hphase, hloop⟩ := hact
      obtain ⟨ys, hok⟩ := h.loop.ok.pool
      have honward : Onward False s.loop (loopStep inflateGzip s.loop a) := by
        cases a with
        | create => cases hphase
        | entry c events renv wenv => exact h.loop.entry inflateGzip hloop.2.1 hloop.2.2 events renv wenv
        | expire e now env => exact h.loop.expire inflateGzip hloop.2.1 env
      refine ⟨honward.inv, fun _ => ⟨xs, hw, ?_⟩, h.starved⟩
      exact hle.trans (honward.free.freeConnectionN hok)
  | turn => exact h.withPhase _

/-! ## A worker with one free slot -/

/-- The loop on two slots, one of them the resolver's. -/
def resolverLoop : EventLoop :=
  (loopDnsInit (loopStart twoSlots) 3 fun _ => 0).getD (loopStart twoSlots)

/-- A worker with one free slot. -/
def oneFree : WorkProcess := ⟨dnsInit, resolverLoop, .gate, false, []⟩

theorem oneFree_init : WorkInit 2 oneFree :=
  ⟨twoSlots, 3, fun _ => 0, resolverLoop, rfl, by decide, rfl, rfl⟩

/-- An address for host `a`, in answer to the query with the id given. -/
def answerForA (id : UInt8) : Mem := memOf
  [id, 0, 0x81, 0x80, 0, 1, 0, 1, 0, 0, 0, 0,
    1, 97, 0, 0, 1, 0, 1,
    0xC0, 12, 0, 1, 0, 1, 0, 0, 0, 60, 0, 4, 93, 184, 216, 34]

/-- The page is asked for. -/
def popSample : WorkAction := .pop (some samplePage) 19 0 (connEnv .inProgress)

/-- The answer comes, and the client's socket is descriptor `fd`. -/
def sampleAnswer (id : UInt8) (fd : Int) : WorkAction :=
  .dns (.datagram (answerForA id) 35 none 0 0) { connEnv .inProgress with fd := fd }

/-! ## Every run -/

/-- In every run in which a page is asked for only while fewer queries are in flight than slots are
free, every client finds a free slot. -/
theorem everyState_served {n : UInt32} {threshold : Int32}
    {inflateGzip : HttpBuf → HttpBuf → Int × HttpBuf} {s : WorkProcess} {as : List WorkAction}
    (hinit : WorkInit n s) (hc : EveryStep (workProcess n threshold inflateGzip) s as
      (Covered threshold)) :
    EveryState (workProcess n threshold inflateGzip) s as fun t => t.starved = [] := by
  have hinv := hc.everyState hinit.inv fun t a v ht hcov he hn => by
    obtain rfl := Option.some.inj hn
    exact ht.step he hcov
  exact fun pre t hp hr => (hinv pre t hp hr).starved

/-- The query has its answer in the round that sent it. -/
def oneAnswer : WorkProcess :=
  [popSample, sampleAnswer 1 5].foldl (workStep 0 noInflate) oneFree

theorem oneAnswer_run :
    Run (workProcess 2 0 noInflate) oneFree [popSample, sampleAnswer 1 5] oneAnswer := by
  refine Run.cons_iff.mpr ⟨_, ⟨rfl, rfl, rfl⟩, rfl, ?_⟩
  refine Run.cons_iff.mpr ⟨_, ⟨rfl, rfl, rfl, by decide, by decide⟩, rfl, ?_⟩
  exact .nil

/-- One query in flight has its slot. -/
theorem everyState_served_oneAnswer :
    Run (workProcess 2 0 noInflate) oneFree [popSample, sampleAnswer 1 5] oneAnswer ∧
      EveryState (workProcess 2 0 noInflate) oneFree [popSample, sampleAnswer 1 5]
        fun t => t.starved = [] :=
  ⟨oneAnswer_run, everyState_served oneFree_init
    (everyStep_of_check (fun _ _ h => of_decide_eq_true h) (by decide))⟩

/-! ## The gate is not enough -/

/-- Two rounds, and both answers in the second. -/
def twoRounds : List WorkAction :=
  [popSample, .turn, .turn, popSample, sampleAnswer 1 5, sampleAnswer 2 6]

/-- What they lead to. -/
def twoAnswers : WorkProcess := twoRounds.foldl (workStep 0 noInflate) oneFree

theorem twoRounds_run : Run (workProcess 2 0 noInflate) oneFree twoRounds twoAnswers := by
  refine Run.cons_iff.mpr ⟨_, ⟨rfl, rfl, rfl⟩, rfl, ?_⟩
  refine Run.cons_iff.mpr ⟨_, ⟨rfl, rfl, by decide⟩, rfl, ?_⟩
  refine Run.cons_iff.mpr ⟨_, ⟨rfl, rfl, by decide⟩, rfl, ?_⟩
  refine Run.cons_iff.mpr ⟨_, ⟨rfl, rfl, rfl⟩, rfl, ?_⟩
  refine Run.cons_iff.mpr ⟨_, ⟨rfl, rfl, rfl, by decide, by decide⟩, rfl, ?_⟩
  refine Run.cons_iff.mpr ⟨_, ⟨by decide, by decide, by decide, by decide, by decide⟩, rfl, ?_⟩
  exact .nil

/-- Both queries pass the gate on the one free slot, and the second answer finds none. -/
theorem twoAnswers_starved : ¬ ∀ (n : UInt32) (threshold : Int32) inflateGzip t,
    0 ≤ threshold.toInt → threshold.toInt < n.toNat →
      Reachable (workProcess n threshold inflateGzip) t → t.starved = [] := by
  intro hclaim
  have hnone := hclaim 2 0 noInflate twoAnswers (by decide) (by decide)
    ⟨oneFree, twoRounds, oneFree_init, twoRounds_run⟩
  have hone : twoAnswers.starved = [samplePage] := by decide
  rw [hone] at hnone
  cases hnone

end Crawler.ProcessCycle
