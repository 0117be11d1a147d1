/-
# Crawler.Http.Lifecycle — the invariant of the event loop

Every connection held is the resolver's or that of one live client, and every live client holds a
connection (`LoopOk`). A handler breaks this for its own connection only while it runs, which `Apart`
keeps track of; when it has ended the client is back in one of its phases, or released.

`guarded` tells whether the invariant also asks for a timer of every client.
-/
import Crawler.Http.Handlers

namespace Crawler.Http

open Crawler.Lib Crawler.EventTimer Crawler.Connections

/-! ## Other connections -/

/-- Nothing has happened to connections other than `c`. -/
structure AwayFrom (c : Slot) (s s' : Sockets) : Prop where
  n : s'.pool.n = s.pool.n
  connections : ∀ i, i ≠ c → s'.pool.connections i = s.pool.connections i
  ev : ∀ e : EventRef, e.slot ≠ c → s'.pool.events.ev e = s.pool.events.ev e
  io : ∀ i, i ≠ c → s'.io i = s.io i

theorem AwayFrom.trans {c : Slot} {s₀ s₁ s₂ : Sockets} (h : AwayFrom c s₀ s₁)
    (h' : AwayFrom c s₁ s₂) : AwayFrom c s₀ s₂ where
  n := h'.n.trans h.n
  connections := fun i hi => (h'.connections i hi).trans (h.connections i hi)
  ev := fun e he => (h'.ev e he).trans (h.ev e he)
  io := fun i hi => (h'.io i hi).trans (h.io i hi)

theorem Within.awayFrom {c : Slot} {s s' : Sockets} (h : Within c s s') : AwayFrom c s s' where
  n := by rw [h.frame]
  connections := fun i _ => by rw [h.connections]
  ev := h.ev
  io := h.io

theorem AwayFrom.held_iff {c i : Slot} {s s' : Sockets} (h : AwayFrom c s s') (hi : i ≠ c) :
    Held s'.pool i ↔ Held s.pool i := by
  rw [Held, Held, h.n, h.connections i hi]

/-- One of the two timers of connection `c` is set. -/
def HasTimer (p : Pool) (c : Slot) : Prop :=
  (p.events.ev (.read c)).timerSet = true ∨ (p.events.ev (.write c)).timerSet = true

/-- Client `o` lives on connection `c`. -/
structure Holds (guarded : Prop) (s : EventLoop) (c : Slot) (o : Addr) : Prop where
  client : ∃ client, Owns s c o client
  link : (s.link o).connection = some c
  phase : Early s.sockets c ∨ Late s.sockets c
  armed : guarded → HasTimer s.pool c

/-- Connection `c` is the resolver's. -/
structure Resolves (p : Pool) (c : Slot) : Prop where
  held : Held p c
  data : (p.connections c).data = .null
  disarmed : ∀ e : EventRef, e.slot = c → (p.events.ev e).timerSet = false

/-- The phases of a connection depend on what belongs to it. -/
theorem Early.away {c i : Slot} {s s' : Sockets} (h : Early s i) (ha : AwayFrom c s s')
    (hi : i ≠ c) : Early s' i := by
  obtain ⟨hwrite, hread, hset, hsaved⟩ := h
  have hr := ha.ev (.read i) hi
  have hw := ha.ev (.write i) hi
  refine ⟨hw ▸ hwrite, hr ▸ hread, hr ▸ hset, fun ssl hssl => hsaved ssl ?_⟩
  rw [← ha.io i hi]
  exact hssl

theorem Late.away {c i : Slot} {s s' : Sockets} (h : Late s i) (ha : AwayFrom c s s')
    (hi : i ≠ c) : Late s' i := by
  have hr := ha.ev (.read i) hi
  have hw := ha.ev (.write i) hi
  refine ⟨hr ▸ h.read, hr ▸ h.armed, hw ▸ h.disarmed, ?_⟩
  rw [hw, NoneSaved, ha.io i hi]
  exact h.write

/-- A client is not disturbed by what happens to another connection. -/
theorem Holds.away {guarded : Prop} {s s' : EventLoop} {c i : Slot} {o : Addr}
    (h : Holds guarded s i o) (ha : AwayFrom c s.sockets s'.sockets) (hi : i ≠ c)
    (hok : ∃ xs, PoolOk s'.pool xs) (hclient : s'.clients o = s.clients o)
    (hlink : s'.link o = s.link o) : Holds guarded s' i o where
  client := by
    obtain ⟨client, howned, hrec, hhandler⟩ := h.client
    refine ⟨client, ⟨hok, (ha.held_iff hi).mpr howned.held, ?_⟩, hclient.trans hrec, hhandler⟩
    exact (congrArg Connection.data (ha.connections i hi)).trans howned.owner
  link := by rw [hlink]; exact h.link
  phase := h.phase.imp (·.away ha hi) (·.away ha hi)
  armed hg := by
    have hr : s'.pool.events.ev (.read i) = s.pool.events.ev (.read i) := ha.ev (.read i) hi
    have hw : s'.pool.events.ev (.write i) = s.pool.events.ev (.write i) := ha.ev (.write i) hi
    rw [HasTimer, hr, hw]
    exact h.armed hg

theorem Resolves.away {c i : Slot} {s s' : Sockets} (h : Resolves s.pool i)
    (ha : AwayFrom c s s') (hi : i ≠ c) : Resolves s'.pool i where
  held := (ha.held_iff hi).mpr h.held
  data := by rw [ha.connections i hi]; exact h.data
  disarmed e he := by rw [ha.ev e (he ▸ hi)]; exact h.disarmed e he

/-! ## The invariant -/

/-- The connections held are those of the live clients, and the resolver's. -/
structure LoopOk (guarded : Prop) (s : EventLoop) : Prop where
  pool : ∃ xs, PoolOk s.pool xs
  slots : ∀ c, Held s.pool c → s.dns = some c ∨ ∃ o, Holds guarded s c o
  clients : ∀ o, (s.clients o).isSome → ∃ c, Holds guarded s c o
  dns : ∀ c, s.dns = some c → Resolves s.pool c
  below : ∀ o, (s.clients o).isSome → o < s.brk

/-- `LoopOk` but for connection `c` of client `o`. -/
structure Apart (guarded : Prop) (s : EventLoop) (c : Slot) (o : Addr) : Prop where
  pool : ∃ xs, PoolOk s.pool xs
  client : ∃ client, Owns s c o client
  link : (s.link o).connection = some c
  slots : ∀ i, i ≠ c → Held s.pool i → s.dns = some i ∨ ∃ o', Holds guarded s i o'
  clients : ∀ o', o' ≠ o → (s.clients o').isSome → ∃ i, Holds guarded s i o'
  dns : ∀ i, s.dns = some i → Resolves s.pool i
  below : ∀ o', (s.clients o').isSome → o' < s.brk

/-- A connection has one owner. -/
theorem OwnedBy.unique {p : Pool} {c : Slot} {o o' : Addr} (h : OwnedBy p c o)
    (h' : OwnedBy p c o') : o = o' :=
  Ptr.owner.inj (h.owner.symm.trans h'.owner)

theorem Holds.unique {guarded : Prop} {s : EventLoop} {c : Slot} {o o' : Addr} {client : HttpClient}
    (h : Holds guarded s c o') (h' : Owns s c o client) : o' = o := by
  obtain ⟨client', howns⟩ := h.client
  exact howns.owned.unique h'.owned

theorem Owns.notResolves {s : EventLoop} {c : Slot} {o : Addr} {client : HttpClient}
    (h : Owns s c o client) : ¬ Resolves s.pool c := by
  intro hres
  have hdata := h.owned.owner
  rw [hres.data] at hdata
  cases hdata

section Steps

variable {guarded : Prop} {s₀ s : EventLoop} {c : Slot} {o : Addr}

theorem LoopOk.apart (h : LoopOk guarded s) (hc : Holds guarded s c o) : Apart guarded s c o where
  pool := h.pool
  client := hc.client
  link := hc.link
  slots := fun i _ hi => h.slots i hi
  clients := fun o' _ ho' => h.clients o' ho'
  dns := h.dns
  below := h.below

/-- While its handler runs the other clients are not disturbed. -/
theorem Apart.serving (h : Apart guarded s₀ c o) (hs : Serving c o s₀ s) : Apart guarded s c o := by
  obtain ⟨xs, hok⟩ := h.pool
  obtain ⟨client, howns⟩ := h.client
  obtain ⟨client', howns', -⟩ := hs.owns howns
  have hpool : ∃ xs, PoolOk s.pool xs := ⟨xs, hs.within.ok xs hok⟩
  have ha := hs.within.awayFrom
  -- a client on another connection is another client
  have hother : ∀ i o', Holds guarded s₀ i o' → o' ≠ o → Holds guarded s i o' := by
    intro i o' hi ho'
    have hic : i ≠ c := by
      rintro rfl
      exact ho' (hi.unique howns)
    exact hi.away ha hic hpool (hs.clients o' ho') (congrFun hs.link o')
  refine ⟨hpool, ⟨client', howns'⟩, by rw [hs.link]; exact h.link, fun i hic hi => ?_,
    fun o' ho' hsome => ?_, fun i hi => ?_, fun o' hsome => ?_⟩
  · rw [hs.dns]
    refine (h.slots i hic ((ha.held_iff hic).mp hi)).imp_right ?_
    rintro ⟨o', ho'⟩
    refine ⟨o', hother i o' ho' ?_⟩
    rintro rfl
    exact hic (Option.some.inj (ho'.link.symm.trans h.link))
  · rw [hs.clients o' ho'] at hsome
    obtain ⟨i, hi⟩ := h.clients o' ho' hsome
    exact ⟨i, hother i o' hi ho'⟩
  · rw [hs.dns] at hi
    have hres := h.dns i hi
    refine hres.away ha ?_
    rintro rfl
    exact howns.notResolves hres
  · rw [hs.brk]
    by_cases ho' : o' = o
    · subst ho'
      exact h.below o' (by simp [howns.record])
    · rw [hs.clients o' ho'] at hsome
      exact h.below o' hsome

theorem Apart.join (h : Apart guarded s c o) (hc : Holds guarded s c o) : LoopOk guarded s := by
  refine ⟨h.pool, fun i hi => ?_, fun o' hsome => ?_, h.dns, h.below⟩
  · by_cases hic : i = c
    · subst hic
      exact Or.inr ⟨o, hc⟩
    · exact h.slots i hic hi
  · by_cases ho' : o' = o
    · subst ho'
      exact ⟨c, hc⟩
    · exact h.clients o' ho' hsome

/-- The handler has ended, and the client stays. -/
theorem Apart.kept (h : Apart guarded s₀ c o) (hk : Kept c o s₀ s) : LoopOk guarded s :=
  have h' := h.serving hk.serving
  h'.join ⟨h'.client, h'.link, hk.phase, fun _ => hk.armed⟩

end Steps

/-! ## Releasing a client -/

/-- What `http_client_retrieve` does to client `o` on connection `c` of a pool with free list `xs`. -/
structure Releases (c : Slot) (o : Addr) (xs : List Slot) (s s' : EventLoop) : Prop where
  closes : Closes c xs s.pool s'.pool
  io : ∀ i, i ≠ c → s'.io i = s.io i
  link : ∀ o', o' ≠ o → s'.link o' = s.link o'
  clients : s'.clients = Function.update s.clients o none
  brk : s'.brk = s.brk
  log : s'.log = { s.log with retrieved := s.log.retrieved ++ [o] }
  dns : s'.dns = s.dns

theorem Releases.awayFrom {c : Slot} {o : Addr} {xs : List Slot} {s s' : EventLoop}
    (h : Releases c o xs s s') : AwayFrom c s.sockets s'.sockets :=
  ⟨h.closes.n, h.closes.other, h.closes.ev, h.io⟩

/-- Calling the client's handler releases the client. -/
theorem callHandler_releases {c : Slot} {o : Addr} {xs : List Slot} {s : EventLoop}
    {client client₁ : HttpClient} (hok : PoolOk s.pool xs) (hs : Owns s c o client₁)
    (hlink : (s.link o).connection = some c) (hh : client.handler ≠ none) :
    Releases c o xs s (s.callHandler o client) := by
  obtain ⟨f, hf⟩ := Option.ne_none_iff_exists'.mp hh
  obtain ⟨p, hclose, hcl⟩ := hok.closeHeld hs.owned.held
  have hretrieve : ∀ s₁ : EventLoop, s₁.pool = s.pool → s₁.link = s.link → s₁.io = s.io →
      s₁.brk = s.brk → s₁.log = s.log → s₁.dns = s.dns → (s₁.clients o).isSome →
      (∀ o', o' ≠ o → s₁.clients o' = s.clients o') →
      Releases c o xs s (httpClientRetrieve s₁ o) := by
    intro s₁ hpool hlink₁ hio hbrk hlog hdns hsome hothers
    obtain ⟨client₂, hrec⟩ := Option.isSome_iff_exists.mp hsome
    rw [httpClientRetrieve]
    simp only [hrec, hlink₁, hlink, hpool, hclose]
    refine ⟨hcl, fun i hi => ?_, fun o' ho' => ?_, ?_, hbrk, by rw [hlog], hdns⟩
    · simp [hio, hi]
    · simp [ho']
    · funext o'
      by_cases ho' : o' = o
      · simp [ho']
      · simp [ho', hothers o' ho']
  rw [EventLoop.callHandler]
  simp only [hf, World.callHandler, parseHtml]
  split
  case isTrue =>
    refine hretrieve _ rfl rfl rfl rfl rfl rfl ?_ fun o' ho' => ?_
    · simp [EventLoop.modify, World.modify, hs.record]
    · simp [EventLoop.modify, World.modify, ho']
  case isFalse =>
    exact hretrieve _ rfl rfl rfl rfl rfl rfl (by simp [hs.record]) fun _ _ => rfl

/-- The handler has ended by releasing its client. -/
theorem Apart.gone {guarded : Prop} {s₀ s : EventLoop} {c : Slot} {o : Addr}
    (h : Apart guarded s₀ c o) (hg : Gone c o s₀ s) :
    LoopOk guarded s ∧ ∃ xs s₁, Serving c o s₀ s₁ ∧ PoolOk s₁.pool xs ∧ Releases c o xs s₁ s := by
  obtain ⟨s₁, client, hs, hh, rfl⟩ := hg
  have h₁ := h.serving hs
  obtain ⟨xs, hok⟩ := h₁.pool
  obtain ⟨client₁, howns⟩ := h₁.client
  have hr := callHandler_releases hok howns h₁.link hh
  refine ⟨?_, xs, s₁, hs, hok, hr⟩
  have ha := hr.awayFrom
  have hpool : ∃ xs, PoolOk (s₁.callHandler o client).pool xs := ⟨_, hr.closes.ok⟩
  have hsame : ∀ o', o' ≠ o → (s₁.callHandler o client).clients o' = s₁.clients o' := by
    intro o' ho'
    rw [hr.clients]
    exact Function.update_of_ne ho' _ _
  have hfree : ¬ Held (s₁.callHandler o client).pool c := fun hheld => hheld.2 hr.closes.closed
  have hother : ∀ i o', Holds guarded s₁ i o' → i ≠ c → o' ≠ o →
      Holds guarded (s₁.callHandler o client) i o' := fun i o' hi hic ho' =>
    hi.away ha hic hpool (hsame o' ho') (hr.link o' ho')
  refine ⟨hpool, fun i hi => ?_, fun o' hsome => ?_, fun i hi => ?_, fun o' hsome => ?_⟩
  · have hic : i ≠ c := fun heq => hfree (heq ▸ hi)
    rw [hr.dns]
    refine (h₁.slots i hic ((ha.held_iff hic).mp hi)).imp_right ?_
    rintro ⟨o', ho'⟩
    refine ⟨o', hother i o' ho' hic ?_⟩
    rintro rfl
    exact hic (Option.some.inj (ho'.link.symm.trans h₁.link))
  · have ho' : o' ≠ o := by
      rintro rfl
      rw [hr.clients] at hsome
      simp at hsome
    rw [hsame o' ho'] at hsome
    obtain ⟨i, hi⟩ := h₁.clients o' ho' hsome
    refine ⟨i, hother i o' hi ?_ ho'⟩
    rintro rfl
    exact ho' (hi.unique howns)
  · rw [hr.dns] at hi
    have hres := h₁.dns i hi
    refine hres.away ha ?_
    rintro rfl
    exact howns.notResolves hres
  · rw [hr.brk]
    have ho' : o' ≠ o := by
      rintro rfl
      rw [hr.clients] at hsome
      simp at hsome
    rw [hsame o' ho'] at hsome
    exact h₁.below o' hsome

/-! ## The log -/

/-- What the log says: no client was released twice, and no handler was called for a free slot or for
a client that was released. -/
structure Orderly (log : Log) : Prop where
  once : log.retrieved.Nodup
  sound : ∀ call ∈ log.invoked, call.free = false ∧ call.live = true

/-- The log, and the clients it has seen released. -/
structure Journal (s : EventLoop) : Prop where
  orderly : Orderly s.log
  retired : ∀ o ∈ s.log.retrieved, o < s.brk ∧ s.clients o = none

/-- The invariant of the loop. -/
structure LoopInv (guarded : Prop) (s : EventLoop) : Prop where
  ok : LoopOk guarded s
  journal : Journal s

/-- The free list of `p'` is at most `k` slots shorter than that of `p`. -/
def Spends (k : Nat) (p p' : Pool) : Prop :=
  ∀ xs, PoolOk p xs → ∃ ys, PoolOk p' ys ∧ xs.length ≤ ys.length + k

theorem Spends.of_keeps {p p' : Pool} (h : ∀ xs, PoolOk p xs → PoolOk p' xs) : Spends 0 p p' :=
  fun xs hxs => ⟨xs, h xs hxs, Nat.le_refl _⟩

theorem Spends.trans {j k : Nat} {p₀ p₁ p₂ : Pool} (h : Spends j p₀ p₁) (h' : Spends k p₁ p₂) :
    Spends (j + k) p₀ p₂ := by
  intro xs hxs
  obtain ⟨ys, hys, hle⟩ := h xs hxs
  obtain ⟨zs, hzs, hle'⟩ := h' ys hys
  exact ⟨zs, hzs, by omega⟩

theorem Spends.freeConnectionN {k : Nat} {p p' : Pool} {xs : List Slot} (h : Spends k p p')
    (hok : PoolOk p xs) : p.freeConnectionN.toNat ≤ p'.freeConnectionN.toNat + k := by
  obtain ⟨ys, hys, hle⟩ := h xs hok
  rw [hok.count, hys.count]
  exact hle

/-- A released client's connection is put back. -/
theorem Releases.spends {c : Slot} {o : Addr} {xs : List Slot} {s s' : EventLoop}
    (h : Releases c o xs s s') (hok : PoolOk s.pool xs) : Spends 0 s.pool s'.pool := by
  intro ys hys
  obtain rfl := hok.unique hys
  exact ⟨c :: xs, h.closes.ok, Nat.le_succ _⟩

/-- From `s₀` the loop comes to `s`, with the invariant, the same array of connections and no fewer
slots free. -/
structure Onward (guarded : Prop) (s₀ s : EventLoop) : Prop where
  inv : LoopInv guarded s
  n : s.pool.n = s₀.pool.n
  dns : s.dns = s₀.dns
  free : Spends 0 s₀.pool s.pool

theorem LoopInv.stay {guarded : Prop} {s : EventLoop} (h : LoopInv guarded s) : Onward guarded s s :=
  ⟨h, rfl, rfl, .of_keeps fun _ => id⟩

theorem Onward.trans {guarded : Prop} {s₀ s₁ s₂ : EventLoop} (h : Onward guarded s₀ s₁)
    (h' : Onward guarded s₁ s₂) : Onward guarded s₀ s₂ :=
  ⟨h'.inv, h'.n.trans h.n, h'.dns.trans h.dns, h.free.trans h'.free⟩

section Ran

variable {guarded : Prop} {s₀ s : EventLoop} {c : Slot} {o : Addr}

theorem Journal.serving (h : Journal s₀) (ha : Apart guarded s₀ c o) (hs : Serving c o s₀ s) :
    Journal s where
  orderly := by rw [hs.log]; exact h.orderly
  retired o' ho' := by
    rw [hs.log] at ho'
    obtain ⟨hlt, hdead⟩ := h.retired o' ho'
    refine ⟨by rw [hs.brk]; exact hlt, ?_⟩
    obtain ⟨client, howns⟩ := ha.client
    rw [hs.clients o' ?_]
    · exact hdead
    · rintro rfl
      rw [howns.record] at hdead
      cases hdead

/-- Whichever way a handler ends, the invariant holds again. -/
theorem Apart.after (h : Apart guarded s₀ c o) (hj : Journal s₀) (ha : After c o s₀ s) :
    Onward guarded s₀ s := by
  rcases ha with hk | hg
  · exact ⟨⟨h.kept hk, hj.serving h hk.serving⟩, hk.serving.within.awayFrom.n, hk.serving.dns,
      .of_keeps hk.serving.within.ok⟩
  · obtain ⟨hok, xs, s₁, hs, hxs, hr⟩ := h.gone hg
    have hj₁ := hj.serving h hs
    obtain ⟨client, howns⟩ := (h.serving hs).client
    have hnew : o ∉ s₁.log.retrieved := by
      intro hm
      have hdead := (hj₁.retired o hm).2
      rw [howns.record] at hdead
      cases hdead
    have hfree : Spends 0 s₀.pool s₁.pool := .of_keeps hs.within.ok
    refine ⟨⟨hok, ⟨?_, ?_⟩, fun o' ho' => ?_⟩, hr.closes.n.trans hs.within.awayFrom.n,
      hr.dns.trans hs.dns, hfree.trans (hr.spends hxs)⟩
    · rw [hr.log]
      have hdis : List.Disjoint s₁.log.retrieved [o] :=
        List.disjoint_singleton.mpr hnew
      exact List.nodup_append'.mpr ⟨hj₁.orderly.once, List.nodup_singleton o, hdis⟩
    · rw [hr.log]
      exact hj₁.orderly.sound
    · rw [hr.log, List.mem_append, List.mem_singleton] at ho'
      rw [hr.brk, hr.clients]
      rcases ho' with ho' | rfl
      · obtain ⟨hlt, hdead⟩ := hj₁.retired o' ho'
        refine ⟨hlt, ?_⟩
        by_cases heq : o' = o
        · simp [heq]
        · simp [heq, hdead]
      · have hlt := (h.serving hs).below o' (by simp [howns.record])
        simp [hlt]

end Ran

/-! ## Calling a handler -/

/-- The log does not matter to the connections and the clients. -/
theorem Holds.withLog {guarded : Prop} {s : EventLoop} {c : Slot} {o : Addr} (log : Log)
    (h : Holds guarded s c o) : Holds guarded { s with log := log } c o := by
  obtain ⟨client, howned, hrec, hhandler⟩ := h.client
  exact ⟨⟨client, howned, hrec, hhandler⟩, h.link, h.phase, h.armed⟩

theorem LoopOk.withLog {guarded : Prop} {s : EventLoop} (log : Log) (h : LoopOk guarded s) :
    LoopOk guarded { s with log := log } where
  pool := h.pool
  slots c hc := (h.slots c hc).imp_right fun ⟨o, ho⟩ => ⟨o, ho.withLog log⟩
  clients o ho := by
    obtain ⟨c, hc⟩ := h.clients o ho
    exact ⟨c, hc.withLog log⟩
  dns := h.dns
  below := h.below

theorem Apart.withLog {guarded : Prop} {s : EventLoop} {c : Slot} {o : Addr} (log : Log)
    (h : Apart guarded s c o) : Apart guarded { s with log := log } c o where
  pool := h.pool
  client := by
    obtain ⟨client, howned, hrec, hhandler⟩ := h.client
    exact ⟨client, howned, hrec, hhandler⟩
  link := h.link
  slots i hic hi := (h.slots i hic hi).imp_right fun ⟨o', ho'⟩ => ⟨o', ho'.withLog log⟩
  clients o' ho' hsome := by
    obtain ⟨i, hi⟩ := h.clients o' ho' hsome
    exact ⟨i, hi.withLog log⟩
  dns := h.dns
  below := h.below

theorem LoopInv.goWrong {guarded : Prop} {s : EventLoop} (h : LoopInv guarded s) :
    Onward guarded s s.goWrong :=
  ⟨⟨h.ok.withLog _, ⟨h.journal.orderly.once, h.journal.orderly.sound⟩, h.journal.retired⟩, rfl, rfl,
    .of_keeps fun _ => id⟩

/-- A handler that is called for a client's connection is logged as such. -/
theorem Journal.note {s : EventLoop} {c : Slot} {o : Addr} {client : HttpClient} (h : Journal s)
    (hs : Owns s c o client) {e : EventRef} (he : e.slot = c) : Journal (s.note e) where
  orderly := by
    refine ⟨h.orderly.once, fun call hcall => ?_⟩
    rcases List.mem_append.mp hcall with hcall | hcall
    · exact h.orderly.sound call hcall
    · obtain rfl := List.mem_singleton.mp hcall
      rw [he]
      refine ⟨decide_eq_false hs.owned.held.2, ?_⟩
      simp only [hs.owned.owner, hs.record, Option.isSome_some]
  retired := h.retired

theorem LoopInv.note {guarded : Prop} {s : EventLoop} {c : Slot} {o : Addr} (h : LoopInv guarded s)
    (hc : Holds guarded s c o) {e : EventRef} (he : e.slot = c) : Onward guarded s (s.note e) := by
  obtain ⟨client, howns⟩ := hc.client
  exact ⟨⟨h.ok.withLog _, h.journal.note howns he⟩, rfl, rfl, .of_keeps fun _ => id⟩

section Call

variable {guarded : Prop} {s : EventLoop} {c : Slot} {o : Addr}

/-- A handler that ends well, or goes wrong in the state it was called in. -/
theorem LoopInv.settle (h : LoopInv guarded s) (hc : Holds guarded s c o) {r : Option EventLoop}
    (hr : ∀ s', r = some s' → After c o s s') : Onward guarded s (s.settle r) := by
  cases hres : r with
  | none => exact h.goWrong
  | some s' => exact (h.ok.apart hc).after h.journal (hr s' hres)

variable (inflateGzip : HttpBuf → HttpBuf → Int × HttpBuf)

/-- What handler an event has that epoll may report. -/
inductive ActiveHandler (s : EventLoop) (c : Slot) (e : EventRef) : Prop
  | handshake : Early s.sockets c →
      (s.pool.events.ev e).handler = some .sslHandshakeHandler → ActiveHandler s c e
  | write : e = .write c → NoneSaved s.sockets c →
      (s.pool.events.ev e).handler = some .httpWriteEventProcess → ActiveHandler s c e
  | read : e = .read c → Late s.sockets c →
      (s.pool.events.ev e).handler = some .httpReadEventProcess → ActiveHandler s c e
  | aside : e = .write c → Late s.sockets c →
      (s.pool.events.ev e).handler = some .sslWriteHandler → ActiveHandler s c e

/-- In the first phase the read event is waited for only with the handshake's handler. -/
theorem Holds.activeHandler (hc : Holds guarded s c o) {e : EventRef} (he : e.slot = c)
    (hactive : (s.pool.events.ev e).active = true) : ActiveHandler s c e := by
  rcases EventRef.eq_of_slot he with rfl | rfl
  · rcases hc.phase with hearly | hlate
    · refine .handshake hearly (hearly.read.resolve_left fun hoff => ?_)
      have hon : (s.sockets.pool.events.ev (.read c)).active = true := hactive
      rw [hon] at hoff
      cases hoff
    · exact .read rfl hlate hlate.read
  · rcases hc.phase with hearly | hlate
    · rcases hearly.write with hwrite | hwrite
      · exact .handshake hearly hwrite
      · exact .write rfl hearly.saved hwrite
    · rcases hlate.write with ⟨hwrite, hsaved⟩ | ⟨hwrite, -⟩
      · exact .write rfl hsaved hwrite
      · exact .aside rfl hlate hwrite

/-- The handler of an event that epoll may report keeps the invariant. -/
theorem LoopInv.invoke (h : LoopInv guarded s) (hc : Holds guarded s c o) {e : EventRef}
    (he : e.slot = c) (hactive : (s.pool.events.ev e).active = true) (env : Env) :
    Onward guarded s (invoke inflateGzip handlerDepth s e env) := by
  have hnote := h.note hc he
  have hn := hnote.inv
  refine hnote.trans ?_
  have hcn : Holds guarded (s.note e) c o := hc.withLog _
  obtain ⟨client, howns⟩ := hcn.client
  rw [handlerDepth, Http.invoke]
  cases hcn.activeHandler he hactive with
  | handshake hearly hhan =>
      simp only [hhan]
      exact hn.settle hcn fun s' hs' => sslHandshakeHandler_after he howns hearly hs'
  | write hew hsaved hhan =>
      subst hew
      simp only [hhan]
      exact hn.settle hcn fun s' hs' => httpWriteEventProcess_after howns hhan hsaved hs'
  | read her hlate hhan =>
      subst her
      simp only [hhan]
      exact hn.settle hcn fun s' hs' => httpReadEventProcess_after howns hlate hs'
  | aside hew hlate hhan =>
      -- `ssl_write_handler` calls the read handler
      subst hew
      obtain ⟨hread, -, -, hdata⟩ := howns.owned.names
      have hnote₂ := hn.note hcn (e := .read c) rfl
      have hcn₂ : Holds guarded ((s.note (.write c)).note (.read c)) c o := hcn.withLog _
      obtain ⟨client₂, howns₂⟩ := hcn₂.client
      have hhan₂ : (((s.note (.write c)).note (.read c)).pool.events.ev (.read c)).handler =
          some .httpReadEventProcess := hlate.read
      have hlate₂ : Late ((s.note (.write c)).note (.read c)).sockets c := hlate
      simp only [hhan, hdata, Option.map_some, Option.bind_some, hread, EventLoop.settle,
        Option.getD_some]
      rw [Http.invoke]
      simp only [hhan₂]
      exact hnote₂.trans
        (hnote₂.inv.settle hcn₂ fun s' hs' => httpReadEventProcess_after howns₂ hlate₂ hs')

/-- The bound on handlers that call one another is never met: the read handler that
`ssl_write_handler` calls is `http_read_event_process`, which calls no other. -/
theorem Holds.invoke_depth (hc : Holds guarded s c o) {e : EventRef} (he : e.slot = c)
    (hactive : (s.pool.events.ev e).active = true) (depth : Nat) (env : Env) :
    Http.invoke inflateGzip (depth + 2) s e env =
      Http.invoke inflateGzip handlerDepth s e env := by
  have hcn : Holds guarded (s.note e) c o := hc.withLog _
  obtain ⟨client, howns⟩ := hcn.client
  rw [handlerDepth, Http.invoke, Http.invoke]
  cases hcn.activeHandler he hactive with
  | handshake hearly hhan => simp only [hhan]
  | write hew hsaved hhan => simp only [hhan]
  | read her hlate hhan => simp only [hhan]
  | aside hew hlate hhan =>
      subst hew
      obtain ⟨hread, -, -, hdata⟩ := howns.owned.names
      have hhan₂ : (((s.note (.write c)).note (.read c)).pool.events.ev (.read c)).handler =
          some .httpReadEventProcess := hlate.read
      simp only [hhan, hdata, Option.map_some, Option.bind_some, hread]
      rw [Http.invoke, Http.invoke]
      simp only [hhan₂]

/-- Setting flags of an event before its handler is called. -/
theorem LoopInv.flag (h : LoopInv guarded s) (hc : Holds guarded s c o) {e : EventRef}
    (he : e.slot = c) {f : Event → Event}
    (hdata : (f (s.pool.events.ev e)).data = (s.pool.events.ev e).data)
    (hhandler : (f (s.pool.events.ev e)).handler = (s.pool.events.ev e).handler)
    (hset : (f (s.pool.events.ev e)).timerSet = (s.pool.events.ev e).timerSet)
    (hactive : (f (s.pool.events.ev e)).active = (s.pool.events.ev e).active) :
    Onward guarded s (s.withSockets (s.sockets.modifyEvent e f)) ∧
      Holds guarded (s.withSockets (s.sockets.modifyEvent e f)) c o := by
  obtain ⟨client, howns⟩ := hc.client
  have hw : Within c s.sockets (s.sockets.modifyEvent e f) :=
    Within.modifyEvent howns.owned he hdata hset
  have hs := (Serving.refl c o s).withSockets hw
  have ha := h.ok.apart hc
  have ha' := ha.serving hs
  have htimer : ∀ e', ((s.sockets.modifyEvent e f).pool.events.ev e').timerSet =
      (s.pool.events.ev e').timerSet := by
    intro e'
    rw [modifyEvent_ev]
    split
    case isTrue heq => rw [heq]; exact hset
    case isFalse => rfl
  have hc' : Holds guarded (s.withSockets (s.sockets.modifyEvent e f)) c o := by
    refine ⟨ha'.client, ha'.link, ?_, fun hg => ?_⟩
    · exact hc.phase.imp (·.modifyEvent hhandler hset hactive) (·.modifyEvent hhandler hset)
    · have harm := hc.armed hg
      rw [HasTimer] at harm ⊢
      rw [← htimer, ← htimer] at harm
      exact harm
  exact ⟨⟨⟨ha'.join hc', h.journal.serving ha hs⟩, rfl, rfl, .of_keeps hw.ok⟩, hc'⟩

/-- The half of an entry that is about reading. -/
theorem LoopInv.dispatchRead (h : LoopInv guarded s) (hc : Holds guarded s c o) (revents : UInt32)
    (env : Env) : Onward guarded s (dispatchRead inflateGzip s c revents env) := by
  obtain ⟨client, howns⟩ := hc.client
  rw [Http.dispatchRead, howns.owned.names.1]
  simp only
  split
  case isTrue hon =>
    obtain ⟨hf, hcf⟩ := h.flag hc (e := .read c) rfl
      (f := fun ev =>
        { ev with
          pendingEof := if revents &&& epollRdhup ≠ 0 then true else ev.pendingEof
          ready := true }) rfl rfl rfl rfl
    refine hf.trans (hf.inv.invoke inflateGzip hcf rfl ?_ env)
    have hact : (s.sockets.pool.events.ev (.read c)).active = true := hon.2
    simpa [EventLoop.withSockets] using hact
  case isFalse => exact h.stay

/-- The half that is about writing: where the connection has been closed in between, its events are
not active any more. -/
theorem LoopInv.dispatchWrite (h : LoopInv guarded s) (hn : c < s.pool.n) (hdns : s.dns ≠ some c)
    (revents : UInt32) (env : Env) :
    Onward guarded s (dispatchWrite inflateGzip s c revents env) := by
  obtain ⟨xs, hok⟩ := h.ok.pool
  rw [Http.dispatchWrite, (hok.names c hn).2]
  simp only
  split
  case isTrue hon =>
    split
    case isTrue => exact h.stay
    case isFalse hfd =>
      obtain ⟨o, hc⟩ := (h.ok.slots c ⟨hn, hfd⟩).resolve_left hdns
      obtain ⟨hf, hcf⟩ := h.flag hc (e := .write c) rfl (f := fun ev => { ev with ready := true })
        rfl rfl rfl rfl
      refine hf.trans (hf.inv.invoke inflateGzip hcf rfl ?_ env)
      have hact : (s.sockets.pool.events.ev (.write c)).active = true := hon.2
      simpa [EventLoop.withSockets] using hact
  case isFalse => exact h.stay

/-- One entry of `event_process`. -/
theorem LoopInv.entry (h : LoopInv guarded s) (hn : c < s.pool.n) (hdns : s.dns ≠ some c)
    (events : UInt32) (renv wenv : Env) :
    Onward guarded s (eventEntry inflateGzip s c events renv wenv) := by
  rw [eventEntry]
  split
  case isTrue => exact h.stay
  case isFalse hfd =>
    obtain ⟨o, hc⟩ := (h.ok.slots c ⟨hn, hfd⟩).resolve_left hdns
    have hr := h.dispatchRead inflateGzip hc (reventsOf events) renv
    simp only
    split
    case isTrue => exact hr
    case isFalse =>
      refine hr.trans (hr.inv.dispatchWrite inflateGzip ?_ ?_ (reventsOf events) wenv)
      · rw [hr.n]
        exact hn
      · rw [hr.dns]
        exact hdns

/-- A handler whose event has timed out calls the client's handler and does nothing else. -/
theorem invoke_timedout {client : HttpClient} (hs : Owns s c o client) {e : EventRef}
    (he : e.slot = c) (htime : (s.pool.events.ev e).timedout = true)
    (hhan : (s.pool.events.ev e).handler = some .sslHandshakeHandler ∨
      e = .read c ∧ (s.pool.events.ev e).handler = some .httpReadEventProcess ∨
      e = .write c ∧ (s.pool.events.ev e).handler = some .httpWriteEventProcess) (env : Env) :
    invoke inflateGzip handlerDepth s e env = (s.note e).callHandler o client := by
  have hs' : Owns (s.note e) c o client := ⟨hs.owned, hs.record, hs.handler⟩
  have htime' : ((s.note e).pool.events.ev e).timedout = true := htime
  have hsame : ((s.note e).pool.events.ev e).handler = (s.pool.events.ev e).handler := rfl
  rw [handlerDepth, Http.invoke]
  simp only [hsame]
  rcases hhan with hhan | ⟨rfl, hhan⟩ | ⟨rfl, hhan⟩
  · simp only [hhan]
    rw [sslHandshakeHandler_timedout hs' he htime']
    rfl
  · simp only [hhan]
    rw [httpReadEventProcess_timedout hs' htime']
    rfl
  · simp only [hhan]
    rw [httpWriteEventProcess_timedout hs' htime']
    rfl

/-- The handler of an armed event: in the first phase only the write event is armed, in the second
only the read event. -/
theorem Holds.armedHandler (hc : Holds guarded s c o) {e : EventRef} (he : e.slot = c)
    (hset : (s.pool.events.ev e).timerSet = true) :
    (s.pool.events.ev e).handler = some .sslHandshakeHandler ∨
      e = .read c ∧ (s.pool.events.ev e).handler = some .httpReadEventProcess ∨
      e = .write c ∧ (s.pool.events.ev e).handler = some .httpWriteEventProcess := by
  rcases EventRef.eq_of_slot he with rfl | rfl
  · rcases hc.phase with hearly | hlate
    · have hoff : (s.pool.events.ev (.read c)).timerSet = false := hearly.disarmed
      rw [hset] at hoff
      cases hoff
    · exact Or.inr (Or.inl ⟨rfl, hlate.read⟩)
  · rcases hc.phase with hearly | hlate
    · exact hearly.write.imp_right fun hwrite => Or.inr ⟨rfl, hwrite⟩
    · have hoff : (s.pool.events.ev (.write c)).timerSet = false := hlate.disarmed
      rw [hset] at hoff
      cases hoff

/-- One round of `event_expire_timers`: the handler finds its event timed out, and the client is
released. -/
theorem LoopInv.expire (h : LoopInv guarded s) {e : EventRef} (he : e ∈ s.pool.events.rbtree)
    (env : Env) : Onward guarded s (expireRound inflateGzip s e env) := by
  obtain ⟨xs, hok⟩ := h.ok.pool
  have hset : (s.pool.events.ev e).timerSet = true := (hok.timers.set_iff e).mpr he
  have hdns : s.dns ≠ some e.slot := by
    intro hdns
    have hoff := (h.ok.dns e.slot hdns).disarmed e rfl
    rw [hset] at hoff
    cases hoff
  obtain ⟨o, hc⟩ := (h.ok.slots e.slot (hok.linked e he)).resolve_left hdns
  have hhan := hc.armedHandler rfl hset
  have ha := h.ok.apart hc
  -- the timer is taken out of the tree
  obtain ⟨t, hexp, hcons, haff⟩ := hok.timers.expireTimer he
  have htimer : s.timer (expireTimer · e) =
      some (s.withSockets ⟨{ s.pool with events := t }, s.io⟩) := by
    simp [EventLoop.timer, Pool.withTimers, hexp, EventLoop.withSockets]
  have hs : Serving e.slot o s (s.withSockets ⟨{ s.pool with events := t }, s.io⟩) := by
    refine (Serving.refl e.slot o s).withSockets ⟨rfl, fun e' he' => ?_, fun _ _ => rfl,
      fun ys hys => hys.affects hcons haff fun hf => hf.elim⟩
    exact haff.other_ev e' fun heq => he' (heq ▸ rfl)
  rw [expireRound, htimer, Option.map_some, EventLoop.settle, Option.getD_some]
  have ha₁ := ha.serving hs
  have hj₁ := h.journal.serving ha hs
  rw [← haff.handler] at hhan
  have hout : (t.ev e).timedout = true := expireTimer_timedout hexp
  generalize hs₁ : s.withSockets ⟨{ s.pool with events := t }, s.io⟩ = s₁ at ha₁ hj₁
  have hev : s₁.pool.events.ev e = t.ev e := by rw [← hs₁]; rfl
  rw [← hev] at hhan hout
  -- its handler is called
  obtain ⟨client₁, howns₁⟩ := ha₁.client
  rw [invoke_timedout inflateGzip howns₁ rfl hout hhan env]
  have ha₂ : Apart guarded (s₁.note e) e.slot o := ha₁.withLog _
  have hgone : Gone e.slot o (s₁.note e) ((s₁.note e).callHandler o client₁) :=
    ⟨_, client₁, Serving.refl _ _ _, howns₁.handler, rfl⟩
  have hend := ha₂.after (hj₁.note howns₁ rfl) (Or.inr hgone)
  have hn : s₁.pool.n = s.pool.n := by rw [← hs₁]; rfl
  have hd : s₁.dns = s.dns := by rw [← hs₁]; rfl
  have hfree : Spends 0 s.pool s₁.pool := by
    rw [← hs₁]
    exact .of_keeps hs.within.ok
  exact ⟨hend.inv, hend.n.trans hn, hend.dns.trans hd, hfree.trans hend.free⟩

end Call

end Crawler.Http
