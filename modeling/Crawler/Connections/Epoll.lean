/-
# Crawler.Connections.Epoll — the kernel's interest list

`event_add` and `event_del` choose between `EPOLL_CTL_ADD`, `EPOLL_CTL_MOD` and `EPOLL_CTL_DEL` by the
`active` bits alone, and `close_connection` clears the bits without a call, since closing the
descriptor takes it off the list. The kernel goes by the calls recorded in the pool, and answers as
`epoll_ctl(2)` says: what is registered cannot be added, what is not cannot be changed or deleted. Where
every call recorded is one it accepts, they leave a list (`Listed`).

`Registered` says that the bits and the list agree. It is what makes every choice of the code right, so
that the kernel refuses a request only for reasons of its own.
-/
import Crawler.Connections.Invariant

namespace Crawler.Connections

open Crawler.Lib Crawler.EventTimer

/-! ## The interest list -/

/-- What the kernel keeps for a descriptor: `ee.events`, and the connection in `ee.data.ptr`. -/
structure Registration where
  events : UInt32
  ptr : Slot
  deriving DecidableEq, Repr

/-- The interest list of `ep`, by descriptor. -/
abbrev Interest := Int → Option Registration

/-- What `epoll_ctl` does to the list. It fails with `EEXIST` or with `ENOENT` where this is `none`. -/
def Interest.ctl (k : Interest) (req : EpollCtl) (ptr : Slot) : Option Interest :=
  match req.op, k req.fd with
  | .add, none => some (Function.update k req.fd (some ⟨req.events, ptr⟩))
  | .mod, some _ => some (Function.update k req.fd (some ⟨req.events, ptr⟩))
  | .del, some _ => some (Function.update k req.fd none)
  | _, _ => none

/-- Closing a descriptor takes it off the list. -/
def Interest.close (k : Interest) (fd : Int) : Interest := Function.update k fd none

/-- The list behind a call, `none` where the call is one that the list does not allow. A request that it
allows may still be refused for other reasons, and then nothing changes. -/
def Interest.after (k : Interest) : KernelCall → Option Interest
  | .ctl req c rc => (k.ctl req c).map fun k' => if rc = -1 then k else k'
  | .close fd => some (k.close fd)

/-- Every call recorded, from the first on, is one that the list then allows; and `k` is the list they
leave. -/
def Listed (p : Pool) (k : Interest) : Prop := p.asked.foldlM Interest.after (fun _ => none) = some k

/-- One call more. -/
theorem Listed.ask {p : Pool} {k k' : Interest} {call : KernelCall} (h : Listed p k)
    (hcall : k.after call = some k') : Listed (p.ask call) k' := by
  have hlast : [call].foldlM Interest.after k = some k' := by
    rw [List.foldlM_cons, hcall]
    rfl
  rw [Listed, Pool.ask, List.foldlM_append, (h : p.asked.foldlM _ _ = _)]
  exact hlast

theorem Listed.congr {p p' : Pool} {k : Interest} (h : Listed p k) (hasked : p'.asked = p.asked) :
    Listed p' k := by
  rw [Listed, hasked]
  exact h

/-! ## What the code asks for -/

/-- Which of the two masks an event is added with. -/
def EventRef.half : EventRef → IoEvent
  | .read _ => .read
  | .write _ => .write

/-- The other event of the connection. -/
def EventRef.other : EventRef → EventRef
  | .read i => .write i
  | .write i => .read i

@[simp] theorem EventRef.other_slot (e : EventRef) : e.other.slot = e.slot := by cases e <;> rfl

@[simp] theorem EventRef.other_other (e : EventRef) : e.other.other = e := by cases e <;> rfl

/-- The socket of an event. -/
def Pool.fdOf (p : Pool) (e : EventRef) : Int := (p.connections e.slot).fd

/-- The request that `event_add(ev, event, flags)` makes. -/
def addRequest (p : Pool) (e : EventRef) (flags : UInt32) : EpollCtl :=
  if (p.events.ev e.other).active then
    ⟨.mod, p.fdOf e, (e.half.mask ||| e.other.half.mask) ||| flags⟩
  else ⟨.add, p.fdOf e, e.half.mask ||| flags⟩

/-- The request that `event_del(ev, event, flags)` makes. -/
def delRequest (p : Pool) (e : EventRef) (flags : UInt32) : EpollCtl :=
  if (p.events.ev e.other).active then ⟨.mod, p.fdOf e, e.other.half.mask ||| flags⟩
  else ⟨.del, p.fdOf e, 0⟩

theorem PoolOk.otherHalf_half {p : Pool} {xs : List Slot} (h : PoolOk p xs) {e : EventRef}
    (he : Held p e.slot) :
    Connections.otherHalf (p.connections e.slot) e.half = (some e.other, e.other.half.mask) := by
  obtain ⟨hread, hwrite⟩ := h.names e.slot he.1
  cases e with
  | read i => exact congrArg (·, IoEvent.write.mask) hwrite
  | write i => exact congrArg (·, IoEvent.read.mask) hread

/-- `event_add` makes this request, whatever comes of it. -/
theorem PoolOk.eventAdd_request {p : Pool} {xs : List Slot} (h : PoolOk p xs) {e : EventRef}
    (he : Held p e.slot) (flags : UInt32) (ctl : EpollCtl → Int) :
    Connections.eventAdd p e e.half flags ctl =
      some (if ctl (addRequest p e flags) = -1 then
          (-1, p.ask (.ctl (addRequest p e flags) e.slot (ctl (addRequest p e flags))))
        else (0, (p.ask (.ctl (addRequest p e flags) e.slot (ctl (addRequest p e flags)))).setActive e
          true)) := by
  simp only [Connections.eventAdd, h.owned e he, h.otherHalf_half he, Option.bind_eq_bind,
    Option.bind_some]
  rw [addRequest, Pool.fdOf]
  split <;> split <;> rfl

/-- `event_del` makes this request. -/
theorem PoolOk.eventDel_request {p : Pool} {xs : List Slot} (h : PoolOk p xs) {e : EventRef}
    (he : Held p e.slot) {flags : UInt32} (hflags : flags &&& closeEvent = 0) (ctl : EpollCtl → Int) :
    Connections.eventDel p e e.half flags ctl =
      some (if ctl (delRequest p e flags) = -1 then
          (-1, p.ask (.ctl (delRequest p e flags) e.slot (ctl (delRequest p e flags))))
        else (0, (p.ask (.ctl (delRequest p e flags) e.slot (ctl (delRequest p e flags)))).setActive e
          false)) := by
  rw [Connections.eventDel, if_neg (not_not.mpr hflags)]
  simp only [h.owned e he, h.otherHalf_half he, Option.bind_eq_bind, Option.bind_some]
  rw [delRequest, Pool.fdOf]
  split <;> split <;> rfl

/-! ## The agreement -/

/-- The masks of the active events of connection `i`. -/
def Pool.watched (p : Pool) (i : Slot) : UInt32 :=
  (if (p.events.ev (.read i)).active then IoEvent.read.mask else 0) |||
    (if (p.events.ev (.write i)).active then IoEvent.write.mask else 0)

/-- The registration a held connection should have. `event_del` with no flags leaves a read event
level-triggered; everything else is edge-triggered. -/
def Pool.Expects (p : Pool) (i : Slot) : Option Registration → Prop
  | none => (p.events.ev (.read i)).active = false ∧ (p.events.ev (.write i)).active = false
  | some r => r.ptr = i ∧ p.watched i ≠ 0 ∧ (r.events = p.watched i ||| clearEvent ∨
      r.events = IoEvent.read.mask ∧ p.watched i = IoEvent.read.mask)

/-- The list is what the `active` bits say, for every descriptor there is. -/
structure Registered (p : Pool) (k : Interest) : Prop where
  ok : ∃ xs, PoolOk p xs
  distinct : ∀ i j, Held p i → Held p j → (p.connections i).fd = (p.connections j).fd → i = j
  held : ∀ i, Held p i → p.Expects i (k (p.connections i).fd)
  others : ∀ fd, (∀ i, Held p i → (p.connections i).fd ≠ fd) → k fd = none

/-! ## What happens to both -/

/-- Nothing that the list is about has changed. -/
structure Quiet (p p' : Pool) : Prop where
  n : p'.n = p.n
  fd : ∀ i, (p'.connections i).fd = (p.connections i).fd
  active : ∀ e, (p'.events.ev e).active = (p.events.ev e).active
  ok : ∀ xs, PoolOk p xs → PoolOk p' xs
  asked : p'.asked = p.asked

/-! ## The agreement is kept -/

theorem Quiet.held_iff {p p' : Pool} (h : Quiet p p') (i : Slot) : Held p' i ↔ Held p i := by
  rw [Held, Held, h.n, h.fd]

/-- What is expected of a slot depends on its two `active` bits. -/
theorem Pool.Expects.congr {p p' : Pool} {i : Slot} {r : Option Registration} (h : p.Expects i r)
    (hactive : ∀ e : EventRef, e.slot = i → (p'.events.ev e).active = (p.events.ev e).active) :
    p'.Expects i r := by
  have hread := hactive (.read i) rfl
  have hwrite := hactive (.write i) rfl
  have hwatched : p'.watched i = p.watched i := by rw [Pool.watched, Pool.watched, hread, hwrite]
  cases r with
  | none => exact ⟨hread.trans h.1, hwrite.trans h.2⟩
  | some r =>
      rw [Pool.Expects, hwatched]
      exact h

theorem Registered.quiet {p p' : Pool} {k : Interest} (h : Registered p k) (hq : Quiet p p') :
    Registered p' k where
  ok := h.ok.imp hq.ok
  distinct i j hi hj := by
    rw [hq.fd, hq.fd]
    exact h.distinct i j ((hq.held_iff i).mp hi) ((hq.held_iff j).mp hj)
  held i hi := by
    rw [hq.fd]
    exact (h.held i ((hq.held_iff i).mp hi)).congr fun e _ => hq.active e
  others fd hfd := h.others fd fun i hi => hq.fd i ▸ hfd i ((hq.held_iff i).mpr hi)

theorem Registered.ask {p : Pool} {k : Interest} (h : Registered p k) (call : KernelCall) :
    Registered (p.ask call) k :=
  ⟨h.ok.imp fun _ hok => hok.ask call, h.distinct, h.held, h.others⟩

/-- A connection handed out is not registered, and its events are not active. -/
theorem Registered.getConnection {p p' : Pool} {k : Interest} {fd : Int} {c : Slot}
    (h : Registered p k) (hfd : 0 ≤ fd) (hfresh : ∀ i, Held p i → (p.connections i).fd ≠ fd)
    (hget : Connections.getConnection p fd = some (some c, p')) : Registered p' k := by
  obtain ⟨xs, hok⟩ := h.ok
  rcases hok.getConnection hfd with ⟨-, hnone⟩ | ⟨c', ys, rfl, hsome, hok', -⟩
  · rw [hnone] at hget
    cases hget
  · obtain ⟨rfl, rfl⟩ : c' = c ∧ p.handOut c' (.read c') (.write c') fd = p' := by
      rw [hsome] at hget
      simpa using hget
    have hcn := ((hok.free c').mp (by simp)).1
    have hheld := handOut_held p (.read c') (.write c') hcn hfd
    have hidle : ¬ Held p c' := fun hc => hc.2 ((hok.free c').mp (by simp)).2
    refine ⟨⟨ys, hok'⟩, fun i j hi hj => ?_, fun i hi => ?_, fun fd' hfd' => ?_⟩
    · -- the new descriptor is no other connection's
      rw [handOut_connections, handOut_connections]
      by_cases hic : i = c' <;> by_cases hjc : j = c'
      · simp [hic, hjc]
      · have hj' := ((hheld j).mp hj).resolve_left hjc
        simpa [hic, hjc] using fun heq : fd = _ => absurd heq.symm (hfresh j hj')
      · have hi' := ((hheld i).mp hi).resolve_left hic
        simpa [hic, hjc] using fun heq : _ = fd => absurd heq (hfresh i hi')
      · have hi' := ((hheld i).mp hi).resolve_left hic
        have hj' := ((hheld j).mp hj).resolve_left hjc
        simpa [hic, hjc] using h.distinct i j hi' hj'
    · by_cases hic : i = c'
      · subst hic
        have hnone : k fd = none := h.others fd hfresh
        simp [Pool.Expects, hnone]
      · have hi' := ((hheld i).mp hi).resolve_left hic
        rw [handOut_connections, if_neg hic]
        refine (h.held i hi').congr fun e he => ?_
        have hread : e ≠ .read c' := fun heq => hic (by rw [← he, heq]; rfl)
        have hwrite : e ≠ .write c' := fun heq => hic (by rw [← he, heq]; rfl)
        simp [hread, hwrite]
    · refine h.others fd' fun i hi => ?_
      have hic : i ≠ c' := fun heq => hidle (heq ▸ hi)
      have := hfd' i ((hheld i).mpr (Or.inr hi))
      rwa [handOut_connections, if_neg hic] at this

/-- Closing a connection takes its descriptor off the list, and no other. -/
theorem Registered.closeConnection {p p' : Pool} {k : Interest} {c : Slot} (h : Registered p k)
    (hc : Held p c) (hclose : Connections.closeConnection p c = some p') :
    Registered p' (k.close (p.connections c).fd) := by
  obtain ⟨xs, hok⟩ := h.ok
  obtain ⟨p₁, hclose₁, hcl⟩ := hok.closeHeld hc
  obtain rfl := Option.some.inj (hclose₁.symm.trans hclose)
  have hheld : ∀ i, Held p₁ i → i ≠ c ∧ Held p i := by
    intro i hi
    have hic : i ≠ c := fun heq => hi.2 (heq ▸ hcl.closed)
    rw [Held, hcl.n, hcl.other i hic] at hi
    exact ⟨hic, hi⟩
  refine ⟨⟨_, hcl.ok⟩, fun i j hi hj => ?_, fun i hi => ?_, fun fd hfd => ?_⟩
  · rw [hcl.other i (hheld i hi).1, hcl.other j (hheld j hj).1]
    exact h.distinct i j (hheld i hi).2 (hheld j hj).2
  · obtain ⟨hic, hi'⟩ := hheld i hi
    have hne : (p.connections i).fd ≠ (p.connections c).fd := fun heq =>
      hic (h.distinct i c hi' hc heq)
    rw [hcl.other i hic, Interest.close, Function.update_of_ne hne]
    exact (h.held i hi').congr fun e he => by rw [hcl.ev e (he ▸ hic)]
  · rw [Interest.close]
    by_cases heq : fd = (p.connections c).fd
    · rw [heq, Function.update_self]
    · rw [Function.update_of_ne heq]
      refine h.others fd fun i hi => ?_
      by_cases hic : i = c
      · subst hic
        exact Ne.symm heq
      · have hi' : Held p₁ i := by
          rw [Held, hcl.n, hcl.other i hic]
          exact hi
        rw [← hcl.other i hic]
        exact hfd i hi'

@[simp] theorem setActive_connections (p : Pool) (e : EventRef) (b : Bool) :
    (p.setActive e b).connections = p.connections := rfl

@[simp] theorem setActive_active (p : Pool) (e e' : EventRef) (b : Bool) :
    ((p.setActive e b).events.ev e').active = if e' = e then b else (p.events.ev e').active := by
  simp only [Pool.setActive, Pool.setEvent, Timers.set_ev]
  split <;> rfl

/-- Changing an event together with the registration of its socket. -/
theorem Registered.setActive {p : Pool} {k : Interest} (h : Registered p k) {e : EventRef}
    (he : Held p e.slot) {b : Bool} {x : Option Registration}
    (hx : (p.setActive e b).Expects e.slot x) :
    Registered (p.setActive e b) (Function.update k (p.fdOf e) x) := by
  obtain ⟨xs, hok⟩ := h.ok
  refine ⟨⟨xs, hok.setActive fun _ => he⟩, h.distinct, fun i hi => ?_, fun fd hfd => ?_⟩
  · rw [setActive_connections]
    by_cases hie : i = e.slot
    · subst hie
      rw [Pool.fdOf, Function.update_self]
      exact hx
    · have hne : (p.connections i).fd ≠ p.fdOf e := fun heq => hie (h.distinct i e.slot hi he heq)
      rw [Function.update_of_ne hne]
      refine (h.held i hi).congr fun e' he' => ?_
      have hee : e' ≠ e := fun heq => hie (by rw [← he', heq])
      rw [setActive_active, if_neg hee]
  · have hne : fd ≠ p.fdOf e := fun heq => hfd e.slot he heq.symm
    rw [Function.update_of_ne hne]
    exact h.others fd hfd

/-- With an event active the socket is registered. -/
theorem Registered.isSome {p : Pool} {k : Interest} (h : Registered p k) {e : EventRef}
    (he : Held p e.slot) (hactive : (p.events.ev e).active = true) : ∃ r, k (p.fdOf e) = some r := by
  have hexp := h.held e.slot he
  rw [← Pool.fdOf] at hexp
  cases hk : k (p.fdOf e) with
  | none =>
      rw [hk] at hexp
      cases e with
      | read i => exact absurd (hactive.symm.trans hexp.1) (by decide)
      | write i => exact absurd (hactive.symm.trans hexp.2) (by decide)
  | some r => exact ⟨r, rfl⟩

/-- With neither event active it is not. -/
theorem Registered.isNone {p : Pool} {k : Interest} (h : Registered p k) {e : EventRef}
    (he : Held p e.slot) (hself : (p.events.ev e).active = false)
    (hother : (p.events.ev e.other).active = false) : k (p.fdOf e) = none := by
  have hexp := h.held e.slot he
  rw [← Pool.fdOf] at hexp
  have hwatched : p.watched e.slot = 0 := by
    cases e with
    | read i =>
        have hother' : (p.events.ev (.write i)).active = false := hother
        simp [Pool.watched, EventRef.slot, hself, hother']
    | write i =>
        have hother' : (p.events.ev (.read i)).active = false := hother
        simp [Pool.watched, EventRef.slot, hself, hother']
  cases hk : k (p.fdOf e) with
  | none => rfl
  | some r =>
      rw [hk] at hexp
      exact absurd hwatched hexp.2.1

/-- What `event_add` asks for is always accepted, and the list follows. -/
theorem Registered.eventAdd {p : Pool} {k : Interest} (h : Registered p k) {e : EventRef}
    (he : Held p e.slot) (hoff : (p.events.ev e).active = false) :
    ∃ k', k.ctl (addRequest p e clearEvent) e.slot = some k' ∧ Registered (p.setActive e true) k' := by
  have hread : ∀ i, e = .read i → (p.setActive e true).watched i = IoEvent.read.mask |||
      if (p.events.ev (.write i)).active then IoEvent.write.mask else 0 := by
    rintro i rfl
    simp [Pool.watched]
  have hwrite : ∀ i, e = .write i → (p.setActive e true).watched i =
      (if (p.events.ev (.read i)).active then IoEvent.read.mask else 0) ||| IoEvent.write.mask := by
    rintro i rfl
    simp [Pool.watched]
  rw [addRequest]
  by_cases hother : (p.events.ev e.other).active = true
  · -- the other event is in: EPOLL_CTL_MOD
    obtain ⟨r, hr⟩ := h.isSome (e := e.other) (by simpa using he) hother
    have hr' : k (p.fdOf e) = some r := by simpa [Pool.fdOf] using hr
    rw [if_pos hother]
    refine ⟨_, by rw [Interest.ctl, hr'], h.setActive he (x := some ⟨_, e.slot⟩) ⟨rfl, ?_⟩⟩
    cases e with
    | read i =>
        have hother' : (p.events.ev (.write i)).active = true := hother
        rw [EventRef.slot, hread i rfl, if_pos hother']
        exact ⟨by decide, Or.inl rfl⟩
    | write i =>
        have hother' : (p.events.ev (.read i)).active = true := hother
        have hcomm : IoEvent.write.mask ||| IoEvent.read.mask =
            IoEvent.read.mask ||| IoEvent.write.mask := by decide
        rw [EventRef.slot, hwrite i rfl, if_pos hother']
        exact ⟨by decide, Or.inl (congrArg (· ||| clearEvent) hcomm)⟩
  · -- neither is: EPOLL_CTL_ADD
    have hr := h.isNone he hoff (Bool.eq_false_iff.mpr hother)
    rw [if_neg hother]
    refine ⟨_, by rw [Interest.ctl, hr], h.setActive he (x := some ⟨_, e.slot⟩) ⟨rfl, ?_⟩⟩
    cases e with
    | read i =>
        have hother' : ¬ (p.events.ev (.write i)).active = true := hother
        rw [EventRef.slot, hread i rfl, if_neg hother']
        exact ⟨by decide, Or.inl rfl⟩
    | write i =>
        have hother' : ¬ (p.events.ev (.read i)).active = true := hother
        rw [EventRef.slot, hwrite i rfl, if_neg hother']
        exact ⟨by decide, Or.inl rfl⟩

/-- What `event_del` asks for a write event is always accepted, and the list follows: the read event
stays, level-triggered, or nothing does. -/
theorem Registered.eventDel {p : Pool} {k : Interest} (h : Registered p k) {c : Slot} (hc : Held p c)
    (hon : (p.events.ev (.write c)).active = true) :
    ∃ k', k.ctl (delRequest p (.write c) 0) c = some k' ∧
      Registered (p.setActive (.write c) false) k' := by
  have hwatched : (p.setActive (.write c) false).watched c =
      if (p.events.ev (.read c)).active then IoEvent.read.mask else 0 := by
    simp [Pool.watched]
  obtain ⟨r, hr⟩ := h.isSome (e := .write c) hc hon
  rw [delRequest]
  by_cases hother : (p.events.ev (.read c)).active = true
  · rw [if_pos (show (p.events.ev (EventRef.write c).other).active = true from hother)]
    refine ⟨_, by rw [Interest.ctl, hr],
      h.setActive (e := .write c) hc (x := some ⟨_, c⟩) ⟨rfl, ?_⟩⟩
    rw [EventRef.slot, hwatched, if_pos hother]
    exact ⟨by decide, Or.inr ⟨show IoEvent.read.mask ||| 0 = IoEvent.read.mask by decide, rfl⟩⟩
  · rw [if_neg (show ¬ (p.events.ev (EventRef.write c).other).active = true from hother)]
    refine ⟨_, by rw [Interest.ctl, hr], h.setActive (e := .write c) hc (x := none) ⟨?_, ?_⟩⟩
    · simpa [EventRef.slot] using hother
    · simp [EventRef.slot]

/-- Unless the read event alone is watched, the registration is determined by the `active` bits. -/
theorem Registered.edge {p : Pool} {k : Interest} (h : Registered p k) {i : Slot} (hi : Held p i)
    (hne : p.watched i ≠ 0) (hread : p.watched i ≠ IoEvent.read.mask) :
    k (p.connections i).fd = some ⟨p.watched i ||| clearEvent, i⟩ := by
  have hexp := h.held i hi
  cases hk : k (p.connections i).fd with
  | none =>
      rw [hk] at hexp
      exact absurd (by simp [Pool.watched, hexp.1, hexp.2]) hne
  | some r =>
      rw [hk] at hexp
      obtain ⟨hptr, -, heq | ⟨-, hfalse⟩⟩ := hexp
      · rw [← heq, ← hptr]
      · exact absurd hfalse hread

/-! ## Many calls -/

/-- From `p` to `p'` the calls recorded stay such as the list allows, and the list goes on agreeing with
the bits. -/
def Traced (p p' : Pool) : Prop :=
  ∀ k, Listed p k → Registered p k → ∃ k', Listed p' k' ∧ Registered p' k'

theorem Traced.refl (p : Pool) : Traced p p := fun k hl hk => ⟨k, hl, hk⟩

theorem Traced.trans {p₀ p₁ p₂ : Pool} (h : Traced p₀ p₁) (h' : Traced p₁ p₂) : Traced p₀ p₂ := by
  intro k hl hk
  obtain ⟨k₁, hl₁, hk₁⟩ := h k hl hk
  exact h' k₁ hl₁ hk₁

theorem Traced.quiet {p p' : Pool} (h : Quiet p p') : Traced p p' :=
  fun k hl hk => ⟨k, hl.congr h.asked, hk.quiet h⟩

theorem Traced.getConnection {p p' : Pool} {fd : Int} {c : Slot} (hok : ∃ xs, PoolOk p xs) (hfd : 0 ≤ fd)
    (hfresh : ∀ i, Held p i → (p.connections i).fd ≠ fd)
    (hget : Connections.getConnection p fd = some (some c, p')) : Traced p p' := by
  obtain ⟨xs, hok⟩ := hok
  have hasked : p'.asked = p.asked := by
    rcases hok.getConnection hfd with ⟨-, hnone⟩ | ⟨c', ys, -, hsome, -⟩
    · rw [hnone] at hget
      cases hget
    · rw [hsome] at hget
      obtain ⟨-, rfl⟩ := Prod.mk.inj (Option.some.inj hget)
      rfl
  exact fun k hl hk => ⟨k, hl.congr hasked, hk.getConnection hfd hfresh hget⟩

theorem Traced.closeConnection {p p' : Pool} {c : Slot} (hc : Held p c)
    (hclose : Connections.closeConnection p c = some p') : Traced p p' := by
  intro k hl hk
  obtain ⟨xs, hok⟩ := hk.ok
  obtain ⟨p₁, hclose₁, hcl⟩ := hok.closeHeld hc
  obtain rfl := Option.some.inj (hclose₁.symm.trans hclose)
  have hlisted : Listed (p.ask (.close (p.connections c).fd)) (k.close (p.connections c).fd) := hl.ask rfl
  exact ⟨_, hlisted.congr hcl.asked, hk.closeConnection hc hclose⟩

/-- A descriptor that no connection holds is closed. -/
theorem Traced.close {p : Pool} {fd : Int} (hfresh : ∀ i, Held p i → (p.connections i).fd ≠ fd) :
    Traced p (p.ask (.close fd)) := by
  intro k hl hk
  have hsame : k.close fd = k := by
    rw [Interest.close, ← hk.others fd hfresh, Function.update_eq_self]
  refine ⟨k, hl.ask ?_, hk.ask _⟩
  rw [Interest.after, hsame]

/-- A request that the list allows, and what comes of it. -/
theorem Traced.request {p p' : Pool} (req : EpollCtl) (c : Slot) (rc : Int)
    (hallowed : ∀ k, Registered p k → ∃ k', k.ctl req c = some k' ∧
      if rc = -1 then Registered p' k else Registered p' k')
    (hasked : p'.asked = p.asked ++ [.ctl req c rc]) : Traced p p' := by
  intro k hl hk
  obtain ⟨k', hctl, hk'⟩ := hallowed k hk
  have hlisted : Listed (p.ask (.ctl req c rc)) (if rc = -1 then k else k') :=
    hl.ask (by rw [Interest.after, hctl, Option.map_some])
  refine ⟨_, hlisted.congr hasked, ?_⟩
  split_ifs at hk' ⊢ <;> exact hk'

/-- `event_add` of an event that is not active: the kernel may refuse for reasons of its own, and then
nothing has happened. -/
theorem Traced.eventAdd {p p' : Pool} {xs : List Slot} (hok : PoolOk p xs) {e : EventRef}
    (he : Held p e.slot) (hoff : (p.events.ev e).active = false) {ctl : EpollCtl → Int} {rc : Int}
    (h : Connections.eventAdd p e e.half clearEvent ctl = some (rc, p')) : Traced p p' := by
  rw [hok.eventAdd_request he clearEvent] at h
  refine .request (addRequest p e clearEvent) e.slot (ctl (addRequest p e clearEvent)) (fun k hk => ?_) ?_
  · obtain ⟨k', hctl, hk'⟩ := hk.eventAdd he hoff
    refine ⟨k', hctl, ?_⟩
    split_ifs at h ⊢ <;> cases h
    · exact hk.ask _
    · exact hk'.ask _
  · split_ifs at h <;> cases h <;> rfl

theorem Traced.eventDel {p p' : Pool} {xs : List Slot} (hok : PoolOk p xs) {c : Slot} (hc : Held p c)
    (hon : (p.events.ev (.write c)).active = true) {ctl : EpollCtl → Int} {rc : Int}
    (h : Connections.eventDel p (.write c) .write 0 ctl = some (rc, p')) : Traced p p' := by
  have hflags : (0 : UInt32) &&& closeEvent = 0 := by decide
  have hdel := hok.eventDel_request (e := .write c) hc hflags ctl
  rw [show IoEvent.write = (EventRef.write c).half from rfl, hdel] at h
  refine .request (delRequest p (.write c) 0) c (ctl (delRequest p (.write c) 0)) (fun k hk => ?_) ?_
  · obtain ⟨k', hctl, hk'⟩ := hk.eventDel hc hon
    refine ⟨k', hctl, ?_⟩
    split_ifs at h ⊢ <;> cases h
    · exact hk.ask _
    · exact hk'.ask _
  · split_ifs at h <;> cases h <;> rfl

/-- `connection_init` has asked the kernel for nothing. -/
theorem connectionInit_listed {n : UInt32} {p : Pool} (h : connectionInit n = some p) :
    Listed p fun _ => none := by
  rw [connectionInit] at h
  simp only at h
  split at h
  · cases h
  · cases h
    rfl

/-- After `connection_init` nothing is registered. -/
theorem connectionInit_registered {n : UInt32} {p : Pool} (h : connectionInit n = some p) :
    Registered p fun _ => none := by
  have hok := connectionInit_ok h
  have hidle : ∀ i, ¬ Held p i := fun i hi =>
    hi.2 ((hok.free i).mp (List.mem_range.mpr hi.1)).2
  exact ⟨⟨_, hok⟩, fun i _ hi => absurd hi (hidle i), fun i hi => absurd hi (hidle i),
    fun _ _ => rfl⟩

end Crawler.Connections
