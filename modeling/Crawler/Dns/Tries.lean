/-
# Crawler.Dns.Tries — each call of `dns_query` is answered at most once, after boundedly many tries

Queries have no names of their own in `async_dns.c`: ids repeat, and two calls may pass the same
handler. `observed` runs the resolver beside a record that numbers the calls of `dns_query` in order
and notes, for every handler call and every packet, the number of the call whose query the step is
about.

What makes the law hold is one invariant over the linked queries (`Tracked`): a linked query has not
been answered, and has been sent once more than `trytimes` says. All three ways out of the queue take
the query's timer along, so nothing that comes later finds it again.
-/
import Crawler.Dns.Steps
import Crawler.Dns.Timed

namespace Crawler.Dns

open Crawler.Lib Crawler.Lib.Ring Crawler.Queue Crawler.EventTimer

/-! ## The record -/

/-- The resolver with the record: the number of calls so far, the call that made the query at an
address, and the calls the handler calls and the packets belong to, oldest first. -/
structure Observed where
  s : Resolver
  count : Nat
  caller : Addr → Option Nat
  handled : List (Option Nat)
  sentFor : List (Option Nat)

/-- The call a step acts for. -/
def Observed.actsFor (o : Observed) (act : Action) : Option Nat :=
  if act.isQuery then some o.count else (subject o.s act).bind o.caller

/-- The record after a step that leaves the resolver in `s'`. -/
def Observed.after (o : Observed) (act : Action) (s' : Resolver) : Observed where
  s := s'
  count := if act.isQuery then o.count + 1 else o.count
  caller := if act.isQuery then Function.update o.caller o.s.brk (some o.count) else o.caller
  handled := o.handled ++ (s'.calls.drop o.s.calls.length).map fun _ => o.actsFor act
  sentFor := o.sentFor ++ (s'.sent.drop o.s.sent.length).map fun _ => o.actsFor act

/-- What the send of an action returns, if it sends. -/
def Action.rc : Action → Int
  | .query _ _ rc _ => rc
  | .datagram _ _ _ rc _ => rc
  | .expire _ _ rc _ => rc

/-- Nothing has been recorded. -/
def observedInit : Observed := ⟨dnsInit, 0, fun _ => none, [], []⟩

/-- Every datagram has one question and every send succeeds. -/
def observed : System Observed Action where
  init := (· = observedInit)
  enabled := fun o act => oneQuestion.enabled o.s act ∧ 0 ≤ act.rc
  next := fun o act => (oneQuestion.next o.s act).map (o.after act)

/-- How often the handler of call `k` was invoked. -/
def Observed.answers (o : Observed) (k : Nat) : Nat := o.handled.count (some k)

/-- How often the packet of call `k` was sent. -/
def Observed.packets (o : Observed) (k : Nat) : Nat := o.sentFor.count (some k)

/-- The bounds on every call, and the timers of the queries that are not linked. Every handler call
and every packet belongs to some call. -/
structure Bounded (o : Observed) : Prop where
  answers : ∀ k, o.answers k ≤ 1
  packets : ∀ k, o.packets k ≤ dnsTryLimit + 2
  disarmed : ∀ a, ¬ Linked o.s a → a ∉ o.s.timers.rbtree ∧ (o.s.timers.ev a).timerSet = false
  attributed : none ∉ o.handled ∧ none ∉ o.sentFor

/-- Call `k` was made, and none of its queries is linked. -/
def HasLeft (o : Observed) (k : Nat) : Prop :=
  k < o.count ∧ ∀ a, o.caller a = some k → ¬ Linked o.s a

/-! ## The invariant -/

/-- A linked query belongs to call `k`, which is not answered yet. -/
structure Pending (o : Observed) (a : Addr) (k : Nat) : Prop where
  caller : o.caller a = some k
  made : k < o.count
  answers : o.answers k = 0
  query : ∃ q, o.s.query a = some q ∧ o.packets k = q.trytimes + 1 ∧ q.trytimes ≤ dnsTryLimit + 1

/-- The record and the queue `xs` agree. -/
structure Tracked (o : Observed) (xs : List Addr) : Prop where
  wellformed : Wellformed o.s xs
  armed : Armed o.s xs
  pending : ∀ a ∈ xs, ∃ k, Pending o a k
  single : ∀ a ∈ xs, ∀ b ∈ xs, o.caller a = o.caller b → a = b
  answers : ∀ k, o.answers k ≤ 1
  packets : ∀ k, o.packets k ≤ dnsTryLimit + 2
  unmade : ∀ k, o.count ≤ k → o.answers k = 0 ∧ o.packets k = 0
  attributed : none ∉ o.handled ∧ none ∉ o.sentFor

theorem Tracked.bounded {o : Observed} {xs : List Addr} (ht : Tracked o xs) : Bounded o where
  answers := ht.answers
  packets := ht.packets
  attributed := ht.attributed
  disarmed := by
    intro a hl
    have ha : a ∉ xs := fun hm => hl ((linked_iff_of_ring ht.wellformed.ring a).mpr hm)
    have hnot : a ∉ o.s.timers.rbtree := fun hm => ha (ht.wellformed.armed a hm)
    refine ⟨hnot, ?_⟩
    rw [Bool.eq_false_iff, ne_eq, ht.wellformed.timers.set_iff]
    exact hnot

/-! ## The record after a step -/

section After

variable {o : Observed} {act : Action} {s' : Resolver}

/-- The call a step acts for gets the handler calls of the step. -/
theorem answers_after (k : Nat) :
    (o.after act s').answers k =
      o.answers k + if o.actsFor act = some k then s'.calls.length - o.s.calls.length else 0 := by
  simp only [Observed.answers, Observed.after, List.count_append, List.map_const', List.count_replicate,
    List.length_drop, beq_iff_eq]

/-- The call a step acts for gets the packets of the step. -/
theorem packets_after (k : Nat) :
    (o.after act s').packets k =
      o.packets k + if o.actsFor act = some k then s'.sent.length - o.s.sent.length else 0 := by
  simp only [Observed.packets, Observed.after, List.count_append, List.map_const', List.count_replicate,
    List.length_drop, beq_iff_eq]

theorem actsFor_query (hq : act.isQuery = true) : o.actsFor act = some o.count := if_pos hq

theorem actsFor_subject (hq : act.isQuery = false) {a : Addr} (hs : subject o.s act = some a) :
    o.actsFor act = o.caller a := by
  rw [Observed.actsFor, hq, hs]
  rfl

/-- Nothing is left unattributed by a step that acts for a call. -/
theorem attributed_after {k : Nat} (h : none ∉ o.handled ∧ none ∉ o.sentFor)
    (hk : o.actsFor act = some k) :
    none ∉ (o.after act s').handled ∧ none ∉ (o.after act s').sentFor := by
  simp [Observed.after, h, hk]

/-- Of the bound on every call's answers, the step has to keep the one of its own call. -/
theorem answers_after_le {j : Nat} (hle : ∀ k, o.answers k ≤ 1) (hfor : o.actsFor act = some j)
    (hj : o.answers j = 0) (hcalls : s'.calls.length ≤ o.s.calls.length + 1) (k : Nat) :
    (o.after act s').answers k ≤ 1 := by
  rw [answers_after, hfor]
  split
  case isTrue e =>
    obtain rfl := Option.some.inj e
    rw [hj]
    omega
  case isFalse => exact hle k

theorem packets_after_le {j : Nat} (hle : ∀ k, o.packets k ≤ dnsTryLimit + 2)
    (hfor : o.actsFor act = some j)
    (hj : o.packets j + (s'.sent.length - o.s.sent.length) ≤ dnsTryLimit + 2) (k : Nat) :
    (o.after act s').packets k ≤ dnsTryLimit + 2 := by
  rw [packets_after, hfor]
  split
  case isTrue e =>
    obtain rfl := Option.some.inj e
    exact hj
  case isFalse => exact hle k

/-- A call that is not made after the step has got nothing. -/
theorem unmade_after {j : Nat} (hunmade : ∀ k, o.count ≤ k → o.answers k = 0 ∧ o.packets k = 0)
    (hfor : o.actsFor act = some j) (hj : j < (o.after act s').count) {k : Nat}
    (hk : (o.after act s').count ≤ k) :
    (o.after act s').answers k = 0 ∧ (o.after act s').packets k = 0 := by
  have hmade : o.count ≤ (o.after act s').count := by
    simp only [Observed.after]
    split <;> omega
  have hne : o.actsFor act ≠ some k := by
    rw [hfor]
    exact fun e => Nat.lt_irrefl k (Nat.lt_of_lt_of_le (Option.some.inj e ▸ hj) hk)
  rw [answers_after, packets_after, if_neg hne, if_neg hne]
  exact hunmade k (hmade.trans hk)

end After

theorem observedInit_tracked : Tracked observedInit [] where
  wellformed := dnsInit_wellformed
  armed := by simp [Armed]
  pending := by simp
  single := by simp
  answers := fun _ => Nat.zero_le _
  packets := fun _ => Nat.zero_le _
  unmade := fun _ _ => ⟨rfl, rfl⟩
  attributed := ⟨List.not_mem_nil, List.not_mem_nil⟩

/-! ## One step -/

section Step

variable {o : Observed} {xs ys : List Addr} {act : Action} {s' : Resolver}

/-- A pending query whose call the step does not act for stays pending. -/
theorem Pending.keep {a : Addr} {k : Nat} (hp : Pending o a k)
    (hcaller : (o.after act s').caller a = o.caller a) (hquery : s'.query a = o.s.query a)
    (hne : o.actsFor act ≠ some k) : Pending (o.after act s') a k where
  caller := hcaller.trans hp.caller
  made := by
    have hlt := hp.made
    simp only [Observed.after]
    split <;> omega
  answers := by rw [answers_after, if_neg hne, hp.answers]
  query := by
    obtain ⟨q, hq, hsent, hle⟩ := hp.query
    exact ⟨q, hquery.trans hq, by rw [packets_after, if_neg hne, hsent], hle⟩

/-- A call of `dns_query`: the handler is called at most once on the spot, or a query is linked after
one packet. -/
theorem Tracked.call (ht : Tracked o xs) (hact : act.isQuery = true) (hw' : Wellformed s' ys)
    (harm' : Armed s' ys) (hold : ∀ a ∈ xs, s'.query a = o.s.query a)
    (hcalls : s'.calls.length ≤ o.s.calls.length + 1) (hsent : s'.sent.length ≤ o.s.sent.length + 1)
    (hnew : ys = xs ∨ ys = xs ++ [o.s.brk] ∧ s'.calls.length = o.s.calls.length ∧
      s'.sent.length = o.s.sent.length + 1 ∧ ∃ q, s'.query o.s.brk = some q ∧ q.trytimes = 0) :
    Tracked (o.after act s') ys := by
  have hfor : o.actsFor act = some o.count := actsFor_query hact
  have hunmade := ht.unmade o.count (Nat.le_refl _)
  have hcount : (o.after act s').count = o.count + 1 := by simp [Observed.after, hact]
  have hcaller : (o.after act s').caller = Function.update o.caller o.s.brk (some o.count) := by
    simp [Observed.after, hact]
  have hkeep : ∀ a ∈ xs, (o.after act s').caller a = o.caller a := by
    intro a ha
    have hne : a ≠ o.s.brk := fun e => ht.wellformed.brk_notMem (e ▸ ha)
    rw [hcaller, Function.update_of_ne hne]
  have hself : (o.after act s').caller o.s.brk = some o.count := by
    rw [hcaller, Function.update_self]
  have hpending : ∀ a ∈ xs, ∃ k, Pending (o.after act s') a k := by
    intro a ha
    obtain ⟨k, hp⟩ := ht.pending a ha
    refine ⟨k, hp.keep (hkeep a ha) (hold a ha) ?_⟩
    rw [hfor]
    exact fun e => (Nat.ne_of_gt hp.made) (Option.some.inj e)
  -- a linked query of an earlier call is not confused with the new one
  have hearlier : ∀ a ∈ xs, (o.after act s').caller a ≠ some o.count := by
    intro a ha e
    obtain ⟨k, hp⟩ := ht.pending a ha
    rw [hkeep a ha, hp.caller] at e
    exact (Nat.ne_of_lt hp.made) (Option.some.inj e)
  have hmade : o.count < (o.after act s').count := by
    rw [hcount]
    exact Nat.lt_succ_self _
  refine ⟨hw', harm', fun a ha => ?_, fun a ha b hb hab => ?_,
    answers_after_le ht.answers hfor hunmade.1 hcalls, packets_after_le ht.packets hfor ?_,
    fun k => unmade_after ht.unmade hfor hmade, attributed_after ht.attributed hfor⟩
  · rcases hnew with rfl | ⟨rfl, hnone, hone, q, hq, hzero⟩
    · exact hpending a ha
    · rcases List.mem_append.mp ha with ha | ha
      · exact hpending a ha
      · obtain rfl := List.mem_singleton.mp ha
        refine ⟨o.count, hself, hmade, ?_, q, hq, ?_, ?_⟩
        · rw [answers_after, if_pos hfor, hunmade.1]
          omega
        · rw [packets_after, if_pos hfor, hunmade.2, hzero]
          omega
        · rw [hzero]
          exact Nat.zero_le _
  · rcases hnew with rfl | ⟨rfl, -⟩
    · rw [hkeep a ha, hkeep b hb] at hab
      exact ht.single a ha b hb hab
    · rcases List.mem_append.mp ha with ha | ha <;> rcases List.mem_append.mp hb with hb | hb
      · rw [hkeep a ha, hkeep b hb] at hab
        exact ht.single a ha b hb hab
      · rw [List.mem_singleton.mp hb, hself] at hab
        exact absurd hab (hearlier a ha)
      · rw [List.mem_singleton.mp ha, hself] at hab
        exact absurd hab.symm (hearlier b hb)
      · rw [List.mem_singleton.mp ha, List.mem_singleton.mp hb]
  · rw [hunmade.2]
    omega

/-- A linked query is dropped, its handler called at most once before. -/
theorem Tracked.drop (ht : Tracked o xs) (hact : act.isQuery = false) {a : Addr} (ha : a ∈ xs)
    (hsub : subject o.s act = some a) (hd : Drops o.s s' a) (hw' : Wellformed s' (xs.erase a))
    (harm' : Armed s' (xs.erase a)) : Tracked (o.after act s') (xs.erase a) := by
  obtain ⟨j, hp⟩ := ht.pending a ha
  have hfor : o.actsFor act = some j := (actsFor_subject hact hsub).trans hp.caller
  have hcount : (o.after act s').count = o.count := by simp [Observed.after, hact]
  have hcaller : (o.after act s').caller = o.caller := by simp [Observed.after, hact]
  have hcalls : s'.calls.length ≤ o.s.calls.length + 1 := by
    rcases hd.calls with hc | ⟨c, hc⟩ <;> rw [hc] <;> simp
  have hold : ∀ b ∈ xs.erase a, b ≠ a ∧ b ∈ xs := fun b hb =>
    ht.wellformed.nodup.mem_erase_iff.mp hb
  refine ⟨hw', harm', fun b hb => ?_, fun b hb c hc hbc => ?_,
    answers_after_le ht.answers hfor hp.answers hcalls, packets_after_le ht.packets hfor ?_,
    fun k => unmade_after ht.unmade hfor (by rw [hcount]; exact hp.made),
    attributed_after ht.attributed hfor⟩
  · obtain ⟨hne, hb⟩ := hold b hb
    obtain ⟨k, hpb⟩ := ht.pending b hb
    refine ⟨k, hpb.keep (congrFun hcaller b) ?_ ?_⟩
    · rw [hd.query, Function.update_of_ne hne]
    · rw [hfor, ← hp.caller, ← hpb.caller]
      exact fun e => hne (ht.single b hb a ha e.symm)
  · rw [hcaller] at hbc
    exact ht.single b (hold b hb).2 c (hold c hc).2 hbc
  · rw [hd.sent, Nat.sub_self]
    exact ht.packets j

/-- A linked query with tries left is sent once more. -/
theorem Tracked.retry (ht : Tracked o xs) (hact : act.isQuery = false) {a : Addr} (ha : a ∈ xs)
    (hsub : subject o.s act = some a) {q : DnsQuery} (hq : o.s.query a = some q)
    (hr : Retries o.s s' a q) (hw' : Wellformed s' xs) (harm' : Armed s' xs) :
    Tracked (o.after act s') xs := by
  obtain ⟨j, hp⟩ := ht.pending a ha
  have hfor : o.actsFor act = some j := (actsFor_subject hact hsub).trans hp.caller
  have hcount : (o.after act s').count = o.count := by simp [Observed.after, hact]
  have hcaller : (o.after act s').caller = o.caller := by simp [Observed.after, hact]
  have hone : s'.sent.length - o.s.sent.length = 1 := by simp [hr.sent]
  have hbudget := hr.budget
  obtain ⟨q', hq', hpackets, -⟩ := hp.query
  obtain rfl : q = q' := Option.some.inj (hq.symm.trans hq')
  have hanswers : ∀ k, (o.after act s').answers k = o.answers k := by
    intro k
    rw [answers_after, hr.calls, Nat.sub_self, ite_self, Nat.add_zero]
  refine ⟨hw', harm', fun b hb => ?_, fun b hb c hc hbc => ?_, fun k => ?_,
    packets_after_le ht.packets hfor ?_,
    fun k => unmade_after ht.unmade hfor (by rw [hcount]; exact hp.made),
    attributed_after ht.attributed hfor⟩
  · by_cases hba : b = a
    · subst hba
      refine ⟨j, (congrFun hcaller b).trans hp.caller, by rw [hcount]; exact hp.made,
        (hanswers j).trans hp.answers, { q with trytimes := q.trytimes + 1 }, ?_, ?_, ?_⟩
      · show s'.query b = _
        rw [hr.query, Function.update_self]
      · rw [packets_after, if_pos hfor, hone, hpackets]
      · exact Nat.succ_le_succ hbudget
    · obtain ⟨k, hpb⟩ := ht.pending b hb
      refine ⟨k, hpb.keep (congrFun hcaller b) ?_ ?_⟩
      · rw [hr.query, Function.update_of_ne hba]
      · rw [hfor, ← hp.caller, ← hpb.caller]
        exact fun e => hba (ht.single b hb a ha e.symm)
  · rw [hcaller] at hbc
    exact ht.single b hb c hc hbc
  · rw [hanswers]
    exact ht.answers k
  · rw [hone, hpackets]
    omega

/-- A call whose queries are out of the queue hears of none of them again. -/
theorem Tracked.keep_left (ht : Tracked o xs) {k : Nat} (hleft : HasLeft o k)
    (hlinked : ∀ a, Linked s' a → a ∈ xs ∨ act.isQuery = true ∧ a = o.s.brk)
    (hquiet : o.actsFor act = some k →
      s'.calls.length = o.s.calls.length ∧ s'.sent.length = o.s.sent.length) :
    HasLeft (o.after act s') k ∧ (o.after act s').answers k = o.answers k ∧
      (o.after act s').packets k = o.packets k := by
  obtain ⟨hmade, hout⟩ := hleft
  refine ⟨⟨?_, fun a ha hl => ?_⟩, ?_, ?_⟩
  · simp only [Observed.after]
    split <;> omega
  · simp only [Observed.after] at ha
    rcases hlinked a hl with hmem | ⟨hact, rfl⟩
    · have hne : a ≠ o.s.brk := fun e => ht.wellformed.brk_notMem (e ▸ hmem)
      have hold : o.caller a = some k := by
        split at ha
        · rwa [Function.update_of_ne hne] at ha
        · exact ha
      exact hout a hold ((linked_iff_of_ring ht.wellformed.ring a).mpr hmem)
    · rw [if_pos hact, Function.update_self] at ha
      exact (Nat.ne_of_gt hmade) (Option.some.inj ha)
  · rw [answers_after]
    split
    case isTrue e => rw [(hquiet e).1, Nat.sub_self, Nat.add_zero]
    case isFalse => rfl
  · rw [packets_after]
    split
    case isTrue e => rw [(hquiet e).2, Nat.sub_self, Nat.add_zero]
    case isFalse => rfl

/-- Sends that succeed keep every linked query armed. -/
theorem Tracked.armed_after (ht : Tracked o xs) (he : observed.enabled o act)
    (hs : Dns.step o.s act = .ok s') : ∃ ys, Wellformed s' ys ∧ Armed s' ys := by
  have hout : Outstanding o.s := ⟨xs, ht.wellformed, ht.armed⟩
  refine (hout.step_iff he.1 (next_eq_some_iff.mpr hs)).mpr ?_
  cases act with
  | query => trivial
  | datagram => trivial
  | expire ev now rc later => exact fun _ _ _ => he.2

/-- The step lemma: the invariant is kept, and the calls that have left are left alone. -/
theorem Tracked.step (ht : Tracked o xs) (he : observed.enabled o act)
    (hs : Dns.step o.s act = .ok s') :
    ∃ ys, Tracked (o.after act s') ys ∧ ∀ k, HasLeft o k →
      HasLeft (o.after act s') k ∧ (o.after act s').answers k = o.answers k ∧
        (o.after act s').packets k = o.packets k := by
  obtain ⟨ys, hw', harm'⟩ := ht.armed_after he hs
  have hw := ht.wellformed
  have hlinked := linked_iff_of_ring hw'.ring
  -- a call that has left is neither the one being made nor the owner of a linked query
  have hmaking : act.isQuery = true → ∀ k, HasLeft o k → o.actsFor act ≠ some k := by
    intro hact k hleft e
    rw [actsFor_query hact] at e
    exact (Nat.ne_of_gt hleft.1) (Option.some.inj e)
  have howning : act.isQuery = false → ∀ a ∈ xs, subject o.s act = some a →
      ∀ k, HasLeft o k → o.actsFor act ≠ some k := by
    intro hact a ha hsub k hleft e
    rw [actsFor_subject hact hsub] at e
    exact hleft.2 a e ((linked_iff_of_ring hw.ring a).mpr ha)
  have hsame : ys = xs → ∀ a, Linked s' a → a ∈ xs ∨ act.isQuery = true ∧ a = o.s.brk := by
    rintro rfl a hl
    exact Or.inl ((hlinked a).mp hl)
  cases step_outcome hw he.1.1 hs with
  | idle heq =>
      subst heq
      obtain rfl := hw.after_same hw' rfl
      refine ⟨ys, ?_, fun k hleft => ht.keep_left hleft (hsame rfl) fun _ => ⟨rfl, rfl⟩⟩
      by_cases hact : act.isQuery = true
      · exact ht.call hact hw' harm' (fun _ _ => rfl) (by omega) (by omega) (Or.inl rfl)
      · -- a datagram or an expiry without effect leaves the record as it is
        have hsame : o.after act o.s = o := by simp [Observed.after, hact]
        rwa [hsame]
  | cached hact heq =>
      subst hact heq
      obtain rfl := hw.after_same hw' rfl
      refine ⟨ys, ht.call rfl hw' harm' (fun _ _ => rfl) (by simp) (by simp) (Or.inl rfl),
        fun k hleft => ht.keep_left hleft (hsame rfl) fun e => absurd e (hmaking rfl k hleft)⟩
  | unsent hact hrc heq =>
      subst hact
      exact absurd he.2 (Int.not_le.mpr hrc)
  | created hact _ _ _ hc =>
      subst hact
      obtain rfl := hw.after_creates hw' hc
      refine ⟨_, ht.call rfl hw' harm' (fun a ha => ?_) (by simp [hc.calls]) (by simp [hc.sent])
        (Or.inr ⟨rfl, by simp [hc.calls], by simp [hc.sent], _,
          by rw [hc.query, Function.update_self], rfl⟩),
        fun k hleft => ht.keep_left hleft (fun a hl => ?_) fun e => absurd e (hmaking rfl k hleft)⟩
      · have hne : a ≠ o.s.brk := fun e => hw.brk_notMem (e ▸ ha)
        rw [hc.query, Function.update_of_ne hne]
      · rcases List.mem_append.mp ((hlinked a).mp hl) with ha | ha
        · exact Or.inl ha
        · exact Or.inr ⟨rfl, List.mem_singleton.mp ha⟩
  | dropped hact hsub hq hd =>
      have ha := (hw.live _).mp (by rw [hq]; rfl)
      obtain rfl := hw.after_drops hw' ha hd
      refine ⟨_, ht.drop hact ha hsub hd hw' harm', fun k hleft => ht.keep_left hleft
        (fun b hl => Or.inl (List.mem_of_mem_erase ((hlinked b).mp hl)))
        fun e => absurd e (howning hact _ ha hsub k hleft)⟩
  | retried hact hsub hq hr =>
      have ha := (hw.live _).mp (by rw [hq]; rfl)
      obtain rfl := hw.after_same hw' hr.links
      refine ⟨ys, ht.retry hact ha hsub hq hr hw' harm', fun k hleft => ht.keep_left hleft
        (hsame rfl) fun e => absurd e (howning hact _ ha hsub k hleft)⟩

end Step

/-! ## Every run -/

theorem observed_next_iff {o o' : Observed} {act : Action} :
    observed.next o act = some o' ↔ ∃ s', step o.s act = .ok s' ∧ o' = o.after act s' := by
  show (resolver.next o.s act).map (o.after act) = some o' ↔ _
  rw [Option.map_eq_some_iff]
  refine exists_congr fun s' => and_congr next_eq_some_iff ?_
  exact ⟨fun h => h.symm, fun h => h.symm⟩

theorem run_tracked {u : Observed} {as : List Action} (hr : Run observed observedInit as u) :
    ∃ xs, Tracked u xs := by
  refine hr.invariant (P := fun o => ∃ xs, Tracked o xs) ?_ ?_
  · exact ⟨[], observedInit_tracked⟩
  · rintro o act o' ⟨xs, ht⟩ he hn
    obtain ⟨s', hs, rfl⟩ := observed_next_iff.mp hn
    obtain ⟨ys, ht', -⟩ := ht.step he hs
    exact ⟨ys, ht'⟩

/-- What was counted for a call that has left stays as it is to the end of the run. -/
theorem run_left {t u : Observed} {as bs : List Action} (hr : Run observed observedInit as t)
    (hrest : Run observed t bs u) {k : Nat} (hleft : HasLeft t k) :
    HasLeft u k ∧ u.answers k = t.answers k ∧ u.packets k = t.packets k := by
  have hkeep := hrest.invariant (P := fun o => (∃ xs, Tracked o xs) ∧ HasLeft o k ∧
    o.answers k = t.answers k ∧ o.packets k = t.packets k) ⟨run_tracked hr, hleft, rfl, rfl⟩ ?_
  · exact hkeep.2
  · rintro o act o' ⟨⟨xs, ht⟩, hl, hans, hpkt⟩ he hn
    obtain ⟨s', hs, rfl⟩ := observed_next_iff.mp hn
    obtain ⟨ys, ht', hkept⟩ := ht.step he hs
    obtain ⟨hl', hans', hpkt'⟩ := hkept k hl
    exact ⟨⟨ys, ht'⟩, hl', hans'.trans hans, hpkt'.trans hpkt⟩

/-- In every run every call is answered at most once and sent boundedly often, queries that are not
linked are disarmed, no step goes wrong, and from the moment a call's query has left the queue it is
neither answered nor sent again. -/
theorem run_bounded {t u : Observed} {as bs : List Action} (hr : Run observed observedInit as t)
    (hrest : Run observed t bs u) :
    Bounded t ∧ NeverStuck oneQuestion t.s ∧
      ∀ k, HasLeft t k → HasLeft u k ∧ u.answers k = t.answers k ∧ u.packets k = t.packets k := by
  obtain ⟨xs, ht⟩ := run_tracked hr
  have hout : Outstanding t.s := ⟨xs, ht.wellformed, ht.armed⟩
  exact ⟨ht.bounded, hout.neverStuck, fun k hleft => run_left hr hrest hleft⟩

/-- The first timeout of the query for host `a`. -/
def timeoutOfA : Action := .expire 1 5000 19 5000

theorem run_bounded_timeoutOfA :
    ∃ t u, Run observed observedInit [askForA] t ∧ Run observed t [timeoutOfA] u ∧
      t.packets 0 = 1 ∧ u.packets 0 = 2 ∧ Bounded t ∧ NeverStuck oneQuestion t.s ∧
      ∀ k, HasLeft t k → HasLeft u k ∧ u.answers k = t.answers k ∧ u.packets k = t.packets k := by
  have hfirst : Run observed observedInit [askForA] (observedInit.after askForA askedForA) :=
    .snoc .nil ⟨⟨trivial, by rintro _ _ _ _ _ ⟨⟩⟩, by decide⟩ rfl
  have hsecond : Run observed (observedInit.after askForA askedForA) [timeoutOfA] _ :=
    .snoc .nil ⟨⟨⟨by decide, by decide⟩, by rintro _ _ _ _ _ ⟨⟩⟩, by decide⟩ rfl
  exact ⟨_, _, hfirst, hsecond, by rfl, by rfl, run_bounded hfirst hsecond⟩

end Crawler.Dns
