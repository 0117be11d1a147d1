/-
# Crawler.Dns.Timed — every outstanding query is timed, while timeouts can send

The resolver fed with datagrams of one question. `Timed` is the correspondence of queue and timer
tree that `parse_udp` takes for granted when it deletes a query's timer. One step breaks it: a
timeout of a query with tries left whose `unix_send` fails returns without arming the timer. The
query stays linked, never expires again, and a late answer for it deletes a node that is not in the
tree.
-/
import Crawler.Dns.Resolver

namespace Crawler.Dns

open Crawler.Lib Crawler.Lib.Ring Crawler.EventTimer

/-- The resolver when every datagram it is handed has one question. -/
def oneQuestion : System Resolver Action where
  init := resolver.init
  enabled := fun s act =>
    resolver.enabled s act ∧ ∀ pkt len garbage rc now, act = .datagram pkt len garbage rc now →
      be16 pkt 4 = 1
  next := resolver.next

/-- The linked queries and the armed events are the same. -/
def Timed (s : Resolver) : Prop :=
  ∃ xs, IsRing s.links queryQueue xs ∧
    (∀ a ∈ xs, (s.timers.ev a).timerSet = true ∧ a ∈ s.timers.rbtree) ∧
    ∀ a, (s.timers.ev a).timerSet = true ∨ a ∈ s.timers.rbtree → a ∈ xs

/-- No step that can be taken goes wrong. -/
def NeverStuck (S : System Resolver Action) (s : Resolver) : Prop :=
  ∀ act, S.enabled s act → (S.next s act).isSome

/-- A timeout that is to send again does send. -/
def ResendSucceeds (s : Resolver) : Action → Prop
  | .expire ev _ rc _ => ∀ q, s.query ev = some q → q.trytimes ≤ dnsTryLimit → 0 ≤ rc
  | _ => True

/-- The invariant of the runs in which timeouts can send. -/
def Outstanding (s : Resolver) : Prop := ∃ xs, Wellformed s xs ∧ Armed s xs

theorem Wellformed.timed_iff {s : Resolver} {xs : List Addr} (hw : Wellformed s xs) :
    Timed s ↔ Armed s xs := by
  constructor
  · rintro ⟨ys, hr, harm, -⟩
    obtain rfl : ys = xs := hr.visits.unique hw.ring.visits
    exact fun a ha => (harm a ha).2
  · intro hall
    refine ⟨xs, hw.ring, fun a ha => ⟨(hw.timers.set_iff a).mpr (hall a ha), hall a ha⟩, ?_⟩
    rintro a (ha | ha)
    · exact hw.armed a ((hw.timers.set_iff a).mp ha)
    · exact hw.armed a ha

theorem Outstanding.timed {s : Resolver} (h : Outstanding s) : Timed s := by
  obtain ⟨xs, hw, hall⟩ := h
  exact hw.timed_iff.mpr hall

/-- Expiry of a linked query: armed again exactly when the send it may need succeeds. -/
theorem Outstanding.expire_iff {s s' : Resolver} (h : Outstanding s) {ev : Addr}
    {now later : UInt32} {rc : Int} (he : ev ∈ s.timers.rbtree)
    (hs : expireQuery s ev rc later = .ok s') :
    Outstanding s' ↔ ResendSucceeds s (.expire ev now rc later) := by
  obtain ⟨xs, hw, hall⟩ := h
  obtain ⟨q, hq⟩ := hw.exists_query (hw.armed ev he)
  obtain ⟨s₁, h₁, hcase⟩ := hw.expireQuery he hq rc later
  obtain rfl : s₁ = s' := Except.ok.inj (h₁.symm.trans hs)
  have hnd : xs.Nodup := (List.nodup_cons.mp hw.ring.nodup).2
  have hsucc : ResendSucceeds s (.expire ev now rc later) ↔ (q.trytimes ≤ dnsTryLimit → 0 ≤ rc) :=
    ⟨fun hr => hr q hq, fun hr q' hq' => by
      obtain rfl : q = q' := Option.some.inj (hq.symm.trans hq')
      exact hr⟩
  rw [hsucc]
  by_cases hlim : dnsTryLimit < q.trytimes
  · rw [if_pos hlim] at hcase
    obtain ⟨hw₁, hmem⟩ := hcase
    refine ⟨fun _ hle => absurd hle (Nat.not_le.mpr hlim), fun _ => ⟨_, hw₁, fun b hb => ?_⟩⟩
    obtain ⟨hne, hb⟩ := hnd.mem_erase_iff.mp hb
    exact (hmem b).mpr ⟨hne, hall b hb⟩
  · rw [if_neg hlim] at hcase
    obtain ⟨hw₁, hmem⟩ := hcase
    constructor
    · intro hout _
      have harm := (hw₁.timed_iff.mp hout.timed) ev (hw.armed ev he)
      rcases (hmem ev).mp harm with ⟨-, hrc⟩ | ⟨hne, -⟩
      · exact hrc
      · exact absurd rfl hne
    · intro hrc
      refine ⟨xs, hw₁, fun b hb => (hmem b).mpr ?_⟩
      by_cases hbe : b = ev
      · exact Or.inl ⟨hbe, hrc (Nat.not_lt.mp hlim)⟩
      · exact Or.inr ⟨hbe, hall b hb⟩

theorem Outstanding.neverStuck {s : Resolver} (h : Outstanding s) : NeverStuck oneQuestion s := by
  obtain ⟨xs, hw, hall⟩ := h
  rintro act ⟨he, hone⟩
  rw [Option.isSome_iff_exists]
  suffices hok : ∃ s', step s act = .ok s' by
    obtain ⟨s', hs'⟩ := hok
    exact ⟨s', next_eq_some_iff.mpr hs'⟩
  cases act with
  | query url handler rc now => exact (hw.dnsQuery_lands url handler rc now).ends hall
  | datagram pkt len garbage rc now =>
      exact (hw.parseUdp_lands (hone pkt len garbage rc now rfl) len garbage rc now).ends hall
  | expire ev now rc later =>
      obtain ⟨q, hq⟩ := hw.exists_query (hw.armed ev he.1)
      obtain ⟨s', h', -⟩ := hw.expireQuery he.1 hq rc later
      exact ⟨s', h'⟩

/-- One step keeps the queries timed exactly when it is no timeout that fails to send. -/
theorem Outstanding.step_iff {s s' : Resolver} {act : Action} (h : Outstanding s)
    (he : oneQuestion.enabled s act) (hn : oneQuestion.next s act = some s') :
    Outstanding s' ↔ ResendSucceeds s act := by
  obtain ⟨hen, hone⟩ := he
  have hs : step s act = .ok s' := next_eq_some_iff.mp hn
  obtain ⟨xs, hw, hall⟩ := h
  cases act with
  | query url handler rc now =>
      obtain ⟨xs', hw', harm⟩ := (hw.dnsQuery_lands url handler rc now).keeps s' hs
      exact ⟨fun _ => trivial, fun _ => ⟨xs', hw', harm hall⟩⟩
  | datagram pkt len garbage rc now =>
      obtain ⟨xs', hw', harm⟩ := (hw.parseUdp_lands (hone pkt len garbage rc now rfl) len garbage rc
        now).keeps s' hs
      exact ⟨fun _ => trivial, fun _ => ⟨xs', hw', harm hall⟩⟩
  | expire ev now rc later => exact Outstanding.expire_iff ⟨xs, hw, hall⟩ hen.1 hs

theorem dnsInit_outstanding : Outstanding dnsInit := ⟨[], dnsInit_wellformed, by simp [Armed]⟩

/-- In a run of the resolver every state is timed, and none is stuck, exactly when every timeout that
is to send again succeeds in sending. -/
theorem everyState_timed_iff {as : List Action} {u : Resolver} (hrun : Run oneQuestion dnsInit as u) :
    EveryState oneQuestion dnsInit as (fun s => Timed s ∧ NeverStuck oneQuestion s) ↔
      EveryStep oneQuestion dnsInit as ResendSucceeds := by
  apply everyState_iff hrun (P := Outstanding) dnsInit_outstanding
  · exact fun s h => ⟨h.timed, h.neverStuck⟩
  · exact fun s act s' h hc he hn => (h.step_iff he hn).mpr hc
  · intro s act s' h hc he hn hq
    have hs : step s act = .ok s' := next_eq_some_iff.mp hn
    obtain ⟨xs, hw, hall⟩ := h
    obtain ⟨xs', hw'⟩ := step_wellformed hw he.1 hs
    have hout : Outstanding s := ⟨xs, hw, hall⟩
    exact hc ((hout.step_iff he hn).mp ⟨xs', hw', hw'.timed_iff.mp hq.1⟩)

/-- One query for host `a`, whose first timeout, five seconds later, fails to send. -/
def timeoutRun : List Action :=
  [.query ⟨80, [], [97], []⟩ 0 19 0, .expire 1 5000 (-1) 5000]

theorem timeoutRun_run : ∃ u, Run oneQuestion dnsInit timeoutRun u ∧
    u.links.next queryQueue = 1 ∧ u.timers.rbtree = [] := by
  have hfirst : Run oneQuestion dnsInit [.query ⟨80, [], [97], []⟩ 0 19 0] _ :=
    .snoc .nil ⟨trivial, by rintro _ _ _ _ _ ⟨⟩⟩ rfl
  exact ⟨_, .snoc hfirst ⟨⟨by decide, by decide⟩, by rintro _ _ _ _ _ ⟨⟩⟩ rfl, rfl, rfl⟩

theorem everyState_timed_iff_timeoutRun :
    EveryState oneQuestion dnsInit timeoutRun (fun s => Timed s ∧ NeverStuck oneQuestion s) ↔
      EveryStep oneQuestion dnsInit timeoutRun ResendSucceeds := by
  obtain ⟨u, hrun, -⟩ := timeoutRun_run
  exact everyState_timed_iff hrun

/-- The query is still linked after the failed send, and its event is not armed. -/
theorem timeoutRun_not_timed :
    ¬ ∀ as u, Run oneQuestion dnsInit as u →
      EveryState oneQuestion dnsInit as (fun s => Timed s ∧ NeverStuck oneQuestion s) := by
  intro hclaim
  obtain ⟨u, hrun, hnext, htree⟩ := timeoutRun_run
  obtain ⟨⟨xs, hr, harm, -⟩, -⟩ := hclaim _ u hrun timeoutRun u (List.prefix_refl _) hrun
  have hchain := hr.joined
  cases xs with
  | nil =>
      have hself := (List.isChain_cons_cons.mp hchain).1.1
      rw [hnext] at hself
      cases hself
  | cons a xs =>
      have hmem := (harm a (by simp)).2
      rw [htree] at hmem
      cases hmem

end Crawler.Dns
