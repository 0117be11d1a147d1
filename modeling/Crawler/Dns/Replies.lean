/-
# Crawler.Dns.Replies — what a datagram does to the query it names, and to all others

Every rejection in `parse_udp` jumps to one label, `failed:`, which counts a try and sends again for
the query in the local `query`. Two datagrams reach it, or fail to reach it, in a way its authors did
not mean.

A datagram with another number of questions than one jumps there before `query` is assigned, so the
clean-up acts on whatever the stack held. A datagram whose answer walk ends without an address does
not jump there at all: it leaves by the success exit, and the query is unlinked and freed without a
handler call, a try or a packet.
-/
import Crawler.Dns.Answer
import Mathlib.Data.List.Perm.Subperm

namespace Crawler.Dns

open Crawler.Lib Crawler.Lib.Ring Crawler.Queue Crawler.EventTimer

/-- The query at `a` is linked in `query_queue`. -/
def Linked (s : Resolver) (a : Addr) : Prop := ∃ xs, IsRing s.links queryQueue xs ∧ a ∈ xs

theorem linked_iff_of_ring {s : Resolver} {xs : List Addr} (hr : IsRing s.links queryQueue xs)
    (a : Addr) : Linked s a ↔ a ∈ xs := by
  constructor
  · rintro ⟨ys, hys, ha⟩
    rwa [← hys.visits.unique hr.visits]
  · exact fun ha => ⟨xs, hr, ha⟩

/-- The linked queries are fewer than the addresses handed out. -/
theorem Wellformed.length_lt {s : Resolver} {xs : List Addr} (hw : Wellformed s xs) :
    xs.length < s.brk := by
  have hsub : queryQueue :: xs ⊆ List.range s.brk := by
    intro a ha
    rw [List.mem_range]
    rcases List.mem_cons.mp ha with rfl | ha
    · exact hw.header
    · exact hw.below a ha
  have hle := (hw.ring.nodup.subperm hsub).length_le
  rw [List.length_range] at hle
  exact hle

/-- `find_query` goes through the linked queries in order. -/
theorem Wellformed.findQuery_eq {s : Resolver} {xs : List Addr} (hw : Wellformed s xs)
    (id : UInt16) :
    Dns.findQuery s id = xs.find? fun a => (s.query a).any fun q => q.id == id.toUInt32 :=
  queueFind_of_visits hw.ring.visits hw.length_lt _

/-- A linked query with this id is out there. -/
def Awaited (s : Resolver) (id : UInt16) : Prop :=
  ∃ a q, Linked s a ∧ s.query a = some q ∧ q.id = id.toUInt32

theorem Wellformed.findQuery_none_iff {s : Resolver} {xs : List Addr} (hw : Wellformed s xs)
    (id : UInt16) : Dns.findQuery s id = none ↔ ¬ Awaited s id := by
  rw [hw.findQuery_eq, List.find?_eq_none]
  constructor
  · rintro h ⟨a, q, hl, hq, hid⟩
    apply h a ((linked_iff_of_ring hw.ring a).mp hl)
    simp [hq, hid]
  · intro h a ha hany
    obtain ⟨q, hq, hid⟩ := (Option.any_eq_true _ _).mp hany
    exact h ⟨a, q, ⟨xs, hw.ring, ha⟩, hq, by simpa using hid⟩

/-! ## Datagrams for no query -/

/-- The datagram has another number of questions than one, or an id no linked query has. -/
def Unrelated (s : Resolver) (pkt : Mem) : Prop :=
  be16 pkt 4 ≠ 1 ∨ ¬ Awaited s (raw16 pkt 0)

/-- The step ends, having sent nothing, with the queue, the queries, their timers and the cache as
they were. -/
def Unaffected (s : Resolver) (r : Step) : Prop :=
  ∃ s', r = .ok s' ∧ s'.sent = s.sent ∧ s'.links = s.links ∧ s'.query = s.query ∧
    s'.timers = s.timers ∧ s'.cache = s.cache

theorem resend_sent (s : Resolver) (a : Addr) (q : DnsQuery) (rc : Int) (now : UInt32) :
    (resend s a q rc now).final.sent = s.sent ++ [q.packet] := by
  rw [resend]
  by_cases hrc : rc < 0
  · simp only [if_pos hrc]
    rfl
  · simp only [if_neg hrc, Resolver.withTimers]
    cases eventAddTimer now s.timers a dnsTimeout <;> rfl

/-- With a pointer in `query` the label `failed:` never leaves everything alone. -/
theorem parseFailed_affects (s : Resolver) (a : Addr) (rc : Int) (now : UInt32) :
    ¬ Unaffected s (parseFailed s (some a) rc now) := by
  rintro ⟨s', hok, hsent, -, hquery, -, -⟩
  rw [parseFailed, Resolver.deref] at hok
  cases hq : s.query a with
  | none =>
      rw [hq] at hok
      cases hok
  | some q =>
      simp only [hq] at hok
      split at hok
      · -- dropped: the query is freed
        rw [dropQuery, Resolver.withTimers] at hok
        split at hok
        · obtain rfl := Except.ok.inj hok
          have hfreed := congrFun hquery a
          rw [hq] at hfreed
          simp [Resolver.setQuery, Resolver.unlink] at hfreed
        · cases hok
      · -- tried again: a packet is sent
        have hmore := resend_sent (s.setQuery a (some { q with trytimes := q.trytimes + 1 })) a q rc
          now
        rw [hok] at hmore
        have hlen := congrArg List.length (hmore.symm.trans hsent)
        simp [Resolver.setQuery] at hlen

/-- An unrelated datagram is without effect exactly when it has one question, or the local `query`
happens to hold NULL. -/
theorem parseUdp_unaffected_iff {s : Resolver} (hr : Reachable resolver s) {pkt : Mem}
    (hu : Unrelated s pkt) (n : Nat) (garbage : Option Addr) (rc : Int) (now : UInt32) :
    Unaffected s (parseUdp s pkt n garbage rc now) ↔ be16 pkt 4 = 1 ∨ garbage = none := by
  obtain ⟨xs, hw⟩ := reachable_wellformed hr
  have hself : Unaffected s (.ok s) := ⟨s, rfl, rfl, rfl, rfl, rfl, rfl⟩
  by_cases hone : be16 pkt 4 = 1
  · have hnone := (hw.findQuery_none_iff _).mpr (hu.resolve_left (not_not.mpr hone))
    rw [parseUdp_unqueried hone hnone]
    exact ⟨fun _ => Or.inl hone, fun _ => hself⟩
  · rw [parseUdp_otherCount hone]
    cases garbage with
    | none => exact ⟨fun _ => Or.inr rfl, fun _ => hself⟩
    | some a =>
        refine ⟨fun h => absurd h (parseFailed_affects s a rc now), ?_⟩
        rintro (h | h)
        · exact absurd h hone
        · cases h

/-- Two questions, and an id that is nobody's. -/
def twoQuestions : Mem := memOf [9, 9, 0x81, 0x80, 0, 2, 0, 0, 0, 0, 0, 0, 0, 0]

theorem parseUdp_unaffected_iff_twoQuestions :
    Unaffected askedForA (parseUdp askedForA twoQuestions 14 (some 1) 0 0) ↔
      be16 twoQuestions 4 = 1 ∨ (some 1 : Option Addr) = none :=
  parseUdp_unaffected_iff askedForA_reachable (Or.inl (by decide)) 14 (some 1) 0 0

/-- With the address of the outstanding query left over on the stack, the unrelated datagram counts a
try of that query and sends its packet. -/
theorem twoQuestions_affects :
    Reachable resolver askedForA ∧ Unrelated askedForA twoQuestions ∧
      (parseUdp askedForA twoQuestions 14 (some 1) 0 0).final.sent.length = 2 ∧
      ((parseUdp askedForA twoQuestions 14 (some 1) 0 0).final.query 1).map DnsQuery.trytimes =
        some 1 ∧
      ¬ Unaffected askedForA (parseUdp askedForA twoQuestions 14 (some 1) 0 0) := by
  have hmany : be16 twoQuestions 4 ≠ 1 := by decide
  refine ⟨askedForA_reachable, Or.inl hmany, by rfl, by rfl, ?_⟩
  rw [parseUdp_otherCount hmany]
  exact parseFailed_affects askedForA 1 0 0

/-! ## Datagrams for a query -/

/-- The walk ends without an address exactly when the question is accepted and no address record is
settled on inside the datagram. -/
theorem parseAnswer_notFound_iff (pkt : Mem) (n : Nat) :
    parseAnswer pkt n = .notFound ↔
      questionOk pkt n (questionEnd pkt n) ∧
        ∀ r, SettlesOn pkt n (questionEnd pkt n + 5) r → n ≤ r + 12 := by
  have hge : 12 ≤ questionEnd pkt n := questionEnd_ge pkt n
  have hiff := fun r => answerWalk_found_iff pkt n n (questionEnd pkt n + 5) r (by omega) (by omega)
  simp only [parseAnswer]
  by_cases hq : questionOk pkt n (questionEnd pkt n)
  · rw [if_neg (not_not.mpr hq)]
    by_cases hf : (answerWalk pkt n n (questionEnd pkt n + 5)).1 = true ∧
        (answerWalk pkt n n (questionEnd pkt n + 5)).2 + 12 < n
    · -- found in time: whatever its length, this is another exit
      have hsettles := (hiff _).mp (Prod.ext hf.1 rfl)
      rw [if_pos hf]
      constructor
      · intro h
        split at h <;> cases h
      · intro h
        exact absurd (h.2 _ hsettles) (Nat.not_le.mpr hf.2)
    · rw [if_neg hf]
      refine ⟨fun _ => ⟨hq, fun r hr => ?_⟩, fun _ => rfl⟩
      have hwalk := (hiff r).mpr hr
      rw [hwalk] at hf
      exact Nat.not_lt.mp fun hlt => hf ⟨rfl, hlt⟩
  · rw [if_pos hq]
    exact ⟨fun h => absurd h (by simp), fun h => absurd h.1 hq⟩

/-- The datagram has had its address delivered: the handler is called with four bytes it received. -/
def Answered (s : Resolver) (pkt : Mem) (n : Nat) (q : DnsQuery) (r : Step) : Prop :=
  ∃ p, Delivers pkt n p ∧ p + 16 ≤ n ∧
    r.final.calls = s.calls ++ [⟨q.handler, q.url, addrAt pkt (p + 12)⟩]

/-- The query at `a` is not lost: it is unlinked for an answer or a spent budget only, and otherwise
one more try is counted and its packet sent. -/
structure KeepsTrying (s : Resolver) (pkt : Mem) (n : Nat) (a : Addr) (q : DnsQuery) (r : Step) :
    Prop where
  unlinked : ¬ Linked r.final a → Answered s pkt n q r ∨ dnsTryLimit < q.trytimes
  tried : ¬ Answered s pkt n q r → q.trytimes ≤ dnsTryLimit →
    Linked r.final a ∧ r.final.query a = some { q with trytimes := q.trytimes + 1 } ∧
      r.final.sent = s.sent ++ [q.packet]

/-- The datagram has answers and the question asked for, and its records hold no address inside the
bytes received. -/
def FallsThrough (pkt : Mem) (n : Nat) : Prop :=
  raw16 pkt 6 ≠ 0 ∧ questionOk pkt n (questionEnd pkt n) ∧
    ((∀ r, SettlesOn pkt n (questionEnd pkt n + 5) r → n ≤ r + 12) ∨ Cut pkt n)

/-- A query that is dropped is out of the queue, also where the deletion of its timer goes wrong. -/
theorem Wellformed.dropQuery_unlinked {s : Resolver} {xs : List Addr} (hw : Wellformed s xs)
    {a : Addr} (ha : a ∈ xs) : ¬ Linked (Dns.dropQuery s a).final a := by
  have hlinks : (Dns.dropQuery s a).final.links = queueRemove (fun _ => a) s.links := by
    rw [Dns.dropQuery, Resolver.withTimers]
    cases eventDelTimer (s.unlink a).timers a <;> rfl
  have hring : IsRing (Dns.dropQuery s a).final.links queryQueue (xs.erase a) := by
    rw [hlinks]
    exact queueRemove_isRing hw.ring ha
  have hnd : xs.Nodup := (List.nodup_cons.mp hw.ring.nodup).2
  rw [linked_iff_of_ring hring]
  exact fun hm => (hnd.mem_erase_iff.mp hm).1 rfl

/-- The label `failed:` keeps a query whose budget is not spent. -/
theorem Wellformed.parseFailed_tries {s : Resolver} {xs : List Addr} (hw : Wellformed s xs)
    {a : Addr} (ha : a ∈ xs) {q : DnsQuery} (hq : s.query a = some q)
    (hlim : q.trytimes ≤ dnsTryLimit) (rc : Int) (now : UInt32) :
    Linked (parseFailed s (some a) rc now).final a ∧
      (parseFailed s (some a) rc now).final.query a =
        some { q with trytimes := q.trytimes + 1 } ∧
      (parseFailed s (some a) rc now).final.sent = s.sent ++ [q.packet] := by
  have hfinal : parseFailed s (some a) rc now =
      Dns.resend (s.setQuery a (some { q with trytimes := q.trytimes + 1 })) a q rc now := by
    simp only [parseFailed, Resolver.deref, hq]
    rw [if_neg (Nat.not_lt.mpr hlim)]
  have hkeep : ∀ s : Resolver, (Dns.resend s a q rc now).final.links = s.links ∧
      (Dns.resend s a q rc now).final.query = s.query := by
    intro s
    rw [Dns.resend]
    by_cases hrc : rc < 0
    · simp only [if_pos hrc]
      exact ⟨rfl, rfl⟩
    · simp only [if_neg hrc, Resolver.withTimers]
      cases eventAddTimer now s.timers a dnsTimeout <;> exact ⟨rfl, rfl⟩
  have hring : IsRing (parseFailed s (some a) rc now).final.links queryQueue xs := by
    rw [hfinal, (hkeep _).1]
    exact hw.ring
  refine ⟨(linked_iff_of_ring hring a).mpr ha, ?_, ?_⟩
  · rw [hfinal, (hkeep _).2]
    simp [Resolver.setQuery]
  · rw [hfinal, resend_sent]
    rfl

theorem Wellformed.parseFailed_keepsTrying {s : Resolver} {xs : List Addr} (hw : Wellformed s xs)
    {a : Addr} (ha : a ∈ xs) {q : DnsQuery} (hq : s.query a = some q)
    (hlim : q.trytimes ≤ dnsTryLimit) (pkt : Mem) (n : Nat) (rc : Int) (now : UInt32) :
    KeepsTrying s pkt n a q (parseFailed s (some a) rc now) := by
  have htries := hw.parseFailed_tries ha hq hlim rc now
  exact ⟨fun hl => absurd htries.1 hl, fun _ _ => htries⟩

/-- Without an answer, a query whose budget is not spent stays linked. -/
theorem KeepsTrying.linked {s : Resolver} {pkt : Mem} {n : Nat} {a : Addr} {q : DnsQuery} {r : Step}
    (h : KeepsTrying s pkt n a q r) (hlim : q.trytimes ≤ dnsTryLimit)
    (hans : ¬ Answered s pkt n q r) : Linked r.final a :=
  (h.tried hans hlim).1

theorem not_fallsThrough_of_failed {pkt : Mem} {n : Nat} (hans : parseAnswer pkt n = .failed) :
    ¬ FallsThrough pkt n := by
  rintro ⟨-, hqok, hnone | ⟨r, hd, -⟩⟩
  · have := (parseAnswer_notFound_iff pkt n).mpr ⟨hqok, hnone⟩
    rw [hans] at this
    cases this
  · have := (parseAnswer_address_iff pkt n _).mpr ⟨r, hd, rfl⟩
    rw [hans] at this
    cases this

/-- A datagram with an address falls through when it was cut inside it. -/
theorem Delivers.fallsThrough_iff {pkt : Mem} {n r : Nat} (hd : Delivers pkt n r)
    (han : raw16 pkt 6 ≠ 0) : FallsThrough pkt n ↔ n < r + 16 := by
  constructor
  · rintro ⟨-, -, hnone | ⟨r', hd', hcut⟩⟩
    · exact absurd (hnone r hd.settles) (Nat.not_le.mpr hd.received)
    · rwa [hd'.settles.unique hd.settles] at hcut
  · exact fun hcut => ⟨han, hd.question, Or.inr ⟨r, hd, hcut⟩⟩

/-- A datagram for a linked query loses it neither silently nor by a wrong address, exactly when the
query's budget is spent or the datagram does not fall through the walk over its answers. -/
theorem parseUdp_keepsTrying_iff {s : Resolver} (hr : Reachable resolver s) {pkt : Mem} {a : Addr}
    {q : DnsQuery} (hone : be16 pkt 4 = 1) (hf : findQuery s (raw16 pkt 0) = some a)
    (hq : s.query a = some q) (n : Nat) (garbage : Option Addr) (rc : Int) (now : UInt32) :
    KeepsTrying s pkt n a q (parseUdp s pkt n garbage rc now) ↔
      dnsTryLimit < q.trytimes ∨ ¬ FallsThrough pkt n := by
  obtain ⟨xs, hw⟩ := reachable_wellformed hr
  have ha : a ∈ xs := (hw.findQuery hf).1
  by_cases hspent : dnsTryLimit < q.trytimes
  · exact ⟨fun _ => Or.inl hspent, fun _ => ⟨fun _ => Or.inr hspent,
      fun _ hle => absurd hspent (Nat.not_lt.mpr hle)⟩⟩
  have hlim : q.trytimes ≤ dnsTryLimit := Nat.not_lt.mp hspent
  have hfailed := hw.parseFailed_keepsTrying ha hq hlim pkt n rc now
  rw [or_iff_right hspent, parseUdp_queried hone hf hq]
  by_cases han : raw16 pkt 6 = 0
  · rw [if_pos han]
    exact iff_of_true hfailed fun hft => hft.1 han
  rw [if_neg han]
  cases hans : parseAnswer pkt n with
  | failed => exact iff_of_true hfailed (not_fallsThrough_of_failed hans)
  | notFound =>
      have hnot := (parseAnswer_notFound_iff pkt n).mp hans
      refine iff_of_false (fun hkeeps => hw.dropQuery_unlinked ha (hkeeps.linked hlim ?_))
        (not_not.mpr ⟨han, hnot.1, Or.inl hnot.2⟩)
      rintro ⟨p, hd, -⟩
      exact absurd (hnot.2 p hd.settles) (Nat.not_le.mpr hd.received)
  | address sinAddr =>
      obtain ⟨r, hd, rfl⟩ := (parseAnswer_address_iff pkt n sinAddr).mp hans
      rw [hd.fallsThrough_iff han, Nat.not_lt]
      by_cases hwhole : r + 16 ≤ n
      · have hgot : Answered s pkt n q (dropQuery (deliver s q (addrAt pkt (r + 12))) a) :=
          ⟨r, hd, hwhole, by rw [(dropQuery_final _ a).1]; rfl⟩
        exact iff_of_true ⟨fun _ => Or.inl hgot, fun h => absurd hgot h⟩ hwhole
      · -- cut inside the address: the handler gets bytes that were not received
        refine iff_of_false (fun hkeeps => (hw.deliver q _).dropQuery_unlinked ha
          (hkeeps.linked hlim ?_)) hwhole
        rintro ⟨p, hd', hle, -⟩
        rw [hd'.settles.unique hd.settles] at hle
        exact hwhole hle

/-- The name is an alias and nothing more is said. -/
def aliasOnly : Mem := memOf
  [1, 0, 0x81, 0x80, 0, 1, 0, 1, 0, 0, 0, 0,
    1, 97, 0, 0, 1, 0, 1,
    0xC0, 12, 0, 5, 0, 1, 0, 0, 0, 60, 0, 2, 0xC0, 12]

theorem parseUdp_keepsTrying_iff_aliasOnly :
    KeepsTrying askedForA aliasOnly 33 1 (newQuery 1 ⟨80, [], [97], []⟩ 0)
        (parseUdp askedForA aliasOnly 33 none 0 0) ↔
      dnsTryLimit < (newQuery 1 ⟨80, [], [97], []⟩ 0).trytimes ∨ ¬ FallsThrough aliasOnly 33 :=
  parseUdp_keepsTrying_iff askedForA_reachable (by decide) (by rfl)
    (by rw [askedForA_query, Function.update_self]) 33 none 0 0

/-- The alias makes the resolver free the query: no handler call, no packet, no try. -/
theorem aliasOnly_not_keepsTrying :
    Reachable resolver askedForA ∧ be16 aliasOnly 4 = 1 ∧
      findQuery askedForA (raw16 aliasOnly 0) = some 1 ∧
      (askedForA.query 1).map DnsQuery.trytimes = some 0 ∧
      (parseUdp askedForA aliasOnly 33 none 0 0).final.calls = [] ∧
      (parseUdp askedForA aliasOnly 33 none 0 0).final.sent.length = 1 ∧
      ∀ q, askedForA.query 1 = some q →
        ¬ KeepsTrying askedForA aliasOnly 33 1 q (parseUdp askedForA aliasOnly 33 none 0 0) := by
  have hcalls : (parseUdp askedForA aliasOnly 33 none 0 0).final.calls = [] := by rfl
  have hsent : (parseUdp askedForA aliasOnly 33 none 0 0).final.sent.length = 1 := by rfl
  refine ⟨askedForA_reachable, by decide, by rfl, by rfl, hcalls, hsent, fun q hq hkeeps => ?_⟩
  have hnew : newQuery 1 ⟨80, [], [97], []⟩ 0 = q := by
    rw [askedForA_query, Function.update_self] at hq
    exact Option.some.inj hq
  have hzero : q.trytimes = 0 := by rw [← hnew]; rfl
  have hunanswered : ¬ Answered askedForA aliasOnly 33 q
      (parseUdp askedForA aliasOnly 33 none 0 0) := by
    rintro ⟨p, -, -, h⟩
    rw [hcalls] at h
    exact absurd (congrArg List.length h) (by simp)
  have hmore := congrArg List.length (hkeeps.tried hunanswered (by rw [hzero]; decide)).2.2
  rw [hsent] at hmore
  have hone : askedForA.sent.length = 1 := by rfl
  rw [List.length_append, hone] at hmore
  simp at hmore

end Crawler.Dns
