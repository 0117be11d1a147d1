/-
# Crawler.Dns.Steps — everything one step of the resolver can do

The three functions of `async_dns.c` end in six ways between them: nothing happens, a call is answered
from the cache, a new query fails to send, a new query is linked, a linked query is dropped, or a
linked query is tried again. `step_outcome` says which, and with what effect, so that an invariant of
the runs never has to look at the code again.
-/
import Crawler.Dns.Answer
import Crawler.Dns.Replies

namespace Crawler.Dns

open Crawler.Lib Crawler.Lib.Ring Crawler.Queue Crawler.EventTimer

/-- The query a step is about: the one a call allocates, the one in the local `query` of `parse_udp`,
or the one a timer's event names. -/
def subject (s : Resolver) : Action → Option Addr
  | .query .. => some s.brk
  | .datagram pkt _ garbage .. =>
      if be16 pkt 4 ≠ 1 then garbage else findQuery s (raw16 pkt 0)
  | .expire ev .. => (s.timers.ev ev).data

/-- Whether an action is a call of `dns_query`. -/
def Action.isQuery : Action → Bool
  | .query .. => true
  | _ => false

/-- The fields a step leaves alone when it links no new query. -/
structure SameSpan (s s' : Resolver) : Prop where
  id : s'.id = s.id
  brk : s'.brk = s.brk

/-- A new query is linked, and its packet sent. -/
structure Creates (s s' : Resolver) (q : DnsQuery) : Prop where
  id : s'.id = s.id + 1
  brk : s'.brk = s.brk + 1
  links : s'.links = queueInsertTail s.links queryQueue s.brk
  query : s'.query = Function.update s.query s.brk (some q)
  sent : s'.sent = s.sent ++ [q.packet]
  calls : s'.calls = s.calls

/-- The query at `a` is unlinked and freed, its handler called at most once before. -/
structure Drops (s s' : Resolver) (a : Addr) : Prop extends SameSpan s s' where
  links : s'.links = queueRemove (fun _ => a) s.links
  query : s'.query = Function.update s.query a none
  sent : s'.sent = s.sent
  calls : s'.calls = s.calls ∨ ∃ c, s'.calls = s.calls ++ [c]

/-- The query `q` at `a` is tried once more. -/
structure Retries (s s' : Resolver) (a : Addr) (q : DnsQuery) : Prop extends SameSpan s s' where
  budget : q.trytimes ≤ dnsTryLimit
  links : s'.links = s.links
  query : s'.query = Function.update s.query a (some { q with trytimes := q.trytimes + 1 })
  sent : s'.sent = s.sent ++ [q.packet]
  calls : s'.calls = s.calls

/-- The ways a step ends. -/
inductive Outcome (s : Resolver) (act : Action) (s' : Resolver) : Prop
  | idle : s' = s → Outcome s act s'
  | cached {url : HttpUrl} {handler : Addr} {rc : Int} {now : UInt32} {sinAddr : InAddr} :
      act = .query url handler rc now →
      s' = { s with calls := s.calls ++ [⟨handler, url, sinAddr⟩] } → Outcome s act s'
  | unsent {url : HttpUrl} {handler : Addr} {rc : Int} {now : UInt32} :
      act = .query url handler rc now → rc < 0 →
      s' = { s with
        id := s.id + 1, brk := s.brk + 1
        sent := s.sent ++ [(newQuery (s.id + 1) url handler).packet] } → Outcome s act s'
  | created {url : HttpUrl} {handler : Addr} {rc : Int} {now : UInt32} :
      act = .query url handler rc now → url.host.length < dnsUdpSize - dnsHeaderSize →
      findCache s.cache url.host = none → 0 ≤ rc →
      Creates s s' (newQuery (s.id + 1) url handler) → Outcome s act s'
  | dropped {a : Addr} {q : DnsQuery} :
      act.isQuery = false → subject s act = some a →
      s.query a = some q → Drops s s' a → Outcome s act s'
  | retried {a : Addr} {q : DnsQuery} :
      act.isQuery = false → subject s act = some a →
      s.query a = some q → Retries s s' a q → Outcome s act s'

/-! ## The operations, inverted -/

/-- A drop that ends has unlinked and freed the query and called no one. -/
theorem dropQuery_ok {s s' : Resolver} {a : Addr} (h : dropQuery s a = .ok s') :
    SameSpan s s' ∧ s'.links = queueRemove (fun _ => a) s.links ∧
      s'.query = Function.update s.query a none ∧ s'.sent = s.sent ∧ s'.calls = s.calls := by
  rw [dropQuery, Resolver.withTimers] at h
  split at h
  · obtain rfl := Except.ok.inj h
    exact ⟨⟨rfl, rfl⟩, rfl, rfl, rfl, rfl⟩
  · cases h

/-- A packet sent again changes nothing else but the timers. -/
theorem resend_ok {s s' : Resolver} {a : Addr} {q : DnsQuery} {rc : Int} {now : UInt32}
    (h : resend s a q rc now = .ok s') :
    SameSpan s s' ∧ s'.links = s.links ∧ s'.query = s.query ∧ s'.sent = s.sent ++ [q.packet] ∧
      s'.calls = s.calls := by
  rw [resend] at h
  by_cases hrc : rc < 0
  · rw [if_pos hrc] at h
    obtain rfl := Except.ok.inj h
    exact ⟨⟨rfl, rfl⟩, rfl, rfl, rfl, rfl⟩
  · rw [if_neg hrc] at h
    simp only [Resolver.withTimers] at h
    split at h
    · obtain rfl := Except.ok.inj h
      exact ⟨⟨rfl, rfl⟩, rfl, rfl, rfl, rfl⟩
    · cases h

/-- Counting a try before the query is freed does not show. -/
theorem dropQuery_counted {s s' : Resolver} {a : Addr} {q : DnsQuery}
    (h : dropQuery (s.setQuery a (some q)) a = .ok s') : Drops s s' a := by
  obtain ⟨hspan, hlinks, hquery, hsent, hcalls⟩ := dropQuery_ok h
  refine ⟨⟨hspan.id, hspan.brk⟩, hlinks, ?_, hsent, Or.inl hcalls⟩
  rw [hquery]
  exact Function.update_idem _ _ _

theorem resend_counted {s s' : Resolver} {a : Addr} {q : DnsQuery} {rc : Int} {now : UInt32}
    (hlim : ¬ dnsTryLimit < q.trytimes)
    (h : resend (s.setQuery a (some { q with trytimes := q.trytimes + 1 })) a q rc now = .ok s') :
    Retries s s' a q := by
  obtain ⟨hspan, hlinks, hquery, hsent, hcalls⟩ := resend_ok h
  exact ⟨⟨hspan.id, hspan.brk⟩, Nat.not_lt.mp hlim, hlinks, hquery, hsent, hcalls⟩

section Step

variable {s s' : Resolver} {act : Action}

/-- The label `failed:`, for a step about the local `query`. -/
theorem parseFailed_outcome {query : Option Addr} {rc : Int} {now : UInt32}
    (hact : act.isQuery = false)
    (hsub : subject s act = query) (h : parseFailed s query rc now = .ok s') :
    Outcome s act s' := by
  cases query with
  | none => exact .idle (Except.ok.inj h).symm
  | some a =>
      rw [parseFailed, Resolver.deref] at h
      cases hq : s.query a with
      | none =>
          rw [hq] at h
          cases h
      | some q =>
          simp only [hq] at h
          split at h
          case isTrue => exact .dropped hact hsub hq (dropQuery_counted h)
          case isFalse hlim => exact .retried hact hsub hq (resend_counted hlim h)

theorem parseUdp_outcome {pkt : Mem} {len : Nat} {garbage : Option Addr} {rc : Int} {now : UInt32}
    (h : parseUdp s pkt len garbage rc now = .ok s') :
    Outcome s (.datagram pkt len garbage rc now) s' := by
  have hact : (Action.datagram pkt len garbage rc now).isQuery = false := rfl
  by_cases hone : be16 pkt 4 ≠ 1
  · rw [parseUdp_otherCount hone] at h
    exact parseFailed_outcome hact (by rw [subject, if_pos hone]) h
  · have hsub : subject s (.datagram pkt len garbage rc now) = findQuery s (raw16 pkt 0) := by
      rw [subject, if_neg hone]
    cases hf : findQuery s (raw16 pkt 0) with
    | none =>
        rw [parseUdp_unqueried (not_not.mp hone) hf] at h
        exact .idle (Except.ok.inj h).symm
    | some a =>
        rw [hf] at hsub
        obtain ⟨q, hq, -⟩ := findQuery_live hf
        rw [parseUdp_queried (not_not.mp hone) hf hq] at h
        split at h
        case isTrue => exact parseFailed_outcome hact hsub h
        case isFalse =>
          split at h
          case h_1 => exact parseFailed_outcome hact hsub h
          case h_2 =>
            obtain ⟨hspan, hlinks, hquery, hsent, hcalls⟩ := dropQuery_ok h
            exact .dropped hact hsub hq ⟨hspan, hlinks, hquery, hsent, Or.inl hcalls⟩
          case h_3 =>
            obtain ⟨hspan, hlinks, hquery, hsent, hcalls⟩ := dropQuery_ok h
            exact .dropped hact hsub hq ⟨⟨hspan.id, hspan.brk⟩, hlinks, hquery, hsent,
              Or.inr ⟨_, hcalls⟩⟩

theorem dnsQuery_outcome {url : HttpUrl} {handler : Addr} {rc : Int} {now : UInt32}
    (h : (dnsQuery s url handler rc now).map Prod.snd = .ok s') :
    Outcome s (.query url handler rc now) s' := by
  rw [dnsQuery] at h
  split at h
  case isTrue => exact .idle (Except.ok.inj h).symm
  case isFalse hlen =>
    cases hcache : findCache s.cache url.host with
    | some c =>
        rw [hcache] at h
        exact .cached rfl (Except.ok.inj h).symm
    | none =>
        simp only [hcache] at h
        by_cases hrc : rc < 0
        · rw [if_pos hrc] at h
          exact .unsent rfl hrc (Except.ok.inj h).symm
        · rw [if_neg hrc] at h
          split at h
          · obtain rfl := Except.ok.inj h
            exact .created rfl (Nat.not_le.mp hlen) hcache (Int.not_lt.mp hrc)
              ⟨rfl, rfl, rfl, rfl, rfl, rfl⟩
          · cases h

/-- A timer's event names the query it is embedded in. -/
theorem expireQuery_outcome {xs : List Addr} (hw : Wellformed s xs) {ev : Addr} {now later : UInt32}
    {rc : Int} (he : ev ∈ s.timers.rbtree) (h : expireQuery s ev rc later = .ok s') :
    Outcome s (.expire ev now rc later) s' := by
  have hact : (Action.expire ev now rc later).isQuery = false := rfl
  have hev := hw.armed ev he
  obtain ⟨q, hq⟩ := hw.exists_query hev
  have hsub : subject s (.expire ev now rc later) = some ev := (hw.owned ev hev).1
  obtain ⟨t, hexp, -, haff⟩ := hw.timers.expireTimer he
  have hdata : (t.ev ev).data = some ev := haff.data.trans (hw.owned ev hev).1
  have hhandler : (t.ev ev).handler = some .dnsTimeoutHandler :=
    haff.handler.trans (hw.owned ev hev).2
  have hout : (t.ev ev).timedout = true := expireTimer_timedout hexp
  simp only [expireQuery, Resolver.withTimers, hexp, hhandler, dnsTimeoutHandler, hout, if_true,
    hdata, Resolver.deref, hq] at h
  split at h
  case isTrue =>
    obtain rfl := Except.ok.inj h
    refine .dropped hact hsub hq ⟨⟨rfl, rfl⟩, rfl, ?_, rfl, Or.inl rfl⟩
    exact Function.update_idem _ _ _
  case isFalse hlim =>
    have hr := resend_counted (s := { s with timers := t }) hlim h
    exact .retried hact hsub hq ⟨⟨hr.id, hr.brk⟩, hr.budget, hr.links, hr.query, hr.sent, hr.calls⟩

/-- Every step that ends ends in one of these ways. -/
theorem step_outcome {xs : List Addr} (hw : Wellformed s xs) (he : enabled s act)
    (h : step s act = .ok s') : Outcome s act s' := by
  cases act with
  | query url handler rc now => exact dnsQuery_outcome h
  | datagram pkt len garbage rc now => exact parseUdp_outcome h
  | expire ev now rc later => exact expireQuery_outcome hw he.1 h

end Step

/-! ## The queries linked after a step -/

theorem Wellformed.nodup {s : Resolver} {xs : List Addr} (hw : Wellformed s xs) : xs.Nodup :=
  (List.nodup_cons.mp hw.ring.nodup).2

/-- The address the next query gets is not linked. -/
theorem Wellformed.brk_notMem {s : Resolver} {xs : List Addr} (hw : Wellformed s xs) : s.brk ∉ xs :=
  fun h => Nat.lt_irrefl _ (hw.below _ h)

section Relinked

variable {s s' : Resolver} {xs ys : List Addr} (hw : Wellformed s xs) (hw' : Wellformed s' ys)
include hw hw'

theorem Wellformed.after_same (hl : s'.links = s.links) : ys = xs :=
  hw'.ring.visits.unique (hl ▸ hw.ring.visits)

theorem Wellformed.after_creates {q : DnsQuery} (h : Creates s s' q) : ys = xs ++ [s.brk] := by
  have hfresh : s.brk ∉ queryQueue :: xs := by
    rw [List.mem_cons, not_or]
    exact ⟨Nat.ne_of_gt hw.header, hw.brk_notMem⟩
  have hring := queueInsertTail_isRing hw.ring hfresh
  rw [← h.links] at hring
  exact hw'.ring.visits.unique hring.visits

theorem Wellformed.after_drops {a : Addr} (ha : a ∈ xs) (h : Drops s s' a) : ys = xs.erase a := by
  have hring := queueRemove_isRing hw.ring ha
  rw [← h.links] at hring
  exact hw'.ring.visits.unique hring.visits

end Relinked

/-! ## Queries against calls -/

/-- The queries a step may link. -/
def Action.links (act : Action) : Nat := if act.isQuery then 1 else 0

/-- A step that goes wrong is about a query that is linked, and may have called its handler. -/
theorem Wellformed.step_error {s s' : Resolver} {xs : List Addr} {act : Action} (hw : Wellformed s xs)
    (he : enabled s act) (h : step s act = .error s') :
    s'.calls = s.calls ∨ xs ≠ [] ∧ ∃ c, s'.calls = s.calls ++ [c] := by
  cases act with
  | query url handler rc now =>
      obtain ⟨r, hr⟩ : ∃ r, dnsQuery s url handler rc now = r := ⟨_, rfl⟩
      rw [step, hr] at h
      cases r with
      | ok r => cases h
      | error s₁ =>
          obtain rfl := Except.error.inj h
          rw [dnsQuery] at hr
          split at hr
          case isTrue => cases hr
          case isFalse =>
            split at hr
            case h_1 => cases hr
            case h_2 =>
              simp only at hr
              split at hr
              case isTrue => cases hr
              case isFalse =>
                split at hr
                case h_1 => cases hr
                case h_2 =>
                  obtain rfl := Except.error.inj hr
                  exact Or.inl rfl
  | datagram pkt len garbage rc now =>
      have hfinal : s' = (parseUdp s pkt len garbage rc now).final := by
        have h' : parseUdp s pkt len garbage rc now = .error s' := h
        rw [h']
        rfl
      rw [hfinal]
      by_cases hone : be16 pkt 4 = 1
      · cases hf : Dns.findQuery s (raw16 pkt 0) with
        | none =>
            rw [parseUdp_unqueried hone hf]
            exact Or.inl (parseFailed_final s none rc now).1
        | some a =>
            obtain ⟨ha, q, hq, -⟩ := hw.findQuery hf
            rw [parseUdp_queried hone hf hq]
            by_cases han : raw16 pkt 6 = 0
            · rw [if_pos han]
              exact Or.inl (parseFailed_final s (some a) rc now).1
            · rw [if_neg han]
              cases parseAnswer pkt len with
              | failed => exact Or.inl (parseFailed_final s (some a) rc now).1
              | notFound => exact Or.inl (dropQuery_final s a).1
              | address sinAddr =>
                  exact Or.inr ⟨List.ne_nil_of_mem ha, _, (dropQuery_final _ a).1⟩
      · rw [parseUdp_otherCount hone]
        exact Or.inl (parseFailed_final s garbage rc now).1
  | expire ev now rc later =>
      obtain ⟨q, hq⟩ := hw.exists_query (hw.armed ev he.1)
      obtain ⟨s₁, h₁, -⟩ := hw.expireQuery he.1 hq rc later
      have h' : Dns.expireQuery s ev rc later = .error s' := h
      rw [h₁] at h'
      cases h'

/-- Every handler call uses up a query: one that was linked, or the one the step was asked for. -/
theorem Wellformed.step_calls {s : Resolver} {xs : List Addr} {act : Action} (hw : Wellformed s xs)
    (he : enabled s act) :
    ∃ calls, (step s act).final.calls = s.calls ++ calls ∧ calls.length ≤ xs.length + act.links ∧
      ∀ s', step s act = .ok s' →
        ∃ xs', Wellformed s' xs' ∧ calls.length + xs'.length ≤ xs.length + act.links := by
  cases h : step s act with
  | error s' =>
      rcases hw.step_error he h with hcalls | ⟨hne, c, hcalls⟩
      · exact ⟨[], by simpa [Step.final] using hcalls, Nat.zero_le _, fun _ hok => by cases hok⟩
      · have hpos := List.length_pos_of_ne_nil hne
        exact ⟨[c], hcalls, by simp; omega, fun _ hok => by cases hok⟩
  | ok s' =>
      obtain ⟨xs', hw'⟩ := step_wellformed hw he h
      have hends : ∀ calls, s'.calls = s.calls ++ calls →
          calls.length + xs'.length ≤ xs.length + act.links →
          ∃ calls, (Step.final (.ok s')).calls = s.calls ++ calls ∧
            calls.length ≤ xs.length + act.links ∧ ∀ s₁, (.ok s' : Step) = .ok s₁ →
              ∃ xs', Wellformed s₁ xs' ∧ calls.length + xs'.length ≤ xs.length + act.links := by
        intro calls hcalls hle
        refine ⟨calls, hcalls, by omega, fun s₁ hs₁ => ?_⟩
        obtain rfl := Except.ok.inj hs₁
        exact ⟨xs', hw', hle⟩
      cases step_outcome hw he h with
      | idle hsame =>
          subst hsame
          obtain rfl := hw.after_same hw' rfl
          exact hends [] (by simp) (by simp)
      | cached hact hs' =>
          obtain rfl := hw.after_same hw' (by rw [hs'])
          exact hends [_] (by rw [hs']) (by simp [hact, Action.links, Action.isQuery, Nat.add_comm])
      | unsent hact _ hs' =>
          obtain rfl := hw.after_same hw' (by rw [hs'])
          exact hends [] (by simp [hs']) (by simp)
      | created hact _ _ _ hc =>
          obtain rfl := hw.after_creates hw' hc
          exact hends [] (by simp [hc.calls]) (by simp [hact, Action.links, Action.isQuery])
      | dropped _ _ hq hd =>
          have ha := (hw.live _).mp (by rw [hq]; rfl)
          have hpos := List.length_pos_of_mem ha
          obtain rfl := hw.after_drops hw' ha hd
          have hlen := List.length_erase_of_mem ha
          rcases hd.calls with hcalls | ⟨c, hcalls⟩
          · exact hends [] (by simpa using hcalls) (by rw [hlen, List.length_nil]; omega)
          · exact hends [c] hcalls (by rw [hlen, List.length_singleton]; omega)
      | retried _ _ _ hr =>
          obtain rfl := hw.after_same hw' hr.links
          exact hends [] (by simpa using hr.calls) (by simp)

end Crawler.Dns
