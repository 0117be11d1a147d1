/-
# Crawler.Dns.Resolver — outstanding queries, their timers, and the datagrams that answer them

`dns_query`, `parse_udp` and `dns_timeout_handler` of `async_dns.c` as the steps of one system. A
step may go wrong: `rbtree_delete` of a node that is not in the tree follows a null link, and a
freed query must not be touched. Such a step ends in `error` with the state it had reached, so that
what it did before is not lost.

`Wellformed` holds in every reachable state, whatever the sends return. It leaves one thing open: a
linked query need not be armed. `dns_timeout_handler` unlinks the timer, and re-arms it only when
its `unix_send` succeeds; `Timed` is what the resolver relies on, and it survives exactly the runs
in which these sends succeed.
-/
import Crawler.Core
import Crawler.EventTimer
import Crawler.Queue
import Crawler.Lib.Run
import Crawler.Dns.Cache
import Crawler.Dns.Packet

namespace Crawler.Dns

open Crawler.Lib Crawler.Lib.Ring Crawler.Queue Crawler.EventTimer

/-! ## The state -/

/-- `dns_query_t`, without its link words and its event. -/
structure DnsQuery where
  url : HttpUrl
  id : UInt32
  pkt : Mem
  len : Nat
  trytimes : Nat
  handler : Addr

/-- The bytes handed to `unix_send`. -/
def DnsQuery.packet (q : DnsQuery) : List UInt8 := (List.range q.len).map q.pkt

/-- One call of a query's handler. -/
structure HandlerCall where
  handler : Addr
  url : HttpUrl
  sinAddr : InAddr
  deriving DecidableEq, Repr

/-- The globals of `async_dns.c` with the heap of its queries. `query a` is `none` where no live
query is; `ev a` is the event embedded in the query at `a`. `sent` and `calls` record the packets
handed to `unix_send` and the handler calls, oldest first. -/
structure Resolver where
  id : UInt16
  cache : DnsCache
  links : Links Addr
  query : Addr → Option DnsQuery
  timers : Timers Addr
  brk : Addr
  sent : List (List UInt8)
  calls : List HandlerCall

/-- The address of the header `query_queue`. -/
def queryQueue : Addr := 0

/-- `DNS_TRY_LIMIT`. -/
def dnsTryLimit : Nat := 1

/-- The timeout of every try. -/
def dnsTimeout : UInt32 := 5000

/-- What `dns_init` leaves. -/
def dnsInit : Resolver where
  id := 0
  cache := cacheInit
  links := queueInit ⟨id, id⟩ queryQueue
  query := fun _ => none
  timers := { ev := fun _ => {}, rbtree := [] }
  brk := queryQueue + 1
  sent := []
  calls := []

/-- A step either ends or goes wrong, in the state given. -/
abbrev Step := Except Resolver Resolver

/-- The state a step ends or goes wrong in. -/
def Step.final : Step → Resolver
  | .ok s => s
  | .error s => s

/-- Read the query at `a`; reading freed memory goes wrong. -/
def Resolver.deref (s : Resolver) (a : Addr) (k : DnsQuery → Step) : Step :=
  match s.query a with
  | some q => k q
  | none => .error s

/-- Run a timer operation; running into NULL goes wrong. -/
def Resolver.withTimers (s : Resolver) (op : Timers Addr → Option (Timers Addr))
    (k : Resolver → Step) : Step :=
  match op s.timers with
  | some t => k { s with timers := t }
  | none => .error s

/-- Overwrite the query at `a`, or free it. -/
def Resolver.setQuery (s : Resolver) (a : Addr) (q : Option DnsQuery) : Resolver :=
  { s with query := Function.update s.query a q }

/-- `queue_remove(&query->queue)`. -/
def Resolver.unlink (s : Resolver) (a : Addr) : Resolver :=
  { s with links := queueRemove (fun _ => a) s.links }

/-! ## The operations -/

/-- `find_query(id)`; `none` is NULL. -/
def findQuery (s : Resolver) (id : UInt16) : Option Addr :=
  queueFind s.links queryQueue (fun a => (s.query a).any (fun q => q.id == id.toUInt32)) s.brk
    (s.links.next queryQueue)

/-- The end of a query that had its answer, or that a datagram made give up: unlink it, delete its
timer, free it. -/
def dropQuery (s : Resolver) (a : Addr) : Step :=
  (s.unlink a).withTimers (eventDelTimer · a) fun s => .ok (s.setQuery a none)

/-- Send the packet again and, when `unix_send` returns no error, set the timer. -/
def resend (s : Resolver) (a : Addr) (q : DnsQuery) (rc : Int) (now : UInt32) : Step :=
  let s := { s with sent := s.sent ++ [q.packet] }
  if rc < 0 then .ok s
  else s.withTimers (eventAddTimer now · a dnsTimeout) .ok

/-- The label `failed:` of `parse_udp`. -/
def parseFailed (s : Resolver) (query : Option Addr) (rc : Int) (now : UInt32) : Step :=
  match query with
  | none => .ok s
  | some a =>
      s.deref a fun q =>
        let s := s.setQuery a (some { q with trytimes := q.trytimes + 1 })
        if dnsTryLimit < q.trytimes then dropQuery s a else resend s a q rc now

/-- Cache the address and call the handler. -/
def deliver (s : Resolver) (q : DnsQuery) (sinAddr : InAddr) : Resolver :=
  { s with
    cache := setCache s.cache q.url.host sinAddr
    calls := s.calls ++ [⟨q.handler, q.url, sinAddr⟩] }

/-- `parse_udp(pkt, len)`. The local `query` has no initialiser: `garbage` is what it holds when the
first check jumps to `failed`. `rc` and `now` are what `unix_send` and the clock return, if asked. -/
def parseUdp (s : Resolver) (pkt : Mem) (len : Nat) (garbage : Option Addr) (rc : Int)
    (now : UInt32) : Step :=
  if be16 pkt 4 ≠ 1 then parseFailed s garbage rc now
  else
    match findQuery s (raw16 pkt 0) with
    | none => parseFailed s none rc now
    | some a =>
        if raw16 pkt 6 = 0 then parseFailed s (some a) rc now
        else
          match parseAnswer pkt len with
          | .failed => parseFailed s (some a) rc now
          | .notFound => dropQuery s a
          | .address sinAddr => s.deref a fun q => dropQuery (deliver s q sinAddr) a

/-- `dns_timeout_handler(ev)`, for the event embedded in the query at `ev`. -/
def dnsTimeoutHandler (s : Resolver) (ev : Addr) (rc : Int) (now : UInt32) : Step :=
  if (s.timers.ev ev).timedout then
    match (s.timers.ev ev).data with
    | none => .error s
    | some a =>
        s.deref a fun q =>
          let s := s.setQuery a (some { q with trytimes := q.trytimes + 1 })
          if dnsTryLimit < q.trytimes then .ok ((s.unlink a).setQuery a none)
          else resend s a q rc now
  else .ok s

/-- One round of `event_expire_timers` on a query's event. -/
def expireQuery (s : Resolver) (ev : Addr) (rc : Int) (now : UInt32) : Step :=
  s.withTimers (expireTimer · ev) fun s =>
    match (s.timers.ev ev).handler with
    | some .dnsTimeoutHandler => dnsTimeoutHandler s ev rc now
    | _ => .error s

/-- The query `dns_query` fills in. -/
def newQuery (id : UInt16) (url : HttpUrl) (handler : Addr) : DnsQuery :=
  let (pkt, len) := packUdp (fun _ => 0) id url.host
  { url := url, id := id.toUInt32, pkt := pkt, len := len, trytimes := 0, handler := handler }

/-- `dns_query(url, handler)`: its return value and what it leaves, `calloc` succeeding. -/
def dnsQuery (s : Resolver) (url : HttpUrl) (handler : Addr) (rc : Int) (now : UInt32) :
    Except Resolver (Int × Resolver) :=
  if dnsUdpSize - dnsHeaderSize ≤ url.host.length then .ok (-1, s)
  else
    match findCache s.cache url.host with
    | some c => .ok (0, { s with calls := s.calls ++ [⟨handler, url, s.cache.sinAddr c⟩] })
    | none =>
        let id := s.id + 1
        let q := newQuery id url handler
        let a := s.brk
        let s := { s with id := id, brk := a + 1, sent := s.sent ++ [q.packet] }
        if rc < 0 then .ok (-1, s)
        else
          let ev : Event := { data := some a, handler := some .dnsTimeoutHandler }
          let s := { s.setQuery a (some q) with timers := s.timers.set a ev }
          match eventAddTimer now s.timers a dnsTimeout with
          | some t => .ok (0, { s with timers := t, links := queueInsertTail s.links queryQueue a })
          | none => .error s

/-! ## The system -/

/-- What can happen to the resolver. `rc` and the clock values are chosen by the environment. -/
inductive Action where
  | query (url : HttpUrl) (handler : Addr) (rc : Int) (now : UInt32)
  | datagram (pkt : Mem) (len : Nat) (garbage : Option Addr) (rc : Int) (now : UInt32)
  | expire (ev : Addr) (now : UInt32) (rc : Int) (later : UInt32)

/-- The step of each action. -/
def step (s : Resolver) : Action → Step
  | .query url handler rc now => (dnsQuery s url handler rc now).map Prod.snd
  | .datagram pkt len garbage rc now => parseUdp s pkt len garbage rc now
  | .expire ev _ rc later => expireQuery s ev rc later

/-- `dns_process_event` passes on datagrams of header size at least; a timer expires when it is
linked and due. -/
def enabled (s : Resolver) : Action → Prop
  | .query .. => True
  | .datagram _ len .. => dnsHeaderSize ≤ len ∧ len ≤ dnsUdpSize
  | .expire ev now .. => ev ∈ s.timers.rbtree ∧ Due now s.timers ev

/-- The resolver. -/
def resolver : System Resolver Action where
  init := (· = dnsInit)
  enabled := enabled
  next := fun s a => (step s a).toOption

/-! ## What every step keeps -/

/-- The query holds the packet that was built for it. -/
def Packed (q : DnsQuery) : Prop :=
  ∃ id, (q.pkt, q.len) = packUdp (fun _ => 0) id q.url.host ∧ q.id = id.toUInt32

/-- The resolver with the queries `xs` linked in `query_queue`: they are the live ones, and every
armed timer is the timer of one of them. -/
structure Wellformed (s : Resolver) (xs : List Addr) : Prop where
  ring : IsRing s.links queryQueue xs
  live : ∀ a, (s.query a).isSome ↔ a ∈ xs
  header : queryQueue < s.brk
  below : ∀ a ∈ xs, a < s.brk
  timers : Consistent s.timers
  armed : ∀ a ∈ s.timers.rbtree, a ∈ xs
  owned : ∀ a ∈ xs,
    (s.timers.ev a).data = some a ∧ (s.timers.ev a).handler = some .dnsTimeoutHandler
  packed : ∀ a q, s.query a = some q → Packed q

/-- Every linked query is armed. -/
def Armed (s : Resolver) (xs : List Addr) : Prop := ∀ a ∈ xs, a ∈ s.timers.rbtree

/-- What a step from a well-formed resolver does: it ends well-formed if it ends, it keeps all
queries armed, and it does end when they are. -/
structure Lands (s : Resolver) (xs : List Addr) (r : Step) : Prop where
  keeps : ∀ s', r = .ok s' → ∃ xs', Wellformed s' xs' ∧ (Armed s xs → Armed s' xs')
  ends : Armed s xs → ∃ s', r = .ok s'

theorem dnsInit_wellformed : Wellformed dnsInit [] where
  ring := queueInit_isRing _ _
  live := by simp [dnsInit]
  header := Nat.lt_succ_self _
  below := by simp
  timers := ⟨by simp [dnsInit], by simp [dnsInit]⟩
  armed := by simp [dnsInit]
  owned := by simp
  packed := by simp [dnsInit]

theorem Wellformed.exists_query {s : Resolver} {xs : List Addr} (hw : Wellformed s xs) {a : Addr}
    (ha : a ∈ xs) : ∃ q, s.query a = some q :=
  Option.isSome_iff_exists.mp ((hw.live a).mpr ha)

/-- Well-formedness depends on the queue, the queries and the timers alone. -/
theorem Wellformed.congr {s s' : Resolver} {xs : List Addr} (hw : Wellformed s xs)
    (hl : s'.links = s.links) (hq : s'.query = s.query) (ht : s'.timers = s.timers)
    (hb : s'.brk = s.brk) : Wellformed s' xs where
  ring := hl ▸ hw.ring
  live := hq ▸ hw.live
  header := hb ▸ hw.header
  below := hb ▸ hw.below
  timers := ht ▸ hw.timers
  armed := ht ▸ hw.armed
  owned := ht ▸ hw.owned
  packed := hq ▸ hw.packed

theorem Wellformed.withTimers {s : Resolver} {xs : List Addr} (hw : Wellformed s xs) {a : Addr}
    {t : Timers Addr} {linked : Prop} (hc : Consistent t) (haff : Affects s.timers t a linked)
    (ha : linked → a ∈ xs) : Wellformed { s with timers := t } xs where
  ring := hw.ring
  live := hw.live
  header := hw.header
  below := hw.below
  timers := hc
  armed := by
    intro b hb
    by_cases hba : b = a
    · subst hba; exact ha (haff.self.mp hb)
    · exact hw.armed b ((haff.other_mem b hba).mp hb)
  owned := by
    intro b hb
    by_cases hba : b = a
    · subst hba; exact ⟨haff.data.trans (hw.owned b hb).1, haff.handler.trans (hw.owned b hb).2⟩
    · rw [show ({ s with timers := t } : Resolver).timers.ev b = s.timers.ev b from
        haff.other_ev b hba]
      exact hw.owned b hb
  packed := hw.packed

/-- Counting a try changes nothing that matters here. -/
theorem Wellformed.countTry {s : Resolver} {xs : List Addr} (hw : Wellformed s xs) {a : Addr}
    {q : DnsQuery} (hq : s.query a = some q) (n : Nat) :
    Wellformed (s.setQuery a (some { q with trytimes := n })) xs where
  ring := hw.ring
  live := by
    intro b
    by_cases hb : b = a
    · subst hb
      simpa [Resolver.setQuery, hq] using hw.live b
    · simpa [Resolver.setQuery, hb] using hw.live b
  header := hw.header
  below := hw.below
  timers := hw.timers
  armed := hw.armed
  owned := hw.owned
  packed := by
    intro b q' hb
    by_cases hba : b = a
    · subst hba
      obtain rfl : { q with trytimes := n } = q' := by simpa [Resolver.setQuery] using hb
      exact hw.packed b q hq
    · exact hw.packed b q' (by simpa [Resolver.setQuery, hba] using hb)

/-- Unlinking and freeing a query whose timer is not armed. -/
theorem Wellformed.remove {s : Resolver} {xs : List Addr} (hw : Wellformed s xs) {a : Addr}
    (ha : a ∈ xs) (hnot : a ∉ s.timers.rbtree) :
    Wellformed ((s.unlink a).setQuery a none) (xs.erase a) := by
  have hnd : xs.Nodup := (List.nodup_cons.mp hw.ring.nodup).2
  refine ⟨queueRemove_isRing hw.ring ha, fun b => ?_, hw.header, fun b hb => ?_, hw.timers,
    fun b hb => ?_, fun b hb => ?_, fun b q hb => ?_⟩
  · rw [hnd.mem_erase_iff]
    by_cases hba : b = a
    · simp [Resolver.setQuery, hba]
    · simpa [Resolver.setQuery, Resolver.unlink, hba] using hw.live b
  · exact hw.below b (List.mem_of_mem_erase hb)
  · exact (hnd.mem_erase_iff).mpr ⟨fun e => hnot (e ▸ hb), hw.armed b hb⟩
  · exact hw.owned b (List.mem_of_mem_erase hb)
  · by_cases hba : b = a
    · simp [Resolver.setQuery, hba] at hb
    · exact hw.packed b q (by simpa [Resolver.setQuery, Resolver.unlink, hba] using hb)

/-- The query found is live, and its id is the one looked for. -/
theorem findQuery_live {s : Resolver} {id : UInt16} {a : Addr} (h : findQuery s id = some a) :
    ∃ q, s.query a = some q ∧ q.id = id.toUInt32 := by
  have hhit := queueFind_hit h
  obtain ⟨q, hq, hid⟩ := (Option.any_eq_true _ _).mp hhit
  exact ⟨q, hq, by simpa using hid⟩

/-- `parse_udp` on a datagram with another number of questions than one. -/
theorem parseUdp_otherCount {s : Resolver} {pkt : Mem} (hmany : be16 pkt 4 ≠ 1) (len : Nat)
    (garbage : Option Addr) (rc : Int) (now : UInt32) :
    parseUdp s pkt len garbage rc now = parseFailed s garbage rc now :=
  if_pos hmany

/-- `parse_udp` on a datagram for no query. -/
theorem parseUdp_unqueried {s : Resolver} {pkt : Mem} (hone : be16 pkt 4 = 1)
    (hf : findQuery s (raw16 pkt 0) = none) (len : Nat) (garbage : Option Addr) (rc : Int)
    (now : UInt32) : parseUdp s pkt len garbage rc now = parseFailed s none rc now := by
  rw [parseUdp, if_neg (not_not.mpr hone), hf]

/-- `parse_udp` on a datagram for the query at `a`. -/
theorem parseUdp_queried {s : Resolver} {pkt : Mem} (hone : be16 pkt 4 = 1) {a : Addr}
    (hf : findQuery s (raw16 pkt 0) = some a) {q : DnsQuery} (hq : s.query a = some q) (len : Nat)
    (garbage : Option Addr) (rc : Int) (now : UInt32) :
    parseUdp s pkt len garbage rc now =
      if raw16 pkt 6 = 0 then parseFailed s (some a) rc now
      else match parseAnswer pkt len with
        | .failed => parseFailed s (some a) rc now
        | .notFound => dropQuery s a
        | .address sinAddr => dropQuery (deliver s q sinAddr) a := by
  rw [parseUdp, if_neg (not_not.mpr hone), hf]
  simp only [Resolver.deref, hq]

theorem Wellformed.findQuery {s : Resolver} {xs : List Addr} (hw : Wellformed s xs) {id : UInt16}
    {a : Addr} (h : findQuery s id = some a) :
    a ∈ xs ∧ ∃ q, s.query a = some q ∧ q.id = id.toUInt32 := by
  obtain ⟨q, hq, hid⟩ := findQuery_live h
  exact ⟨(hw.live a).mp (by simp [hq]), q, hq, hid⟩

/-! ## The operations, one by one -/

/-- Deleting a timer that is not armed runs into NULL. -/
theorem eventDelTimer_isSome_iff (t : Timers Addr) (a : Addr) :
    (eventDelTimer t a).isSome ↔ a ∈ t.rbtree := by
  by_cases h : a ∈ t.rbtree <;> simp [eventDelTimer, rbtreeDelete, h]

/-- Dropping an armed query takes it out of the queue and its timer out of the tree. -/
theorem Wellformed.dropQuery {s : Resolver} {xs : List Addr} (hw : Wellformed s xs) {a : Addr}
    (harm : a ∈ s.timers.rbtree) :
    ∃ s', dropQuery s a = .ok s' ∧ Wellformed s' (xs.erase a) ∧
      ∀ b, b ∈ s'.timers.rbtree ↔ b ≠ a ∧ b ∈ s.timers.rbtree := by
  have ha := hw.armed a harm
  obtain ⟨t, hdel, hc, haff⟩ := hw.timers.eventDelTimer harm
  have hw₁ := hw.withTimers hc haff (fun h => h.elim)
  refine ⟨({ s with timers := t }.unlink a).setQuery a none, ?_, hw₁.remove ha ?_,
    haff.mem_iff_of_unlinked⟩
  · simp only [Dns.dropQuery, Resolver.withTimers, Resolver.unlink, hdel]
  · exact haff.self.mp

theorem Wellformed.dropQuery_lands {s : Resolver} {xs : List Addr} (hw : Wellformed s xs) {a : Addr}
    (ha : a ∈ xs) : Lands s xs (Dns.dropQuery s a) where
  keeps := by
    intro s' h
    have harm : a ∈ s.timers.rbtree := by
      by_contra hnot
      rw [← eventDelTimer_isSome_iff, Option.not_isSome_iff_eq_none] at hnot
      simp [Dns.dropQuery, Resolver.withTimers, Resolver.unlink, hnot] at h
    obtain ⟨s₁, h₁, hw₁, hmem⟩ := hw.dropQuery harm
    obtain rfl : s₁ = s' := Except.ok.inj (h₁.symm.trans h)
    refine ⟨_, hw₁, fun hall b hb => (hmem b).mpr ?_⟩
    have hnd : xs.Nodup := (List.nodup_cons.mp hw.ring.nodup).2
    obtain ⟨hba, hb⟩ := hnd.mem_erase_iff.mp hb
    exact ⟨hba, hall b hb⟩
  ends := by
    intro hall
    obtain ⟨s', h, -⟩ := hw.dropQuery (hall a ha)
    exact ⟨s', h⟩

/-- Sending again arms the timer exactly when the send succeeds; otherwise the timers stay. -/
theorem Wellformed.resend {s : Resolver} {xs : List Addr} (hw : Wellformed s xs) {a : Addr}
    (ha : a ∈ xs) (q : DnsQuery) (rc : Int) (now : UInt32) :
    ∃ s', resend s a q rc now = .ok s' ∧ Wellformed s' xs ∧
      ∀ b, b ∈ s'.timers.rbtree ↔ (b = a ∧ 0 ≤ rc) ∨ b ∈ s.timers.rbtree := by
  by_cases hrc : rc < 0
  · refine ⟨{ s with sent := s.sent ++ [q.packet] }, ?_, hw.congr rfl rfl rfl rfl, fun b => ?_⟩
    · simp [Dns.resend, hrc]
    · simp [Int.not_le.mpr hrc]
  · obtain ⟨t, hadd, hc, haff⟩ := hw.timers.eventAddTimer now a dnsTimeout
    refine ⟨{ s with sent := s.sent ++ [q.packet], timers := t }, ?_, ?_, fun b => ?_⟩
    · simp [Dns.resend, hrc, Resolver.withTimers, hadd]
    · exact (hw.withTimers hc haff (fun _ => ha)).congr rfl rfl rfl rfl
    · simpa [Int.not_lt.mp hrc] using haff.mem_iff_of_linked b

theorem Wellformed.parseFailed_lands {s : Resolver} {xs : List Addr} (hw : Wellformed s xs)
    {a : Addr} (ha : a ∈ xs) (rc : Int) (now : UInt32) :
    Lands s xs (parseFailed s (some a) rc now) := by
  obtain ⟨q, hq⟩ := hw.exists_query ha
  have hw₁ := hw.countTry hq (q.trytimes + 1)
  simp only [parseFailed, Resolver.deref, hq]
  split
  · exact ⟨(hw₁.dropQuery_lands ha).keeps, (hw₁.dropQuery_lands ha).ends⟩
  · obtain ⟨s₂, h₂, hw₂, hmem⟩ := hw₁.resend ha q rc now
    refine ⟨fun s' h => ⟨xs, ?_, fun hall b hb => ?_⟩, fun _ => ⟨s₂, h₂⟩⟩
    · obtain rfl : s₂ = s' := Except.ok.inj (h₂.symm.trans h)
      exact hw₂
    · obtain rfl : s₂ = s' := Except.ok.inj (h₂.symm.trans h)
      exact (hmem b).mpr (Or.inr (hall b hb))

/-- Nothing happens without a query. -/
theorem Wellformed.lands_self {s : Resolver} {xs : List Addr} (hw : Wellformed s xs) :
    Lands s xs (.ok s) where
  keeps := by
    rintro s' ⟨⟩
    exact ⟨xs, hw, id⟩
  ends := fun _ => ⟨s, rfl⟩

theorem Wellformed.deliver {s : Resolver} {xs : List Addr} (hw : Wellformed s xs) (q : DnsQuery)
    (sinAddr : InAddr) : Wellformed (deliver s q sinAddr) xs :=
  hw.congr rfl rfl rfl rfl

/-- `parse_udp` on a datagram with one question. -/
theorem Wellformed.parseUdp_lands {s : Resolver} {xs : List Addr} (hw : Wellformed s xs) {pkt : Mem}
    (hone : be16 pkt 4 = 1) (len : Nat) (garbage : Option Addr) (rc : Int) (now : UInt32) :
    Lands s xs (parseUdp s pkt len garbage rc now) := by
  cases hf : Dns.findQuery s (raw16 pkt 0) with
  | none =>
      rw [parseUdp_unqueried hone hf]
      exact hw.lands_self
  | some a =>
      obtain ⟨ha, q, hq, -⟩ := hw.findQuery hf
      rw [parseUdp_queried hone hf hq]
      by_cases han : raw16 pkt 6 = 0
      · rw [if_pos han]
        exact hw.parseFailed_lands ha rc now
      · rw [if_neg han]
        cases parseAnswer pkt len with
        | failed => exact hw.parseFailed_lands ha rc now
        | notFound => exact hw.dropQuery_lands ha
        | address sinAddr =>
            have hl := (hw.deliver q sinAddr).dropQuery_lands ha
            exact ⟨hl.keeps, hl.ends⟩

/-- Creating a query arms it before it is linked. -/
theorem Wellformed.create {s : Resolver} {xs : List Addr} (hw : Wellformed s xs) (id : UInt16)
    (url : HttpUrl) (handler : Addr) (now : UInt32) :
    let ev : Event := { data := some s.brk, handler := some .dnsTimeoutHandler }
    ∃ t, eventAddTimer now (s.timers.set s.brk ev) s.brk dnsTimeout = some t ∧
      ∀ s', s'.links = queueInsertTail s.links queryQueue s.brk → s'.timers = t →
        s'.query = Function.update s.query s.brk (some (newQuery id url handler)) →
        s'.brk = s.brk + 1 →
        Wellformed s' (xs ++ [s.brk]) ∧ (Armed s xs → Armed s' (xs ++ [s.brk])) := by
  intro ev
  have hfresh : s.brk ∉ xs := fun h => Nat.lt_irrefl _ (hw.below _ h)
  have hheader : s.brk ≠ queryQueue := Nat.ne_of_gt hw.header
  have hunset : (s.timers.ev s.brk).timerSet = false := by
    rw [Bool.eq_false_iff, ne_eq, hw.timers.set_iff]
    exact fun h => hfresh (hw.armed _ h)
  have hc₀ : Consistent (s.timers.set s.brk ev) := hw.timers.set (by simp [ev, hunset])
  obtain ⟨t, hadd, hc, haff⟩ := hc₀.eventAddTimer now s.brk dnsTimeout
  refine ⟨t, hadd, fun s' hl ht hq hb => ⟨⟨?_, ?_, ?_, ?_, ?_, ?_, ?_, ?_⟩, ?_⟩⟩
  · rw [hl]
    exact queueInsertTail_isRing hw.ring (by simp [hheader, hfresh])
  · intro b
    by_cases hba : b = s.brk
    · simp [hq, hba]
    · simpa [hq, hba] using hw.live b
  · rw [hb]
    exact Nat.lt_succ_of_lt hw.header
  · intro b hmem
    rw [hb]
    rcases List.mem_append.mp hmem with hmem | hmem
    · exact Nat.lt_succ_of_lt (hw.below b hmem)
    · rw [List.mem_singleton.mp hmem]
      exact Nat.lt_succ_self _
  · rw [ht]
    exact hc
  · intro b hmem
    rw [ht] at hmem
    rcases (haff.mem_iff_of_linked b).mp hmem with rfl | hmem
    · simp
    · exact List.mem_append_left _ (hw.armed b hmem)
  · intro b hmem
    rw [ht]
    by_cases hba : b = s.brk
    · subst hba
      rw [haff.data, haff.handler]
      simp [ev]
    · rw [haff.other_ev b hba, Timers.set_ev, if_neg hba]
      exact hw.owned b (by simpa [hba] using hmem)
  · intro b q hbq
    rw [hq] at hbq
    by_cases hba : b = s.brk
    · subst hba
      obtain rfl : newQuery id url handler = q := by simpa using hbq
      exact ⟨id, rfl, rfl⟩
    · exact hw.packed b q (by simpa [hba] using hbq)
  · intro hall b hmem
    rw [ht, haff.mem_iff_of_linked]
    rcases List.mem_append.mp hmem with hmem | hmem
    · exact Or.inr (hall b hmem)
    · exact Or.inl (List.mem_singleton.mp hmem)

theorem Wellformed.dnsQuery_lands {s : Resolver} {xs : List Addr} (hw : Wellformed s xs)
    (url : HttpUrl) (handler : Addr) (rc : Int) (now : UInt32) :
    Lands s xs ((dnsQuery s url handler rc now).map Prod.snd) := by
  rw [dnsQuery]
  by_cases hlen : dnsUdpSize - dnsHeaderSize ≤ url.host.length
  · rw [if_pos hlen]
    exact hw.lands_self
  · rw [if_neg hlen]
    cases findCache s.cache url.host with
    | some c =>
        have hcalled : Wellformed { s with calls := s.calls ++ [⟨handler, url, s.cache.sinAddr c⟩] } xs :=
          hw.congr rfl rfl rfl rfl
        exact ⟨hcalled.lands_self.keeps, hcalled.lands_self.ends⟩
    | none =>
        by_cases hrc : rc < 0
        · simp only [if_pos hrc]
          refine ⟨?_, fun _ => ⟨_, rfl⟩⟩
          rintro s' ⟨⟩
          refine ⟨xs, ⟨hw.ring, hw.live, Nat.lt_succ_of_lt hw.header, fun b hb => ?_, hw.timers,
            hw.armed, hw.owned, hw.packed⟩, id⟩
          exact Nat.lt_succ_of_lt (hw.below b hb)
        · obtain ⟨t, hadd, hnew⟩ := hw.create (s.id + 1) url handler now
          simp only [if_neg hrc, Resolver.setQuery, hadd]
          refine ⟨?_, fun _ => ⟨_, rfl⟩⟩
          rintro s' ⟨⟩
          exact ⟨_, hnew _ rfl rfl rfl rfl⟩

/-- The timeout of a query whose timer has just been unlinked: it is dropped when its tries are used
up, and otherwise armed again exactly when the send succeeds. -/
theorem Wellformed.expireQuery {s : Resolver} {xs : List Addr} (hw : Wellformed s xs) {a : Addr}
    (harm : a ∈ s.timers.rbtree) {q : DnsQuery} (hq : s.query a = some q) (rc : Int)
    (now : UInt32) :
    ∃ s', expireQuery s a rc now = .ok s' ∧
      if dnsTryLimit < q.trytimes then
        Wellformed s' (xs.erase a) ∧ ∀ b, b ∈ s'.timers.rbtree ↔ b ≠ a ∧ b ∈ s.timers.rbtree
      else
        Wellformed s' xs ∧
          ∀ b, b ∈ s'.timers.rbtree ↔ (b = a ∧ 0 ≤ rc) ∨ (b ≠ a ∧ b ∈ s.timers.rbtree) := by
  have ha := hw.armed a harm
  obtain ⟨t, hexp, hc, haff⟩ := hw.timers.expireTimer harm
  have hw₁ := hw.withTimers hc haff (fun h => h.elim)
  obtain ⟨hdata, hhandler⟩ := hw₁.owned a ha
  have hout : (t.ev a).timedout = true := expireTimer_timedout hexp
  have hw₂ := hw₁.countTry (a := a) hq (q.trytimes + 1)
  simp only at hdata hhandler
  simp only [Dns.expireQuery, Resolver.withTimers, hexp, hhandler, dnsTimeoutHandler, hout, if_true,
    hdata, Resolver.deref, hq]
  by_cases hlim : dnsTryLimit < q.trytimes
  · simp only [if_pos hlim]
    exact ⟨_, rfl, hw₂.remove ha haff.self.mp, haff.mem_iff_of_unlinked⟩
  · simp only [if_neg hlim]
    obtain ⟨s', h', hw', hmem⟩ := hw₂.resend ha q rc now
    refine ⟨s', h', hw', fun b => ?_⟩
    rw [hmem b]
    exact or_congr Iff.rfl (haff.mem_iff_of_unlinked b)

/-! ## Every run -/

/-- Every step keeps the resolver well-formed, whatever is received and whatever the sends return. -/
theorem step_wellformed {s s' : Resolver} {xs : List Addr} {act : Action} (hw : Wellformed s xs)
    (he : enabled s act) (h : step s act = .ok s') : ∃ xs', Wellformed s' xs' := by
  cases act with
  | query url handler rc now =>
      obtain ⟨xs', hw', -⟩ := (hw.dnsQuery_lands url handler rc now).keeps s' h
      exact ⟨xs', hw'⟩
  | datagram pkt len garbage rc now =>
      by_cases hone : be16 pkt 4 = 1
      · obtain ⟨xs', hw', -⟩ := (hw.parseUdp_lands hone len garbage rc now).keeps s' h
        exact ⟨xs', hw'⟩
      · rw [step, parseUdp_otherCount hone] at h
        cases garbage with
        | none =>
            obtain ⟨xs', hw', -⟩ := hw.lands_self.keeps s' h
            exact ⟨xs', hw'⟩
        | some a =>
            by_cases ha : a ∈ xs
            · obtain ⟨xs', hw', -⟩ := (hw.parseFailed_lands ha rc now).keeps s' h
              exact ⟨xs', hw'⟩
            · -- the garbage is no live query
              have hnone : s.query a = none := by
                rw [← Option.not_isSome_iff_eq_none, hw.live]
                exact ha
              simp [parseFailed, Resolver.deref, hnone] at h
  | expire ev now rc later =>
      obtain ⟨q, hq⟩ := hw.exists_query (hw.armed ev he.1)
      obtain ⟨s₁, h₁, hcase⟩ := hw.expireQuery he.1 hq rc later
      obtain rfl : s₁ = s' := Except.ok.inj (h₁.symm.trans h)
      split at hcase
      · exact ⟨_, hcase.1⟩
      · exact ⟨_, hcase.1⟩

theorem next_eq_some_iff {s s' : Resolver} {act : Action} :
    resolver.next s act = some s' ↔ step s act = .ok s' := by
  simp only [resolver]
  cases step s act <;> simp [Except.toOption]

theorem reachable_wellformed {s : Resolver} (hr : Reachable resolver s) :
    ∃ xs, Wellformed s xs := by
  apply hr.invariant (P := fun s => ∃ xs, Wellformed s xs)
  · rintro s rfl
    exact ⟨[], dnsInit_wellformed⟩
  · rintro s act s' ⟨xs, hw⟩ he hn
    exact step_wellformed hw he (next_eq_some_iff.mp hn)

end Crawler.Dns
