/-
# Crawler.Dns.Answer — which datagrams `parse_udp` accepts, and which bytes it depends on

A datagram is accepted when it reaches a handler or the cache. What acceptance guarantees is the
transaction id, the shape of the header and the types on the way to the address; the response bit,
the response code and the name and class of the question are never looked at.

What `parse_udp` does depends on the received bytes alone, unless the datagram is cut inside the
address it delivers (`Cut`).
-/
import Crawler.Dns.Resolver

namespace Crawler.Dns

open Crawler.Lib Crawler.Lib.Ring Crawler.Queue Crawler.EventTimer

/-! ## What is left alone -/

theorem dropQuery_final (s : Resolver) (a : Addr) :
    (dropQuery s a).final.calls = s.calls ∧ (dropQuery s a).final.cache = s.cache := by
  rw [dropQuery, Resolver.withTimers]
  cases eventDelTimer (s.unlink a).timers a <;> exact ⟨rfl, rfl⟩

theorem resend_final (s : Resolver) (a : Addr) (q : DnsQuery) (rc : Int) (now : UInt32) :
    (resend s a q rc now).final.calls = s.calls ∧ (resend s a q rc now).final.cache = s.cache := by
  rw [resend]
  by_cases hrc : rc < 0
  · simp only [if_pos hrc]
    exact ⟨rfl, rfl⟩
  · simp only [if_neg hrc, Resolver.withTimers]
    cases eventAddTimer now s.timers a dnsTimeout <;> exact ⟨rfl, rfl⟩

/-- The failure path calls no handler and caches nothing. -/
theorem parseFailed_final (s : Resolver) (query : Option Addr) (rc : Int) (now : UInt32) :
    (parseFailed s query rc now).final.calls = s.calls ∧
      (parseFailed s query rc now).final.cache = s.cache := by
  cases query with
  | none => exact ⟨rfl, rfl⟩
  | some a =>
      rw [parseFailed, Resolver.deref]
      cases s.query a with
      | none => exact ⟨rfl, rfl⟩
      | some q =>
          simp only
          split
          · exact dropQuery_final _ a
          · exact resend_final _ a q rc now

/-! ## Acceptance -/

/-- `parse_udp` calls a handler or changes the cache. -/
def Accepts (s : Resolver) (pkt : Mem) (n : Nat) (garbage : Option Addr) (rc : Int)
    (now : UInt32) : Prop :=
  (parseUdp s pkt n garbage rc now).final.calls ≠ s.calls ∨
    (parseUdp s pkt n garbage rc now).final.cache ≠ s.cache

/-- The datagram passes the header checks of `parse_udp` for the query at `a`. -/
structure Matches (s : Resolver) (pkt : Mem) (a : Addr) : Prop where
  oneQuestion : be16 pkt 4 = 1
  found : findQuery s (raw16 pkt 0) = some a
  answers : raw16 pkt 6 ≠ 0

/-- A matching datagram with an address is delivered to the query's own handler. -/
theorem Matches.parseUdp {s : Resolver} {pkt : Mem} {a : Addr} (hm : Matches s pkt a) {n : Nat}
    {sinAddr : InAddr} (hans : parseAnswer pkt n = .address sinAddr) (garbage : Option Addr)
    (rc : Int) (now : UInt32) :
    ∃ q, s.query a = some q ∧
      parseUdp s pkt n garbage rc now = dropQuery (deliver s q sinAddr) a := by
  obtain ⟨q, hq, -⟩ := findQuery_live hm.found
  refine ⟨q, hq, ?_⟩
  rw [parseUdp_queried hm.oneQuestion hm.found hq, if_neg hm.answers, hans]

/-- Acceptance goes through the delivery of an address, whatever the state and the datagram. -/
theorem Accepts.matches {s : Resolver} {pkt : Mem} {n : Nat} {garbage : Option Addr} {rc : Int}
    {now : UInt32} (h : Accepts s pkt n garbage rc now) :
    ∃ a sinAddr, Matches s pkt a ∧ parseAnswer pkt n = .address sinAddr := by
  have hnone : ∀ r : Step, parseUdp s pkt n garbage rc now = r →
      r.final.calls = s.calls ∧ r.final.cache = s.cache → False := by
    rintro r rfl ⟨hcalls, hcache⟩
    exact h.elim (fun hne => hne hcalls) (fun hne => hne hcache)
  by_cases hone : be16 pkt 4 = 1
  · cases hf : findQuery s (raw16 pkt 0) with
    | none =>
        exact (hnone _ (parseUdp_unqueried hone hf n garbage rc now)
          (parseFailed_final s none rc now)).elim
    | some a =>
        obtain ⟨q, hq, -⟩ := findQuery_live hf
        have hparse := parseUdp_queried hone hf hq n garbage rc now
        by_cases han : raw16 pkt 6 = 0
        · rw [if_pos han] at hparse
          exact (hnone _ hparse (parseFailed_final s (some a) rc now)).elim
        · rw [if_neg han] at hparse
          cases hans : parseAnswer pkt n with
          | failed =>
              rw [hans] at hparse
              exact (hnone _ hparse (parseFailed_final s (some a) rc now)).elim
          | notFound =>
              rw [hans] at hparse
              exact (hnone _ hparse (dropQuery_final s a)).elim
          | address sinAddr => exact ⟨a, sinAddr, ⟨hone, hf, han⟩, rfl⟩
  · exact (hnone _ (parseUdp_otherCount hone n garbage rc now)
      (parseFailed_final s garbage rc now)).elim

/-- What an accepted datagram has in common with the query at `a`: the transaction id of the packet
that was sent, one question with the type asked for, and an address record of four bytes. -/
structure AnswersFor (pkt : Mem) (n : Nat) (q : DnsQuery) (r : Nat) : Prop where
  id : raw16 pkt 0 = raw16 q.pkt 0
  oneQuestion : be16 pkt 4 = 1
  answers : raw16 pkt 6 ≠ 0
  name : (∀ i, dnsDataOffset ≤ i → i < questionEnd pkt n → pkt i ≠ 0) ∧ pkt (questionEnd pkt n) = 0
  qtype : be16 pkt (questionEnd pkt n + 1) = 1
  record : Delivers pkt n r

/-- The datagram answers, by its id, a linked query; its address goes to that query's handler and into
the cache under that query's host. -/
def AcceptedFor (s : Resolver) (pkt : Mem) (n : Nat) (garbage : Option Addr) (rc : Int)
    (now : UInt32) : Prop :=
  ∃ xs a q r, IsRing s.links queryQueue xs ∧ a ∈ xs ∧ s.query a = some q ∧ AnswersFor pkt n q r ∧
    (parseUdp s pkt n garbage rc now).final.calls =
      s.calls ++ [⟨q.handler, q.url, addrAt pkt (r + 12)⟩] ∧
    (parseUdp s pkt n garbage rc now).final.cache =
      setCache s.cache q.url.host (addrAt pkt (r + 12))

/-- In every reachable state every accepted datagram is accepted for the query that has its id. -/
theorem reachable_accepts {s : Resolver} {pkt : Mem} {n : Nat} {garbage : Option Addr} {rc : Int}
    {now : UInt32} (hr : Reachable resolver s) (h : Accepts s pkt n garbage rc now) :
    AcceptedFor s pkt n garbage rc now := by
  obtain ⟨xs, hw⟩ := reachable_wellformed hr
  obtain ⟨a, sinAddr, hm, hans⟩ := h.matches
  obtain ⟨q, hq, hparse⟩ := hm.parseUdp hans garbage rc now
  obtain ⟨ha, q', hq', hid⟩ := hw.findQuery hm.found
  obtain rfl : q = q' := Option.some.inj (hq.symm.trans hq')
  obtain ⟨id, hpkt, hqid⟩ := hw.packed a q hq
  obtain ⟨r, hd, rfl⟩ := (parseAnswer_address_iff pkt n sinAddr).mp hans
  obtain ⟨hlen, htype⟩ := not_or.mp hd.question
  refine ⟨xs, a, q, r, hw.ring, ha, hq, ⟨?_, hm.oneQuestion, hm.answers, ⟨?_, ?_⟩, ?_, hd⟩, ?_, ?_⟩
  · -- both ids are the 32-bit `id` field of the query
    have hsent : raw16 q.pkt 0 = id := by
      rw [show q.pkt = (packUdp (fun _ => 0) id q.url.host).1 from congrArg Prod.fst hpkt]
      exact packUdp_id _ _ _
    rw [hsent]
    exact UInt16.toUInt32_inj.mp (hid.symm.trans hqid)
  · exact fun i hi hlt => skipQname_nonzero pkt n _ _ i hi hlt
  · exact skipQname_stop pkt n _ _ le_rfl (by unfold questionEnd at hlen; omega)
  · exact not_not.mp htype
  · rw [hparse, (dropQuery_final _ a).1]
    rfl
  · rw [hparse, (dropQuery_final _ a).2]
    rfl

/-- The datagram answers the question of `q`: it is a response without error, and its question
section is the one packed, the name up to case. -/
structure AnswersQuestion (pkt : Mem) (q : DnsQuery) : Prop where
  response : pkt 2 &&& 0x80 ≠ 0
  noError : pkt 3 &&& 0x0F = 0
  name : ∀ i, dnsDataOffset ≤ i → i + 4 < q.len → tolower (pkt i) = tolower (q.pkt i)
  qtype : be16 pkt (q.len - 4) = be16 q.pkt (q.len - 4)
  qclass : be16 pkt (q.len - 2) = be16 q.pkt (q.len - 2)

/-- A query for host `a`. -/
def askForA : Action := .query ⟨80, [], [97], []⟩ 0 19 0

/-- The resolver after this query. -/
def askedForA : Resolver := (step dnsInit askForA).final

theorem askedForA_reachable : Reachable resolver askedForA :=
  ⟨dnsInit, [askForA], rfl, .snoc .nil trivial rfl⟩

theorem askedForA_query :
    askedForA.query = Function.update (fun _ => none) 1 (some (newQuery 1 ⟨80, [], [97], []⟩ 0)) :=
  rfl

/-- The bytes given, then zeros. -/
def memOf (bytes : List UInt8) : Mem := fun i => bytes.getD i 0

/-- No response, with an error code, to another name in another class, and an address. -/
def foreignAnswer : Mem := memOf
  [1, 0, 0, 3, 0, 1, 0, 1, 0, 0, 0, 0,
    1, 98, 0, 0, 1, 0, 3,
    0xC0, 12, 0, 1, 0, 1, 0, 0, 0, 60, 0, 4, 10, 6, 6, 6]

theorem foreignAnswer_accepts : Accepts askedForA foreignAnswer 35 none 0 0 := by
  left
  intro h
  have hcall : (parseUdp askedForA foreignAnswer 35 none 0 0).final.calls =
      [⟨0, ⟨80, [], [97], []⟩, ⟨10, 6, 6, 6⟩⟩] := by rfl
  rw [hcall] at h
  cases h

theorem reachable_accepts_foreignAnswer : AcceptedFor askedForA foreignAnswer 35 none 0 0 :=
  reachable_accepts askedForA_reachable foreignAnswer_accepts

/-- The accepted datagram meets none of the conditions but the type. -/
theorem foreignAnswer_not_answersQuestion :
    Reachable resolver askedForA ∧ Accepts askedForA foreignAnswer 35 none 0 0 ∧
      ∀ a q, askedForA.query a = some q → ¬ AnswersQuestion foreignAnswer q ∧
        (foreignAnswer 2 &&& 0x80 = 0 ∧ foreignAnswer 3 &&& 0x0F ≠ 0 ∧
          tolower (foreignAnswer 13) ≠ tolower (q.pkt 13) ∧
          be16 foreignAnswer (q.len - 2) ≠ be16 q.pkt (q.len - 2)) := by
  refine ⟨askedForA_reachable, foreignAnswer_accepts, fun a q hq => ?_⟩
  have hbit : foreignAnswer 2 &&& 0x80 = 0 := by decide
  refine ⟨fun h => h.response hbit, hbit, by decide, ?_⟩
  have hone : newQuery 1 ⟨80, [], [97], []⟩ 0 = q := by
    rw [askedForA_query, Function.update_apply] at hq
    split at hq
    · exact Option.some.inj hq
    · cases hq
  subst hone
  exact ⟨by decide, by decide⟩

/-! ## The bytes that matter -/

/-- `parse_udp` does the same on every buffer that holds the same received bytes. -/
def ReadsReceived (s : Resolver) (pkt : Mem) (n : Nat) : Prop :=
  ∀ pkt', AgreeBelow n pkt pkt' → ∀ garbage rc now,
    parseUdp s pkt' n garbage rc now = parseUdp s pkt n garbage rc now

/-- `parse_udp` depends on the received bytes only, exactly when the datagram is not one with a
question and answers that is cut inside the address it delivers. -/
theorem readsReceived_iff {s : Resolver} {pkt : Mem} {n : Nat} {a : Addr} (hn : dnsHeaderSize ≤ n)
    (hid : findQuery s (raw16 pkt 0) = some a) :
    ReadsReceived s pkt n ↔ ¬ (be16 pkt 4 = 1 ∧ raw16 pkt 6 ≠ 0 ∧ Cut pkt n) := by
  rw [dnsHeaderSize] at hn
  constructor
  · rintro hread ⟨hone, han, hcut⟩
    obtain ⟨pkt', x, x', hagree, hans, hans', hne⟩ := hcut.exists_address_ne
    have hm : Matches s pkt a := ⟨hone, hid, han⟩
    have hm' : Matches s pkt' a :=
      ⟨by rw [← hagree.be16 (by omega), hone], by rw [← hagree.raw16 (by omega), hid],
        by rw [← hagree.raw16 (by omega)]; exact han⟩
    obtain ⟨q, hq, hparse⟩ := hm.parseUdp hans none 0 0
    obtain ⟨q', hq', hparse'⟩ := hm'.parseUdp hans' none 0 0
    obtain rfl : q = q' := Option.some.inj (hq.symm.trans hq')
    have hsame := hread pkt' hagree none 0 0
    rw [hparse, hparse'] at hsame
    have hcalls := congrArg (fun r : Step => r.final.calls) hsame
    simp only [(dropQuery_final _ a).1, deliver] at hcalls
    exact hne (by simpa using hcalls.symm)
  · intro hok pkt' hagree garbage rc now
    rw [parseUdp, parseUdp, ← hagree.be16 (by omega), ← hagree.raw16 (by omega),
      ← hagree.raw16 (by omega), hid]
    by_cases hone : be16 pkt 4 = 1
    · by_cases han : raw16 pkt 6 = 0
      · simp only [if_pos han]
      · have hcut : ¬ Cut pkt n := fun hc => hok ⟨hone, han, hc⟩
        simp only [if_neg han, parseAnswer_congr hagree hcut]
    · rw [if_pos hone, if_pos hone]

/-- An answer for host `a` of which one address byte was received, and what follows it. -/
def cutAnswer (rest : UInt8) : Mem := memOf
  [1, 0, 0x81, 0x80, 0, 1, 0, 1, 0, 0, 0, 0,
    1, 97, 0, 0, 1, 0, 1,
    0xC0, 12, 0, 1, 0, 1, 0, 0, 0, 60, 0, 4, 93, rest, rest, rest]

theorem readsReceived_iff_cutAnswer :
    ReadsReceived askedForA (cutAnswer 0) 32 ↔
      ¬ (be16 (cutAnswer 0) 4 = 1 ∧ raw16 (cutAnswer 0) 6 ≠ 0 ∧ Cut (cutAnswer 0) 32) :=
  readsReceived_iff (a := 1) (by decide) (by rfl)

/-- Three address bytes come from beyond the 32 received. -/
theorem cutAnswer_not_readsReceived :
    findQuery askedForA (raw16 (cutAnswer 0) 0) = some 1 ∧
      AgreeBelow 32 (cutAnswer 0) (cutAnswer 7) ∧
      (parseUdp askedForA (cutAnswer 0) 32 none 0 0).final.calls =
        [⟨0, ⟨80, [], [97], []⟩, ⟨93, 0, 0, 0⟩⟩] ∧
      (parseUdp askedForA (cutAnswer 7) 32 none 0 0).final.calls =
        [⟨0, ⟨80, [], [97], []⟩, ⟨93, 7, 7, 7⟩⟩] ∧
      ¬ ReadsReceived askedForA (cutAnswer 0) 32 := by
  have hagree : AgreeBelow 32 (cutAnswer 0) (cutAnswer 7) := by
    unfold AgreeBelow
    decide
  have h0 : (parseUdp askedForA (cutAnswer 0) 32 none 0 0).final.calls =
      [⟨0, ⟨80, [], [97], []⟩, ⟨93, 0, 0, 0⟩⟩] := by rfl
  have h7 : (parseUdp askedForA (cutAnswer 7) 32 none 0 0).final.calls =
      [⟨0, ⟨80, [], [97], []⟩, ⟨93, 7, 7, 7⟩⟩] := by rfl
  refine ⟨by rfl, hagree, h0, h7, fun hread => ?_⟩
  rw [hread _ hagree none 0 0, h0] at h7
  cases h7

end Crawler.Dns
