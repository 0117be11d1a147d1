/-
# Crawler.Dns.Cache — the resolver's address cache on its real link words

`find_cache` and `set_cache` of `async_dns.c` run on the `prev`/`next` words of `cache_queue`, with
the macros of `queue.h` expanded as written. The abstract cache is `recent calls`: the last fifty
`set_cache` calls, newest first. `Refines` says that the linked list is that list, both ways round,
that `cache_count` is its length and that `find_cache` looks up in it.

The refinement is exact up to the fiftieth call and never again. The fifty-first evicts with
`queue_remove(queue_last(&cache_queue))`: the first statement of the macro already moves
`queue_last`, so the second one unlinks the second-oldest node from the forward chain while the
backward chain loses the oldest (`Stuck`). From then on no call evicts anything.
-/
import Crawler.Core
import Crawler.Queue
import Mathlib.Algebra.Group.Nat.Defs

namespace Crawler.Dns

open Crawler.Lib.Ring Crawler.Queue

/-! ## The cache as the code keeps it -/

/-- `cache_queue` with its nodes. The fields of a `dns_cache_t` are kept by node address; `brk` is
the address the next `calloc` returns. -/
structure DnsCache where
  links : Links Addr
  host : Addr → CStr
  sinAddr : Addr → InAddr
  brk : Addr
  cacheCount : UInt32

/-- The address of the header `cache_queue`. -/
def cacheQueue : Addr := 0

/-- The number of entries `set_cache` keeps. -/
def cacheLimit : UInt32 := 50

/-- The cache as `dns_init` leaves it; `cache_count` is a zero-initialised global. -/
def cacheInit : DnsCache where
  links := queueInit ⟨id, id⟩ cacheQueue
  host := fun _ => []
  sinAddr := fun _ => ⟨0, 0, 0, 0⟩
  brk := cacheQueue + 1
  cacheCount := 0

/-- `find_cache(host)`: the node found, `none` for NULL. A walk meets every allocated node at most
once, so `brk` steps are enough. -/
def findCache (s : DnsCache) (host : CStr) : Option Addr :=
  queueFind s.links cacheQueue (fun a => s.host a == host) s.brk (s.links.next cacheQueue)

/-- `set_cache(host, sin_addr)`, `calloc` succeeding. -/
def setCache (s : DnsCache) (host : CStr) (sinAddr : InAddr) : DnsCache :=
  let cache := s.brk
  let s := { s with
    brk := cache + 1
    host := Function.update s.host cache host
    sinAddr := Function.update s.sinAddr cache sinAddr
    links := queueInsertHead s.links cacheQueue cache
    cacheCount := s.cacheCount + 1 }
  if cacheLimit < s.cacheCount then
    { s with
      links := queueRemove (queueLast cacheQueue) s.links
      cacheCount := s.cacheCount - 1 }
  else s

/-- A run of `set_cache` calls from the empty cache. -/
def cacheRun (calls : List (CStr × InAddr)) : DnsCache :=
  calls.foldl (fun s c => setCache s c.1 c.2) cacheInit

/-- The host and address a node holds. -/
def DnsCache.entry (s : DnsCache) (a : Addr) : CStr × InAddr := (s.host a, s.sinAddr a)

theorem cacheRun_concat (calls : List (CStr × InAddr)) (c : CStr × InAddr) :
    cacheRun (calls ++ [c]) = setCache (cacheRun calls) c.1 c.2 := by
  simp [cacheRun]

/-! ## What the cache is for -/

/-- The abstract cache: the last fifty calls, newest first. -/
def recent (calls : List (CStr × InAddr)) : List (CStr × InAddr) := calls.reverse.take 50

/-- The linked list is the abstract cache. -/
structure Refines (s : DnsCache) (calls : List (CStr × InAddr)) : Prop where
  ring : ∃ xs, IsRing s.links cacheQueue xs ∧ xs.map s.entry = recent calls ∧
    s.cacheCount.toNat = xs.length
  find : ∀ host, (findCache s host).map s.sinAddr =
    ((recent calls).find? (fun c => c.1 == host)).map Prod.snd

theorem findCache_of_visits {s : DnsCache} {xs : List Addr} (hv : Visits s.links cacheQueue xs)
    (hlen : xs.length < s.brk) (host : CStr) :
    (findCache s host).map s.sinAddr =
      ((xs.map s.entry).find? (fun c => c.1 == host)).map Prod.snd := by
  rw [findCache, queueFind_of_visits hv hlen, List.find?_map, Option.map_map]
  rfl

/-! ## Up to fifty calls -/

/-- The state after `calls`, while nothing has been evicted. -/
structure Growing (s : DnsCache) (calls : List (CStr × InAddr)) : Prop where
  ring : ∃ xs, IsRing s.links cacheQueue xs ∧ xs.map s.entry = calls.reverse ∧ ∀ a ∈ xs, a < s.brk
  brk : s.brk = calls.length + 1
  count : s.cacheCount.toNat = calls.length

theorem cacheInit_growing : Growing cacheInit [] where
  ring := ⟨[], queueInit_isRing _ _, rfl, by simp⟩
  brk := rfl
  count := rfl

/-- Linking the new node in keeps the list growing; this is all of `set_cache` below the limit. -/
theorem Growing.insert {s : DnsCache} {calls : List (CStr × InAddr)} (hg : Growing s calls)
    (c : CStr × InAddr) (hlen : calls.length < 2 ^ 32 - 1) :
    Growing
      { s with
        brk := s.brk + 1
        host := Function.update s.host s.brk c.1
        sinAddr := Function.update s.sinAddr s.brk c.2
        links := queueInsertHead s.links cacheQueue s.brk
        cacheCount := s.cacheCount + 1 }
      (calls ++ [c]) := by
  obtain ⟨⟨xs, hr, hmap, hlt⟩, hbrk, hcount⟩ := hg
  have hnot : s.brk ∉ xs := fun hm => Nat.lt_irrefl _ (hlt _ hm)
  refine ⟨⟨s.brk :: xs, queueInsertHead_isRing hr ?_, ?_, ?_⟩, by simp [hbrk], ?_⟩
  · rw [List.mem_cons, not_or]
    exact ⟨by rw [hbrk]; simp [cacheQueue], hnot⟩
  · have hold : ∀ a ∈ xs, (Function.update s.host s.brk c.1 a, Function.update s.sinAddr s.brk c.2 a)
        = s.entry a := by
      intro a ha
      have hne : a ≠ s.brk := fun e => hnot (e ▸ ha)
      simp [hne, DnsCache.entry]
    simp only [List.map_cons, DnsCache.entry, Function.update_self, List.reverse_append,
      List.reverse_cons, List.reverse_nil, List.nil_append, List.cons_append, List.cons.injEq]
    refine ⟨trivial, ?_⟩
    rw [← hmap]
    exact List.map_congr_left hold
  · intro a ha
    rcases List.mem_cons.mp ha with rfl | ha
    · exact Nat.lt_succ_self _
    · exact Nat.lt_succ_of_lt (hlt a ha)
  · rw [UInt32.toNat_add, hcount]
    simp
    omega

theorem growing_of_length_le {calls : List (CStr × InAddr)} (h : calls.length ≤ 50) :
    Growing (cacheRun calls) calls := by
  induction calls using List.reverseRecOn with
  | nil => exact cacheInit_growing
  | append_singleton calls c ih =>
      simp only [List.length_append, List.length_cons, List.length_nil] at h
      have hins := (ih (by omega)).insert c (by omega)
      have hcount := hins.count
      rw [cacheRun_concat, setCache]
      simp only
      rw [if_neg ?_]
      · exact hins
      · rw [UInt32.lt_iff_toNat_lt, hcount]
        simp [cacheLimit]
        omega

theorem Growing.refines {s : DnsCache} {calls : List (CStr × InAddr)} (hg : Growing s calls)
    (h : calls.length ≤ 50) : Refines s calls := by
  obtain ⟨⟨xs, hr, hmap, hlt⟩, hbrk, hcount⟩ := hg
  have hlen : xs.length = calls.length := by
    have := congrArg List.length hmap
    simpa using this
  have hrecent : recent calls = calls.reverse := List.take_of_length_le (by simpa using h)
  refine ⟨⟨xs, hr, by rw [hrecent, hmap], by rw [hcount, hlen]⟩, fun host => ?_⟩
  rw [findCache_of_visits hr.visits (by rw [hbrk, hlen]; exact Nat.lt_succ_self _), hmap, hrecent]

/-! ## From the fifty-first call on -/

/-- The links after an eviction: `cache_queue.prev` is a node `b` whose `next` is the oldest node
`a`, and `a` is not the header. -/
structure Stuck (l : Links Addr) (brk a b : Addr) : Prop where
  last : l.prev cacheQueue = b
  skip : l.next b = a
  oldest : a ≠ cacheQueue
  lost : b ≠ cacheQueue
  distinct : a ≠ b
  before : l.prev b ≠ b
  first : l.next cacheQueue ≠ b
  header : l.next cacheQueue ≠ cacheQueue
  allocated : a < brk ∧ b < brk ∧ cacheQueue < brk

theorem Stuck.not_isRing {l : Links Addr} {brk a b : Addr} (hs : Stuck l brk a b) (xs : List Addr) :
    ¬ IsRing l cacheQueue xs := by
  intro hr
  have hback := hr.prev_header
  rw [hs.last, hs.skip] at hback
  exact hs.oldest hback

theorem Stuck.insert {l : Links Addr} {brk a b : Addr} (hs : Stuck l brk a b) :
    Stuck (queueInsertHead l cacheQueue brk) (brk + 1) a b := by
  obtain ⟨ha, hb, hq⟩ := hs.allocated
  have hqb : cacheQueue ≠ brk := Nat.ne_of_lt hq
  have hbb : b ≠ brk := Nat.ne_of_lt hb
  have hprev : (queueInsertHead l cacheQueue brk).prev b = l.prev b := by
    simp [hbb, Ne.symm hs.first]
  exact {
    last := by simp [hqb, Ne.symm hs.header, hs.last]
    skip := by simp [hs.lost, hbb, hs.skip]
    oldest := hs.oldest
    lost := hs.lost
    distinct := hs.distinct
    before := by rw [hprev]; exact hs.before
    first := by simp [Ne.symm hbb]
    header := by simp [Ne.symm hqb]
    allocated := ⟨Nat.lt_succ_of_lt ha, Nat.lt_succ_of_lt hb, Nat.lt_succ_of_lt hq⟩ }

/-- Evicting again unlinks the node that is lost already. -/
theorem Stuck.evict {l : Links Addr} {brk a b : Addr} (hs : Stuck l brk a b) :
    Stuck (queueRemove (queueLast cacheQueue) l) brk a b := by
  have hprev : ∀ z, (queueRemove (queueLast cacheQueue) l).prev z =
      if z = a then l.prev b else l.prev z := by
    intro z
    rw [queueRemove_prev, queueLast, hs.last, hs.skip]
  have hlast : (queueRemove (queueLast cacheQueue) l).prev cacheQueue = b := by
    rw [hprev, if_neg (Ne.symm hs.oldest), hs.last]
  have hbefore : (queueRemove (queueLast cacheQueue) l).prev b = l.prev b := by
    rw [hprev, if_neg (Ne.symm hs.distinct)]
  have hnext : ∀ z, (queueRemove (queueLast cacheQueue) l).next z =
      if z = l.prev b then a else l.next z := by
    intro z
    have hy : queueLast cacheQueue
        (l.setPrev (l.next (queueLast cacheQueue l)) (l.prev (queueLast cacheQueue l))) = b := hlast
    rw [queueRemove_next hy, hbefore, hs.skip]
  exact {
    last := hlast
    skip := by rw [hnext, if_neg (Ne.symm hs.before), hs.skip]
    oldest := hs.oldest
    lost := hs.lost
    distinct := hs.distinct
    before := by rw [hbefore]; exact hs.before
    first := by rw [hnext]; split; exacts [hs.distinct, hs.first]
    header := by rw [hnext]; split; exacts [hs.oldest, hs.header]
    allocated := hs.allocated }

/-- The first eviction, from a ring whose last three members are `c`, `b`, `a`: the second statement
of `queue_remove` sees `b` where the first one saw `a`. -/
theorem stuck_of_first_eviction {l : Links Addr} {brk x c b a : Addr} {xs : List Addr}
    (hr : IsRing l cacheQueue (x :: (xs ++ [c, b, a]))) (ha : a < brk) (hb : b < brk)
    (hq : cacheQueue < brk) : Stuck (queueRemove (queueLast cacheQueue) l) brk a b := by
  have hc := hr.joined
  have hx : l.next cacheQueue = x := by
    rw [List.cons_append, List.isChain_cons_cons] at hc
    exact hc.1.1
  have hsplit : cacheQueue :: (x :: (xs ++ [c, b, a]) ++ [cacheQueue]) =
      (cacheQueue :: x :: xs) ++ c :: b :: [a, cacheQueue] := by simp
  rw [hsplit, List.isChain_append_cons_cons] at hc
  obtain ⟨-, hcb, hrest⟩ := hc
  simp only [List.isChain_cons_cons] at hrest
  obtain ⟨hba, haq, -⟩ := hrest
  have hnd := hr.nodup
  simp only [List.nodup_cons, List.mem_cons, List.mem_append, List.nodup_append, List.not_mem_nil,
    or_false, not_or] at hnd
  obtain ⟨⟨hqx, -, hqc, hqb, hqa⟩, ⟨-, hxc, hxb, -⟩, -, ⟨⟨hcb', -⟩, hba', -⟩, -⟩ := hnd
  have hprev : ∀ z, (queueRemove (queueLast cacheQueue) l).prev z =
      if z = cacheQueue then b else l.prev z := by
    intro z
    rw [queueRemove_prev, queueLast, haq.2, haq.1, hba.2]
  have hlast : (queueRemove (queueLast cacheQueue) l).prev cacheQueue = b := by simp [hprev]
  have hbefore : (queueRemove (queueLast cacheQueue) l).prev b = c := by
    rw [hprev, if_neg (Ne.symm hqb), hcb.2]
  have hnext : ∀ z, (queueRemove (queueLast cacheQueue) l).next z =
      if z = c then a else l.next z := by
    intro z
    have hy : queueLast cacheQueue
        (l.setPrev (l.next (queueLast cacheQueue l)) (l.prev (queueLast cacheQueue l))) = b := hlast
    rw [queueRemove_next hy, hbefore, hba.1]
  have hfirst : (queueRemove (queueLast cacheQueue) l).next cacheQueue = x := by
    rw [hnext, if_neg hqc, hx]
  exact {
    last := hlast
    skip := by rw [hnext, if_neg (Ne.symm hcb'), hba.1]
    oldest := Ne.symm hqa
    lost := Ne.symm hqb
    distinct := Ne.symm hba'
    before := by rw [hbefore]; exact hcb'
    first := by rw [hfirst]; exact hxb
    header := by rw [hfirst]; exact Ne.symm hqx
    allocated := ⟨ha, hb, hq⟩ }

/-- A list of fifty addresses ends in three. -/
theorem exists_last_three {xs : List Addr} (h : xs.length = 50) :
    ∃ ys c b a, xs = ys ++ [c, b, a] := by
  have hl : (xs.drop 47).length = 3 := by simp [h]
  obtain ⟨c, b, a, habc⟩ := List.length_eq_three.mp hl
  exact ⟨xs.take 47, c, b, a, by rw [← habc, List.take_append_drop]⟩

/-- After the limit is passed the links are stuck, whatever is inserted. -/
theorem stuck_of_limit_lt {calls : List (CStr × InAddr)} (h : 50 < calls.length) :
    (∃ a b, Stuck (cacheRun calls).links (cacheRun calls).brk a b) ∧
      (cacheRun calls).cacheCount = cacheLimit := by
  induction calls using List.reverseRecOn with
  | nil => simp at h
  | append_singleton calls c ih =>
      rw [List.length_append, List.length_singleton] at h
      rw [cacheRun_concat, setCache]
      by_cases h50 : calls.length = 50
      · have hg := growing_of_length_le (Nat.le_of_eq h50)
        obtain ⟨⟨xs, hr, hmap, hlt⟩, hbrk, hcount⟩ := hg
        have hcnt : (cacheRun calls).cacheCount = cacheLimit :=
          UInt32.toNat_inj.mp (by rw [hcount, h50]; rfl)
        have hxs : xs.length = 50 := by
          have := congrArg List.length hmap
          simpa [h50] using this
        obtain ⟨ys, c', b, a, rfl⟩ := exists_last_three hxs
        have hnot : (cacheRun calls).brk ∉ ys ++ [c', b, a] :=
          fun hm => Nat.lt_irrefl _ (hlt _ hm)
        have hins := queueInsertHead_isRing hr (x := (cacheRun calls).brk)
          (by rw [List.mem_cons, not_or]; exact ⟨by rw [hbrk]; simp [cacheQueue], hnot⟩)
        have ha : a < (cacheRun calls).brk + 1 := Nat.lt_succ_of_lt (hlt a (by simp))
        have hb : b < (cacheRun calls).brk + 1 := Nat.lt_succ_of_lt (hlt b (by simp))
        have hst := stuck_of_first_eviction hins ha hb (by simp [cacheQueue])
        simp only [hcnt]
        exact ⟨⟨a, b, hst⟩, rfl⟩
      · obtain ⟨⟨a, b, hs⟩, hcnt⟩ := ih (by omega)
        simp only [hcnt]
        exact ⟨⟨a, b, hs.insert.evict⟩, rfl⟩

/-! ## The refinement, exactly -/

/-- The cache list refines the abstract cache exactly while at most fifty calls have been made. -/
theorem cacheRun_refines_iff (calls : List (CStr × InAddr)) :
    Refines (cacheRun calls) calls ↔ calls.length ≤ 50 := by
  constructor
  · intro hr
    by_contra hlt
    obtain ⟨⟨a, b, hs⟩, -⟩ := stuck_of_limit_lt (Nat.lt_of_not_le hlt)
    obtain ⟨xs, hring, -⟩ := hr.ring
    exact hs.not_isRing xs hring
  · exact fun h => (growing_of_length_le h).refines h

/-- Fifty-one calls with different hosts. -/
def fiftyOneCalls : List (CStr × InAddr) :=
  (List.range 51).map fun i => ([i.toUInt8], ⟨10, 0, 0, i.toUInt8⟩)

theorem fiftyOneCalls_not_refines : ¬ Refines (cacheRun fiftyOneCalls) fiftyOneCalls := by
  intro hr
  have hlen : 50 < fiftyOneCalls.length := by decide
  obtain ⟨⟨a, b, hs⟩, -⟩ := stuck_of_limit_lt hlen
  obtain ⟨xs, hring, -⟩ := hr.ring
  exact hs.not_isRing xs hring

end Crawler.Dns
