/-
# Crawler.Dns.Ids — when a transaction id names one query

`dns_query` numbers its queries with a 16-bit counter and looks at no query that is still
outstanding. Nothing else can break the numbering: `IdsIdentify` holds in every state of a run
exactly when each call that links a query draws an id no linked query has (`FreshId`). Up to 65536
calls the counter cannot come round, so those runs are safe whatever is answered or times out; with
one more outstanding query than there are ids, no run is.
-/
import Crawler.Dns.Steps
import Mathlib.Data.List.Nodup

namespace Crawler.Dns

open Crawler.Lib Crawler.Lib.Ring Crawler.Queue Crawler.EventTimer

/-- The linked queries have pairwise different ids, and the id in a query's packet finds it. -/
structure IdsIdentify (s : Resolver) : Prop where
  distinct : ∀ a b qa qb, Linked s a → Linked s b → s.query a = some qa → s.query b = some qb →
    qa.id = qb.id → a = b
  found : ∀ a q, Linked s a → s.query a = some q → findQuery s (raw16 q.pkt 0) = some a

/-- A call of `dns_query` that links a query draws an id no linked query has. -/
def FreshId (s : Resolver) : Action → Prop
  | .query url _ rc _ =>
      url.host.length < dnsUdpSize - dnsHeaderSize → findCache s.cache url.host = none → 0 ≤ rc →
        ¬ Awaited s (s.id + 1)
  | _ => True

/-- The queries in `xs` have pairwise different ids. -/
def DistinctIds (s : Resolver) (xs : List Addr) : Prop :=
  ∀ a b qa qb, a ∈ xs → b ∈ xs → s.query a = some qa → s.query b = some qb → qa.id = qb.id → a = b

/-! ## What a step does to the linked queries -/

/-- The id in the packet is the id of the query. -/
theorem Packed.raw16_eq {q : DnsQuery} (h : Packed q) : (raw16 q.pkt 0).toUInt32 = q.id := by
  obtain ⟨id, hpkt, hid⟩ := h
  have hp : q.pkt = (packUdp (fun _ => 0) id q.url.host).1 := congrArg Prod.fst hpkt
  rw [hp, packUdp_id, hid]

/-- Where the ids are distinct, the search ends at the query with the id. -/
theorem Wellformed.idsIdentify_iff {s : Resolver} {xs : List Addr} (hw : Wellformed s xs) :
    IdsIdentify s ↔ DistinctIds s xs := by
  have hlinked := linked_iff_of_ring hw.ring
  constructor
  · intro h a b qa qb ha hb
    exact h.distinct a b qa qb ((hlinked a).mpr ha) ((hlinked b).mpr hb)
  · intro h
    refine ⟨fun a b qa qb ha hb => h a b qa qb ((hlinked a).mp ha) ((hlinked b).mp hb), ?_⟩
    intro a q ha hq
    have hid := (hw.packed a q hq).raw16_eq
    cases hf : Dns.findQuery s (raw16 q.pkt 0) with
    | none =>
        rw [hw.findQuery_none_iff] at hf
        exact absurd ⟨a, q, ha, hq, hid.symm⟩ hf
    | some b =>
        obtain ⟨hb, qb, hqb, hidb⟩ := hw.findQuery hf
        rw [h b a qb q hb ((hlinked a).mp ha) hqb hq (hidb.trans hid)]

/-- The calls that link a query: everything goes as far as the queue. -/
theorem Wellformed.dnsQuery_creates {s : Resolver} {xs : List Addr} (hw : Wellformed s xs)
    {url : HttpUrl} (handler : Addr) {rc : Int} (now : UInt32)
    (hlen : url.host.length < dnsUdpSize - dnsHeaderSize)
    (hcache : findCache s.cache url.host = none) (hrc : 0 ≤ rc) :
    ∃ s', step s (.query url handler rc now) = .ok s' ∧
      Creates s s' (newQuery (s.id + 1) url handler) ∧ s'.cache = s.cache ∧
      Wellformed s' (xs ++ [s.brk]) := by
  obtain ⟨t, hadd, hnew⟩ := hw.create (s.id + 1) url handler now
  have hstep : step s (.query url handler rc now) = .ok
      { s with
        id := s.id + 1, brk := s.brk + 1
        sent := s.sent ++ [(newQuery (s.id + 1) url handler).packet]
        query := Function.update s.query s.brk (some (newQuery (s.id + 1) url handler))
        timers := t, links := queueInsertTail s.links queryQueue s.brk } := by
    simp only [step, dnsQuery, if_neg (Nat.not_le.mpr hlen), hcache, if_neg (Int.not_lt.mpr hrc),
      Resolver.setQuery, hadd]
    rfl
  exact ⟨_, hstep, ⟨rfl, rfl, rfl, rfl, rfl, rfl⟩, rfl, (hnew _ rfl rfl rfl rfl).1⟩

/-! ## One step -/

/-- An id is awaited when one of the linked queries has it. -/
theorem Wellformed.awaited_iff {s : Resolver} {xs : List Addr} (hw : Wellformed s xs) (id : UInt16) :
    Awaited s id ↔ ∃ a q, a ∈ xs ∧ s.query a = some q ∧ q.id = id.toUInt32 := by
  unfold Awaited
  simp only [linked_iff_of_ring hw.ring]

/-- Queries that keep their ids, and some of which may go, stay distinct. -/
theorem DistinctIds.mono {s s' : Resolver} {xs ys : List Addr} (hd : DistinctIds s xs)
    (hsub : ys ⊆ xs)
    (hid : ∀ a ∈ ys, ∀ q', s'.query a = some q' → ∃ q, s.query a = some q ∧ q'.id = q.id) :
    DistinctIds s' ys := by
  intro a b qa qb ha hb hqa hqb hids
  obtain ⟨pa, hpa, hida⟩ := hid a ha qa hqa
  obtain ⟨pb, hpb, hidb⟩ := hid b hb qb hqb
  exact hd a b pa pb (hsub ha) (hsub hb) hpa hpb (by rw [← hida, ← hidb, hids])

/-- A new query keeps the ids distinct exactly when no linked query has its id. -/
theorem DistinctIds.create_iff {s s' : Resolver} {xs : List Addr} (hw : Wellformed s xs)
    (hd : DistinctIds s xs) {url : HttpUrl} {handler : Addr}
    (h : Creates s s' (newQuery (s.id + 1) url handler)) :
    DistinctIds s' (xs ++ [s.brk]) ↔ ¬ Awaited s (s.id + 1) := by
  have hnew : s'.query s.brk = some (newQuery (s.id + 1) url handler) := by simp [h.query]
  have hold : ∀ a ∈ xs, s'.query a = s.query a := by
    intro a ha
    have hne : a ≠ s.brk := fun e => hw.brk_notMem (e ▸ ha)
    rw [h.query, Function.update_of_ne hne]
  rw [hw.awaited_iff]
  constructor
  · rintro hd' ⟨a, q, ha, hq, hid⟩
    have hsame := hd' a s.brk q _ (List.mem_append_left _ ha) (by simp) ((hold a ha).trans hq) hnew hid
    exact hw.brk_notMem (hsame ▸ ha)
  · intro hfresh a b qa qb ha hb hqa hqb hids
    rcases List.mem_append.mp ha with ha | ha <;> rcases List.mem_append.mp hb with hb | hb
    · exact hd a b qa qb ha hb ((hold a ha).symm.trans hqa) ((hold b hb).symm.trans hqb) hids
    · obtain rfl := List.mem_singleton.mp hb
      obtain rfl := Option.some.inj (hnew.symm.trans hqb)
      exact absurd ⟨a, qa, ha, (hold a ha).symm.trans hqa, hids⟩ hfresh
    · obtain rfl := List.mem_singleton.mp ha
      obtain rfl := Option.some.inj (hnew.symm.trans hqa)
      exact absurd ⟨b, qb, hb, (hold b hb).symm.trans hqb, hids.symm⟩ hfresh
    · rw [List.mem_singleton.mp ha, List.mem_singleton.mp hb]

/-- One step keeps the ids distinct exactly when it links no query with an id in use. -/
theorem Wellformed.step_distinctIds_iff {s s' : Resolver} {xs : List Addr} {act : Action}
    (hw : Wellformed s xs) (hd : DistinctIds s xs) (he : enabled s act) (h : step s act = .ok s') :
    ∃ ys, Wellformed s' ys ∧ (DistinctIds s' ys ↔ FreshId s act) := by
  obtain ⟨ys, hw'⟩ := step_wellformed hw he h
  refine ⟨ys, hw', ⟨fun hd' => ?_, fun hfresh => ?_⟩⟩
  · -- a call that draws an id in use links its query all the same
    cases act with
    | query url handler rc now =>
        intro hlen hcache hrc
        obtain ⟨t, ht, hc, -, -⟩ := hw.dnsQuery_creates handler now hlen hcache hrc
        obtain rfl := Except.ok.inj (ht.symm.trans h)
        rw [hw.after_creates hw' hc] at hd'
        exact (hd.create_iff hw hc).mp hd'
    | datagram => trivial
    | expire => trivial
  · cases step_outcome hw he h with
    | idle heq =>
        subst heq
        rw [hw.after_same hw' rfl]
        exact hd
    | cached _ heq =>
        subst heq
        rw [hw.after_same hw' rfl]
        exact hd
    | unsent _ _ heq =>
        subst heq
        rw [hw.after_same hw' rfl]
        exact hd
    | created hact hlen hcache hrc hc =>
        subst hact
        rw [hw.after_creates hw' hc]
        exact (hd.create_iff hw hc).mpr (hfresh hlen hcache hrc)
    | dropped _ _ hq hdrop =>
        have ha := (hw.live _).mp (by rw [hq]; rfl)
        rw [hw.after_drops hw' ha hdrop]
        refine hd.mono List.erase_subset fun b hb q' hq' => ⟨q', ?_, rfl⟩
        have hne := (hw.nodup.mem_erase_iff.mp hb).1
        rwa [hdrop.query, Function.update_of_ne hne] at hq'
    | @retried a q _ _ hq hretry =>
        rw [hw.after_same hw' hretry.links]
        refine hd.mono (List.Subset.refl _) fun b hb q' hq' => ?_
        rw [hretry.query, Function.update_apply] at hq'
        split at hq'
        case isTrue heq =>
          obtain rfl := Option.some.inj hq'
          exact ⟨q, by rw [heq, hq], rfl⟩
        case isFalse => exact ⟨q', hq', rfl⟩

/-! ## Every run -/

/-- The counter modulo 2^16 after `m` ids were drawn, with every linked query holding one of them. -/
def Numbered (s : Resolver) (xs : List Addr) (m : Nat) : Prop :=
  s.id.toNat = m % 65536 ∧
    ∀ a ∈ xs, ∀ q, s.query a = some q → ∃ i, 1 ≤ i ∧ i ≤ m ∧ q.id.toNat = i % 65536

theorem Numbered.mono {s s' : Resolver} {xs ys : List Addr} {m : Nat} (hn : Numbered s xs m)
    (hid : s'.id = s.id) (hsub : ys ⊆ xs)
    (hids : ∀ a ∈ ys, ∀ q', s'.query a = some q' → ∃ q, s.query a = some q ∧ q'.id = q.id) :
    Numbered s' ys m := by
  refine ⟨by rw [hid]; exact hn.1, fun a ha q' hq' => ?_⟩
  obtain ⟨q, hq, hsame⟩ := hids a ha q' hq'
  rw [hsame]
  exact hn.2 a (hsub ha) q hq

/-- Drawing an id. -/
theorem Numbered.draw {s : Resolver} {xs : List Addr} {m : Nat} (hn : Numbered s xs m) :
    (s.id + 1).toNat = (m + 1) % 65536 := by
  rw [UInt16.toNat_add, hn.1]
  exact Nat.mod_add_mod m 65536 1

/-- Before the counter comes round, the next id is in nobody's hands. -/
theorem Numbered.fresh {s : Resolver} {xs : List Addr} {m : Nat} (hw : Wellformed s xs)
    (hn : Numbered s xs m) (hm : m < 65536) : ¬ Awaited s (s.id + 1) := by
  rw [hw.awaited_iff]
  rintro ⟨a, q, ha, hq, hid⟩
  obtain ⟨i, hi, him, hqi⟩ := hn.2 a ha q hq
  have hnext := hn.draw
  have hnat : q.id.toNat = (s.id + 1).toNat := by
    rw [hid]
    exact UInt16.toNat_toUInt32 _
  omega

/-- A step draws at most one id, and only a call of `dns_query` draws one. -/
theorem Numbered.step {s s' : Resolver} {xs : List Addr} {act : Action} {m : Nat}
    (hw : Wellformed s xs) (hn : Numbered s xs m) (he : enabled s act) (h : step s act = .ok s') :
    ∃ ys m', Wellformed s' ys ∧ Numbered s' ys m' ∧ m' ≤ m + [act].countP Action.isQuery := by
  obtain ⟨ys, hw'⟩ := step_wellformed hw he h
  cases step_outcome hw he h with
  | idle heq =>
      subst heq
      exact ⟨xs, m, hw, hn, Nat.le_add_right _ _⟩
  | cached _ heq =>
      subst heq
      exact ⟨xs, m, hw.congr rfl rfl rfl rfl, hn, Nat.le_add_right _ _⟩
  | unsent hact _ heq =>
      subst heq hact
      obtain rfl := hw.after_same hw' rfl
      refine ⟨ys, m + 1, hw', ⟨hn.draw, fun a ha q hq => ?_⟩, Nat.le_refl _⟩
      obtain ⟨i, hi, him, hqi⟩ := hn.2 a ha q hq
      exact ⟨i, hi, Nat.le_succ_of_le him, hqi⟩
  | created hact _ _ _ hc =>
      subst hact
      obtain rfl := hw.after_creates hw' hc
      refine ⟨_, m + 1, hw', ⟨by rw [hc.id]; exact hn.draw, fun a ha q hq => ?_⟩, Nat.le_refl _⟩
      rw [hc.query, Function.update_apply] at hq
      split at hq
      case isTrue =>
        obtain rfl := Option.some.inj hq
        refine ⟨m + 1, Nat.succ_pos m, Nat.le_refl _, ?_⟩
        rw [← hn.draw]
        exact UInt16.toNat_toUInt32 _
      case isFalse hne =>
        have hold := (List.mem_append.mp ha).resolve_right (by simpa using hne)
        obtain ⟨i, hi, him, hqi⟩ := hn.2 a hold q hq
        exact ⟨i, hi, Nat.le_succ_of_le him, hqi⟩
  | dropped _ _ hq hdrop =>
      obtain rfl := hw.after_drops hw' ((hw.live _).mp (by rw [hq]; rfl)) hdrop
      refine ⟨_, m, hw', hn.mono hdrop.id List.erase_subset ?_, Nat.le_add_right _ _⟩
      intro b hb q' hq'
      rw [hdrop.query, Function.update_of_ne (hw.nodup.mem_erase_iff.mp hb).1] at hq'
      exact ⟨q', hq', rfl⟩
  | @retried a q _ _ hq hretry =>
      obtain rfl := hw.after_same hw' hretry.links
      refine ⟨ys, m, hw', hn.mono hretry.id (List.Subset.refl _) ?_, Nat.le_add_right _ _⟩
      intro b _ q' hq'
      rw [hretry.query, Function.update_apply] at hq'
      split at hq'
      case isTrue heq =>
        obtain rfl := Option.some.inj hq'
        exact ⟨q, by rw [heq, hq], rfl⟩
      case isFalse => exact ⟨q', hq', rfl⟩

theorem run_numbered {as : List Action} {u : Resolver} (hr : Run resolver dnsInit as u) :
    ∃ xs m, Wellformed u xs ∧ Numbered u xs m ∧ m ≤ as.countP Action.isQuery := by
  induction hr with
  | nil => exact ⟨[], 0, dnsInit_wellformed, ⟨rfl, by simp⟩, Nat.le_refl _⟩
  | snoc _ he hs ih =>
      obtain ⟨xs, m, hw, hn, hm⟩ := ih
      obtain ⟨ys, m', hw', hn', hm'⟩ := hn.step hw he (next_eq_some_iff.mp hs)
      refine ⟨ys, m', hw', hn', ?_⟩
      rw [List.countP_append]
      omega

/-- A run of at most 65536 calls draws fresh ids only. -/
theorem run_freshId {as : List Action} (hcount : as.countP Action.isQuery ≤ 65536) :
    EveryStep resolver dnsInit as FreshId := by
  intro pre act t hp hr
  obtain ⟨xs, m, hw, hn, hm⟩ := run_numbered hr
  cases act with
  | query url handler rc now =>
      have hle : pre.countP Action.isQuery + 1 ≤ as.countP Action.isQuery := by
        simpa [Action.isQuery] using hp.sublist.countP_le (p := Action.isQuery)
      exact fun _ _ _ => hn.fresh hw (by omega)
  | datagram => trivial
  | expire => trivial

/-- In a run of the resolver every id names one linked query exactly when every call that links a
query draws an id no linked query has; and runs of at most 65536 calls are such runs. -/
theorem everyState_idsIdentify_iff {as : List Action} {u : Resolver}
    (hrun : Run resolver dnsInit as u) :
    (EveryState resolver dnsInit as IdsIdentify ↔ EveryStep resolver dnsInit as FreshId) ∧
      (as.countP Action.isQuery ≤ 65536 → EveryState resolver dnsInit as IdsIdentify) := by
  have hiff : EveryState resolver dnsInit as IdsIdentify ↔
      EveryStep resolver dnsInit as FreshId := by
    apply everyState_iff hrun (P := fun s => ∃ xs, Wellformed s xs ∧ DistinctIds s xs)
    · exact ⟨[], dnsInit_wellformed, fun a _ _ _ ha => absurd ha List.not_mem_nil⟩
    · rintro s ⟨xs, hw, hd⟩
      exact hw.idsIdentify_iff.mpr hd
    · rintro s act s' ⟨xs, hw, hd⟩ hfresh he hn
      obtain ⟨ys, hw', hiff⟩ := hw.step_distinctIds_iff hd he (next_eq_some_iff.mp hn)
      exact ⟨ys, hw', hiff.mpr hfresh⟩
    · rintro s act s' ⟨xs, hw, hd⟩ hused he hn hids
      obtain ⟨ys, hw', hiff⟩ := hw.step_distinctIds_iff hd he (next_eq_some_iff.mp hn)
      exact hused (hiff.mp (hw'.idsIdentify_iff.mp hids))
  exact ⟨hiff, fun hcount => hiff.mpr (run_freshId hcount)⟩

theorem everyState_idsIdentify_iff_askForA :
    (EveryState resolver dnsInit [askForA] IdsIdentify ↔
        EveryStep resolver dnsInit [askForA] FreshId) ∧
      ([askForA].countP Action.isQuery ≤ 65536 → EveryState resolver dnsInit [askForA] IdsIdentify) :=
  everyState_idsIdentify_iff (u := askedForA) (.snoc .nil trivial rfl)

/-! ## More queries than ids -/

/-- Each of these calls links one more query; none of them is answered. -/
theorem run_askForA (k : Nat) :
    ∃ s xs, Run resolver dnsInit (List.replicate k askForA) s ∧ Wellformed s xs ∧ xs.length = k ∧
      s.cache = cacheInit := by
  induction k with
  | zero => exact ⟨dnsInit, [], .nil, dnsInit_wellformed, rfl, rfl⟩
  | succ k ih =>
      obtain ⟨s, xs, hr, hw, hxs, hcache⟩ := ih
      let url : HttpUrl := ⟨80, [], [97], []⟩
      have hmiss : findCache s.cache url.host = none := by
        rw [hcache]
        rfl
      have hlen : url.host.length < dnsUdpSize - dnsHeaderSize := by decide
      have hrc : (0 : Int) ≤ 19 := by decide
      obtain ⟨s', hs, -, hcache', hw'⟩ := hw.dnsQuery_creates 0 0 hlen hmiss hrc
      refine ⟨s', _, ?_, hw', by simp [hxs], hcache'.trans hcache⟩
      rw [List.replicate_succ']
      exact hr.snoc trivial (next_eq_some_iff.mpr hs)

/-- Queries with pairwise different ids of 16 bits are at most 65536. -/
theorem DistinctIds.length_le {s : Resolver} {xs : List Addr} (hw : Wellformed s xs)
    (hd : DistinctIds s xs) : xs.length ≤ 65536 := by
  have hid : ∀ a ∈ xs, ∃ q, s.query a = some q ∧ q.id.toNat < 65536 := by
    intro a ha
    obtain ⟨q, hq⟩ := hw.exists_query ha
    refine ⟨q, hq, ?_⟩
    rw [← (hw.packed a q hq).raw16_eq, UInt16.toNat_toUInt32]
    exact (raw16 q.pkt 0).toNat_lt
  let idAt : Addr → Nat := fun a => ((s.query a).map fun q => q.id.toNat).getD 0
  have hnodup : (xs.map idAt).Nodup := by
    refine List.Nodup.map_on (fun a ha b hb hab => ?_) hw.nodup
    obtain ⟨qa, hqa, -⟩ := hid a ha
    obtain ⟨qb, hqb, -⟩ := hid b hb
    simp only [idAt, hqa, hqb, Option.map_some, Option.getD_some] at hab
    exact hd a b qa qb ha hb hqa hqb (UInt32.toNat_inj.mp hab)
  have hsub : xs.map idAt ⊆ List.range 65536 := by
    intro i hi
    obtain ⟨a, ha, rfl⟩ := List.mem_map.mp hi
    obtain ⟨q, hq, hlt⟩ := hid a ha
    rw [List.mem_range]
    simpa [idAt, hq] using hlt
  have hle := (hnodup.subperm hsub).length_le
  rwa [List.length_map, List.length_range] at hle

/-- After 65537 calls without an answer two linked queries share an id. -/
theorem askForA_not_idsIdentify :
    ∃ s, Run resolver dnsInit (List.replicate 65537 askForA) s ∧ Reachable resolver s ∧
      ¬ IdsIdentify s := by
  obtain ⟨s, xs, hr, hw, hlen, -⟩ := run_askForA 65537
  refine ⟨s, hr, ⟨dnsInit, _, rfl, hr⟩, fun h => ?_⟩
  have hle := (hw.idsIdentify_iff.mp h).length_le hw
  rw [hlen] at hle
  exact absurd hle (by decide)

end Crawler.Dns
