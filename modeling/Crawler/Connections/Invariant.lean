/-
# Crawler.Connections.Invariant — the free list is quiet

`PoolOk` is the invariant of the pool. Its point is the free list: the events of a slot on it are not
active, not armed and not linked in the timer tree, so `get_connection` may zero them. Every operation
is shown to keep it, and from it follow what callers rely on: a slot is handed out only while it is
free, and no operation ever follows a wild pointer.
-/
import Crawler.Connections.Pool
import Mathlib.Algebra.Group.Int.Defs
import Mathlib.Algebra.Group.Nat.Defs
import Mathlib.Data.List.Nodup
import Mathlib.Data.List.Range

namespace Crawler.Connections

open Crawler.Lib Crawler.EventTimer

/-- The pool with the free list `xs`. -/
structure PoolOk (s : Pool) (xs : List Slot) : Prop where
  chain : Chain pointers (fun i => (s.connections i).data) s.freeConnections xs
  nodup : xs.Nodup
  count : s.freeConnectionN.toNat = xs.length
  free : ∀ i, i ∈ xs ↔ i < s.n ∧ (s.connections i).fd = -1
  size : s.n < 2 ^ 32
  names : ∀ i < s.n,
    (s.connections i).read = some (.read i) ∧ (s.connections i).write = some (.write i)
  timers : Consistent s.events
  linked : ∀ e ∈ s.events.rbtree, Held s e.slot
  active : ∀ e, (s.events.ev e).active = true → Held s e.slot
  owned : ∀ e, Held s e.slot → (s.events.ev e).data = some e.slot

theorem EventRef.eq_of_slot {e : EventRef} {i : Slot} (h : e.slot = i) :
    e = .read i ∨ e = .write i := by
  cases e with
  | read j => exact Or.inl (congrArg EventRef.read h)
  | write j => exact Or.inr (congrArg EventRef.write h)

/-- Nothing can happen on the events of a slot that is not held. -/
theorem PoolOk.quiet {s : Pool} {xs : List Slot} (h : PoolOk s xs) {e : EventRef}
    (he : ¬ Held s e.slot) :
    (s.events.ev e).active = false ∧ (s.events.ev e).timerSet = false ∧ e ∉ s.events.rbtree := by
  have hnot : e ∉ s.events.rbtree := fun hm => he (h.linked e hm)
  refine ⟨?_, ?_, hnot⟩
  · exact Bool.eq_false_iff.mpr fun ha => he (h.active e ha)
  · exact Bool.eq_false_iff.mpr fun hs => hnot ((h.timers.set_iff e).mp hs)

/-- The memory determines the free list. -/
theorem PoolOk.unique {s : Pool} {xs ys : List Slot} (h : PoolOk s xs) (h' : PoolOk s ys) : xs = ys :=
  h.chain.unique h'.chain

/-! ## `connection_init` -/

/-- A slot as `connection_init` leaves it, up to its link word. -/
def Fresh (c : Connection) (i : Slot) : Prop :=
  c.read = some (.read i) ∧ c.write = some (.write i) ∧ c.fd = -1

/-- The loop links the slots below `i` in front of the list it is given. -/
theorem initSlots_chain (i : Nat) {next : Ptr} {c : Slot → Connection} {ys : List Slot}
    (hc : Chain pointers (fun j => (c j).data) next ys) (hys : ∀ j ∈ ys, i ≤ j) :
    Chain pointers (fun j => ((initSlots i next c).2 j).data) (initSlots i next c).1
        (List.range i ++ ys) ∧
      (∀ j < i, Fresh ((initSlots i next c).2 j) j) ∧
      ∀ j, i ≤ j → (initSlots i next c).2 j = c j := by
  induction i generalizing next c ys with
  | zero => exact ⟨hc, fun j hj => absurd hj (Nat.not_lt_zero j), fun _ _ => rfl⟩
  | succ i ih =>
      have hi : i ∉ ys := fun hm => Nat.not_succ_le_self i (hys i hm)
      have hpush : Chain pointers
          (fun j => (Function.update c i
            { data := next, read := some (.read i), write := some (.write i), fd := -1 } j).data)
          (.conn i) (i :: ys) := by
        have h := hc.push hi
        refine h.frame fun j _ => ?_
        by_cases hj : j = i
        · simp [hj]
        · simp [hj]
      obtain ⟨hchain, hbelow, habove⟩ := ih hpush (by
        intro j hj
        rcases List.mem_cons.mp hj with rfl | hj
        · exact Nat.le_refl _
        · exact Nat.le_of_succ_le (hys j hj))
      rw [initSlots]
      refine ⟨?_, fun j hj => ?_, fun j hj => ?_⟩
      · simpa [List.range_succ] using hchain
      · by_cases hji : j < i
        · exact hbelow j hji
        · obtain rfl : j = i := Nat.le_antisymm (Nat.le_of_lt_succ hj) (Nat.not_lt.mp hji)
          rw [habove j (Nat.le_refl _), Function.update_self]
          exact ⟨rfl, rfl, rfl⟩
      · rw [habove j (Nat.le_of_succ_le hj), Function.update_of_ne (Nat.ne_of_gt hj)]

/-- The value of the `int` made from `n`. -/
theorem toInt_toInt32 (n : UInt32) : n.toInt32.toInt =
    if 2 * n.toNat < 2 ^ 32 then (n.toNat : Int) else (n.toNat : Int) - 2 ^ 32 := by
  rw [← Int32.toInt_toBitVec, UInt32.toBitVec_toInt32, BitVec.toInt_eq_toNat_cond]
  rfl

theorem toInt32_le_zero_iff (n : UInt32) : n.toInt32 ≤ 0 ↔ n.toNat = 0 ∨ 2 ^ 31 ≤ n.toNat := by
  have hint := toInt_toInt32 n
  have hlt := n.toNat_lt
  rw [Int32.le_iff_toInt_le, Int32.toInt_zero]
  split at hint <;> omega

/-- An `int` made from `n` that is positive is `n`. -/
theorem toNatClampNeg_toInt32 {n : UInt32} (h : ¬ n.toInt32 ≤ 0) :
    n.toInt32.toNatClampNeg = n.toNat := by
  have hint := toInt_toInt32 n
  have hlt := n.toNat_lt
  rw [toInt32_le_zero_iff] at h
  rw [← Int32.toNat_toInt]
  split at hint <;> omega

/-- `connection_init` stays inside its arrays for every positive `n` that an `int` holds. -/
theorem connectionInit_isSome_iff (n : UInt32) :
    (connectionInit n).isSome ↔ 0 < n.toNat ∧ n.toNat < 2 ^ 31 := by
  have hiff := toInt32_le_zero_iff n
  rw [connectionInit]
  split
  case isTrue hle =>
    have hnot := hiff.mp hle
    simp
    omega
  case isFalse hle =>
    have hpos : ¬ (n.toNat = 0 ∨ 2 ^ 31 ≤ n.toNat) := fun h => hle (hiff.mpr h)
    simp
    omega

theorem connectionInit_ok {n : UInt32} {s : Pool} (h : connectionInit n = some s) :
    PoolOk s (List.range s.n) := by
  rw [connectionInit] at h
  split at h
  case isTrue => cases h
  case isFalse hpos =>
    rw [toNatClampNeg_toInt32 hpos] at h
    have hnil : Chain pointers (fun j => ((fun _ => {} : Slot → Connection) j).data) .null [] := .nil
    obtain ⟨hchain, hslots, -⟩ := initSlots_chain n.toNat hnil (by simp)
    obtain rfl := Option.some.inj h
    refine ⟨by simpa using hchain, List.nodup_range, by simp, fun i => ?_, n.toNat_lt,
      fun i hi => ⟨(hslots i hi).1, (hslots i hi).2.1⟩, ⟨by simp, by simp⟩, by simp, by simp,
      fun e he => absurd (hslots e.slot he.1).2.2 he.2⟩
    simp only [List.mem_range, iff_self_and]
    exact fun hi => (hslots i hi).2.2

/-! ## The operations on events -/

/-- Changing the events of held connections keeps the pool, as long as their `data` stays. -/
theorem PoolOk.withEvents {s : Pool} {xs : List Slot} (h : PoolOk s xs) {t : Timers EventRef}
    (hc : Consistent t) (hlinked : ∀ e ∈ t.rbtree, Held s e.slot)
    (hactive : ∀ e, (t.ev e).active = true → Held s e.slot)
    (hdata : ∀ e, (t.ev e).data = (s.events.ev e).data) : PoolOk { s with events := t } xs where
  chain := h.chain
  nodup := h.nodup
  count := h.count
  free := h.free
  size := h.size
  names := h.names
  timers := hc
  linked := hlinked
  active := hactive
  owned := fun e he => (hdata e).trans (h.owned e he)

/-- A timer operation on event `e`, which links it only when its connection is held. -/
theorem PoolOk.affects {s : Pool} {xs : List Slot} (h : PoolOk s xs) {t : Timers EventRef}
    {e : EventRef} {linked : Prop} (hc : Consistent t) (haff : Affects s.events t e linked)
    (he : linked → Held s e.slot) : PoolOk { s with events := t } xs := by
  refine h.withEvents hc (fun e' hm => ?_) (fun e' ha => ?_) fun e' => ?_
  · by_cases hee : e' = e
    · subst hee; exact he (haff.self.mp hm)
    · exact h.linked e' ((haff.other_mem e' hee).mp hm)
  · by_cases hee : e' = e
    · subst hee; exact h.active e' (haff.active ▸ ha)
    · exact h.active e' (haff.other_ev e' hee ▸ ha)
  · by_cases hee : e' = e
    · subst hee; exact haff.data
    · rw [haff.other_ev e' hee]

/-- Overwriting an event, its `data` and its timer left as they are. -/
theorem PoolOk.setEvent {s : Pool} {xs : List Slot} (h : PoolOk s xs) {e : EventRef} {v : Event}
    (hdata : v.data = (s.events.ev e).data) (hset : v.timerSet = (s.events.ev e).timerSet)
    (hactive : v.active = true → Held s e.slot) : PoolOk (s.setEvent e v) xs := by
  refine h.withEvents (h.timers.set hset) h.linked (fun e' ha => ?_) fun e' => ?_
  · rw [Timers.set_ev] at ha
    split at ha
    case isTrue hee => subst hee; exact hactive ha
    case isFalse => exact h.active e' ha
  · rw [Timers.set_ev]
    split
    case isTrue hee => rw [hee, hdata]
    case isFalse => rfl

theorem PoolOk.setActive {s : Pool} {xs : List Slot} (h : PoolOk s xs) {e : EventRef} {active : Bool}
    (he : active = true → Held s e.slot) : PoolOk (s.setActive e active) xs :=
  h.setEvent rfl rfl he

/-- The other half of a held connection is one of its events. -/
theorem PoolOk.otherHalf {s : Pool} {xs : List Slot} (h : PoolOk s xs) {i : Slot} (hi : i < s.n)
    (event : IoEvent) : ∃ e prev, otherHalf (s.connections i) event = (some e, prev) := by
  obtain ⟨hread, hwrite⟩ := h.names i hi
  cases event with
  | read => exact ⟨_, _, by rw [Connections.otherHalf, hwrite]⟩
  | write => exact ⟨_, _, by rw [Connections.otherHalf, hread]⟩

/-- What is recorded of the calls to the kernel matters to no one. -/
theorem PoolOk.ask {s : Pool} {xs : List Slot} (h : PoolOk s xs) (call : KernelCall) :
    PoolOk (s.ask call) xs :=
  ⟨h.chain, h.nodup, h.count, h.free, h.size, h.names, h.timers, h.linked, h.active, h.owned⟩

/-- `event_add` sets `active`, and changes nothing when `epoll_ctl` fails. -/
theorem PoolOk.eventAdd {s : Pool} {xs : List Slot} (h : PoolOk s xs) {e : EventRef}
    (he : Held s e.slot) (event : IoEvent) (flags : UInt32) (ctl : EpollCtl → Int) :
    ∃ req, eventAdd s e event flags ctl =
      some (if ctl req = -1 then (-1, s.ask (.ctl req e.slot (ctl req)))
        else (0, (s.ask (.ctl req e.slot (ctl req))).setActive e true)) := by
  obtain ⟨other, prev, hother⟩ := h.otherHalf he.1 event
  simp only [Connections.eventAdd, h.owned e he, hother, Option.bind_eq_bind, Option.bind_some]
  generalize (if (s.events.ev other).active = true then _ else _ : EpollCtl) = req
  refine ⟨req, ?_⟩
  split <;> rfl

/-- `event_del` clears `active`, and changes nothing when `epoll_ctl` fails. With `CLOSE_EVENT` it calls
nothing. -/
theorem PoolOk.eventDel {s : Pool} {xs : List Slot} (h : PoolOk s xs) {e : EventRef}
    (he : Held s e.slot) (event : IoEvent) (flags : UInt32) (ctl : EpollCtl → Int) :
    ∃ req, eventDel s e event flags ctl =
      some (if flags &&& closeEvent ≠ 0 then (0, s.setActive e false)
        else if ctl req = -1 then (-1, s.ask (.ctl req e.slot (ctl req)))
        else (0, (s.ask (.ctl req e.slot (ctl req))).setActive e false)) := by
  obtain ⟨other, prev, hother⟩ := h.otherHalf he.1 event
  rw [Connections.eventDel]
  by_cases hclose : flags &&& closeEvent ≠ 0
  · exact ⟨⟨.del, 0, 0⟩, by rw [if_pos hclose, if_pos hclose]⟩
  · simp only [if_neg hclose, h.owned e he, hother, Option.bind_eq_bind, Option.bind_some]
    generalize (if (s.events.ev other).active = true then _ else _ : EpollCtl) = req
    refine ⟨req, ?_⟩
    split <;> rfl

/-! ## `get_connection` -/

@[simp] theorem handOut_n (s : Pool) (c : Slot) (rev wev : EventRef) (fd : Int) :
    (s.handOut c rev wev fd).n = s.n := rfl

@[simp] theorem handOut_freeConnectionN (s : Pool) (c : Slot) (rev wev : EventRef) (fd : Int) :
    (s.handOut c rev wev fd).freeConnectionN = s.freeConnectionN - 1 := rfl

@[simp] theorem handOut_connections (s : Pool) (c : Slot) (rev wev : EventRef) (fd : Int) (i : Slot) :
    (s.handOut c rev wev fd).connections i =
      if i = c then { data := .null, read := some rev, write := some wev, fd := fd }
      else s.connections i := by
  simp [Pool.handOut, Pool.setEvent, Pool.setConn, Function.update_apply]

@[simp] theorem handOut_ev (s : Pool) (c : Slot) (rev wev : EventRef) (fd : Int) (e : EventRef) :
    (s.handOut c rev wev fd).events.ev e =
      if e = rev ∨ e = wev then { data := some c } else s.events.ev e := by
  by_cases hw : e = wev
  · simp [Pool.handOut, Pool.setEvent, Pool.setConn, hw]
  · simp [Pool.handOut, Pool.setEvent, Pool.setConn, hw]

/-- Which slots are held after one is handed out. -/
theorem handOut_held (s : Pool) {c : Slot} (rev wev : EventRef) {fd : Int} (hc : c < s.n)
    (hfd : 0 ≤ fd) (i : Slot) : Held (s.handOut c rev wev fd) i ↔ i = c ∨ Held s i := by
  rw [Held, Held, handOut_connections]
  by_cases hi : i = c
  · subst hi
    have hne : fd ≠ -1 := by omega
    simpa [hne] using hc
  · simp [hi]

/-- Handing out the first slot of the list: it was free, so its events may be zeroed. -/
theorem PoolOk.handOut {s : Pool} {c : Slot} {ys : List Slot} (h : PoolOk s (c :: ys))
    (hys : Chain pointers (fun i => (s.connections i).data) (s.connections c).data ys) {fd : Int}
    (hfd : 0 ≤ fd) : PoolOk (s.handOut c (.read c) (.write c) fd) ys := by
  obtain ⟨hcn, hcfd⟩ := (h.free c).mp (by simp)
  obtain ⟨hcys, hnd⟩ := List.nodup_cons.mp h.nodup
  have hidle : ¬ Held s c := fun hheld => hheld.2 hcfd
  have hread := h.quiet (e := .read c) hidle
  have hwrite := h.quiet (e := .write c) hidle
  have hheld := handOut_held s (.read c) (.write c) hcn hfd
  have hown : ∀ e : EventRef, e = .read c ∨ e = .write c ↔ e.slot = c :=
    fun e => ⟨by rintro (rfl | rfl) <;> rfl, EventRef.eq_of_slot⟩
  refine ⟨?_, hnd, ?_, fun i => ?_, h.size, fun i hi => ?_, ?_, fun e he => ?_, fun e he => ?_,
    fun e he => ?_⟩
  · refine hys.frame fun a ha => ?_
    have hac : a ≠ c := fun e => hcys (e ▸ ha)
    simp [hac]
  · have hone : (1 : UInt32) ≤ s.freeConnectionN := by
      rw [UInt32.le_iff_toNat_le, h.count]
      simp
    have hsub := UInt32.toNat_sub_of_le _ _ hone
    rw [h.count] at hsub
    simpa using hsub
  · by_cases hi : i = c
    · subst hi
      have hne : fd ≠ -1 := by omega
      simp [hcys, hne]
    · rw [handOut_connections, if_neg hi]
      simpa [hi] using h.free i
  · rw [handOut_connections]
    split
    case isTrue hic => subst hic; exact ⟨rfl, rfl⟩
    case isFalse => exact h.names i hi
  · have h₁ : Consistent (s.events.set (.read c) { data := some c }) :=
      h.timers.set (by simp [hread.2.1])
    exact h₁.set (by simp [hwrite.2.1])
  · exact (hheld e.slot).mpr (Or.inr (h.linked e he))
  · rw [handOut_ev] at he
    split at he
    case isTrue => cases he
    case isFalse => exact (hheld e.slot).mpr (Or.inr (h.active e he))
  · rw [handOut_ev]
    by_cases hec : e.slot = c
    · rw [if_pos ((hown e).mpr hec), hec]
    · rw [if_neg (fun hor => hec ((hown e).mp hor))]
      exact h.owned e (((hheld e.slot).mp he).resolve_left hec)

/-- `get_connection` hands out the first slot of the list, and NULL when there is none. -/
theorem PoolOk.getConnection {s : Pool} {xs : List Slot} (h : PoolOk s xs) {fd : Int} (hfd : 0 ≤ fd) :
    (xs = [] ∧ getConnection s fd = some (none, s)) ∨
      ∃ c ys, xs = c :: ys ∧
        getConnection s fd = some (some c, s.handOut c (.read c) (.write c) fd) ∧
        PoolOk (s.handOut c (.read c) (.write c) fd) ys ∧
        Held (s.handOut c (.read c) (.write c) fd) c := by
  rcases h.chain.start with ⟨hp, rfl⟩ | ⟨c, ys, hp, rfl, hys⟩
  · refine Or.inl ⟨rfl, ?_⟩
    rw [Connections.getConnection, hp]
    rfl
  · obtain ⟨hcn, -⟩ := (h.free c).mp (by simp)
    obtain ⟨hread, hwrite⟩ := h.names c hcn
    refine Or.inr ⟨c, ys, rfl, ?_, h.handOut hys hfd,
      (handOut_held s _ _ hcn hfd c).mpr (Or.inl rfl)⟩
    rw [Connections.getConnection, hp]
    simp [pointers, hread, hwrite]

/-! ## `close_connection` -/

theorem PoolOk.closeActive {s : Pool} {xs : List Slot} (h : PoolOk s xs) (e : EventRef) :
    ∃ t, closeActive s e = some { s with events := t } ∧ PoolOk { s with events := t } xs ∧
      t.rbtree = s.events.rbtree ∧ (t.ev e).active = false ∧
      ∀ e', (t.ev e').active = true → (s.events.ev e').active = true := by
  rw [Connections.closeActive]
  split
  case isTrue =>
    refine ⟨s.events.set e { s.events.ev e with active := false }, ?_, h.setActive (by simp), rfl,
      by simp, fun e' ha => ?_⟩
    · simp [Connections.eventDel, closeEvent, Pool.setActive, Pool.setEvent]
    · rw [Timers.set_ev] at ha
      split at ha
      case isTrue => cases ha
      case isFalse => exact ha
  case isFalse hoff => exact ⟨s.events, rfl, h, rfl, Bool.eq_false_iff.mpr hoff, fun _ => id⟩

theorem PoolOk.closeTimer {s : Pool} {xs : List Slot} (h : PoolOk s xs) (e : EventRef) :
    ∃ t, closeTimer s e = some { s with events := t } ∧ PoolOk { s with events := t } xs ∧
      (∀ e', e' ∈ t.rbtree ↔ e' ≠ e ∧ e' ∈ s.events.rbtree) ∧
      ∀ e', (t.ev e').active = (s.events.ev e').active := by
  rw [Connections.closeTimer]
  split
  case isTrue hset =>
    have hm := (h.timers.set_iff e).mp hset
    obtain ⟨t, hdel, hc, haff⟩ := h.timers.eventDelTimer hm
    refine ⟨t, by simp [Pool.withTimers, hdel], h.affects hc haff (fun hf => hf.elim),
      haff.mem_iff_of_unlinked, fun e' => ?_⟩
    by_cases hee : e' = e
    · subst hee; exact haff.active
    · rw [haff.other_ev e' hee]
  case isFalse hset =>
    have hm : e ∉ s.events.rbtree := fun hm => hset ((h.timers.set_iff e).mpr hm)
    refine ⟨s.events, rfl, h, fun e' => ⟨fun he' => ⟨fun hee => hm (hee ▸ he'), he'⟩, And.right⟩,
      fun _ => rfl⟩

/-- The end of `close_connection`: link the slot into the list and mark it free. -/
def Pool.release (s : Pool) (c : Slot) : Pool :=
  let s := freeConnection s c
  s.setConn c { s.connections c with fd := -1 }

/-- A held slot whose events are quiet may be released. -/
theorem PoolOk.release {s : Pool} {xs : List Slot} (h : PoolOk s xs) {c : Slot} (hc : Held s c)
    (hactive : ∀ e : EventRef, e.slot = c → (s.events.ev e).active = false)
    (hlinked : ∀ e : EventRef, e.slot = c → e ∉ s.events.rbtree) : PoolOk (s.release c) (c :: xs) := by
  have hcxs : c ∉ xs := fun hm => hc.2 ((h.free c).mp hm).2
  have hnd : (c :: xs).Nodup := List.nodup_cons.mpr ⟨hcxs, h.nodup⟩
  have hconn : ∀ i, (s.release c).connections i =
      if i = c then { s.connections c with data := s.freeConnections, fd := -1 }
      else s.connections i := by
    intro i
    by_cases hi : i = c <;> simp [Pool.release, freeConnection, Pool.setConn, hi]
  have hheld : ∀ i, Held (s.release c) i ↔ i ≠ c ∧ Held s i := by
    intro i
    rw [Held, Held, hconn]
    by_cases hi : i = c
    · simp [hi]
    · simp only [hi, ne_eq, not_false_eq_true, true_and]
      rfl
  have hfree : ∀ i, i ∈ c :: xs ↔ i < s.n ∧ ((s.release c).connections i).fd = -1 := by
    intro i
    rw [hconn]
    by_cases hi : i = c
    · subst hi
      simpa using hc.1
    · simpa [hi] using h.free i
  refine ⟨?_, hnd, ?_, hfree, h.size, fun i hi => ?_, h.timers, fun e he => ?_, fun e he => ?_,
    fun e he => ?_⟩
  · refine (h.chain.push hcxs).frame fun a _ => ?_
    simp only [hconn]
    by_cases ha : a = c <;> simp [ha]
  · -- the counter does not wrap: all members are below `n`
    have hsub : c :: xs ⊆ List.range s.n := fun i hi => List.mem_range.mpr ((hfree i).mp hi).1
    have hlen : xs.length + 1 ≤ s.n := by simpa using hnd.length_le_of_subset hsub
    have hsize := h.size
    change (s.freeConnectionN + 1).toNat = _
    rw [UInt32.toNat_add, h.count, List.length_cons, show (1 : UInt32).toNat = 1 from rfl]
    omega
  · rw [hconn]
    split
    case isTrue hic => subst hic; exact h.names i hi
    case isFalse => exact h.names i hi
  · exact (hheld e.slot).mpr ⟨fun hec => hlinked e hec he, h.linked e he⟩
  · refine (hheld e.slot).mpr ⟨fun hec => ?_, h.active e he⟩
    have hoff := hactive e hec
    rw [show (s.events.ev e).active = true from he] at hoff
    cases hoff
  · exact h.owned e ((hheld e.slot).mp he).2

/-- What `close_connection` leaves alone on its way: everything but the events of `c`. -/
theorem closeActive_other {s s' : Pool} {e : EventRef} (h : closeActive s e = some s') :
    s' = { s with events := s'.events } ∧ ∀ e', e' ≠ e → s'.events.ev e' = s.events.ev e' := by
  rw [closeActive] at h
  split at h
  case isTrue =>
    have hs' : s.setActive e false = s' := by
      simpa [Connections.eventDel, closeEvent] using h
    subst hs'
    refine ⟨rfl, fun e' he' => ?_⟩
    simp [Pool.setActive, Pool.setEvent, he']
  case isFalse =>
    obtain rfl := Option.some.inj h
    exact ⟨rfl, fun _ _ => rfl⟩

theorem closeTimer_other {s s' : Pool} {xs : List Slot} (hok : PoolOk s xs) {e : EventRef}
    (h : closeTimer s e = some s') :
    s' = { s with events := s'.events } ∧ ∀ e', e' ≠ e → s'.events.ev e' = s.events.ev e' := by
  rw [closeTimer] at h
  split at h
  case isTrue hset =>
    obtain ⟨t, hdel, -, haff⟩ := hok.timers.eventDelTimer ((hok.timers.set_iff e).mp hset)
    rw [Pool.withTimers, hdel, Option.map_some] at h
    obtain rfl := Option.some.inj h
    exact ⟨rfl, haff.other_ev⟩
  case isFalse =>
    obtain rfl := Option.some.inj h
    exact ⟨rfl, fun _ _ => rfl⟩

/-- What `close_connection` does to a pool in which it puts slot `c` on the free list `xs`. -/
structure Closes (c : Slot) (xs : List Slot) (s s' : Pool) : Prop where
  ok : PoolOk s' (c :: xs)
  n : s'.n = s.n
  closed : (s'.connections c).fd = -1
  other : ∀ i, i ≠ c → s'.connections i = s.connections i
  ev : ∀ e : EventRef, e.slot ≠ c → s'.events.ev e = s.events.ev e
  asked : s'.asked = s.asked ++ [.close (s.connections c).fd]

/-- `close_connection` puts a held slot on the list, its events quiet, and touches no other. -/
theorem PoolOk.closeHeld {s : Pool} {xs : List Slot} (h : PoolOk s xs) {c : Slot} (hc : Held s c) :
    ∃ s', closeConnection s c = some s' ∧ Closes c xs s s' := by
  obtain ⟨hread, hwrite⟩ := h.names c hc.1
  obtain ⟨t₁, h₁, hok₁, htree₁, hoff₁, hact₁⟩ := h.closeActive (.read c)
  obtain ⟨t₂, h₂, hok₂, htree₂, hoff₂, hact₂⟩ := hok₁.closeActive (.write c)
  obtain ⟨t₃, h₃, hok₃, hmem₃, hact₃⟩ := hok₂.closeTimer (.read c)
  obtain ⟨t₄, h₄, hok₄, hmem₄, hact₄⟩ := hok₃.closeTimer (.write c)
  refine ⟨(({ s with events := t₄ } : Pool).release c).ask (.close (s.connections c).fd), ?_,
    (hok₄.release hc (fun e he => ?_) fun e he hm => ?_).ask _, rfl, ?_, fun i hi => ?_, fun e he => ?_, rfl⟩
  · rw [Connections.closeConnection, if_neg hc.2]
    simp only [hread, hwrite, h₁, h₂, h₃, h₄, Option.bind_eq_bind, Option.bind_some]
    simp [Pool.release, freeConnection, Pool.setConn, Pool.ask]
  · rw [hact₄, hact₃]
    rcases EventRef.eq_of_slot he with rfl | rfl
    · by_contra hon
      have := hact₂ _ (Bool.not_eq_false _ ▸ hon)
      rw [hoff₁] at this
      cases this
    · exact hoff₂
  · rw [hmem₄, hmem₃] at hm
    rcases EventRef.eq_of_slot he with rfl | rfl
    · exact hm.2.1 rfl
    · exact hm.1 rfl
  · simp [Pool.release, freeConnection, Pool.setConn, Pool.ask]
  · simp [Pool.release, freeConnection, Pool.setConn, Pool.ask, hi]
  · have hr : e ≠ .read c := fun heq => he (heq ▸ rfl)
    have hw : e ≠ .write c := fun heq => he (heq ▸ rfl)
    have he₁ := (closeActive_other h₁).2 e hr
    have he₂ := (closeActive_other h₂).2 e hw
    have he₃ := (closeTimer_other hok₂ h₃).2 e hr
    have he₄ := (closeTimer_other hok₃ h₄).2 e hw
    exact he₄.trans (he₃.trans (he₂.trans he₁))

/-- `close_connection` leaves a free slot alone and puts a held one on the list. -/
theorem PoolOk.closeConnection {s : Pool} {xs : List Slot} (h : PoolOk s xs) {c : Slot}
    (hc : c < s.n) : ∃ s' xs', closeConnection s c = some s' ∧ PoolOk s' xs' := by
  by_cases hfd : (s.connections c).fd = -1
  · exact ⟨s, xs, by rw [Connections.closeConnection, if_pos hfd], h⟩
  · obtain ⟨s', hclose, hcl⟩ := h.closeHeld ⟨hc, hfd⟩
    exact ⟨s', _, hclose, hcl.ok⟩

/-- The owner of a held slot may write its data word. -/
theorem PoolOk.setOwner {s : Pool} {xs : List Slot} (h : PoolOk s xs) {i : Slot} (hi : Held s i)
    (o : Addr) : PoolOk (s.setConn i { s.connections i with data := .owner o }) xs := by
  have hixs : i ∉ xs := fun hm => hi.2 ((h.free i).mp hm).2
  have hconn : ∀ j, (Function.update s.connections i { s.connections i with data := .owner o } j).fd
      = (s.connections j).fd := by
    intro j
    by_cases hj : j = i <;> simp [hj]
  have hheld : ∀ j, Held (s.setConn i { s.connections i with data := .owner o }) j ↔ Held s j := by
    intro j
    rw [Held, Held, Pool.setConn, hconn]
  refine ⟨h.chain.frame fun a ha => ?_, h.nodup, h.count, fun j => ?_, h.size, fun j hj => ?_,
    h.timers, fun e hm => (hheld _).mpr (h.linked e hm), fun e ha => (hheld _).mpr (h.active e ha),
    fun e hm => h.owned e ((hheld _).mp hm)⟩
  · have hai : a ≠ i := fun hai => hixs (hai ▸ ha)
    simp [Pool.setConn, hai]
  · simp only [Pool.setConn, hconn]
    exact h.free j
  · by_cases hji : j = i
    · subst hji
      simpa [Pool.setConn] using h.names j hj
    · simpa [Pool.setConn, hji] using h.names j hj

/-! ## Every run -/

/-- Every operation that may be made in a pool with a good free list is carried out, and leaves a
pool with a good free list. -/
theorem PoolOk.step {s : Pool} {xs : List Slot} (h : PoolOk s xs) {act : Action}
    (he : enabled s act) : ∃ s' xs', step s act = some s' ∧ PoolOk s' xs' := by
  cases act with
  | getConnection fd =>
      rcases h.getConnection he with ⟨-, hget⟩ | ⟨c, ys, -, hget, hok, -⟩
      · exact ⟨s, xs, by simp [Connections.step, hget], h⟩
      · exact ⟨_, ys, by simp [Connections.step, hget], hok⟩
  | eventAdd e event flags ctl =>
      obtain ⟨req, hadd⟩ := h.eventAdd he event flags ctl
      refine ⟨_, xs, by rw [Connections.step, hadd, Option.map_some], ?_⟩
      split
      · exact h.ask _
      · exact (h.ask _).setActive fun _ => he
  | eventDel e event flags ctl =>
      obtain ⟨req, hdel⟩ := h.eventDel he event flags ctl
      refine ⟨_, xs, by rw [Connections.step, hdel, Option.map_some], ?_⟩
      split_ifs
      · exact h.setActive (by simp)
      · exact h.ask _
      · exact (h.ask _).setActive (by simp)
  | addTimer e now timer =>
      obtain ⟨t, hadd, hc, haff⟩ := h.timers.eventAddTimer now e timer
      exact ⟨_, xs, by simp only [Connections.step, Pool.withTimers, hadd, Option.map_some],
        h.affects hc haff fun _ => he⟩
  | delTimer e =>
      obtain ⟨t, hdel, hc, haff⟩ := h.timers.eventDelTimer ((h.timers.set_iff e).mp he.2)
      exact ⟨_, xs, by simp only [Connections.step, Pool.withTimers, hdel, Option.map_some],
        h.affects hc haff fun hf => hf.elim⟩
  | setOwner i o => exact ⟨_, xs, rfl, h.setOwner he o⟩
  | fire e now =>
      obtain ⟨t, hexp, hc, haff⟩ := h.timers.expireTimer he.1
      exact ⟨_, xs, by simp only [Connections.step, Pool.withTimers, hexp, Option.map_some],
        h.affects hc haff fun hf => hf.elim⟩
  | closeConnection i =>
      obtain ⟨s', xs', hclose, hok⟩ := h.closeConnection he
      exact ⟨s', xs', hclose, hok⟩

/-- The pool and the timers are consistent. -/
structure Sound (s : Pool) : Prop where
  freeList : ∃ xs, Chain pointers (fun i => (s.connections i).data) s.freeConnections xs ∧ xs.Nodup ∧
    xs.length = s.freeConnectionN.toNat ∧ ∀ i, i ∈ xs ↔ i < s.n ∧ (s.connections i).fd = -1
  names : ∀ i < s.n,
    (s.connections i).read = some (.read i) ∧ (s.connections i).write = some (.write i)
  quiet : ∀ e : EventRef, ¬ Held s e.slot →
    (s.events.ev e).active = false ∧ (s.events.ev e).timerSet = false ∧ e ∉ s.events.rbtree
  handsOutFree : ∀ fd c s', 0 ≤ fd → getConnection s fd = some (some c, s') →
    ¬ Held s c ∧ Held s' c ∧ ∀ e : EventRef, e.slot = c → e ∉ s.events.rbtree
  neverStuck : ∀ act, enabled s act → (step s act).isSome

theorem PoolOk.sound {s : Pool} {xs : List Slot} (h : PoolOk s xs) : Sound s where
  freeList := ⟨xs, h.chain, h.nodup, h.count.symm, h.free⟩
  names := h.names
  quiet := fun _ he => h.quiet he
  handsOutFree := by
    intro fd c s' hfd hget
    rcases h.getConnection hfd with ⟨-, hnone⟩ | ⟨c', ys, rfl, hsome, -, hheld⟩
    · rw [hnone] at hget
      cases hget
    · obtain ⟨rfl, rfl⟩ : c' = c ∧ s.handOut c' (.read c') (.write c') fd = s' := by
        rw [hsome] at hget
        simpa using hget
      obtain ⟨hn, hfree⟩ := (h.free c').mp (by simp)
      have hidle : ¬ Held s c' := fun hheld => hheld.2 hfree
      exact ⟨hidle, hheld, fun e he => (h.quiet (he ▸ hidle)).2.2⟩
  neverStuck := by
    intro act he
    obtain ⟨s', xs', hs, -⟩ := h.step he
    simp [hs]

theorem reachable_ok {n : UInt32} {s : Pool} (hr : Reachable (pool n) s) : ∃ xs, PoolOk s xs := by
  apply hr.invariant (P := fun s => ∃ xs, PoolOk s xs)
  · exact fun s hi => ⟨_, connectionInit_ok hi⟩
  · rintro s act s' ⟨xs, hok⟩ he hn
    obtain ⟨s₁, xs₁, hs, hok₁⟩ := hok.step he
    obtain rfl : s₁ = s' := Option.some.inj (hs.symm.trans hn)
    exact ⟨xs₁, hok₁⟩

/-- In every state the pool reaches after `connection_init`, pool and timers are consistent. -/
theorem reachable_sound {n : UInt32} {s : Pool} (hr : Reachable (pool n) s) : Sound s := by
  obtain ⟨xs, hok⟩ := reachable_ok hr
  exact hok.sound

/-- A pool of two slots. -/
def twoSlots : Pool := (connectionInit 2).get rfl

/-- One of two slots is taken, armed and closed. -/
theorem reachable_sound_twoSlots : ∃ s, Run (pool 2) twoSlots
    [.getConnection 5, .addTimer (.read 0) 0 20000, .closeConnection 0] s ∧ Sound s := by
  have hget : Run (pool 2) twoSlots [.getConnection 5] _ :=
    .snoc .nil (show (0 : Int) ≤ 5 by decide) rfl
  have hadd : Run (pool 2) twoSlots [.getConnection 5, .addTimer (.read 0) 0 20000] _ :=
    .snoc hget ⟨by decide, by decide⟩ rfl
  have hclose : Run (pool 2) twoSlots
      [.getConnection 5, .addTimer (.read 0) 0 20000, .closeConnection 0] _ :=
    .snoc hadd (show 0 < 2 by decide) rfl
  exact ⟨_, hclose, reachable_sound (n := 2) ⟨twoSlots, _, rfl, hclose⟩⟩

end Crawler.Connections
