/-
# Crawler.EventTimer — events and the timer tree

`event_t` of `event.h`, and `event_add_timer`, `event_del_timer` and one round of
`event_expire_timers` from `event_timer.h` and `event_timer.c`.

The tree is kept as the list of the nodes linked in it, in no particular order: which linked node
`rbtree_min` returns is left open, so every statement here holds for whichever it is. What the code
relies on is visible at this level already. `rbtree_delete` follows the node's own links, so on a
node that is not in the tree it runs into NULL (`none`), and `rbtree_insert` of a node that is in
the tree already would link it twice. `Consistent` rules out both.
-/
import Crawler.Core
import Mathlib.Data.List.Nodup
import Mathlib.Logic.Function.Basic
import Mathlib.Tactic.Common

namespace Crawler.EventTimer

/-- The functions stored in the `handler` field of an event. -/
inductive EventHandler where
  | dnsProcessEvent
  | dnsTimeoutHandler
  | httpReadEventProcess
  | httpWriteEventProcess
  | sslHandshakeHandler
  | sslReadHandler
  | sslWriteHandler
  deriving DecidableEq, Repr

/-- `event_t`. `key` is the key of its timer node; `data` names the owner, `none` is NULL. The
`wirte` bit, which nothing reads, is left out. -/
structure Event where
  data : Option Addr := none
  active : Bool := false
  ready : Bool := false
  key : UInt32 := 0
  timedout : Bool := false
  timerSet : Bool := false
  pendingEof : Bool := false
  eof : Bool := false
  error : Bool := false
  handler : Option EventHandler := none
  deriving DecidableEq, Repr

/-- All events, by reference, and the nodes linked in `event_timer_rbtree`. -/
structure Timers (ε : Type*) where
  ev : ε → Event
  rbtree : List ε

/-- Re-arming closer than this to the old deadline is skipped. -/
def timerLazyDelay : Int32 := 300

/-- `abs` on a C `int`: the most negative value has no positive counterpart and stays. -/
def abs (d : Int32) : Int32 := if d < 0 then -d else d

variable {ε : Type*} [DecidableEq ε]

/-- Overwrite one event. -/
def Timers.set (t : Timers ε) (e : ε) (v : Event) : Timers ε :=
  { t with ev := Function.update t.ev e v }

@[simp] theorem Timers.set_ev (t : Timers ε) (e e' : ε) (v : Event) :
    (t.set e v).ev e' = if e' = e then v else t.ev e' := by
  simp [Timers.set, Function.update_apply]

@[simp] theorem Timers.set_rbtree (t : Timers ε) (e : ε) (v : Event) :
    (t.set e v).rbtree = t.rbtree := rfl

/-- `rbtree_delete(&event_timer_rbtree, &ev->timer)`: the key is cleared with the links. -/
def rbtreeDelete (t : Timers ε) (e : ε) : Option (Timers ε) :=
  if e ∈ t.rbtree then
    some { ev := Function.update t.ev e { t.ev e with key := 0 }, rbtree := t.rbtree.erase e }
  else none

/-- `rbtree_insert(&event_timer_rbtree, &ev->timer)`. -/
def rbtreeInsert (t : Timers ε) (e : ε) : Timers ε := { t with rbtree := e :: t.rbtree }

/-- `event_del_timer(ev)`. -/
def eventDelTimer (t : Timers ε) (e : ε) : Option (Timers ε) := do
  let t ← rbtreeDelete t e
  return t.set e { t.ev e with timerSet := false }

/-- The end of `event_add_timer`: set the key, link the node, set the flag. -/
def armTimer (t : Timers ε) (e : ε) (key : UInt32) : Timers ε :=
  let t := rbtreeInsert (t.set e { t.ev e with key := key }) e
  t.set e { t.ev e with timerSet := true }

/-- `event_add_timer(ev, timer)` at clock value `now`. -/
def eventAddTimer (now : UInt32) (t : Timers ε) (e : ε) (timer : UInt32) : Option (Timers ε) :=
  let key := now + timer
  if (t.ev e).timerSet then
    let diff := (key - (t.ev e).key).toInt32
    if abs diff < timerLazyDelay then some t
    else do
      let t ← eventDelTimer t e
      return armTimer t e key
  else some (armTimer t e key)

/-- The guard of the loop of `event_expire_timers`: the deadline is not after the clock. -/
def Due (now : UInt32) (t : Timers ε) (e : ε) : Prop := ¬ 0 < ((t.ev e).key - now).toInt32

instance (now : UInt32) (t : Timers ε) (e : ε) : Decidable (Due now t e) := by
  unfold Due; infer_instance

/-- One round of the loop of `event_expire_timers` for the node found, up to the call of the
handler. -/
def expireTimer (t : Timers ε) (e : ε) : Option (Timers ε) := do
  let t ← rbtreeDelete t e
  return t.set e { t.ev e with timerSet := false, timedout := true }

/-! ## What the operations keep -/

/-- An event has `timer_set` exactly when its node is linked, and no node is linked twice. -/
structure Consistent (t : Timers ε) : Prop where
  set_iff : ∀ e, (t.ev e).timerSet = true ↔ e ∈ t.rbtree
  nodup : t.rbtree.Nodup

/-- The effect of a timer operation on event `e`: `linked` tells whether its node ends up in the
tree, and no other event is touched. -/
structure Affects (t t' : Timers ε) (e : ε) (linked : Prop) : Prop where
  self : (e ∈ t'.rbtree ↔ linked)
  other_ev : ∀ e', e' ≠ e → t'.ev e' = t.ev e'
  other_mem : ∀ e', e' ≠ e → (e' ∈ t'.rbtree ↔ e' ∈ t.rbtree)
  data : (t'.ev e).data = (t.ev e).data
  active : (t'.ev e).active = (t.ev e).active
  handler : (t'.ev e).handler = (t.ev e).handler

/-- Membership of every node after an operation that leaves `e` linked. -/
theorem Affects.mem_iff_of_linked {t t' : Timers ε} {e : ε} (h : Affects t t' e True) (e' : ε) :
    e' ∈ t'.rbtree ↔ e' = e ∨ e' ∈ t.rbtree := by
  by_cases he : e' = e
  · subst he; simpa using h.self
  · simp [h.other_mem e' he, he]

/-- Membership of every node after an operation that leaves `e` unlinked. -/
theorem Affects.mem_iff_of_unlinked {t t' : Timers ε} {e : ε} (h : Affects t t' e False) (e' : ε) :
    e' ∈ t'.rbtree ↔ e' ≠ e ∧ e' ∈ t.rbtree := by
  by_cases he : e' = e
  · subst he; simpa using h.self
  · simp [h.other_mem e' he, he]

/-- The common part of `event_del_timer` and `event_expire_timers`: unlink the node of an armed
event and clear `timer_set`, with `timedout` as the caller leaves it. -/
theorem Consistent.unlink {t : Timers ε} (hc : Consistent t) {e : ε} (h : e ∈ t.rbtree)
    (timedout : Bool) :
    let t' : Timers ε :=
      { ev := Function.update t.ev e
          { t.ev e with key := 0, timerSet := false, timedout := timedout }
        rbtree := t.rbtree.erase e }
    Consistent t' ∧ Affects t t' e False := by
  have hnot : e ∉ t.rbtree.erase e := fun hm => (hc.nodup.mem_erase_iff.mp hm).1 rfl
  refine ⟨⟨fun e' => ?_, hc.nodup.erase e⟩, ⟨?_, ?_, ?_, by simp, by simp, by simp⟩⟩
  · by_cases he : e' = e
    · subst he; simp [hnot]
    · simp [he, hc.set_iff e', List.mem_erase_of_ne he]
  · simp [hnot]
  · intro e' he; simp [he]
  · intro e' he; simp [List.mem_erase_of_ne he]

theorem Consistent.eventDelTimer {t : Timers ε} (hc : Consistent t) {e : ε} (h : e ∈ t.rbtree) :
    ∃ t', eventDelTimer t e = some t' ∧ Consistent t' ∧ Affects t t' e False := by
  refine ⟨_, ?_, hc.unlink h (t.ev e).timedout⟩
  simp [EventTimer.eventDelTimer, rbtreeDelete, h, Timers.set]

theorem Consistent.expireTimer {t : Timers ε} (hc : Consistent t) {e : ε} (h : e ∈ t.rbtree) :
    ∃ t', expireTimer t e = some t' ∧ Consistent t' ∧ Affects t t' e False := by
  refine ⟨_, ?_, hc.unlink h true⟩
  simp [EventTimer.expireTimer, rbtreeDelete, h, Timers.set]

theorem Consistent.armTimer {t : Timers ε} (hc : Consistent t) {e : ε} (h : e ∉ t.rbtree)
    (key : UInt32) : Consistent (armTimer t e key) ∧ Affects t (armTimer t e key) e True := by
  refine ⟨⟨fun e' => ?_, ?_⟩, ⟨?_, ?_, ?_, ?_, ?_, ?_⟩⟩
  · by_cases he : e' = e
    · simp [EventTimer.armTimer, rbtreeInsert, he]
    · simp [EventTimer.armTimer, rbtreeInsert, he, hc.set_iff e']
  · exact List.nodup_cons.mpr ⟨h, hc.nodup⟩
  · simp [EventTimer.armTimer, rbtreeInsert]
  · intro e' he; simp [EventTimer.armTimer, rbtreeInsert, he]
  · intro e' he; simp [EventTimer.armTimer, rbtreeInsert, he]
  all_goals simp [EventTimer.armTimer, rbtreeInsert]

/-- `event_add_timer` never goes wrong on a consistent store, whichever of its three ways it takes:
skipped as close enough, moved to the new deadline, or linked for the first time. -/
theorem Consistent.eventAddTimer {t : Timers ε} (hc : Consistent t) (now : UInt32) (e : ε)
    (timer : UInt32) :
    ∃ t', eventAddTimer now t e timer = some t' ∧ Consistent t' ∧ Affects t t' e True := by
  by_cases hset : (t.ev e).timerSet = true
  · have hmem := (hc.set_iff e).mp hset
    by_cases hlazy : abs (now + timer - (t.ev e).key).toInt32 < timerLazyDelay
    · refine ⟨t, by rw [EventTimer.eventAddTimer, if_pos hset, if_pos hlazy], hc, ?_⟩
      exact ⟨by simpa using hmem, fun _ _ => rfl, fun _ _ => Iff.rfl, rfl, rfl, rfl⟩
    · obtain ⟨t₁, hdel, hc₁, ha₁⟩ := hc.eventDelTimer hmem
      have hnot : e ∉ t₁.rbtree := by simpa using ha₁.self
      obtain ⟨hc₂, ha₂⟩ := hc₁.armTimer hnot (now + timer)
      refine ⟨_, by
        rw [EventTimer.eventAddTimer, if_pos hset, if_neg hlazy, hdel, Option.bind_eq_bind,
          Option.bind_some, Option.pure_def], hc₂, ?_⟩
      exact ⟨ha₂.self, fun e' he => (ha₂.other_ev e' he).trans (ha₁.other_ev e' he),
        fun e' he => (ha₂.other_mem e' he).trans (ha₁.other_mem e' he),
        ha₂.data.trans ha₁.data, ha₂.active.trans ha₁.active, ha₂.handler.trans ha₁.handler⟩
  · have hnot : e ∉ t.rbtree := fun hm => hset ((hc.set_iff e).mpr hm)
    refine ⟨_, by simp [EventTimer.eventAddTimer, hset], hc.armTimer hnot (now + timer)⟩

/-- Arming an event does not touch its `timedout` flag. -/
theorem eventAddTimer_timedout {now timer : UInt32} {t t' : Timers ε} {e : ε}
    (h : eventAddTimer now t e timer = some t') : (t'.ev e).timedout = (t.ev e).timedout := by
  have harm : ∀ (t : Timers ε) key, ((armTimer t e key).ev e).timedout = (t.ev e).timedout := by
    intro t key
    simp [armTimer, rbtreeInsert]
  rw [eventAddTimer] at h
  dsimp only at h
  split at h
  case isTrue =>
    split at h
    case isTrue => rw [Option.some.inj h]
    case isFalse =>
      by_cases hm : e ∈ t.rbtree
      · simp only [eventDelTimer, rbtreeDelete, if_pos hm, Option.bind_eq_bind, Option.bind_some,
          Option.pure_def, Option.some.injEq] at h
        rw [← h, harm]
        simp
      · simp [eventDelTimer, rbtreeDelete, hm] at h
  case isFalse => rw [← Option.some.inj h, harm]

/-- An event that expires is flagged. -/
theorem expireTimer_timedout {t t' : Timers ε} {e : ε} (h : expireTimer t e = some t') :
    (t'.ev e).timedout = true := by
  rw [expireTimer, rbtreeDelete] at h
  by_cases hm : e ∈ t.rbtree
  · rw [if_pos hm] at h
    rw [← Option.some.inj h]
    simp
  · rw [if_neg hm] at h
    cases h

/-- Overwriting an event that is not linked and stays disarmed keeps the store consistent. -/
theorem Consistent.set {t : Timers ε} (hc : Consistent t) {e : ε} {v : Event}
    (hv : v.timerSet = (t.ev e).timerSet) : Consistent (t.set e v) where
  set_iff e' := by
    by_cases he : e' = e
    · subst he; simpa [hv] using hc.set_iff e'
    · simpa [he] using hc.set_iff e'
  nodup := hc.nodup

end Crawler.EventTimer
