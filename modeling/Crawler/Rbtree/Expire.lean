/-
# Crawler.Rbtree.Expire — a call of `event_expire_timers`, with the handlers it calls

The loop of `event_timer.c` at one value of the clock. It starts from the root again on every turn, since
the handler it has just called may have armed and disarmed any events (`Handlers`).

The loop ends because the events that are due become fewer (`dueEvents`). A turn takes one of them out of the
tree. A handler puts none in: a deadline that it sets is after the clock (`not_notAfter_add`), and where
the lazy rule keeps an old deadline, that event was due before if it is due now (`Rearmed`).
-/
import Crawler.Rbtree.Timers

namespace Crawler.Rbtree

open Crawler.Lib
open Crawler.Lib.Circular
open Crawler.EventTimer (Timers)

/-! ## The loop -/

/-- What a handler does to the timers. -/
inductive TimerOp (ε : Type*) where
  | addTimer (e : ε) (timer : UInt32)
  | delTimer (e : ε)

/-- What the handlers do to the timers, one operation after another. `σ` is the rest of the state of the
program, which they read and write as they like. -/
abbrev Handlers (σ ε : Type*) := σ → ε → Store ε → List (TimerOp ε) × σ

/-- `ev->handler(ev)`: the state of the program and the store that `rbtree_min` was asked in, the event,
and the store that its handler finds. -/
structure Call (σ ε : Type*) where
  world : σ
  before : Store ε
  event : ε
  store : Store ε

variable {σ ε : Type*} [DecidableEq ε]

def TimerOp.perform (now : UInt32) (s : Store ε) : TimerOp ε → Option (Store ε)
  | .addTimer e timer => internalEventAddTimer now s e timer
  | .delTimer e => internalEventDelTimer s e

/-- The operations of a handler. -/
def performAll (now : UInt32) : Store ε → List (TimerOp ε) → Option (Store ε)
  | s, [] => some s
  | s, op :: ops => (op.perform now s).bind fun s => performAll now s ops

/-- `event_expire_timers()` at clock value `now`, with the calls it makes. -/
def eventExpireTimers (now : UInt32) (handlers : Handlers σ ε) :
    Nat → σ → Store ε → Option (List (Call σ ε) × σ × Store ε)
  | 0, _, _ => none
  | turns + 1, w, s =>
      match expireTurn now s with
      | none => none
      | some (s, none) => some ([], w, s)
      | some (s', some e) =>
          (performAll now s' (handlers w e s').1).bind fun s'' =>
            (eventExpireTimers now handlers turns (handlers w e s').2 s'').map fun out =>
              (⟨w, s, e, s'⟩ :: out.1, out.2)

/-- The calls that `event_expire_timers` makes, however long it goes on. -/
inductive Calls (now : UInt32) (handlers : Handlers σ ε) : σ → Store ε → Call σ ε → Prop
  | first {w : σ} {s s' : Store ε} {e : ε} :
      expireTurn now s = some (s', some e) → Calls now handlers w s ⟨w, s, e, s'⟩
  | later {w : σ} {s s' s'' : Store ε} {e : ε} {c : Call σ ε} :
      expireTurn now s = some (s', some e) → performAll now s' (handlers w e s').1 = some s'' →
      Calls now handlers (handlers w e s').2 s'' c → Calls now handlers w s c

/-! ## What the handlers may do, and what is due -/

omit [DecidableEq ε] in
/-- The deadlines and the clock lie in one span. -/
def OneSpan (now : UInt32) (s : Store ε) : Prop := ∃ start, LiveInSpan start s ∧ InSpan start now

omit [DecidableEq ε] in
/-- A timeout is positive and the new deadline lies in one span with the clock and the others. Only an
armed event is disarmed. -/
def TimerOp.Allowed (now : UInt32) (s : Store ε) : TimerOp ε → Prop
  | .addTimer _ timer => 0 < timer ∧ timer < 2147483648 ∧
      ∃ start, LiveInSpan start s ∧ InSpan start now ∧ InSpan start (now + timer)
  | .delTimer e => s.timerSet e = true

/-- Each operation is allowed when its turn comes. -/
def Permitted (now : UInt32) : Store ε → List (TimerOp ε) → Prop
  | _, [] => True
  | s, op :: ops => op.Allowed now s ∧ ∀ s', op.perform now s = some s' → Permitted now s' ops

/-- The handlers do what they may in every call that is made. -/
def Behave (now : UInt32) (handlers : Handlers σ ε) (w : σ) (s : Store ε) : Prop :=
  ∀ c, Calls now handlers w s c → Permitted now c.store (handlers c.world c.event c.store).1

omit [DecidableEq ε] in
/-- The event is armed and its deadline is not after the clock. -/
def IsDue (now : UInt32) (s : Store ε) (e : ε) : Prop := s.timerSet e = true ∧ NotAfter (s.key e) now

/-- The nodes with a deadline that is not after the clock. -/
def dueEvents (now : UInt32) (s : Store ε) (xs : List ε) : List ε :=
  xs.filter fun e => decide (NotAfter (s.key e) now)

/-- The event of a call was due, and no armed one was earlier. Its handler finds it unlinked. -/
structure Fires (now : UInt32) (c : Call σ ε) : Prop where
  due : IsDue now c.before c.event
  earliest : ∀ e, c.before.timerSet e = true → NotAfter (c.before.key c.event) (c.before.key e)
  unlinked : ∃ xs, linked c.store = some xs ∧ c.event ∉ xs
  timerSet : c.store.timerSet c.event = false
  timedout : c.store.timedout c.event = true

omit [DecidableEq ε] in
/-- The events due in `s` are those of `fired`, each once and in the order of their deadlines, and the
others are in `s'` as they were. -/
structure ExactlyDue (now : UInt32) (s : Store ε) (fired : List ε) (s' : Store ε) : Prop where
  mem_iff : ∀ e, e ∈ fired ↔ IsDue now s e
  once : fired.Nodup
  ordered : Ordered s fired
  others : ∀ e, e ∉ fired → s'.timerSet e = s.timerSet e ∧ s'.key e = s.key e

/-! ## An operation of a handler -/

section Handler

variable {now : UInt32} {s s' : Store ε} {T T' : Colored ε} {t t' : Timers ε} {e : ε}

theorem Kept.mem_dueEvents (h : Kept s T t) (e : ε) : e ∈ dueEvents now s T.toList ↔ IsDue now s e := by
  rw [dueEvents, List.mem_filter, decide_eq_true_iff, IsDue, h.inOrder.set_iff]

theorem Kept.dueEvents_eq (h : Kept s T t) (h' : Kept s T' t') :
    dueEvents now s T'.toList = dueEvents now s T.toList := by
  have hlists : T'.toList = T.toList := Option.some.inj (h'.inOrder.linked.symm.trans h.inOrder.linked)
  rw [hlists]

/-- Where no event has become due, at most as many are. -/
theorem dueEvents_length_le (h : Kept s T t) (h' : Kept s' T' t')
    (hle : ∀ e, IsDue now s' e → IsDue now s e) :
    (dueEvents now s' T'.toList).length ≤ (dueEvents now s T.toList).length := by
  have hnd : (dueEvents now s' T'.toList).Nodup := h'.inOrder.once.filter _
  refine (List.subperm_of_subset hnd fun e he => ?_).length_le
  exact (h.mem_dueEvents e).mpr (hle e ((h'.mem_dueEvents e).mp he))

/-- An event that is not the one of the operation. -/
theorem Unmoved.timerSet (h : Kept s T t) (h' : Kept s' T' t') (hu : Unmoved s T.toList s' T'.toList e)
    {e' : ε} (hne : e' ≠ e) : s'.timerSet e' = s.timerSet e' := by
  rw [Bool.eq_iff_iff, h'.inOrder.set_iff, h.inOrder.set_iff]
  exact (hu e' hne).1

theorem IsDue.of_unmoved (h : Kept s T t) (h' : Kept s' T' t') (hu : Unmoved s T.toList s' T'.toList e)
    {e' : ε} (hne : e' ≠ e) (hdue : IsDue now s' e') : IsDue now s e' := by
  obtain ⟨hset, hkey⟩ := hdue
  rw [Unmoved.timerSet h h' hu hne] at hset
  rw [(hu e' hne).2] at hkey
  exact ⟨hset, hkey⟩

theorem LiveInSpan.of_unmoved {start : UInt32} (h : Kept s T t) (h' : Kept s' T' t')
    (hu : Unmoved s T.toList s' T'.toList e) (hlive : LiveInSpan start s)
    (hself : s'.timerSet e = true → InSpan start (s'.key e)) : LiveInSpan start s' := by
  intro e' hset
  by_cases hne : e' = e
  · subst hne
    exact hself hset
  · rw [Unmoved.timerSet h h' hu hne] at hset
    rw [(hu e' hne).2]
    exact hlive e' hset

theorem Kept.not_set (h : Kept s T t) (he : e ∉ T.toList) : ¬ s.timerSet e = true :=
  mt (h.inOrder.set_iff e).mp he

/-- An operation that a handler may do goes through, and makes no event due. -/
theorem Kept.perform (h : Kept s T t) (hspan : OneSpan now s) {op : TimerOp ε} (hop : op.Allowed now s) :
    ∃ s' T' t', op.perform now s = some s' ∧ Kept s' T' t' ∧ OneSpan now s' ∧
      ∀ e, IsDue now s' e → IsDue now s e := by
  cases op with
  | addTimer e timer =>
      obtain ⟨hpos, hhalf, start, hlive, hnow, hnew⟩ := hop
      obtain ⟨s', T', t', hadd, h', he, hu, hkey⟩ := h.addTimer e hlive hnew
      refine ⟨s', T', t', hadd, h', ⟨start, LiveInSpan.of_unmoved h h' hu hlive fun hset => ?_, hnow⟩,
        fun e' hdue => ?_⟩
      · rcases hkey with hkey | ⟨rfl, -⟩
        · rw [hkey]
          exact hnew
        · exact hlive e hset
      · by_cases hne : e' = e
        · subst hne
          rcases hkey with hkey | ⟨rfl, -⟩
          · rw [IsDue, hkey] at hdue
            exact absurd hdue.2 (not_notAfter_add hpos hhalf)
          · exact hdue
        · exact hdue.of_unmoved h h' hu hne
  | delTimer e =>
      obtain ⟨start, hlive, hnow⟩ := hspan
      obtain ⟨s', T', t', hdel, h', he, hu⟩ := h.delTimer hop
      have hunset : ¬ s'.timerSet e = true := h'.not_set he
      refine ⟨s', T', t', hdel, h',
        ⟨start, LiveInSpan.of_unmoved h h' hu hlive fun hset => absurd hset hunset, hnow⟩, fun e' hdue => ?_⟩
      have hne : e' ≠ e := by
        rintro rfl
        exact hunset hdue.1
      exact hdue.of_unmoved h h' hu hne

theorem Kept.performAll {ops : List (TimerOp ε)} (h : Kept s T t) (hspan : OneSpan now s)
    (hops : Permitted now s ops) :
    ∃ s' T' t', performAll now s ops = some s' ∧ Kept s' T' t' ∧ OneSpan now s' ∧
      ∀ e, IsDue now s' e → IsDue now s e := by
  induction ops generalizing s T t with
  | nil => exact ⟨s, T, t, rfl, h, hspan, fun _ hdue => hdue⟩
  | cons op ops ih =>
      obtain ⟨hop, hrest⟩ := hops
      obtain ⟨s₁, T₁, t₁, hperform, h₁, hspan₁, hdue₁⟩ := h.perform hspan hop
      obtain ⟨s', T', t', hall, h', hspan', hdue'⟩ := ih h₁ hspan₁ (hrest s₁ hperform)
      refine ⟨s', T', t', ?_, h', hspan', fun e hdue => hdue₁ e (hdue' e hdue)⟩
      rw [Rbtree.performAll, hperform, Option.bind_some, hall]

end Handler

/-! ## A turn -/

section Turn

variable {now : UInt32} {s s' : Store ε} {T T' : Colored ε} {t t' : Timers ε} {e : ε} {rest : List ε}

/-- When the first deadline is after the clock, all are. -/
theorem Kept.noneDue (h : Kept s T t) (hspan : OneSpan now s)
    (hfirst : ∀ e ∈ T.toList.head?, 0 < (s.key e - now).toInt32) (e : ε) : ¬ IsDue now s e := by
  rintro ⟨hset, hkey⟩
  obtain ⟨start, hlive, hnow⟩ := hspan
  have he : e ∈ T.toList := (h.inOrder.set_iff e).mp hset
  have hspans := h.inSpan hlive
  have ho := h.inOrder.ordered
  cases hlist : T.toList with
  | nil => simp [hlist] at he
  | cons m rest =>
      rw [hlist] at he ho hfirst hspans
      have hm : 0 < (s.key m - now).toInt32 := hfirst m rfl
      have hme : NotAfter (s.key m) (s.key e) := by
        rcases List.mem_cons.mp he with rfl | he
        · exact NotAfter.refl _
        · exact (List.pairwise_cons.mp ho).1 e he
      exact not_notAfter_iff.mpr hm
        (NotAfter.trans (hspans m List.mem_cons_self) (hspans e he) hnow hme hkey)

/-- The event that a turn unlinks is due and earliest. -/
theorem Kept.fires (h : Kept s T t) (h' : Kept s' T' t') (hlist : T.toList = e :: rest)
    (hrest : T'.toList = rest) (hdue : ¬ 0 < (s.key e - now).toInt32)
    (hout : s'.timedout e = true) (w : σ) : Fires now ⟨w, s, e, s'⟩ := by
  have hnd : (e :: rest).Nodup := hlist ▸ h.inOrder.once
  have hgone : e ∉ T'.toList := by
    rw [hrest]
    exact (List.nodup_cons.mp hnd).1
  have ho : Ordered s (e :: rest) := hlist ▸ h.inOrder.ordered
  refine ⟨⟨?_, Int32.not_lt.mp hdue⟩, fun e' he' => ?_, ⟨_, h'.inOrder.linked, hgone⟩,
    Bool.eq_false_iff.mpr (h'.not_set hgone), hout⟩
  · rw [h.inOrder.set_iff, hlist]
    exact List.mem_cons_self
  · rw [h.inOrder.set_iff, hlist] at he'
    rcases List.mem_cons.mp he' with rfl | he'
    · exact NotAfter.refl _
    · exact (List.pairwise_cons.mp ho).1 e' he'

/-- What remains due after a turn. -/
theorem dueEvents_turn (h : Kept s T t) (hlist : T.toList = e :: rest)
    (hdue : ¬ 0 < (s.key e - now).toInt32) (hu : Unmoved s T.toList s' T'.toList e) :
    dueEvents now s T.toList = e :: dueEvents now s' rest := by
  have hnd : (e :: rest).Nodup := hlist ▸ h.inOrder.once
  have hdue' : NotAfter (s.key e) now := Int32.not_lt.mp hdue
  rw [hlist, dueEvents, List.filter_cons_of_pos (by simpa using hdue')]
  refine congrArg (e :: ·) (List.filter_congr fun e' he' => ?_)
  have hne : e' ≠ e := by
    rintro rfl
    exact (List.nodup_cons.mp hnd).1 he'
  rw [(hu e' hne).2]

end Turn

/-! ## The call -/

section Run

variable {now : UInt32} {handlers : Handlers σ ε} {w : σ} {s : Store ε} {T : Colored ε} {t : Timers ε}

/-- The handlers have left the store alone. -/
def LeaveAlone (handlers : Handlers σ ε) (calls : List (Call σ ε)) : Prop :=
  ∀ c ∈ calls, (handlers c.world c.event c.store).1 = []

/-- The loop returns when no event is due, after at most one turn for each that was. -/
theorem eventExpireTimers_kept {n : Nat} (h : Kept s T t) (hspan : OneSpan now s)
    (hbehave : Behave now handlers w s) (hn : (dueEvents now s T.toList).length ≤ n) :
    ∃ calls w' s' T' t', (∀ turns, n < turns → eventExpireTimers now handlers turns w s = some (calls, w', s')) ∧
      Kept s' T' t' ∧ (∀ e, ¬ IsDue now s' e) ∧ (∀ c ∈ calls, Fires now c) ∧
      (LeaveAlone handlers calls → calls.map Call.event = dueEvents now s T.toList ∧
        ∀ e, e ∉ calls.map Call.event → s'.timerSet e = s.timerSet e ∧ s'.key e = s.key e) := by
  induction n using Nat.strong_induction_on generalizing w s T t with
  | _ n ih =>
  rcases h.expireTurn now with ⟨hturn, hfirst⟩ | ⟨e, rest, s₁, T₁, t₁, hturn, h₁, hlist, hrest, hdue, hu, hout⟩
  · have hnone : ∀ e, ¬ IsDue now s e := h.noneDue hspan hfirst
    refine ⟨[], w, s, T, t, fun turns hturns => ?_, h, hnone, fun c hc => ?_, fun _ => ⟨?_, ?_⟩⟩
    · obtain ⟨turns, rfl⟩ := Nat.exists_eq_add_one_of_ne_zero (Nat.ne_zero_of_lt hturns)
      rw [eventExpireTimers, hturn]
    · cases hc
    · refine (List.eq_nil_iff_forall_not_mem.mpr fun e he => ?_).symm
      exact hnone e ((h.mem_dueEvents e).mp he)
    · exact fun e _ => ⟨rfl, rfl⟩
  · -- the turn takes `e` out of those that are due
    have hspan₁ : OneSpan now s₁ := by
      obtain ⟨start, hlive, hnow⟩ := hspan
      have hgone : e ∉ T₁.toList := by
        rw [hrest]
        exact (List.nodup_cons.mp (hlist ▸ h.inOrder.once)).1
      exact ⟨start, LiveInSpan.of_unmoved h h₁ hu hlive fun hset => absurd hset (h₁.not_set hgone), hnow⟩
    have hturn_due : dueEvents now s T.toList = e :: dueEvents now s₁ T₁.toList := by
      rw [dueEvents_turn h hlist hdue hu, hrest]
    -- the handler puts none back
    obtain ⟨s₂, T₂, t₂, hall, h₂, hspan₂, hle⟩ := h₁.performAll hspan₁ (hbehave _ (.first hturn))
    have hfewer : (dueEvents now s₂ T₂.toList).length < n := by
      have hlength := dueEvents_length_le h₁ h₂ hle
      rw [hturn_due, List.length_cons] at hn
      exact Nat.lt_of_le_of_lt hlength hn
    obtain ⟨calls, w', s', T', t', hrun, h', hnone, hfires, hquiet⟩ :=
      ih _ hfewer h₂ hspan₂ (fun c hc => hbehave c (.later hturn hall hc)) (Nat.le_refl _)
    refine ⟨⟨w, s, e, s₁⟩ :: calls, w', s', T', t', fun turns hturns => ?_, h', hnone, fun c hc => ?_,
      fun hq => ?_⟩
    · obtain ⟨turns, rfl⟩ := Nat.exists_eq_add_one_of_ne_zero (Nat.ne_zero_of_lt hturns)
      have hmore : (dueEvents now s₂ T₂.toList).length < turns :=
        Nat.lt_of_lt_of_le hfewer (Nat.le_of_lt_succ hturns)
      simp only [eventExpireTimers, hturn, hall, Option.bind_some, hrun turns hmore, Option.map_some]
    · rcases List.mem_cons.mp hc with rfl | hc
      · exact h.fires h₁ hlist hrest hdue ((hout e).trans (if_pos rfl)) w
      · exact hfires c hc
    · have hops : (handlers w e s₁).1 = [] := hq ⟨w, s, e, s₁⟩ List.mem_cons_self
      obtain ⟨hevents, hothers⟩ := hquiet fun c hc => hq c (List.mem_cons_of_mem _ hc)
      -- the handler has left the store as the turn left it
      have hsame : s₂ = s₁ := by
        rw [hops] at hall
        exact (Option.some.inj hall).symm
      subst hsame
      refine ⟨?_, fun e' he' => ?_⟩
      · rw [List.map_cons, hevents, hturn_due, h₁.dueEvents_eq h₂]
      · rw [List.map_cons, List.mem_cons, not_or] at he'
        obtain ⟨hset, hkey⟩ := hothers e' he'.2
        exact ⟨hset.trans (Unmoved.timerSet h h₁ hu he'.1), hkey.trans (hu e' he'.1).2⟩

/-- A call of `event_expire_timers` on a store that the program reaches ends. Each event it fires is an
earliest one and due, and no event is due afterwards. If the handlers leave the store alone it fires the
events that were due, in order. -/
theorem eventExpireTimers_fires {st : State ε} (hr : Reachable (timers ε) st)
    (hspan : OneSpan now st.store) (hbehave : Behave now handlers w st.store) :
    ∃ calls w' s', (∃ n, ∀ turns, n < turns →
        eventExpireTimers now handlers turns w st.store = some (calls, w', s')) ∧
      (∀ c ∈ calls, Fires now c) ∧
      (∀ e, s'.timerSet e = true → 0 < (s'.key e - now).toInt32) ∧
      (LeaveAlone handlers calls → ExactlyDue now st.store (calls.map Call.event) s') := by
  obtain ⟨T, t, h⟩ := kept_reachable hr
  obtain ⟨calls, w', s', T', t', hrun, -, hnone, hfires, hquiet⟩ :=
    eventExpireTimers_kept h hspan hbehave (Nat.le_refl _)
  refine ⟨calls, w', s', ⟨_, hrun⟩, hfires, fun e hset => ?_, fun hq => ?_⟩
  · exact not_notAfter_iff.mp fun hkey => hnone e ⟨hset, hkey⟩
  · obtain ⟨hevents, hothers⟩ := hquiet hq
    have hsublist : (calls.map Call.event).Sublist T.toList := by
      rw [hevents]
      exact List.filter_sublist
    refine ⟨fun e => ?_, h.inOrder.once.sublist hsublist, h.inOrder.ordered.sublist hsublist, hothers⟩
    rw [hevents]
    exact h.mem_dueEvents e

/-- Handlers of two events, each of which disarms the other. -/
def disarmOther : Handlers Unit Bool := fun w e s =>
  (if s.timerSet (!e) then [.delTimer (!e)] else [], w)

/-- Both are due behind the wrap, and one of them is fired. -/
theorem eventExpireTimers_fires_disarmOther : ∃ st : State Bool, linked st.store = some [false, true] ∧
    (∀ e, IsDue 2000 st.store e) ∧
    ∃ calls w' s', (∃ n, ∀ turns, n < turns →
        eventExpireTimers 2000 disarmOther turns () st.store = some (calls, w', s')) ∧
      (∀ c ∈ calls, Fires 2000 c) ∧
      (∀ e, s'.timerSet e = true → 0 < (s'.key e - 2000).toInt32) ∧
      (LeaveAlone disarmOther calls → ExactlyDue 2000 st.store (calls.map Call.event) s') := by
  have hlive : LiveInSpan 4294966296 beforeWrap.store := fun e he => by cases he
  have hfirst : Run (timers Bool) beforeWrap [.addTimer false 500 4294966296] _ :=
    .snoc .nil ⟨by decide, 4294966296, hlive, by decide, by decide⟩ rfl
  have hsecond : Run (timers Bool) beforeWrap
      [.addTimer false 500 4294966296, .addTimer true 2000 4294966300] _ :=
    .snoc hfirst ⟨by decide, 4294966296, fun e => by cases e <;> decide, by decide, by decide⟩ rfl
  have hbehave : ∀ s, Behave 2000 disarmOther () s := by
    intro s c _
    by_cases hset : c.store.timerSet (!c.event) = true
    · rw [disarmOther, if_pos hset]
      exact ⟨hset, fun _ _ => trivial⟩
    · rw [disarmOther, if_neg hset]
      exact trivial
  refine ⟨_, ?_, ?_, eventExpireTimers_fires ⟨beforeWrap, _, ⟨⟨_, rfl⟩, fun _ => rfl⟩, hsecond⟩
    ⟨4294966296, fun e => by cases e <;> decide, by decide⟩ (hbehave _)⟩
  · decide
  · intro e
    cases e <;> exact ⟨by decide, by decide⟩

end Run

end Crawler.Rbtree
