/-
# Crawler.Rbtree.Timers — `event_timer.c` over the links of its tree

`internal_event_add_timer`, `internal_event_del_timer` and a turn of the loop of `event_expire_timers`,
with the nodes as `rbtree.c` links them. They do to the links what the operations of
`Crawler.EventTimer` do to the list of the linked nodes (`Refines`): the shape of the tree shows nowhere
but in its order.

The order is that of the deadlines on a clock that wraps around, which is no order of all 2^32 of them.
A new deadline finds its place nevertheless, as long as it lies in one span with those in the tree
(`arm_ordered`). What is in the tree stays ordered when the span moves on: the order of two
deadlines does not depend on it.
-/
import Crawler.EventTimer
import Crawler.Lib.Circular
import Crawler.Lib.Run
import Crawler.Rbtree.Delete

namespace Crawler.Rbtree

open Crawler.Lib
open Crawler.Lib.Circular
open Crawler.EventTimer (Timers Consistent Affects timerLazyDelay)

/-! ## The operations -/

/-- The flags of the events, and `event_timer_rbtree` with their timer nodes. -/
structure Store (ε : Type*) where
  timerSet : ε → Bool
  timedout : ε → Bool
  tree : Nodes ε

variable {ε : Type*}

/-- `ev->timer.key`. -/
def Store.key (s : Store ε) (e : ε) : UInt32 := s.tree.key (.node e)

/-- The nodes linked in `event_timer_rbtree`, in order. -/
def linked (s : Store ε) : Option (List ε) := inorder s.tree s.tree.size s.tree.root

theorem linked_eq {s : Store ε} {T : Colored ε} (h : Sound s.tree T) : linked s = some T.toList := by
  have hturns : T.toList.length ≤ s.tree.size := Nat.le_of_eq h.size.symm
  rw [linked, h.root]
  exact inorder_spec h.rep hturns

variable [DecidableEq ε]

/-- `event_timer_init()`. -/
def eventTimerInit (t : Nodes ε) : Nodes ε :=
  { (t.setRed .sentinel false).setRoot .sentinel with size := 0 }

/-- `rbtree_delete(&event_timer_rbtree, &ev->timer)` with the lines after it: the links are NULL and the
flag is clear. -/
def unlinkTimer (s : Store ε) (e : ε) : Option (Store ε) := do
  let tree ← rbtreeDelete s.tree (.node e)
  let tree := ((tree.setChild .left (.node e) none).setChild .right (.node e) none).setParent (.node e) none
  return { s with timerSet := Function.update s.timerSet e false, tree := tree }

/-- `internal_event_del_timer(ev)`. -/
def internalEventDelTimer (s : Store ε) (e : ε) : Option (Store ε) := unlinkTimer s e

/-- The end of `internal_event_add_timer`. -/
def armTimer (s : Store ε) (e : ε) (key : UInt32) : Option (Store ε) := do
  let tree ← rbtreeInsert (s.tree.setKey (.node e) key) (.node e)
  return { s with timerSet := Function.update s.timerSet e true, tree := tree }

/-- `internal_event_add_timer(ev, timer)` at clock value `now`. -/
def internalEventAddTimer (now : UInt32) (s : Store ε) (e : ε) (timer : UInt32) : Option (Store ε) :=
  let key := now + timer
  if s.timerSet e then
    let diff := (key - s.key e).toInt32
    if EventTimer.abs diff < timerLazyDelay then some s
    else do
      let s ← internalEventDelTimer s e
      armTimer s e key
  else armTimer s e key

/-- One turn of the loop of `event_expire_timers` at clock value `now`, up to the call of the handler,
with the event it is called for; `none` where the loop returns. -/
def expireTurn (now : UInt32) (s : Store ε) : Option (Store ε × Option ε) :=
  if s.tree.root = .sentinel then some (s, none)
  else do
    let node ← rbtreeMin s.tree (s.tree.size + 1) s.tree.root
    if 0 < (s.tree.key node - now).toInt32 then return (s, none)
    else
      match node with
      | .sentinel => none
      | .node e =>
          let s ← unlinkTimer s e
          return ({ s with timedout := Function.update s.timedout e true }, some e)

/-! ## The links against the list -/

/-- The links of the store make the tree `T`, whose nodes are those of the list in `t`, and the events
are the same. -/
structure Refines (s : Store ε) (T : Colored ε) (t : Timers ε) : Prop where
  sound : Sound s.tree T
  perm : T.toList.Perm t.rbtree
  key : ∀ e, (t.ev e).key = s.key e
  timerSet : ∀ e, (t.ev e).timerSet = s.timerSet e
  timedout : ∀ e, (t.ev e).timedout = s.timedout e

/-- What unlinking `e` leaves, but for `timedout`. -/
structure Unlinked (s : Store ε) (T : Colored ε) (e : ε) (s' : Store ε) (T' : Colored ε) : Prop where
  sound : Sound s'.tree T'
  toList : T'.toList = T.toList.erase e
  key : ∀ e', s'.key e' = if e' = e then 0 else s.key e'
  timerSet : ∀ e', s'.timerSet e' = if e' = e then false else s.timerSet e'

section Refinement

variable {s s' : Store ε} {T T' : Colored ε} {t : Timers ε} {e : ε}

theorem unlinkTimer_spec (h : Sound s.tree T) (he : e ∈ T.toList) :
    ∃ s' T', unlinkTimer s e = some s' ∧ Unlinked s T e s' T' ∧ s'.timedout = s.timedout := by
  obtain ⟨t₁, T', hdelete, hdeleted⟩ := rbtreeDelete_spec h he
  have hout : e ∉ T'.toList := by
    rw [hdeleted.toList]
    exact h.nodup.not_mem_erase
  let t₂ := ((t₁.setChild .left (.node e) none).setChild .right (.node e) none).setParent (.node e) none
  have hsound : Sound t₂ T' := by
    -- a node that is out of the tree may have any links
    refine hdeleted.sound.congr (fun b hb => ?_) rfl rfl rfl
    have hbe : Loc.node b ≠ Loc.node e := fun heq => hout (Loc.node.inj heq ▸ hb)
    exact ((same_setChild _ _ hbe _).trans (same_setChild _ _ hbe _)).trans (same_setParent _ hbe _)
  refine ⟨{ s with timerSet := Function.update s.timerSet e false, tree := t₂ }, T', ?_,
    ⟨hsound, hdeleted.toList, fun e' => ?_, fun e' => ?_⟩, rfl⟩
  · rw [unlinkTimer, hdelete]
    rfl
  · have hkey := hdeleted.key (.node e')
    simp only [Loc.node.injEq] at hkey
    exact hkey
  · exact Function.update_apply s.timerSet e false e'

/-- The same with the list. -/
theorem Refines.unlink (h : Refines s T t) (hu : Unlinked s T e s' T') {out : Bool}
    (hout : ∀ e', s'.timedout e' = if e' = e then out else s.timedout e') :
    Refines s' T'
      { ev := Function.update t.ev e { t.ev e with key := 0, timerSet := false, timedout := out }
        rbtree := t.rbtree.erase e } := by
  refine ⟨hu.sound, ?_, fun e' => ?_, fun e' => ?_, fun e' => ?_⟩
  · rw [hu.toList]
    exact h.perm.erase e
  · rw [hu.key]
    by_cases heq : e' = e
    · simp [heq]
    · simp [heq, h.key]
  · rw [hu.timerSet]
    by_cases heq : e' = e
    · simp [heq]
    · simp [heq, h.timerSet]
  · rw [hout]
    by_cases heq : e' = e
    · simp [heq]
    · simp [heq, h.timedout]

theorem internalEventDelTimer_refines (h : Refines s T t) (he : e ∈ t.rbtree) :
    ∃ s' T' t', internalEventDelTimer s e = some s' ∧ EventTimer.eventDelTimer t e = some t' ∧
      Refines s' T' t' ∧ Unlinked s T e s' T' := by
  obtain ⟨s', T', hunlink, hu, hout⟩ := unlinkTimer_spec h.sound (h.perm.mem_iff.mpr he)
  have hkept : ∀ e', s'.timedout e' = if e' = e then (t.ev e).timedout else s.timedout e' := by
    intro e'
    rw [hout]
    by_cases heq : e' = e
    · rw [if_pos heq, heq, h.timedout]
    · rw [if_neg heq]
  refine ⟨s', T', _, hunlink, ?_, h.unlink hu hkept, hu⟩
  simp [EventTimer.eventDelTimer, EventTimer.rbtreeDelete, he, Timers.set]

/-- Linking `e` with a new key. The walk has found the place `gs` for it. -/
theorem armTimer_refines (h : Refines s T t) (he : e ∉ t.rbtree) (key : UInt32) :
    ∃ s' T' gs, armTimer s e key = some s' ∧ Refines s' T' (EventTimer.armTimer t e key) ∧
      Context.fill gs .nil = T ∧ T'.toList = Context.before gs ++ e :: Context.after gs ∧
      (∀ e', s'.key e' = if e' = e then key else s.key e') ∧
      ∀ f ∈ gs, f.dir = if (key - s.key f.elem).toInt32 < 0 then .left else .right := by
  have hT : e ∉ T.toList := mt h.perm.mem_iff.mp he
  have hkeyed : Sound (s.tree.setKey (.node e) key) T :=
    h.sound.congr (fun _ _ => ⟨fun _ => rfl, rfl, rfl⟩) rfl rfl rfl
  have hkey : ∀ e', (s.tree.setKey (.node e) key).key (.node e') = if e' = e then key else s.key e' := by
    intro e'
    simp only [key_setKey, Loc.node.injEq]
    rfl
  obtain ⟨t₁, T', gs, hinsert, hsound, hfill, hgoes, hlist, hsame⟩ := rbtreeInsert_spec hkeyed hT
  have hkey' : ∀ e', t₁.key (.node e') = if e' = e then key else s.key e' := fun e' => by
    rw [hsame, hkey]
  refine ⟨{ s with timerSet := Function.update s.timerSet e true, tree := t₁ }, T', gs, ?_,
    ⟨hsound, ?_, fun e' => ?_, fun e' => ?_, fun e' => ?_⟩, hfill, hlist, hkey', fun f hf => ?_⟩
  · rw [armTimer, hinsert]
    rfl
  · have hbefore : (Context.before gs ++ Context.after gs).Perm t.rbtree := by
      have hperm := h.perm
      rw [← hfill, Context.fill_toList, Colored.toList_nil, List.append_nil] at hperm
      exact hperm
    rw [hlist]
    exact List.perm_middle.trans (hbefore.cons e)
  · refine Eq.trans ?_ (hkey' e').symm
    by_cases heq : e' = e
    · simp [EventTimer.armTimer, EventTimer.rbtreeInsert, heq]
    · simp [EventTimer.armTimer, EventTimer.rbtreeInsert, heq, h.key]
  · refine Eq.trans ?_ (Function.update_apply s.timerSet e true e').symm
    by_cases heq : e' = e
    · simp [EventTimer.armTimer, EventTimer.rbtreeInsert, heq]
    · simp [EventTimer.armTimer, EventTimer.rbtreeInsert, heq, h.timerSet]
  · show _ = s.timedout e'
    by_cases heq : e' = e
    · simp [EventTimer.armTimer, EventTimer.rbtreeInsert, heq, h.timedout]
    · simp [EventTimer.armTimer, EventTimer.rbtreeInsert, heq, h.timedout]
  · -- the nodes passed are others, with the keys they had
    have hne : f.elem ≠ e := by
      rintro rfl
      refine hT ?_
      rw [← hfill, Context.mem_fill]
      exact .inr (Context.elem_mem hf)
    rw [hgoes f hf, goes, hkey, hkey, if_pos rfl, if_neg hne]

end Refinement


/-! ## The order -/

/-- No deadline is after that of a later node. -/
def Ordered (s : Store ε) (xs : List ε) : Prop := xs.Pairwise fun a b => NotAfter (s.key a) (s.key b)

section Order

variable {s s' : Store ε} {T T' : Colored ε} {t : Timers ε} {e : ε} {start key now timer : UInt32}
  {gs : Context ε}

theorem Unlinked.ordered (hu : Unlinked s T e s' T') (ho : Ordered s T.toList)
    (hnd : T.toList.Nodup) : Ordered s' T'.toList := by
  have hrest : Ordered s T'.toList := by
    rw [hu.toList]
    exact ho.sublist List.erase_sublist
  have hother : ∀ a ∈ T'.toList, s'.key a = s.key a := by
    intro a ha
    rw [hu.toList] at ha
    rw [hu.key, if_neg (hnd.mem_erase_iff.mp ha).1]
  refine List.Pairwise.imp_of_mem (fun {a b} ha hb hab => ?_) hrest
  rw [hother a ha, hother b hb]
  exact hab

/-- A node with a deadline in the span of the others finds its place. -/
theorem arm_ordered (ho : Ordered s (Context.fill gs .nil).toList) (he : e ∉ (Context.fill gs .nil).toList)
    (hkey : ∀ e', s'.key e' = if e' = e then key else s.key e')
    (hgoes : ∀ f ∈ gs, f.dir = if (key - s.key f.elem).toInt32 < 0 then .left else .right)
    (hspan : ∀ e' ∈ (Context.fill gs .nil).toList, InSpan start (s.key e'))
    (hnew : InSpan start key) :
    Ordered s' (Context.before gs ++ e :: Context.after gs) := by
  have hlist : (Context.fill gs .nil).toList = Context.before gs ++ Context.after gs := by
    rw [Context.fill_toList, Colored.toList_nil, List.append_nil]
  have hself : s'.key e = key := by rw [hkey, if_pos rfl]
  have hother : ∀ a ∈ Context.before gs ++ Context.after gs, s'.key a = s.key a := by
    intro a ha
    have hne : a ≠ e := by
      rintro rfl
      rw [← hlist] at ha
      exact he ha
    rw [hkey, if_neg hne]
  have hframe : ∀ f ∈ gs, f.elem ∈ Context.before gs ++ Context.after gs := by
    intro f hf
    rw [← hlist, Context.mem_fill]
    exact .inr (Context.elem_mem hf)
  rw [hlist] at ho hspan
  have hspan' : ∀ a ∈ Context.before gs ++ Context.after gs, InSpan start (s'.key a) := by
    intro a ha
    rw [hother a ha]
    exact hspan a ha
  -- in the span the walk compares distances from its start
  have hcompare : ∀ f ∈ gs, (key - s.key f.elem).toInt32 < 0 ↔
      offset start (s'.key e) < offset start (s'.key f.elem) := by
    intro f hf
    rw [hself, hother _ (hframe f hf)]
    exact sub_neg_iff hnew (hspan _ (hframe f hf))
  have hsorted : (Context.before gs ++ Context.after gs).Pairwise fun a b =>
      offset start (s'.key a) ≤ offset start (s'.key b) := by
    refine (pairwise_notAfter_iff hspan').mp (List.Pairwise.imp_of_mem (fun {a b} ha hb hab => ?_) ho)
    rw [hother a ha, hother b hb]
    exact hab
  have hbound : ∀ a ∈ Context.before gs ++ e :: Context.after gs, InSpan start (s'.key a) := by
    intro a ha
    rcases List.mem_append.mp ha with ha | ha
    · exact hspan' a (List.mem_append_left _ ha)
    · rcases List.mem_cons.mp ha with rfl | ha
      · rw [hself]
        exact hnew
      · exact hspan' a (List.mem_append_right _ ha)
  refine (pairwise_notAfter_iff hbound).mpr
    (Context.pairwise_insert hsorted (fun f hf hdir => ?_) fun f hf hdir => ?_)
  · rw [hgoes f hf] at hdir
    by_cases hless : (key - s.key f.elem).toInt32 < 0
    · exact Nat.le_of_lt ((hcompare f hf).mp hless)
    · rw [if_neg hless] at hdir
      cases hdir
  · rw [hgoes f hf] at hdir
    by_cases hless : (key - s.key f.elem).toInt32 < 0
    · rw [if_pos hless] at hdir
      cases hdir
    · exact Nat.le_of_not_lt (mt (hcompare f hf).mpr hless)

/-- A deadline that is left as it is, since it is close enough to the new one. -/
theorem near_of_lazy {x y : UInt32} (hx : InSpan start x) (hy : InSpan start y)
    (h : EventTimer.abs (x - y).toInt32 < timerLazyDelay) :
    ((y - x).toInt32.toInt.natAbs : Int) < timerLazyDelay.toInt := by
  have hxy := toInt_sub hx hy
  have hyx := toInt_sub hy hx
  unfold InSpan at hx hy
  have hdelay : timerLazyDelay.toInt = 300 := by decide
  rw [EventTimer.abs] at h
  rw [hdelay]
  split at h
  case isTrue hneg =>
    rw [Int32.lt_iff_toInt_lt, Int32.toInt_zero] at hneg
    rw [Int32.lt_iff_toInt_lt, Int32.toInt_neg, hdelay, hxy,
      Int.bmod_eq_of_le (by omega) (by omega)] at h
    omega
  case isFalse hneg =>
    rw [Int32.lt_iff_toInt_lt, Int32.toInt_zero] at hneg
    rw [Int32.lt_iff_toInt_lt, hdelay] at h
    omega

/-- Linking a node gives it the deadline and, in one span, keeps the order of the others. -/
theorem armTimer_ordered (h : Refines s T t) (he : e ∉ t.rbtree) (key : UInt32) :
    ∃ s' T', armTimer s e key = some s' ∧ Refines s' T' (EventTimer.armTimer t e key) ∧ s'.key e = key ∧
      ∀ start, Ordered s T.toList → (∀ e' ∈ T.toList, InSpan start (s.key e')) → InSpan start key →
        Ordered s' T'.toList := by
  obtain ⟨s', T', gs, harm, href, rfl, hlist, hkey, hgoes⟩ := armTimer_refines h he key
  have hnot : e ∉ (Context.fill gs .nil).toList := mt h.perm.mem_iff.mp he
  refine ⟨s', T', harm, href, ?_, fun start ho hspan hnew => ?_⟩
  · rw [hkey, if_pos rfl]
  · rw [hlist]
    exact arm_ordered ho hnot hkey hgoes hspan hnew

/-- The deadline asked for is there, or the lazy rule has left everything as it was. -/
def Rearmed (s : Store ε) (s' : Store ε) (e : ε) (key : UInt32) : Prop :=
  s'.key e = key ∨ s' = s ∧ ((s.key e - key).toInt32.toInt.natAbs : Int) < timerLazyDelay.toInt

omit [DecidableEq ε] in
theorem Rearmed.near (h : Rearmed s s' e key) :
    ((s'.key e - key).toInt32.toInt.natAbs : Int) < timerLazyDelay.toInt := by
  rcases h with hkey | ⟨rfl, hnear⟩
  · rw [hkey, UInt32.sub_self]
    decide
  · exact hnear

/-- `internal_event_add_timer` does what it does to the list and, in one span, keeps the order and leaves
a deadline close to the one asked for. -/
theorem internalEventAddTimer_refines (h : Refines s T t) (hc : Consistent t) (e : ε)
    (now timer : UInt32) :
    ∃ s' T' t', internalEventAddTimer now s e timer = some s' ∧
      EventTimer.eventAddTimer now t e timer = some t' ∧ Refines s' T' t' ∧
      ∀ start, Ordered s T.toList → (∀ e' ∈ T.toList, InSpan start (s.key e')) →
        InSpan start (now + timer) → Ordered s' T'.toList ∧ Rearmed s s' e (now + timer) := by
  have hflag : s.timerSet e = true ↔ e ∈ t.rbtree := by rw [← h.timerSet, hc.set_iff]
  rw [internalEventAddTimer, EventTimer.eventAddTimer]
  simp only [h.timerSet, h.key]
  by_cases hset : s.timerSet e = true
  · have he : e ∈ t.rbtree := hflag.mp hset
    rw [if_pos hset, if_pos hset]
    by_cases hlazy : EventTimer.abs (now + timer - s.key e).toInt32 < timerLazyDelay
    · rw [if_pos hlazy, if_pos hlazy]
      refine ⟨s, T, t, rfl, rfl, h, fun start ho hspan hnew => ⟨ho, .inr ⟨rfl, ?_⟩⟩⟩
      exact near_of_lazy hnew (hspan e (h.perm.mem_iff.mpr he)) hlazy
    · -- the node is moved
      rw [if_neg hlazy, if_neg hlazy]
      obtain ⟨s₁, T₁, t₁, hdel, habs, h₁, hu⟩ := internalEventDelTimer_refines h he
      obtain ⟨t₂, habs', -, haffects⟩ := hc.eventDelTimer he
      obtain rfl : t₁ = t₂ := Option.some.inj (habs.symm.trans habs')
      have he₁ : e ∉ t₁.rbtree := haffects.self.mp
      obtain ⟨s', T', harmed, href, hkey, hordered⟩ := armTimer_ordered h₁ he₁ (now + timer)
      refine ⟨s', T', _, ?_, ?_, href, fun start ho hspan hnew => ⟨?_, .inl hkey⟩⟩
      · rw [hdel, Option.bind_eq_bind, Option.bind_some, harmed]
      · rw [habs]
        rfl
      · refine hordered start (hu.ordered ho h.sound.nodup) (fun e' he' => ?_) hnew
        have hne : e' ≠ e := by
          rintro rfl
          exact he₁ (h₁.perm.mem_iff.mp he')
        rw [hu.toList] at he'
        rw [hu.key, if_neg hne]
        exact hspan e' (List.mem_of_mem_erase he')
  · have he : e ∉ t.rbtree := mt hflag.mpr hset
    rw [if_neg hset, if_neg hset]
    obtain ⟨s', T', harmed, href, hkey, hordered⟩ := armTimer_ordered h he (now + timer)
    exact ⟨s', T', _, harmed, rfl, href, fun start ho hspan hnew =>
      ⟨hordered start ho hspan hnew, .inl hkey⟩⟩

end Order

/-! ## The walks -/

section Walks

variable {s : Store ε} {T : Colored ε} {e : ε}

/-- `rbtree_min` finds the first node in order. -/
theorem rbtreeMin_root (h : Sound s.tree T) (hT : T ≠ .nil) :
    ∃ m rest, T.toList = m :: rest ∧
      rbtreeMin s.tree (s.tree.size + 1) s.tree.root = some (.node m) := by
  obtain ⟨gs, red, m, v, hfill, hleft, hmin⟩ := rbtreeMin_spec h.rep hT (Nat.le_of_lt h.height_lt)
  refine ⟨m, v.toList ++ Context.after gs, ?_, ?_⟩
  · rw [hfill, Context.fill_toList, Context.before_of_left hleft]
    rfl
  · rw [h.root]
    exact hmin

/-- A turn of the loop returns when the first deadline is after the clock. Otherwise it unlinks the
first node. -/
theorem expireTurn_refines {t : Timers ε} (h : Refines s T t) (now : UInt32) :
    (expireTurn now s = some (s, none) ∧ ∀ e ∈ T.toList.head?, 0 < (s.key e - now).toInt32) ∨
      ∃ e rest s' T' t', expireTurn now s = some (s', some e) ∧ EventTimer.expireTimer t e = some t' ∧
        EventTimer.Due now t e ∧ T.toList = e :: rest ∧ Refines s' T' t' ∧ Unlinked s T e s' T' ∧
        ∀ e', s'.timedout e' = if e' = e then true else s.timedout e' := by
  by_cases hT : T = .nil
  · have hroot : s.tree.root = .sentinel := by rw [h.sound.root, hT, loc_nil]
    refine .inl ⟨if_pos hroot, ?_⟩
    rintro e he
    rw [hT] at he
    cases he
  · have hroot : s.tree.root ≠ .sentinel := fun heq =>
      hT ((loc_eq_sentinel_iff T).mp (h.sound.root.symm.trans heq))
    obtain ⟨m, rest, hlist, hmin⟩ := rbtreeMin_root h.sound hT
    have hm : m ∈ T.toList := by
      rw [hlist]
      exact List.mem_cons_self
    by_cases hdue : 0 < (s.key m - now).toInt32
    · refine .inl ⟨?_, ?_⟩
      · rw [expireTurn, if_neg hroot, hmin]
        exact if_pos hdue
      · rintro e he
        rw [hlist] at he
        cases he
        exact hdue
    · obtain ⟨s₁, T', hunlink, hu, hout⟩ := unlinkTimer_spec h.sound hm
      have hmt : m ∈ t.rbtree := h.perm.mem_iff.mp hm
      let s' : Store ε := { s₁ with timedout := Function.update s₁.timedout m true }
      have hu' : Unlinked s T m s' T' := ⟨hu.sound, hu.toList, hu.key, hu.timerSet⟩
      have htimedout : ∀ e', s'.timedout e' = if e' = m then true else s.timedout e' := by
        intro e'
        rw [← hout]
        exact Function.update_apply s₁.timedout m true e'
      refine .inr ⟨m, rest, s', T', _, ?_, ?_, ?_, hlist, h.unlink hu' htimedout, hu', htimedout⟩
      · rw [expireTurn, if_neg hroot, hmin]
        simp only [Option.bind_eq_bind, Option.bind_some, hunlink, Option.pure_def]
        exact if_neg hdue
      · simp [EventTimer.expireTimer, EventTimer.rbtreeDelete, hmt, Timers.set]
      · rw [EventTimer.Due, h.key]
        exact hdue

end Walks

/-! ## Runs -/

/-- The store, and the last value of the clock in milliseconds. -/
structure State (ε : Type*) where
  store : Store ε
  clock : Nat

/-- What the program does with its timers, in any order: the handlers that `event_expire_timers` calls
between its turns do the same as the rest. -/
inductive Action (ε : Type*) where
  | addTimer (e : ε) (timer : UInt32) (now : Nat)
  | delTimer (e : ε)
  | expireTurn (now : Nat)

/-- One step. The clock is cut to 32 bits. -/
def step (s : State ε) : Action ε → Option (State ε)
  | .addTimer e timer now =>
      (internalEventAddTimer (UInt32.ofNat now) s.store e timer).map fun store => ⟨store, now⟩
  | .delTimer e => (internalEventDelTimer s.store e).map fun store => ⟨store, s.clock⟩
  | .expireTurn now => (expireTurn (UInt32.ofNat now) s.store).map fun out => ⟨out.1, now⟩

/-- The deadlines of the armed events lie in the span. -/
def LiveInSpan (start : UInt32) (s : Store ε) : Prop :=
  ∀ e, s.timerSet e = true → InSpan start (s.key e)

/-- The clock does not go back, and it lies in one span with the deadlines, the new one included. Only
an armed event is disarmed. -/
def Enabled (s : State ε) : Action ε → Prop
  | .addTimer _ timer now => s.clock ≤ now ∧ ∃ start, LiveInSpan start s.store ∧
      InSpan start (UInt32.ofNat now) ∧ InSpan start (UInt32.ofNat now + timer)
  | .delTimer e => s.store.timerSet e = true
  | .expireTurn now => s.clock ≤ now ∧ ∃ start, LiveInSpan start s.store ∧
      InSpan start (UInt32.ofNat now)

/-- The timers from `event_timer_init` on. -/
def timers (ε : Type*) [DecidableEq ε] : System (State ε) (Action ε) where
  init s := (∃ t, s.store.tree = eventTimerInit t) ∧ ∀ e, s.store.timerSet e = false
  enabled := Enabled
  next := step

/-- What holds between the operations: the links make an ordered tree, which refines the list. -/
def Kept (s : Store ε) (T : Colored ε) (t : Timers ε) : Prop :=
  Refines s T t ∧ Consistent t ∧ Ordered s T.toList

section Runs

variable {s : State ε} {T : Colored ε} {t : Timers ε} {e : ε}

theorem kept_init (h : (timers ε).init s) : ∃ t, Kept s.store .nil t := by
  obtain ⟨⟨t₀, htree⟩, hset⟩ := h
  have hsound : Sound s.store.tree (.nil : Colored ε) := by
    rw [htree]
    exact ⟨⟨rfl, trivial, List.nodup_nil, by simp [eventTimerInit]⟩, rfl, ⟨0, .nil⟩⟩
  let ev : ε → EventTimer.Event := fun e => { key := s.store.key e, timedout := s.store.timedout e }
  refine ⟨⟨ev, []⟩, ⟨hsound, .nil, fun _ => rfl, fun e => (hset e).symm, fun _ => rfl⟩, ⟨fun e => ?_, ?_⟩,
    List.Pairwise.nil⟩
  · simp [ev]
  · exact List.nodup_nil

/-- What the links show in every state: the armed events are those linked, each once, in the order of
their deadlines, and `rbtree_min` finds an earliest one. -/
structure InOrder (s : Store ε) (xs : List ε) : Prop where
  linked : linked s = some xs
  set_iff : ∀ e, s.timerSet e = true ↔ e ∈ xs
  once : xs.Nodup
  ordered : Ordered s xs
  earliest : xs ≠ [] → ∃ e ∈ xs, rbtreeMin s.tree (s.tree.size + 1) s.tree.root = some (.node e) ∧
    ∀ e' ∈ xs, NotAfter (s.key e) (s.key e')

/-- No event but `e` is linked or unlinked, or has got another deadline. -/
def Unmoved (s : Store ε) (xs : List ε) (s' : Store ε) (xs' : List ε) (e : ε) : Prop :=
  ∀ e', e' ≠ e → (e' ∈ xs' ↔ e' ∈ xs) ∧ s'.key e' = s.key e'

/-- What a step does to the nodes linked. -/
def Effect (s : Store ε) (xs : List ε) (s' : Store ε) (xs' : List ε) : Action ε → Prop
  | .addTimer e timer now =>
      e ∈ xs' ∧ Unmoved s xs s' xs' e ∧
        ((s'.key e - (UInt32.ofNat now + timer)).toInt32.toInt.natAbs : Int) < timerLazyDelay.toInt
  | .delTimer e => e ∉ xs' ∧ Unmoved s xs s' xs' e
  | .expireTurn now =>
      s' = s ∨ ∃ e ∈ xs, ¬ 0 < (s.key e - UInt32.ofNat now).toInt32 ∧ e ∉ xs' ∧ Unmoved s xs s' xs' e

theorem Kept.inOrder {s : Store ε} (h : Kept s T t) : InOrder s T.toList := by
  obtain ⟨href, hc, ho⟩ := h
  refine ⟨linked_eq href.sound, fun e => ?_, href.sound.nodup, ho, fun hne => ?_⟩
  · rw [← href.timerSet, hc.set_iff, href.perm.mem_iff]
  · have hT : T ≠ .nil := by
      rintro rfl
      exact hne rfl
    obtain ⟨m, rest, hlist, hmin⟩ := rbtreeMin_root href.sound hT
    rw [hlist] at ho ⊢
    refine ⟨m, List.mem_cons_self, hmin, fun e' he' => ?_⟩
    rcases List.mem_cons.mp he' with rfl | he'
    · exact NotAfter.refl _
    · exact (List.pairwise_cons.mp ho).1 e' he'

theorem unmoved_of_affects {ε : Type*} {s s' : Store ε} {T T' : Colored ε} {t t' : Timers ε} {e : ε}
    {p : Prop} (h : Refines s T t) (h' : Refines s' T' t') (ha : Affects t t' e p) :
    Unmoved s T.toList s' T'.toList e := by
  intro e' hne
  refine ⟨?_, ?_⟩
  · rw [h'.perm.mem_iff, h.perm.mem_iff]
    exact ha.other_mem e' hne
  · rw [← h'.key, ← h.key, ha.other_ev e' hne]

/-- Every armed deadline is that of a linked node. -/
theorem Kept.inSpan {s : Store ε} {start : UInt32} (h : Kept s T t) (hlive : LiveInSpan start s) :
    ∀ e ∈ T.toList, InSpan start (s.key e) :=
  fun e he => hlive e ((h.inOrder.set_iff e).mpr he)

theorem Kept.addTimer {s : Store ε} {start now timer : UInt32} (h : Kept s T t) (e : ε)
    (hlive : LiveInSpan start s) (hnew : InSpan start (now + timer)) :
    ∃ s' T' t', internalEventAddTimer now s e timer = some s' ∧ Kept s' T' t' ∧ e ∈ T'.toList ∧
      Unmoved s T.toList s' T'.toList e ∧ Rearmed s s' e (now + timer) := by
  obtain ⟨href, hc, ho⟩ := h
  obtain ⟨s', T', t', hadd, habs, href', horder⟩ := internalEventAddTimer_refines href hc e now timer
  obtain ⟨ho', hkey⟩ := horder start ho (Kept.inSpan ⟨href, hc, ho⟩ hlive) hnew
  obtain ⟨t₁, habs₁, hc', haffects⟩ := hc.eventAddTimer now e timer
  obtain rfl : t' = t₁ := Option.some.inj (habs.symm.trans habs₁)
  exact ⟨s', T', t', hadd, ⟨href', hc', ho'⟩, href'.perm.mem_iff.mpr (haffects.self.mpr trivial),
    unmoved_of_affects href href' haffects, hkey⟩

theorem Kept.delTimer {s : Store ε} (h : Kept s T t) (hset : s.timerSet e = true) :
    ∃ s' T' t', internalEventDelTimer s e = some s' ∧ Kept s' T' t' ∧ e ∉ T'.toList ∧
      Unmoved s T.toList s' T'.toList e := by
  have hlinked : e ∈ T.toList := (h.inOrder.set_iff e).mp hset
  obtain ⟨href, hc, ho⟩ := h
  have he : e ∈ t.rbtree := href.perm.mem_iff.mp hlinked
  obtain ⟨s', T', t', hdel, habs, href', hu⟩ := internalEventDelTimer_refines href he
  obtain ⟨t₁, habs₁, hc', haffects⟩ := hc.eventDelTimer he
  obtain rfl : t' = t₁ := Option.some.inj (habs.symm.trans habs₁)
  exact ⟨s', T', t', hdel, ⟨href', hc', hu.ordered ho href.sound.nodup⟩,
    fun hm => haffects.self.mp (href'.perm.mem_iff.mp hm), unmoved_of_affects href href' haffects⟩

theorem Kept.expireTurn {s : Store ε} (h : Kept s T t) (now : UInt32) :
    (expireTurn now s = some (s, none) ∧ ∀ e ∈ T.toList.head?, 0 < (s.key e - now).toInt32) ∨
      ∃ e rest s' T' t', expireTurn now s = some (s', some e) ∧ Kept s' T' t' ∧
        T.toList = e :: rest ∧ T'.toList = rest ∧ ¬ 0 < (s.key e - now).toInt32 ∧
        Unmoved s T.toList s' T'.toList e ∧
        ∀ e', s'.timedout e' = if e' = e then true else s.timedout e' := by
  obtain ⟨href, hc, ho⟩ := h
  rcases expireTurn_refines href now with hreturn | ⟨e, rest, s', T', t', hturn, habs, hdue, hlist, href', hu,
    hout⟩
  · exact .inl hreturn
  · have he : e ∈ t.rbtree := href.perm.mem_iff.mp (hlist ▸ List.mem_cons_self)
    obtain ⟨t₁, habs₁, hc', haffects⟩ := hc.expireTimer he
    obtain rfl : t' = t₁ := Option.some.inj (habs.symm.trans habs₁)
    have hrest : T'.toList = rest := by rw [hu.toList, hlist, List.erase_cons_head]
    refine .inr ⟨e, rest, s', T', t', hturn, ⟨href', hc', hu.ordered ho href.sound.nodup⟩, hlist, hrest, ?_,
      unmoved_of_affects href href' haffects, hout⟩
    rw [← href.key]
    exact hdue

/-- Every step that may be taken is taken, and keeps what holds. -/
theorem step_kept (h : Kept s.store T t) (a : Action ε) (hen : Enabled s a) :
    ∃ s' T' t', step s a = some s' ∧ Kept s'.store T' t' ∧
      Effect s.store T.toList s'.store T'.toList a := by
  cases a with
  | addTimer e timer now =>
      obtain ⟨-, start, hlive, -, hnew⟩ := hen
      obtain ⟨s', T', t', hadd, h', he, hother, hkey⟩ := h.addTimer e hlive hnew
      refine ⟨⟨s', now⟩, T', t', ?_, h', he, hother, hkey.near⟩
      rw [step, hadd]
      rfl
  | delTimer e =>
      obtain ⟨s', T', t', hdel, h', he, hother⟩ := h.delTimer hen
      refine ⟨⟨s', s.clock⟩, T', t', ?_, h', he, hother⟩
      rw [step, hdel]
      rfl
  | expireTurn now =>
      rcases h.expireTurn (UInt32.ofNat now) with ⟨hreturn, -⟩ | ⟨e, rest, s', T', t', hturn, h', hlist, hrest,
        hdue, hother, -⟩
      · refine ⟨⟨s.store, now⟩, T, t, ?_, h, .inl rfl⟩
        rw [step, hreturn]
        rfl
      · have hnd : (e :: rest).Nodup := hlist ▸ h.1.sound.nodup
        refine ⟨⟨s', now⟩, T', t', ?_, h', .inr ⟨e, ?_, hdue, ?_, hother⟩⟩
        · rw [step, hturn]
          rfl
        · rw [hlist]
          exact List.mem_cons_self
        · rw [hrest]
          exact (List.nodup_cons.mp hnd).1

theorem kept_reachable (hr : Reachable (timers ε) s) : ∃ T t, Kept s.store T t := by
  refine hr.invariant (P := fun s => ∃ T t, Kept s.store T t) (fun s h => ⟨.nil, kept_init h⟩)
    fun s a v h hen hnext => ?_
  obtain ⟨T, t, h⟩ := h
  obtain ⟨s', T', t', hstep, h', -⟩ := step_kept h a hen
  obtain rfl : s' = v := Option.some.inj (hstep.symm.trans hnext)
  exact ⟨T', t', h'⟩

/-- In every state that is reached the armed events are linked in the order of their deadlines, each
once, and every operation does what it is to do to its own event and nothing to the others. -/
theorem timers_inOrder (hr : Reachable (timers ε) s) :
    ∃ xs, InOrder s.store xs ∧ ∀ a, (timers ε).enabled s a →
      ∃ s' xs', (timers ε).next s a = some s' ∧ InOrder s'.store xs' ∧ Effect s.store xs s'.store xs' a := by
  obtain ⟨T, t, h⟩ := kept_reachable hr
  refine ⟨T.toList, h.inOrder, fun a hen => ?_⟩
  obtain ⟨s', T', t', hstep, h', heffect⟩ := step_kept h a hen
  exact ⟨s', T'.toList, hstep, h'.inOrder, heffect⟩

/-- A program that has just called `event_timer_init`, a second before the clock wraps around. -/
def beforeWrap : State Bool where
  store :=
    { timerSet := fun _ => false
      timedout := fun _ => false
      tree := eventTimerInit ⟨fun _ => 0, fun _ _ => none, fun _ => none, fun _ => true, .sentinel, 0⟩ }
  clock := 4294966296

theorem timers_inOrder_beforeWrap : ∃ s : State Bool, linked s.store = some [false, true] ∧
    s.store.key true < s.store.key false ∧
    ∃ xs, InOrder s.store xs ∧ ∀ a, (timers Bool).enabled s a →
      ∃ s' xs', (timers Bool).next s a = some s' ∧ InOrder s'.store xs' ∧
        Effect s.store xs s'.store xs' a := by
  have hlive : LiveInSpan 4294966296 beforeWrap.store := fun e he => by cases he
  -- the second deadline lies behind the wrap
  have hfirst : Run (timers Bool) beforeWrap [.addTimer false 500 4294966296] _ :=
    .snoc .nil ⟨by decide, 4294966296, hlive, by decide, by decide⟩ rfl
  have hsecond : Run (timers Bool) beforeWrap
      [.addTimer false 500 4294966296, .addTimer true 2000 4294966300] _ :=
    .snoc hfirst ⟨by decide, 4294966296, fun e => by cases e <;> decide, by decide, by decide⟩ rfl
  exact ⟨_, by decide, by decide,
    timers_inOrder ⟨beforeWrap, _, ⟨⟨_, rfl⟩, fun _ => rfl⟩, hsecond⟩⟩

end Runs

end Crawler.Rbtree
