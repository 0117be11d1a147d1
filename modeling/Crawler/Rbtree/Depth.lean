/-
# Crawler.Rbtree.Depth — how many turns the loops of the timer tree take

In `Crawler.Rbtree.Ops` a loop may take one turn for every node linked. The tree is balanced in every
state that is reached, also where deadlines too far apart have left it in no order. No way down from the
root is therefore longer than twice the logarithm of the number of armed events (`descend_lt`), and
neither `rbtree_min` nor the walks and the fixups of an insertion or a deletion take more turns than that.
With the smaller bound they do what they do with the larger one (`rbtreeInsertIn_mono`,
`rbtreeDeleteIn_mono`).

`event_find_timer` asks the same tree for the time to the first deadline (`eventFindTimer_first`).
-/
import Crawler.Rbtree.Expire

namespace Crawler.Rbtree

open Crawler.Lib
open Crawler.Lib.Circular
open Crawler.EventTimer (Timers Consistent)

variable {ε : Type*}

/-! ## Ways down -/

/-- Follow the links named, from `x` on. None leads on from the sentinel. -/
def descend (t : Nodes ε) : List Dir → Loc ε → Option (Loc ε)
  | [], x => some x
  | _ :: _, .sentinel => none
  | d :: ds, .node a => (t.child d (.node a)).bind (descend t ds)

/-- A way down ends at a subtree, with a frame for every link followed. -/
theorem descend_spec {t : Nodes ε} {par : Option ε} {s : Colored ε} {ds : List Dir} {y : Loc ε}
    (h : Rep t par s) (hds : descend t ds (loc s) = some y) :
    ∃ fs u, Context.fill fs u = s ∧ loc u = y ∧ fs.length = ds.length := by
  induction ds generalizing par s with
  | nil => exact ⟨[], s, rfl, Option.some.inj hds, rfl⟩
  | cons d ds ih =>
      cases s with
      | nil => cases hds
      | node red l a r =>
          obtain ⟨near, far, hbranch⟩ := Colored.exists_branch d red l a r
          rw [hbranch] at h hds ⊢
          obtain ⟨hnode, hnear, -⟩ := rep_branch.mp h
          have hchild : t.child d (.node a) = some (loc near) := hnode.near
          rw [loc_branch, descend, hchild, Option.bind_some] at hds
          obtain ⟨fs, u, hfill, hu, hlength⟩ := ih hnear hds
          refine ⟨fs ++ [⟨d, red, a, far⟩], u, ?_, hu, ?_⟩
          · rw [Context.fill_append, hfill]
            rfl
          · rw [List.length_append, hlength]
            rfl

/-- The way to a node is shorter than the tree is high. -/
theorem descend_lt {t : Nodes ε} {T : Colored ε} {ds : List Dir} {e : ε} (h : Sound t T)
    (hds : descend t ds t.root = some (.node e)) : ds.length < T.height := by
  rw [h.root] at hds
  obtain ⟨fs, u, hfill, hu, hlength⟩ := descend_spec h.rep hds
  have hpos : 0 < u.height := Colored.height_pos fun hnil => by
    rw [hnil] at hu
    cases hu
  have hle := Context.length_add_height_le fs u
  rw [hfill] at hle
  omega

theorem Sound.height_le {t : Nodes ε} {T : Colored ε} (h : Sound t T) :
    T.height ≤ 2 * Nat.log 2 (T.toList.length + 1) := by
  obtain ⟨n, hbal⟩ := h.balanced
  exact hbal.height_le_log

/-! ## More turns -/

section Turns

variable [DecidableEq ε] {t r : Nodes ε} {x y : Loc ε} {k k' : Nat}

theorem bind_mono {α β : Type*} {o : Option α} {f g : α → Option β} {b : β}
    (hfg : ∀ a, f a = some b → g a = some b) (h : o.bind f = some b) : o.bind g = some b := by
  cases o with
  | none => cases h
  | some a => exact hfg a h

theorem rbtreeMin_mono (h : rbtreeMin t k x = some y) (hk : k ≤ k') : rbtreeMin t k' x = some y := by
  induction k generalizing k' x with
  | zero => cases h
  | succ k ih =>
      obtain ⟨k', rfl⟩ := Nat.exists_eq_add_one_of_ne_zero (Nat.ne_zero_of_lt hk)
      rw [rbtreeMin] at h ⊢
      refine bind_mono (fun l hl => ?_) h
      by_cases hend : l = .sentinel
      · rwa [if_pos hend] at hl ⊢
      · rw [if_neg hend] at hl ⊢
        exact ih hl (Nat.le_of_succ_le_succ hk)

theorem rbtreeInsertTimerValue_mono (h : rbtreeInsertTimerValue k t x y = some r) (hk : k ≤ k') :
    rbtreeInsertTimerValue k' t x y = some r := by
  induction k generalizing k' x with
  | zero => cases h
  | succ k ih =>
      obtain ⟨k', rfl⟩ := Nat.exists_eq_add_one_of_ne_zero (Nat.ne_zero_of_lt hk)
      rw [rbtreeInsertTimerValue] at h ⊢
      refine bind_mono (fun p hp => ?_) h
      by_cases hend : p = .sentinel
      · rwa [if_pos hend] at hp ⊢
      · rw [if_neg hend] at hp ⊢
        exact ih hp (Nat.le_of_succ_le_succ hk)

theorem insertFixup_mono (h : insertFixup k t x = some r) (hk : k ≤ k') : insertFixup k' t x = some r := by
  induction k generalizing k' t x with
  | zero => cases h
  | succ k ih =>
      obtain ⟨k', rfl⟩ := Nat.exists_eq_add_one_of_ne_zero (Nat.ne_zero_of_lt hk)
      have hk : k ≤ k' := Nat.le_of_succ_le_succ hk
      rw [insertFixup] at h ⊢
      by_cases hroot : x = t.root
      · rwa [if_pos hroot] at h ⊢
      · rw [if_neg hroot] at h ⊢
        refine bind_mono (fun p hp => ?_) h
        by_cases hblack : t.red p = false
        · rwa [if_pos hblack] at hp ⊢
        · rw [if_neg hblack] at hp ⊢
          refine bind_mono (fun g hg => bind_mono (fun temp htemp => ?_) hg) hp
          by_cases hred : t.red temp = true
          · rw [if_pos hred] at htemp ⊢
            exact ih htemp hk
          · rw [if_neg hred] at htemp ⊢
            exact bind_mono (fun out hout => bind_mono (fun p hp => bind_mono (fun g hg =>
              bind_mono (fun t ht => ih ht hk) hg) hp) hout) htemp

theorem deleteFixup_mono (h : deleteFixup k t x = some r) (hk : k ≤ k') : deleteFixup k' t x = some r := by
  induction k generalizing k' t x with
  | zero => cases h
  | succ k ih =>
      obtain ⟨k', rfl⟩ := Nat.exists_eq_add_one_of_ne_zero (Nat.ne_zero_of_lt hk)
      have hk : k ≤ k' := Nat.le_of_succ_le_succ hk
      rw [deleteFixup] at h ⊢
      by_cases hend : x = t.root ∨ t.red x = true
      · rwa [if_pos hend] at h ⊢
      · rw [if_neg hend] at h ⊢
        refine bind_mono (fun p hp => bind_mono (fun w hw => bind_mono (fun out hout =>
          bind_mono (fun l hl => bind_mono (fun r hr => ?_) hl) hout) hw) hp) h
        by_cases hblack : out.1.red l = false ∧ out.1.red r = false
        · rw [if_pos hblack] at hr ⊢
          exact bind_mono (fun p hp => ih hp hk) hr
        · rw [if_neg hblack] at hr ⊢
          exact bind_mono (fun out hout => bind_mono (fun t ht => ih ht hk) hout) hr

/-- An insertion that goes through does the same when its loops may take more turns. -/
theorem rbtreeInsertIn_mono (h : rbtreeInsertIn k t x = some r) (hk : k ≤ k') :
    rbtreeInsertIn k' t x = some r := by
  rw [rbtreeInsertIn] at h ⊢
  by_cases hroot : t.root = .sentinel
  · rwa [if_pos hroot] at h ⊢
  · rw [if_neg hroot] at h ⊢
    obtain ⟨t₁, hwalk, h₁⟩ := Option.bind_eq_some_iff.mp h
    obtain ⟨t₂, hloop, h₂⟩ := Option.bind_eq_some_iff.mp h₁
    exact Option.bind_eq_some_iff.mpr ⟨t₁, rbtreeInsertTimerValue_mono hwalk hk,
      Option.bind_eq_some_iff.mpr ⟨t₂, insertFixup_mono hloop hk, h₂⟩⟩

theorem deletePickIn_mono {p : Loc ε × Loc ε} (h : deletePickIn k t x = some p) (hk : k ≤ k') :
    deletePickIn k' t x = some p := by
  rw [deletePickIn] at h ⊢
  refine bind_mono (fun l hl => ?_) h
  by_cases hleft : l = .sentinel
  · rwa [if_pos hleft] at hl ⊢
  · rw [if_neg hleft] at hl ⊢
    refine bind_mono (fun r hr => ?_) hl
    by_cases hright : r = .sentinel
    · rwa [if_pos hright] at hr ⊢
    · rw [if_neg hright] at hr ⊢
      obtain ⟨m, hmin, hm⟩ := Option.bind_eq_some_iff.mp hr
      exact Option.bind_eq_some_iff.mpr ⟨m, rbtreeMin_mono hmin hk, hm⟩

/-- So does a deletion. -/
theorem rbtreeDeleteIn_mono (h : rbtreeDeleteIn k t x = some r) (hk : k ≤ k') :
    rbtreeDeleteIn k' t x = some r := by
  rw [rbtreeDeleteIn] at h ⊢
  obtain ⟨⟨subst, temp⟩, hpick, hrest⟩ := Option.bind_eq_some_iff.mp h
  refine Option.bind_eq_some_iff.mpr ⟨_, deletePickIn_mono hpick hk, ?_⟩
  have hend : ∀ t' : Nodes ε, (if t.red subst = true then some t' else deleteFixup k t' temp) = some r →
      (if t.red subst = true then some t' else deleteFixup k' t' temp) = some r := by
    intro t' ht'
    by_cases hred : t.red subst = true
    · rwa [if_pos hred] at ht' ⊢
    · rw [if_neg hred] at ht' ⊢
      exact deleteFixup_mono ht' hk
  dsimp only at hrest ⊢
  by_cases hroot : subst = t.root
  · rwa [if_pos hroot] at hrest ⊢
  · rw [if_neg hroot] at hrest ⊢
    refine bind_mono (fun t₁ h₁ => ?_) hrest
    by_cases hone : subst = x
    · rw [if_pos hone] at h₁ ⊢
      exact bind_mono (fun t₂ h₂ => hend _ h₂) h₁
    · rw [if_neg hone] at h₁ ⊢
      exact bind_mono (fun t₂ h₂ => hend _ h₂) h₁

end Turns

/-! ## Every state that is reached -/

section Reached

variable [DecidableEq ε]

/-- The timers under any sequence of operations: the clock may do what it likes, and deadlines may lie
anywhere. Only an armed event is disarmed. -/
def anyTimers (ε : Type*) [DecidableEq ε] : System (State ε) (Action ε) where
  init := (timers ε).init
  enabled s a := ∀ e, a = .delTimer e → s.store.timerSet e = true
  next := step

/-- The nodes linked are those of the armed events, each once, in whatever order. -/
structure Armed (s : Store ε) (xs : List ε) : Prop where
  linked : linked s = some xs
  set_iff : ∀ e, s.timerSet e = true ↔ e ∈ xs
  once : xs.Nodup

omit [DecidableEq ε] in
theorem Refines.armed {s : Store ε} {T : Colored ε} {t : Timers ε} (h : Refines s T t)
    (hc : Consistent t) : Armed s T.toList :=
  ⟨linked_eq h.sound, fun e => by rw [← h.timerSet, hc.set_iff, h.perm.mem_iff], h.sound.nodup⟩

/-- Every operation is gone through, and leaves a tree that refines the list. -/
theorem step_refines {s : State ε} {T : Colored ε} {t : Timers ε} (h : Refines s.store T t)
    (hc : Consistent t) (a : Action ε) (hen : (anyTimers ε).enabled s a) :
    ∃ s' T' t', step s a = some s' ∧ Refines s'.store T' t' ∧ Consistent t' := by
  cases a with
  | addTimer e timer now =>
      obtain ⟨s', T', t', hadd, habs, h', -⟩ :=
        internalEventAddTimer_refines h hc e (UInt32.ofNat now) timer
      obtain ⟨t₁, habs₁, hc', -⟩ := hc.eventAddTimer (UInt32.ofNat now) e timer
      obtain rfl : t' = t₁ := Option.some.inj (habs.symm.trans habs₁)
      refine ⟨⟨s', now⟩, T', t', ?_, h', hc'⟩
      rw [step, hadd]
      rfl
  | delTimer e =>
      have he : e ∈ t.rbtree := h.perm.mem_iff.mp (((h.armed hc).set_iff e).mp (hen e rfl))
      obtain ⟨s', T', t', hdel, habs, h', -⟩ := internalEventDelTimer_refines h he
      obtain ⟨t₁, habs₁, hc', -⟩ := hc.eventDelTimer he
      obtain rfl : t' = t₁ := Option.some.inj (habs.symm.trans habs₁)
      refine ⟨⟨s', s.clock⟩, T', t', ?_, h', hc'⟩
      rw [step, hdel]
      rfl
  | expireTurn now =>
      rcases expireTurn_refines h (UInt32.ofNat now) with ⟨hreturn, -⟩ |
        ⟨e, rest, s', T', t', hturn, habs, -, hlist, h', -⟩
      · refine ⟨⟨s.store, now⟩, T, t, ?_, h, hc⟩
        rw [step, hreturn]
        rfl
      · have he : e ∈ t.rbtree := h.perm.mem_iff.mp (hlist ▸ List.mem_cons_self)
        obtain ⟨t₁, habs₁, hc', -⟩ := hc.expireTimer he
        obtain rfl : t' = t₁ := Option.some.inj (habs.symm.trans habs₁)
        refine ⟨⟨s', now⟩, T', t', ?_, h', hc'⟩
        rw [step, hturn]
        rfl

theorem refines_reachable {s : State ε} (hr : Reachable (anyTimers ε) s) :
    ∃ T t, Refines s.store T t ∧ Consistent t := by
  refine hr.invariant (P := fun s => ∃ T t, Refines s.store T t ∧ Consistent t) (fun s h => ?_)
    fun s a v h hen hnext => ?_
  · obtain ⟨t, href, hc, -⟩ := kept_init h
    exact ⟨.nil, t, href, hc⟩
  · obtain ⟨T, t, href, hc⟩ := h
    obtain ⟨s', T', t', hstep, h'⟩ := step_refines href hc a hen
    obtain rfl : s' = v := Option.some.inj (hstep.symm.trans hnext)
    exact ⟨T', t', h'⟩

/-- With `turns` turns a loop, the operations on the nodes `xs` of the tree go through, and do what they
do with a turn for every node. -/
structure Suffices (turns : Nat) (t : Nodes ε) (xs : List ε) : Prop where
  min : xs ≠ [] → ∃ m, rbtreeMin t turns t.root = some m ∧ rbtreeMin t (t.size + 1) t.root = some m
  insert : ∀ e ∉ xs, ∀ key, ∃ t', rbtreeInsertIn turns (t.setKey (.node e) key) (.node e) = some t' ∧
    rbtreeInsert (t.setKey (.node e) key) (.node e) = some t'
  delete : ∀ e ∈ xs, ∃ t', rbtreeDeleteIn turns t (.node e) = some t' ∧
    rbtreeDelete t (.node e) = some t'

theorem Sound.setKey {t : Nodes ε} {T : Colored ε} (h : Sound t T) (e : ε) (key : UInt32) :
    Sound (t.setKey (.node e) key) T :=
  h.congr (fun _ _ => ⟨fun _ => rfl, rfl, rfl⟩) rfl rfl rfl

/-- More turns than the tree is high are enough, and those that the model allows are so many. -/
theorem Sound.suffices {t : Nodes ε} {T : Colored ε} {turns : Nat} (h : Sound t T)
    (hturns : T.height < turns) : Suffices turns t T.toList := by
  -- the smaller bound of the two
  have hleast : T.height + 1 ≤ turns := hturns
  have hsize : T.height + 1 ≤ t.size + 1 := h.height_lt
  refine ⟨fun hne => ?_, fun e he key => ?_, fun e he => ?_⟩
  · have hT : T ≠ .nil := by
      rintro rfl
      exact hne rfl
    obtain ⟨gs, red, m, v, -, -, hmin⟩ := rbtreeMin_spec h.rep hT (Nat.le_succ T.height)
    rw [← h.root] at hmin
    exact ⟨.node m, rbtreeMin_mono hmin hleast, rbtreeMin_mono hmin hsize⟩
  · obtain ⟨t', T', gs, hinsert, -⟩ := rbtreeInsertIn_spec (h.setKey e key) he (Nat.lt_succ_self T.height)
    exact ⟨t', rbtreeInsertIn_mono hinsert hleast, rbtreeInsertIn_mono hinsert hsize⟩
  · obtain ⟨t', T', hdelete, -⟩ := rbtreeDeleteIn_spec h he (Nat.lt_succ_self T.height)
    exact ⟨t', rbtreeDeleteIn_mono hdelete hleast, rbtreeDeleteIn_mono hdelete hsize⟩

/-- In every state that any sequence of operations reaches with `n` events armed, an armed event is less
than `2 * log (n + 1)` links below the root, and no loop of an operation takes more turns than one more
than that. -/
theorem timers_shallow {st : State ε} (hr : Reachable (anyTimers ε) st) :
    ∃ xs, Armed st.store xs ∧
      (∀ ds e, descend st.store.tree ds st.store.tree.root = some (.node e) →
        ds.length < 2 * Nat.log 2 (xs.length + 1)) ∧
      ∀ turns, 2 * Nat.log 2 (xs.length + 1) < turns → Suffices turns st.store.tree xs := by
  obtain ⟨T, t, href, hc⟩ := refines_reachable hr
  have hsound : Sound st.store.tree T := href.sound
  exact ⟨T.toList, href.armed hc,
    fun ds e hds => Nat.lt_of_lt_of_le (descend_lt hsound hds) hsound.height_le,
    fun turns hturns => hsound.suffices (Nat.lt_of_le_of_lt hsound.height_le hturns)⟩

/-- Two armed events, the second hanging one link below the first. The clock has gone back between them,
and the deadlines lie half a circle apart. -/
theorem timers_shallow_clockBack : ∃ st : State Bool, linked st.store = some [true, false] ∧
    st.store.key false - st.store.key true = 2147483648 ∧
    descend st.store.tree [.left] st.store.tree.root = some (.node true) ∧
    ∃ xs, Armed st.store xs ∧
      (∀ ds e, descend st.store.tree ds st.store.tree.root = some (.node e) →
        ds.length < 2 * Nat.log 2 (xs.length + 1)) ∧
      ∀ turns, 2 * Nat.log 2 (xs.length + 1) < turns → Suffices turns st.store.tree xs := by
  have hfirst : Run (anyTimers Bool) beforeWrap [.addTimer false 1000 4294966296] _ :=
    .snoc .nil (fun e he => by cases he) rfl
  have hsecond : Run (anyTimers Bool) beforeWrap
      [.addTimer false 1000 4294966296, .addTimer true 1000 2147482648] _ :=
    .snoc hfirst (fun e he => by cases he) rfl
  exact ⟨_, by decide, by decide, by decide,
    timers_shallow ⟨beforeWrap, _, ⟨⟨_, rfl⟩, fun _ => rfl⟩, hsecond⟩⟩

end Reached

/-! ## The time to the first deadline -/

/-- `TIMER_INFINITE`. -/
def timerInfinite : UInt32 := 4294967295

/-- `event_find_timer()` at clock value `now`. -/
def eventFindTimer [DecidableEq ε] (now : UInt32) (s : Store ε) : Option UInt32 :=
  if s.tree.root = .sentinel then some timerInfinite
  else
    (rbtreeMin s.tree (s.tree.size + 1) s.tree.root).map fun node =>
      let timer := (s.tree.key node - now).toInt32
      (if 0 < timer then timer else 0).toUInt32

section FindTimer

variable [DecidableEq ε] {now : UInt32}

omit [DecidableEq ε] in
/-- After `r` ticks an armed event is due, and none is before. -/
structure FirstDue (now : UInt32) (s : Store ε) (r : UInt32) : Prop where
  short : r < 2147483648
  some : ∃ e, IsDue (now + r) s e
  none : ∀ d, d < r → ∀ e, ¬ IsDue (now + d) s e

/-- Where the root is a node, the result is the distance to the first deadline. -/
theorem eventFindTimer_eq {s : Store ε} {m : ε} (hroot : s.tree.root ≠ .sentinel)
    (hmin : rbtreeMin s.tree (s.tree.size + 1) s.tree.root = some (.node m)) :
    eventFindTimer now s = some (if 0 < (s.key m - now).toInt32 then s.key m - now else 0) := by
  rw [eventFindTimer, if_neg hroot, hmin, Option.map_some]
  refine congrArg some ?_
  change (if 0 < (s.key m - now).toInt32 then (s.key m - now).toInt32 else 0).toUInt32 = _
  by_cases hlater : 0 < (s.key m - now).toInt32
  · rw [if_pos hlater, if_pos hlater, UInt32.toUInt32_toInt32]
  · rw [if_neg hlater, if_neg hlater]
    rfl

/-- `event_find_timer` says how long it is until the first armed event is due. -/
theorem eventFindTimer_first {st : State ε} (hr : Reachable (timers ε) st) (hspan : OneSpan now st.store) :
    (eventFindTimer now st.store = some timerInfinite ∧ ∀ e, st.store.timerSet e = false) ∨
      ∃ r, eventFindTimer now st.store = some r ∧ FirstDue now st.store r := by
  obtain ⟨T, t, h⟩ := kept_reachable hr
  obtain ⟨start, hlive, hnow⟩ := hspan
  by_cases hT : T = .nil
  · have hroot : st.store.tree.root = .sentinel := by rw [h.1.sound.root, hT, loc_nil]
    refine .inl ⟨?_, fun e => Bool.eq_false_iff.mpr (h.not_set ?_)⟩
    · exact if_pos hroot
    · rw [hT]
      exact List.not_mem_nil
  · have hroot : st.store.tree.root ≠ .sentinel := fun heq =>
      hT ((loc_eq_sentinel_iff T).mp (h.1.sound.root.symm.trans heq))
    obtain ⟨m, hm, hmin, hfirst⟩ := h.inOrder.earliest (Colored.toList_ne_nil hT)
    have hset : st.store.timerSet m = true := (h.inOrder.set_iff m).mpr hm
    have hmspan : InSpan start (st.store.key m) := hlive m hset
    have hhalf : offset start (st.store.key m) < 2147483648 := hmspan
    refine .inr ⟨_, eventFindTimer_eq hroot hmin, ?_⟩
    by_cases hlater : 0 < (st.store.key m - now).toInt32
    · rw [if_pos hlater]
      have hafter : offset start now < offset start (st.store.key m) := by
        rw [← not_notAfter_iff, notAfter_iff hmspan hnow] at hlater
        exact Nat.lt_of_not_le hlater
      have hdist := toNat_sub (Nat.le_of_lt hafter)
      refine ⟨?_, ⟨m, hset, ?_⟩, fun d hd e hdue => ?_⟩
      · rw [UInt32.lt_iff_toNat_lt, hdist]
        exact Nat.lt_of_le_of_lt (Nat.sub_le _ _) hhalf
      · have hsum : now + (st.store.key m - now) = st.store.key m := by grind
        rw [hsum]
        exact NotAfter.refl _
      · -- the other deadlines are no earlier than the first
        obtain ⟨hset', hkey⟩ := hdue
        have hle : NotAfter (st.store.key m) (st.store.key e) := hfirst e ((h.inOrder.set_iff e).mp hset')
        rw [notAfter_iff hmspan (hlive e hset')] at hle
        rw [UInt32.lt_iff_toNat_lt, hdist] at hd
        exact not_notAfter_of_lt (hlive e hset') (by omega) hkey
    · rw [if_neg hlater]
      refine ⟨by decide, ⟨m, hset, ?_⟩, fun d hd => ?_⟩
      · rw [UInt32.add_zero]
        exact Int32.not_lt.mp hlater
      · exact absurd hd (UInt32.not_lt_zero)

/-- The deadline lies behind the wrap of the clock, 1996 ticks ahead. -/
theorem eventFindTimer_first_beforeWrap : ∃ st : State Bool,
    eventFindTimer 4294966300 st.store = some 1996 ∧
    ((eventFindTimer 4294966300 st.store = some timerInfinite ∧ ∀ e, st.store.timerSet e = false) ∨
      ∃ r, eventFindTimer 4294966300 st.store = some r ∧ FirstDue 4294966300 st.store r) := by
  have hlive : LiveInSpan 4294966296 beforeWrap.store := fun e he => by cases he
  have hrun : Run (timers Bool) beforeWrap [.addTimer true 2000 4294966296] _ :=
    .snoc .nil ⟨by decide, 4294966296, hlive, by decide, by decide⟩ rfl
  exact ⟨_, by decide, eventFindTimer_first ⟨beforeWrap, _, ⟨⟨_, rfl⟩, fun _ => rfl⟩, hrun⟩
    ⟨4294966296, fun e => by cases e <;> decide, by decide⟩⟩

end FindTimer

end Crawler.Rbtree
