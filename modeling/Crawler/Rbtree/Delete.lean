/-
# Crawler.Rbtree.Delete — what `rbtree_delete` does to the tree

A node leaves the tree at a place where it has one child at most: its own place, or that of its
successor, which then takes its place over (`deleteUnlink_spec`, `deleteReplace_spec`). Where a black node
has left, the subtree left there is one black node short, and the loop moves this up or mends it
(`deleteFixup_spec`). The pointer `temp` to that subtree may be the sentinel, and then the loop goes up
by the sentinel's own `parent`.
-/
import Crawler.Rbtree.Insert

namespace Crawler.Rbtree

open Crawler.Lib

variable {ε : Type*} {t : Nodes ε} {fs : Context ε} {s : Colored ε} {x : ε} {f : Frame ε}

/-! ## The loop -/

/-- An empty subtree has the sentinel's `parent`. -/
def Parented (t : Nodes ε) (fs : Context ε) (s : Colored ε) : Prop :=
  s = .nil → ∀ p, top fs = some p → t.parent .sentinel = some (.node p)

theorem Parented.parent (hpar : Parented t (f :: fs) s) (h : Whole t (Context.fill (f :: fs) s)) :
    t.parent (loc s) = some (.node f.elem) := by
  cases s with
  | nil => exact hpar rfl f.elem rfl
  | node red l a r => exact h.at.2.1.parent f.elem rfl

theorem Parented.quiet {t' : Nodes ε} {fs' : Context ε} (hpar : Parented t fs s) (hquiet : Quiet t t')
    (htop : top fs' = top fs) : Parented t' fs' s :=
  fun hs p hp => hquiet.parent.trans (hpar hs p (htop.symm.trans hp))

/-- The two children that the loop looks at, whichever side they are seen from. -/
theorem black_children {d : Dir} {red : Bool} {w : ε} {par : Option ε} {y z : Loc ε}
    (h : NodeAt t w d red y z par) :
    ∃ l r, t.child .left (.node w) = some l ∧ t.child .right (.node w) = some r ∧
      ((t.red l = false ∧ t.red r = false) ↔ (t.red y = false ∧ t.red z = false)) := by
  cases d with
  | left => exact ⟨y, z, h.near, h.far, Iff.rfl⟩
  | right => exact ⟨z, y, h.far, h.near, and_comm⟩

/-- One black node is missing on the ways to `s`: its root is red, and can be painted, or black. -/
def Short (n : Nat) (s : Colored ε) : Prop :=
  (s.isRed = true ∧ BlackBalanced false (n + 1) s.blacken) ∨ BlackBalanced false n s

/-- What taking out a node with one child at most means for the balance: nothing for a red one, and a
black node too few below a black one. -/
theorem short_of_balanced {d : Dir} {red red' : Bool} {n : Nat} {m : ε} {v : Colored ε}
    (hfit : Fits red' n fs) (hbal : BlackBalanced red' n (.branch d red v m .nil)) :
    (red = true ∧ ∃ k, BlackBalanced false k (Context.fill fs v)) ∨
      (red = false ∧ ∃ k, Short k v ∧ Fits false (k + 1) fs) := by
  cases red with
  | true =>
      obtain ⟨rfl, hv, -⟩ := hbal.of_red
      exact .inl ⟨rfl, hfit.of_red.fill hv⟩
  | false =>
      obtain ⟨rfl, k, redv, -, rfl, hv, -⟩ := hbal.of_black
      refine .inr ⟨rfl, k, ?_, hfit⟩
      cases redv with
      | true => exact .inl ⟨hv.isRed, hv.blacken_red⟩
      | false => exact .inr hv

section Fixup

variable [DecidableEq ε] {d : Dir} {c red : Bool} {n turns : Nat} {p w : ε} {u v near far : Colored ε}

/-- The loop ends at the root, and at a red node, which it paints black. -/
theorem deleteFixup_end (h : Whole t (Context.fill fs s)) (hend : fs = [] ∨ s.isRed = true) :
    deleteFixup (turns + 1) t (loc s) = some (t.setRed (loc s) false) := by
  rw [deleteFixup, if_pos]
  rcases hend with rfl | hred
  · exact .inl h.root.symm
  · refine .inr ?_
    rw [h.at.2.isRed h.black, hred]

/-- A black sibling: as it is, or the inner child of a red one, which comes up. -/
theorem deleteRedSibling_spec (h : Whole t (Context.fill (f :: fs) s)) (hpar : Parented t (f :: fs) s)
    (hfit : Fits false (n + 1) (f :: fs)) :
    ∃ t' f' fs', deleteRedSibling f.dir t (loc s) (loc f.sibling) = some (t', loc f'.sibling) ∧
      Whole t' (Context.fill (f' :: fs') s) ∧ Parented t' (f' :: fs') s ∧ f'.dir = f.dir ∧
      BlackBalanced false (n + 1) f'.sibling ∧ Fits false (n + 1) (f' :: fs') ∧
      (f'.red = true ∨ fs' = fs) ∧
      (Context.fill (f' :: fs') s).toList = (Context.fill (f :: fs) s).toList ∧ Quiet t t' := by
  have hsibred : t.red (loc f.sibling) = f.sibling.isRed := h.at.1.2.1.isRed h.black
  cases hred : f.sibling.isRed with
  | false =>
      have hsib : BlackBalanced false (n + 1) f.sibling := by
        cases hfit with
        | red _ hsib _ => exact hsib
        | black _ hsib _ =>
            rw [hsib.isRed] at hred
            exact hred ▸ hsib
      refine ⟨t, f, fs, ?_, h, hpar, rfl, hsib, hfit, .inr rfl, rfl, Quiet.refl t⟩
      rw [deleteRedSibling, if_neg (by rw [hsibred, hred]; decide)]
  | true =>
      cases hfit with
      | red _ hsib _ =>
          rw [hsib.isRed] at hred
          cases hred
      | black hf hsib hfit =>
          obtain ⟨d, c, p, sib⟩ := f
          obtain rfl : c = false := hf
          rw [hsib.isRed] at hred
          subst hred
          obtain ⟨near, w, far, rfl⟩ : ∃ near w far, sib = .branch d true near w far :=
            hsib.exists_red d
          obtain ⟨-, hnear, hfar⟩ := hsib.of_red
          have hp : t.parent (loc s) = some (.node p) := hpar.parent h
          have hflip := h
          rw [Context.fill_flip] at hflip
          have hw : Whole (t.setRed (.node w) false) (Context.fill fs
              (.branch d.flip false (.branch d false near w far) p s)) := hflip.paint false
          have hpaint := hw.paint true
          rw [Colored.branch_flip] at hpaint
          obtain ⟨t', hrotate, hwhole, hq⟩ := rotate_spec hpaint
          have hquiet := ((quiet_setRed t w false).trans (quiet_setRed _ p true)).trans hq
          have hwhole' : Whole t' (Context.fill (⟨d, true, p, near⟩ :: ⟨d, false, w, far⟩ :: fs) s) :=
            hwhole
          have hpar' : Parented t' (⟨d, true, p, near⟩ :: ⟨d, false, w, far⟩ :: fs) s :=
            hpar.quiet hquiet rfl
          refine ⟨t', ⟨d, true, p, near⟩, ⟨d, false, w, far⟩ :: fs, ?_, hwhole', hpar', rfl, hnear,
            .red rfl hnear (.black rfl hfar hfit), .inl rfl, ?_, hquiet⟩
          · have hnext : t'.child d.flip (.node p) = some (loc near) := hwhole'.at.1.1.far
            rw [deleteRedSibling, if_pos (hsibred.trans hsib.isRed)]
            simp only [loc_branch, hp, Option.bind_eq_bind, Option.bind_some,
              rbtreeRotate_eq, hrotate, hpar'.parent hwhole', hnext, Option.pure_def]
          · exact Context.fill_toList_congr fs Colored.rotate_toList

/-- A black sibling with a red child: its outer child is red, or is made so by a rotation. -/
theorem deleteInnerRed_spec {redn redf : Bool}
    (h : Whole t (Context.fill (⟨d, c, p, .branch d false near w far⟩ :: fs) s))
    (hpar : Parented t (⟨d, c, p, .branch d false near w far⟩ :: fs) s)
    (hnear : BlackBalanced redn n near) (hfar : BlackBalanced redf n far)
    (hred : redn = true ∨ redf = true) :
    ∃ t' near' w' far' redn', deleteInnerRed d t (loc s) (.node w) = some (t', .node w') ∧
      Whole t' (Context.fill (⟨d, c, p, .branch d false near' w' far'⟩ :: fs) s) ∧
      BlackBalanced redn' n near' ∧ BlackBalanced true n far' ∧
      (Context.fill (⟨d, c, p, .branch d false near' w' far'⟩ :: fs) s).toList =
        (Context.fill (⟨d, c, p, .branch d false near w far⟩ :: fs) s).toList ∧ Quiet t t' := by
  have hchild : t.child d.flip (.node w) = some (loc far) := (rep_branch.mp h.at.1.2.1).1.far
  have hfarred : t.red (loc far) = redf := by
    rw [(rep_branch.mp h.at.1.2.1).2.2.isRed h.black, hfar.isRed]
  cases redf with
  | true =>
      refine ⟨t, near, w, far, redn, ?_, h, hnear, hfar, rfl, Quiet.refl t⟩
      rw [deleteInnerRed, hchild, Option.bind_eq_bind, Option.bind_some, hfarred, if_neg (by decide)]
      rfl
  | false =>
      obtain rfl : redn = true := hred.resolve_right (by decide)
      obtain ⟨u, m, v, rfl⟩ := hnear.exists_red d.flip
      obtain ⟨-, hu, hv⟩ := hnear.of_red
      have hchild' : t.child d (.node w) = some (.node m) := by
        rw [← loc_branch d.flip true u m v]
        exact (rep_branch.mp h.at.1.2.1).1.near
      have hp : t.parent (loc s) = some (.node p) := hpar.parent h
      -- to the red inner child of the sibling
      have hm : Whole t (Context.fill (⟨d, false, w, far⟩ :: ⟨d.flip, c, p, s⟩ :: fs)
          (.branch d.flip true u m v)) := by
        rw [Context.fill_flip] at h
        exact h
      have hw : Whole (t.setRed (.node m) false) (Context.fill (⟨d.flip, c, p, s⟩ :: fs)
          (.branch d false (.branch d.flip false u m v) w far)) := hm.paint false
      have hpaint := hw.paint true
      rw [← Colored.branch_flip d true] at hpaint
      obtain ⟨t', hrotate, hwhole, hq⟩ := rotate_spec hpaint
      have hquiet := ((quiet_setRed t m false).trans (quiet_setRed _ w true)).trans hq
      rw [Colored.branch_flip, Colored.branch_flip] at hwhole
      have hwhole' : Whole t' (Context.fill
          (⟨d, c, p, .branch d false v m (.branch d true u w far)⟩ :: fs) s) := by
        rw [Context.fill_flip]
        exact hwhole
      refine ⟨t', v, m, .branch d true u w far, false, ?_, hwhole', hv, hu.branch_red hfar, ?_, hquiet⟩
      · have hpar' : Parented t' (⟨d, c, p, .branch d false v m (.branch d true u w far)⟩ :: fs) s :=
          hpar.quiet hquiet rfl
        have hnext : t'.child d.flip (.node p) = some (.node m) := by
          rw [← loc_branch d false v m (.branch d true u w far)]
          exact hwhole'.at.1.1.far
        rw [deleteInnerRed, hchild, Option.bind_eq_bind, Option.bind_some, hfarred, if_pos rfl, hchild']
        simp only [Option.bind_eq_bind, Option.bind_some, rbtreeRotate_eq, hrotate,
          hpar'.parent hwhole', hnext, Option.pure_def]
      · rw [Context.fill_flip, Context.fill_flip ⟨d, c, p, .branch d false _ w far⟩]
        refine Context.fill_toList_congr (⟨d.flip, c, p, s⟩ :: fs) ?_
        rw [Colored.branch_flip]
        exact Colored.rotate_toList.symm

/-- A black sibling with a red outer child comes up; its child goes black in its place, and there is a
black node more on the way to `s`. -/
theorem deleteOuterRed_spec {redn : Bool}
    (h : Whole t (Context.fill (⟨d, c, p, .branch d false near w far⟩ :: fs) s))
    (hpar : Parented t (⟨d, c, p, .branch d false near w far⟩ :: fs) s) (hs : BlackBalanced false n s)
    (hnear : BlackBalanced redn n near) (hfar : BlackBalanced true n far)
    (hfit : Fits false (n + 1) (⟨d, c, p, .branch d false near w far⟩ :: fs)) :
    ∃ t' T', deleteOuterRed d t (loc s) (.node w) = some t' ∧ Whole t' T' ∧
      T'.toList = (Context.fill (⟨d, c, p, .branch d false near w far⟩ :: fs) s).toList ∧
      (∃ m, BlackBalanced false m T') ∧ Quiet t t' := by
  have hp : t.parent (loc s) = some (.node p) := hpar.parent h
  have hcolour : t.red (.node p) = c := h.at.1.1.red
  have hchild : t.child d.flip (.node w) = some (loc far) := (rep_branch.mp h.at.1.2.1).1.far
  -- paint `w`, then `p`, then the outer child
  have hw : Whole (t.setRed (.node w) c) (Context.fill fs
      (.branch d.flip c (.branch d c near w far) p s)) := by
    rw [Context.fill_flip] at h
    exact h.paint c
  have hp₂ : Whole ((t.setRed (.node w) c).setRed (.node p) false)
      (Context.fill (⟨d.flip, c, w, near⟩ :: ⟨d.flip, false, p, s⟩ :: fs) far) := by
    have hpaint := hw.paint false
    rw [← Colored.branch_flip d c] at hpaint
    exact hpaint
  obtain ⟨hfar₃, hq₃⟩ := hp₂.paintBlack
  have h₃ : Whole (((t.setRed (.node w) c).setRed (.node p) false).setRed (loc far) false)
      (Context.fill fs (.branch d false s p (.branch d c near w far.blacken))) := by
    rw [← Colored.branch_flip d false, ← Colored.branch_flip d c]
    exact hfar₃
  obtain ⟨t', hrotate, hwhole, hq⟩ := rotate_spec h₃
  have hquiet := (((quiet_setRed t w c).trans (quiet_setRed _ p false)).trans hq₃).trans hq
  refine ⟨t', _, ?_, hwhole, ?_, ?_, hquiet⟩
  · rw [deleteOuterRed, hp, Option.bind_eq_bind, Option.bind_some]
    simp only [hcolour, child_setRed, hchild, Option.bind_some, rbtreeRotate_eq, hrotate]
  · refine Context.fill_toList_congr fs ?_
    calc (Colored.branch d c (.branch d false s p near) w far.blacken).toList
        = (Colored.branch d c s p (.branch d false near w far.blacken)).toList := Colored.rotate_toList
      _ = (Colored.branch d c s p (.branch d false near w far)).toList :=
          Colored.branch_toList_congr c c rfl
            (Colored.branch_toList_congr false false rfl (Colored.blacken_toList far))
  · have hinner : BlackBalanced false (n + 1) (.branch d false s p near) := hs.branch_black hnear
    have houter : BlackBalanced false (n + 1) far.blacken := hfar.blacken_red
    cases hfit with
    | red hc _ hfit =>
        obtain rfl : c = true := hc
        exact (hfit.of_red).fill (hinner.branch_red houter)
    | black hc _ hfit =>
        obtain rfl : c = false := hc
        exact hfit.fill (hinner.branch_black houter)

/-- A black sibling with two black children goes red, and what is one black node short is now the
subtree of the parent. -/
theorem deleteRecolour_spec
    (h : Whole t (Context.fill (⟨d, c, p, .branch d false near w far⟩ :: fs) s)) :
    Whole (t.setRed (.node w) true) (Context.fill fs (.branch d c s p (.branch d true near w far))) := by
  rw [Context.fill_flip] at h
  have hpaint : Whole (t.setRed (.node w) true) (Context.fill fs
      (.branch d.flip c (.branch d true near w far) p s)) := h.paint true
  rwa [Colored.branch_flip] at hpaint

/-- The loop sees on which side of its parent it is. -/
theorem side_of_fits (h : Whole t (Context.fill (f :: fs) s)) (hfit : Fits false (n + 1) (f :: fs)) :
    side t (.node f.elem) (loc s) = f.dir := by
  -- the sibling is not empty, so the two children differ
  obtain ⟨w, hw⟩ : ∃ w, loc f.sibling = .node w := by
    cases hfit with
    | red _ hsib _ =>
        obtain ⟨y, w, z, hyz⟩ := hsib.exists_branch .left
        exact ⟨w, by rw [hyz, loc_branch]⟩
    | black _ hsib _ =>
        obtain ⟨y, w, z, hyz⟩ := hsib.exists_branch .left
        exact ⟨w, by rw [hyz, loc_branch]⟩
  refine side_eq h.at.1.1 fun heq => ?_
  exact h.loc_ne (heq.symm.trans hw) heq

/-- A turn of the loop, after which the sibling of `s` is the black node `w`. -/
theorem deleteFixup_turn {t₁ : Nodes ε} {fs' : Context ε} {redn redf : Bool}
    (h : Whole t (Context.fill (f :: fs) s)) (hpar : Parented t (f :: fs) s)
    (hs : BlackBalanced false n s) (hfit : Fits false (n + 1) (f :: fs))
    (hsibling : deleteRedSibling f.dir t (loc s) (loc f.sibling) = some (t₁, .node w))
    (h₁ : Whole t₁ (Context.fill (⟨f.dir, c, p, .branch f.dir false near w far⟩ :: fs') s))
    (hpar₁ : Parented t₁ (⟨f.dir, c, p, .branch f.dir false near w far⟩ :: fs') s)
    (hnear : BlackBalanced redn n near) (hfar : BlackBalanced redf n far) :
    deleteFixup (turns + 1) t (loc s) =
      if redn = false ∧ redf = false then deleteFixup turns (t₁.setRed (.node w) true) (.node p)
      else
        (deleteInnerRed f.dir t₁ (loc s) (.node w)).bind fun out =>
          (deleteOuterRed f.dir out.1 (loc s) out.2).bind fun t => deleteFixup turns t t.root := by
  have hroot : ¬ (loc s = t.root ∨ t.red (loc s) = true) := by
    rw [h.at.2.isRed h.black, hs.isRed, not_or]
    exact ⟨h.ne_root, Bool.false_ne_true⟩
  have hp : t.parent (loc s) = some (.node f.elem) := hpar.parent h
  have hsib : t.child f.dir.flip (.node f.elem) = some (loc f.sibling) := h.at.1.1.far
  have hp₁ : t₁.parent (loc s) = some (.node p) := hpar₁.parent h₁
  -- the colours of the children of `w`
  obtain ⟨hnode, hrepn, hrepf⟩ := rep_branch.mp h₁.at.1.2.1
  obtain ⟨l, r, hl, hr, hblack⟩ := black_children hnode
  rw [hrepn.isRed h₁.black, hrepf.isRed h₁.black, hnear.isRed, hfar.isRed] at hblack
  rw [deleteFixup, if_neg hroot]
  simp only [hp, Option.bind_eq_bind, Option.bind_some, side_of_fits h hfit, hsib, hsibling, hl, hr,
    hblack, parent_setRed, hp₁]

/-- The loop ends at the root. -/
theorem deleteFixup_root {T : Colored ε} (h : Whole t T) (hbal : BlackBalanced red n T) :
    ∃ t' T', deleteFixup (turns + 1) t t.root = some t' ∧ Whole t' T' ∧ T'.toList = T.toList ∧
      (∃ m, BlackBalanced false m T') ∧ Quiet t t' := by
  have hwhole : Whole t (Context.fill [] T) := h
  obtain ⟨hpaint, hq⟩ := hwhole.paintBlack
  rw [h.root]
  exact ⟨_, T.blacken, deleteFixup_end hwhole (.inl rfl), hpaint, Colored.blacken_toList T, hbal.blacken, hq⟩

/-- It ends at a red node too: the black node that is missing below it is this one. -/
theorem deleteFixup_red (h : Whole t (Context.fill fs s)) (hred : s.isRed = true)
    (hs : BlackBalanced false n s.blacken) (hfit : Fits false n fs) :
    ∃ t' T', deleteFixup (turns + 1) t (loc s) = some t' ∧ Whole t' T' ∧
      T'.toList = (Context.fill fs s).toList ∧ (∃ m, BlackBalanced false m T') ∧ Quiet t t' := by
  obtain ⟨hpaint, hq⟩ := h.paintBlack
  exact ⟨_, _, deleteFixup_end h (.inr hred), hpaint,
    Context.fill_toList_congr fs (Colored.blacken_toList s), hfit.fill hs, hq⟩

/-- A red child of the sibling: the rotations mend the tree, and the next turn is the last. -/
theorem deleteRotate_spec {redn redf : Bool}
    (h : Whole t (Context.fill (⟨d, c, p, .branch d false near w far⟩ :: fs) s))
    (hpar : Parented t (⟨d, c, p, .branch d false near w far⟩ :: fs) s)
    (hs : BlackBalanced false n s) (hnear : BlackBalanced redn n near)
    (hfar : BlackBalanced redf n far) (hred : redn = true ∨ redf = true)
    (hfit : Fits false (n + 1) (⟨d, c, p, .branch d false near w far⟩ :: fs)) :
    ∃ t' T', ((deleteInnerRed d t (loc s) (.node w)).bind fun out =>
        (deleteOuterRed d out.1 (loc s) out.2).bind fun t => deleteFixup (turns + 1) t t.root) = some t' ∧
      Whole t' T' ∧
      T'.toList = (Context.fill (⟨d, c, p, .branch d false near w far⟩ :: fs) s).toList ∧
      (∃ m, BlackBalanced false m T') ∧ Quiet t t' := by
  obtain ⟨t₁, near', w', far', redn', hinner, h₁, hnear', hfar', hlist₁, hq₁⟩ :=
    deleteInnerRed_spec h hpar hnear hfar hred
  have hsib : BlackBalanced false (n + 1) (.branch d false near' w' far') := hnear'.branch_black hfar'
  have hfit₁ : Fits false (n + 1) (⟨d, c, p, .branch d false near' w' far'⟩ :: fs) := by
    cases hfit with
    | red hc _ hfit => exact .red hc hsib hfit
    | black hc _ hfit => exact .black hc hsib hfit
  have hpar₁ : Parented t₁ (⟨d, c, p, .branch d false near' w' far'⟩ :: fs) s := hpar.quiet hq₁ rfl
  obtain ⟨t₂, T₂, houter, h₂, hlist₂, ⟨m, hbal₂⟩, hq₂⟩ :=
    deleteOuterRed_spec h₁ hpar₁ hs hnear' hfar' hfit₁
  obtain ⟨t₃, T₃, hend, h₃, hlist₃, hbal₃, hq₃⟩ := deleteFixup_root h₂ hbal₂
  refine ⟨t₃, T₃, ?_, h₃, hlist₃.trans (hlist₂.trans hlist₁), hbal₃, (hq₁.trans hq₂).trans hq₃⟩
  rw [hinner, Option.bind_some, houter, Option.bind_some, hend]

/-- The loop leaves a balanced tree with the nodes in the same order. -/
theorem deleteFixup_spec (h : Whole t (Context.fill fs s)) (hpar : Parented t fs s) (hs : Short n s)
    (hfit : Fits false (n + 1) fs) (hturns : fs.length < turns) :
    ∃ t' T', deleteFixup turns t (loc s) = some t' ∧ Whole t' T' ∧
      T'.toList = (Context.fill fs s).toList ∧ (∃ m, BlackBalanced false m T') ∧ Quiet t t' := by
  induction turns generalizing t fs s n with
  | zero => exact absurd hturns (Nat.not_lt_zero _)
  | succ turns ih =>
      rcases hs with ⟨hred, hbal⟩ | hbal
      · exact deleteFixup_red h hred hbal hfit
      · cases fs with
        | nil =>
            have hroot : t.root = loc s := h.root
            rw [← hroot]
            exact deleteFixup_root h hbal
        | cons f fs =>
            obtain ⟨t₁, f', fs', hsibling, h₁, hpar₁, hdir, hsib₁, hfit₁, hup, hlist₁, hq₁⟩ :=
              deleteRedSibling_spec h hpar hfit
            obtain ⟨d, c, p, sib⟩ := f'
            obtain rfl : d = f.dir := hdir
            obtain ⟨near, w, far, rfl⟩ : ∃ near w far, sib = .branch f.dir false near w far :=
              hsib₁.exists_branch f.dir
            obtain ⟨-, m, redn, redf, hm, hnear, hfar⟩ := hsib₁.of_black
            obtain rfl : n = m := Nat.succ.inj hm
            obtain ⟨k, rfl⟩ : ∃ k, turns = k + 1 := by
              rw [List.length_cons] at hturns
              exact Nat.exists_eq_succ_of_ne_zero (by omega)
            rw [loc_branch] at hsibling
            rw [deleteFixup_turn h hpar hbal hfit hsibling h₁ hpar₁ hnear hfar]
            by_cases hboth : redn = false ∧ redf = false
            · -- both children of the sibling are black: it goes red, and the loop moves up
              rw [if_pos hboth, ← loc_branch f.dir c s p (.branch f.dir true near w far)]
              obtain ⟨rfl, rfl⟩ := hboth
              have h₂ := deleteRecolour_spec h₁
              have hq₂ := hq₁.trans (quiet_setRed t₁ w true)
              have hlist₂ :
                  (Context.fill fs' (.branch f.dir c s p (.branch f.dir true near w far))).toList =
                    (Context.fill (f :: fs) s).toList := by
                rw [← hlist₁]
                exact Context.fill_toList_congr fs'
                  (Colored.branch_toList_congr c c rfl (Colored.branch_toList true false))
              have hred : BlackBalanced true n (.branch f.dir true near w far) := hnear.branch_red hfar
              cases hfit₁ with
              | red hc _ hfit₁ =>
                  -- the parent is red, and goes black in the next turn
                  obtain rfl : c = true := hc
                  have hblack : BlackBalanced false (n + 1)
                      (Colored.branch f.dir true s p (.branch f.dir true near w far)).blacken := by
                    rw [Colored.blacken_branch]
                    exact hbal.branch_black hred
                  obtain ⟨t₃, T₃, hend, h₃, hlist₃, hbal₃, hq₃⟩ :=
                    deleteFixup_red h₂ Colored.isRed_branch hblack hfit₁.of_red
                  exact ⟨t₃, T₃, hend, h₃, hlist₃.trans hlist₂, hbal₃, hq₂.trans hq₃⟩
              | black hc _ hfit₁ =>
                  obtain rfl : c = false := hc
                  obtain rfl : fs' = fs := hup.resolve_left Bool.false_ne_true
                  have hnil : Parented (t₁.setRed (.node w) true) fs'
                      (.branch f.dir false s p (.branch f.dir true near w far)) :=
                    fun heq => absurd (congrArg loc heq) (by simp)
                  obtain ⟨t₃, T₃, hloop, h₃, hlist₃, hbal₃, hq₃⟩ := ih h₂ hnil
                    (.inr (hbal.branch_black hred)) hfit₁ (Nat.lt_of_succ_lt_succ hturns)
                  exact ⟨t₃, T₃, hloop, h₃, hlist₃.trans hlist₂, hbal₃, hq₂.trans hq₃⟩
            · have hred : redn = true ∨ redf = true := by
                rw [not_and_or, Bool.not_eq_false, Bool.not_eq_false] at hboth
                exact hboth
              rw [if_neg hboth]
              obtain ⟨t₂, T₂, hrotate, h₂, hlist₂, hbal₂, hq₂⟩ :=
                deleteRotate_spec h₁ hpar₁ hbal hnear hfar hred hfit₁
              exact ⟨t₂, T₂, hrotate, h₂, hlist₂.trans hlist₁, hbal₂, hq₁.trans hq₂⟩

end Fixup

/-! ## Taking a node out -/

section Remove

variable [DecidableEq ε] {d : Dir} {red : Bool} {n turns : Nat} {m : ε} {v : Colored ε}

/-- `rbtree_min` goes to the left as far as it can. -/
theorem rbtreeMin_spec {par : Option ε} {r : Colored ε} (h : Rep t par r) (hr : r ≠ .nil)
    (hturns : r.height ≤ turns) :
    ∃ gs red m v, r = Context.fill gs (.node red .nil m v) ∧ (∀ f ∈ gs, f.dir = .left) ∧
      rbtreeMin t turns (loc r) = some (.node m) := by
  induction r generalizing par turns with
  | nil => exact absurd rfl hr
  | node red l a r ihl _ =>
      obtain ⟨hnode, hl, -⟩ := h
      rw [Colored.height] at hturns
      obtain ⟨turns, rfl⟩ : ∃ k, turns = k + 1 := Nat.exists_eq_succ_of_ne_zero (by omega)
      have hleft : t.child .left (.node a) = some (loc l) := hnode.near
      by_cases hempty : l = .nil
      · subst hempty
        refine ⟨[], red, a, r, rfl, fun f hf => (by cases hf), ?_⟩
        rw [loc, rbtreeMin, hleft]
        rfl
      · have hless : l.height ≤ turns := by omega
        obtain ⟨gs, red', m, v, hfill, hgs, hmin⟩ := ihl hl hempty hless
        refine ⟨gs ++ [⟨.left, red, a, r⟩], red', m, v, ?_, ?_, ?_⟩
        · rw [Context.fill_append, ← hfill]
          rfl
        · intro f hf
          rcases List.mem_append.mp hf with hf | hf
          · exact hgs f hf
          · rw [List.mem_singleton.mp hf]
        · rw [loc, rbtreeMin, hleft, Option.bind_eq_bind, Option.bind_some,
            if_neg fun heq => hempty ((loc_eq_sentinel_iff l).mp heq), hmin]

/-- What is left where `m`, with one child at most, is taken out: its subtree `v` in the same context,
whatever parent `v` is given. -/
theorem deleteUnlink_spec (h : Whole t (Context.fill (f :: fs) (.branch d red v m .nil))) (q : ε) :
    ∃ t', deleteUnlink t (.node m) (loc v) = some t' ∧
      Hangs (t'.setParent (loc v) (some (.node q))) (f :: fs) (loc v) ∧
      Rep (t'.setParent (loc v) (some (.node q))) none v ∧
      (Context.fill (f :: fs) v).toList.Nodup ∧ t'.key = t.key ∧ t'.size = t.size ∧ t'.red = t.red ∧
      t'.parent = t.parent := by
  obtain ⟨hnd, helems, hapart⟩ := Context.nodup_fill_iff.mp h.nodup
  obtain ⟨hmv, -, hndv, -, -⟩ := Colored.nodup_branch.mp hnd
  have hv : ∀ b ∈ v.toList, b ∉ Context.elems (f :: fs) := fun b hb =>
    hapart b (Colored.mem_branch.mpr (.inr (.inl hb)))
  have hinside := helems
  simp only [Context.elems, List.nodup_cons, List.mem_append, not_or] at hinside
  obtain ⟨⟨hfsib, hffs⟩, -⟩ := hinside
  obtain ⟨hangs, hrep⟩ := h.at
  obtain ⟨hnode, hsib, hup⟩ := hangs
  obtain ⟨-, hrepv, -⟩ := rep_branch.mp hrep
  have hne : loc f.sibling ≠ .node m := by
    have hloc := h.loc_ne (loc_branch d red v m .nil)
    rwa [loc_branch] at hloc
  rw [loc_branch] at hnode
  let t₁ := t.setChild f.dir (.node f.elem) (some (loc v))
  have h₁ : ∀ b, b ≠ f.elem → Same t t₁ b := fun b hb =>
    same_setChild t _ (fun heq => hb (Loc.node.inj heq)) _
  have h₂ : ∀ b, b ∉ v.toList → Same t₁ (t₁.setParent (loc v) (some (.node q))) b := fun b hb =>
    same_setParent t₁ (fun heq => hb (mem_of_loc_eq heq.symm)) _
  have hfv : f.elem ∉ v.toList := fun hm => hv _ hm (by simp [Context.elems])
  refine ⟨t₁, ?_, ⟨?_, ?_, ?_⟩, ?_, Context.nodup_fill_iff.mpr ⟨hndv, helems, hv⟩, rfl, rfl, rfl, rfl⟩
  · rw [deleteUnlink, h.parent, Option.map_some, side_eq hnode hne]
  · have hnode₁ : NodeAt t₁ f.elem f.dir f.red (loc v) (loc f.sibling) (top fs) := by
      refine ⟨hnode.red, by simp [t₁], ?_, hnode.parent⟩
      rw [child_setChild, if_neg fun hc => Dir.flip_ne _ hc.1]
      exact hnode.far
    exact hnode₁.congr (h₂ _ hfv)
  · refine hsib.congr fun b hb => (h₁ b fun heq => hfsib (heq ▸ hb)).trans (h₂ b fun hbv => ?_)
    exact hv b hbv (by simp [Context.elems, hb])
  · refine hup.congr (fun b hb => (h₁ b fun heq => hffs (heq ▸ hb)).trans (h₂ b fun hbv => ?_)) rfl
    exact hv b hbv (by simp [Context.elems, hb])
  · exact (hrepv.congr fun b hb => h₁ b fun heq => hfv (heq ▸ hb)).orphan hndv _

/-- An empty or another subtree that was given its parent. -/
theorem parented_setParent {t : Nodes ε} {v : Colored ε} {q : ε} (h : ∀ p, top fs = some p → p = q) :
    Parented (t.setParent (loc v) (some (.node q))) fs v := by
  intro hv p hp
  rw [hv, h p hp]
  simp

/-- With the right parent the whole tree is there again, without `m`. -/
theorem whole_of_unlink {v : Colored ε} {t' : Nodes ε}
    (hangs : Hangs (t'.setParent (loc v) (some (.node f.elem))) (f :: fs) (loc v))
    (hrep : Rep (t'.setParent (loc v) (some (.node f.elem))) none v)
    (hnd : (Context.fill (f :: fs) v).toList.Nodup) (hblack : t'.red .sentinel = false) :
    Whole (t'.setParent (loc v) (some (.node f.elem))) (Context.fill (f :: fs) v) := by
  have hown : Rep (t'.setParent (loc v) (some (.node f.elem))) (top (f :: fs)) v :=
    hrep.withParent fun a ha => by
      rw [parent_setParent, if_pos ha.symm]
  obtain ⟨hroot, hwhole⟩ := hangs_fill.mp ⟨hangs, hown⟩
  exact ⟨hroot, hwhole, hnd, hblack⟩

/-- The successor `m`, taken out of the right subtree, of which `r` is left, takes over the place of `x`
with its links and its colour. -/
theorem deleteReplace_spec {t₁ : Nodes ε} {l r : Colored ε} {temp : Loc ε}
    (hfirst : t.setParent temp (if t.parent (.node m) = some (.node x) then some (.node m)
      else t.parent (.node m)) = t₁)
    (hangs : Hangs t₁ (⟨.right, red, x, l⟩ :: fs) (loc r)) (hr : Rep t₁ none r)
    (hnd : (Context.fill (⟨.right, red, x, l⟩ :: fs) r).toList.Nodup)
    (hm : m ∉ (Context.fill (⟨.right, red, x, l⟩ :: fs) r).toList) :
    ∃ t', deleteReplace t (.node x) (.node m) temp = some t' ∧ Hangs t' fs (.node m) ∧
      Rep t' (top fs) (.branch .left red l m r) ∧ Quiet t₁ t' := by
  obtain ⟨hndr, helems, hrfs⟩ := Context.nodup_fill_iff.mp hnd
  rw [Context.mem_fill, not_or] at hm
  obtain ⟨hmr, hm⟩ := hm
  simp only [Context.elems, List.mem_cons, List.mem_append, not_or] at hm hrfs
  simp only [Context.elems, List.nodup_cons, List.mem_append, not_or, List.nodup_append'] at helems
  obtain ⟨hmx, hml, hmfs⟩ := hm
  obtain ⟨⟨hxl, hxfs⟩, hndl, hndfs, hlfs⟩ := helems
  obtain ⟨hnode, hl, hup⟩ := hangs
  have hright : t₁.child .right (.node x) = some (loc r) := hnode.near
  have hleft : t₁.child .left (.node x) = some (loc l) := hnode.far
  have hxm : Loc.node m ≠ Loc.node x := fun heq => hmx (Loc.node.inj heq)
  -- the links and the colour of `x` are copied to `m`
  let t₂ := (t₁.setChild .left (.node m) (t₁.child .left (.node x))).setChild .right (.node m)
    (t₁.child .right (.node x))
  let t₃ := (t₂.setParent (.node m) (t₂.parent (.node x))).setRed (.node m) (t₂.red (.node x))
  have h₃ : ∀ b, b ≠ m → Same t₁ t₃ b := by
    intro b hb
    have hbm : Loc.node b ≠ Loc.node m := fun heq => hb (Loc.node.inj heq)
    exact (((same_setChild t₁ _ hbm _).trans (same_setChild _ _ hbm _)).trans
      (same_setParent _ hbm _)).trans (same_setRed _ hbm _)
  have hq₃ : Quiet t₁ t₃ := ⟨rfl, rfl, by simp [t₃, t₂], by simp [t₃, t₂]⟩
  have hm₃ : NodeAt t₃ m .left red (loc l) (loc r) (top fs) := by
    refine ⟨?_, ?_, ?_, fun p hp => ?_⟩
    · simpa [t₃, t₂] using hnode.red
    · simpa [t₃, t₂] using hleft
    · simpa [t₃, t₂, Dir.flip] using hright
    · simpa [t₃, t₂] using hnode.parent p hp
  have hup₃ : Hangs t₃ fs (.node x) := hup.congr (fun b hb => h₃ b fun heq => hmfs (heq ▸ hb)) rfl
  have hpar₃ : ∀ p, top fs = some p → t₃.parent (.node x) = some (.node p) := fun p hp =>
    (h₃ x (Ne.symm hmx)).parent.trans (hnode.parent p hp)
  -- `m` is linked in place of `x`, and the subtrees get it as their parent
  obtain ⟨t₄, hrelink, hup₄, h₄, hq₄⟩ := relink_spec hup₃ hndfs hxfs hpar₃ .left (.node m)
  have hm₄ := hm₃.congr (h₄ m hmfs)
  have hl₄ : Rep t₄ (some x) l := hl.congr fun b hb =>
    (h₃ b fun heq => hml (heq ▸ hb)).trans (h₄ b fun hbfs => hlfs hb hbfs)
  have hr₄ : Rep t₄ none r := hr.congr fun b hb =>
    (h₃ b fun heq => hmr (heq ▸ hb)).trans (h₄ b (hrfs b hb).2.2)
  obtain ⟨t₅, hadopt₅, hl₅, h₅, hq₅, hroot₅⟩ := adopt_spec hl₄ hndl m
  have hr₅ : Rep t₅ none r := hr₄.congr fun b hb => h₅ b (hrfs b hb).2.1
  have hm₅ := hm₄.congr (h₅ m hml)
  obtain ⟨t₆, hadopt₆, hr₆, h₆, hq₆, hroot₆⟩ := adopt_spec hr₅ hndr m
  have hm₆ := hm₅.congr (h₆ m hmr)
  refine ⟨t₆, ?_, ?_, ⟨hm₆, ?_, hr₆⟩, ((hq₃.trans hq₄).trans hq₅).trans hq₆⟩
  · have hnext₄ : t₄.child .left (.node m) = some (loc l) := hm₄.near
    have hnext₅ : t₅.child .right (.node m) = some (loc r) := hm₅.far
    simp only [deleteReplace, hfirst]
    rw [show relink .left ((((t₁.setChild .left (.node m) (t₁.child .left (.node x))).setChild .right
      (.node m) (t₁.child .right (.node x))).setParent (.node m) _).setRed (.node m) _) (.node x)
      (.node m) = some t₄ from hrelink]
    simp only [Option.bind_eq_bind, Option.bind_some, hnext₄, hadopt₅, hnext₅, hadopt₆]
  · refine hup₄.congr (fun b hb => (h₅ b fun hbl => hlfs hbl hb).trans (h₆ b fun hbr => ?_))
      (hroot₆.trans hroot₅)
    exact (hrfs b hbr).2.2 hb
  · exact hl₅.congr fun b hb => h₆ b fun hbr => (hrfs b hbr).2.1 hb

/-- The fields of a node that has left the tree. -/
theorem clearNode_spec {T : Colored ε} (h : Whole t T) (hx : x ∉ T.toList) :
    Whole (clearNode t (.node x)) T ∧ (clearNode t (.node x)).size = t.size ∧
      (clearNode t (.node x)).parent .sentinel = t.parent .sentinel ∧
      ∀ y, (clearNode t (.node x)).key y = if y = .node x then 0 else t.key y := by
  have hsame : ∀ b, b ≠ x → Same t (clearNode t (.node x)) b := by
    intro b hb
    refine ⟨fun d => ?_, ?_, rfl⟩
    · simp [clearNode, Nodes.setKey, hb]
    · simp [clearNode, Nodes.setKey, hb]
  have hin : ∀ b ∈ T.toList, Same t (clearNode t (.node x)) b := fun b hb =>
    hsame b fun heq => hx (heq ▸ hb)
  refine ⟨h.congr hin rfl rfl, rfl, ?_, fun y => ?_⟩
  · simp [clearNode, Nodes.setKey]
  · rw [clearNode, key_setKey]
    rfl

/-- The end of `rbtree_delete`, when `v` is left where the node was. -/
theorem deleteEnd_spec (h : Whole t (Context.fill fs v)) (hpar : Parented t fs v)
    (hshort : (red = true ∧ ∃ k, BlackBalanced false k (Context.fill fs v)) ∨
      (red = false ∧ ∃ k, Short k v ∧ Fits false (k + 1) fs)) (hturns : fs.length < turns) :
    ∃ t' T', (if red then some t else deleteFixup turns t (loc v)) = some t' ∧ Whole t' T' ∧
      T'.toList = (Context.fill fs v).toList ∧ (∃ k, BlackBalanced false k T') ∧ t'.key = t.key ∧
      t'.size = t.size := by
  rcases hshort with ⟨rfl, hbal⟩ | ⟨rfl, k, hv, hfit⟩
  · exact ⟨t, _, rfl, h, rfl, hbal, rfl, rfl⟩
  · obtain ⟨t', T', hloop, hwhole, hlist, hbal, hq⟩ := deleteFixup_spec h hpar hv hfit hturns
    exact ⟨t', T', hloop, hwhole, hlist, hbal, hq.key, hq.size⟩

/-! ## The operation -/

/-- What a deletion of `x` leaves. -/
structure Deleted (t : Nodes ε) (T : Colored ε) (x : ε) (t' : Nodes ε) (T' : Colored ε) : Prop where
  sound : Sound t' T'
  toList : T'.toList = T.toList.erase x
  key : ∀ y, t'.key y = if y = .node x then 0 else t.key y

/-- From the tree without `x` to the end. -/
theorem deleteFinish_spec {T : Colored ε} {t₀ : Nodes ε} (h : Whole t (Context.fill fs v))
    (hpar : Parented t fs v)
    (hshort : (red = true ∧ ∃ k, BlackBalanced false k (Context.fill fs v)) ∨
      (red = false ∧ ∃ k, Short k v ∧ Fits false (k + 1) fs)) (hturns : fs.length < turns)
    (hlist : T.toList.erase x = (Context.fill fs v).toList) (hnd : T.toList.Nodup)
    (hsize : t.size = (Context.fill fs v).toList.length) (hkey : t.key = t₀.key) :
    ∃ t' T', (if red then some (clearNode t (.node x))
        else deleteFixup turns (clearNode t (.node x)) (loc v)) = some t' ∧ Deleted t₀ T x t' T' := by
  have hx : x ∉ (Context.fill fs v).toList := by
    rw [← hlist]
    exact hnd.not_mem_erase
  obtain ⟨hclear, hsize₁, hparent₁, hkey₁⟩ := clearNode_spec h hx
  have hpar₁ : Parented (clearNode t (.node x)) fs v := fun hv p hp => hparent₁.trans (hpar hv p hp)
  obtain ⟨t', T', hend, hwhole, hlist', hbal, hkey', hsize'⟩ := deleteEnd_spec hclear hpar₁ hshort hturns
  refine ⟨t', T', hend, ⟨hwhole, ?_, hbal⟩, hlist'.trans hlist.symm, fun y => ?_⟩
  · rw [hsize', hsize₁, hsize, hlist']
  · rw [hkey', hkey₁, hkey]

/-- A root with one child at most: its child is the new root. -/
theorem rbtreeDeleteIn_root (h : Sound t (.branch d red v x .nil))
    (hpick : deletePickIn turns t (.node x) = some (.node x, loc v)) :
    ∃ t' T', rbtreeDeleteIn turns t (.node x) = some t' ∧ Deleted t (.branch d red v x .nil) x t' T' := by
  have hroot : t.root = .node x := h.root.trans (loc_branch d red v x .nil)
  obtain ⟨hxv, -, hndv, -, -⟩ := Colored.nodup_branch.mp h.nodup
  have hrepv : Rep t none v := (rep_branch.mp h.rep).2.1.anyParent
  have hmoved : Whole (({ t with size := t.size - 1 } : Nodes ε).setRoot (loc v)) (Context.fill [] v) :=
    ⟨rfl, hrepv.congr fun _ _ => ⟨fun _ => rfl, rfl, rfl⟩, hndv, h.black⟩
  obtain ⟨hpaint, hq⟩ := hmoved.paintBlack
  have hx : x ∉ (Context.fill [] v.blacken).toList := by
    rw [Context.fill_nil, Colored.blacken_toList]
    exact hxv
  obtain ⟨hclear, hsize, -, hkey⟩ := clearNode_spec hpaint hx
  have hblack : ∃ k, BlackBalanced false k v.blacken := by
    obtain ⟨n, hbal⟩ := h.balanced
    obtain rfl : red = false := Colored.isRed_branch.symm.trans hbal.isRed
    obtain ⟨-, k, redv, -, -, hv, -⟩ := hbal.of_black
    exact hv.blacken
  refine ⟨_, v.blacken, ?_, ⟨⟨hclear, ?_, hblack⟩, ?_, fun y => ?_⟩⟩
  · rw [rbtreeDeleteIn, hpick, Option.bind_eq_bind, Option.bind_some]
    exact if_pos hroot.symm
  · rw [hsize, hq.size, Colored.blacken_toList]
    show t.size - 1 = v.toList.length
    rw [h.size, Colored.branch_perm.length_eq, Colored.toList_nil, List.append_nil, List.length_cons,
      Nat.add_sub_cancel]
  · have hnd : (Context.fill [] (.branch d red v x .nil)).toList.Nodup := h.nodup
    rw [Colored.blacken_toList]
    exact (Context.fill_erase hnd).symm
  · rw [hkey, hq.key]
    rfl

/-- A node with one child at most is taken out at its own place. -/
theorem rbtreeDeleteIn_one (h : Sound t (Context.fill fs (.branch d red v x .nil)))
    (hpick : deletePickIn turns t (.node x) = some (.node x, loc v))
    (hturns : (Context.fill fs (.branch d red v x .nil)).height < turns) :
    ∃ t' T', rbtreeDeleteIn turns t (.node x) = some t' ∧
      Deleted t (Context.fill fs (.branch d red v x .nil)) x t' T' := by
  cases fs with
  | nil => exact rbtreeDeleteIn_root h hpick
  | cons f fs =>
      obtain ⟨N, hbalanced⟩ := h.balanced
      obtain ⟨red', n, hfit, hbal⟩ := fits_of_fill (f :: fs) hbalanced
      have hdepth := Nat.le_of_add_right_le (Context.length_add_height_le (f :: fs) (.branch d red v x .nil))
      have hlist := Context.fill_erase h.nodup
      have hmem : x ∈ (Context.fill (f :: fs) (.branch d red v x .nil)).toList :=
        Context.mem_fill.mpr (.inl (Colored.mem_branch.mpr (.inl rfl)))
      have hlength : t.size - 1 = (Context.fill (f :: fs) v).toList.length := by
        rw [← hlist, List.length_erase_of_mem hmem, h.size]
      have hroot : (.node x : Loc ε) ≠ t.root := by
        rw [← loc_branch d red v x .nil]
        exact h.toWhole.ne_root
      have hred : t.red (.node x) = red := (rep_branch.mp h.toWhole.at.2).1.red
      obtain ⟨t₁, hunlink, hangs, hrep, hnd, hkey, hsize, hred₁, hparent⟩ :=
        deleteUnlink_spec (h.toWhole.withSize (t.size - 1)) f.elem
      have hblack₁ : t₁.red .sentinel = false := by
        rw [hred₁]
        exact h.black
      have hx₁ : t₁.parent (.node x) = some (.node f.elem) := by
        rw [hparent]
        exact h.toWhole.parent
      have hwhole := whole_of_unlink hangs hrep hnd hblack₁
      have hpar : Parented (t₁.setParent (loc v) (some (.node f.elem))) (f :: fs) v :=
        parented_setParent fun p hp => (Option.some.inj hp).symm
      have hsize₁ : (t₁.setParent (loc v) (some (.node f.elem))).size =
          (Context.fill (f :: fs) v).toList.length := by
        show t₁.size = _
        rw [hsize]
        exact hlength
      have hkey₁ : (t₁.setParent (loc v) (some (.node f.elem))).key = t.key := hkey
      obtain ⟨t', T', hend, hdel⟩ := deleteFinish_spec hwhole hpar (short_of_balanced hfit hbal)
        (Nat.lt_of_le_of_lt hdepth hturns) hlist h.nodup hsize₁ hkey₁
      refine ⟨t', T', ?_, hdel⟩
      simp only [rbtreeDeleteIn, hpick, Option.bind_eq_bind, Option.bind_some, if_neg hroot, hunlink,
        if_true, hx₁, hred]
      exact hend

/-- The successor `m` of `x` taken out of the right subtree of `x`, and what is left of that. -/
theorem unlinkSuccessor_spec {l : Colored ε} {redm : Bool} {gs : Context ε}
    (h : Whole t (Context.fill (gs ++ ⟨.right, red, x, l⟩ :: fs) (.branch .right redm v m .nil))) :
    ∃ t₁ t₂, deleteUnlink t (.node m) (loc v) = some t₁ ∧
      t₁.setParent (loc v) (if t₁.parent (.node m) = some (.node x) then some (.node m)
        else t₁.parent (.node m)) = t₂ ∧
      Hangs t₂ (⟨.right, red, x, l⟩ :: fs) (loc (Context.fill gs v)) ∧
      Rep t₂ none (Context.fill gs v) ∧ Parented t₂ (gs ++ ⟨.right, red, m, l⟩ :: fs) v ∧
      t₂.key = t.key ∧ t₂.size = t.size ∧ t₂.red = t.red := by
  cases gs with
  | nil =>
      -- the successor is the right child of `x`
      obtain ⟨t₁, hunlink, hangs, hrep, -, hkey, hsize, hred, hparent⟩ := deleteUnlink_spec h m
      have hm : t₁.parent (.node m) = some (.node x) := by
        rw [hparent]
        exact h.parent
      refine ⟨t₁, _, hunlink, rfl, ?_⟩
      rw [if_pos hm]
      exact ⟨hangs, hrep, parented_setParent fun p hp => (Option.some.inj hp).symm, hkey, hsize, hred⟩
  | cons g gs =>
      rw [List.cons_append] at h
      obtain ⟨t₁, hunlink, hangs, hrep, hnd, hkey, hsize, hred, hparent⟩ := deleteUnlink_spec h g.elem
      have hm : t₁.parent (.node m) = some (.node g.elem) := by
        rw [hparent]
        exact h.parent
      have hgx : g.elem ≠ x := by
        intro heq
        have helems := (Context.nodup_fill_iff.mp hnd).2.1
        rw [Context.elems, Context.elems_append, List.nodup_cons, heq] at helems
        exact helems.1 (by simp [Context.elems])
      have hblack : t₁.red .sentinel = false := by
        rw [hred]
        exact h.black
      have hwhole := whole_of_unlink hangs hrep hnd hblack
      have hzip : Context.fill (g :: (gs ++ ⟨.right, red, x, l⟩ :: fs)) v =
          Context.fill (⟨.right, red, x, l⟩ :: fs) (Context.fill (g :: gs) v) :=
        Context.fill_append (g :: gs) _ v
      rw [hzip] at hwhole
      refine ⟨t₁, _, hunlink, rfl, ?_⟩
      rw [hm, if_neg fun heq => hgx (Loc.node.inj (Option.some.inj heq))]
      exact ⟨hwhole.at.1, hwhole.at.2.anyParent,
        parented_setParent fun p hp => (Option.some.inj hp).symm, hkey, hsize, hred⟩

/-- With two children the successor leaves its place, and its right subtree takes that. -/
theorem deletePickIn_two {l r : Colored ε} {redm : Bool} {par : Option ε}
    (hleft : t.child .left (.node x) = some (loc l)) (hright : t.child .right (.node x) = some (loc r))
    (hl : l ≠ .nil) (hr : r ≠ .nil) (hmin : rbtreeMin t turns (loc r) = some (.node m))
    (hm : NodeAt t m .right redm (loc v) .sentinel par) :
    deletePickIn turns t (.node x) = some (.node m, loc v) := by
  have hsl : t.child .left (.node m) = some .sentinel := hm.far
  have hsr : t.child .right (.node m) = some (loc v) := hm.near
  rw [deletePickIn, hleft, Option.bind_eq_bind, Option.bind_some,
    if_neg fun heq => hl ((loc_eq_sentinel_iff l).mp heq), hright]
  simp only [Option.bind_some, if_neg fun heq => hr ((loc_eq_sentinel_iff _).mp heq), hmin, hsl, hsr]
  rfl

/-- A node with two children: its successor is taken out and takes its place over. -/
theorem rbtreeDeleteIn_two {l r : Colored ε} (h : Sound t (Context.fill fs (.node red l x r)))
    (hl : l ≠ .nil) (hr : r ≠ .nil) (hturns : (Context.fill fs (.node red l x r)).height < turns) :
    ∃ t' T', rbtreeDeleteIn turns t (.node x) = some t' ∧
      Deleted t (Context.fill fs (.node red l x r)) x t' T' := by
  obtain ⟨hnode, -, hrepr⟩ := h.toWhole.at.2
  have hheight : r.height ≤ turns := by
    have hle := Context.length_add_height_le fs (.node red l x r)
    rw [Colored.height] at hle
    omega
  obtain ⟨gs, redm, m, v, rfl, hgs, hmin⟩ := rbtreeMin_spec hrepr hr hheight
  -- the tree as seen from the successor
  have hzip : Context.fill fs (.node red l x (Context.fill gs (.node redm .nil m v))) =
      Context.fill (gs ++ ⟨.right, red, x, l⟩ :: fs) (.branch .right redm v m .nil) := by
    rw [Context.fill_append]
    rfl
  have hzip' : Context.fill fs (.branch .left red l m (Context.fill gs v)) =
      Context.fill (gs ++ ⟨.right, red, m, l⟩ :: fs) v := by
    rw [Context.fill_append]
    rfl
  have hlist := Context.fill_erase_two hgs h.nodup
  have hpick : deletePickIn turns t (.node x) = some (.node m, loc v) := by
    rw [hzip] at h
    exact deletePickIn_two hnode.near hnode.far hl hr hmin (rep_branch.mp h.toWhole.at.2).1
  rw [hzip] at h hlist hturns ⊢
  have hdepth := Nat.le_of_add_right_le
    (Context.length_add_height_le (gs ++ ⟨.right, red, x, l⟩ :: fs) (.branch .right redm v m .nil))
  obtain ⟨N, hbalanced⟩ := h.balanced
  obtain ⟨red', n, hfit, hbal⟩ := fits_of_fill _ hbalanced
  have hnd := h.nodup
  have hroot : (.node m : Loc ε) ≠ t.root := by
    have hwhole := h.toWhole
    obtain ⟨f₀, fs₀, hfs⟩ := List.exists_cons_of_ne_nil
      (List.append_ne_nil_of_right_ne_nil gs (List.cons_ne_nil (⟨.right, red, x, l⟩ : Frame ε) fs))
    rw [hfs] at hwhole
    rw [← loc_branch .right redm v m .nil]
    exact hwhole.ne_root
  have hred : t.red (.node m) = redm := (rep_branch.mp h.toWhole.at.2).1.red
  obtain ⟨t₁, t₂, hunlink, hfirst, hangs, hrep, hpar, hkey, hsize, hred₂⟩ :=
    unlinkSuccessor_spec (h.toWhole.withSize (t.size - 1))
  have hleft : Context.fill (⟨.right, red, x, l⟩ :: fs) (Context.fill gs v) =
      Context.fill (gs ++ ⟨.right, red, x, l⟩ :: fs) v := (Context.fill_append gs _ v).symm
  have herase := Context.fill_erase hnd
  obtain ⟨t₃, hreplace, hangs₃, hrep₃, hq₃⟩ := deleteReplace_spec hfirst hangs hrep
    (by rw [hleft, ← herase]; exact hnd.erase _) (by rw [hleft, ← herase]; exact hnd.not_mem_erase)
  -- the successor stands where the node was
  have hboth : Hangs t₃ fs (loc (.branch .left red l m (Context.fill gs v))) ∧
      Rep t₃ (top fs) (.branch .left red l m (Context.fill gs v)) := ⟨hangs₃, hrep₃⟩
  rw [hangs_fill, hzip'] at hboth
  have hwhole₃ : Whole t₃ (Context.fill (gs ++ ⟨.right, red, m, l⟩ :: fs) v) := by
    refine ⟨hboth.1, hboth.2, ?_, ?_⟩
    · rw [← hlist]
      exact hnd.erase _
    · rw [hq₃.red, hred₂]
      exact h.black
  have hdepth : (gs ++ ⟨.right, red, m, l⟩ :: fs).length < turns := by
    rw [List.length_append, List.length_cons] at hdepth ⊢
    exact Nat.lt_of_le_of_lt hdepth hturns
  have hx : x ∈ (Context.fill (gs ++ ⟨.right, red, x, l⟩ :: fs) (.branch .right redm v m .nil)).toList :=
    Context.mem_fill.mpr (.inr (by simp [Context.elems_append, Context.elems]))
  have hsize₃ : t₃.size = (Context.fill (gs ++ ⟨.right, red, m, l⟩ :: fs) v).toList.length := by
    rw [hq₃.size, hsize, ← hlist, List.length_erase_of_mem hx, ← h.size]
  have hkey₃ : t₃.key = t.key := hq₃.key.trans hkey
  obtain ⟨t', T', hend, hdel⟩ := deleteFinish_spec hwhole₃ (hpar.quiet hq₃ rfl)
    (short_of_balanced hfit.rename hbal) hdepth hlist hnd hsize₃ hkey₃
  refine ⟨t', T', ?_, hdel⟩
  have hmx : (.node m : Loc ε) ≠ .node x := by
    intro heq
    obtain rfl : m = x := Loc.node.inj heq
    refine (Context.nodup_fill_iff.mp hnd).2.2 m (Colored.mem_branch.mpr (.inl rfl)) ?_
    simp [Context.elems_append, Context.elems]
  simp only [rbtreeDeleteIn, hpick, Option.bind_eq_bind, Option.bind_some, if_neg hroot, hunlink,
    if_neg hmx, hreplace, hred]
  exact hend

/-- `rbtree_delete` takes a node out of the tree, whatever its place. The turns that its loops take are
bounded by the height of the tree. -/
theorem rbtreeDeleteIn_spec {T : Colored ε} (h : Sound t T) (hx : x ∈ T.toList) (hturns : T.height < turns) :
    ∃ t' T', rbtreeDeleteIn turns t (.node x) = some t' ∧ Deleted t T x t' T' := by
  obtain ⟨fs, red, l, r, rfl⟩ := Context.exists_fill T hx
  have hnode := h.toWhole.at.2.1
  have hleft : t.child .left (.node x) = some (loc l) := hnode.near
  have hright : t.child .right (.node x) = some (loc r) := hnode.far
  by_cases hl : l = .nil
  · subst hl
    have hseen : Colored.node red .nil x r = .branch .right red r x .nil := rfl
    rw [hseen] at h hturns ⊢
    refine rbtreeDeleteIn_one h ?_ hturns
    rw [deletePickIn, hleft, hright]
    rfl
  · by_cases hr : r = .nil
    · subst hr
      have hseen : Colored.node red l x .nil = .branch .left red l x .nil := rfl
      rw [hseen] at h hturns ⊢
      refine rbtreeDeleteIn_one h ?_ hturns
      rw [deletePickIn, hleft, hright, Option.bind_eq_bind, Option.bind_some,
        if_neg fun heq => hl ((loc_eq_sentinel_iff l).mp heq)]
      rfl
    · exact rbtreeDeleteIn_two h hl hr hturns

/-- `rbtree_delete` with as many turns as there are nodes. -/
theorem rbtreeDelete_spec {T : Colored ε} (h : Sound t T) (hx : x ∈ T.toList) :
    ∃ t' T', rbtreeDelete t (.node x) = some t' ∧ Deleted t T x t' T' :=
  rbtreeDeleteIn_spec h hx h.height_lt

end Remove

end Crawler.Rbtree
