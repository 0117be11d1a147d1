/-
# Crawler.Rbtree.Insert — what `rbtree_insert` does to the tree

The walk from the root hangs the node at an empty place (`insertTimerValue_spec`). The loop then moves a
red node with a red parent up, or gets rid of it with one or two rotations (`insertFixup_spec`); the order
of the nodes is the one in which the walk has left them (`rbtreeInsert_spec`).
-/
import Crawler.Rbtree.Rep

namespace Crawler.Rbtree

open Crawler.Lib

variable {ε : Type*} [DecidableEq ε] {t : Nodes ε} {fs : Context ε} {s : Colored ε} {x : ε}

/-! ## The walk -/

/-- The side on which the walk passes `a`. -/
def goes (t : Nodes ε) (x a : ε) : Dir :=
  if (t.key (.node x) - t.key (.node a)).toInt32 < 0 then .left else .right

/-- The red node `x`, hung below `a` on side `d`. -/
def hang (t : Nodes ε) (d : Dir) (a x : ε) : Nodes ε :=
  ((((t.setChild d (.node a) (some (.node x))).setParent (.node x) (some (.node a))).setChild
    .left (.node x) (some .sentinel)).setChild .right (.node x) (some .sentinel)).setRed (.node x) true

theorem hang_spec {f : Frame ε} (h : Whole t (Context.fill (f :: fs) .nil))
    (hx : x ∉ Context.elems (f :: fs)) :
    Whole (hang t f.dir f.elem x) (Context.fill (f :: fs) (.node true .nil x .nil)) ∧
      Quiet t (hang t f.dir f.elem x) := by
  obtain ⟨-, helems, -⟩ := Context.nodup_fill_iff.mp h.nodup
  obtain ⟨hnode, hsib, hup⟩ := h.at.1
  have hnd := helems
  simp only [Context.elems, List.nodup_cons, List.mem_append, not_or] at hnd
  obtain ⟨⟨hfsib, hffs⟩, -⟩ := hnd
  have hxf : x ≠ f.elem := fun heq => hx (by simp [heq, Context.elems])
  have hother : ∀ b, b ≠ f.elem → b ≠ x → Same t (hang t f.dir f.elem x) b := by
    intro b hbf hbx
    refine ⟨fun d => ?_, ?_, ?_⟩
    · simp [hang, hbf, hbx]
    · simp [hang, hbx]
    · simp [hang, hbx]
  have hquiet : Quiet t (hang t f.dir f.elem x) := ⟨rfl, rfl, by simp [hang], by simp [hang]⟩
  have hangs : Hangs (hang t f.dir f.elem x) (f :: fs) (.node x) := by
    refine ⟨⟨?_, ?_, ?_, fun p hp => ?_⟩, hsib.congr fun b hb => hother b ?_ ?_,
      hup.congr (fun b hb => hother b ?_ ?_) rfl⟩
    · simpa [hang, hxf.symm] using hnode.red
    · simp [hang, hxf.symm]
    · simpa [hang, hxf.symm] using hnode.far
    · simpa [hang, hxf.symm] using hnode.parent p hp
    · exact fun heq => hfsib (heq ▸ hb)
    · exact fun heq => hx (by simp [Context.elems, ← heq, hb])
    · exact fun heq => hffs (heq ▸ hb)
    · exact fun heq => hx (by simp [Context.elems, ← heq, hb])
  have hrep : Rep (hang t f.dir f.elem x) (some f.elem) (.node true .nil x .nil) := by
    refine ⟨⟨by simp [hang], by simp [hang], by simp [hang, Dir.flip], fun p hp => ?_⟩, trivial, trivial⟩
    obtain rfl : f.elem = p := Option.some.inj hp
    simp [hang]
  have hboth : Hangs (hang t f.dir f.elem x) (f :: fs) (loc (.node true .nil x .nil)) ∧
      Rep (hang t f.dir f.elem x) (top (f :: fs)) (.node true .nil x .nil) := ⟨hangs, hrep⟩
  obtain ⟨hroot, hrep⟩ := hangs_fill.mp hboth
  refine ⟨⟨hroot, hrep, Context.nodup_fill_iff.mpr ⟨by simp, helems, ?_⟩, hquiet.red.trans h.black⟩,
    hquiet⟩
  intro b hb
  obtain rfl : b = x := by simpa using hb
  exact hx

/-- The walk goes down to an empty place, by the keys of the nodes it passes, and hangs the node there. -/
theorem insertTimerValue_spec {turns : Nat} (h : Whole t (Context.fill fs s))
    (hx : x ∉ (Context.fill fs s).toList) (hs : s ≠ .nil) (hturns : s.height ≤ turns)
    (hfs : ∀ f ∈ fs, f.dir = goes t x f.elem) :
    ∃ t' gs, rbtreeInsertTimerValue turns t (loc s) (.node x) = some t' ∧
      Context.fill gs .nil = Context.fill fs s ∧ (∀ f ∈ gs, f.dir = goes t x f.elem) ∧
      Whole t' (Context.fill gs (.node true .nil x .nil)) ∧ Quiet t t' := by
  induction turns generalizing fs s with
  | zero =>
      cases s with
      | nil => exact absurd rfl hs
      | node red l a r => simp [Colored.height] at hturns
  | succ turns ih =>
      cases s with
      | nil => exact absurd rfl hs
      | node red l a r =>
          obtain ⟨near, far, hbranch⟩ := Colored.exists_branch (goes t x a) red l a r
          rw [hbranch] at h hx hturns ⊢
          have hnear : t.child (goes t x a) (.node a) = some (loc near) := (rep_branch.mp h.at.2).1.near
          have hgoes : ∀ f ∈ (⟨goes t x a, red, a, far⟩ :: fs : Context ε), f.dir = goes t x f.elem :=
            List.forall_mem_cons.mpr ⟨rfl, hfs⟩
          have hzip : Whole t (Context.fill (⟨goes t x a, red, a, far⟩ :: fs) near) := h
          have hout : x ∉ (Context.fill (⟨goes t x a, red, a, far⟩ :: fs) near).toList := hx
          rw [loc_branch, rbtreeInsertTimerValue]
          change ∃ t' gs, (t.child (goes t x a) (.node a)).bind _ = some t' ∧ _
          rw [hnear, Option.bind_some]
          by_cases hempty : loc near = .sentinel
          · -- the empty place
            rw [if_pos hempty]
            obtain rfl := (loc_eq_sentinel_iff near).mp hempty
            obtain ⟨hwhole, hquiet⟩ := hang_spec hzip fun hm => hout (Context.mem_fill.mpr (.inr hm))
            exact ⟨_, _, rfl, rfl, hgoes, hwhole, hquiet⟩
          · rw [if_neg hempty]
            have hlower : near.height < (Colored.branch (goes t x a) red near a far).height := by
              rw [Colored.height_branch]
              omega
            exact ih hzip hout (fun heq => hempty ((loc_eq_sentinel_iff near).mpr heq)) (by omega) hgoes

/-! ## The loop -/

section Fixup

variable {d : Dir} {red : Bool} {n turns : Nat} {p g : ε} {sp sg u v : Colored ε} {cp cg : Bool}

/-- The side that a child of `a` is on, when its other child is another one. -/
theorem side_eq {par : Option ε} {a : ε} {y z : Loc ε} (h : NodeAt t a d red y z par) (hne : z ≠ y) :
    side t (.node a) y = d := by
  have hleft : t.child .left (.node a) = some y ↔ d = .left := by
    cases d with
    | left => simp [h.near]
    | right =>
        have hfar : t.child .left (.node a) = some z := h.far
        simp [hfar, hne]
  rw [side]
  by_cases hd : d = .left
  · rw [if_pos (hleft.mpr hd), hd]
  · rw [if_neg (mt hleft.mp hd)]
    cases d with
    | left => exact absurd rfl hd
    | right => rfl

/-- Below a black node the loop ends. -/
theorem insertFixup_done {d' : Dir}
    (h : Whole t (Context.fill (⟨d, false, p, sp⟩ :: fs) (.branch d' red u x v))) :
    insertFixup (turns + 1) t (.node x) = some t := by
  have hroot : (.node x : Loc ε) ≠ t.root := by
    rw [← loc_branch d' red u x v]
    exact h.ne_root
  have hblack : t.red (.node p) = false := h.at.1.1.red
  rw [insertFixup, if_neg hroot, h.parent, Option.bind_eq_bind, Option.bind_some, if_pos hblack]

/-- The red node is the outer child of its red parent, and the other child of its grandparent is black:
one rotation of these two. -/
theorem insertOuter_spec
    (h : Whole t (Context.fill (⟨d, cp, p, sp⟩ :: ⟨d, cg, g, sg⟩ :: fs) s)) :
    ∃ t', rotate d.flip ((t.setRed (.node p) false).setRed (.node g) true) (.node g) = some t' ∧
      Whole t' (Context.fill (⟨d, false, p, .branch d true sp g sg⟩ :: fs) s) ∧ Quiet t t' := by
  have hp : Whole t (Context.fill (⟨d, cg, g, sg⟩ :: fs) (.branch d cp s p sp)) := h
  have hg : Whole (t.setRed (.node p) false)
      (Context.fill fs (.branch d cg (.branch d false s p sp) g sg)) := hp.paint false
  have hboth := hg.paint true
  rw [← Colored.branch_flip d true, ← Colored.branch_flip d false] at hboth
  obtain ⟨t', hrotate, hwhole, hquiet⟩ := rotate_spec hboth
  rw [Colored.branch_flip, Colored.branch_flip] at hwhole
  exact ⟨t', hrotate, hwhole, ((quiet_setRed t p false).trans (quiet_setRed _ g true)).trans hquiet⟩

/-- Both children of the grandparent are red: it takes their colour over. -/
theorem insertRecolour_spec {f : Frame ε}
    (h : Whole t (Context.fill (f :: ⟨d, cg, g, sg⟩ :: fs) s)) :
    Whole (((t.setRed (.node f.elem) false).setRed (loc sg) false).setRed (.node g) true)
        (Context.fill fs (.branch d true (.branch f.dir false s f.elem f.sibling) g sg.blacken)) ∧
      Quiet t (((t.setRed (.node f.elem) false).setRed (loc sg) false).setRed (.node g) true) := by
  have hp : Whole t (Context.fill (⟨d, cg, g, sg⟩ :: fs) (.branch f.dir f.red s f.elem f.sibling)) := h
  have hpaint := hp.paint false
  rw [Context.fill_flip] at hpaint
  obtain ⟨hsib, hquiet⟩ := hpaint.paintBlack
  have hg : Whole ((t.setRed (.node f.elem) false).setRed (loc sg) false)
      (Context.fill fs (.branch d.flip cg sg.blacken g (.branch f.dir false s f.elem f.sibling))) := hsib
  have hlast := hg.paint true
  rw [Colored.branch_flip] at hlast
  exact ⟨hlast, ((quiet_setRed t f.elem false).trans hquiet).trans (quiet_setRed _ g true)⟩

/-- The red node under its red parent is, or is made, the outer child: an inner child changes places with
its parent. -/
theorem insertTurn_spec {f : Frame ε} (h : Whole t (Context.fill (f :: ⟨d, cg, g, sg⟩ :: fs) s))
    (hs : BlackBalanced true n s) (hf : f.red = true) (hsib : BlackBalanced false n f.sibling) :
    ∃ t' p sp s', insertTurn d t (.node f.elem) (loc s) = some (t', loc s') ∧
      Whole t' (Context.fill (⟨d, true, p, sp⟩ :: ⟨d, cg, g, sg⟩ :: fs) s') ∧ BlackBalanced true n s' ∧
      BlackBalanced false n sp ∧ Quiet t t' ∧
      (Context.fill (⟨d, true, p, sp⟩ :: ⟨d, cg, g, sg⟩ :: fs) s').toList =
        (Context.fill (f :: ⟨d, cg, g, sg⟩ :: fs) s).toList := by
  obtain ⟨fd, fr, p, sp⟩ := f
  obtain rfl : fr = true := hf
  obtain ⟨u, x, v, rfl⟩ := hs.exists_red d
  have hne : loc sp ≠ .node x := by
    have hloc := h.loc_ne (loc_branch d true u x v)
    rwa [loc_branch] at hloc
  have hnode := h.at.1.1
  rw [loc_branch] at hnode ⊢
  by_cases hd : fd = d
  · -- the outer child
    subst hd
    have hfar : t.child fd.flip (.node p) = some (loc sp) := hnode.far
    refine ⟨t, p, sp, _, ?_, h, hs, hsib, Quiet.refl t, rfl⟩
    rw [insertTurn, hfar, if_neg (fun heq => hne (Option.some.inj heq)), loc_branch]
  · -- the inner child
    obtain rfl := Dir.eq_flip_of_ne hd
    have hnear : t.child d.flip (.node p) = some (.node x) := hnode.near
    have hup : Whole t (Context.fill (⟨d, cg, g, sg⟩ :: fs)
        (.branch d.flip true (.branch d true u x v) p sp)) := h
    rw [Colored.branch_flip] at hup
    obtain ⟨t', hrotate, hwhole, hquiet⟩ := rotate_spec hup
    obtain ⟨-, hu, hv⟩ := hs.of_red
    refine ⟨t', x, v, .branch d true sp p u, ?_, hwhole, hsib.branch_red hu, hv, hquiet, ?_⟩
    · rw [insertTurn, hnear, if_pos rfl, rbtreeRotate_eq, hrotate, loc_branch]
      rfl
    · have hzip : Context.fill (⟨d.flip, true, p, sp⟩ :: ⟨d, cg, g, sg⟩ :: fs) (.branch d true u x v) =
          Context.fill (⟨d, cg, g, sg⟩ :: fs) (.branch d true sp p (.branch d true u x v)) := by
        rw [Context.fill_cons, Colored.branch_flip]
      rw [hzip]
      exact Context.fill_toList_congr (⟨d, cg, g, sg⟩ :: fs) Colored.rotate_toList

/-- A turn of the loop, at a node with a red parent and a black grandparent `g`. -/
theorem insertFixup_turn {reds : Bool} {f : Frame ε}
    (h : Whole t (Context.fill (f :: ⟨d, false, g, sg⟩ :: fs) s)) (hs : BlackBalanced true n s)
    (hf : f.red = true) (hsg : BlackBalanced reds n sg) :
    insertFixup (turns + 1) t (loc s) =
      if reds then
        insertFixup turns (((t.setRed (.node f.elem) false).setRed (loc sg) false).setRed (.node g) true)
          (.node g)
      else
        (insertTurn d t (.node f.elem) (loc s)).bind fun out =>
          (out.1.parent out.2).bind fun p => (out.1.parent p).bind fun g =>
            (rotate d.flip ((out.1.setRed p false).setRed g true) g).bind fun t =>
              insertFixup turns t out.2 := by
  have hroot : loc s ≠ t.root := h.ne_root
  have hp : t.parent (loc s) = some (.node f.elem) := by
    obtain ⟨u, x, v, rfl⟩ := hs.exists_red .left
    rw [loc_branch]
    exact h.parent
  obtain ⟨hnode, -, hangs⟩ := h.at.1
  have hred : t.red (.node f.elem) = true := hnode.red.trans hf
  have hg : t.parent (.node f.elem) = some (.node g) := hnode.parent g rfl
  -- the parent is on the side of its frame, since the two children of `g` differ
  have hup : Whole t (Context.fill (⟨d, false, g, sg⟩ :: fs) (.branch f.dir f.red s f.elem f.sibling)) := h
  have hne : loc sg ≠ .node f.elem := by
    have hloc := hup.loc_ne (loc_branch _ _ _ _ _)
    rwa [loc_branch] at hloc
  have hside : side t (.node g) (.node f.elem) = d := side_eq hangs.1 hne
  have htemp : t.child d.flip (.node g) = some (loc sg) := hangs.1.far
  have hsgred : t.red (loc sg) = reds := by
    rw [hangs.2.1.isRed h.black, hsg.isRed]
  rw [insertFixup, if_neg hroot]
  simp only [hp, Option.bind_eq_bind, Option.bind_some, hred, Bool.true_eq_false, if_false, hg, hside,
    htemp, hsgred, rbtreeRotate_eq]

/-- The other child of the grandparent is black: the rotations mend the tree, and the next turn is the
last, at a node with a black parent. -/
theorem insertRotate_spec {f : Frame ε} (h : Whole t (Context.fill (f :: ⟨d, false, g, sg⟩ :: fs) s))
    (hs : BlackBalanced true n s) (hf : f.red = true) (hsib : BlackBalanced false n f.sibling)
    (hsg : BlackBalanced false n sg) (hfit : Fits false (n + 1) fs) :
    ∃ t' T', ((insertTurn d t (.node f.elem) (loc s)).bind fun out =>
        (out.1.parent out.2).bind fun p => (out.1.parent p).bind fun g =>
          (rotate d.flip ((out.1.setRed p false).setRed g true) g).bind fun t =>
            insertFixup (turns + 1) t out.2) = some t' ∧ Whole t' T' ∧
      T'.toList = (Context.fill (f :: ⟨d, false, g, sg⟩ :: fs) s).toList ∧
      (∃ m, BlackBalanced false m T'.blacken) ∧ Quiet t t' := by
  obtain ⟨t₁, p, sp, s₁, hturn, h₁, hs₁, hsp, hq₁, hlist₁⟩ := insertTurn_spec h hs hf hsib
  obtain ⟨u₁, x₁, v₁, rfl⟩ := hs₁.exists_red .left
  have hp₁ : t₁.parent (.node x₁) = some (.node p) := h₁.parent
  have hg₁ : t₁.parent (.node p) = some (.node g) := h₁.at.1.1.parent g rfl
  obtain ⟨t₂, hrotate, h₂, hq₂⟩ := insertOuter_spec h₁
  have hblack : BlackBalanced false (n + 1)
      (.branch d false (.branch .left true u₁ x₁ v₁) p (.branch d true sp g sg)) :=
    hs₁.branch_black (hsp.branch_red hsg)
  obtain ⟨m, hwhole⟩ := hfit.fill hblack
  refine ⟨t₂, _, ?_, h₂, ?_, hwhole.blacken, hq₁.trans hq₂⟩
  · rw [loc_branch] at hturn
    simp only [hturn, Option.bind_some, hp₁, hg₁, hrotate]
    exact insertFixup_done h₂
  · rw [← hlist₁]
    exact Context.fill_toList_congr fs Colored.rotate_toList.symm

/-- The loop leaves a balanced tree, up to the colour of its root, with the nodes in the same order. -/
theorem insertFixup_spec (h : Whole t (Context.fill fs s)) (hs : BlackBalanced true n s)
    (hfit : Fits false n fs) (hturns : fs.length < turns) :
    ∃ t' T', insertFixup turns t (loc s) = some t' ∧ Whole t' T' ∧
      T'.toList = (Context.fill fs s).toList ∧ (∃ m, BlackBalanced false m T'.blacken) ∧ Quiet t t' := by
  induction turns generalizing t fs s n with
  | zero => exact absurd hturns (Nat.not_lt_zero _)
  | succ turns ih =>
      cases fs with
      | nil =>
          -- the node is the root
          have hroot : loc s = t.root := h.root.symm
          exact ⟨t, s, if_pos hroot, h, rfl, hs.blacken, Quiet.refl t⟩
      | cons f fs =>
          obtain ⟨fd, fr, p, sib⟩ := f
          cases hfit with
          | black hf hsib hfit =>
              obtain rfl : fr = false := hf
              obtain ⟨u, x, v, rfl⟩ := hs.exists_red .left
              obtain ⟨m, hwhole⟩ := (Fits.black rfl hsib hfit).fill hs
              rw [loc_branch]
              exact ⟨t, _, insertFixup_done h, h, rfl, hwhole.blacken, Quiet.refl t⟩
          | red hf hsib hfit =>
              -- above a red node there is a black one
              obtain ⟨⟨d, cg, g, sg⟩, fs, reds, rfl, rfl, hsg, hfit⟩ := hfit.exists_black
              rw [List.length_cons, List.length_cons] at hturns
              rw [insertFixup_turn h hs hf hsg]
              cases reds with
              | true =>
                  rw [if_pos rfl]
                  obtain ⟨hwhole, hquiet⟩ := insertRecolour_spec h
                  have hfocus : BlackBalanced true (n + 1)
                      (.branch d true (.branch fd false s p sib) g sg.blacken) :=
                    (hs.branch_black hsib).branch_red hsg.blacken_red
                  obtain ⟨t', T', hloop, hT', hlist, hbal, hq⟩ := ih hwhole hfocus hfit (by omega)
                  rw [loc_branch] at hloop
                  refine ⟨t', T', hloop, hT', hlist.trans ?_, hbal, hquiet.trans hq⟩
                  refine Context.fill_toList_congr fs (Colored.branch_toList_congr _ _ ?_ ?_)
                  · exact Colored.branch_toList _ _
                  · exact Colored.blacken_toList sg
              | false =>
                  rw [if_neg Bool.false_ne_true]
                  obtain ⟨turns, rfl⟩ : ∃ k, turns = k + 1 := Nat.exists_eq_succ_of_ne_zero (by omega)
                  exact insertRotate_spec h hs hf hsib hsg hfit

end Fixup

/-! ## The operation -/

/-- The first node. -/
theorem rbtreeInsertIn_nil (h : Sound t .nil) (turns : Nat) (x : ε) :
    ∃ t', rbtreeInsertIn turns t (.node x) = some t' ∧ Sound t' (.node false .nil x .nil) ∧
      t'.key = t.key := by
  have hroot : t.root = .sentinel := h.root
  have hsize : t.size = 0 := h.size
  refine ⟨_, if_pos hroot, ⟨⟨rfl, ⟨⟨?_, ?_, ?_, fun p hp => (by cases hp)⟩, trivial, trivial⟩, ?_, ?_⟩,
    ?_, ⟨1, .black .nil .nil⟩⟩, rfl⟩
  · simp
  · simp
  · simp [Dir.flip]
  · simp
  · simp [h.black]
  · simp [Nodes.setRoot, Nodes.setRed, Nodes.setChild, Nodes.setParent, hsize]

/-- `rbtree_insert` puts a node into the empty place that the keys lead to, and rebalances the tree. The
turns that its loops take are bounded by the height of the tree. -/
theorem rbtreeInsertIn_spec {T : Colored ε} {turns : Nat} (h : Sound t T) (hx : x ∉ T.toList)
    (hturns : T.height < turns) :
    ∃ t' T' gs, rbtreeInsertIn turns t (.node x) = some t' ∧ Sound t' T' ∧ Context.fill gs .nil = T ∧
      (∀ f ∈ gs, f.dir = goes t x f.elem) ∧
      T'.toList = Context.before gs ++ x :: Context.after gs ∧ t'.key = t.key := by
  by_cases hT : T = .nil
  · subst hT
    obtain ⟨t', hinsert, hsound, hkey⟩ := rbtreeInsertIn_nil h turns x
    exact ⟨t', _, [], hinsert, hsound, rfl, fun f hf => (by cases hf), rfl, hkey⟩
  · have hroot : t.root ≠ .sentinel := fun heq => hT ((loc_eq_sentinel_iff T).mp (h.root.symm.trans heq))
    have h₀ : Whole { t with size := t.size + 1 } (Context.fill [] T) := h.toWhole.withSize _
    obtain ⟨t₁, gs, hwalk, hfill, hgoes, h₁, hq₁⟩ :=
      insertTimerValue_spec h₀ hx hT (Nat.le_of_lt hturns) (fun f hf => (by cases hf))
    have hfill : Context.fill gs .nil = T := hfill
    -- the empty place is one for a black tree of height 0
    obtain ⟨m, hbal⟩ := h.balanced
    rw [← hfill] at hbal
    obtain ⟨red, n, hfit, hnil⟩ := fits_of_fill gs hbal
    cases hnil
    have hlength : gs.length < turns := by
      have hle := Context.length_add_height_le gs .nil
      rw [hfill, Colored.height_nil] at hle
      omega
    obtain ⟨t₂, T₂, hloop, h₂, hlist, hbal₂, hq₂⟩ := insertFixup_spec h₁ (.red .nil .nil) hfit hlength
    have h₂' : Whole t₂ (Context.fill [] T₂) := h₂
    obtain ⟨hpaint, hq₃⟩ := h₂'.paintBlack
    have hquiet := (hq₁.trans hq₂).trans hq₃
    have hafter : T₂.blacken.toList = Context.before gs ++ x :: Context.after gs := by
      rw [Colored.blacken_toList, hlist, Context.fill_toList]
      simp
    refine ⟨t₂.setRed t₂.root false, T₂.blacken, gs, ?_, ⟨?_, ?_, hbal₂⟩, hfill, hgoes, hafter, ?_⟩
    · rw [loc] at hloop
      rw [← h.root] at hwalk
      rw [rbtreeInsertIn, if_neg hroot]
      simp only [hwalk, Option.bind_eq_bind, Option.bind_some, hloop]
      rfl
    · rw [h₂.root]
      exact hpaint
    · rw [h₂.root, hquiet.size, hafter]
      have hcount := congrArg List.length (Context.fill_toList gs (.nil : Colored ε))
      rw [hfill, ← h.size] at hcount
      simp only [Colored.toList_nil, List.length_append, List.length_nil, List.length_cons] at hcount ⊢
      omega
    · rw [h₂.root, hquiet.key]

omit [DecidableEq ε] in
theorem Sound.height_lt {T : Colored ε} (h : Sound t T) : T.height < t.size + 1 := by
  rw [h.size]
  exact Nat.lt_succ_of_le T.height_le_length

/-- `rbtree_insert` with as many turns as there are nodes. -/
theorem rbtreeInsert_spec {T : Colored ε} (h : Sound t T) (hx : x ∉ T.toList) :
    ∃ t' T' gs, rbtreeInsert t (.node x) = some t' ∧ Sound t' T' ∧ Context.fill gs .nil = T ∧
      (∀ f ∈ gs, f.dir = goes t x f.elem) ∧
      T'.toList = Context.before gs ++ x :: Context.after gs ∧ t'.key = t.key :=
  rbtreeInsertIn_spec h hx h.height_lt

end Crawler.Rbtree
