/-
# Crawler.Rbtree.Rep — the tree that the links make

`Whole t T` says that the links of `t` make the tree `T`: every node of it points to its children and
back to its parent. The `parent` of the root says nothing, since `rbtree_delete` leaves there whatever
it was. `Hangs t fs x` and `Rep t par s` are the two halves of that, seen from a subtree `s`: its
context, which points to `x`, and the subtree itself. A rotation, and any other step, works at such a
place; what it does not write keeps its meaning (`Rep.congr`, `Hangs.congr`).
-/
import Crawler.Rbtree.Ops

namespace Crawler.Rbtree

open Crawler.Lib

variable {ε : Type*}

/-! ## Fields -/

section Fields

variable (t : Nodes ε) (d d' : Dir) (x y : Loc ε) (p : Ptr ε) (red : Bool)

@[simp] theorem child_setRoot : (t.setRoot x).child = t.child := rfl

@[simp] theorem parent_setRoot : (t.setRoot x).parent = t.parent := rfl

@[simp] theorem red_setRoot : (t.setRoot x).red = t.red := rfl

@[simp] theorem root_setRoot : (t.setRoot x).root = x := rfl

variable [DecidableEq ε]

@[simp] theorem key_setKey (k : UInt32) : (t.setKey x k).key y = if y = x then k else t.key y := by
  simp [Nodes.setKey, Function.update_apply]

@[simp] theorem child_setChild : (t.setChild d x p).child d' y =
    if d' = d ∧ y = x then p else t.child d' y := by
  rw [Nodes.setChild]
  by_cases hd : d' = d
  · subst hd
    simp [Function.update_apply]
  · simp [hd]

@[simp] theorem child_setParent : (t.setParent x p).child = t.child := rfl

@[simp] theorem child_setRed : (t.setRed x red).child = t.child := rfl

@[simp] theorem parent_setChild : (t.setChild d x p).parent = t.parent := rfl

@[simp] theorem parent_setParent : (t.setParent x p).parent y = if y = x then p else t.parent y := by
  simp [Nodes.setParent, Function.update_apply]

@[simp] theorem parent_setRed : (t.setRed x red).parent = t.parent := rfl

@[simp] theorem red_setChild : (t.setChild d x p).red = t.red := rfl

@[simp] theorem red_setParent : (t.setParent x p).red = t.red := rfl

@[simp] theorem red_setRed : (t.setRed x red).red y = if y = x then red else t.red y := by
  simp [Nodes.setRed, Function.update_apply]

@[simp] theorem root_setChild : (t.setChild d x p).root = t.root := rfl

@[simp] theorem root_setParent : (t.setParent x p).root = t.root := rfl

@[simp] theorem root_setRed : (t.setRed x red).root = t.root := rfl

end Fields

/-- The links and the colour of the node `a` are the same. -/
structure Same (t t' : Nodes ε) (a : ε) : Prop where
  child : ∀ d, t'.child d (.node a) = t.child d (.node a)
  parent : t'.parent (.node a) = t.parent (.node a)
  red : t'.red (.node a) = t.red (.node a)

theorem Same.refl (t : Nodes ε) (a : ε) : Same t t a := ⟨fun _ => rfl, rfl, rfl⟩

theorem Same.trans {t t' t'' : Nodes ε} {a : ε} (h : Same t t' a) (h' : Same t' t'' a) :
    Same t t'' a :=
  ⟨fun d => (h'.child d).trans (h.child d), h'.parent.trans h.parent, h'.red.trans h.red⟩

theorem same_setRoot (t : Nodes ε) (x : Loc ε) (a : ε) : Same t (t.setRoot x) a := ⟨fun _ => rfl, rfl, rfl⟩

section Writes

variable [DecidableEq ε]

theorem same_setChild (t : Nodes ε) (d : Dir) {x : Loc ε} {a : ε} (h : Loc.node a ≠ x) (p : Ptr ε) :
    Same t (t.setChild d x p) a :=
  ⟨fun d' => by simp [h], rfl, rfl⟩

theorem same_setParent (t : Nodes ε) {x : Loc ε} {a : ε} (h : Loc.node a ≠ x) (p : Ptr ε) :
    Same t (t.setParent x p) a :=
  ⟨fun _ => rfl, by simp [h], rfl⟩

theorem same_setRed (t : Nodes ε) {x : Loc ε} {a : ε} (h : Loc.node a ≠ x) (red : Bool) :
    Same t (t.setRed x red) a :=
  ⟨fun _ => rfl, rfl, by simp [h]⟩

end Writes

/-- The keys, the count and the fields of the sentinel are the same. -/
structure Quiet (t t' : Nodes ε) : Prop where
  key : t'.key = t.key
  size : t'.size = t.size
  parent : t'.parent .sentinel = t.parent .sentinel
  red : t'.red .sentinel = t.red .sentinel

theorem Quiet.refl (t : Nodes ε) : Quiet t t := ⟨rfl, rfl, rfl, rfl⟩

theorem Quiet.trans {t t' t'' : Nodes ε} (h : Quiet t t') (h' : Quiet t' t'') : Quiet t t'' :=
  ⟨h'.key.trans h.key, h'.size.trans h.size, h'.parent.trans h.parent, h'.red.trans h.red⟩

/-! ## Subtrees and contexts -/

/-- The pointer to a tree. -/
def loc : Colored ε → Loc ε
  | .nil => .sentinel
  | .node _ _ a _ => .node a

@[simp] theorem loc_nil : loc (.nil : Colored ε) = .sentinel := rfl

@[simp] theorem loc_branch (d : Dir) (red : Bool) (s : Colored ε) (a : ε) (u : Colored ε) :
    loc (.branch d red s a u) = .node a := by
  cases d <;> rfl

theorem loc_eq_sentinel_iff (s : Colored ε) : loc s = .sentinel ↔ s = .nil := by
  cases s <;> simp [loc]

theorem mem_of_loc_eq {s : Colored ε} {a : ε} (h : loc s = .node a) : a ∈ s.toList := by
  cases s with
  | nil => cases h
  | node red l b r =>
      obtain rfl : b = a := Loc.node.inj h
      simp

/-- The node a context hangs from. -/
def top : Context ε → Option ε
  | [] => none
  | f :: _ => some f.elem

/-- The fields of the node `a`, with its children on side `d` and on the other one; its parent, if it
has one. -/
structure NodeAt (t : Nodes ε) (a : ε) (d : Dir) (red : Bool) (x y : Loc ε) (par : Option ε) :
    Prop where
  red : t.red (.node a) = red
  near : t.child d (.node a) = some x
  far : t.child d.flip (.node a) = some y
  parent : ∀ p, par = some p → t.parent (.node a) = some (.node p)

/-- The links below `par` make the tree. -/
def Rep (t : Nodes ε) : Option ε → Colored ε → Prop
  | _, .nil => True
  | par, .node red l a r =>
      NodeAt t a .left red (loc l) (loc r) par ∧ Rep t (some a) l ∧ Rep t (some a) r

/-- The links around the pointer to `x` make the context. -/
def Hangs (t : Nodes ε) : Context ε → Loc ε → Prop
  | [], x => t.root = x
  | f :: fs, x =>
      NodeAt t f.elem f.dir f.red x (loc f.sibling) (top fs) ∧ Rep t (some f.elem) f.sibling ∧
        Hangs t fs (.node f.elem)

section Subtrees

variable {t t' : Nodes ε} {par : Option ε} {d : Dir} {red : Bool} {s u : Colored ε} {a : ε} {x y : Loc ε}
  {fs : Context ε}

theorem NodeAt.flip (h : NodeAt t a d red x y par) : NodeAt t a d.flip red y x par where
  red := h.red
  near := h.far
  far := by
    rw [Dir.flip_flip]
    exact h.near
  parent := h.parent

theorem NodeAt.congr (h : NodeAt t a d red x y par) (hs : Same t t' a) : NodeAt t' a d red x y par where
  red := hs.red.trans h.red
  near := (hs.child d).trans h.near
  far := (hs.child d.flip).trans h.far
  parent := fun p hp => hs.parent.trans (h.parent p hp)

/-- A node seen from either side. -/
theorem rep_branch : Rep t par (.branch d red s a u) ↔
    NodeAt t a d red (loc s) (loc u) par ∧ Rep t (some a) s ∧ Rep t (some a) u := by
  cases d with
  | left => exact Iff.rfl
  | right =>
      constructor
      · rintro ⟨hnode, hu, hs⟩
        exact ⟨hnode.flip, hs, hu⟩
      · rintro ⟨hnode, hs, hu⟩
        exact ⟨hnode.flip, hu, hs⟩

/-- What is not written keeps its meaning. -/
theorem Rep.congr (h : Rep t par s) (hs : ∀ a ∈ s.toList, Same t t' a) : Rep t' par s := by
  induction s generalizing par with
  | nil => trivial
  | node red l a r ihl ihr =>
      obtain ⟨hnode, hl, hr⟩ := h
      refine ⟨hnode.congr (hs a (by simp)), ihl hl fun b hb => hs b ?_, ihr hr fun b hb => hs b ?_⟩
      · simp [hb]
      · simp [hb]

/-- Whatever its parent is said to be. -/
theorem Rep.anyParent (h : Rep t par s) : Rep t none s := by
  cases s with
  | nil => trivial
  | node red l a r =>
      obtain ⟨hnode, hl, hr⟩ := h
      exact ⟨⟨hnode.red, hnode.near, hnode.far, fun p hp => (by cases hp)⟩, hl, hr⟩

/-- With its parent, when it has a root. -/
theorem Rep.withParent {q : ε} (h : Rep t none s) (hq : ∀ a, loc s = .node a →
    t.parent (.node a) = some (.node q)) : Rep t (some q) s := by
  cases s with
  | nil => trivial
  | node red l a r =>
      obtain ⟨hnode, hl, hr⟩ := h
      refine ⟨⟨hnode.red, hnode.near, hnode.far, fun p hp => ?_⟩, hl, hr⟩
      obtain rfl : q = p := Option.some.inj hp
      exact hq a rfl

theorem Hangs.congr (h : Hangs t fs x) (hs : ∀ a ∈ Context.elems fs, Same t t' a)
    (hroot : t'.root = t.root) : Hangs t' fs x := by
  induction fs generalizing x with
  | nil => exact hroot.trans h
  | cons f fs ih =>
      obtain ⟨hnode, hrep, hup⟩ := h
      refine ⟨hnode.congr (hs _ (by simp [Context.elems])), hrep.congr fun b hb => hs b ?_,
        ih hup fun b hb => hs b ?_⟩
      · simp [Context.elems, hb]
      · simp [Context.elems, hb]

/-- A subtree and its context make the whole tree. -/
theorem hangs_fill : Hangs t fs (loc s) ∧ Rep t (top fs) s ↔
    t.root = loc (Context.fill fs s) ∧ Rep t none (Context.fill fs s) := by
  induction fs generalizing s with
  | nil => exact Iff.rfl
  | cons f fs ih =>
      rw [Context.fill_cons, ← ih, rep_branch, loc_branch]
      constructor
      · rintro ⟨⟨hnode, hrep, hup⟩, hs⟩
        exact ⟨hup, hnode, hs, hrep⟩
      · rintro ⟨hup, hnode, hs, hrep⟩
        exact ⟨⟨hnode, hrep, hup⟩, hs⟩

/-- Below a node the root is another one. -/
theorem Hangs.exists_root (h : Hangs t fs (.node a)) : t.root = .node a ∧ fs = [] ∨
    ∃ b ∈ Context.elems fs, t.root = .node b := by
  induction fs generalizing a with
  | nil => exact .inl ⟨h, rfl⟩
  | cons f fs ih =>
      rcases ih h.2.2 with ⟨hroot, -⟩ | ⟨b, hb, hroot⟩
      · exact .inr ⟨f.elem, by simp [Context.elems], hroot⟩
      · exact .inr ⟨b, by simp [Context.elems, hb], hroot⟩

end Subtrees

/-! ## The whole tree -/

/-- The links make the tree `T`. The sentinel is black. -/
structure Whole (t : Nodes ε) (T : Colored ε) : Prop where
  root : t.root = loc T
  rep : Rep t none T
  nodup : T.toList.Nodup
  black : t.red .sentinel = false

/-- What `rbtree.c` keeps between its calls: the links make `T`, which is balanced, and the count is
right. -/
structure Sound (t : Nodes ε) (T : Colored ε) : Prop extends Whole t T where
  size : t.size = T.toList.length
  balanced : ∃ n, BlackBalanced false n T

section Whole

variable {t t' : Nodes ε} {par : Option ε} {d : Dir} {red : Bool} {s s' u v : Colored ε} {a x y : ε}
  {fs : Context ε}

theorem Whole.at (h : Whole t (Context.fill fs s)) : Hangs t fs (loc s) ∧ Rep t (top fs) s :=
  hangs_fill.mpr ⟨h.root, h.rep⟩

/-- Only the nodes of the tree matter, with the root and the colour of the sentinel. -/
theorem Whole.congr {T : Colored ε} (h : Whole t T) (hs : ∀ a ∈ T.toList, Same t t' a)
    (hroot : t'.root = t.root) (hblack : t'.red .sentinel = t.red .sentinel) : Whole t' T :=
  ⟨hroot.trans h.root, h.rep.congr hs, h.nodup, hblack.trans h.black⟩

theorem Sound.congr {T : Colored ε} (h : Sound t T) (hs : ∀ a ∈ T.toList, Same t t' a)
    (hroot : t'.root = t.root) (hblack : t'.red .sentinel = t.red .sentinel) (hsize : t'.size = t.size) :
    Sound t' T :=
  ⟨h.toWhole.congr hs hroot hblack, hsize.trans h.size, h.balanced⟩

/-- The links do not depend on the count. -/
theorem Whole.withSize {T : Colored ε} (h : Whole t T) (n : Nat) : Whole { t with size := n } T :=
  h.congr (fun _ _ => ⟨fun _ => rfl, rfl, rfl⟩) rfl rfl

/-- A subtree was replaced by one of the same nodes in the same order. -/
theorem Whole.replace (h : Whole t (Context.fill fs s)) (hquiet : Quiet t t')
    (hlist : s'.toList = s.toList) (hangs : Hangs t' fs (loc s')) (hrep : Rep t' (top fs) s') :
    Whole t' (Context.fill fs s') := by
  obtain ⟨hroot, hrep⟩ := hangs_fill.mp ⟨hangs, hrep⟩
  refine ⟨hroot, hrep, ?_, hquiet.red.trans h.black⟩
  rw [Context.fill_toList_congr fs hlist]
  exact h.nodup

/-- The colour of a subtree is that of its root. -/
theorem Rep.isRed (h : Rep t par s) (hblack : t.red .sentinel = false) : t.red (loc s) = s.isRed := by
  cases s with
  | nil => exact hblack
  | node red l a r => exact h.1.red

/-- The parent of a node is the one its context says. -/
theorem Whole.parent {l r : Colored ε} {f : Frame ε}
    (h : Whole t (Context.fill (f :: fs) (.branch d red l a r))) :
    t.parent (.node a) = some (.node f.elem) :=
  (rep_branch.mp h.at.2).1.parent _ rfl

/-- In a tree of distinct nodes a node and the subtree beside it have different pointers. -/
theorem Whole.loc_ne {f : Frame ε} (h : Whole t (Context.fill (f :: fs) s)) {a : ε}
    (ha : loc s = .node a) : loc f.sibling ≠ loc s := by
  obtain ⟨-, -, hapart⟩ := Context.nodup_fill_iff.mp h.nodup
  intro heq
  refine hapart a (mem_of_loc_eq ha) ?_
  simp [Context.elems, mem_of_loc_eq (heq.trans ha)]

/-- Only the root is at the root. -/
theorem Whole.ne_root {f : Frame ε} (h : Whole t (Context.fill (f :: fs) s)) : loc s ≠ t.root := by
  obtain ⟨-, helems, hapart⟩ := Context.nodup_fill_iff.mp h.nodup
  obtain ⟨hnode, hsib, hup⟩ := h.at.1
  intro heq
  -- the root is a node of the context
  have hroot : ∃ b ∈ Context.elems (f :: fs), t.root = .node b := by
    rcases hup.exists_root with ⟨hroot, -⟩ | ⟨b, hb, hroot⟩
    · exact ⟨f.elem, by simp [Context.elems], hroot⟩
    · exact ⟨b, by simp [Context.elems, hb], hroot⟩
  obtain ⟨b, hb, hroot⟩ := hroot
  exact hapart b (mem_of_loc_eq (heq.trans hroot)) hb

end Whole

/-! ## The walk in order -/

/-- The nodes below `x` in order, as its links say. -/
def inorder (t : Nodes ε) : Nat → Loc ε → Option (List ε)
  | _, .sentinel => some []
  | 0, .node _ => none
  | turns + 1, .node e => do
      let l ← t.child .left (.node e)
      let r ← t.child .right (.node e)
      let before ← inorder t turns l
      let after ← inorder t turns r
      return before ++ e :: after

/-- Going along the links yields the nodes of the tree in order. -/
theorem inorder_spec {t : Nodes ε} {par : Option ε} {r : Colored ε} {turns : Nat} (h : Rep t par r)
    (hturns : r.toList.length ≤ turns) : inorder t turns (loc r) = some r.toList := by
  induction r generalizing par turns with
  | nil => cases turns <;> rfl
  | node red l a r ihl ihr =>
      obtain ⟨hnode, hl, hr⟩ := h
      rw [Colored.toList_node, List.length_append, List.length_cons] at hturns
      obtain ⟨turns, rfl⟩ : ∃ k, turns = k + 1 := Nat.exists_eq_succ_of_ne_zero (by omega)
      have hleft : t.child .left (.node a) = some (loc l) := hnode.near
      have hright : t.child .right (.node a) = some (loc r) := hnode.far
      rw [loc, inorder, hleft, hright]
      simp only [Option.bind_eq_bind, Option.bind_some]
      rw [ihl hl (by omega), ihr hr (by omega)]
      rfl

/-! ## Steps -/

section Steps

variable [DecidableEq ε] {t : Nodes ε} {par : Option ε} {d : Dir} {red : Bool} {s u v : Colored ε}
  {x y : ε} {fs : Context ε}

/-- A subtree whose root is given any parent. -/
theorem Rep.orphan (h : Rep t par u) (hnd : u.toList.Nodup) (q : Ptr ε) :
    Rep (t.setParent (loc u) q) none u := by
  cases u with
  | nil => trivial
  | node red l a r =>
      obtain ⟨hnode, hl, hr⟩ := h
      obtain ⟨hal, har, -, -, -⟩ := (Colored.nodup_branch (d := .left)).mp hnd
      refine ⟨⟨hnode.red, hnode.near, hnode.far, fun p hp => (by cases hp)⟩,
        hl.congr fun b hb => same_setParent t (fun heq => hal ?_) q,
        hr.congr fun b hb => same_setParent t (fun heq => har ?_) q⟩
      · exact Loc.node.inj heq ▸ hb
      · exact Loc.node.inj heq ▸ hb

/-- A subtree with another parent. -/
theorem adopt_spec (h : Rep t par u) (hnd : u.toList.Nodup) (x : ε) :
    ∃ t', adopt t (some (loc u)) (.node x) = some t' ∧ Rep t' (some x) u ∧
      (∀ a, a ∉ u.toList → Same t t' a) ∧ Quiet t t' ∧ t'.root = t.root := by
  cases u with
  | nil => exact ⟨t, if_pos rfl, trivial, fun a _ => Same.refl t a, Quiet.refl t, rfl⟩
  | node red l a r =>
      obtain ⟨hnode, hl, hr⟩ := h
      obtain ⟨hal, har, -, -, -⟩ := (Colored.nodup_branch (d := .left)).mp hnd
      have hother : ∀ b, b ≠ a → Same t (t.setParent (.node a) (some (.node x))) b := fun b hb =>
        same_setParent t (fun heq => hb (Loc.node.inj heq)) _
      refine ⟨t.setParent (.node a) (some (.node x)), if_neg (by simp [loc]), ⟨?_, ?_, ?_⟩, ?_, ?_, rfl⟩
      · refine ⟨hnode.red, hnode.near, hnode.far, fun p hp => ?_⟩
        obtain rfl : x = p := Option.some.inj hp
        simp
      · exact hl.congr fun b hb => hother b fun heq => hal (heq ▸ hb)
      · exact hr.congr fun b hb => hother b fun heq => har (heq ▸ hb)
      · exact fun b hb => hother b fun heq => hb (by simp [heq])
      · exact ⟨rfl, rfl, by simp, rfl⟩

/-- Another node in the place of `x`: one link is written, in the parent of `x` or at the root. -/
theorem relink_spec (h : Hangs t fs (.node x)) (hnd : (Context.elems fs).Nodup)
    (hx : x ∉ Context.elems fs) (hpar : ∀ p, top fs = some p → t.parent (.node x) = some (.node p))
    (d : Dir) (y : Loc ε) :
    ∃ t', relink d t (.node x) y = some t' ∧ Hangs t' fs y ∧
      (∀ a, a ∉ Context.elems fs → Same t t' a) ∧ Quiet t t' := by
  cases fs with
  | nil =>
      exact ⟨t.setRoot y, if_pos (Eq.symm h), rfl, fun a _ => same_setRoot t y a, ⟨rfl, rfl, rfl, rfl⟩⟩
  | cons f fs =>
      obtain ⟨hnode, hsib, hup⟩ := h
      simp only [Context.elems, List.mem_cons, List.mem_append, not_or] at hx
      simp only [Context.elems, List.nodup_cons, List.mem_append, not_or, List.nodup_append'] at hnd
      obtain ⟨hxf, hxsib, hxfs⟩ := hx
      obtain ⟨⟨hfsib, hffs⟩, -, hfs, -⟩ := hnd
      have hroot : (.node x : Loc ε) ≠ t.root := by
        rcases hup.exists_root with ⟨hroot, -⟩ | ⟨b, hb, hroot⟩
        · exact fun heq => hxf (Loc.node.inj (heq.trans hroot))
        · exact fun heq => hxfs (Loc.node.inj (heq.trans hroot) ▸ hb)
      -- the link of the parent that points to `x` is the one on the side of the frame
      have hside : (if t.child d (.node f.elem) = some (.node x) then d else d.flip) = f.dir := by
        by_cases hd : d = f.dir
        · rw [hd, hnode.near, if_pos rfl]
        · rw [Dir.eq_flip_of_ne hd, hnode.far, if_neg, Dir.flip_flip]
          exact fun heq => hxsib (mem_of_loc_eq (Option.some.inj heq))
      have hother : ∀ b, b ≠ f.elem → Same t (t.setChild f.dir (.node f.elem) (some y)) b :=
        fun b hb => same_setChild t _ (fun heq => hb (Loc.node.inj heq)) _
      refine ⟨t.setChild f.dir (.node f.elem) (some y), ?_, ⟨?_, ?_, ?_⟩, ?_, ⟨rfl, rfl, rfl, rfl⟩⟩
      · rw [relink, if_neg hroot, hpar f.elem rfl, Option.map_some, hside]
      · refine ⟨hnode.red, by simp, ?_, hnode.parent⟩
        rw [child_setChild, if_neg (fun hc => Dir.flip_ne _ hc.1), hnode.far]
      · exact hsib.congr fun b hb => hother b fun heq => hfsib (heq ▸ hb)
      · exact hup.congr (fun b hb => hother b fun heq => hffs (heq ▸ hb)) rfl
      · exact fun b hb => hother b fun heq => hb (by simp [Context.elems, heq])

/-- The steps of a rotation at `x`, one after another: `x` takes over the inner child of `y`, `y` the place
of `x`, and `x` becomes a child of `y`. -/
theorem rotate_links {redx redy : Bool} {sx sv : Loc ε} (hangs : Hangs t fs (.node x))
    (helems : (Context.elems fs).Nodup) (hnx : NodeAt t x d redx sx (.node y) (top fs))
    (hny : NodeAt t y d redy (loc u) sv (some x)) (hu : Rep t (some y) u) (hndu : u.toList.Nodup)
    (hxy : x ≠ y) (hxu : x ∉ u.toList) (hyu : y ∉ u.toList) (hxfs : x ∉ Context.elems fs)
    (hyfs : y ∉ Context.elems fs) (hufs : ∀ a ∈ u.toList, a ∉ Context.elems fs) :
    ∃ t', rotate d t (.node x) = some t' ∧ Hangs t' fs (.node y) ∧
      NodeAt t' y d redy (.node x) sv (top fs) ∧ NodeAt t' x d redx sx (loc u) (some y) ∧
      Rep t' (some x) u ∧
      (∀ a, a ≠ x → a ≠ y → a ∉ u.toList → a ∉ Context.elems fs → Same t t' a) ∧ Quiet t t' := by
  have hyx : Loc.node y ≠ Loc.node x := fun heq => hxy (Loc.node.inj heq).symm
  -- `x` takes over the inner child of `y`
  let t₁ := t.setChild d.flip (.node x) (some (loc u))
  have h₁ : ∀ a, a ≠ x → Same t t₁ a := fun a ha =>
    same_setChild t _ (fun heq => ha (Loc.node.inj heq)) _
  obtain ⟨t₂, hadopt, hu₂, h₂, hq₂, hroot₂⟩ :=
    adopt_spec (hu.congr fun a ha => h₁ a fun heq => hxu (heq ▸ ha)) hndu x
  -- `y` takes over the place of `x`
  let t₃ := t₂.setParent (.node y) (t₂.parent (.node x))
  have h₃ : ∀ a, a ≠ y → Same t₂ t₃ a := fun a ha =>
    same_setParent t₂ (fun heq => ha (Loc.node.inj heq)) _
  have hto : ∀ a, a ≠ x → a ≠ y → a ∉ u.toList → Same t t₃ a := fun a hax hay hau =>
    ((h₁ a hax).trans (h₂ a hau)).trans (h₃ a hay)
  have hangs₃ : Hangs t₃ fs (.node x) := by
    refine hangs.congr (fun a ha => hto a ?_ ?_ ?_) hroot₂
    · exact fun heq => hxfs (heq ▸ ha)
    · exact fun heq => hyfs (heq ▸ ha)
    · exact fun hau => hufs a hau ha
  have hpar₂ : t₂.parent (.node x) = t.parent (.node x) := (h₂ x hxu).parent
  have hpar₃ : t₃.parent (.node x) = t.parent (.node x) := by
    rw [(h₃ x hxy).parent, hpar₂]
  obtain ⟨t₄, hrelink, hangs₄, h₄, hq₄⟩ :=
    relink_spec hangs₃ helems hxfs (fun p hp => hpar₃.trans (hnx.parent p hp)) d (.node y)
  -- `x` becomes a child of `y`
  let t₅ := (t₄.setChild d (.node y) (some (.node x))).setParent (.node x) (some (.node y))
  have h₅ : ∀ a, a ≠ x → a ≠ y → Same t₄ t₅ a := fun a hax hay =>
    (same_setChild t₄ d (fun heq => hay (Loc.node.inj heq)) _).trans
      (same_setParent _ (fun heq => hax (Loc.node.inj heq)) _)
  have hx₄ : Same t₁ t₄ x := ((h₂ x hxu).trans (h₃ x hxy)).trans (h₄ x hxfs)
  have hy₂ : Same t t₂ y := (h₁ y (Ne.symm hxy)).trans (h₂ y hyu)
  have hy₄ : Same t₃ t₄ y := h₄ y hyfs
  refine ⟨t₅, ?_, ?_, ⟨?_, ?_, ?_, fun p hp => ?_⟩, ⟨?_, ?_, ?_, fun p hp => ?_⟩, ?_, ?_, ?_⟩
  · have hfar : t.child d.flip (.node x) = some (.node y) := hnx.far
    have hnear : t.child d (.node y) = some (loc u) := hny.near
    have hnear₁ : t₁.child d (.node y) = some (loc u) := by
      rw [← hnear]
      exact (h₁ y (Ne.symm hxy)).child d
    simp only [rotate, hfar, Option.bind_eq_bind, Option.bind_some, hnear]
    rw [show (t.setChild d.flip (.node x) (some (loc u))).child d (.node y) = some (loc u) from hnear₁,
      hadopt, Option.bind_some, hrelink]
    rfl
  · refine hangs₄.congr (fun a ha => h₅ a ?_ ?_) rfl
    · exact fun heq => hxfs (heq ▸ ha)
    · exact fun heq => hyfs (heq ▸ ha)
  · exact hy₄.red.trans (hy₂.red.trans hny.red)
  · simp [t₅]
  · have hfar : t₅.child d.flip (.node y) = t₄.child d.flip (.node y) := by simp [t₅]
    exact hfar.trans ((hy₄.child _).trans ((hy₂.child _).trans hny.far))
  · have hpar : t₅.parent (.node y) = t₄.parent (.node y) := by simp [t₅, hyx]
    have hpar' : t₃.parent (.node y) = t₂.parent (.node x) := by simp [t₃]
    rw [hpar, hy₄.parent, hpar', hpar₂]
    exact hnx.parent p hp
  · exact hx₄.red.trans hnx.red
  · have hnear : t₅.child d (.node x) = t₄.child d (.node x) := by simp [t₅, hyx.symm]
    have hnear₁ : t₁.child d (.node x) = t.child d (.node x) := by simp [t₁]
    exact hnear.trans ((hx₄.child d).trans (hnear₁.trans hnx.near))
  · have hfar : t₅.child d.flip (.node x) = t₄.child d.flip (.node x) := by simp [t₅]
    have hfar₁ : t₁.child d.flip (.node x) = some (loc u) := by simp [t₁]
    exact hfar.trans ((hx₄.child _).trans hfar₁)
  · obtain rfl : y = p := Option.some.inj hp
    simp [t₅]
  · refine hu₂.congr fun a ha => ?_
    have hax : a ≠ x := fun heq => hxu (heq ▸ ha)
    have hay : a ≠ y := fun heq => hyu (heq ▸ ha)
    exact ((h₃ a hay).trans (h₄ a (hufs a ha))).trans (h₅ a hax hay)
  · exact fun a hax hay hau hafs => ((hto a hax hay hau).trans (h₄ a hafs)).trans (h₅ a hax hay)
  · have hq₁ : Quiet t t₁ := ⟨rfl, rfl, rfl, rfl⟩
    have hq₃ : Quiet t₂ t₃ := ⟨rfl, rfl, by simp [t₃], rfl⟩
    have hq₅ : Quiet t₄ t₅ := ⟨rfl, rfl, by simp [t₅], rfl⟩
    exact (((hq₁.trans hq₂).trans hq₃).trans hq₄).trans hq₅

/-- A rotation: `y`, the child of `x` on the side other than `d`, comes up, and `x` goes down to side `d`;
each keeps its colour. -/
theorem rotate_spec {redx redy : Bool}
    (h : Whole t (Context.fill fs (.branch d redx s x (.branch d redy u y v)))) :
    ∃ t', rotate d t (.node x) = some t' ∧
      Whole t' (Context.fill fs (.branch d redy (.branch d redx s x u) y v)) ∧ Quiet t t' := by
  -- all the nodes are different ones
  obtain ⟨hnd, helems, hapart⟩ := Context.nodup_fill_iff.mp h.nodup
  obtain ⟨hxs, hxr, -, hndr, hsr⟩ := Colored.nodup_branch.mp hnd
  obtain ⟨hyu, hyv, hndu, -, huv⟩ := Colored.nodup_branch.mp hndr
  simp only [Colored.mem_branch, not_or] at hxr hsr hapart
  obtain ⟨hxy, hxu, hxv⟩ := hxr
  have hxfs : x ∉ Context.elems fs := hapart x (.inl rfl)
  have hyfs : y ∉ Context.elems fs := hapart y (.inr (.inr (.inl rfl)))
  have hufs : ∀ a ∈ u.toList, a ∉ Context.elems fs := fun a ha =>
    hapart a (.inr (.inr (.inr (.inl ha))))
  obtain ⟨hangs, hrep⟩ := h.at
  obtain ⟨hnx, hs, hrep⟩ := rep_branch.mp hrep
  obtain ⟨hny, hu, hv⟩ := rep_branch.mp hrep
  rw [loc_branch] at hangs hnx
  obtain ⟨t', hrotate, hangs', hny', hnx', hu', hkeep, hquiet⟩ :=
    rotate_links hangs helems hnx hny hu hndu hxy hxu hyu hxfs hyfs hufs
  have hs' : Rep t' (some x) s := by
    refine hs.congr fun a ha => hkeep a ?_ ?_ ?_ (hapart a (.inr (.inl ha)))
    · exact fun heq => hxs (heq ▸ ha)
    · exact (hsr a ha).1
    · exact (hsr a ha).2.1
  have hv' : Rep t' (some y) v := by
    refine hv.congr fun a ha => hkeep a ?_ ?_ ?_ (hapart a (.inr (.inr (.inr (.inr ha)))))
    · exact fun heq => hxv (heq ▸ ha)
    · exact fun heq => hyv (heq ▸ ha)
    · exact fun hau => huv a hau ha
  refine ⟨t', hrotate, h.replace hquiet Colored.rotate_toList ?_ ?_, hquiet⟩
  · rw [loc_branch]
    exact hangs'
  · rw [rep_branch, rep_branch, loc_branch]
    exact ⟨hny', ⟨hnx', hs', hu'⟩, hv'⟩

theorem quiet_setRed (t : Nodes ε) (x : ε) (red : Bool) : Quiet t (t.setRed (.node x) red) :=
  ⟨rfl, rfl, rfl, by simp⟩

/-- Another colour of a node. -/
theorem Whole.paint (h : Whole t (Context.fill fs (.branch d red s x u))) (red' : Bool) :
    Whole (t.setRed (.node x) red') (Context.fill fs (.branch d red' s x u)) := by
  obtain ⟨hnd, -, hapart⟩ := Context.nodup_fill_iff.mp h.nodup
  obtain ⟨hxs, hxu, -, -, -⟩ := Colored.nodup_branch.mp hnd
  obtain ⟨hangs, hrep⟩ := h.at
  obtain ⟨hnode, hs, hu⟩ := rep_branch.mp hrep
  have hother : ∀ a, a ≠ x → Same t (t.setRed (.node x) red') a := fun a ha =>
    same_setRed t (fun heq => ha (Loc.node.inj heq)) red'
  have hfs : ∀ a ∈ Context.elems fs, a ≠ x := fun a ha heq =>
    hapart x (Colored.mem_branch.mpr (.inl rfl)) (heq ▸ ha)
  refine h.replace (quiet_setRed t x red') (Colored.branch_toList _ _) ?_ (rep_branch.mpr ⟨?_, ?_, ?_⟩)
  · rw [loc_branch] at hangs ⊢
    exact hangs.congr (fun a ha => hother a (hfs a ha)) rfl
  · exact ⟨by simp, hnode.near, hnode.far, hnode.parent⟩
  · exact hs.congr fun a ha => hother a fun heq => hxs (heq ▸ ha)
  · exact hu.congr fun a ha => hother a fun heq => hxu (heq ▸ ha)

/-- A subtree painted black at its root, which may be the sentinel. -/
theorem Whole.paintBlack (h : Whole t (Context.fill fs s)) :
    Whole (t.setRed (loc s) false) (Context.fill fs s.blacken) ∧
      Quiet t (t.setRed (loc s) false) := by
  cases s with
  | nil =>
      have hsame : t.setRed .sentinel false = t := by
        rw [Nodes.setRed, ← h.black, Function.update_eq_self]
      rw [loc_nil, hsame]
      exact ⟨h, Quiet.refl t⟩
  | node red l a r =>
      refine ⟨?_, quiet_setRed t a false⟩
      have hnode : Whole t (Context.fill fs (.branch .left red l a r)) := h
      exact hnode.paint false

end Steps

end Crawler.Rbtree
