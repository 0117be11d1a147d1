/-
# Crawler.Lib.Colored — trees with red and black nodes, and the contexts of their subtrees

`branch d red s a t` is a node seen from one side: its subtree on side `d` is `s`, the other one `t`. So an
argument about the left side is one about the right side too. A context is the path from a subtree up
to the root, each frame with the node passed and the subtree on its other side; `fill` puts a tree into
it.

`BlackBalanced red n t` says that no red node of `t` has a red child and that every way down `t` meets `n`
black nodes; `Fits red n fs` says that a balanced tree of that kind may stand in the context `fs`. Such a
tree is no higher than twice the logarithm of its nodes (`BlackBalanced.height_le_log`).
-/
import Mathlib.Algebra.Ring.Nat
import Mathlib.Data.List.Nodup
import Mathlib.Data.List.Perm.Basic
import Mathlib.Data.Nat.Log
import Mathlib.Order.Basic
import Mathlib.Tactic.Common

namespace Crawler.Lib

/-- The two sides of a node. -/
inductive Dir where
  | left
  | right
  deriving DecidableEq, Repr

/-- The other side. -/
def Dir.flip : Dir → Dir
  | .left => .right
  | .right => .left

@[simp] theorem Dir.flip_flip (d : Dir) : d.flip.flip = d := by cases d <;> rfl

@[simp] theorem Dir.flip_ne (d : Dir) : d.flip ≠ d := by cases d <;> simp [Dir.flip]

@[simp] theorem Dir.ne_flip (d : Dir) : d ≠ d.flip := (Dir.flip_ne d).symm

theorem Dir.eq_flip_of_ne {d d' : Dir} (h : d' ≠ d) : d' = d.flip := by
  cases d <;> cases d' <;> simp_all [Dir.flip]

/-- A binary tree, each node with its colour. -/
inductive Colored (α : Type*) where
  | nil
  | node (red : Bool) (l : Colored α) (a : α) (r : Colored α)

namespace Colored

variable {α : Type*}

/-- The nodes in order. -/
def toList : Colored α → List α
  | .nil => []
  | .node _ l a r => l.toList ++ a :: r.toList

/-- The node `a` with subtree `s` on side `d` and subtree `t` on the other side. -/
def branch (d : Dir) (red : Bool) (s : Colored α) (a : α) (t : Colored α) : Colored α :=
  match d with
  | .left => .node red s a t
  | .right => .node red t a s

/-- The root painted black. -/
def blacken : Colored α → Colored α
  | .nil => .nil
  | .node _ l a r => .node false l a r

@[simp] theorem toList_nil : (nil : Colored α).toList = [] := rfl

@[simp] theorem toList_node (red : Bool) (l : Colored α) (a : α) (r : Colored α) :
    (node red l a r).toList = l.toList ++ a :: r.toList := rfl

variable {d : Dir} {red red₁ red₂ red₃ : Bool} {s t u : Colored α} {a b : α}

theorem toList_ne_nil (h : t ≠ .nil) : t.toList ≠ [] := by
  cases t with
  | nil => exact absurd rfl h
  | node => simp

theorem branch_flip (d : Dir) (red : Bool) (s : Colored α) (a : α) (t : Colored α) :
    branch d.flip red t a s = branch d red s a t := by
  cases d <;> rfl

/-- Every node can be seen from either side. -/
theorem exists_branch (d : Dir) (red : Bool) (l : Colored α) (a : α) (r : Colored α) :
    ∃ s t, node red l a r = branch d red s a t := by
  cases d with
  | left => exact ⟨l, r, rfl⟩
  | right => exact ⟨r, l, rfl⟩

@[simp] theorem blacken_branch : (branch d red s a t).blacken = branch d false s a t := by
  cases d <;> rfl

@[simp] theorem blacken_toList (t : Colored α) : t.blacken.toList = t.toList := by
  cases t <;> rfl

@[simp] theorem mem_branch : b ∈ (branch d red s a t).toList ↔ b = a ∨ b ∈ s.toList ∨ b ∈ t.toList := by
  cases d with
  | left =>
      simp only [branch, toList_node, List.mem_append, List.mem_cons]
      exact or_left_comm
  | right =>
      simp only [branch, toList_node, List.mem_append, List.mem_cons]
      rw [or_left_comm, or_comm (a := b ∈ t.toList)]

/-- A node counts before its subtrees when the order does not matter. -/
theorem branch_perm : (branch d red s a t).toList.Perm (a :: (s.toList ++ t.toList)) := by
  cases d with
  | left => exact List.perm_middle
  | right => exact List.perm_middle.trans (List.perm_append_comm.cons a)

/-- Where no node stands twice, a node is not in its subtrees, and these are apart. -/
theorem nodup_branch : (branch d red s a t).toList.Nodup ↔ a ∉ s.toList ∧ a ∉ t.toList ∧
    s.toList.Nodup ∧ t.toList.Nodup ∧ ∀ b ∈ s.toList, b ∉ t.toList := by
  rw [branch_perm.nodup_iff, List.nodup_cons, List.mem_append, not_or, List.nodup_append', and_assoc]
  rfl

/-- The colour of a node does not matter to the order. -/
theorem branch_toList (red₁ red₂ : Bool) :
    (branch d red₁ s a t).toList = (branch d red₂ s a t).toList := by
  cases d <;> rfl

/-- Nor does the shape of its subtrees. -/
theorem branch_toList_congr {s' t' : Colored α} (red₁ red₂ : Bool) (hs : s.toList = s'.toList)
    (ht : t.toList = t'.toList) : (branch d red₁ s a t).toList = (branch d red₂ s' a t').toList := by
  cases d <;> simp [branch, hs, ht]

/-- A rotation keeps the order. -/
theorem rotate_toList :
    (branch d red (branch d red₁ s a t) b u).toList =
      (branch d red₂ s a (branch d red₃ t b u)).toList := by
  cases d <;> simp [branch]

end Colored

/-! ## Contexts -/

/-- A node on the way up: the side the way comes from, and what is on the other side. -/
structure Frame (α : Type*) where
  dir : Dir
  red : Bool
  elem : α
  sibling : Colored α

/-- The frames from a subtree up to the root. -/
abbrev Context (α : Type*) := List (Frame α)

namespace Context

variable {α : Type*}

/-- The tree with `t` in its place. -/
def fill : Context α → Colored α → Colored α
  | [], t => t
  | f :: fs, t => fill fs (.branch f.dir f.red t f.elem f.sibling)

/-- The nodes of the frames and of their siblings. -/
def elems : Context α → List α
  | [] => []
  | f :: fs => f.elem :: (f.sibling.toList ++ elems fs)

/-- What comes before the subtree in order. -/
def before : Context α → List α
  | [] => []
  | f :: fs =>
      match f.dir with
      | .left => before fs
      | .right => before fs ++ (f.sibling.toList ++ [f.elem])

/-- What comes after it. -/
def after : Context α → List α
  | [] => []
  | f :: fs =>
      match f.dir with
      | .left => (f.elem :: f.sibling.toList) ++ after fs
      | .right => after fs

variable {fs gs : Context α} {s t : Colored α}

@[simp] theorem fill_nil (t : Colored α) : fill [] t = t := rfl

@[simp] theorem fill_cons (f : Frame α) (fs : Context α) (t : Colored α) :
    fill (f :: fs) t = fill fs (.branch f.dir f.red t f.elem f.sibling) := rfl

theorem fill_append (gs fs : Context α) (t : Colored α) : fill (gs ++ fs) t = fill fs (fill gs t) := by
  induction gs generalizing t with
  | nil => rfl
  | cons g gs ih => exact ih _

/-- A frame seen from the other subtree. -/
theorem fill_flip (f : Frame α) (fs : Context α) (t : Colored α) :
    fill (f :: fs) t = fill (⟨f.dir.flip, f.red, f.elem, t⟩ :: fs) f.sibling := by
  rw [fill_cons, fill_cons, Colored.branch_flip]

theorem fill_toList (fs : Context α) (t : Colored α) :
    (fill fs t).toList = before fs ++ t.toList ++ after fs := by
  induction fs generalizing t with
  | nil => simp [before, after]
  | cons f fs ih =>
      obtain ⟨d, red, a, s⟩ := f
      rw [fill_cons, ih]
      cases d <;> simp [before, after, Colored.branch]

/-- What stands in a context matters only by its order. -/
theorem fill_toList_congr (fs : Context α) (h : s.toList = t.toList) :
    (fill fs s).toList = (fill fs t).toList := by
  rw [fill_toList, fill_toList, h]

theorem fill_perm (fs : Context α) (t : Colored α) :
    (fill fs t).toList.Perm (t.toList ++ elems fs) := by
  induction fs generalizing t with
  | nil => simp [elems]
  | cons f fs ih =>
      refine (ih _).trans ?_
      refine (Colored.branch_perm.append_right _).trans ?_
      rw [elems, List.cons_append, List.append_assoc]
      exact List.perm_middle.symm

/-- Where no node stands twice, the nodes of the context are apart from those in it. -/
theorem nodup_fill_iff : (fill fs t).toList.Nodup ↔
    t.toList.Nodup ∧ (elems fs).Nodup ∧ ∀ a ∈ t.toList, a ∉ elems fs := by
  rw [(fill_perm fs t).nodup_iff, List.nodup_append']
  rfl

theorem mem_fill {a : α} : a ∈ (fill fs t).toList ↔ a ∈ t.toList ∨ a ∈ elems fs := by
  rw [(fill_perm fs t).mem_iff, List.mem_append]

theorem elems_append (gs fs : Context α) : elems (gs ++ fs) = elems gs ++ elems fs := by
  induction gs with
  | nil => rfl
  | cons g gs ih => rw [List.cons_append, elems, ih, elems, List.cons_append, List.append_assoc]

theorem elem_mem {f : Frame α} (h : f ∈ fs) : f.elem ∈ elems fs := by
  induction fs with
  | nil => cases h
  | cons g fs ih =>
      rw [elems, List.mem_cons, List.mem_append]
      rcases List.mem_cons.mp h with rfl | h
      · exact .inl rfl
      · exact .inr (.inr (ih h))

/-- Nothing comes before the leftmost subtree. -/
theorem before_of_left (h : ∀ f ∈ fs, f.dir = .left) : before fs = [] := by
  induction fs with
  | nil => rfl
  | cons f fs ih =>
      obtain ⟨hf, hrest⟩ := List.forall_mem_cons.mp h
      rw [before, hf]
      exact ih hrest

section Order

variable {β : Type*} [Preorder β] {rank : α → β} {x : α}

/-- What comes before a place is no greater than what the walk to it has passed to the right. -/
theorem le_of_mem_before (h : (before fs).Pairwise (rank · ≤ rank ·))
    (hright : ∀ f ∈ fs, f.dir = .right → rank f.elem ≤ rank x) :
    ∀ a ∈ before fs, rank a ≤ rank x := by
  induction fs with
  | nil => exact fun a ha => absurd ha List.not_mem_nil
  | cons f fs ih =>
      obtain ⟨hf, hrest⟩ := List.forall_mem_cons.mp hright
      intro a ha
      cases hdir : f.dir with
      | left =>
          rw [before, hdir] at ha h
          exact ih h hrest a ha
      | right =>
          rw [before, hdir] at ha h
          have hlast := hf hdir
          rw [← List.append_assoc] at ha h
          obtain ⟨-, -, hle⟩ := List.pairwise_append.mp h
          rcases List.mem_append.mp ha with ha | ha
          · exact (hle a ha f.elem (List.mem_singleton.mpr rfl)).trans hlast
          · rw [List.mem_singleton.mp ha]
            exact hlast

/-- What comes after it is no less than what the walk has passed to the left. -/
theorem le_of_mem_after (h : (after fs).Pairwise (rank · ≤ rank ·))
    (hleft : ∀ f ∈ fs, f.dir = .left → rank x ≤ rank f.elem) :
    ∀ a ∈ after fs, rank x ≤ rank a := by
  induction fs with
  | nil => exact fun a ha => absurd ha List.not_mem_nil
  | cons f fs ih =>
      obtain ⟨hf, hrest⟩ := List.forall_mem_cons.mp hleft
      intro a ha
      cases hdir : f.dir with
      | left =>
          rw [after, hdir] at ha h
          have hfirst := hf hdir
          rw [List.cons_append] at ha h
          obtain ⟨hle, -⟩ := List.pairwise_cons.mp h
          rcases List.mem_cons.mp ha with rfl | ha
          · exact hfirst
          · exact hfirst.trans (hle a ha)
      | right =>
          rw [after, hdir] at ha h
          exact ih h hrest a ha

/-- A walk that goes left where `x` is no greater, and right where it is no less, ends where `x` may
stand. -/
theorem pairwise_insert (h : (before fs ++ after fs).Pairwise (rank · ≤ rank ·))
    (hleft : ∀ f ∈ fs, f.dir = .left → rank x ≤ rank f.elem)
    (hright : ∀ f ∈ fs, f.dir = .right → rank f.elem ≤ rank x) :
    (before fs ++ x :: after fs).Pairwise (rank · ≤ rank ·) := by
  obtain ⟨hbefore, hafter, hle⟩ := List.pairwise_append.mp h
  have hx : ∀ a ∈ before fs, rank a ≤ rank x := le_of_mem_before hbefore hright
  refine List.pairwise_append.mpr
    ⟨hbefore, List.pairwise_cons.mpr ⟨le_of_mem_after hafter hleft, hafter⟩, fun a ha b hb => ?_⟩
  rcases List.mem_cons.mp hb with rfl | hb
  · exact hx a ha
  · exact hle a ha b hb

end Order

/-- Taking one node out of a list without repetitions. -/
theorem erase_mid [DecidableEq α] {xs ys : List α} {a : α} (hnd : (xs ++ a :: ys).Nodup) :
    (xs ++ a :: ys).erase a = xs ++ ys := by
  have ha : a ∉ xs := fun hm => (List.nodup_append'.mp hnd).2.2 hm List.mem_cons_self
  rw [List.erase_append_right _ ha, List.erase_cons_head]

/-- Taking out a node with one subtree at most. -/
theorem fill_erase [DecidableEq α] {d : Dir} {red : Bool} {a : α}
    (hnd : (fill fs (.branch d red t a .nil)).toList.Nodup) :
    (fill fs (.branch d red t a .nil)).toList.erase a = (fill fs t).toList := by
  rw [fill_toList] at hnd ⊢
  rw [fill_toList]
  cases d with
  | left =>
      simp only [Colored.branch, Colored.toList_node, Colored.toList_nil, List.append_assoc,
        List.cons_append, List.nil_append] at hnd ⊢
      rw [← List.append_assoc] at hnd ⊢
      rw [erase_mid hnd, List.append_assoc]
  | right =>
      simp only [Colored.branch, Colored.toList_node, Colored.toList_nil, List.append_assoc,
        List.cons_append, List.nil_append] at hnd ⊢
      exact erase_mid hnd

/-- Taking out a node `x` with two subtrees: the leftmost node `m` of the right one takes its place. -/
theorem fill_erase_two [DecidableEq α] {red redm : Bool} {l v : Colored α} {x m : α}
    (hgs : ∀ f ∈ gs, f.dir = .left)
    (hnd : (fill fs (.node red l x (fill gs (.node redm .nil m v)))).toList.Nodup) :
    (fill fs (.node red l x (fill gs (.node redm .nil m v)))).toList.erase x =
      (fill (gs ++ ⟨.right, red, m, l⟩ :: fs) v).toList := by
  have hzip : fill (gs ++ ⟨.right, red, m, l⟩ :: fs) v = fill fs (.node red l m (fill gs v)) := by
    rw [fill_append]
    rfl
  rw [hzip, fill_toList, fill_toList]
  rw [fill_toList] at hnd
  simp only [Colored.toList_node, Colored.toList_nil, fill_toList, before_of_left hgs,
    List.append_assoc, List.cons_append, List.nil_append] at hnd ⊢
  rw [← List.append_assoc] at hnd ⊢
  rw [erase_mid hnd, List.append_assoc]

/-- Every node of a tree can be looked at in its context. -/
theorem exists_fill {a : α} (t : Colored α) (h : a ∈ t.toList) :
    ∃ fs red l r, t = fill fs (.node red l a r) := by
  induction t with
  | nil => cases h
  | node red l b r ihl ihr =>
      rw [Colored.toList_node, List.mem_append, List.mem_cons] at h
      rcases h with h | rfl | h
      · obtain ⟨fs, red', l', r', rfl⟩ := ihl h
        exact ⟨fs ++ [⟨.left, red, b, r⟩], red', l', r', by rw [fill_append]; rfl⟩
      · exact ⟨[], red, l, r, rfl⟩
      · obtain ⟨fs, red', l', r', rfl⟩ := ihr h
        exact ⟨fs ++ [⟨.right, red, b, l⟩], red', l', r', by rw [fill_append]; rfl⟩

end Context

/-! ## Balance -/

/-- The colour of the root; an empty tree is black. -/
def Colored.isRed {α : Type*} : Colored α → Bool
  | .nil => false
  | .node red .. => red

/-- `t` has a root of the colour given, no red node with a red child, and `n` black nodes on every way
down. -/
inductive BlackBalanced {α : Type*} : Bool → Nat → Colored α → Prop
  | nil : BlackBalanced false 0 .nil
  | red {n : Nat} {l r : Colored α} {a : α} :
      BlackBalanced false n l → BlackBalanced false n r → BlackBalanced true n (.node true l a r)
  | black {n : Nat} {redl redr : Bool} {l r : Colored α} {a : α} :
      BlackBalanced redl n l → BlackBalanced redr n r → BlackBalanced false (n + 1) (.node false l a r)

/-- A tree that is balanced with `n` black nodes on every way down, and a root of the colour given,
fits into the context. -/
inductive Fits {α : Type*} : Bool → Nat → Context α → Prop
  | root {n : Nat} : Fits false n []
  | red {n : Nat} {f : Frame α} {fs : Context α} :
      f.red = true → BlackBalanced false n f.sibling → Fits true n fs → Fits false n (f :: fs)
  | black {n : Nat} {red reds : Bool} {f : Frame α} {fs : Context α} :
      f.red = false → BlackBalanced reds n f.sibling → Fits false (n + 1) fs → Fits red n (f :: fs)

section Balance

variable {α : Type*} {d : Dir} {red : Bool} {n : Nat} {s t : Colored α} {a : α} {fs : Context α}
  {f : Frame α}

theorem BlackBalanced.isRed (h : BlackBalanced red n t) : t.isRed = red := by
  cases h <;> rfl

@[simp] theorem Colored.isRed_branch : (Colored.branch d red s a t).isRed = red := by cases d <;> rfl

theorem BlackBalanced.branch_red (hs : BlackBalanced false n s) (ht : BlackBalanced false n t) :
    BlackBalanced true n (.branch d true s a t) := by
  cases d with
  | left => exact .red hs ht
  | right => exact .red ht hs

theorem BlackBalanced.branch_black {reds redt : Bool} (hs : BlackBalanced reds n s)
    (ht : BlackBalanced redt n t) :
    BlackBalanced false (n + 1) (.branch d false s a t) := by
  cases d with
  | left => exact .black hs ht
  | right => exact .black ht hs

/-- What is below a red node. -/
theorem BlackBalanced.of_red (h : BlackBalanced red n (.branch d true s a t)) :
    red = true ∧ BlackBalanced false n s ∧ BlackBalanced false n t := by
  cases d with
  | left =>
      cases h with
      | red hs ht => exact ⟨rfl, hs, ht⟩
  | right =>
      cases h with
      | red ht hs => exact ⟨rfl, hs, ht⟩

/-- What is below a black node. -/
theorem BlackBalanced.of_black (h : BlackBalanced red n (.branch d false s a t)) :
    red = false ∧ ∃ m reds redt, n = m + 1 ∧ BlackBalanced reds m s ∧ BlackBalanced redt m t := by
  cases d with
  | left =>
      cases h with
      | black hs ht => exact ⟨rfl, _, _, _, rfl, hs, ht⟩
  | right =>
      cases h with
      | black ht hs => exact ⟨rfl, _, _, _, rfl, hs, ht⟩

/-- A root may be painted black. -/
theorem BlackBalanced.blacken (h : BlackBalanced red n t) : ∃ m, BlackBalanced false m t.blacken := by
  cases h with
  | nil => exact ⟨0, .nil⟩
  | red hl hr => exact ⟨n + 1, .black hl hr⟩
  | black hl hr => exact ⟨_, .black hl hr⟩

/-- A red root painted black is one black node more. -/
theorem BlackBalanced.blacken_red (h : BlackBalanced true n t) : BlackBalanced false (n + 1) t.blacken := by
  cases h with
  | red hl hr => exact .black hl hr

/-- Where there is a black node on every way down, the tree is not empty. -/
theorem BlackBalanced.exists_branch (h : BlackBalanced red (n + 1) t) (d : Dir) :
    ∃ s a u, t = .branch d red s a u := by
  cases h with
  | red =>
      obtain ⟨s, u, hsu⟩ := Colored.exists_branch d true _ _ _
      exact ⟨s, _, u, hsu⟩
  | black =>
      obtain ⟨s, u, hsu⟩ := Colored.exists_branch d false _ _ _
      exact ⟨s, _, u, hsu⟩

/-- A red tree is not empty. -/
theorem BlackBalanced.exists_red (h : BlackBalanced true n t) (d : Dir) :
    ∃ s a u, t = .branch d true s a u := by
  cases h with
  | red =>
      obtain ⟨s, u, hsu⟩ := Colored.exists_branch d true _ _ _
      exact ⟨s, _, u, hsu⟩

/-- Balance does not depend on the nodes passed. -/
theorem Fits.rename {gs : Context α} {c : Bool} {b : α} (h : Fits red n (gs ++ ⟨d, c, a, s⟩ :: fs)) :
    Fits red n (gs ++ ⟨d, c, b, s⟩ :: fs) := by
  induction gs generalizing red n with
  | nil =>
      cases h with
      | red hf hs hfs => exact .red hf hs hfs
      | black hf hs hfs => exact .black hf hs hfs
  | cons g gs ih =>
      cases h with
      | red hf hs hfs => exact .red hf hs (ih hfs)
      | black hf hs hfs => exact .black hf hs (ih hfs)

/-- A context for a red tree is one for a black tree. -/
theorem Fits.of_red (h : Fits true n fs) : Fits red n fs := by
  cases h with
  | black hf hs hfs => exact .black hf hs hfs

/-- Above a red node there is a black one. -/
theorem Fits.exists_black (h : Fits true n fs) : ∃ f gs reds, fs = f :: gs ∧ f.red = false ∧
    BlackBalanced reds n f.sibling ∧ Fits false (n + 1) gs := by
  cases h with
  | black hf hs hfs => exact ⟨_, _, _, rfl, hf, hs, hfs⟩

/-- A balanced tree in a context it fits into. -/
theorem Fits.fill (h : Fits red n fs) (ht : BlackBalanced red n t) :
    ∃ m, BlackBalanced false m (Context.fill fs t) := by
  induction h generalizing t with
  | root => exact ⟨_, ht⟩
  | red hf hs _ ih =>
      rw [Context.fill_cons, hf]
      exact ih (ht.branch_red hs)
  | black hf hs _ ih =>
      rw [Context.fill_cons, hf]
      exact ih (ht.branch_black hs)

/-- What stands in a balanced tree fits into its context. -/
theorem fits_of_fill {m : Nat} (fs : Context α) {t : Colored α}
    (h : BlackBalanced false m (Context.fill fs t)) : ∃ red n, Fits red n fs ∧ BlackBalanced red n t := by
  induction fs generalizing t with
  | nil => exact ⟨false, m, .root, h⟩
  | cons f fs ih =>
      obtain ⟨red, n, hfs, ht⟩ := ih h
      cases hf : f.red with
      | true =>
          rw [hf] at ht
          obtain ⟨rfl, ht, hs⟩ := ht.of_red
          exact ⟨false, n, .red hf hs hfs, ht⟩
      | false =>
          rw [hf] at ht
          obtain ⟨rfl, k, redt, reds, rfl, ht, hs⟩ := ht.of_black
          exact ⟨redt, k, .black hf hs hfs, ht⟩

end Balance

/-! ## Height -/

/-- The nodes on the longest way down. -/
def Colored.height {α : Type*} : Colored α → Nat
  | .nil => 0
  | .node _ l _ r => max l.height r.height + 1

section Height

variable {α : Type*} {d : Dir} {red : Bool} {n : Nat} {s t : Colored α} {a : α}

@[simp] theorem Colored.height_nil : (Colored.nil : Colored α).height = 0 := rfl

@[simp] theorem Colored.height_branch : (branch d red s a t).height = max s.height t.height + 1 := by
  cases d with
  | left => rfl
  | right => exact congrArg (· + 1) (Nat.max_comm _ _)

theorem Colored.height_pos (h : t ≠ .nil) : 0 < t.height := by
  cases t with
  | nil => exact absurd rfl h
  | node => exact Nat.succ_pos _

/-- No way down is longer than the tree has nodes. -/
theorem Colored.height_le_length (t : Colored α) : t.height ≤ t.toList.length := by
  induction t with
  | nil => exact Nat.le_refl _
  | node red l a r ihl ihr =>
      rw [height, toList_node, List.length_append, List.length_cons]
      omega

/-- The way from the root to a subtree, and on down. -/
theorem Context.length_add_height_le (fs : Context α) (t : Colored α) :
    fs.length + t.height ≤ (fill fs t).height := by
  induction fs generalizing t with
  | nil => exact Nat.le_of_eq (Nat.zero_add _)
  | cons f fs ih =>
      have hup := ih (.branch f.dir f.red t f.elem f.sibling)
      rw [Colored.height_branch] at hup
      rw [List.length_cons, fill_cons]
      omega

/-- Below a node of a balanced tree at most every second node is red. -/
theorem BlackBalanced.height_le (h : BlackBalanced red n t) : t.height ≤ 2 * n + red.toNat := by
  induction h with
  | nil => exact Nat.le_refl _
  | red _ _ ihl ihr =>
      simp only [Colored.height, Bool.toNat_true, Bool.toNat_false] at ihl ihr ⊢
      omega
  | @black n redl redr _ _ _ _ _ ihl ihr =>
      have hredl := Bool.toNat_le redl
      have hredr := Bool.toNat_le redr
      simp only [Colored.height, Bool.toNat_false] at ihl ihr ⊢
      omega

/-- With `n` black nodes on every way down there are `2 ^ n - 1` nodes at least. -/
theorem BlackBalanced.pow_le (h : BlackBalanced red n t) : 2 ^ n ≤ t.toList.length + 1 := by
  induction h with
  | nil => exact Nat.le_refl _
  | red _ _ ihl ihr =>
      rw [Colored.toList_node, List.length_append]
      exact Nat.le_trans ihl (Nat.succ_le_succ (Nat.le_add_right _ _))
  | black _ _ ihl ihr =>
      rw [Colored.toList_node, List.length_append, List.length_cons, Nat.pow_succ, Nat.mul_two]
      exact Nat.le_trans (Nat.add_le_add ihl ihr) (by omega)

/-- A balanced tree is no higher than twice the logarithm of its nodes. -/
theorem BlackBalanced.height_le_log (h : BlackBalanced false n t) :
    t.height ≤ 2 * Nat.log 2 (t.toList.length + 1) := by
  have hlog : n ≤ Nat.log 2 (t.toList.length + 1) := Nat.le_log_of_pow_le Nat.one_lt_two h.pow_le
  have hheight := h.height_le
  rw [Bool.toNat_false] at hheight
  omega

end Height

end Crawler.Lib
