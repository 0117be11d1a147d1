/-
# Crawler.Rbtree.Ops — the red-black tree of `rbtree.c`, link by link

The nodes lie in the events that own them, and the sentinel is a node of its own: its colour and its
`parent` are read and written like those of any other. A pointer is `none` when it is NULL, and a step
that follows one is `none`.

The source spells out every branch for the left side and again, mirrored, for the right side. Here the
side is a parameter.

`size` counts the linked nodes. The code has no such counter: it bounds the turns of the loops here, and
a loop that used them all up would be `none` too.
-/
import Crawler.Lib.Colored
import Mathlib.Logic.Function.Basic

namespace Crawler.Rbtree

open Crawler.Lib

/-! ## The nodes -/

/-- What a node pointer that is not NULL points to. -/
inductive Loc (ε : Type*) where
  | sentinel
  | node (e : ε)
  deriving DecidableEq, Repr

/-- A node pointer. -/
abbrev Ptr (ε : Type*) := Option (Loc ε)

/-- All nodes by their fields, with `rbtree_t`. -/
structure Nodes (ε : Type*) where
  key : Loc ε → UInt32
  child : Dir → Loc ε → Ptr ε
  parent : Loc ε → Ptr ε
  red : Loc ε → Bool
  root : Loc ε
  size : Nat

variable {ε : Type*} [DecidableEq ε]

namespace Nodes

/-- Write one field of a node. -/
def setKey (t : Nodes ε) (x : Loc ε) (k : UInt32) : Nodes ε :=
  { t with key := Function.update t.key x k }

/-- `x->left = p` or `x->right = p`. -/
def setChild (t : Nodes ε) (d : Dir) (x : Loc ε) (p : Ptr ε) : Nodes ε :=
  { t with child := Function.update t.child d (Function.update (t.child d) x p) }

/-- `x->parent = p`. -/
def setParent (t : Nodes ε) (x : Loc ε) (p : Ptr ε) : Nodes ε :=
  { t with parent := Function.update t.parent x p }

/-- `rbt_red(x)` and `rbt_black(x)`. -/
def setRed (t : Nodes ε) (x : Loc ε) (red : Bool) : Nodes ε :=
  { t with red := Function.update t.red x red }

/-- `*root = x`. -/
def setRoot (t : Nodes ε) (x : Loc ε) : Nodes ε := { t with root := x }

end Nodes

/-- The test `x == p->left`. -/
def side (t : Nodes ε) (p x : Loc ε) : Dir :=
  if t.child .left p = some x then .left else .right

/-- `rbtree_min(node, sentinel)`. -/
def rbtreeMin (t : Nodes ε) : Nat → Loc ε → Option (Loc ε)
  | 0, _ => none
  | turns + 1, x => do
      let l ← t.child .left x
      if l = .sentinel then return x else rbtreeMin t turns l

/-! ## Rotations -/

/-- `if (p != sentinel) p->parent = x`. -/
def adopt (t : Nodes ε) (p : Ptr ε) (x : Loc ε) : Option (Nodes ε) :=
  if p = some .sentinel then some t else p.map fun c => t.setParent c (some x)

/-- Put `y` in the place of `x`: in `*root`, or in the link of its parent. The side `d` is the one asked
about first. -/
def relink (d : Dir) (t : Nodes ε) (x y : Loc ε) : Option (Nodes ε) :=
  if x = t.root then some (t.setRoot y)
  else
    (t.parent x).map fun p =>
      t.setChild (if t.child d p = some x then d else d.flip) p (some y)

/-- Move the child of `x` on the side other than `d` up to the place of `x`, and `x` down to side `d`. -/
def rotate (d : Dir) (t : Nodes ε) (x : Loc ε) : Option (Nodes ε) := do
  let y ← t.child d.flip x
  let t := t.setChild d.flip x (t.child d y)
  let t ← adopt t (t.child d y) x
  let t ← relink d (t.setParent y (t.parent x)) x y
  return (t.setChild d y (some x)).setParent x (some y)

/-- `rbtree_left_rotate(root, sentinel, node)`. -/
def rbtreeLeftRotate (t : Nodes ε) (x : Loc ε) : Option (Nodes ε) := rotate .left t x

/-- `rbtree_right_rotate(root, sentinel, node)`. -/
def rbtreeRightRotate (t : Nodes ε) (x : Loc ε) : Option (Nodes ε) := rotate .right t x

/-- The rotation a branch for side `d` calls. -/
def rbtreeRotate (d : Dir) (t : Nodes ε) (x : Loc ε) : Option (Nodes ε) :=
  match d with
  | .left => rbtreeLeftRotate t x
  | .right => rbtreeRightRotate t x

@[simp] theorem rbtreeRotate_eq (d : Dir) (t : Nodes ε) (x : Loc ε) :
    rbtreeRotate d t x = rotate d t x := by
  cases d <;> rfl

/-! ## `rbtree_insert` -/

/-- `rbtree_insert_timer_value(temp, node, sentinel)`: go down to an empty place, to the left where the
key is less by the sign of the difference, and hang the node there. -/
def rbtreeInsertTimerValue : Nat → Nodes ε → Loc ε → Loc ε → Option (Nodes ε)
  | 0, _, _, _ => none
  | turns + 1, t, temp, node => do
      let d : Dir := if (t.key node - t.key temp).toInt32 < 0 then .left else .right
      let p ← t.child d temp
      if p = .sentinel then
        let t := (t.setChild d temp (some node)).setParent node (some temp)
        let t := (t.setChild .left node (some .sentinel)).setChild .right node (some .sentinel)
        return t.setRed node true
      else rbtreeInsertTimerValue turns t p node

/-- Where `node` is the inner child of its parent `p`, rotate it up; the loop goes on with `p`. -/
def insertTurn (d : Dir) (t : Nodes ε) (p node : Loc ε) : Option (Nodes ε × Loc ε) :=
  if t.child d.flip p = some node then (rbtreeRotate d t p).map fun t => (t, p)
  else some (t, node)

/-- The loop that re-balances the tree. `d` is the side of the parent. -/
def insertFixup : Nat → Nodes ε → Loc ε → Option (Nodes ε)
  | 0, _, _ => none
  | turns + 1, t, node =>
      if node = t.root then some t
      else do
        let p ← t.parent node
        if t.red p = false then some t
        else
          let g ← t.parent p
          let d := side t g p
          let temp ← t.child d.flip g
          if t.red temp then
            insertFixup turns (((t.setRed p false).setRed temp false).setRed g true) g
          else
            let (t, node) ← insertTurn d t p node
            let p ← t.parent node
            let g ← t.parent p
            let t ← rbtreeRotate d.flip ((t.setRed p false).setRed g true) g
            insertFixup turns t node

/-- `rbtree_insert(tree, node)` where each loop may take `turns` turns. -/
def rbtreeInsertIn (turns : Nat) (t : Nodes ε) (node : Loc ε) : Option (Nodes ε) :=
  let t := { t with size := t.size + 1 }
  if t.root = .sentinel then
    let t := t.setParent node none
    let t := (t.setChild .left node (some .sentinel)).setChild .right node (some .sentinel)
    some ((t.setRed node false).setRoot node)
  else do
    let t ← rbtreeInsertTimerValue turns t t.root node
    let t ← insertFixup turns t node
    return t.setRed t.root false

/-- `rbtree_insert(tree, node)`. -/
def rbtreeInsert (t : Nodes ε) (node : Loc ε) : Option (Nodes ε) := rbtreeInsertIn (t.size + 1) t node

/-! ## `rbtree_delete` -/

/-- The node that leaves its place, and what takes it: `subst` and `temp`. `rbtree_min` may take `turns`
turns. -/
def deletePickIn (turns : Nat) (t : Nodes ε) (node : Loc ε) : Option (Loc ε × Loc ε) := do
  let l ← t.child .left node
  if l = .sentinel then
    let temp ← t.child .right node
    return (node, temp)
  else
    let r ← t.child .right node
    if r = .sentinel then return (node, l)
    else
      let subst ← rbtreeMin t turns r
      let sl ← t.child .left subst
      let sr ← t.child .right subst
      return (subst, if sl ≠ .sentinel then sl else sr)

/-- Put `temp` in the place of `subst`, in the link of its parent. -/
def deleteUnlink (t : Nodes ε) (subst temp : Loc ε) : Option (Nodes ε) :=
  (t.parent subst).map fun p => t.setChild (side t p subst) p (some temp)

/-- Put `subst` in the place of `node`. -/
def deleteReplace (t : Nodes ε) (node subst temp : Loc ε) : Option (Nodes ε) := do
  let t := t.setParent temp (if t.parent subst = some node then some subst else t.parent subst)
  let t := (t.setChild .left subst (t.child .left node)).setChild .right subst (t.child .right node)
  let t := (t.setParent subst (t.parent node)).setRed subst (t.red node)
  let t ← relink .left t node subst
  let t ← adopt t (t.child .left subst) subst
  adopt t (t.child .right subst) subst

/-- `DEBUG stuff`. -/
def clearNode (t : Nodes ε) (node : Loc ε) : Nodes ε :=
  (((t.setChild .left node none).setChild .right node none).setParent node none).setKey node 0

/-- Where the sibling `w` of `temp` is red, rotate it up; the new sibling is black. `d` is the side of
`temp`. -/
def deleteRedSibling (d : Dir) (t : Nodes ε) (temp w : Loc ε) : Option (Nodes ε × Loc ε) :=
  if t.red w then do
    let p ← t.parent temp
    let t ← rbtreeRotate d ((t.setRed w false).setRed p true) p
    let p ← t.parent temp
    let w ← t.child d.flip p
    return (t, w)
  else some (t, w)

/-- Where the outer child of the sibling `w` is black, rotate the inner one up, which is red. -/
def deleteInnerRed (d : Dir) (t : Nodes ε) (temp w : Loc ε) : Option (Nodes ε × Loc ε) := do
  let far ← t.child d.flip w
  if t.red far = false then
    let near ← t.child d w
    let t ← rbtreeRotate d.flip ((t.setRed near false).setRed w true) w
    let p ← t.parent temp
    let w ← t.child d.flip p
    return (t, w)
  else return (t, w)

/-- The outer child of the sibling `w` is red: rotate `w` up to the place of the parent. -/
def deleteOuterRed (d : Dir) (t : Nodes ε) (temp w : Loc ε) : Option (Nodes ε) := do
  let p ← t.parent temp
  let t := (t.setRed w (t.red p)).setRed p false
  let far ← t.child d.flip w
  rbtreeRotate d (t.setRed far false) p

/-- The loop of the delete fixup, with the statement after it. `d` is the side of `temp`. -/
def deleteFixup : Nat → Nodes ε → Loc ε → Option (Nodes ε)
  | 0, _, _ => none
  | turns + 1, t, temp =>
      if temp = t.root ∨ t.red temp = true then some (t.setRed temp false)
      else do
        let p ← t.parent temp
        let d := side t p temp
        let w ← t.child d.flip p
        let (t, w) ← deleteRedSibling d t temp w
        let l ← t.child .left w
        let r ← t.child .right w
        if t.red l = false ∧ t.red r = false then
          let t := t.setRed w true
          let p ← t.parent temp
          deleteFixup turns t p
        else
          let (t, w) ← deleteInnerRed d t temp w
          let t ← deleteOuterRed d t temp w
          deleteFixup turns t t.root

/-- `rbtree_delete(tree, node)` where each loop may take `turns` turns. -/
def rbtreeDeleteIn (turns : Nat) (t : Nodes ε) (node : Loc ε) : Option (Nodes ε) := do
  let (subst, temp) ← deletePickIn turns t node
  let t := { t with size := t.size - 1 }
  if subst = t.root then return clearNode ((t.setRoot temp).setRed temp false) node
  else
    let red := t.red subst
    let t ← deleteUnlink t subst temp
    let t ←
      if subst = node then some (t.setParent temp (t.parent subst))
      else deleteReplace t node subst temp
    let t := clearNode t node
    if red then return t else deleteFixup turns t temp

/-- `rbtree_delete(tree, node)`. -/
def rbtreeDelete (t : Nodes ε) (node : Loc ε) : Option (Nodes ε) := rbtreeDeleteIn (t.size + 1) t node

end Crawler.Rbtree
