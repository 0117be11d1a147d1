/-
# Crawler.Lib.Chain — singly linked lists in memory

A cell holds a link word of pointer type `π`; `cell a` is the pointer to cell `a`. `Chain link p xs`
says that following the links from `p` meets the cells `xs` and ends at `null`. A change of the
memory away from these cells does not show in the list.
-/
import Mathlib.Data.List.Basic
import Mathlib.Tactic.Common

namespace Crawler.Lib

/-- Pointers to the cells `α`, and the null pointer. -/
structure Pointers (α π : Type*) where
  null : π
  cell : α → π
  cell_injective : Function.Injective cell
  cell_ne_null : ∀ a, cell a ≠ null

variable {α π : Type*} (P : Pointers α π)

/-- From pointer `p` the links run through the cells `xs` to `null`. -/
inductive Chain (link : α → π) : π → List α → Prop
  | nil : Chain link P.null []
  | cons {a : α} {xs : List α} : Chain link (link a) xs → Chain link (P.cell a) (a :: xs)

variable {P} {link link' : α → π} {p : π} {a : α} {xs ys : List α}

/-- A list depends on the links of its own cells only. -/
theorem Chain.frame (h : Chain P link p xs) (heq : ∀ a ∈ xs, link' a = link a) :
    Chain P link' p xs := by
  induction h with
  | nil => exact .nil
  | @cons a xs _ ih =>
      have hlink : link' a = link a := heq a (by simp)
      exact .cons (hlink ▸ ih fun b hb => heq b (by simp [hb]))

/-- The memory determines the list. -/
theorem Chain.unique (h : Chain P link p xs) (h' : Chain P link p ys) : xs = ys := by
  induction h generalizing ys with
  | nil =>
      generalize hq : P.null = q at h'
      cases h' with
      | nil => rfl
      | @cons b => exact absurd hq.symm (P.cell_ne_null b)
  | @cons a xs _ ih =>
      generalize hq : P.cell a = q at h'
      cases h' with
      | nil => exact absurd hq (P.cell_ne_null a)
      | @cons b ys h' =>
          obtain rfl := P.cell_injective hq
          rw [ih h']

/-- Pushing a cell that is not in the list, by writing its link word. -/
theorem Chain.push [DecidableEq α] (h : Chain P link p xs) (ha : a ∉ xs) :
    Chain P (Function.update link a p) (P.cell a) (a :: xs) := by
  refine .cons ?_
  rw [Function.update_self]
  refine h.frame fun b hb => ?_
  have hne : b ≠ a := fun e => ha (e ▸ hb)
  exact Function.update_of_ne hne _ _

/-- A pointer that starts a list is null or the pointer to the list's first cell. -/
theorem Chain.start (h : Chain P link p xs) :
    (p = P.null ∧ xs = []) ∨ ∃ a ys, p = P.cell a ∧ xs = a :: ys ∧ Chain P link (link a) ys := by
  cases h with
  | nil => exact Or.inl ⟨rfl, rfl⟩
  | cons h => exact Or.inr ⟨_, _, rfl, rfl, h⟩

end Crawler.Lib
