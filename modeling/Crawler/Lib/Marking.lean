/-
# Crawler.Lib.Marking — items recognised by their marks

Items are visited one after another. Each has some marks. An item with a mark that has not been seen yet is
taken, and its marks have been seen from then on; an item whose marks have all been seen is skipped. So no
item is taken twice (`Visits.nodup`), and an item is skipped only for marks of items taken before
(`Visits.skipped`), which need not be its own. Which items are taken can be told from the items alone
(`Visits.mem_taken_iff`).
-/
import Mathlib.Data.List.Nodup
import Mathlib.Data.Set.Basic
import Mathlib.Tactic.Common

namespace Crawler.Lib.Marking

variable {α β : Type*}

/-- The items visited, and whether each was taken, between two sets of marks seen. -/
inductive Visits (marks : α → List β) : Set β → List (α × Bool) → Set β → Prop
  | nil {seen : Set β} : Visits marks seen [] seen
  | take {seen seen' : Set β} {a : α} {rest : List (α × Bool)} : (∃ m ∈ marks a, m ∉ seen) →
      Visits marks (seen ∪ {m | m ∈ marks a}) rest seen' → Visits marks seen ((a, true) :: rest) seen'
  | skip {seen seen' : Set β} {a : α} {rest : List (α × Bool)} : (∀ m ∈ marks a, m ∈ seen) →
      Visits marks seen rest seen' → Visits marks seen ((a, false) :: rest) seen'

/-- The items taken. -/
def taken (visits : List (α × Bool)) : List α := (visits.filter Prod.snd).map Prod.fst

@[simp] theorem taken_nil : taken ([] : List (α × Bool)) = [] := rfl

@[simp] theorem taken_cons_true (a : α) (rest : List (α × Bool)) :
    taken ((a, true) :: rest) = a :: taken rest := rfl

@[simp] theorem taken_cons_false (a : α) (rest : List (α × Bool)) :
    taken ((a, false) :: rest) = taken rest := rfl

theorem mem_taken {a : α} {visits : List (α × Bool)} : a ∈ taken visits ↔ (a, true) ∈ visits := by
  simp [taken]

theorem taken_sublist (visits : List (α × Bool)) : (taken visits).Sublist (visits.map Prod.fst) :=
  List.filter_sublist.map Prod.fst

variable {marks : α → List β} {seen seen' : Set β} {visits : List (α × Bool)}

/-- What has been seen at the end: what had been seen before, and the marks of the items taken. -/
theorem Visits.seen_iff (h : Visits marks seen visits seen') (m : β) :
    m ∈ seen' ↔ m ∈ seen ∨ ∃ a ∈ taken visits, m ∈ marks a := by
  induction h with
  | nil => simp
  | take _ _ ih =>
      rw [ih, taken_cons_true, List.exists_mem_cons_iff, Set.mem_union, Set.mem_ofPred_eq, or_assoc]
  | skip _ _ ih => rw [ih, taken_cons_false]

/-- The marks of the items skipped had been seen anyway. -/
theorem Visits.seen_iff_visited (h : Visits marks seen visits seen') (m : β) :
    m ∈ seen' ↔ m ∈ seen ∨ ∃ a ∈ visits.map Prod.fst, m ∈ marks a := by
  induction h with
  | nil => simp
  | take _ _ ih =>
      rw [ih, List.map_cons, List.exists_mem_cons_iff, Set.mem_union, Set.mem_ofPred_eq, or_assoc]
  | skip hall _ ih =>
      rw [ih, List.map_cons, List.exists_mem_cons_iff, ← or_assoc, or_iff_left_of_imp (hall m)]

/-- An item that is taken has a mark that had not been seen at the start. -/
theorem Visits.unseen (h : Visits marks seen visits seen') :
    ∀ a ∈ taken visits, ∃ m ∈ marks a, m ∉ seen := by
  induction h with
  | nil => exact fun a ha => by cases ha
  | @take _ _ a rest hnew _ ih =>
      intro b hb
      rcases List.mem_cons.mp hb with rfl | hb
      · exact hnew
      · obtain ⟨m, hm, hunseen⟩ := ih b hb
        exact ⟨m, hm, fun hseen => hunseen (.inl hseen)⟩
  | skip _ _ ih => exact ih

/-- No item is taken twice. -/
theorem Visits.nodup (h : Visits marks seen visits seen') : (taken visits).Nodup := by
  induction h with
  | nil => exact List.nodup_nil
  | @take _ _ a rest _ hrest ih =>
      refine List.nodup_cons.mpr ⟨fun ha => ?_, ih⟩
      obtain ⟨m, hm, hunseen⟩ := hrest.unseen a ha
      exact hunseen (.inr hm)
  | skip _ _ ih => exact ih

/-- The visits up to one of them. -/
theorem Visits.split {before after : List (α × Bool)} (h : Visits marks seen (before ++ after) seen') :
    ∃ mid, Visits marks seen before mid ∧ Visits marks mid after seen' := by
  induction before generalizing seen with
  | nil => exact ⟨seen, .nil, h⟩
  | cons v before ih =>
      rcases h with _ | ⟨hnew, hrest⟩ | ⟨hall, hrest⟩
      · obtain ⟨mid, hbefore, hafter⟩ := ih hrest
        exact ⟨mid, .take hnew hbefore, hafter⟩
      · obtain ⟨mid, hbefore, hafter⟩ := ih hrest
        exact ⟨mid, .skip hall hbefore, hafter⟩

/-- An item is taken when at one of its visits some mark of it was new: it had not been seen at the
start, and no item visited before has it. -/
theorem Visits.mem_taken_iff (h : Visits marks seen visits seen') (a : α) :
    a ∈ taken visits ↔ ∃ before after, visits.map Prod.fst = before ++ a :: after ∧
      ∃ m ∈ marks a, m ∉ seen ∧ ∀ b ∈ before, m ∉ marks b := by
  constructor
  · intro ha
    obtain ⟨before, after, rfl⟩ := List.append_of_mem (mem_taken.mp ha)
    obtain ⟨mid, hbefore, hafter⟩ := h.split
    rw [List.map_append, List.map_cons]
    cases hafter with
    | take hnew _ =>
        obtain ⟨m, hm, hunseen⟩ := hnew
        rw [hbefore.seen_iff_visited, not_or] at hunseen
        exact ⟨_, _, rfl, m, hm, hunseen.1, fun b hb hmb => hunseen.2 ⟨b, hb, hmb⟩⟩
  · rintro ⟨before, after, hsplit, m, hm, hunseen, hfirst⟩
    obtain ⟨visited, rest, rfl, rfl, hrest⟩ := List.map_eq_append_iff.mp hsplit
    obtain ⟨⟨a, flag⟩, later, rfl, rfl, rfl⟩ := List.map_eq_cons_iff.mp hrest
    obtain ⟨mid, hbefore, hafter⟩ := h.split
    cases hafter with
    | take _ _ => exact mem_taken.mpr (List.mem_append_right _ List.mem_cons_self)
    | skip hall _ =>
        -- a visit that skips it had seen the mark
        rcases (hbefore.seen_iff_visited m).mp (hall m hm) with hseen | ⟨b, hb, hmb⟩
        · exact absurd hseen hunseen
        · exact absurd hmb (hfirst b hb)

/-- An item is skipped for marks seen at the start or those of items taken before it. -/
theorem Visits.skipped {before after : List (α × Bool)} {a : α}
    (h : Visits marks seen (before ++ (a, false) :: after) seen') :
    ∀ m ∈ marks a, m ∈ seen ∨ ∃ b ∈ taken before, m ∈ marks b := by
  obtain ⟨mid, hbefore, hafter⟩ := h.split
  intro m hm
  cases hafter with
  | skip hall _ => exact (hbefore.seen_iff m).mp (hall m hm)

end Crawler.Lib.Marking
