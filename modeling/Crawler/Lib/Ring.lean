/-
# Crawler.Lib.Ring — circular doubly linked lists over an arbitrary address type

An intrusive list keeps two link words in every node, one to the next node and one to the previous
one, and closes the circle through a header node. Two views of such a memory are used:

* `IsRing l h xs` — the members `xs` of the header `h`, linked both ways and pairwise distinct;
* `Visits l h xs` — the forward view alone: following `next` from `h` meets `xs` and returns to `h`.

A ring is a visit whose backward links agree. Read backward it is a ring again (`IsRing.reverse`). The
two local edits, linking a node in behind the header (`IsRing.link_head`) and unlinking a member
(`IsRing.unlink`), are stated for any memory that differs from the old one in the edited link words
only, so the order in which a program writes those words does not matter.
-/
import Mathlib.Data.List.Chain
import Mathlib.Data.List.Nodup
import Mathlib.Logic.Function.Basic

namespace Crawler.Lib.Ring

variable {α : Type*}

/-! ## Link words -/

/-- The two link words of every node. -/
structure Links (α : Type*) where
  next : α → α
  prev : α → α

namespace Links

variable [DecidableEq α]

/-- Write the forward link of `a`. -/
def setNext (l : Links α) (a b : α) : Links α := { l with next := Function.update l.next a b }

/-- Write the backward link of `a`. -/
def setPrev (l : Links α) (a b : α) : Links α := { l with prev := Function.update l.prev a b }

@[simp] theorem setNext_next (l : Links α) (a b c : α) :
    (l.setNext a b).next c = if c = a then b else l.next c := by
  simp [setNext, Function.update_apply]

@[simp] theorem setNext_prev (l : Links α) (a b : α) : (l.setNext a b).prev = l.prev := rfl

@[simp] theorem setPrev_prev (l : Links α) (a b c : α) :
    (l.setPrev a b).prev c = if c = a then b else l.prev c := by
  simp [setPrev, Function.update_apply]

@[simp] theorem setPrev_next (l : Links α) (a b : α) : (l.setPrev a b).next = l.next := rfl

end Links

/-! ## The two views -/

/-- Two neighbours linked both ways. -/
def Joined (l : Links α) (a b : α) : Prop := l.next a = b ∧ l.prev b = a

/-- The circular list of header `h` with members `xs`, in `next` order. -/
structure IsRing (l : Links α) (h : α) (xs : List α) : Prop where
  joined : (h :: (xs ++ [h])).IsChain (Joined l)
  nodup : (h :: xs).Nodup

/-- Following `next` from `h` meets exactly `xs`, in order, and then returns to `h`. -/
structure Visits (l : Links α) (h : α) (xs : List α) : Prop where
  forward : (h :: (xs ++ [h])).IsChain (fun a b => l.next a = b)
  notMem : h ∉ xs

theorem IsRing.visits {l : Links α} {h : α} {xs : List α} (hr : IsRing l h xs) :
    Visits l h xs where
  forward := hr.joined.imp fun _ _ hab => hab.1
  notMem := (List.nodup_cons.mp hr.nodup).1

/-- The walk of the source programs: follow `next` until the header comes back. -/
def walk [DecidableEq α] (l : Links α) (h : α) : Nat → α → List α
  | 0, _ => []
  | fuel + 1, p => if p = h then [] else p :: walk l h fuel (l.next p)

theorem walk_eq_of_forward [DecidableEq α] {l : Links α} {h : α} :
    ∀ {xs : List α} {p : α} {fuel : Nat},
      (p :: (xs ++ [h])).IsChain (fun a b => l.next a = b) → h ∉ xs → xs.length < fuel →
        walk l h fuel (l.next p) = xs
  | [], p, fuel + 1, hc, _, _ => by
      have hp : l.next p = h := by simpa using hc
      simp [walk, hp]
  | x :: xs, p, fuel + 1, hc, hx, hf => by
      rw [List.cons_append, List.isChain_cons_cons] at hc
      have hxh : x ≠ h := fun e => hx (by simp [e])
      have hlt : xs.length < fuel := by simpa using hf
      have ih := walk_eq_of_forward hc.2 (fun hm => hx (by simp [hm])) hlt
      simp [walk, hc.1, hxh, ih]

/-- A walk with enough fuel returns the visited members. -/
theorem Visits.walk_eq [DecidableEq α] {l : Links α} {h : α} {xs : List α} (hv : Visits l h xs)
    {fuel : Nat} (hf : xs.length < fuel) : walk l h fuel (l.next h) = xs :=
  walk_eq_of_forward hv.forward hv.notMem hf

/-- The forward links determine what is visited. -/
theorem Visits.unique [DecidableEq α] {l : Links α} {h : α} {xs ys : List α}
    (hx : Visits l h xs) (hy : Visits l h ys) : xs = ys := by
  have hxlt : xs.length < xs.length + ys.length + 1 := by omega
  have hylt : ys.length < xs.length + ys.length + 1 := by omega
  exact (hx.walk_eq hxlt).symm.trans (hy.walk_eq hylt)

/-- The last member of a ring, or the header of an empty one, stands before the header. -/
theorem IsRing.prev_header {l : Links α} {h : α} {xs : List α} (hr : IsRing l h xs) :
    l.next (l.prev h) = h := by
  have hc := hr.joined
  rcases List.eq_nil_or_concat xs with rfl | ⟨ys, y, rfl⟩
  · have hj : Joined l h h := by simpa using hc
    rw [hj.2, hj.1]
  · rw [List.concat_eq_append, List.append_assoc, ← List.cons_append] at hc
    have hj : Joined l y h := by simpa using hc.right_of_append
    rw [hj.2, hj.1]

/-! ## Edits -/

/-- A chain survives a change of memory that keeps `next` of all its nodes but the last and `prev`
of all but the first. -/
theorem joined_transport {l l' : Links α} :
    ∀ {zs : List α}, zs.IsChain (Joined l) → (∀ a ∈ zs.dropLast, l'.next a = l.next a) →
      (∀ b ∈ zs.tail, l'.prev b = l.prev b) → zs.IsChain (Joined l')
  | [], _, _, _ => .nil
  | [_], _, _, _ => .singleton _
  | a :: b :: zs, hc, hn, hp => by
      rw [List.isChain_cons_cons] at hc ⊢
      refine ⟨⟨?_, ?_⟩, joined_transport hc.2 (fun c hm => hn c ?_) (fun c hm => hp c ?_)⟩
      · rw [hn a (by simp), hc.1.1]
      · rw [hp b (by simp), hc.1.2]
      · simpa using Or.inr hm
      · simpa using Or.inr hm

/-- The empty ring: the header points at itself both ways. -/
theorem isRing_nil {l : Links α} {h : α} (hn : l.next h = h) (hp : l.prev h = h) :
    IsRing l h [] where
  joined := by simp [Joined, hn, hp]
  nodup := by simp

/-- Link a new node `x` in right behind the header. -/
theorem IsRing.link_head {l l' : Links α} {h x : α} {xs : List α} (hr : IsRing l h xs)
    (hx : x ∉ h :: xs) (hhx : l'.next h = x) (hxh : l'.prev x = h)
    (hxz : l'.next x = l.next h) (hzx : l'.prev (l.next h) = x)
    (hn : ∀ a, a ≠ x → a ≠ h → l'.next a = l.next a)
    (hp : ∀ b, b ≠ x → b ≠ l.next h → l'.prev b = l.prev b) : IsRing l' h (x :: xs) := by
  obtain ⟨hxh', hxs⟩ := by simpa using hx
  obtain ⟨hhm, hnd⟩ := List.nodup_cons.mp hr.nodup
  refine ⟨?_, by simp [hnd, hhm, hxs, Ne.symm hxh']⟩
  obtain ⟨z, zs, hz⟩ : ∃ z zs, xs ++ [h] = z :: zs := by cases xs <;> simp
  have hc := hr.joined
  rw [hz, List.isChain_cons_cons] at hc
  rw [hc.1.1] at hxz hzx hp
  -- the nodes before the header at the end are members, so neither `x` nor `h`
  have hfront : ∀ a ∈ (z :: zs).dropLast, a ∈ xs := by
    rw [← hz]; intro a ha; simpa using ha
  have hall : ∀ b ∈ z :: zs, b ≠ x := by
    rw [← hz]; rintro b hb rfl
    simp [hxh', hxs] at hb
  -- `z` occurs once, so it is not among the nodes behind it
  have hzt : z ∉ zs := by
    have : (xs ++ [h]).Nodup := by simp [List.nodup_append, hnd]; exact fun a ha e => hhm (e ▸ ha)
    rw [hz] at this
    exact (List.nodup_cons.mp this).1
  rw [List.cons_append, hz, List.isChain_cons_cons, List.isChain_cons_cons]
  refine ⟨⟨hhx, hxh⟩, ⟨hxz, hzx⟩, joined_transport hc.2 (fun a ha => ?_) (fun b hb => ?_)⟩
  · have ham := hfront a ha
    exact hn a (fun e => hxs (e ▸ ham)) (fun e => hhm (e ▸ ham))
  · exact hp b (hall b (List.mem_of_mem_tail hb)) (fun e => hzt (e ▸ by simpa using hb))

/-- Reversing every link turns a ring around. -/
theorem IsRing.reverse {l : Links α} {h : α} {xs : List α} (hr : IsRing l h xs) :
    IsRing ⟨l.prev, l.next⟩ h xs.reverse where
  joined := by
    have hc : (h :: (xs ++ [h])).reverse.IsChain (fun a b => Joined l b a) :=
      List.isChain_reverse.mpr hr.joined
    have he : (h :: (xs ++ [h])).reverse = h :: (xs.reverse ++ [h]) := by simp
    exact he ▸ hc.imp fun _ _ hab => ⟨hab.2, hab.1⟩
  nodup := by simpa using hr.nodup

section Neighbours

-- the member `x` with what lies between it and the header on either side
variable {h x : α} {as bs : List α} (hnd : (h :: (as ++ x :: bs)).Nodup)

include hnd

/-- The left neighbour occurs once: it is the header only if no member is to the left. -/
theorem left_neighbour_once {p : α} {ps : List α} (hp : h :: as = ps ++ [p]) : p ∉ ps ∧ p ∉ bs := by
  have hnd' : ((h :: as) ++ x :: bs).Nodup := hnd
  rw [hp] at hnd'
  obtain ⟨hps, -, hdisj⟩ := List.nodup_append.mp hnd'
  refine ⟨fun hm => ?_, fun hm => ?_⟩
  · exact (List.nodup_append.mp hps).2.2 p hm p (by simp) rfl
  · exact hdisj p (by simp) p (List.mem_cons_of_mem _ hm) rfl

/-- The right neighbour, with the header read as standing at the end. -/
theorem right_neighbour_once {q : α} {qs : List α} (hq : bs ++ [h] = q :: qs) : q ∉ qs ∧ q ∉ as := by
  have hnd' : ((as ++ [x]) ++ (bs ++ [h])).Nodup := by
    have hperm : List.Perm ((as ++ [x]) ++ (bs ++ [h])) (h :: (as ++ x :: bs)) := by
      have hend := List.perm_append_singleton h (as ++ x :: bs)
      simpa using hend
    exact hperm.nodup_iff.mpr hnd
  rw [hq] at hnd'
  obtain ⟨-, hqs, hdisj⟩ := List.nodup_append.mp hnd'
  refine ⟨(List.nodup_cons.mp hqs).1, fun hm => ?_⟩
  exact hdisj q (List.mem_append_left _ hm) q (by simp) rfl

end Neighbours

/-- Unlink the member `x`: its two neighbours are joined and no other link word changes. -/
theorem IsRing.unlink [DecidableEq α] {l l' : Links α} {h x : α} {xs : List α}
    (hr : IsRing l h xs) (hx : x ∈ xs) (hfd : l'.next (l.prev x) = l.next x)
    (hbk : l'.prev (l.next x) = l.prev x) (hn : ∀ a, a ≠ l.prev x → l'.next a = l.next a)
    (hp : ∀ b, b ≠ l.next x → l'.prev b = l.prev b) : IsRing l' h (xs.erase x) := by
  obtain ⟨as, bs, rfl⟩ := List.append_of_mem hx
  have hnd := hr.nodup
  have hxa : x ∉ as := by
    intro hm
    simp only [List.nodup_cons, List.nodup_append, List.mem_cons] at hnd
    exact hnd.2.2.2 x hm x (by simp) rfl
  have herase : (as ++ x :: bs).erase x = as ++ bs := by
    rw [List.erase_append_right _ hxa, List.erase_cons_head]
  rw [herase]
  refine ⟨?_, hnd.sublist (by simp)⟩
  -- the left neighbour `p` ends `h :: as`, the right neighbour `q` starts `bs ++ [h]`
  obtain ⟨ps, p, hpe⟩ : ∃ ps p, h :: as = ps ++ [p] :=
    ⟨_, _, (List.dropLast_append_getLast (l := h :: as) (by simp)).symm⟩
  obtain ⟨q, qs, hqe⟩ : ∃ q qs, bs ++ [h] = q :: qs := by cases bs <;> simp
  obtain ⟨hpps, hpb⟩ := left_neighbour_once hnd hpe
  obtain ⟨hqqs, hqa⟩ := right_neighbour_once hnd hqe
  have hbefore : h :: (as ++ x :: bs ++ [h]) = ps ++ p :: x :: (q :: qs) := by
    calc h :: (as ++ x :: bs ++ [h]) = (h :: as) ++ x :: (bs ++ [h]) := by simp
      _ = _ := by rw [hpe, hqe]; simp
  have hafter : h :: (as ++ bs ++ [h]) = ps ++ p :: (q :: qs) := by
    calc h :: (as ++ bs ++ [h]) = (h :: as) ++ (bs ++ [h]) := by simp
      _ = _ := by rw [hpe, hqe]; simp
  have hc := hr.joined
  rw [hbefore, List.isChain_append_cons_cons, List.isChain_cons_cons] at hc
  obtain ⟨hleft, hpx, hxq, hright⟩ := hc
  rw [hpx.2, hxq.1] at hfd hbk
  rw [hpx.2] at hn
  rw [hxq.1] at hp
  -- no link word of the two chains is among the edited ones
  rw [hafter, List.isChain_append_cons_cons]
  refine ⟨joined_transport hleft (fun a ha => hn a ?_) (fun b hb => hp b ?_), ⟨hfd, hbk⟩,
    joined_transport hright (fun a ha => hn a ?_) (fun b hb => hp b ?_)⟩
  · rintro rfl
    exact hpps (by simpa using ha)
  · rintro rfl
    rw [← hpe, List.tail_cons] at hb
    exact hqa hb
  · rintro rfl
    rw [← hqe, List.dropLast_concat] at ha
    exact hpb ha
  · rintro rfl
    exact hqqs (by simpa using hb)

end Crawler.Lib.Ring
