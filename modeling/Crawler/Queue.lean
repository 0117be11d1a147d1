/-
# Crawler.Queue — the macros of `queue.h`, expanded statement by statement

`queue_t` is an intrusive circular list. Every macro is a sequence of assignments to link words, and
its argument *text* is substituted at each use. For a plain pointer this does not show, and the
macros are the ring edits of `Crawler.Lib.Ring`. For an argument such as `queue_last(h)` it does:
the second statement of `queue_remove` evaluates the text in the memory the first one left, so
`queueRemove` takes the argument as a function of the memory.
-/
import Crawler.Lib.Ring

namespace Crawler.Queue

open Crawler.Lib.Ring

variable {α : Type*} [DecidableEq α]

/-- `queue_init(q)`. -/
def queueInit (l : Links α) (q : α) : Links α :=
  let l := l.setPrev q q
  l.setNext q q

/-- `queue_insert_head(h, x)`. -/
def queueInsertHead (l : Links α) (h x : α) : Links α :=
  let l := l.setNext x (l.next h)
  let l := l.setPrev (l.next x) x
  let l := l.setPrev x h
  l.setNext h x

/-- `queue_insert_tail(h, x)`. -/
def queueInsertTail (l : Links α) (h x : α) : Links α :=
  let l := l.setPrev x (l.prev h)
  let l := l.setNext (l.prev x) x
  let l := l.setNext x h
  l.setPrev h x

/-- `queue_last(h)`: the text `(h)->prev`, whose value depends on the memory it is read in. -/
def queueLast (h : α) (l : Links α) : α := l.prev h

/-- `queue_remove(x)`: both statements evaluate the argument text again. -/
def queueRemove (x : Links α → α) (l : Links α) : Links α :=
  let l := l.setPrev (l.next (x l)) (l.prev (x l))
  l.setNext (l.prev (x l)) (l.next (x l))

/-- The search loop over a queue with header `h`, from node `p` on: follow `next` up to the first
node that `hit` accepts, or to the header. -/
def queueFind (l : Links α) (h : α) (hit : α → Bool) : Nat → α → Option α
  | 0, _ => none
  | fuel + 1, p =>
      if p = h then none
      else if hit p then some p
      else queueFind l h hit fuel (l.next p)

/-- Where the nodes are met in order, the loop is a search through them. -/
theorem queueFind_eq_walk (l : Links α) (h : α) (hit : α → Bool) (fuel : Nat) (p : α) :
    queueFind l h hit fuel p = (walk l h fuel p).find? hit := by
  induction fuel generalizing p with
  | zero => rfl
  | succ fuel ih =>
      by_cases hp : p = h
      · simp [queueFind, walk, hp]
      · by_cases hh : hit p
        · simp [queueFind, walk, hp, hh]
        · simp [queueFind, walk, hp, hh, ih]

theorem queueFind_of_visits {l : Links α} {h : α} {xs : List α} (hv : Visits l h xs)
    {fuel : Nat} (hlen : xs.length < fuel) (hit : α → Bool) :
    queueFind l h hit fuel (l.next h) = xs.find? hit := by
  rw [queueFind_eq_walk, hv.walk_eq hlen]

/-- Whatever the links look like, the node found is one that `hit` accepts. -/
theorem queueFind_hit {l : Links α} {h : α} {hit : α → Bool} {fuel : Nat} {p a : α}
    (hf : queueFind l h hit fuel p = some a) : hit a = true := by
  rw [queueFind_eq_walk] at hf
  exact List.find?_some hf

@[simp] theorem queueInsertHead_next (l : Links α) (h x a : α) :
    (queueInsertHead l h x).next a = if a = h then x else if a = x then l.next h else l.next a := by
  simp [queueInsertHead]

@[simp] theorem queueInsertHead_prev (l : Links α) (h x a : α) :
    (queueInsertHead l h x).prev a = if a = x then h else if a = l.next h then x else l.prev a := by
  simp [queueInsertHead]

theorem queueRemove_prev (x : Links α → α) (l : Links α) (a : α) :
    (queueRemove x l).prev a = if a = l.next (x l) then l.prev (x l) else l.prev a := by
  simp [queueRemove]

/-- `next` is repaired for the node `y` that the argument text names in the second statement. -/
theorem queueRemove_next {x : Links α → α} {l : Links α} {y : α}
    (hy : x (l.setPrev (l.next (x l)) (l.prev (x l))) = y) (a : α) :
    (queueRemove x l).next a =
      if a = (queueRemove x l).prev y then l.next y else l.next a := by
  subst hy
  simp [queueRemove]

theorem queueInit_isRing (l : Links α) (q : α) : IsRing (queueInit l q) q [] :=
  isRing_nil (by simp [queueInit]) (by simp [queueInit])

theorem queueInsertHead_isRing {l : Links α} {h x : α} {xs : List α} (hr : IsRing l h xs)
    (hx : x ∉ h :: xs) : IsRing (queueInsertHead l h x) h (x :: xs) := by
  have hxh : x ≠ h := fun e => hx (by simp [e])
  apply hr.link_head hx
  · simp
  · simp
  · simp [hxh]
  · by_cases he : l.next h = x
    · -- the header's successor is never the new node
      exfalso
      obtain ⟨z, zs, hz⟩ : ∃ z zs, xs ++ [h] = z :: zs := by cases xs <;> simp
      have hc := hr.joined
      rw [hz, List.isChain_cons_cons] at hc
      have hzm : z ∈ xs ++ [h] := by rw [hz]; simp
      rw [← hc.1.1, he] at hzm
      exact hx (by simpa [or_comm] using hzm)
    · simp [he]
  · intro a hax hah
    simp [hax, hah]
  · intro b hbx hbz
    simp [hbx, hbz]

/-- `queue_insert_tail` is `queue_insert_head` with the two link words exchanged. -/
theorem queueInsertTail_eq_reverse (l : Links α) (h x : α) :
    queueInsertTail l h x =
      ⟨(queueInsertHead ⟨l.prev, l.next⟩ h x).prev, (queueInsertHead ⟨l.prev, l.next⟩ h x).next⟩ :=
  rfl

theorem queueInsertTail_isRing {l : Links α} {h x : α} {xs : List α} (hr : IsRing l h xs)
    (hx : x ∉ h :: xs) : IsRing (queueInsertTail l h x) h (xs ++ [x]) := by
  have hrev := (queueInsertHead_isRing hr.reverse (x := x) (by simpa using hx)).reverse
  rw [queueInsertTail_eq_reverse]
  simpa using hrev

/-- With a plain pointer as its argument `queue_remove` unlinks that node. -/
theorem queueRemove_isRing {l : Links α} {h x : α} {xs : List α} (hr : IsRing l h xs)
    (hx : x ∈ xs) : IsRing (queueRemove (fun _ => x) l) h (xs.erase x) := by
  have hself : ∀ z, z = x → l.next x ≠ x := by
    rintro z - he
    obtain ⟨as, bs, rfl⟩ := List.append_of_mem hx
    obtain ⟨q, qs, hq⟩ : ∃ q qs, bs ++ [h] = q :: qs := by cases bs <;> simp
    have hc := hr.joined
    rw [List.append_assoc, List.cons_append, hq, ← List.cons_append,
      List.isChain_append_cons_cons] at hc
    have hqm : q ∈ bs ++ [h] := by rw [hq]; simp
    rw [← hc.2.1.1, he] at hqm
    have hnd := hr.nodup
    simp only [List.nodup_cons, List.nodup_append, List.mem_append, List.mem_cons] at hnd
    rcases List.mem_append.mp hqm with hxb | hxh
    · exact hnd.2.2.1.1 hxb
    · exact hnd.1 (Or.inr (Or.inl (List.mem_singleton.mp hxh).symm))
  have hne : x ≠ l.next x := (hself x rfl).symm
  apply hr.unlink hx
  · simp [queueRemove, hne]
  · simp [queueRemove]
  · intro a ha
    simp [queueRemove, hne, ha]
  · intro b hb
    simp [queueRemove, hb]

end Crawler.Queue
