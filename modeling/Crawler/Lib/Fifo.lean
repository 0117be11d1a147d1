/-
# Crawler.Lib.Fifo — queues in a store that workers share

A queue is a list kept somewhere in the store, with commands that append an item to it and commands
that take its first one. Whatever the workers do and in whatever order, what was in the queue and what
has been appended is what has been taken and what is in it (`Lawful.conserved`): nothing is lost, taken
twice or out of order. A queue that one worker alone takes from does not become empty between two of
its takes (`Lawful.lasts`).
-/
import Crawler.Lib.Workers

namespace Crawler.Lib

/-- What a command does to a queue. -/
inductive QueueOp (β : Type) where
  | put (b : β)
  | take
  | other
  deriving DecidableEq

/-- A queue in the store, and the commands on it; `taken` is the item in the reply to one that takes. -/
structure Fifo (σ κ ρ β : Type) where
  items : σ → List β
  op : κ → QueueOp β
  taken : ρ → Option β

variable {ι χ κ ρ α σ β : Type} {P : Procs χ κ ρ α σ}

namespace Fifo

variable (Q : Fifo σ κ ρ β)

/-- The commands do what they are taken for. -/
structure Lawful (exec : σ → κ → σ × ρ) : Prop where
  put : ∀ s c b, Q.op c = .put b → Q.items (exec s c).1 = Q.items s ++ [b]
  take : ∀ s c, Q.op c = .take →
    Q.items s = (Q.taken (exec s c).2).toList ++ Q.items (exec s c).1
  empty : ∀ s c, Q.op c = .take → Q.items s ≠ [] → (Q.taken (exec s c).2).isSome
  other : ∀ s c, Q.op c = .other → Q.items (exec s c).1 = Q.items s

/-- The item that a step appends. -/
def putBy : Entry χ κ ρ α → Option β
  | .cmd c _ =>
      match Q.op c with
      | .put b => some b
      | _ => none
  | _ => none

/-- The item that a step takes. -/
def takenBy : Entry χ κ ρ α → Option β
  | .cmd c r =>
      match Q.op c with
      | .take => Q.taken r
      | _ => none
  | _ => none

/-- What has been appended, oldest first. -/
def puts (log : List (ι × Entry χ κ ρ α)) : List β := log.filterMap fun e => Q.putBy e.2

/-- What has been taken, oldest first. -/
def takes (log : List (ι × Entry χ κ ρ α)) : List β := log.filterMap fun e => Q.takenBy e.2

theorem puts_append (log log' : List (ι × Entry χ κ ρ α)) : Q.puts (log ++ log') = Q.puts log ++ Q.puts log' :=
  List.filterMap_append

theorem takes_append (log log' : List (ι × Entry χ κ ρ α)) :
    Q.takes (log ++ log') = Q.takes log ++ Q.takes log' := List.filterMap_append

variable {Q}

/-- One step, which finds the queue as `items s`. -/
theorem Lawful.step (hQ : Q.Lawful P.exec) {s : σ} {w : ι} {e : Entry χ κ ρ α}
    (he : ∀ c r, e = .cmd c r → r = (P.exec s c).2) :
    Q.items s ++ Q.puts [(w, e)] = Q.takes [(w, e)] ++ Q.items (storeAfter P s [(w, e)]) := by
  cases e with
  | call x => simp [puts, takes, putBy, takenBy, storeAfter]
  | ret x a => simp [puts, takes, putBy, takenBy, storeAfter]
  | cmd c r =>
      obtain rfl := he c r rfl
      show _ = _ ++ Q.items (P.exec s c).1
      cases hop : Q.op c with
      | put b => simp [puts, takes, putBy, takenBy, hop, hQ.put s c b hop]
      | other => simp [puts, takes, putBy, takenBy, hop, hQ.other s c hop]
      | take =>
          rw [hQ.take s c hop]
          cases htaken : Q.taken (P.exec s c).2 <;> simp [puts, takes, putBy, takenBy, hop, htaken]

/-- What was in the queue and what was appended, is what was taken and what is in it. -/
theorem Lawful.conserved (hQ : Q.Lawful P.exec) {s : σ} {log : List (ι × Entry χ κ ρ α)}
    (hlog : Recorded P s log) :
    Q.items s ++ Q.puts log = Q.takes log ++ Q.items (storeAfter P s log) := by
  induction log using List.reverseRecOn with
  | nil => exact List.append_nil _
  | append_singleton log e ih =>
      obtain ⟨w, e⟩ := e
      have hstep := hQ.step (s := storeAfter P s log) (w := w) (e := e) <| by
        rintro c r rfl
        exact hlog log w c r [] rfl
      rw [puts_append, takes_append, storeAfter_append, ← List.append_assoc, ih hlog.prefix,
        List.append_assoc, hstep, List.append_assoc]

/-- What is in the queue stays in it as long as nobody takes. -/
theorem Lawful.lasts (hQ : Q.Lawful P.exec) {s : σ} {log : List (ι × Entry χ κ ρ α)}
    (hnone : ∀ w c r, (w, .cmd c r) ∈ log → Q.op c ≠ .take) (hs : Q.items s ≠ []) :
    Q.items (storeAfter P s log) ≠ [] := by
  induction log generalizing s with
  | nil => exact hs
  | cons e log ih =>
      obtain ⟨w, e⟩ := e
      refine ih (fun v c r hm => hnone v c r (List.mem_cons_of_mem _ hm)) ?_
      cases e with
      | call x => exact hs
      | ret x a => exact hs
      | cmd c r =>
          show Q.items (P.exec s c).1 ≠ []
          cases hop : Q.op c with
          | put b => simp [hQ.put s c b hop]
          | other => rwa [hQ.other s c hop]
          | take => exact absurd hop (hnone w c r List.mem_cons_self)

end Fifo

end Crawler.Lib
