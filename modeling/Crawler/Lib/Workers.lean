/-
# Crawler.Lib.Workers — workers that run procedures against one shared store

Every worker runs the procedures of its script one after another. A step of the system is a step of
one worker: it begins a call, sends one command, which the store executes atomically, or returns from
a call. The log keeps who did what, in the order in which it happened.

What a worker does on its own is a path of the procedures it calls, whatever the others do in between
(`reachable_follows`): before a command, or a return, stand the call it belongs to and the commands of
that call (`Follows.before_cmd`, `Follows.before_ret`).
-/
import Crawler.Lib.Prog
import Crawler.Lib.Run
import Mathlib.Logic.Function.Basic

namespace Crawler.Lib

/-- The procedures, what is left of a script after a return, and the store. -/
structure Procs (χ κ ρ α σ : Type) where
  body : χ → Prog κ ρ α
  rest : χ → α → List χ → List χ
  exec : σ → κ → σ × ρ

/-- What a worker does in a step. -/
inductive Entry (χ κ ρ α : Type) where
  | call (x : χ)
  | cmd (c : κ) (r : ρ)
  | ret (x : χ) (a : α)
  deriving DecidableEq

/-- A worker between two calls, or in one. -/
inductive Worker (χ κ ρ α : Type) where
  | idle (calls : List χ)
  | busy (x : χ) (p : Prog κ ρ α) (calls : List χ)

/-- The store, the workers, and the log of their steps. -/
structure Shared (ι χ κ ρ α σ : Type) where
  store : σ
  worker : ι → Worker χ κ ρ α
  log : List (ι × Entry χ κ ρ α)

variable {ι χ κ ρ α σ : Type}

/-- One step of a worker that finds the store in state `s`. -/
def Worker.step (P : Procs χ κ ρ α σ) (s : σ) :
    Worker χ κ ρ α → Option (σ × Entry χ κ ρ α × Worker χ κ ρ α)
  | .idle [] => none
  | .idle (x :: calls) => some (s, .call x, .busy x (P.body x) calls)
  | .busy x (.done a) calls => some (s, .ret x a, .idle (P.rest x a calls))
  | .busy x (.ask c next) calls =>
      some ((P.exec s c).1, .cmd c (P.exec s c).2, .busy x (next (P.exec s c).2) calls)

/-- The command a worker is about to send. -/
def Worker.sends : Worker χ κ ρ α → Option κ
  | .busy _ (.ask c _) _ => some c
  | _ => none

section

variable [DecidableEq ι]

/-- One step of worker `w`. -/
def Shared.next (P : Procs χ κ ρ α σ) (s : Shared ι χ κ ρ α σ) (w : ι) :
    Option (Shared ι χ κ ρ α σ) :=
  ((s.worker w).step P s.store).map fun r =>
    { store := r.1, worker := Function.update s.worker w r.2.2, log := s.log ++ [(w, r.2.1)] }

/-- The workers, each with its script, over any store; any worker may take the next step. -/
def workers (P : Procs χ κ ρ α σ) (script : ι → List χ) : System (Shared ι χ κ ρ α σ) ι where
  init s := s.worker = (fun w => .idle (script w)) ∧ s.log = []
  enabled _ _ := True
  next := Shared.next P

/-- What worker `w` did. -/
def own (w : ι) (log : List (ι × Entry χ κ ρ α)) : List (Entry χ κ ρ α) :=
  log.filterMap fun e => if e.1 = w then some e.2 else none

theorem own_append (w : ι) (log log' : List (ι × Entry χ κ ρ α)) :
    own w (log ++ log') = own w log ++ own w log' := List.filterMap_append

@[simp] theorem own_cons_self (w : ι) (e : Entry χ κ ρ α) (log : List (ι × Entry χ κ ρ α)) :
    own w ((w, e) :: log) = e :: own w log := by simp [own]

theorem own_cons_ne {w v : ι} (h : v ≠ w) (e : Entry χ κ ρ α) (log : List (ι × Entry χ κ ρ α)) :
    own w ((v, e) :: log) = own w log := by simp [own, h]

theorem mem_own_iff {w : ι} {e : Entry χ κ ρ α} {log : List (ι × Entry χ κ ρ α)} :
    e ∈ own w log ↔ (w, e) ∈ log := by
  rw [own, List.mem_filterMap]
  constructor
  · rintro ⟨⟨v, e'⟩, hm, he⟩
    split_ifs at he with hv
    cases hv
    cases he
    exact hm
  · exact fun hm => ⟨(w, e), hm, if_pos rfl⟩

/-- An entry among a worker's own stands in the log, with the worker's others on both sides. -/
theorem own_eq_append_cons {w : ι} {log : List (ι × Entry χ κ ρ α)} {t₁ t₂ : List (Entry χ κ ρ α)}
    {e : Entry χ κ ρ α} (h : own w log = t₁ ++ e :: t₂) :
    ∃ log₁ log₂, log = log₁ ++ (w, e) :: log₂ ∧ own w log₁ = t₁ ∧ own w log₂ = t₂ := by
  obtain ⟨log₁, rest, rfl, h₁, hrest⟩ := List.filterMap_eq_append_iff.mp h
  obtain ⟨skip, ⟨v, e'⟩, log₂, rfl, hskip, he, h₂⟩ := List.filterMap_eq_cons_iff.mp hrest
  split_ifs at he with hv
  cases hv
  cases he
  refine ⟨log₁ ++ skip, log₂, (List.append_assoc _ _ _).symm, ?_, h₂⟩
  have hnone : own v skip = [] := List.filterMap_eq_nil_iff.mpr hskip
  rw [own_append, hnone, List.append_nil]
  exact h₁

end

/-! ## What a worker does on its own -/

/-- The entries of the commands along a path. -/
def cmds (t : List (κ × ρ)) : List (Entry χ κ ρ α) := t.map fun x => .cmd x.1 x.2

@[simp] theorem cmds_append (t t' : List (κ × ρ)) :
    (cmds (t ++ t') : List (Entry χ κ ρ α)) = cmds t ++ cmds t' := List.map_append

theorem mem_cmds_iff {c : κ} {r : ρ} {t : List (κ × ρ)} :
    (.cmd c r : Entry χ κ ρ α) ∈ cmds t ↔ (c, r) ∈ t := by
  simp [cmds]

/-- A worker follows its script, the replies being arbitrary. -/
inductive Follows (P : Procs χ κ ρ α σ) (script : List χ) :
    List (Entry χ κ ρ α) → Worker χ κ ρ α → Prop
  | nil : Follows P script [] (.idle script)
  | call {t : List (Entry χ κ ρ α)} {x : χ} {calls : List χ} :
      Follows P script t (.idle (x :: calls)) →
        Follows P script (t ++ [.call x]) (.busy x (P.body x) calls)
  | cmd {t : List (Entry χ κ ρ α)} {x : χ} {c : κ} {next : ρ → Prog κ ρ α} {calls : List χ} {r : ρ} :
      Follows P script t (.busy x (.ask c next) calls) →
        Follows P script (t ++ [.cmd c r]) (.busy x (next r) calls)
  | ret {t : List (Entry χ κ ρ α)} {x : χ} {a : α} {calls : List χ} :
      Follows P script t (.busy x (.done a) calls) →
        Follows P script (t ++ [.ret x a]) (.idle (P.rest x a calls))

variable {P : Procs χ κ ρ α σ}

/-- A step goes on following the script. -/
theorem Follows.step {script : List χ} {t : List (Entry χ κ ρ α)} {wk wk' : Worker χ κ ρ α} {s s' : σ}
    {e : Entry χ κ ρ α} (h : Follows P script t wk) (hs : wk.step P s = some (s', e, wk')) :
    Follows P script (t ++ [e]) wk' := by
  rcases wk with (_ | ⟨x, calls⟩) | ⟨x, (a | ⟨c, next⟩), calls⟩
  · cases hs
  · cases hs
    exact .call h
  · cases hs
    exact .ret h
  · cases hs
    exact .cmd h

/-- A step of any worker leaves all of them following their scripts. -/
theorem follows_next [DecidableEq ι] {script : ι → List χ} {s u : Shared ι χ κ ρ α σ} {v : ι}
    (h : ∀ w, Follows P (script w) (own w s.log) (s.worker w)) (hn : s.next P v = some u) (w : ι) :
    Follows P (script w) (own w u.log) (u.worker w) := by
  obtain ⟨⟨store, e, wk⟩, hstep, rfl⟩ := Option.map_eq_some_iff.mp hn
  rw [own_append]
  by_cases hv : v = w
  · subst hv
    simp only [own_cons_self, Function.update_self]
    exact (h v).step hstep
  · rw [own_cons_ne hv]
    simp only [own, List.filterMap_nil, List.append_nil, Function.update_of_ne (Ne.symm hv)]
    exact h w

/-- In every reachable state every worker has followed its script. -/
theorem reachable_follows [DecidableEq ι] {script : ι → List χ} {s u : Shared ι χ κ ρ α σ} {as : List ι}
    (hinit : (workers P script).init s) (hr : Run (workers P script) s as u) (w : ι) :
    Follows P (script w) (own w u.log) (u.worker w) := by
  refine hr.invariant (P := fun u => ∀ w, Follows P (script w) (own w u.log) (u.worker w)) ?_
    (fun t v u ht _ hn => follows_next ht hn) w
  intro w
  rw [hinit.1, hinit.2]
  exact .nil

/-- A worker in a call has gone along a path of its procedure since it began it. -/
theorem Follows.busy {script : List χ} {t : List (Entry χ κ ρ α)} {x : χ} {p : Prog κ ρ α}
    {calls : List χ} (h : Follows P script t (.busy x p calls)) :
    ∃ t₀ m, t = t₀ ++ .call x :: cmds m ∧ (P.body x).Path m p := by
  generalize hwk : Worker.busy x p calls = wk at h
  induction h generalizing p with
  | nil => cases hwk
  | call _ =>
      cases hwk
      exact ⟨_, [], rfl, .nil⟩
  | cmd _ ih =>
      cases hwk
      obtain ⟨t₀, m, rfl, hm⟩ := ih rfl
      refine ⟨t₀, m ++ [_], ?_, hm.snoc _⟩
      rw [cmds_append, List.append_assoc, List.cons_append]
      rfl
  | ret => cases hwk

/-- An entry of a trace with one more entry is that one, or stands before it. -/
theorem append_singleton_split {β : Type} {t t₁ t₂ : List β} {e e' : β}
    (h : t ++ [e] = t₁ ++ e' :: t₂) : (t = t₁ ∧ e = e') ∨ ∃ t₂', t = t₁ ++ e' :: t₂' := by
  rcases List.eq_nil_or_concat t₂ with rfl | ⟨t₂', e'', rfl⟩
  · obtain ⟨rfl, he⟩ := List.append_inj' h rfl
    exact .inl ⟨rfl, List.singleton_inj.mp he⟩
  · rw [List.concat_eq_append, ← List.cons_append, ← List.append_assoc] at h
    exact .inr ⟨t₂', (List.append_inj' h rfl).1⟩

/-- Before a return stand its call and a path of the procedure to its end. -/
theorem Follows.before_ret {script : List χ} {t t₁ t₂ : List (Entry χ κ ρ α)} {wk : Worker χ κ ρ α}
    {x : χ} {a : α} (h : Follows P script t wk) (ht : t = t₁ ++ .ret x a :: t₂) :
    ∃ t₀ m, t₁ = t₀ ++ .call x :: cmds m ∧ (P.body x).Path m (.done a) := by
  induction h generalizing t₂ with
  | nil => simp at ht
  | call _ ih =>
      rcases append_singleton_split ht with ⟨-, he⟩ | ⟨t₂', ht'⟩
      · cases he
      · exact ih ht'
  | cmd _ ih =>
      rcases append_singleton_split ht with ⟨-, he⟩ | ⟨t₂', ht'⟩
      · cases he
      · exact ih ht'
  | ret hbusy ih =>
      rcases append_singleton_split ht with ⟨rfl, he⟩ | ⟨t₂', ht'⟩
      · cases he
        exact hbusy.busy
      · exact ih ht'

/-- Before a command stand its call and a path of the procedure on which it is next. -/
theorem Follows.before_cmd {script : List χ} {t t₁ t₂ : List (Entry χ κ ρ α)} {wk : Worker χ κ ρ α}
    {c : κ} {r : ρ} (h : Follows P script t wk) (ht : t = t₁ ++ .cmd c r :: t₂) :
    ∃ x t₀ m p, t₁ = t₀ ++ .call x :: cmds m ∧ (P.body x).Path (m ++ [(c, r)]) p := by
  induction h generalizing t₂ with
  | nil => simp at ht
  | call _ ih =>
      rcases append_singleton_split ht with ⟨-, he⟩ | ⟨t₂', ht'⟩
      · cases he
      · exact ih ht'
  | cmd hbusy ih =>
      rcases append_singleton_split ht with ⟨rfl, he⟩ | ⟨t₂', ht'⟩
      · cases he
        obtain ⟨t₀, m, rfl, hm⟩ := hbusy.busy
        exact ⟨_, t₀, m, _, rfl, hm.snoc _⟩
      · exact ih ht'
  | ret _ ih =>
      rcases append_singleton_split ht with ⟨-, he⟩ | ⟨t₂', ht'⟩
      · cases he
      · exact ih ht'

/-- The command and its reply belong to a call that has returned. -/
def Completed (P : Procs χ κ ρ α σ) (t : List (Entry χ κ ρ α)) (c : κ) (r : ρ) : Prop :=
  ∃ x m a, (c, r) ∈ m ∧ (∀ e ∈ (cmds m : List (Entry χ κ ρ α)), e ∈ t) ∧ (P.body x).Path m (.done a)

theorem Completed.append {t : List (Entry χ κ ρ α)} {c : κ} {r : ρ} (h : Completed P t c r)
    (t' : List (Entry χ κ ρ α)) : Completed P (t ++ t') c r := by
  obtain ⟨x, m, a, hm, ht, hpath⟩ := h
  exact ⟨x, m, a, hm, fun e he => List.mem_append_left _ (ht e he), hpath⟩

/-- A command belongs to a call that has returned, or to the one the worker is in. -/
theorem Follows.cmd_mem {script : List χ} {t : List (Entry χ κ ρ α)} {wk : Worker χ κ ρ α}
    (h : Follows P script t wk) {c : κ} {r : ρ} (hm : .cmd c r ∈ t) :
    Completed P t c r ∨ ∃ x p calls t₀ m, wk = .busy x p calls ∧ t = t₀ ++ .call x :: cmds m ∧
      (c, r) ∈ m ∧ (P.body x).Path m p := by
  induction h with
  | nil => cases hm
  | call hidle ih =>
      rcases List.mem_append.mp hm with hm | hm
      · rcases ih hm with h | ⟨x, p, calls, t₀, m, hbusy, -⟩
        · exact .inl (h.append _)
        · cases hbusy
      · cases List.mem_singleton.mp hm
  | cmd hbusy ih =>
      rcases List.mem_append.mp hm with hm | hm
      · rcases ih hm with h | ⟨x, p, calls, t₀, m, heq, rfl, hin, hpath⟩
        · exact .inl (h.append _)
        · cases heq
          refine .inr ⟨_, _, _, t₀, m ++ [_], rfl, ?_, List.mem_append_left _ hin, hpath.snoc _⟩
          rw [cmds_append, List.append_assoc, List.cons_append]
          rfl
      · cases List.mem_singleton.mp hm
        obtain ⟨t₀, m, rfl, hpath⟩ := hbusy.busy
        refine .inr ⟨_, _, _, t₀, m ++ [(c, r)], rfl, ?_, List.mem_append_right _ List.mem_cons_self,
          hpath.snoc _⟩
        rw [cmds_append, List.append_assoc, List.cons_append]
        rfl
  | ret hbusy ih =>
      rcases List.mem_append.mp hm with hm | hm
      · rcases ih hm with h | ⟨x, p, calls, t₀, m, heq, rfl, hin, hpath⟩
        · exact .inl (h.append _)
        · cases heq
          refine .inl ⟨_, m, _, hin, fun e he => ?_, hpath⟩
          exact List.mem_append_left _ (List.mem_append_right _ (List.mem_cons_of_mem _ he))
      · cases List.mem_singleton.mp hm

/-- A worker between two calls has completed all it has sent. -/
theorem Follows.completed {script calls : List χ} {t : List (Entry χ κ ρ α)}
    (h : Follows P script t (.idle calls)) {c : κ} {r : ρ} (hm : .cmd c r ∈ t) : Completed P t c r := by
  rcases h.cmd_mem hm with h | ⟨x, p, calls', t₀, m, hbusy, -⟩
  · exact h
  · cases hbusy

/-! ## The log and the store -/

/-- What a log does to the store. -/
def storeAfter (P : Procs χ κ ρ α σ) (s : σ) (log : List (ι × Entry χ κ ρ α)) : σ :=
  log.foldl (fun s e =>
    match e.2 with
    | .cmd c _ => (P.exec s c).1
    | _ => s) s

theorem storeAfter_append (s : σ) (log log' : List (ι × Entry χ κ ρ α)) :
    storeAfter P s (log ++ log') = storeAfter P (storeAfter P s log) log' := List.foldl_append

/-- Every reply in the log is the one the store gave. -/
def Recorded (P : Procs χ κ ρ α σ) (s : σ) (log : List (ι × Entry χ κ ρ α)) : Prop :=
  ∀ log₁ w c r log₂, log = log₁ ++ (w, .cmd c r) :: log₂ → r = (P.exec (storeAfter P s log₁) c).2

theorem Recorded.prefix {s : σ} {log log' : List (ι × Entry χ κ ρ α)}
    (h : Recorded P s (log ++ log')) : Recorded P s log := by
  rintro log₁ w c r log₂ rfl
  exact h log₁ w c r (log₂ ++ log') (by rw [List.append_assoc, List.cons_append])

/-- One entry more. -/
theorem Recorded.snoc {s : σ} {log : List (ι × Entry χ κ ρ α)} (h : Recorded P s log) {w : ι}
    {e : Entry χ κ ρ α} (he : ∀ c r, e = .cmd c r → r = (P.exec (storeAfter P s log) c).2) :
    Recorded P s (log ++ [(w, e)]) := by
  intro log₁ v c r log₂ hlog
  rcases append_singleton_split hlog with ⟨rfl, heq⟩ | ⟨log₂', hlog'⟩
  · cases heq
    exact he c r rfl
  · exact h log₁ v c r log₂' hlog'

/-- In every reachable state the log accounts for the store, and its replies for themselves. -/
theorem reachable_recorded [DecidableEq ι] {script : ι → List χ} {s u : Shared ι χ κ ρ α σ} {as : List ι}
    (hinit : (workers P script).init s) (hr : Run (workers P script) s as u) :
    u.store = storeAfter P s.store u.log ∧ Recorded P s.store u.log := by
  refine hr.invariant (P := fun u => u.store = storeAfter P s.store u.log ∧ Recorded P s.store u.log) ?_ ?_
  · rw [hinit.2]
    exact ⟨rfl, fun log₁ w c r log₂ h => by simp at h⟩
  · rintro t w v ⟨hstore, hlog⟩ - hn
    obtain ⟨⟨store, e, wk⟩, hstep, rfl⟩ := Option.map_eq_some_iff.mp hn
    simp only [storeAfter_append, ← hstore]
    generalize t.worker w = wk₀ at hstep
    rcases wk₀ with (_ | ⟨x, calls⟩) | ⟨x, (a | ⟨c, next⟩), calls⟩
    · cases hstep
    · cases hstep
      exact ⟨rfl, hlog.snoc nofun⟩
    · cases hstep
      exact ⟨rfl, hlog.snoc nofun⟩
    · cases hstep
      refine ⟨rfl, hlog.snoc ?_⟩
      rintro _ _ ⟨⟩
      rw [hstore]

/-- Who takes no step stays where it is. -/
theorem worker_of_notMem [DecidableEq ι] {script : ι → List χ} {s u : Shared ι χ κ ρ α σ} {as : List ι}
    (hr : Run (workers P script) s as u) {w : ι} (hw : w ∉ as) : u.worker w = s.worker w := by
  induction hr with
  | nil => rfl
  | snoc _ _ hn ih =>
      obtain ⟨⟨store, e, wk⟩, -, rfl⟩ := Option.map_eq_some_iff.mp hn
      simp only [List.mem_append, List.mem_singleton, not_or] at hw
      rw [← ih hw.1]
      exact Function.update_of_ne hw.2 _ _

/-- The calls a worker has yet to begin. -/
def Worker.calls : Worker χ κ ρ α → List χ
  | .idle calls => calls
  | .busy _ _ calls => calls

/-- A call is one of the worker's script, where a return adds none. -/
theorem Follows.calls_mem {script : List χ} {t : List (Entry χ κ ρ α)} {wk : Worker χ κ ρ α}
    (h : Follows P script t wk) (hrest : ∀ x a calls, P.rest x a calls ⊆ calls) :
    (∀ x, .call x ∈ t → x ∈ script) ∧ wk.calls ⊆ script := by
  induction h with
  | nil => exact ⟨fun x hx => absurd hx List.not_mem_nil, List.Subset.refl script⟩
  | call _ ih =>
      refine ⟨fun y hy => ?_, fun y hy => ih.2 (List.mem_cons_of_mem _ hy)⟩
      rcases List.mem_append.mp hy with hy | hy
      · exact ih.1 y hy
      · cases List.mem_singleton.mp hy
        exact ih.2 List.mem_cons_self
  | cmd _ ih =>
      refine ⟨fun y hy => ?_, ih.2⟩
      rcases List.mem_append.mp hy with hy | hy
      · exact ih.1 y hy
      · cases List.mem_singleton.mp hy
  | ret _ ih =>
      refine ⟨fun y hy => ?_, fun y hy => ih.2 (hrest _ _ _ hy)⟩
      rcases List.mem_append.mp hy with hy | hy
      · exact ih.1 y hy
      · cases List.mem_singleton.mp hy

end Crawler.Lib
