/-
# Crawler.Lib.Run — runs of guarded transition systems, and what their steps must do

A system has states, actions, a guard `enabled` that says when the environment may take an action,
and a step `next` that is undefined where the program itself goes wrong (a null dereference, a wild
pointer). `Run` threads the steps of a list of actions.

Two rules are proved once for all systems. `Run.invariant` is the usual induction. `everyState_iff`
is its exact form: when steps that meet a condition keep an invariant of the property and steps that
do not meet it break the property, a run has the property in every state it passes exactly when all
its steps meet the condition.
-/
import Mathlib.Data.List.Infix
import Mathlib.Tactic.Common

namespace Crawler.Lib

/-- A guarded transition system; `next` is `none` where the step itself goes wrong. -/
structure System (σ α : Type*) where
  init : σ → Prop
  enabled : σ → α → Prop
  next : σ → α → Option σ

variable {σ α : Type*} {S : System σ α}

/-- `Run S s as t`: the actions `as`, each enabled when it is taken, lead from `s` to `t`. -/
inductive Run (S : System σ α) (s : σ) : List α → σ → Prop
  | nil : Run S s [] s
  | snoc {as : List α} {t u : σ} {a : α} :
      Run S s as t → S.enabled t a → S.next t a = some u → Run S s (as ++ [a]) u

/-- The states reached by the runs of the system. -/
def Reachable (S : System σ α) (t : σ) : Prop := ∃ s as, S.init s ∧ Run S s as t

/-- `P` holds in every state the run passes, the first and the last included. -/
def EveryState (S : System σ α) (s : σ) (as : List α) (P : σ → Prop) : Prop :=
  ∀ pre t, pre <+: as → Run S s pre t → P t

/-- `C` holds of every step the run takes. -/
def EveryStep (S : System σ α) (s : σ) (as : List α) (C : σ → α → Prop) : Prop :=
  ∀ pre a t, pre ++ [a] <+: as → Run S s pre t → C t a

theorem Run.nil_iff {s t : σ} : Run S s [] t ↔ t = s := by
  constructor
  · intro h
    generalize hl : ([] : List α) = l at h
    cases h with
    | nil => rfl
    | snoc => simp at hl
  · rintro rfl
    exact .nil

/-- The last step of a run. -/
theorem Run.snoc_iff {s u : σ} {as : List α} {a : α} :
    Run S s (as ++ [a]) u ↔ ∃ t, Run S s as t ∧ S.enabled t a ∧ S.next t a = some u := by
  constructor
  · intro h
    generalize hl : as ++ [a] = l at h
    cases h with
    | nil => simp at hl
    | @snoc bs t _ b hr he hn =>
        obtain ⟨rfl, hb⟩ := List.append_inj' hl rfl
        obtain rfl : a = b := by simpa using hb
        exact ⟨t, hr, he, hn⟩
  · rintro ⟨t, hr, he, hn⟩
    exact .snoc hr he hn

/-- The actions determine the state they lead to. -/
theorem Run.unique {s t u : σ} {as : List α} (ht : Run S s as t) (hu : Run S s as u) : t = u := by
  induction ht generalizing u with
  | nil => exact (Run.nil_iff.mp hu).symm
  | snoc _ _ hn ih =>
      obtain ⟨t', hr', -, hn'⟩ := Run.snoc_iff.mp hu
      rw [← ih hr', hn] at hn'
      exact Option.some.inj hn'

/-- Every prefix of a run is a run. -/
theorem Run.prefix {s u : σ} {as pre : List α} (hr : Run S s as u) (hp : pre <+: as) :
    ∃ t, Run S s pre t := by
  induction hr with
  | nil => exact ⟨s, (List.prefix_nil.mp hp) ▸ .nil⟩
  | @snoc as t u a hr he hn ih =>
      rcases List.prefix_concat_iff.mp hp with rfl | hp
      · exact ⟨u, .snoc hr he hn⟩
      · exact ih hp

/-- A property that holds at the start and is kept by every step holds at the end. -/
theorem Run.invariant {P : σ → Prop} {s u : σ} {as : List α} (hr : Run S s as u) (h0 : P s)
    (hkeep : ∀ t a v, P t → S.enabled t a → S.next t a = some v → P v) : P u := by
  induction hr with
  | nil => exact h0
  | snoc _ he hn ih => exact hkeep _ _ _ ih he hn

theorem Reachable.invariant {P : σ → Prop} {u : σ} (hr : Reachable S u) (h0 : ∀ s, S.init s → P s)
    (hkeep : ∀ t a v, P t → S.enabled t a → S.next t a = some v → P v) : P u := by
  obtain ⟨s, as, hi, hrun⟩ := hr
  exact hrun.invariant (h0 s hi) hkeep

/-- Steps that meet `C` keep `P`, so a run of such steps has `P` in every state. -/
theorem EveryStep.everyState {P : σ → Prop} {C : σ → α → Prop} {s : σ} {as : List α}
    (hc : EveryStep S s as C) (h0 : P s)
    (hkeep : ∀ t a v, P t → C t a → S.enabled t a → S.next t a = some v → P v) :
    EveryState S s as P := by
  intro pre t hp hr
  induction hr with
  | nil => exact h0
  | @snoc pre t u a hr he hn ih =>
      have hpre : pre <+: as := (List.prefix_append pre [a]).trans hp
      exact hkeep t a u (ih hpre) (hc pre a t hp hr) he hn

/-- The exact form of the rule. `P` is kept by the steps that meet `C` and implies the property `Q`
of interest; a step that does not meet `C` ends outside `Q`. Then a run has `Q` throughout exactly
when all its steps meet `C`. -/
theorem everyState_iff {P Q : σ → Prop} {C : σ → α → Prop} {s u : σ} {as : List α}
    (hr : Run S s as u) (h0 : P s) (himp : ∀ t, P t → Q t)
    (hkeep : ∀ t a v, P t → C t a → S.enabled t a → S.next t a = some v → P v)
    (hbreak : ∀ t a v, P t → ¬ C t a → S.enabled t a → S.next t a = some v → ¬ Q v) :
    EveryState S s as Q ↔ EveryStep S s as C := by
  constructor
  · intro hQ
    have hP : EveryState S s as P := by
      intro pre t hp hrt
      induction hrt with
      | nil => exact h0
      | @snoc pre t v a hrt he hn ih =>
          have hPt : P t := ih ((List.prefix_append pre [a]).trans hp)
          by_cases hc : C t a
          · exact hkeep t a v hPt hc he hn
          · exact absurd (hQ _ v hp (.snoc hrt he hn)) (hbreak t a v hPt hc he hn)
    intro pre a t hp hrt
    by_contra hc
    obtain ⟨v, hv⟩ := hr.prefix hp
    obtain ⟨t', hrt', he, hn⟩ := Run.snoc_iff.mp hv
    obtain rfl := hrt.unique hrt'
    have hPt : P t := hP pre t ((List.prefix_append pre [a]).trans hp) hrt
    exact hbreak t a v hPt hc he hn (hQ _ v hp hv)
  · exact fun hc pre t hp hrt => himp t (hc.everyState h0 hkeep pre t hp hrt)

/-! ## Running a list of actions -/

/-- Take the actions one after another. -/
def System.play (S : System σ α) (s : σ) : List α → Option σ
  | [] => some s
  | a :: as => (S.next s a).bind fun t => S.play t as

/-- Check every step before it is taken. -/
def System.check (S : System σ α) (ok : σ → α → Bool) (s : σ) : List α → Bool
  | [] => true
  | a :: as => ok s a && (S.next s a).all fun t => S.check ok t as

/-- The first step of a run. -/
theorem Run.cons_iff {s u : σ} {a : α} {as : List α} :
    Run S s (a :: as) u ↔ ∃ t, S.enabled s a ∧ S.next s a = some t ∧ Run S t as u := by
  induction as using List.reverseRecOn generalizing u with
  | nil =>
      rw [← List.nil_append [a], Run.snoc_iff]
      constructor
      · rintro ⟨t, ht, he, hn⟩
        obtain rfl := Run.nil_iff.mp ht
        exact ⟨u, he, hn, .nil⟩
      · rintro ⟨t, he, hn, ht⟩
        obtain rfl := Run.nil_iff.mp ht
        exact ⟨s, .nil, he, hn⟩
  | append_singleton as b ih =>
      rw [← List.cons_append, Run.snoc_iff]
      constructor
      · rintro ⟨v, hv, heb, hnb⟩
        obtain ⟨t, he, hn, ht⟩ := ih.mp hv
        exact ⟨t, he, hn, ht.snoc heb hnb⟩
      · rintro ⟨t, he, hn, ht⟩
        obtain ⟨v, hv, heb, hnb⟩ := Run.snoc_iff.mp ht
        exact ⟨v, ih.mpr ⟨t, he, hn, hv⟩, heb, hnb⟩

/-- Where every action is enabled, what is played is a run. -/
theorem run_of_play (hen : ∀ s a, S.enabled s a) {s u : σ} {as : List α}
    (h : S.play s as = some u) : Run S s as u := by
  induction as generalizing s with
  | nil =>
      cases h
      exact .nil
  | cons a as ih =>
      obtain ⟨t, hn, ht⟩ := Option.bind_eq_some_iff.mp h
      exact Run.cons_iff.mpr ⟨t, hen s a, hn, ih ht⟩

/-- A run that passes the check meets what is checked. -/
theorem everyStep_of_check {ok : σ → α → Bool} {C : σ → α → Prop}
    (hok : ∀ s a, ok s a = true → C s a) {s : σ} {as : List α} (h : S.check ok s as = true) :
    EveryStep S s as C := by
  induction as generalizing s with
  | nil =>
      intro pre a t hp _
      have hlen := hp.length_le
      simp at hlen
  | cons b as ih =>
      rw [System.check, Bool.and_eq_true] at h
      intro pre a t hp hr
      cases pre with
      | nil =>
          obtain rfl := Run.nil_iff.mp hr
          obtain ⟨rfl, -⟩ := List.cons_prefix_cons.mp hp
          exact hok _ _ h.1
      | cons c pre =>
          obtain ⟨rfl, hp'⟩ := List.cons_prefix_cons.mp hp
          obtain ⟨v, -, hn, hv⟩ := Run.cons_iff.mp hr
          rw [hn] at h
          exact ih h.2 pre a t hp' hv

/-! ## What the steps of a run give -/

/-- What `f` makes of every step, one after another. -/
def System.gather {β : Type*} (S : System σ α) (f : σ → α → List β) (s : σ) : List α → List β
  | [] => []
  | a :: as => f s a ++ (S.next s a).elim [] fun t => S.gather f t as

/-- The last step adds what `f` makes of it in the state the run has come to. -/
theorem Run.gather_snoc {β : Type*} {s t : σ} {as : List α} (h : Run S s as t)
    (f : σ → α → List β) (a : α) : S.gather f s (as ++ [a]) = S.gather f s as ++ f t a := by
  induction as generalizing s with
  | nil =>
      obtain rfl := Run.nil_iff.mp h
      rw [List.nil_append, System.gather, System.gather, List.nil_append]
      cases S.next t a with
      | none => exact List.append_nil _
      | some u => exact List.append_nil _
  | cons b as ih =>
      obtain ⟨u, -, hn, hu⟩ := Run.cons_iff.mp h
      rw [List.cons_append, System.gather, System.gather, hn, Option.elim_some, Option.elim_some, ih hu,
        List.append_assoc]

end Crawler.Lib
