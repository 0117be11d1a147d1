/-
# Crawler.Lib.Scan — scanners that read one item at a time and may stop

A scanner is a step function on a state and an item: it goes on with a new state, or stops with a
result. Such a scanner can be resumed at any point, and what it does on a list does not depend on how
the list is cut (`scan_append`). Two scanners whose steps are related give related results
(`scan_rel`), and an invariant that may speak of the number of items read carries over from the step
(`scan_invariant`).
-/
import Mathlib.Tactic.Common

namespace Crawler.Lib

/-- Where a scanner is: still reading in state `s`, or stopped with result `r`. -/
inductive Scan (σ ρ : Type*) where
  | more (s : σ)
  | stop (r : ρ)

variable {σ τ ρ κ α : Type*}

/-- Go on reading unless stopped. -/
def Scan.bind (x : Scan σ ρ) (k : σ → Scan τ ρ) : Scan τ ρ :=
  match x with
  | .more s => k s
  | .stop r => .stop r

@[simp] theorem Scan.more_bind (s : σ) (k : σ → Scan τ ρ) : (Scan.more s).bind k = k s := rfl

@[simp] theorem Scan.stop_bind (r : ρ) (k : σ → Scan τ ρ) : (Scan.stop r).bind k = .stop r := rfl

/-- Read a list. -/
def scan (step : σ → α → Scan σ ρ) (s : σ) : List α → Scan σ ρ
  | [] => .more s
  | a :: as => (step s a).bind fun s => scan step s as

/-- Reading a list in two parts. -/
theorem scan_append (step : σ → α → Scan σ ρ) (s : σ) (as bs : List α) :
    scan step s (as ++ bs) = (scan step s as).bind fun s => scan step s bs := by
  induction as generalizing s with
  | nil => rfl
  | cons a as ih =>
      rw [List.cons_append, scan, scan]
      cases step s a with
      | more t => exact ih t
      | stop r => rfl

/-- States related by `R`, or results related by `Q`. -/
inductive Scan.Rel (R : σ → τ → Prop) (Q : ρ → κ → Prop) : Scan σ ρ → Scan τ κ → Prop
  | more {s : σ} {t : τ} : R s t → Scan.Rel R Q (.more s) (.more t)
  | stop {r : ρ} {q : κ} : Q r q → Scan.Rel R Q (.stop r) (.stop q)

/-- Scanners whose steps are related read related states and results. -/
theorem scan_rel {step : σ → α → Scan σ ρ} {step' : τ → α → Scan τ κ} {R : σ → τ → Prop}
    {Q : ρ → κ → Prop} (hstep : ∀ s t a, R s t → Scan.Rel R Q (step s a) (step' t a)) {s : σ} {t : τ}
    (h : R s t) (as : List α) : Scan.Rel R Q (scan step s as) (scan step' t as) := by
  induction as generalizing s t with
  | nil => exact .more h
  | cons a as ih =>
      rw [scan, scan]
      have ha := hstep s t a h
      generalize step s a = x at ha
      generalize step' t a = y at ha
      cases ha with
      | more h' => exact ih h'
      | stop h' => exact .stop h'

/-- Steps that keep an invariant, up to `bound` items read. -/
theorem scan_invariant {step : σ → α → Scan σ ρ} {I : Nat → σ → Prop} {J : Nat → ρ → Prop}
    {bound : Nat} (hmore : ∀ k s a t, k < bound → I k s → step s a = .more t → I (k + 1) t)
    (hstop : ∀ k s a r, k < bound → I k s → step s a = .stop r → J (k + 1) r) {k : Nat} {s : σ}
    (h : I k s) {as : List α} (hle : k + as.length ≤ bound) :
    (∀ t, scan step s as = .more t → I (k + as.length) t) ∧
      ∀ r, scan step s as = .stop r → ∃ j, j ≤ k + as.length ∧ J j r := by
  induction as generalizing k s with
  | nil =>
      refine ⟨?_, fun r hr => by cases hr⟩
      rintro t ⟨⟩
      exact h
  | cons a as ih =>
      rw [List.length_cons] at hle
      rw [scan, List.length_cons]
      cases hs : step s a with
      | more t =>
          have hnext := ih (hmore k s a t (by omega) h hs) (by omega)
          rw [show k + (as.length + 1) = k + 1 + as.length by omega]
          exact hnext
      | stop r =>
          refine ⟨fun t ht => (by cases ht), ?_⟩
          rintro r' ⟨⟩
          exact ⟨k + 1, by omega, hstop k s a r (by omega) h hs⟩

end Crawler.Lib
