/-
# Crawler.Lib.Feed — consumers that are called again after each fragment of their input

A consumer is called on its state and one fragment after another until one of its results is final.
When every call's view of its result is the outcome of all items received so far, and a result that is
final already is the outcome of whatever follows, what is seen at the end does not depend on how the
input was cut (`Resumable.feed_view`). The condition `fits` restricts the inputs, and `good` where they
may be cut.
-/
import Mathlib.Tactic.Common

namespace Crawler.Lib

variable {σ φ ρ α ν : Type*}

/-- Call on one fragment after another, until a result is final. -/
def feed (call : σ → φ → Option (ρ × σ)) (final : ρ × σ → Bool) (s : σ) (frag : φ) :
    List φ → Option (ρ × σ)
  | [] => call s frag
  | next :: rest => do
      let r ← call s frag
      if final r then return r else feed call final r.2 next rest

/-- Between two calls the state stands for the items received: `mid`, kept at every good cut. All this
holds for inputs that fit. -/
structure Resumable (call : σ → φ → Option (ρ × σ)) (final : ρ × σ → Bool) (items : φ → List α)
    (view : ρ × σ → ν) (outcome : List α → Option ν) (fits good : List α → Prop)
    (mid : σ → List α → Prop) : Prop where
  prefix_fits : ∀ as bs, fits (as ++ bs) → fits as
  view : ∀ s as frag, mid s as → fits (as ++ items frag) →
    (call s frag).map view = outcome (as ++ items frag)
  next : ∀ s as frag r, mid s as → fits (as ++ items frag) → good (as ++ items frag) →
    call s frag = some r → final r = false → mid r.2 (as ++ items frag)
  last : ∀ s as frag bs, mid s as → fits (as ++ items frag ++ bs) → good (as ++ items frag) →
    (∀ r, call s frag = some r → final r = true) →
    outcome (as ++ items frag ++ bs) = outcome (as ++ items frag)

/-- What is seen at the end is the outcome of all that was received. -/
theorem Resumable.feed_view {call : σ → φ → Option (ρ × σ)} {final : ρ × σ → Bool}
    {items : φ → List α} {view : ρ × σ → ν} {outcome : List α → Option ν} {fits good : List α → Prop}
    {mid : σ → List α → Prop} (h : Resumable call final items view outcome fits good mid) {s : σ}
    {as : List α} (hmid : mid s as) {frag : φ} {rest : List φ}
    (hfits : fits (as ++ (frag :: rest).flatMap items))
    (hgood : ∀ k, 0 < k → k < (frag :: rest).length →
      good (as ++ ((frag :: rest).take k).flatMap items)) :
    (feed call final s frag rest).map view = outcome (as ++ (frag :: rest).flatMap items) := by
  induction rest generalizing s as frag with
  | nil =>
      rw [List.flatMap_singleton] at hfits ⊢
      exact h.view s as frag hmid hfits
  | cons next rest ih =>
      rw [List.flatMap_cons, ← List.append_assoc] at hfits ⊢
      have hcut : good (as ++ items frag) := by
        have h1 := hgood 1 Nat.one_pos (by simp)
        rwa [List.take_succ_cons, List.take_zero, List.flatMap_singleton] at h1
      have hrest : ∀ k, 0 < k → k < (next :: rest).length →
          good (as ++ items frag ++ ((next :: rest).take k).flatMap items) := by
        intro k hk hlt
        have hnext := hgood (k + 1) (Nat.succ_pos k) (Nat.succ_lt_succ hlt)
        rwa [List.take_succ_cons, List.flatMap_cons, ← List.append_assoc] at hnext
      have hfits' := h.prefix_fits _ _ hfits
      have hview := h.view s as frag hmid hfits'
      rw [feed]
      cases hcall : call s frag with
      | none =>
          have hlast := h.last s as frag _ hmid hfits hcut (fun r hr => by
            rw [hcall] at hr
            cases hr)
          rw [hlast, ← hview, hcall]
          rfl
      | some r =>
          rw [Option.bind_eq_bind, Option.bind_some]
          cases hfinal : final r with
          | true =>
              have hlast := h.last s as frag _ hmid hfits hcut (fun r' hr' => by
                rw [hcall] at hr'
                cases hr'
                exact hfinal)
              rw [hlast, ← hview, hcall]
              rfl
          | false => exact ih (h.next s as frag r hmid hfits' hcut hcall hfinal) hfits hrest

/-- What is seen at the end is what one call on all the items shows. -/
theorem Resumable.feed_eq_call {call : σ → φ → Option (ρ × σ)} {final : ρ × σ → Bool}
    {items : φ → List α} {view : ρ × σ → ν} {outcome : List α → Option ν} {fits good : List α → Prop}
    {mid : σ → List α → Prop} (h : Resumable call final items view outcome fits good mid) {s : σ}
    (hmid : mid s []) {frag : φ} {rest : List φ} (hfits : fits ((frag :: rest).flatMap items))
    (hgood : ∀ k, 0 < k → k < (frag :: rest).length → good (((frag :: rest).take k).flatMap items))
    {whole : φ} (hwhole : items whole = (frag :: rest).flatMap items) :
    (feed call final s frag rest).map view = (call s whole).map view := by
  have hfeed : (feed call final s frag rest).map view =
      outcome ([] ++ (frag :: rest).flatMap items) := h.feed_view hmid hfits hgood
  have hcall : (call s whole).map view = outcome ([] ++ items whole) :=
    h.view s [] whole hmid (hwhole ▸ hfits)
  rw [hfeed, hcall, hwhole]

end Crawler.Lib
