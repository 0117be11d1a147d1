/-
# Crawler.Lib.Loop — programs whose commands are answered, and their loops

Where every command has one answer a program has one result, and sends the same commands every time.
`Meets` says of both what holds, and is proved along the program: one rule for each way to build it.
The rule for a loop takes an invariant and a variant, and so shows that the loop ends.
-/
import Crawler.Lib.Prog

namespace Crawler.Lib.Prog

variable {κ ρ α β σ : Type}

/-- The result, when `f` answers. -/
def result (f : κ → ρ) : Prog κ ρ α → α
  | .done a => a
  | .ask c next => (next (f c)).result f

/-- The commands sent, when `f` answers. -/
def sent (f : κ → ρ) : Prog κ ρ α → List κ
  | .done _ => []
  | .ask c next => c :: (next (f c)).sent f

@[simp] theorem result_pure (f : κ → ρ) (a : α) : (pure a : Prog κ ρ α).result f = a := rfl

@[simp] theorem result_send (f : κ → ρ) (c : κ) : (send c : Prog κ ρ ρ).result f = f c := rfl

@[simp] theorem result_bind (f : κ → ρ) (p : Prog κ ρ α) (k : α → Prog κ ρ β) :
    (p >>= k).result f = (k (p.result f)).result f := by
  induction p with
  | done a => rfl
  | ask c next ih => exact ih (f c)

theorem sent_bind (f : κ → ρ) (p : Prog κ ρ α) (k : α → Prog κ ρ β) :
    (p >>= k).sent f = p.sent f ++ (k (p.result f)).sent f := by
  induction p with
  | done a => rfl
  | ask c next ih => exact congrArg (c :: ·) (ih (f c))

/-- When `f` answers, the commands sent meet `C` and the result meets `Q`. -/
structure Meets (f : κ → ρ) (C : κ → Prop) (p : Prog κ ρ α) (Q : α → Prop) : Prop where
  sent : ∀ c ∈ p.sent f, C c
  result : Q (p.result f)

section

variable {f : κ → ρ} {C : κ → Prop}

theorem Meets.pure {Q : α → Prop} {a : α} (h : Q a) : Meets f C (pure a) Q :=
  ⟨fun _ hc => (by cases hc), h⟩

theorem Meets.send {c : κ} (hc : C c) : Meets f C (send c) (· = f c) :=
  ⟨fun _ hx => List.mem_singleton.mp hx ▸ hc, rfl⟩

/-- What the first part leaves is what the second one may rely on. -/
theorem Meets.bind {p : Prog κ ρ α} {k : α → Prog κ ρ β} {Q : α → Prop} {R : β → Prop}
    (hp : Meets f C p Q) (hk : ∀ a, Q a → Meets f C (k a) R) : Meets f C (p >>= k) R where
  sent := by
    intro c hc
    rw [sent_bind] at hc
    rcases List.mem_append.mp hc with hc | hc
    · exact hp.sent c hc
    · exact (hk _ hp.result).sent c hc
  result := by
    rw [result_bind]
    exact (hk _ hp.result).result

/-! ## Loops -/

/-- Repeat `turn`, which goes on with a state, leaves with a result, or is not defined. `none` where
it is not, or has not left after `fuel` turns. -/
def loop (turn : σ → Prog κ ρ (Option (σ ⊕ α))) : Nat → σ → Prog κ ρ (Option α)
  | 0, _ => pure none
  | fuel + 1, s => do
      match ← turn s with
      | none => return none
      | some (.inl s) => loop turn fuel s
      | some (.inr a) => return some a

/-- A turn from `s` that keeps `I` and brings `μ` down, or leaves with `Q`. -/
def TurnMeets (f : κ → ρ) (C : κ → Prop) (I : σ → Prop) (μ : σ → Nat) (Q : α → Prop) (s : σ)
    (p : Prog κ ρ (Option (σ ⊕ α))) : Prop :=
  Meets f C p fun r => (∃ s', r = some (.inl s') ∧ I s' ∧ μ s' < μ s) ∨ ∃ a, r = some (.inr a) ∧ Q a

/-- The loop leaves, with `Q`. By induction on the turns allowed, which the variant bounds. -/
theorem Meets.loop {turn : σ → Prog κ ρ (Option (σ ⊕ α))} {I : σ → Prop} {μ : σ → Nat} {Q : α → Prop}
    (hturn : ∀ s, I s → TurnMeets f C I μ Q s (turn s)) {fuel : Nat} {s : σ} (h : I s)
    (hfuel : μ s < fuel) : Meets f C (loop turn fuel s) fun r => ∃ a, r = some a ∧ Q a := by
  induction fuel generalizing s with
  | zero => exact absurd hfuel (Nat.not_lt_zero _)
  | succ fuel ih =>
      refine (hturn s h).bind fun r hr => ?_
      rcases hr with ⟨s', rfl, h', hlt⟩ | ⟨a, rfl, ha⟩
      · exact ih h' (by omega)
      · exact .pure ⟨a, rfl, ha⟩

end

end Crawler.Lib.Prog
