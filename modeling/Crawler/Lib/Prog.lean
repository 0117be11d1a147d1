/-
# Crawler.Lib.Prog — programs that send commands and wait for replies

A program is done, or it sends a command and goes on with the reply. It says nothing of what answers
it. A path is a list of commands with their replies along which a program can go, whatever the
replies; the paths of a sequence are the paths of its parts (`Path.bind_cases`).

`Plays` runs a program to its end against a store whose answers depend on an outcome the environment
chooses for each command. The commands and outcomes determine the store (`Plays.state_eq`), whatever
program sent them. Where every command is executed `run` computes the one end there is.

A program may also call programs. `expand` puts the program that is called in the place of each call, and
what it plays then is what is played over the calls (`plays_expand_iff`), whose log says of each command
which call sent it.
-/
import Mathlib.Tactic.Common

namespace Crawler.Lib

/-- A program that sends commands `κ`, is answered by replies `ρ` and returns an `α`. -/
inductive Prog (κ ρ α : Type) where
  | done (a : α)
  | ask (c : κ) (next : ρ → Prog κ ρ α)

namespace Prog

variable {κ ρ α β : Type}

/-- Run a program, then the one its result selects. -/
protected def bind (p : Prog κ ρ α) (f : α → Prog κ ρ β) : Prog κ ρ β :=
  match p with
  | .done a => f a
  | .ask c next => .ask c fun r => (next r).bind f

instance : Monad (Prog κ ρ) where
  pure := .done
  bind := Prog.bind

/-- Send one command. -/
def send (c : κ) : Prog κ ρ ρ := .ask c .done

@[simp] theorem ask_bind (c : κ) (next : ρ → Prog κ ρ α) (f : α → Prog κ ρ β) :
    (Prog.ask c next >>= f) = .ask c fun r => next r >>= f := rfl

theorem bind_done (p : Prog κ ρ α) : (p >>= Prog.done) = p := by
  induction p with
  | done a => rfl
  | ask c next ih => rw [ask_bind, funext ih]

theorem bind_assoc {γ : Type} (p : Prog κ ρ α) (f : α → Prog κ ρ β) (g : β → Prog κ ρ γ) :
    (p >>= f) >>= g = p >>= fun a => f a >>= g := by
  induction p with
  | done a => rfl
  | ask c next ih => rw [ask_bind, ask_bind, ask_bind, funext ih]

/-- The program goes along the commands and replies of a list. -/
inductive Path : Prog κ ρ α → List (κ × ρ) → Prog κ ρ α → Prop
  | nil {p : Prog κ ρ α} : Path p [] p
  | cons {c : κ} {r : ρ} {next : ρ → Prog κ ρ α} {t : List (κ × ρ)} {q : Prog κ ρ α} :
      Path (next r) t q → Path (.ask c next) ((c, r) :: t) q

theorem path_nil_iff {p q : Prog κ ρ α} : Path p [] q ↔ q = p := by
  constructor
  · intro h
    cases h
    rfl
  · rintro rfl
    exact .nil

/-- A program that is done goes nowhere. -/
theorem path_done_iff {a : α} {t : List (κ × ρ)} {q : Prog κ ρ α} :
    Path (.done a) t q ↔ t = [] ∧ q = .done a := by
  constructor
  · intro h
    cases h
    exact ⟨rfl, rfl⟩
  · rintro ⟨rfl, rfl⟩
    exact .nil

/-- A program that asks stays, or goes on with some reply. -/
theorem path_ask_iff {c : κ} {next : ρ → Prog κ ρ α} {t : List (κ × ρ)} {q : Prog κ ρ α} :
    Path (.ask c next) t q ↔
      (t = [] ∧ q = .ask c next) ∨ ∃ r t', t = (c, r) :: t' ∧ Path (next r) t' q := by
  constructor
  · intro h
    cases h with
    | nil => exact .inl ⟨rfl, rfl⟩
    | cons h => exact .inr ⟨_, _, rfl, h⟩
  · rintro (⟨rfl, rfl⟩ | ⟨r, t', rfl, h⟩)
    · exact .nil
    · exact .cons h

/-- One command more. -/
theorem Path.snoc {p : Prog κ ρ α} {t : List (κ × ρ)} {c : κ} {next : ρ → Prog κ ρ α}
    (h : Path p t (.ask c next)) (r : ρ) : Path p (t ++ [(c, r)]) (next r) := by
  generalize hq : Prog.ask c next = q at h
  induction h with
  | nil =>
      subst hq
      exact .cons .nil
  | cons _ ih => exact .cons (ih hq)

/-- A path of a sequence lies in its first part, or goes through it. -/
theorem Path.bind_cases {p : Prog κ ρ α} {f : α → Prog κ ρ β} {t : List (κ × ρ)} {q : Prog κ ρ β}
    (h : Path (p >>= f) t q) :
    (∃ p', Path p t p' ∧ q = p' >>= f) ∨
      ∃ t₁ t₂ a, t = t₁ ++ t₂ ∧ Path p t₁ (.done a) ∧ Path (f a) t₂ q := by
  induction p generalizing t with
  | done a => exact .inr ⟨[], t, a, rfl, .nil, h⟩
  | ask c next ih =>
      rw [ask_bind, path_ask_iff] at h
      rcases h with ⟨rfl, rfl⟩ | ⟨r, t', rfl, h⟩
      · exact .inl ⟨.ask c next, .nil, rfl⟩
      · rcases ih r h with ⟨p', hp, hq⟩ | ⟨t₁, t₂, a, rfl, hp, hf⟩
        · exact .inl ⟨p', .cons hp, hq⟩
        · exact .inr ⟨(c, r) :: t₁, t₂, a, rfl, .cons hp, hf⟩

/-- A path of a sequence to its end goes through both parts to theirs. -/
theorem Path.bind_done {p : Prog κ ρ α} {f : α → Prog κ ρ β} {t : List (κ × ρ)} {b : β}
    (h : Path (p >>= f) t (.done b)) :
    ∃ t₁ t₂ a, t = t₁ ++ t₂ ∧ Path p t₁ (.done a) ∧ Path (f a) t₂ (.done b) := by
  rcases h.bind_cases with ⟨p', hp, hq⟩ | h
  · cases p' with
    | done a => exact ⟨t, [], a, (List.append_nil t).symm, hp, path_nil_iff.mpr hq⟩
    | ask c next => cases hq
  · exact h

/-- Every command the program can send meets `C`. -/
def Sends (C : κ → Prop) (p : Prog κ ρ α) : Prop := ∀ t q, Path p t q → ∀ x ∈ t, C x.1

theorem Sends.done {C : κ → Prop} (a : α) : Sends C (.done a : Prog κ ρ α) := by
  intro t q h x hx
  rw [(path_done_iff.mp h).1] at hx
  cases hx

theorem Sends.ask {C : κ → Prop} {c : κ} {next : ρ → Prog κ ρ α} (hc : C c)
    (hnext : ∀ r, Sends C (next r)) : Sends C (.ask c next) := by
  intro t q h x hx
  rcases path_ask_iff.mp h with ⟨rfl, -⟩ | ⟨r, t', rfl, h'⟩
  · cases hx
  · rcases List.mem_cons.mp hx with rfl | hx
    · exact hc
    · exact hnext r t' q h' x hx

theorem Sends.bind {C : κ → Prop} {p : Prog κ ρ α} {f : α → Prog κ ρ β} (hp : Sends C p)
    (hf : ∀ a, Sends C (f a)) : Sends C (p >>= f) := by
  intro t q h x hx
  rcases h.bind_cases with ⟨p', hp', -⟩ | ⟨t₁, t₂, a, rfl, hp', hf'⟩
  · exact hp t p' hp' x hx
  · rcases List.mem_append.mp hx with hx | hx
    · exact hp t₁ _ hp' x hx
    · exact hf a t₂ q hf' x hx

/-- The command the program is about to send. -/
theorem Sends.next {C : κ → Prop} [Inhabited ρ] {p : Prog κ ρ α} (hp : Sends C p) {t : List (κ × ρ)}
    {c : κ} {next : ρ → Prog κ ρ α} (h : Path p t (.ask c next)) : C c :=
  hp _ _ (h.snoc default) (c, default) (List.mem_append_right t List.mem_cons_self)

theorem Sends.mono {C D : κ → Prop} {p : Prog κ ρ α} (hp : Sends C p) (h : ∀ c, C c → D c) :
    Sends D p :=
  fun t q hpath x hx => h x.1 (hp t q hpath x hx)

/-- A property of programs that holds of every program built in sequence from programs with it. -/
structure Closed (P : ∀ α, Prog κ ρ α → Prop) : Prop where
  done : ∀ {α : Type} (a : α), P α (.done a)
  bind : ∀ {α β : Type} {p : Prog κ ρ α} {f : α → Prog κ ρ β},
    P α p → (∀ a, P β (f a)) → P β (p >>= f)

theorem Sends.closed (C : κ → Prop) : Closed fun _ (p : Prog κ ρ _) => Sends C p :=
  ⟨Sends.done, Sends.bind⟩

/-! ## Against a store -/

section Play

variable {σ ω : Type} (exec : σ → κ → ω → σ × ρ)

/-- From store `s` the program runs to its end: the commands with the outcomes chosen for them, the
store it leaves, and its result. -/
inductive Plays : Prog κ ρ α → σ → List (κ × ω) → σ → α → Prop
  | done {a : α} {s : σ} : Plays (.done a) s [] s a
  | ask {c : κ} {next : ρ → Prog κ ρ α} {s s' : σ} {o : ω} {t : List (κ × ω)} {a : α} :
      Plays (next (exec s c o).2) (exec s c o).1 t s' a → Plays (.ask c next) s ((c, o) :: t) s' a

/-- The store after a list of commands. -/
def replay (s : σ) (t : List (κ × ω)) : σ := t.foldl (fun s x => (exec s x.1 x.2).1) s

theorem replay_cons (s : σ) (x : κ × ω) (t : List (κ × ω)) :
    replay exec s (x :: t) = replay exec (exec s x.1 x.2).1 t := rfl

theorem replay_append (s : σ) (t t' : List (κ × ω)) :
    replay exec s (t ++ t') = replay exec (replay exec s t) t' := List.foldl_append

variable {exec}

theorem plays_done_iff {a b : α} {s s' : σ} {t : List (κ × ω)} :
    Plays exec (.done a) s t s' b ↔ t = [] ∧ s' = s ∧ b = a := by
  constructor
  · intro h
    cases h
    exact ⟨rfl, rfl, rfl⟩
  · rintro ⟨rfl, rfl, rfl⟩
    exact .done

theorem plays_ask_iff {c : κ} {next : ρ → Prog κ ρ α} {s s' : σ} {t : List (κ × ω)} {a : α} :
    Plays exec (.ask c next) s t s' a ↔
      ∃ o t', t = (c, o) :: t' ∧ Plays exec (next (exec s c o).2) (exec s c o).1 t' s' a := by
  constructor
  · intro h
    cases h with
    | ask h => exact ⟨_, _, rfl, h⟩
  · rintro ⟨o, t', rfl, h⟩
    exact .ask h

theorem Plays.state_eq {p : Prog κ ρ α} {s s' : σ} {t : List (κ × ω)} {a : α}
    (h : Plays exec p s t s' a) : s' = replay exec s t := by
  induction h with
  | done => rfl
  | ask _ ih => exact ih

/-- A sequence plays its parts one after the other. -/
theorem plays_bind_iff {p : Prog κ ρ α} {f : α → Prog κ ρ β} {s s' : σ} {t : List (κ × ω)} {b : β} :
    Plays exec (p >>= f) s t s' b ↔
      ∃ t₁ t₂ s₁ a, t = t₁ ++ t₂ ∧ Plays exec p s t₁ s₁ a ∧ Plays exec (f a) s₁ t₂ s' b := by
  induction p generalizing s t with
  | done a =>
      constructor
      · exact fun h => ⟨[], t, s, a, rfl, .done, h⟩
      · rintro ⟨t₁, t₂, s₁, a', rfl, hp, hf⟩
        obtain ⟨rfl, rfl, rfl⟩ := plays_done_iff.mp hp
        exact hf
  | ask c next ih =>
      rw [ask_bind, plays_ask_iff]
      constructor
      · rintro ⟨o, t', rfl, h⟩
        obtain ⟨t₁, t₂, s₁, a, rfl, hp, hf⟩ := (ih _).mp h
        exact ⟨(c, o) :: t₁, t₂, s₁, a, rfl, .ask hp, hf⟩
      · rintro ⟨t₁, t₂, s₁, a, rfl, hp, hf⟩
        obtain ⟨o, t', rfl, h⟩ := plays_ask_iff.mp hp
        exact ⟨o, t' ++ t₂, rfl, (ih _).mpr ⟨t', t₂, s₁, a, rfl, h, hf⟩⟩

/-- What is played was sent. -/
theorem Sends.plays {C : κ → Prop} {p : Prog κ ρ α} (hp : Sends C p) {s s' : σ}
    {t : List (κ × ω)} {a : α} (h : Plays exec p s t s' a) : ∀ x ∈ t, C x.1 := by
  have hpath : ∃ tr : List (κ × ρ), Path p tr (.done a) ∧ tr.map Prod.fst = t.map Prod.fst := by
    clear hp
    induction h with
    | done => exact ⟨[], .nil, rfl⟩
    | @ask c next s _ o _ _ _ ih =>
        obtain ⟨tr, htr, hsame⟩ := ih
        exact ⟨(c, (exec s c o).2) :: tr, .cons htr, by rw [List.map_cons, hsame]; rfl⟩
  obtain ⟨tr, htr, hsame⟩ := hpath
  intro x hx
  have hm : x.1 ∈ tr.map Prod.fst := by
    rw [hsame]
    exact List.mem_map_of_mem hx
  obtain ⟨y, hy, hxy⟩ := List.mem_map.mp hm
  rw [← hxy]
  exact hp tr _ htr y hy

end Play

section Run

variable {σ : Type} (exec : σ → κ → σ × ρ)

/-- What a program that ran to its end has left. -/
structure Ran (α σ κ : Type) where
  result : α
  store : σ
  commands : List κ

/-- Run a program against a store that executes every command. -/
def run : Prog κ ρ α → σ → Ran α σ κ
  | .done a, s => ⟨a, s, []⟩
  | .ask c next, s =>
      let r := run (next (exec s c).2) (exec s c).1
      { r with commands := c :: r.commands }

@[simp] theorem run_pure (a : α) (s : σ) : (pure a : Prog κ ρ α).run exec s = ⟨a, s, []⟩ := rfl

/-- A sequence runs its parts one after the other. -/
theorem run_bind (p : Prog κ ρ α) (f : α → Prog κ ρ β) (s : σ) :
    (p >>= f).run exec s =
      { (f (p.run exec s).result).run exec (p.run exec s).store with
        commands := (p.run exec s).commands ++
          ((f (p.run exec s).result).run exec (p.run exec s).store).commands } := by
  induction p generalizing s with
  | done a => rfl
  | ask c next ih =>
      rw [ask_bind, run, ih]
      rfl

/-- The store after commands that were all executed. -/
def after (s : σ) (cs : List κ) : σ := cs.foldl (fun s c => (exec s c).1) s

theorem after_append (s : σ) (cs ds : List κ) :
    after exec s (cs ++ ds) = after exec (after exec s cs) ds := List.foldl_append

/-- The commands sent determine the store that is left. -/
theorem run_store (p : Prog κ ρ α) (s : σ) :
    (p.run exec s).store = after exec s (p.run exec s).commands := by
  induction p generalizing s with
  | done a => rfl
  | ask c next ih => exact ih _ _

/-- What is run was sent. -/
theorem Sends.run_commands {C : κ → Prop} {p : Prog κ ρ α} (hp : Sends C p) (s : σ) :
    ∀ c ∈ (p.run exec s).commands, C c := by
  have hpath : ∀ (p : Prog κ ρ α) (s : σ), ∃ t : List (κ × ρ),
      Path p t (.done (p.run exec s).result) ∧ t.map Prod.fst = (p.run exec s).commands := by
    intro p
    induction p with
    | done a => exact fun s => ⟨[], .nil, rfl⟩
    | ask c next ih =>
        intro s
        obtain ⟨t, ht, hsame⟩ := ih (exec s c).2 (exec s c).1
        exact ⟨(c, (exec s c).2) :: t, .cons ht, congrArg (c :: ·) hsame⟩
  obtain ⟨t, ht, hsame⟩ := hpath p s
  intro c hc
  rw [← hsame] at hc
  obtain ⟨x, hx, rfl⟩ := List.mem_map.mp hc
  exact hp t _ ht x hx

end Run

/-! ## Among more commands -/

section Lift

variable {κ' ρ' : Type} (embed : κ → κ') (project : ρ' → ρ)

/-- The program where there are more commands and more replies. -/
def lift : Prog κ ρ α → Prog κ' ρ' α
  | .done a => .done a
  | .ask c next => .ask (embed c) fun r => lift (next (project r))

variable {embed project}

/-- It goes where the program goes. -/
theorem Path.of_lift {p : Prog κ ρ α} {t : List (κ' × ρ')} {q : Prog κ' ρ' α}
    (h : Path (p.lift embed project) t q) :
    ∃ (m : List (κ × ρ')) (p' : Prog κ ρ α), t = m.map (Prod.map embed id) ∧ q = p'.lift embed project ∧
      Path p (m.map (Prod.map id project)) p' := by
  induction p generalizing t with
  | done a =>
      obtain ⟨rfl, rfl⟩ := path_done_iff.mp h
      exact ⟨[], .done a, rfl, rfl, .nil⟩
  | ask c next ih =>
      rcases path_ask_iff.mp h with ⟨rfl, rfl⟩ | ⟨r, t', rfl, h'⟩
      · exact ⟨[], .ask c next, rfl, rfl, .nil⟩
      · obtain ⟨m, p', rfl, hq, hm⟩ := ih (project r) h'
        exact ⟨(c, r) :: m, p', rfl, hq, .cons hm⟩

theorem Sends.lift {C : κ → Prop} {D : κ' → Prop} {p : Prog κ ρ α} (hp : Sends C p)
    (h : ∀ c, C c → D (embed c)) : Sends D (p.lift embed project) := by
  intro t q hpath x hx
  obtain ⟨m, p', rfl, -, hm⟩ := hpath.of_lift
  obtain ⟨y, hy, rfl⟩ := List.mem_map.mp hx
  exact h y.1 (hp _ p' hm (Prod.map id project y) (List.mem_map_of_mem hy))

end Lift

/-! ## Over calls -/

section Expand

variable {κ' ρ' : Type} (body : κ' → Prog κ ρ ρ')

/-- The program with each call replaced by what it calls. -/
def expand : Prog κ' ρ' α → Prog κ ρ α
  | .done a => .done a
  | .ask c next => body c >>= fun r => expand (next r)

theorem expand_send (c : κ') : (send c).expand body = body c := bind_done (body c)

theorem expand_bind (p : Prog κ' ρ' α) (f : α → Prog κ' ρ' β) :
    (p >>= f).expand body = p.expand body >>= fun a => (f a).expand body := by
  induction p with
  | done a => rfl
  | ask c next ih => rw [ask_bind, expand, expand, bind_assoc, funext ih]

variable {σ ω : Type} (exec : σ → κ → ω → σ × ρ)

/-- The program runs to its end over its calls: each call, with the commands it sends and the outcomes
chosen for them. -/
inductive Logs : Prog κ' ρ' α → σ → List (κ' × List (κ × ω)) → σ → α → Prop
  | done {a : α} {s : σ} : Logs (.done a) s [] s a
  | ask {c : κ'} {next : ρ' → Prog κ' ρ' α} {s s₁ s' : σ} {t : List (κ × ω)} {r : ρ'}
      {log : List (κ' × List (κ × ω))} {a : α} :
      Plays exec (body c) s t s₁ r → Logs (next r) s₁ log s' a → Logs (.ask c next) s ((c, t) :: log) s' a

variable {body exec}

theorem logs_done_iff {a b : α} {s s' : σ} {log : List (κ' × List (κ × ω))} :
    Logs body exec (.done a) s log s' b ↔ log = [] ∧ s' = s ∧ b = a := by
  constructor
  · intro h
    cases h
    exact ⟨rfl, rfl, rfl⟩
  · rintro ⟨rfl, rfl, rfl⟩
    exact .done

theorem logs_ask_iff {c : κ'} {next : ρ' → Prog κ' ρ' α} {s s' : σ} {log : List (κ' × List (κ × ω))}
    {a : α} : Logs body exec (.ask c next) s log s' a ↔
      ∃ t s₁ r log', log = (c, t) :: log' ∧ Plays exec (body c) s t s₁ r ∧
        Logs body exec (next r) s₁ log' s' a := by
  constructor
  · intro h
    cases h with
    | ask hcall hrest => exact ⟨_, _, _, _, rfl, hcall, hrest⟩
  · rintro ⟨t, s₁, r, log', rfl, hcall, hrest⟩
    exact .ask hcall hrest

/-- One call alone. -/
theorem logs_send_iff {c : κ'} {s s' : σ} {log : List (κ' × List (κ × ω))} {r : ρ'} :
    Logs body exec (send c) s log s' r ↔ ∃ t, log = [(c, t)] ∧ Plays exec (body c) s t s' r := by
  rw [send, logs_ask_iff]
  constructor
  · rintro ⟨t, s₁, r', log', rfl, hcall, hdone⟩
    obtain ⟨rfl, rfl, rfl⟩ := logs_done_iff.mp hdone
    exact ⟨t, rfl, hcall⟩
  · rintro ⟨t, rfl, hcall⟩
    exact ⟨t, s', r, [], rfl, hcall, .done⟩

/-- The log of a sequence is that of its parts, one after the other. -/
theorem logs_bind_iff {p : Prog κ' ρ' α} {f : α → Prog κ' ρ' β} {s s' : σ}
    {log : List (κ' × List (κ × ω))} {b : β} :
    Logs body exec (p >>= f) s log s' b ↔ ∃ log₁ log₂ s₁ a, log = log₁ ++ log₂ ∧
      Logs body exec p s log₁ s₁ a ∧ Logs body exec (f a) s₁ log₂ s' b := by
  induction p generalizing s log with
  | done a =>
      constructor
      · exact fun h => ⟨[], log, s, a, rfl, .done, h⟩
      · rintro ⟨log₁, log₂, s₁, a', rfl, hp, hf⟩
        obtain ⟨rfl, rfl, rfl⟩ := logs_done_iff.mp hp
        exact hf
  | ask c next ih =>
      rw [ask_bind, logs_ask_iff]
      constructor
      · rintro ⟨t, s₁, r, log', rfl, hcall, hrest⟩
        obtain ⟨log₁, log₂, s₂, a, rfl, hp, hf⟩ := (ih r).mp hrest
        exact ⟨(c, t) :: log₁, log₂, s₂, a, rfl, .ask hcall hp, hf⟩
      · rintro ⟨log₁, log₂, s₂, a, rfl, hp, hf⟩
        obtain ⟨t, s₁, r, log', rfl, hcall, hrest⟩ := logs_ask_iff.mp hp
        exact ⟨t, s₁, r, log' ++ log₂, rfl, hcall, (ih r).mpr ⟨log', log₂, s₂, a, rfl, hrest, hf⟩⟩

/-- What the expanded program plays is what is played over the calls. -/
theorem plays_expand_iff {p : Prog κ' ρ' α} {s s' : σ} {t : List (κ × ω)} {a : α} :
    Plays exec (p.expand body) s t s' a ↔
      ∃ log, Logs body exec p s log s' a ∧ t = log.flatMap Prod.snd := by
  induction p generalizing s t with
  | done b =>
      constructor
      · intro h
        obtain ⟨rfl, rfl, rfl⟩ := plays_done_iff.mp h
        exact ⟨[], .done, rfl⟩
      · rintro ⟨log, hlog, rfl⟩
        obtain ⟨rfl, rfl, rfl⟩ := logs_done_iff.mp hlog
        exact .done
  | ask c next ih =>
      rw [expand, plays_bind_iff]
      constructor
      · rintro ⟨t₁, t₂, s₁, r, rfl, hcall, hrest⟩
        obtain ⟨log, hlog, rfl⟩ := (ih r).mp hrest
        exact ⟨(c, t₁) :: log, .ask hcall hlog, rfl⟩
      · rintro ⟨log, hlog, rfl⟩
        obtain ⟨t₁, s₁, r, log', rfl, hcall, hrest⟩ := logs_ask_iff.mp hlog
        exact ⟨t₁, log'.flatMap Prod.snd, s₁, r, rfl, hcall, (ih r).mpr ⟨log', hrest, rfl⟩⟩

end Expand

end Prog

end Crawler.Lib
