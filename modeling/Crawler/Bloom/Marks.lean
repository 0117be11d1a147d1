/-
# Crawler.Bloom.Marks — bits that have been set, in any interleaving

Any number of workers send their commands to one redis. A bit of the filter is marked when some worker
has set it. As long as no command clears a marked bit, marked bits stay set in the store, and a bit
that a worker reads as 0 has not been set before in the log (`Faithful`).
-/
import Crawler.Bloom.Filter
import Crawler.Lib.Workers

namespace Crawler.Bloom

open Crawler.Lib

variable {ι χ α : Type}

/-- The log of workers that talk to redis. -/
abbrev Log (ι χ α : Type) := List (ι × Entry χ Command Reply α)

/-- The bits of the filter that have been set. -/
def marks (log : Log ι χ α) : List UInt32 :=
  log.filterMap fun e =>
    match e.2 with
    | .cmd (.setbit key off true) _ => if key = bloomFilter then some off else none
    | _ => none

/-- The bits of the filter that a command clears. -/
def clears (c : Command) (off : UInt32) : Bool :=
  match c with
  | .setbit key off' false => key = bloomFilter && off' = off
  | .bitop _ dest _ => dest = bloomFilter
  | _ => false

theorem marks_append (log log' : Log ι χ α) : marks (log ++ log') = marks log ++ marks log' :=
  List.filterMap_append

theorem mem_marks_iff {log : Log ι χ α} {off : UInt32} :
    off ∈ marks log ↔ ∃ w r, (w, .cmd (.setbit bloomFilter off true) r) ∈ log := by
  rw [marks, List.mem_filterMap]
  constructor
  · rintro ⟨⟨w, e⟩, hm, he⟩
    split at he
    case h_1 hcmd =>
      split_ifs at he with hkey
      cases he
      simp only at hcmd
      subst hcmd hkey
      exact ⟨w, _, hm⟩
    case h_2 => cases he
  · rintro ⟨w, r, hm⟩
    exact ⟨_, hm, if_pos rfl⟩

/-- The store still has every bit that was set, and the log shows it. -/
structure Faithful (store : Redis) (log : Log ι χ α) : Prop where
  bits : ∀ off ∈ marks log, store.strings bloomFilter off = true
  reads : ∀ log₁ w off log₂,
    log = log₁ ++ (w, .cmd (.getbit bloomFilter off) (.integer 0)) :: log₂ → off ∉ marks log₁
  answers : ∀ w c r, (w, .cmd c r) ∈ log → Answered c r

theorem Faithful.nil (store : Redis) : Faithful store ([] : Log ι χ α) where
  bits := fun _ hm => by cases hm
  reads := fun log₁ w off log₂ h => by simp at h
  answers := fun _ _ _ hm => by cases hm

/-- Replies along a path are among those of the log. -/
theorem Faithful.allAnswered [DecidableEq ι] {store : Redis} {log : Log ι χ α} {w : ι}
    (h : Faithful store log) {t : List (Command × Reply)}
    (ht : ∀ e ∈ (cmds t : List (Entry χ Command Reply α)), e ∈ own w log) : AllAnswered t := by
  rintro ⟨c, r⟩ hx
  exact h.answers w c r (mem_own_iff.mp (ht _ (mem_cmds_iff.mpr hx)))

/-- An entry that is no command. -/
theorem Faithful.snoc_other {store : Redis} {log : Log ι χ α} (h : Faithful store log) {w : ι}
    {e : Entry χ Command Reply α} (he : ∀ c r, e ≠ .cmd c r) : Faithful store (log ++ [(w, e)]) where
  bits := by
    have hnone : marks [(w, e)] = [] := by
      cases e with
      | cmd c r => exact absurd rfl (he c r)
      | call x => rfl
      | ret x a => rfl
    rw [marks_append, hnone, List.append_nil]
    exact h.bits
  reads := by
    intro log₁ v off log₂ hlog
    rcases append_singleton_split hlog with ⟨-, heq⟩ | ⟨log₂', hlog'⟩
    · cases heq
      exact absurd rfl (he _ _)
    · exact h.reads log₁ v off log₂' hlog'
  answers := by
    intro v c r hm
    rcases List.mem_append.mp hm with hm | hm
    · exact h.answers v c r hm
    · cases List.mem_singleton.mp hm
      exact absurd rfl (he _ _)

/-- What a command does to a bit of the filter it does not clear. -/
theorem exec_keeps {store : Redis} {c : Command} {off : UInt32} (hc : clears c off = false)
    (h : store.strings bloomFilter off = true) :
    (store.exec c).1.strings bloomFilter off = true := by
  cases c with
  | setbit key off' value =>
      simp only [Redis.exec]
      by_cases hkey : key = bloomFilter
      · subst hkey
        by_cases hoff : off = off'
        · subst hoff
          cases value with
          | true => simp
          | false => simp [clears] at hc
        · simpa [hoff] using h
      · rwa [Function.update_of_ne (Ne.symm hkey)]
  | getbit key off' => exact h
  | bitop op dest keys =>
      have hdest : dest ≠ bloomFilter := by simpa [clears] using hc
      rw [Redis.exec]
      split_ifs
      · simpa [Function.update_of_ne (Ne.symm hdest)] using h
      · exact h
  | rpush key value => exact h

/-- A command that clears no marked bit. -/
theorem Faithful.snoc_cmd {store : Redis} {log : Log ι χ α} (h : Faithful store log) {w : ι}
    {c : Command} (hc : ∀ off ∈ marks log, clears c off = false) :
    Faithful (store.exec c).1 (log ++ [(w, .cmd c (store.exec c).2)]) where
  bits := by
    intro off hm
    rw [marks_append] at hm
    rcases List.mem_append.mp hm with hm | hm
    · exact exec_keeps (hc off hm) (h.bits off hm)
    · obtain ⟨v, r, hv⟩ := mem_marks_iff.mp hm
      cases List.mem_singleton.mp hv
      simp [Redis.exec]
  reads := by
    intro log₁ v off log₂ hlog
    rcases append_singleton_split hlog with ⟨rfl, heq⟩ | ⟨log₂', hlog'⟩
    · simp only [Prod.mk.injEq, Entry.cmd.injEq] at heq
      obtain ⟨-, rfl, hreply⟩ := heq
      intro hm
      simp [Redis.exec, bitReply, h.bits off hm] at hreply
    · exact h.reads log₁ v off log₂' hlog'
  answers := by
    intro v c' r hm
    rcases List.mem_append.mp hm with hm | hm
    · exact h.answers v c' r hm
    · cases List.mem_singleton.mp hm
      exact store.exec_answered c

/-- The next step of `w` clears no bit that has been set. -/
def KeepsMarks (s : Shared ι χ Command Reply α Redis) (w : ι) : Prop :=
  ∀ c, (s.worker w).sends = some c → ∀ off ∈ marks s.log, clears c off = false

/-- Such a step leaves the store faithful. -/
theorem Faithful.next [DecidableEq ι] {P : Procs χ Command Reply α Redis} (hexec : P.exec = Redis.exec)
    {s u : Shared ι χ Command Reply α Redis} {w : ι} (h : Faithful s.store s.log)
    (hkeeps : KeepsMarks s w) (hn : s.next P w = some u) : Faithful u.store u.log := by
  obtain ⟨⟨store, e, wk⟩, hstep, rfl⟩ := Option.map_eq_some_iff.mp hn
  unfold KeepsMarks at hkeeps
  generalize s.worker w = wk' at hstep hkeeps
  rcases wk' with (_ | ⟨x, calls⟩) | ⟨x, (a | ⟨c, next⟩), calls⟩
  · cases hstep
  · cases hstep
    exact h.snoc_other fun _ _ he => by cases he
  · cases hstep
    exact h.snoc_other fun _ _ he => by cases he
  · cases hstep
    rw [hexec]
    exact h.snoc_cmd (hkeeps c rfl)

end Crawler.Bloom
