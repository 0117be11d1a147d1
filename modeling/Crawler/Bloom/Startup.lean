/-
# Crawler.Bloom.Startup — workers that start up over one filter

Every worker runs `bloom_init`, which clears the shared filter, on its own schedule, and then crawls
with `bloom_check` and `bloom_set` (`work_process_cycle`). A worker that starts late clears what the
others have set; in a run in which no command clears a bit that has been set, a URL once set is found
by every later check (`everyState_marksSurvive`).
-/
import Crawler.Bloom.Marks

namespace Crawler.Bloom

open Crawler.Lib

/-- What a worker calls. -/
inductive FilterCall where
  | bloomInit
  | bloomSet (str : CStr)
  | bloomCheck (str : CStr)
  deriving DecidableEq, Repr

/-- The calls of a worker; one whose `bloom_init` fails exits. -/
def filterProcs : Procs FilterCall Command Reply Int Redis where
  body
    | .bloomInit => bloomInit
    | .bloomSet str => bloomSet str
    | .bloomCheck str => bloomCheck str
  rest x rc calls := if x = .bloomInit ∧ rc < 0 then [] else calls
  exec := Redis.exec

section

variable {ι : Type} [DecidableEq ι]

/-- `work_process_cycle` of every worker: first `bloom_init`, then the calls of its crawl. -/
def startup (crawl : ι → List FilterCall) : System (Shared ι FilterCall Command Reply Int Redis) ι :=
  workers filterProcs fun w => .bloomInit :: crawl w

/-- Once a `bloom_set` of a string has returned, every `bloom_check` of it that is called later
returns 1. Between a worker's call and its return all it does is send commands. -/
def MarksSurvive (log : Log ι FilterCall Int) : Prop :=
  ∀ str w w' rc rc' log₁ mid log₂,
    log = log₁ ++ (w', .call (.bloomCheck str)) :: mid ++ (w', .ret (.bloomCheck str) rc') :: log₂ →
    (∀ e ∈ own w' mid, ∃ c r, e = .cmd c r) →
    (w, .ret (.bloomSet str) rc) ∈ log₁ → rc' = 1

/-- The last call in a trace is determined by it. -/
theorem last_call_unique {t t' : List (Entry FilterCall Command Reply Int)} {x x' : FilterCall}
    {m m' : List (Entry FilterCall Command Reply Int)} (hm : ∀ e ∈ m, ∃ c r, e = .cmd c r)
    (hm' : ∀ e ∈ m', ∃ c r, e = .cmd c r) (h : t ++ .call x :: m = t' ++ .call x' :: m') : m = m' := by
  rcases List.append_eq_append_iff.mp h with ⟨s, -, hs⟩ | ⟨s, -, hs⟩
  · cases s with
    | nil => exact (List.cons.inj hs).2
    | cons e s =>
        have hmem : (.call x' : Entry FilterCall Command Reply Int) ∈ m := by
          rw [(List.cons.inj hs).2]
          exact List.mem_append_right _ List.mem_cons_self
        obtain ⟨c, r, hc⟩ := hm _ hmem
        cases hc
  · cases s with
    | nil => exact (List.cons.inj hs).2.symm
    | cons e s =>
        have hmem : (.call x : Entry FilterCall Command Reply Int) ∈ m' := by
          rw [(List.cons.inj hs).2]
          exact List.mem_append_right _ List.mem_cons_self
        obtain ⟨c, r, hc⟩ := hm' _ hmem
        cases hc

/-- A string whose `bloom_set` has returned has all its bits marked. -/
theorem returned_marks {store : Redis} {log log₁ : Log ι FilterCall Int} (h : Faithful store log)
    {script : List FilterCall} {w : ι} {wk : Worker FilterCall Command Reply Int}
    (hw : Follows filterProcs script (own w log) wk) (hpre : log₁ <+: log) {str : CStr} {rc : Int}
    (hret : (w, .ret (.bloomSet str) rc) ∈ log₁) : ∀ off ∈ offsets str, off ∈ marks log₁ := by
  obtain ⟨more, rfl⟩ := hpre
  obtain ⟨t₁, t₂, hown⟩ := List.append_of_mem (mem_own_iff.mpr hret)
  have htrace : own w (log₁ ++ more) = t₁ ++ .ret (.bloomSet str) rc :: (t₂ ++ own w more) := by
    rw [own_append, hown, List.append_assoc, List.cons_append]
  obtain ⟨t₀, m, rfl, hpath⟩ := hw.before_ret htrace
  have hin : ∀ e ∈ (cmds m : List (Entry FilterCall Command Reply Int)), e ∈ own w log₁ := by
    intro e he
    rw [hown]
    exact List.mem_append_left _ (List.mem_append_right _ (List.mem_cons_of_mem _ he))
  have hok : AllAnswered m := h.allAnswered fun e he => by
    rw [own_append]
    exact List.mem_append_left _ (hin e he)
  intro off hoff
  obtain ⟨r, hr⟩ := bloomSet_done hpath hok off hoff
  exact mem_marks_iff.mpr ⟨w, r, mem_own_iff.mp (hin _ (mem_cmds_iff.mpr hr))⟩

/-- A faithful log of workers that follow their scripts has the property. -/
theorem Faithful.marksSurvive {store : Redis} {log : Log ι FilterCall Int} (h : Faithful store log)
    {script : ι → List FilterCall} {worker : ι → Worker FilterCall Command Reply Int}
    (hw : ∀ w, Follows filterProcs (script w) (own w log) (worker w)) : MarksSurvive log := by
  rintro str w w' rc rc' log₁ mid log₂ rfl hmid hret
  have htrace : own w' (log₁ ++ (w', .call (.bloomCheck str)) :: mid ++
      (w', .ret (.bloomCheck str) rc') :: log₂) =
      (own w' log₁ ++ .call (.bloomCheck str) :: own w' mid) ++
        .ret (.bloomCheck str) rc' :: own w' log₂ := by
    rw [own_append, own_append, own_cons_self, own_cons_self]
  obtain ⟨t₀, m, hcall, hpath⟩ := (hw w').before_ret htrace
  have hcmds : ∀ e ∈ (cmds m : List (Entry FilterCall Command Reply Int)), ∃ c r, e = .cmd c r := by
    intro e he
    obtain ⟨x, -, rfl⟩ := List.mem_map.mp he
    exact ⟨x.1, x.2, rfl⟩
  have hm : own w' mid = cmds m := last_call_unique hmid hcmds hcall
  have hok : AllAnswered m := h.allAnswered fun e he => by
    rw [htrace, hm]
    exact List.mem_append_left _ (List.mem_append_right _ (List.mem_cons_of_mem _ he))
  rcases bloomCheck_done hpath hok with hone | ⟨-, t', off, hoff, ht⟩
  · exact hone
  · -- a bit read as 0 has not been set before, though `bloom_set` had returned
    have hread : (w', .cmd (.getbit bloomFilter off) (.integer 0)) ∈ mid := by
      rw [← mem_own_iff, hm, mem_cmds_iff, ht]
      exact List.mem_append_right _ List.mem_cons_self
    obtain ⟨mid₁, mid₂, rfl⟩ := List.append_of_mem hread
    have hnot := h.reads (log₁ ++ (w', .call (.bloomCheck str)) :: mid₁) w' off
      (mid₂ ++ (w', .ret (.bloomCheck str) rc') :: log₂) (by simp)
    have hmark : off ∈ marks log₁ :=
      returned_marks h (hw w) (by rw [List.append_assoc]; exact List.prefix_append _ _) hret off hoff
    rw [marks_append] at hnot
    exact absurd (List.mem_append_left _ hmark) hnot

/-- In a run in which no step clears a bit that has been set, marks survive throughout. -/
theorem everyState_marksSurvive {crawl : ι → List FilterCall}
    {s : Shared ι FilterCall Command Reply Int Redis} {as : List ι} (hinit : (startup crawl).init s)
    (hkeeps : EveryStep (startup crawl) s as KeepsMarks) :
    EveryState (startup crawl) s as fun t => MarksSurvive t.log := by
  have hgood : EveryState (startup crawl) s as fun t => Faithful t.store t.log := by
    refine hkeeps.everyState ?_ fun t w u ht hc _ hn => ht.next rfl hc hn
    rw [hinit.2]
    exact .nil _
  intro pre t hp hr
  exact (hgood pre t hp hr).marksSurvive fun w => reachable_follows hinit hr w

end

/-! ## Two workers -/

/-- `KeepsMarks`, computed. -/
def keepsMarks {ι χ α : Type} (s : Shared ι χ Command Reply α Redis) (w : ι) : Bool :=
  (s.worker w).sends.all fun c => (marks s.log).all fun off => !clears c off

theorem keepsMarks_sound {ι χ α : Type} {s : Shared ι χ Command Reply α Redis} {w : ι}
    (h : keepsMarks s w = true) : KeepsMarks s w := by
  intro c hc off hm
  rw [keepsMarks, hc, Option.all_some, List.all_eq_true] at h
  simpa using h off hm

/-- Worker 0 visits a page, and both workers check it. -/
def pageCrawl : Fin 2 → List FilterCall
  | 0 => [.bloomSet (lit "a"), .bloomCheck (lit "a")]
  | 1 => [.bloomCheck (lit "a")]

/-- The workers before their start, over an empty redis. -/
def pageStart : Shared (Fin 2) FilterCall Command Reply Int Redis where
  store := { strings := fun _ _ => false, lists := fun _ => [] }
  worker := fun w => .idle (.bloomInit :: pageCrawl w)
  log := []

theorem pageStart_init : (startup pageCrawl).init pageStart := ⟨rfl, rfl⟩

/-- Both workers start up; then worker 0 visits the page and worker 1 checks it. -/
def earlyInit : List (Fin 2) :=
  List.replicate 4 0 ++ List.replicate 4 1 ++ List.replicate 11 0 ++ List.replicate 11 1

theorem everyState_marksSurvive_earlyInit :
    EveryState (startup pageCrawl) pageStart earlyInit fun t => MarksSurvive t.log :=
  everyState_marksSurvive pageStart_init
    (everyStep_of_check (fun _ _ => keepsMarks_sound) (by decide +kernel))

/-- Worker 0 starts up and visits the page, then worker 1 starts up, then worker 0 checks the page. -/
def lateInit : List (Fin 2) := List.replicate 15 0 ++ List.replicate 4 1 ++ List.replicate 3 0

/-- The late start clears what has been set, and the check returns 0. -/
theorem lateInit_not_marksSurvive :
    ¬ ∀ (crawl : Fin 2 → List FilterCall) s as u, (startup crawl).init s →
      Run (startup crawl) s as u → MarksSurvive u.log := by
  intro hclaim
  have hplay : ∃ u, (startup pageCrawl).play pageStart lateInit = some u ∧
      (0, .ret (.bloomSet (lit "a")) 0) ∈ u.log.take 19 ∧
      u.log = u.log.take 19 ++ [(0, .call (.bloomCheck (lit "a"))),
        (0, .cmd (.getbit bloomFilter (murmurHash3X86_32 (lit "a") 1999)) (.integer 0))] ++
        [(0, .ret (.bloomCheck (lit "a")) 0)] := by
    refine ⟨_, rfl, ?_, ?_⟩ <;> decide +kernel
  obtain ⟨u, hu, hset, hlog⟩ := hplay
  have hrun := run_of_play (fun _ _ => trivial) hu
  have hone := hclaim pageCrawl pageStart lateInit u pageStart_init hrun (lit "a") 0 0 0 0
    (u.log.take 19) [(0, .cmd (.getbit bloomFilter (murmurHash3X86_32 (lit "a") 1999)) (.integer 0))]
    [] hlog (by simp [own]) hset
  cases hone

end Crawler.Bloom
