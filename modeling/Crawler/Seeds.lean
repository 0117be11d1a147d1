/-
# Crawler.Seeds — the seeds of a crawl, and the links that lead back to them

The master appends the URLs of the settings to the workers' lists (`get_url_seed`), and then the worker
clears the filter and harvests the links of page after page. Only the harvest marks what it appends. A
seed is unknown to the filter, so a link back to it is appended once more: every URL is appended once
exactly when the nine bits of each such link are all bits of links visited before it
(`appendedOnce_iff`), which takes a false positive of the filter.
-/
import Crawler.Html.Harvest

namespace Crawler

open Crawler.Lib Crawler.Bloom Crawler.Html

/-! ## `get_url_seed` -/

/-- A value in `settings.lua`. The fields of a table from 1 on are strings or numbers, as `lua_tostring`
has them, or other values; those after the last are nil. -/
inductive LuaValue where
  | table (fields : List (Option CStr))
  | other
  deriving DecidableEq, Repr

section

variable (workProcesses : UInt32)

/-- The loop over the fields of the table; `none` where `id %= work_processes` traps, there being no
worker. -/
def pushSeeds : List (Option CStr) → Prog Command Reply (Option Unit)
  | some url :: fields =>
      if workProcesses = 0 then return none
      else do
        let rc ← redisListRpush (urlListKey (murmurHash3X86_32 url hashSeed % workProcesses)) url
        if rc < 0 then return some ()
        else pushSeeds fields
  | _ => return some ()

/-- `get_url_seed(L)` on the global `seed`; `none` where `luaL_error` or a trap ends the process. -/
def getUrlSeed (seed : LuaValue) : Prog Command Reply (Option Unit) :=
  match seed with
  | .table fields => pushSeeds workProcesses fields
  | .other => return none

-- `gumbo_get_attribute`
variable (gumboGetAttribute : List GumboAttribute → CStr → Option GumboAttribute)

/-- The master, and then a worker that searches page after page, as far as they write to the lists and
the filter; a worker whose `bloom_init` fails exits. -/
def crawl (seed : LuaValue) (pages : List GumboNode) : Prog Command Reply (Option Unit) := do
  let r ← getUrlSeed workProcesses seed
  match r with
  | none => return none
  | some _ =>
      let rc ← bloomInit
      if rc < 0 then return some ()
      else searchPages gumboGetAttribute workProcesses pages

end

/-! ## What is appended -/

/-- The seeds: the fields up to the first that is no string. -/
def seedUrls : List (Option CStr) → List CStr
  | some url :: fields => url :: seedUrls fields
  | _ => []

section

variable {workProcesses : UInt32} {gumboGetAttribute : List GumboAttribute → CStr → Option GumboAttribute}

/-- The seeds are appended one after another, to the lists of their hashes. -/
theorem pushSeeds_run (hwork : workProcesses ≠ 0) (fields : List (Option CStr)) (s : SharedRedis) :
    ((pushSeeds workProcesses fields).run SharedRedis.exec s).result = some () ∧
      pushes ((pushSeeds workProcesses fields).run SharedRedis.exec s).commands =
        (seedUrls fields).map fun url => (listOf workProcesses url, url) := by
  induction fields generalizing s with
  | nil => exact ⟨rfl, rfl⟩
  | cons field fields ih =>
      cases field with
      | none => exact ⟨rfl, rfl⟩
      | some url =>
          rw [pushSeeds, if_neg hwork, Prog.run_bind, redisListRpush_run]
          simp only [Int.lt_irrefl, if_false]
          obtain ⟨hresult, hpushes⟩ := ih (s.exec (.rpush (listOf workProcesses url) url)).1
          refine ⟨hresult, ?_⟩
          show pushes ([.rpush (listOf workProcesses url) url] ++ _) = _
          rw [pushes_append]
          exact congrArg _ hpushes

theorem bloomInit_noPush : bloomInit.Sends NoPush := by
  refine .bind (.ask (fun _ _ => nofun) fun r => ?_) fun rc => ?_
  · cases r <;> exact .done _
  · split_ifs
    · exact .done _
    · refine .bind (.ask (fun _ _ => nofun) fun r => ?_) fun rc => ?_
      · cases r <;> exact .done _
      · split_ifs <;> exact .done _

theorem bloomInit_result (s : SharedRedis) : (bloomInit.run SharedRedis.exec s).result = 0 := by
  rw [bloomInit, Prog.run_bind, redisStringSetbit_run]
  simp only [Int.lt_irrefl, if_false]
  rw [Prog.run_bind, (redisStringBitop_run _).1]
  rfl

/-- A crawl appends the seeds, and then harvests over a filter that knows none of them. -/
theorem crawl_appendedUrls (hwork : workProcesses ≠ 0) (fields : List (Option CStr))
    (pages : List GumboNode) (s₀ : SharedRedis) :
    ∃ s : SharedRedis, s.bits = ∅ ∧
      appendedUrls ((crawl workProcesses gumboGetAttribute (.table fields) pages).run SharedRedis.exec
        s₀).commands = seedUrls fields ++ appendedUrls (visitCommands
          (visitAll workProcesses s (fitting (linksOfAll gumboGetAttribute pages)))) := by
  let seeded := ((pushSeeds workProcesses fields).run SharedRedis.exec s₀).store
  refine ⟨(bloomInit.run SharedRedis.exec seeded).store, bloomInit_bits seeded, ?_⟩
  have hseeds : (getUrlSeed workProcesses (.table fields)).run SharedRedis.exec s₀ =
      ⟨some (), seeded, ((pushSeeds workProcesses fields).run SharedRedis.exec s₀).commands⟩ := by
    rw [getUrlSeed, ← (pushSeeds_run hwork fields s₀).1]
  have hquiet := pushes_eq_nil (bloomInit_noPush.run_commands SharedRedis.exec seeded)
  have hpages := (@searchPages_fitting gumboGetAttribute workProcesses pages
    (bloomInit.run SharedRedis.exec seeded).store).2
  rw [crawl, Prog.run_bind, hseeds]
  simp only
  rw [Prog.run_bind, bloomInit_result, if_neg (by decide)]
  simp only [appendedUrls, pushes_append, hquiet, (pushSeeds_run hwork fields s₀).2, hpages,
    List.map_append, List.map_map]
  congr 1
  exact List.map_id _

/-! ## Seeds and links -/

/-- A link that is a seed has no bit that is not a bit of a link before it. -/
def SeedsKnown (seeds links : List CStr) : Prop :=
  ∀ before url after, links = before ++ url :: after → url ∈ seeds →
    ∀ off ∈ offsets url, ∃ earlier ∈ before, off ∈ offsets earlier

/-- Where there is a worker, distinct seeds and the links harvested are appended once each exactly when the
filter takes all links back to seeds for visited. A worker that overruns its array has visited the links
before. -/
theorem appendedOnce_iff (hwork : workProcesses ≠ 0) (s₀ : SharedRedis) {fields : List (Option CStr)}
    (hdistinct : (seedUrls fields).Nodup) (pages : List GumboNode) :
    (appendedUrls ((crawl workProcesses gumboGetAttribute (.table fields) pages).run SharedRedis.exec
      s₀).commands).Nodup ↔
        SeedsKnown (seedUrls fields) (fitting (linksOfAll gumboGetAttribute pages)) := by
  obtain ⟨s, hclear, happended⟩ := @crawl_appendedUrls workProcesses gumboGetAttribute hwork fields pages s₀
  have hvisits := @visitAll_visits workProcesses s (fitting (linksOfAll gumboGetAttribute pages))
  have hmap : ((visitAll workProcesses s (fitting (linksOfAll gumboGetAttribute pages))).map Visit.mark).map
      Prod.fst = fitting (linksOfAll gumboGetAttribute pages) := by
    rw [List.map_map, show Prod.fst ∘ Visit.mark = Visit.url from rfl, visitAll_urls]
  have htaken := hvisits.mem_taken_iff
  rw [hmap, hclear] at htaken
  rw [happended, appendedUrls_visits visitAll_proper, List.nodup_append]
  constructor
  · rintro ⟨-, -, hdisjoint⟩ before url after hsplit hseed off hoff
    by_contra hnew
    refine hdisjoint url hseed url ?_ rfl
    refine (htaken url).mpr ⟨before, after, hsplit, off, hoff, Set.notMem_empty off, fun earlier hb hm => ?_⟩
    exact hnew ⟨earlier, hb, hm⟩
  · intro hknown
    refine ⟨hdistinct, hvisits.nodup, ?_⟩
    rintro url hseed _ hmem rfl
    obtain ⟨before, after, hsplit, off, hoff, -, hfirst⟩ := (htaken url).mp hmem
    obtain ⟨earlier, hb, hm⟩ := hknown before url after hsplit hseed off hoff
    exact hfirst earlier hb hm

end

/-! ## A page that links back -/

/-- One seed. -/
def threadSeed : List (Option CStr) := [some (lit "http://bbs.dgtle.com/thread-1"), none]

theorem appendedOnce_iff_threadSeed :
    (appendedUrls ((crawl 1 attributeNamed (.table threadSeed) [threadPage]).run SharedRedis.exec
      aloneRedis).commands).Nodup ↔
        SeedsKnown (seedUrls threadSeed) (fitting (linksOfAll attributeNamed [threadPage])) :=
  appendedOnce_iff (by decide) aloneRedis (by decide +kernel) [threadPage]

/-- The page links back to the seed, which is appended a second time. -/
theorem threadSeed_appendedTwice :
    (seedUrls threadSeed).Nodup ∧
      appendedUrls ((crawl 1 attributeNamed (.table threadSeed) [threadPage]).run SharedRedis.exec
        aloneRedis).commands =
          [lit "http://bbs.dgtle.com/thread-1", lit "http://bbs.dgtle.com/thread-1"] ∧
      ¬ (appendedUrls ((crawl 1 attributeNamed (.table threadSeed) [threadPage]).run SharedRedis.exec
        aloneRedis).commands).Nodup := by
  have htwice : appendedUrls ((crawl 1 attributeNamed (.table threadSeed) [threadPage]).run
      SharedRedis.exec aloneRedis).commands =
        [lit "http://bbs.dgtle.com/thread-1", lit "http://bbs.dgtle.com/thread-1"] := by decide +kernel
  refine ⟨List.nodup_singleton _, htwice, ?_⟩
  rw [htwice]
  simp

end Crawler
