/-
# Crawler.Html.Harvest — what one worker harvests

One worker searches page after page, over a filter that `bloom_init` has cleared and nobody else writes
to; other clients may do anything else in between. The search of a tree is a loop over the links found in
it in pre-order (`searchForLinks_run`). A visit appends the link and sets its nine bits, or finds all of
them set and changes nothing (`visitLink_run`), so the visits are those of items recognised by their
marks: no URL is appended twice, and a link is left out only for bits of URLs appended before it.
-/
import Crawler.Html.Marked
import Crawler.Lib.Marking
import Mathlib.Algebra.Group.Nat.Defs
import Mathlib.Data.List.TakeWhile
import Mathlib.Data.Set.Insert

namespace Crawler.Html

open Crawler.Lib Crawler.Bloom

/-! ## Commands and what they append -/

/-- What is appended, oldest first: the list and the URL. -/
def pushes (cs : List Command) : List (CStr × CStr) :=
  cs.filterMap fun
    | .rpush key url => some (key, url)
    | _ => none

/-- The URLs appended, oldest first. -/
def appendedUrls (cs : List Command) : List CStr := (pushes cs).map Prod.snd

theorem pushes_append (cs ds : List Command) : pushes (cs ++ ds) = pushes cs ++ pushes ds :=
  List.filterMap_append

/-- Commands that do not append, append nothing. -/
theorem pushes_eq_nil {cs : List Command} (h : ∀ c ∈ cs, NoPush c) : pushes cs = [] := by
  refine List.filterMap_eq_nil_iff.mpr fun c hc => ?_
  cases c with
  | rpush key url => exact absurd rfl (h _ hc key url)
  | _ => rfl

/-! ## Redis with other clients -/

/-- The command does not write to the filter. -/
def LeavesFilter : Command → Prop
  | .setbit key _ _ => key ≠ bloomFilter
  | .bitop _ dest _ => dest ≠ bloomFilter
  | _ => True

/-- Redis, and the commands of other clients that it executes before each command of the worker. They do
not write to the filter. -/
structure SharedRedis where
  redis : Redis
  others : Nat → List Command
  leaves : ∀ n, ∀ c ∈ others n, LeavesFilter c

/-- A command of the worker, executed after those of other clients that come before it. -/
def SharedRedis.exec (s : SharedRedis) (c : Command) : SharedRedis × Reply :=
  let r := (Prog.after Redis.exec s.redis (s.others 0)).exec c
  (⟨r.1, fun n => s.others (n + 1), fun n => s.leaves (n + 1)⟩, r.2)

theorem exec_leaves {c : Command} (h : LeavesFilter c) (s : Redis) :
    (s.exec c).1.strings bloomFilter = s.strings bloomFilter := by
  cases c with
  | setbit key off value => exact Function.update_of_ne (Ne.symm h) _ _
  | getbit key off => rfl
  | bitop op dest keys =>
      rw [Redis.exec]
      split_ifs
      · exact Function.update_of_ne (Ne.symm h) _ _
      · rfl
  | rpush key value => rfl

theorem after_leaves {cs : List Command} (h : ∀ c ∈ cs, LeavesFilter c) (s : Redis) :
    (Prog.after Redis.exec s cs).strings bloomFilter = s.strings bloomFilter := by
  induction cs generalizing s with
  | nil => rfl
  | cons c cs ih =>
      have hc := exec_leaves (h c List.mem_cons_self) s
      exact (ih (fun d hd => h d (List.mem_cons_of_mem _ hd)) _).trans hc

/-- The filter when a command of the worker is executed. -/
theorem SharedRedis.filter_before (s : SharedRedis) :
    (Prog.after Redis.exec s.redis (s.others 0)).strings bloomFilter = s.redis.strings bloomFilter :=
  after_leaves (s.leaves 0) s.redis

/-- The bits of the filter that are set. -/
def SharedRedis.bits (s : SharedRedis) : Set UInt32 := {off | s.redis.strings bloomFilter off = true}

theorem mem_bits {s : SharedRedis} {off : UInt32} :
    off ∈ s.bits ↔ s.redis.strings bloomFilter off = true := Iff.rfl

theorem getbit_reply (s : SharedRedis) (off : UInt32) :
    (s.exec (.getbit bloomFilter off)).2 = bitReply (s.redis.strings bloomFilter off) :=
  congrArg bitReply (congrFun s.filter_before off)

theorem exec_bits {c : Command} (h : LeavesFilter c) (s : SharedRedis) : (s.exec c).1.bits = s.bits := by
  ext off
  rw [mem_bits, mem_bits, ← s.filter_before]
  exact Eq.congr_left (congrFun (exec_leaves h _) off)

theorem setbit_bits (s : SharedRedis) (off : UInt32) :
    (s.exec (.setbit bloomFilter off true)).1.bits = insert off s.bits := by
  ext off'
  rw [Set.mem_insert_iff, mem_bits, mem_bits, ← s.filter_before]
  by_cases h : off' = off
  · simp [SharedRedis.exec, Redis.exec, h]
  · simp [SharedRedis.exec, Redis.exec, h]

/-! ## The filter -/

theorem redisStringSetbit_run (str : CStr) (off value : UInt32) (s : SharedRedis) :
    (redisStringSetbit str off value).run SharedRedis.exec s =
      ⟨0, (s.exec (.setbit str off (value != 0))).1, [.setbit str off (value != 0)]⟩ := rfl

theorem redisStringGetbit_run (off : UInt32) (s : SharedRedis) :
    (redisStringGetbit bloomFilter off).run SharedRedis.exec s =
      ⟨(0, if s.redis.strings bloomFilter off then 1 else 0), (s.exec (.getbit bloomFilter off)).1,
        [.getbit bloomFilter off]⟩ := by
  rw [redisStringGetbit, Prog.send, Prog.ask_bind, Prog.run, getbit_reply]
  rfl

theorem redisListRpush_run (key value : CStr) (s : SharedRedis) :
    (redisListRpush key value).run SharedRedis.exec s =
      ⟨0, (s.exec (.rpush key value)).1, [.rpush key value]⟩ := rfl

/-- The exclusive or of the filter with itself. -/
theorem redisStringBitop_run (s : SharedRedis) :
    ((redisStringBitop bloomFilter bloomFilter (lit "XOR") bloomFilter).run SharedRedis.exec s).result = 0 ∧
      ((redisStringBitop bloomFilter bloomFilter (lit "XOR") bloomFilter).run SharedRedis.exec
        s).store.bits = ∅ := by
  have hexec : ∀ r : Redis, r.exec (.bitop (lit "XOR") bloomFilter [bloomFilter, bloomFilter]) =
      ({ r with strings := Function.update r.strings bloomFilter fun _ => false }, .integer 0) := by
    intro r
    simp [Redis.exec]
  rw [redisStringBitop, Prog.send, Prog.ask_bind, Prog.run, SharedRedis.exec, hexec]
  refine ⟨rfl, Set.eq_empty_iff_forall_notMem.mpr fun off hoff => ?_⟩
  cases hoff

/-- `bloom_init` clears the filter. -/
theorem bloomInit_bits (s : SharedRedis) : (bloomInit.run SharedRedis.exec s).store.bits = ∅ := by
  rw [bloomInit, Prog.run_bind, redisStringSetbit_run]
  simp only [Int.lt_irrefl, if_false]
  obtain ⟨hresult, hbits⟩ :=
    redisStringBitop_run (s.exec (.setbit bloomFilter bitSize ((0 : UInt32) != 0))).1
  rw [Prog.run_bind, hresult]
  exact hbits

/-- The loop of `bloom_set` sets the bits of its string. -/
theorem setFrom_run (str : CStr) (seeds : List UInt32) (s : SharedRedis) :
    ((setFrom str seeds).run SharedRedis.exec s).store.bits =
      s.bits ∪ {off | off ∈ seeds.map (murmurHash3X86_32 str)} := by
  induction seeds generalizing s with
  | nil => simp [setFrom]
  | cons seed seeds ih =>
      rw [setFrom, Prog.run_bind, redisStringSetbit_run]
      simp only [Int.lt_irrefl, if_false]
      rw [ih, show ((1 : UInt32) != 0) = true from rfl, setbit_bits]
      ext off
      simp only [Set.mem_union, Set.mem_insert_iff, Set.mem_ofPred_eq, List.map_cons, List.mem_cons]
      tauto

/-- The loop of `bloom_check` changes no bit, and answers 1 where all bits are set and else 0. -/
theorem checkFrom_run (str : CStr) (seeds : List UInt32) (s : SharedRedis) :
    let r := (checkFrom str seeds).run SharedRedis.exec s
    r.store.bits = s.bits ∧
      (r.result = 1 ∧ (∀ off ∈ seeds.map (murmurHash3X86_32 str), off ∈ s.bits) ∨
        r.result = 0 ∧ ∃ off ∈ seeds.map (murmurHash3X86_32 str), off ∉ s.bits) := by
  induction seeds generalizing s with
  | nil => exact ⟨rfl, .inl ⟨rfl, by simp⟩⟩
  | cons seed seeds ih =>
      have hsame := exec_bits (c := .getbit bloomFilter (murmurHash3X86_32 str seed)) trivial s
      rw [checkFrom, Prog.run_bind, redisStringGetbit_run]
      simp only [Int.lt_irrefl, if_false]
      by_cases hbit : s.redis.strings bloomFilter (murmurHash3X86_32 str seed) = true
      · -- the bit is set, so the loop goes on
        have hrest := ih (s.exec (.getbit bloomFilter (murmurHash3X86_32 str seed))).1
        rw [hsame] at hrest
        have hone : (1 : UInt32) ≠ 0 := by decide
        rw [hbit]
        simp only [if_true, hone, if_false, List.map_cons, List.forall_mem_cons,
          List.exists_mem_cons_iff]
        obtain ⟨hbits, ⟨hseen, hall⟩ | ⟨hnew, hsome⟩⟩ := hrest
        · exact ⟨hbits, .inl ⟨hseen, hbit, hall⟩⟩
        · exact ⟨hbits, .inr ⟨hnew, .inr hsome⟩⟩
      · refine ⟨?_, .inr ⟨?_, _, List.mem_cons_self, hbit⟩⟩
        · simp [hbit, hsame]
        · simp [hbit]

/-! ## One visit -/

/-- A visit appends the link to its list and sets its bits if one was not set, and else changes
nothing. -/
theorem visitLink_run (workProcesses : UInt32) (url : CStr) (s : SharedRedis) :
    let r := (visitLink workProcesses url).run SharedRedis.exec s
    r.result = 0 ∧
      ((∃ off ∈ offsets url, off ∉ s.bits) ∧ r.store.bits = s.bits ∪ {off | off ∈ offsets url} ∧
          pushes r.commands = [(listOf workProcesses url, url)] ∨
        (∀ off ∈ offsets url, off ∈ s.bits) ∧ r.store.bits = s.bits ∧ pushes r.commands = []) := by
  have hcheck := checkFrom_run url seeds s
  have hquiet := pushes_eq_nil ((bloomCheck_noPush url).run_commands SharedRedis.exec s)
  rw [visitLink, Prog.run_bind]
  rw [bloomCheck] at hquiet ⊢
  generalize (checkFrom url seeds).run SharedRedis.exec s = check at hcheck hquiet ⊢
  obtain ⟨hbits, ⟨hresult, hall⟩ | ⟨hresult, hnew⟩⟩ := hcheck
  · rw [hresult]
    refine ⟨rfl, .inr ⟨hall, hbits, ?_⟩⟩
    rw [pushes_append, hquiet]
    rfl
  · have hset := setFrom_run url seeds check.store
    have hmarks := pushes_eq_nil ((bloomSet_noPush url).run_commands SharedRedis.exec check.store)
    rw [hresult, if_pos rfl, Prog.run_bind, redisListRpush_run]
    refine ⟨rfl, .inl ⟨hnew, ?_, ?_⟩⟩
    · rw [← hbits]
      exact (exec_bits (c := .rpush _ _) trivial _).trans hset
    · rw [pushes_append, pushes_append, hquiet, hmarks]
      rfl

/-! ## Visit after visit -/

/-- A link that was visited: the bits that were set before, and the commands sent for it. -/
structure Visit where
  url : CStr
  seen : Set UInt32
  commands : List Command

/-- The commands of visits. -/
def visitCommands (visits : List Visit) : List Command := visits.flatMap Visit.commands

/-- The visits of links one after another. -/
def visitAll (workProcesses : UInt32) (s : SharedRedis) : List CStr → List Visit
  | [] => []
  | url :: urls =>
      let r := (visitLink workProcesses url).run SharedRedis.exec s
      ⟨url, s.bits, r.commands⟩ :: visitAll workProcesses r.store urls

theorem visitCommands_cons (v : Visit) (visits : List Visit) :
    visitCommands (v :: visits) = v.commands ++ visitCommands visits := List.flatMap_cons

theorem visitCommands_append (visits visits' : List Visit) :
    visitCommands (visits ++ visits') = visitCommands visits ++ visitCommands visits' :=
  List.flatMap_append

section

variable {workProcesses : UInt32}

theorem visitAll_append (s : SharedRedis) (urls urls' : List CStr) :
    visitAll workProcesses s (urls ++ urls') = visitAll workProcesses s urls ++ visitAll workProcesses
      (Prog.after SharedRedis.exec s (visitCommands (visitAll workProcesses s urls))) urls' := by
  induction urls generalizing s with
  | nil => rfl
  | cons url urls ih =>
      rw [List.cons_append, visitAll, visitAll, ih, Prog.run_store, visitCommands_cons, Prog.after_append]
      rfl

/-- A visit appends its link to its list, or appends nothing, where all bits of the link were set. -/
def Visit.Proper (workProcesses : UInt32) (v : Visit) : Prop :=
  pushes v.commands = [(listOf workProcesses v.url, v.url)] ∨
    pushes v.commands = [] ∧ ∀ off ∈ offsets v.url, off ∈ v.seen

theorem visitAll_proper {s : SharedRedis} {urls : List CStr} :
    ∀ v ∈ visitAll workProcesses s urls, v.Proper workProcesses := by
  induction urls generalizing s with
  | nil => exact fun v hv => by cases hv
  | cons url urls ih =>
      intro v hv
      rcases List.mem_cons.mp hv with rfl | hv
      · obtain ⟨-, ⟨-, -, hpush⟩ | ⟨hall, -, hquiet⟩⟩ := visitLink_run workProcesses url s
        · exact .inl hpush
        · exact .inr ⟨hquiet, hall⟩
      · exact ih v hv

theorem visitAll_urls (s : SharedRedis) (urls : List CStr) :
    (visitAll workProcesses s urls).map Visit.url = urls := by
  induction urls generalizing s with
  | nil => rfl
  | cons url urls ih => rw [visitAll, List.map_cons, ih]

/-- The link, and whether it was appended. -/
def Visit.mark (v : Visit) : CStr × Bool := (v.url, !(pushes v.commands).isEmpty)

/-- The visits are those of items recognised by their marks: of links recognised by their bits. -/
theorem visitAll_visits (s : SharedRedis) (urls : List CStr) :
    Marking.Visits offsets s.bits ((visitAll workProcesses s urls).map Visit.mark)
      (Prog.after SharedRedis.exec s (visitCommands (visitAll workProcesses s urls))).bits := by
  induction urls generalizing s with
  | nil => exact .nil
  | cons url urls ih =>
      have hrest := ih ((visitLink workProcesses url).run SharedRedis.exec s).store
      obtain ⟨-, ⟨hnew, hbits, hpush⟩ | ⟨hall, hbits, hpush⟩⟩ := visitLink_run workProcesses url s
      · rw [hbits] at hrest
        rw [visitAll, visitCommands_cons, Prog.after_append, ← Prog.run_store, List.map_cons, Visit.mark,
          hpush]
        exact .take hnew hrest
      · rw [hbits] at hrest
        rw [visitAll, visitCommands_cons, Prog.after_append, ← Prog.run_store, List.map_cons, Visit.mark,
          hpush]
        exact .skip hall hrest

/-- The URLs appended are those of the links taken. -/
theorem appendedUrls_visits {visits : List Visit} (h : ∀ v ∈ visits, v.Proper workProcesses) :
    appendedUrls (visitCommands visits) = Marking.taken (visits.map Visit.mark) := by
  induction visits with
  | nil => rfl
  | cons v visits ih =>
      have hrest := ih fun w hw => h w (List.mem_cons_of_mem _ hw)
      rw [visitCommands_cons, appendedUrls, pushes_append, List.map_append, List.map_cons, Visit.mark]
      rcases h v List.mem_cons_self with hpush | ⟨hpush, -⟩
      · rw [hpush]
        exact congrArg (v.url :: ·) hrest
      · rw [hpush]
        exact hrest

/-- What was appended, was appended to the list of its URL. -/
theorem pushes_visits {visits : List Visit} (h : ∀ v ∈ visits, v.Proper workProcesses) :
    ∀ p ∈ pushes (visitCommands visits), p.1 = listOf workProcesses p.2 := by
  induction visits with
  | nil => exact fun p hp => by cases hp
  | cons v visits ih =>
      intro p hp
      rw [visitCommands_cons, pushes_append] at hp
      rcases List.mem_append.mp hp with hp | hp
      · rcases h v List.mem_cons_self with hpush | ⟨hpush, -⟩
        · rw [hpush] at hp
          rw [List.mem_singleton.mp hp]
        · rw [hpush] at hp
          cases hp
      · exact ih (fun w hw => h w (List.mem_cons_of_mem _ hw)) p hp

end

/-! ## The search of a tree -/

section

variable (gumboGetAttribute : List GumboAttribute → CStr → Option GumboAttribute)
  (workProcesses : UInt32)

/-- The substrings, one of which occurs in a link that leads on in the forum. -/
def forumParts : List CStr :=
  [lit "http://bbs.dgtle.com/thread-", lit "http://bbs.dgtle.com/forum.php?mod=forumdisplay&fid=2&page="]

/-- What is harvested from an element: the value of the `href` of an `A`, where one of the substrings
occurs in it. -/
def harvestOf (tag : GumboTag) (attributes : List GumboAttribute) : Option CStr :=
  if tag = .a then
    ((gumboGetAttribute attributes (lit "href")).map GumboAttribute.value).filter fun url =>
      forumParts.any fun part => decide (part <:+: url)
  else none

mutual

/-- The links of a tree that are to be followed, a node before its children. -/
def linksOf : GumboNode → List CStr
  | .text _ => []
  | .other => []
  | .element tag attributes children =>
      (harvestOf gumboGetAttribute tag attributes).toList ++ linksOfAll children

/-- The links of trees, one after another. -/
def linksOfAll : List GumboNode → List CStr
  | [] => []
  | node :: nodes => linksOf node ++ linksOfAll nodes

end

/-- `search_for_links` on the root of one page after another. -/
def searchPages : List GumboNode → Prog Command Reply (Option Unit)
  | [] => return some ()
  | page :: pages => do
      let r ← searchForLinks gumboGetAttribute workProcesses page
      match r with
      | none => return none
      | some _ => searchPages pages

/-- The program visits the links and returns. -/
def RunsVisits (p : Prog Command Reply (Option Unit)) (urls : List CStr) : Prop :=
  ∀ s, (p.run SharedRedis.exec s).result = some () ∧
    (p.run SharedRedis.exec s).commands = visitCommands (visitAll workProcesses s urls)

variable {gumboGetAttribute workProcesses}

/-- `strstr` finds a substring wherever it occurs. -/
theorem strstr_iff (s sub : CStr) : strstr s sub = true ↔ sub <:+: s := by
  rw [strstr, List.any_eq_true, List.infix_iff_prefix_suffix]
  refine exists_congr fun t => ?_
  rw [List.mem_tails, List.isPrefixOf_iff_prefix, and_comm]

/-- `search_for_links` goes by the same selection. -/
theorem linkOf_eq (tag : GumboTag) (attributes : List GumboAttribute) :
    linkOf gumboGetAttribute tag attributes = harvestOf gumboGetAttribute tag attributes := by
  have hforum : ∀ url, forumLink url = forumParts.any fun part => decide (part <:+: url) := by
    intro url
    rw [Bool.eq_iff_iff, forumLink, Bool.or_eq_true, strstr_iff, strstr_iff]
    simp [forumParts]
  rw [linkOf, harvestOf]
  cases gumboGetAttribute attributes (lit "href") with
  | none => rfl
  | some href => simp [Option.filter, hforum]

/-- The links up to one that overruns the array of 1024 bytes. -/
def fitting (urls : List CStr) : List CStr := urls.takeWhile fun url => url.length < 1024

theorem fitting_cons (url : CStr) (urls : List CStr) :
    fitting (url :: urls) = if url.length < 1024 then url :: fitting urls else [] := by
  simp [fitting, List.takeWhile_cons]

theorem fitting_append (urls urls' : List CStr) :
    fitting (urls ++ urls') = if fitting urls = urls then urls ++ fitting urls' else fitting urls := by
  have hiff : (fitting urls).length = urls.length ↔ fitting urls = urls :=
    ⟨(List.takeWhile_prefix _).eq_of_length, congrArg List.length⟩
  simp only [← hiff]
  exact List.takeWhile_append

theorem fitting_eq_self_iff (urls : List CStr) :
    fitting urls = urls ↔ ∀ url ∈ urls, url.length < 1024 := by
  simp [fitting, List.takeWhile_eq_self_iff]

/-- The program visits the links up to one that overruns the array, and returns if there is none. -/
def RunsFitting (workProcesses : UInt32) (p : Prog Command Reply (Option Unit)) (urls : List CStr) :
    Prop :=
  ∀ s, (p.run SharedRedis.exec s).result = (if fitting urls = urls then some () else none) ∧
    (p.run SharedRedis.exec s).commands = visitCommands (visitAll workProcesses s (fitting urls))

theorem RunsFitting.done : RunsFitting workProcesses (.done (some ())) [] := fun _ => ⟨rfl, rfl⟩

/-- Visits in sequence. -/
theorem RunsFitting.bind {p q : Prog Command Reply (Option Unit)} {urls urls' : List CStr}
    {f : Option Unit → Prog Command Reply (Option Unit)} (hp : RunsFitting workProcesses p urls)
    (hq : RunsFitting workProcesses q urls') (hsome : f (some ()) = q) (hnone : f none = .done none) :
    RunsFitting workProcesses (p >>= f) (urls ++ urls') := by
  intro s
  obtain ⟨hresult, hcommands⟩ := hp s
  rw [Prog.run_bind, hresult, fitting_append]
  by_cases hfit : fitting urls = urls
  · obtain ⟨hresult', hcommands'⟩ := hq (p.run SharedRedis.exec s).store
    simp only [if_pos hfit, hsome, List.append_right_inj]
    refine ⟨hresult', ?_⟩
    rw [hfit] at hcommands
    rw [hcommands, hcommands', Prog.run_store, hcommands, visitAll_append, visitCommands_append]
  · -- the array is overrun, and nothing comes after it
    have hne : fitting urls ≠ urls ++ urls' := by
      intro heq
      have hprefix : urls ++ urls' <+: urls := heq ▸ List.takeWhile_prefix _
      have hnil : urls' = [] := by
        have hle := hprefix.length_le
        rw [List.length_append] at hle
        exact List.eq_nil_of_length_eq_zero (by omega)
      rw [hnil, List.append_nil] at heq
      exact hfit heq
    simp only [if_neg hfit, if_neg hne, hnone]
    exact ⟨rfl, by rw [hcommands]; exact List.append_nil _⟩

/-- A visit, and what comes after it. -/
theorem RunsFitting.visit {url : CStr} {urls : List CStr} {q : Prog Command Reply (Option Unit)}
    (hlen : url.length < 1024) (hq : RunsFitting workProcesses q urls) :
    RunsFitting workProcesses
      (visitLink workProcesses url >>= fun rc => if rc < 0 then return some () else q) (url :: urls) := by
  intro s
  obtain ⟨hresult', hcommands'⟩ := hq ((visitLink workProcesses url).run SharedRedis.exec s).store
  rw [Prog.run_bind, (visitLink_run workProcesses url s).1, if_neg (by decide), fitting_cons, if_pos hlen]
  simp only [List.cons.injEq, true_and]
  exact ⟨hresult', congrArg (_ ++ ·) hcommands'⟩

/-- Without a visit. -/
theorem RunsFitting.overrun {url : CStr} (hlen : ¬ url.length < 1024) (urls : List CStr) :
    RunsFitting workProcesses (.done none) (url :: urls) := by
  intro s
  rw [fitting_cons, if_neg hlen, if_neg (List.cons_ne_nil _ _).symm]
  exact ⟨rfl, rfl⟩

mutual

theorem searchForLinks_run (node : GumboNode) :
    RunsFitting workProcesses (searchForLinks gumboGetAttribute workProcesses node)
      (linksOf gumboGetAttribute node) := by
  cases node with
  | text _ => exact .done
  | other => exact .done
  | element tag attributes children =>
      have hchildren := searchChildren_run children
      rw [linksOf, searchForLinks, searchWith, linkOf_eq]
      cases harvestOf gumboGetAttribute tag attributes with
      | none => exact hchildren
      | some href =>
          by_cases hlen : href.length < 1024
          · simp only [if_pos hlen]
            exact hchildren.visit hlen
          · simp only [if_neg hlen]
            exact .overrun hlen _

theorem searchChildren_run (nodes : List GumboNode) :
    RunsFitting workProcesses (searchChildren gumboGetAttribute workProcesses nodes)
      (linksOfAll gumboGetAttribute nodes) := by
  cases nodes with
  | nil => exact .done
  | cons node nodes =>
      rw [linksOfAll, searchChildren, searchChildrenWith]
      exact (searchForLinks_run node).bind (searchChildren_run nodes) rfl rfl

end

theorem searchPages_fitting (pages : List GumboNode) :
    RunsFitting workProcesses (searchPages gumboGetAttribute workProcesses pages)
      (linksOfAll gumboGetAttribute pages) := by
  induction pages with
  | nil => exact .done
  | cons page pages ih =>
      rw [linksOfAll, searchPages]
      exact (searchForLinks_run page).bind ih rfl rfl

theorem searchPages_run (pages : List GumboNode)
    (h : ∀ href ∈ linksOfAll gumboGetAttribute pages, href.length < 1024) :
    RunsVisits workProcesses (searchPages gumboGetAttribute workProcesses pages)
      (linksOfAll gumboGetAttribute pages) := by
  intro s
  have hrun := @searchPages_fitting gumboGetAttribute workProcesses pages s
  rw [(fitting_eq_self_iff _).mpr h, if_pos rfl] at hrun
  exact hrun

end

/-! ## The harvest -/

/-- A number below `2 ^ 31` printed with `%d`. -/
theorem toInt32_toInt {n : UInt32} (h : n.toNat < 2 ^ 31) : n.toInt32.toInt = n.toNat := by
  have hsigned : n.toInt32.toInt = n.toBitVec.toInt := rfl
  rw [hsigned, BitVec.toInt_eq_toNat_of_lt (by rw [UInt32.toNat_toBitVec]; omega), UInt32.toNat_toBitVec]

/-- The list of a URL, where there is at least one worker. -/
theorem listOf_eq {workProcesses : UInt32} (h : 0 < workProcesses.toInt32.toInt) (url : CStr) :
    listOf workProcesses url = lit "url_list_" ++
      lit (toString ((murmurHash3X86_32 url hashSeed).toNat % workProcesses.toNat)) := by
  have hpos : 0 < workProcesses.toNat := by
    by_contra hzero
    have hz : workProcesses = 0 := UInt32.toNat_inj.mp (by simpa using hzero)
    subst hz
    exact absurd h (by decide)
  have hsmall : workProcesses.toNat < 2 ^ 31 := by
    have hsigned : workProcesses.toInt32.toInt = workProcesses.toBitVec.toInt := rfl
    rw [hsigned, BitVec.toInt_eq_toNat_cond, UInt32.toNat_toBitVec] at h
    split_ifs at h
    · omega
    · have := workProcesses.toNat_lt
      omega
  have hmod : (murmurHash3X86_32 url hashSeed % workProcesses).toNat =
      (murmurHash3X86_32 url hashSeed).toNat % workProcesses.toNat := UInt32.toNat_mod _ _
  have hlt := Nat.mod_lt (murmurHash3X86_32 url hashSeed).toNat hpos
  rw [listOf, urlListKey, toInt32_toInt (by omega), hmod]
  rfl

/-- What a worker has appended for the links it has found. -/
structure Harvested (workProcesses : UInt32) (s : SharedRedis) (links : List CStr)
    (commands : List Command) : Prop where
  /-- The links were visited one after another. -/
  visits : commands = visitCommands (visitAll workProcesses s links)
  sublist : (appendedUrls commands).Sublist links
  nodup : (appendedUrls commands).Nodup
  list : ∀ p ∈ pushes commands, p.1 = lit "url_list_" ++
    lit (toString ((murmurHash3X86_32 p.2 hashSeed).toNat % workProcesses.toNat))
  /-- A link that was not appended had all bits set when it was visited, by URLs appended before. -/
  omitted : ∀ before v after, visitAll workProcesses s links = before ++ v :: after →
    pushes v.commands = [] → ∀ off ∈ offsets v.url,
      off ∈ v.seen ∧ ∃ url ∈ appendedUrls (visitCommands before), off ∈ offsets url

section

variable {workProcesses : UInt32}

/-- Visits over a filter that is clear. -/
theorem visitAll_harvested {s : SharedRedis} (hwork : 0 < workProcesses.toInt32.toInt)
    (hclear : s.bits = ∅) (links : List CStr) :
    Harvested workProcesses s links (visitCommands (visitAll workProcesses s links)) := by
  have hproper : ∀ v ∈ visitAll workProcesses s links, v.Proper workProcesses := visitAll_proper
  have hvisits := @visitAll_visits workProcesses s links
  have happended := appendedUrls_visits hproper
  refine ⟨rfl, ?_, ?_, fun p hp => ?_, fun before v after hsplit hquiet off hoff => ?_⟩
  · rw [happended]
    have hsub := Marking.taken_sublist ((visitAll workProcesses s links).map Visit.mark)
    rw [List.map_map] at hsub
    rwa [show Prod.fst ∘ Visit.mark = Visit.url from rfl, visitAll_urls] at hsub
  · rw [happended]
    exact hvisits.nodup
  · rw [pushes_visits hproper p hp, listOf_eq hwork]
  · rw [hsplit] at hproper hvisits
    rw [List.map_append, List.map_cons, Visit.mark, hquiet, hclear] at hvisits
    have hbefore := appendedUrls_visits fun w hw => hproper w (List.mem_append_left _ hw)
    refine ⟨?_, ?_⟩
    · rcases hproper v (by simp) with hpush | ⟨-, hall⟩
      · rw [hquiet] at hpush
        cases hpush
      · exact hall off hoff
    · rw [hbefore]
      exact (hvisits.skipped off hoff).resolve_left (Set.notMem_empty off)

end

section

variable (gumboGetAttribute : List GumboAttribute → CStr → Option GumboAttribute)
  (workProcesses : UInt32)

/-- After `bloom_init` the search of page after page appends a subsequence of the links found in them, each
URL once and to the list of its hash, and leaves out only links whose bits it had all set before. -/
theorem searchPages_harvested (s₀ : SharedRedis) (pages : List GumboNode)
    (hlen : ∀ href ∈ linksOfAll gumboGetAttribute pages, href.length < 1024)
    (hwork : 0 < workProcesses.toInt32.toInt) :
    let s := (bloomInit.run SharedRedis.exec s₀).store
    let r := (searchPages gumboGetAttribute workProcesses pages).run SharedRedis.exec s
    r.result = some () ∧
      Harvested workProcesses s (linksOfAll gumboGetAttribute pages) r.commands := by
  intro s r
  obtain ⟨hresult, hcommands⟩ := @searchPages_run gumboGetAttribute workProcesses pages hlen s
  refine ⟨hresult, ?_⟩
  rw [hcommands]
  exact visitAll_harvested hwork (bloomInit_bits s₀) _

end

/-- Nobody else uses the redis. -/
def aloneRedis : SharedRedis := ⟨emptyRedis, fun _ => [], fun _ _ hc => absurd hc List.not_mem_nil⟩

theorem searchPages_harvested_twice :
    (∀ href ∈ linksOfAll attributeNamed [threadPage, threadPage], href.length < 1024) ∧
      Harvested 2 (bloomInit.run SharedRedis.exec aloneRedis).store
        (linksOfAll attributeNamed [threadPage, threadPage])
        ((searchPages attributeNamed 2 [threadPage, threadPage]).run SharedRedis.exec
          (bloomInit.run SharedRedis.exec aloneRedis).store).commands := by
  have hlen : ∀ href ∈ linksOfAll attributeNamed [threadPage, threadPage], href.length < 1024 := by
    decide +kernel
  exact ⟨hlen, (searchPages_harvested attributeNamed 2 aloneRedis [threadPage, threadPage] hlen
    (by decide)).2⟩

end Crawler.Html
