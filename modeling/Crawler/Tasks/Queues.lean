/-
# Crawler.Tasks.Queues — the URLs on their way from worker to worker

What the workers do with redis between `bloom_init` and their end: `work_process_cycle` asks for the
length of its list and pops a URL, `parse_html` searches a page, appends the links to the lists of the
workers their hashes select and records the page in `parse_done`. Any number of workers do so over one
redis, their commands interleaved in any way.
-/
import Crawler.Html.Author
import Crawler.Html.Harvest
import Crawler.Http.Client
import Crawler.Http.Url
import Crawler.Lib.Fifo
import Std.Data.String.ToInt

namespace Crawler.Tasks

open Crawler.Lib Crawler.Bloom Crawler.Html Crawler.Http

/-! ## `redis_func.c` and redis, with LLEN and LPOP -/

/-- The commands. -/
inductive TaskCommand where
  | base (c : Command)
  | llen (key : CStr)
  | lpop (key : CStr)
  deriving DecidableEq, Repr

/-- The replies: those of the commands above, the length of a list, and the string popped. -/
inductive TaskReply where
  | base (r : Reply)
  | length (n : Nat)
  | string (s : CStr)
  deriving DecidableEq, Repr

/-- A reply to one of the commands above. -/
def TaskReply.toReply : TaskReply → Reply
  | .base r => r
  | .length n => .integer n.toUInt32
  | .string _ => .other

/-- `redis_list_length(key)`. The length is an `int`. -/
def redisListLength (key : CStr) : Prog TaskCommand TaskReply Int32 := do
  match ← Prog.send (.llen key) with
  | .length n => return n.toUInt32.toInt32
  | _ => return -1

/-- `redis_list_lpop(key)`; `none` is NULL. -/
def redisListLpop (key : CStr) : Prog TaskCommand TaskReply (Option CStr) := do
  match ← Prog.send (.lpop key) with
  | .string reply => return Http.redisListLpop reply
  | _ => return none

/-- A command executed. There is no list without an element. -/
def execTask (s : Redis) : TaskCommand → Redis × TaskReply
  | .base c => ((s.exec c).1, .base (s.exec c).2)
  | .llen key => (s, .length (s.lists key).length)
  | .lpop key =>
      match s.lists key with
      | [] => (s, .base .other)
      | url :: urls => ({ s with lists := Function.update s.lists key urls }, .string url)

/-! ## `work_process_cycle` and `parse_html` -/

/-- The part of a round of `work_process_cycle(n)` before `create_http_url`, `gate` being whether more
slots are free than `connection_threshold`. -/
def popTask (n : UInt32) (gate : Bool) : Prog TaskCommand TaskReply (Option CStr) := do
  if gate then
    let length ← redisListLength (urlListKey n)
    if 0 < length then redisListLpop (urlListKey n)
    else return none
  else return none

/-- The key `parse_done`. -/
def parseDone : CStr := lit "parse_done"

section

-- `gumbo_get_attribute`, and the number of workers
variable (gumboGetAttribute : List GumboAttribute → CStr → Option GumboAttribute)
  (workProcesses : UInt32)

/-- The two searches of `parse_html`, of which the path of the page selects one or none. -/
def searchPage (path : CStr) (root : GumboNode) : Prog Command Reply (Option Unit) :=
  if strstr path (lit "forum.php?mod=forumdisplay&fid=2") then
    searchForLinks gumboGetAttribute workProcesses root
  else if strstr path (lit "thread-") then
    return (searchForAuthor gumboGetAttribute [] root {}).map fun _ => ()
  else return some ()

/-- `parse_html(client)` up to `http_client_retrieve`, where `output` is the root of what `gumbo_parse`
gives, if it gives something; `none` where an array is overrun. -/
def parseHtml (client : HttpClient) (output : Option GumboNode) : Prog Command Reply (Option Int) :=
  if client.status ≠ .htmlDone then return some (-1)
  else
    match output with
    | none => return some (-1)
    | some root => do
        let searched ← searchPage gumboGetAttribute workProcesses client.url.path root
        match searched, doneUrl client.url with
        | some (), some httpurl => do
            let _ ← redisListRpush parseDone httpurl
            return some 0
        | _, _ => return none

/-! ## The workers -/

/-- What a worker does that reaches redis. -/
inductive Task where
  | round (gate : Bool)
  | page (client : HttpClient) (output : Option GumboNode)

/-- What comes of it: a URL for `create_http_url` or NULL, what `parse_html` returns, or the end of the
process. -/
inductive TaskResult where
  | url (url : Option CStr)
  | rc (rc : Int)
  | crashed
  deriving DecidableEq, Repr

/-- A task of worker `n`. -/
def runTask (n : UInt32) : Task → Prog TaskCommand TaskReply TaskResult
  | .round gate => do
      let url ← popTask n gate
      return .url url
  | .page client output => do
      let rc ← (parseHtml gumboGetAttribute workProcesses client output).lift .base TaskReply.toReply
      return rc.elim .crashed .rc

/-- The tasks of all workers, each with the number of its worker. -/
def taskProcs : Procs (UInt32 × Task) TaskCommand TaskReply TaskResult Redis where
  body x := runTask gumboGetAttribute workProcesses x.1 x.2
  rest _ r calls := if r = .crashed then [] else calls
  exec := execTask

/-- The workers, each with its tasks. -/
def crawlers (tasks : UInt32 → List Task) :
    System (Shared UInt32 (UInt32 × Task) TaskCommand TaskReply TaskResult Redis) UInt32 :=
  workers (taskProcs gumboGetAttribute workProcesses) fun n => (tasks n).map (Prod.mk n)

end

/-- The log of the workers. -/
abbrev TaskLog := List (UInt32 × Entry (UInt32 × Task) TaskCommand TaskReply TaskResult)

/-! ## The lists -/

/-- A list of redis as a queue. -/
def listFifo (key : CStr) : Fifo Redis TaskCommand TaskReply CStr where
  items s := s.lists key
  op
    | .base (.rpush key' url) => if key' = key then .put url else .other
    | .lpop key' => if key' = key then .take else .other
    | _ => .other
  taken
    | .string url => some url
    | _ => none

theorem exec_lists {c : Command} (h : NoPush c) (s : Redis) : (s.exec c).1.lists = s.lists := by
  cases c with
  | setbit key off value => rfl
  | getbit key off => rfl
  | bitop op dest keys =>
      rw [Redis.exec]
      split_ifs <;> rfl
  | rpush key value => exact absurd rfl (h key value)

theorem listFifo_put_iff {key : CStr} {c : TaskCommand} {url : CStr} :
    (listFifo key).op c = .put url ↔ c = .base (.rpush key url) := by
  constructor
  · intro h
    simp only [listFifo] at h
    split at h
    · split_ifs at h with hkey
      cases h
      rw [hkey]
    · split_ifs at h
    · cases h
  · rintro rfl
    exact if_pos rfl

theorem listFifo_take_iff {key : CStr} {c : TaskCommand} :
    (listFifo key).op c = .take ↔ c = .lpop key := by
  constructor
  · intro h
    simp only [listFifo] at h
    split at h
    · split_ifs at h
    · split_ifs at h with hkey
      rw [hkey]
    · cases h
  · rintro rfl
    exact if_pos rfl

theorem listFifo_lawful (key : CStr) : (listFifo key).Lawful execTask where
  put := by
    intro s c url hop
    obtain rfl := listFifo_put_iff.mp hop
    exact Function.update_self _ _ _
  take := by
    intro s c hop
    obtain rfl := listFifo_take_iff.mp hop
    cases hlist : s.lists key <;> simp [listFifo, execTask, hlist]
  empty := by
    intro s c hop hne
    obtain rfl := listFifo_take_iff.mp hop
    obtain ⟨url, urls, hlist⟩ := List.exists_cons_of_ne_nil hne
    have hlist' : s.lists key = url :: urls := hlist
    simp [listFifo, execTask, hlist']
  other := by
    intro s c hop
    rcases c with c | key' | key'
    · by_cases hpush : ∃ url, c = .rpush key url
      · obtain ⟨url, rfl⟩ := hpush
        rw [listFifo_put_iff.mpr rfl] at hop
        cases hop
      · -- no append, or one to another list
        cases c with
        | rpush key' url =>
            have hkey : key ≠ key' := by
              rintro rfl
              exact hpush ⟨url, rfl⟩
            exact Function.update_of_ne hkey _ _
        | setbit key' off value => rfl
        | getbit key' off => rfl
        | bitop op dest keys => exact congrFun (exec_lists (c := .bitop op dest keys) nofun s) key
    · rfl
    · have hkey : key ≠ key' := by
        rintro rfl
        rw [listFifo_take_iff.mpr rfl] at hop
        cases hop
      simp only [listFifo, execTask]
      cases s.lists key' with
      | nil => rfl
      | cons url urls => exact Function.update_of_ne hkey _ _

/-! ## The keys -/

/-- Numbers are read back from their bytes. -/
theorem lit_injOn {s t : String} (hs : ∀ c ∈ s.toList, c.isDigit ∨ c = '-')
    (ht : ∀ c ∈ t.toList, c.isDigit ∨ c = '-') (h : lit s = lit t) : s = t := by
  have hbyte : ∀ c : Char, c.isDigit ∨ c = '-' → Char.ofNat c.toUInt8.toNat = c := by
    rintro c (hc | rfl)
    · simp only [Char.isDigit, Bool.and_eq_true, decide_eq_true_eq] at hc
      have hle : c.toNat ≤ 57 := UInt32.le_iff_toNat_le.mp hc.2
      have hsmall : c.toUInt8.toNat = c.toNat := by
        simp only [Char.toUInt8, UInt32.toNat_toUInt8]
        exact Nat.mod_eq_of_lt (by show c.toNat < 256; omega)
      rw [hsmall, Char.ofNat_toNat]
    · decide
  have hback : ∀ u : String, (∀ c ∈ u.toList, c.isDigit ∨ c = '-') →
      (lit u).map (fun b => Char.ofNat b.toNat) = u.toList := by
    intro u hu
    rw [lit, List.map_map]
    exact (List.map_congr_left fun c hc => hbyte c (hu c hc)).trans (List.map_id _)
  have hlists := hback s hs
  rw [h, hback t ht] at hlists
  exact (String.toList_inj.mp hlists).symm

/-- The characters of a number printed with `%d`. -/
theorem repr_chars (i : Int) : ∀ c ∈ (toString i).toList, c.isDigit ∨ c = '-' := by
  intro c hc
  have hrepr : toString i = Int.repr i := rfl
  rw [hrepr, Int.repr_eq_if] at hc
  split_ifs at hc
  · rw [Nat.toList_repr] at hc
    exact .inl (Nat.isDigit_of_mem_toDigits (by decide) (by decide) hc)
  · rw [String.toList_append, List.mem_append, Nat.toList_repr] at hc
    rcases hc with hc | hc
    · exact .inr (by simpa using hc)
    · exact .inl (Nat.isDigit_of_mem_toDigits (by decide) (by decide) hc)

/-- Every worker has a list of its own. -/
theorem urlListKey_inj {m n : UInt32} (h : urlListKey m = urlListKey n) : m = n := by
  have hprinted := lit_injOn (repr_chars _) (repr_chars _) (List.append_cancel_left h)
  have hint : m.toInt32.toInt = n.toInt32.toInt := Int.repr_injective hprinted
  exact congrArg Int32.toUInt32 (Int32.toInt_inj.mp hint)

theorem urlListKey_ne_parseDone (n : UInt32) : urlListKey n ≠ parseDone := by
  intro h
  have hfirst : (urlListKey n).head? = (lit "url_list_").head? := rfl
  rw [h] at hfirst
  exact absurd hfirst (by decide)

/-! ## What a task sends -/

section

variable (gumboGetAttribute : List GumboAttribute → CStr → Option GumboAttribute)
  (workProcesses : UInt32)

/-- Worker `n` pops from its own list only, and appends URLs to the lists of the workers their hashes
select, or to `parse_done`. -/
def Proper (n : UInt32) : TaskCommand → Prop
  | .base (.rpush key url) => key = listOf workProcesses url ∨ key = parseDone
  | .lpop key => key = urlListKey n
  | _ => True

theorem searchPage_sends (path : CStr) (root : GumboNode) :
    (searchPage gumboGetAttribute workProcesses path root).Sends
      fun c => ∀ key url, c = .rpush key url → key = listOf workProcesses url := by
  rw [searchPage]
  split_ifs
  · exact searchForLinks_sends gumboGetAttribute workProcesses root
  · exact .done _
  · exact .done _

theorem parseHtml_sends (client : HttpClient) (output : Option GumboNode) :
    (parseHtml gumboGetAttribute workProcesses client output).Sends
      fun c => ∀ key url, c = .rpush key url → key = listOf workProcesses url ∨ key = parseDone := by
  unfold parseHtml
  split_ifs
  · exact .done _
  · cases output with
    | none => exact .done _
    | some root =>
        refine ((searchPage_sends gumboGetAttribute workProcesses client.url.path root).mono
          fun c hc key url h => .inl (hc key url h)).bind fun searched => ?_
        split
        · refine ((redisListRpush_sends _ parseDone).mono ?_).bind fun _ => .done _
          rintro c rfl key url ⟨⟩
          exact .inr rfl
        · exact .done _

theorem popTask_sends (n : UInt32) (gate : Bool) :
    (popTask n gate).Sends (Proper workProcesses n) := by
  rw [popTask]
  split_ifs
  · refine .bind (.ask trivial fun r => ?_) fun length => ?_
    · cases r <;> exact .done _
    · split_ifs
      · refine .ask rfl fun r => ?_
        cases r <;> exact .done _
      · exact .done _
  · exact .done _

theorem runTask_sends (n : UInt32) (task : Task) :
    (runTask gumboGetAttribute workProcesses n task).Sends (Proper workProcesses n) := by
  cases task with
  | round gate => exact (popTask_sends workProcesses n gate).bind fun _ => .done _
  | page client output =>
      refine (Prog.Sends.lift (parseHtml_sends gumboGetAttribute workProcesses client output) ?_).bind
        fun _ => .done _
      intro c hc
      cases c with
      | rpush key url => exact hc key url rfl
      | _ => trivial

/-- What is popped after a reply to LLEN. -/
theorem poppedAfter_length {n : UInt32} {r r' : TaskReply} {key : CStr}
    {m : List (TaskCommand × TaskReply)} {p : Prog TaskCommand TaskReply TaskResult}
    (h : (((match r with
        | .length k => pure k.toUInt32.toInt32
        | _ => pure (-1) : Prog TaskCommand TaskReply Int32) >>= fun length =>
          if 0 < length then redisListLpop (urlListKey n) else pure none) >>= fun url =>
            pure (TaskResult.url url)).Path (m ++ [(.lpop key, r')]) p) :
    ∃ k : Nat, r = .length k ∧ m = [] ∧ 0 < k.toUInt32.toInt32 := by
  have hnone : ∀ {a : TaskResult}, ¬ (Prog.done a).Path (m ++ [(.lpop key, r')]) p := by
    intro a hdone
    exact absurd (Prog.path_done_iff.mp hdone).1 (by simp)
  cases r with
  | base r => exact absurd h hnone
  | string url => exact absurd h hnone
  | length k =>
      refine ⟨k, rfl, ?_⟩
      by_cases hpos : 0 < k.toUInt32.toInt32
      · refine ⟨?_, hpos⟩
        have hpop : ((if 0 < k.toUInt32.toInt32 then redisListLpop (urlListKey n) else pure none) >>=
            fun url => pure (TaskResult.url url)).Path (m ++ [(.lpop key, r')]) p := h
        rw [if_pos hpos] at hpop
        rcases Prog.path_ask_iff.mp hpop with ⟨hnil, -⟩ | ⟨r₂, t, hsplit, hrest⟩
        · exact absurd hnil (by simp)
        · have hend : t = [] := by
            cases r₂ <;> exact (Prog.path_done_iff.mp hrest).1
          rw [hend] at hsplit
          exact (List.append_eq_singleton_iff.mp hsplit).elim And.left fun h => by simp at h
      · have hpop : ((if 0 < k.toUInt32.toInt32 then redisListLpop (urlListKey n) else pure none) >>=
            fun url => pure (TaskResult.url url)).Path (m ++ [(.lpop key, r')]) p := h
        rw [if_neg hpos] at hpop
        exact absurd hpop hnone

/-- A LPOP comes right after a LLEN that found the list not empty. -/
theorem runTask_pops {n : UInt32} {task : Task} {m : List (TaskCommand × TaskReply)} {key : CStr}
    {r : TaskReply} {p : Prog TaskCommand TaskReply TaskResult}
    (h : (runTask gumboGetAttribute workProcesses n task).Path (m ++ [(.lpop key, r)]) p) :
    key = urlListKey n ∧ ∃ k : Nat, m = [(.llen (urlListKey n), .length k)] ∧ k ≠ 0 := by
  have hkey : key = urlListKey n :=
    runTask_sends gumboGetAttribute workProcesses n task _ p h (.lpop key, r) (by simp)
  refine ⟨hkey, ?_⟩
  cases task with
  | page client output =>
      -- `parse_html` pops nothing
      have hnone : (runTask gumboGetAttribute workProcesses n (.page client output)).Sends
          fun c => c ≠ .lpop key := by
        refine (Prog.Sends.lift (parseHtml_sends gumboGetAttribute workProcesses client output) ?_).bind
          fun _ => .done _
        exact fun c _ hc => by cases hc
      exact absurd rfl (hnone _ p h (.lpop key, r) (by simp))
  | round gate =>
      cases gate with
      | false =>
          obtain ⟨hnil, -⟩ := Prog.path_done_iff.mp h
          exact absurd hnil (by simp)
      | true =>
          rcases Prog.path_ask_iff.mp h with ⟨hnil, -⟩ | ⟨r₁, t, hsplit, hrest⟩
          · exact absurd hnil (by simp)
          · cases m with
            | nil => cases hsplit
            | cons x m =>
                obtain ⟨rfl, rfl⟩ := List.cons.inj hsplit
                obtain ⟨k, rfl, rfl, hpos⟩ := poppedAfter_length hrest
                exact ⟨k, rfl, fun hk => absurd hpos (by rw [hk]; decide)⟩

end

/-! ## Every run -/

section

variable {gumboGetAttribute : List GumboAttribute → CStr → Option GumboAttribute}
  {workProcesses : UInt32} {tasks : UInt32 → List Task}
  {s u : Shared UInt32 (UInt32 × Task) TaskCommand TaskReply TaskResult Redis} {as : List UInt32}

/-- The URLs appended to the lists of the workers, oldest first. -/
def pushedUrls (log : TaskLog) : List CStr :=
  log.filterMap fun e =>
    match e.2 with
    | .cmd (.base (.rpush key url)) _ => if key = parseDone then none else some url
    | _ => none

/-- The URLs popped by worker `n`, oldest first. -/
def poppedUrls (n : UInt32) (log : TaskLog) : List CStr :=
  log.filterMap fun e =>
    match e with
    | (w, .cmd (.lpop _) (.string url)) => if w = n then some url else none
    | _ => none

theorem exists_lpop_of_mem {n : UInt32} {log : TaskLog} {url : CStr} (h : url ∈ poppedUrls n log) :
    ∃ key, (n, .cmd (.lpop key) (.string url)) ∈ log := by
  obtain ⟨e, he, hurl⟩ := List.mem_filterMap.mp h
  split at hurl
  · split_ifs at hurl with hw
    cases hurl
    cases hw
    exact ⟨_, he⟩
  · cases hurl

/-- A worker's tasks carry its number. -/
theorem crawlers_before (hinit : (crawlers gumboGetAttribute workProcesses tasks).init s)
    (hr : Run (crawlers gumboGetAttribute workProcesses tasks) s as u) {w : UInt32} {c : TaskCommand}
    {r : TaskReply} {t₁ t₂ : List (Entry (UInt32 × Task) TaskCommand TaskReply TaskResult)}
    (hsplit : own w u.log = t₁ ++ .cmd c r :: t₂) :
    ∃ task t₀ m p, t₁ = t₀ ++ .call (w, task) :: cmds m ∧
      (runTask gumboGetAttribute workProcesses w task).Path (m ++ [(c, r)]) p := by
  have hfollows := reachable_follows hinit hr w
  obtain ⟨⟨v, task⟩, t₀, m, p, rfl, hpath⟩ := hfollows.before_cmd hsplit
  have hcall : (v, task) ∈ (tasks w).map (Prod.mk w) := by
    refine (hfollows.calls_mem ?_).1 _ (by rw [hsplit]; simp)
    intro x a calls
    simp only [taskProcs]
    split_ifs
    · exact List.nil_subset _
    · exact List.Subset.refl _
  obtain ⟨_, -, heq⟩ := List.mem_map.mp hcall
  cases heq
  exact ⟨task, t₀, m, p, rfl, hpath⟩

theorem crawlers_proper (hinit : (crawlers gumboGetAttribute workProcesses tasks).init s)
    (hr : Run (crawlers gumboGetAttribute workProcesses tasks) s as u) {w : UInt32} {c : TaskCommand}
    {r : TaskReply} (hm : (w, .cmd c r) ∈ u.log) : Proper workProcesses w c := by
  obtain ⟨t₁, t₂, hsplit⟩ := List.append_of_mem (mem_own_iff.mpr hm)
  obtain ⟨task, t₀, m, p, -, hpath⟩ := crawlers_before hinit hr hsplit
  exact runTask_sends gumboGetAttribute workProcesses w task _ p hpath (c, r) (by simp)

theorem puts_listFifo {log : TaskLog} (hlog : ∀ w c r, (w, .cmd c r) ∈ log → Proper workProcesses w c)
    (n : UInt32) : (listFifo (urlListKey n)).puts log =
      (pushedUrls log).filter fun url => murmurHash3X86_32 url hashSeed % workProcesses = n := by
  rw [pushedUrls, List.filter_filterMap, Fifo.puts]
  refine List.filterMap_congr fun e he => ?_
  obtain ⟨w, _ | ⟨c, r⟩ | _⟩ := e
  · rfl
  · rcases c with (_ | _ | _ | ⟨key, url⟩) | _ | key
    · rfl
    · rfl
    · rfl
    · simp only [Fifo.putBy, listFifo]
      rcases hlog w _ r he with rfl | rfl
      · -- a link, in the list its hash selects
        rw [listOf, if_neg (urlListKey_ne_parseDone _)]
        by_cases hsel : murmurHash3X86_32 url hashSeed % workProcesses = n
        · rw [if_pos (congrArg urlListKey hsel), Option.filter_some, if_pos (decide_eq_true hsel)]
        · rw [if_neg fun h => hsel (urlListKey_inj h), Option.filter_some,
            if_neg fun h => hsel (of_decide_eq_true h)]
      · rw [if_neg (urlListKey_ne_parseDone n).symm, if_pos rfl]
        rfl
    · rfl
    · simp only [Fifo.putBy, listFifo]
      split_ifs <;> rfl
  · rfl

theorem takes_listFifo {log : TaskLog} (hlog : ∀ w c r, (w, .cmd c r) ∈ log → Proper workProcesses w c)
    (n : UInt32) : (listFifo (urlListKey n)).takes log = poppedUrls n log := by
  refine List.filterMap_congr fun e he => ?_
  obtain ⟨w, _ | ⟨c, r⟩ | _⟩ := e
  · rfl
  · rcases c with (_ | _ | _ | ⟨key, url⟩) | _ | key
    · rfl
    · rfl
    · rfl
    · simp only [Fifo.takenBy, listFifo]
      split_ifs <;> rfl
    · rfl
    · obtain rfl : key = urlListKey w := hlog w _ r he
      simp only [Fifo.takenBy, listFifo]
      by_cases hw : w = n
      · subst hw
        rw [if_pos rfl]
        cases r <;> simp
      · rw [if_neg fun h => hw (urlListKey_inj h)]
        cases r <;> simp [hw]
  · rfl

/-- In every reachable state, what worker `n` has popped and what its list holds are, in this order, what
the list held at the start and the URLs of hash `n` that all the workers have appended since: no URL is
lost, popped twice, popped by another worker or out of order. -/
theorem reachable_delivered (hinit : (crawlers gumboGetAttribute workProcesses tasks).init s)
    (hr : Run (crawlers gumboGetAttribute workProcesses tasks) s as u) (n : UInt32) :
    poppedUrls n u.log ++ u.store.lists (urlListKey n) =
      s.store.lists (urlListKey n) ++
        (pushedUrls u.log).filter fun url => murmurHash3X86_32 url hashSeed % workProcesses = n := by
  obtain ⟨hstore, hrecorded⟩ := reachable_recorded hinit hr
  have hproper : ∀ w c r, (w, .cmd c r) ∈ u.log → Proper workProcesses w c :=
    fun w c r hm => crawlers_proper hinit hr hm
  have hlaw : (listFifo (urlListKey n)).Lawful (taskProcs gumboGetAttribute workProcesses).exec :=
    listFifo_lawful (urlListKey n)
  have hconserved := hlaw.conserved hrecorded
  rw [puts_listFifo hproper, takes_listFifo hproper, ← hstore] at hconserved
  exact hconserved.symm

/-- A worker that has found its list not empty pops a URL, whatever the others have done since. -/
theorem reachable_popped (hinit : (crawlers gumboGetAttribute workProcesses tasks).init s)
    (hr : Run (crawlers gumboGetAttribute workProcesses tasks) s as u) {w : UInt32} {key : CStr}
    {r : TaskReply} (hm : (w, .cmd (.lpop key) r) ∈ u.log) : ∃ url, r = .string url := by
  obtain ⟨-, hrecorded⟩ := reachable_recorded hinit hr
  obtain ⟨t₁, t₂, hsplit⟩ := List.append_of_mem (mem_own_iff.mpr hm)
  obtain ⟨task, t₀, m, p, rfl, hpath⟩ := crawlers_before hinit hr hsplit
  obtain ⟨rfl, k, rfl, hk⟩ := runTask_pops gumboGetAttribute workProcesses hpath
  have hpair : own w u.log = (t₀ ++ [.call (w, task)]) ++ .cmd (.llen (urlListKey w)) (.length k) ::
      ([] ++ .cmd (.lpop (urlListKey w)) r :: t₂) := by
    rw [hsplit]
    simp [cmds]
  obtain ⟨log₁, log₂, hlog, -, hlater⟩ := own_eq_append_cons hpair
  obtain ⟨between, log₃, rfl, hquiet, -⟩ := own_eq_append_cons hlater
  have hlaw := listFifo_lawful (urlListKey w)
  -- LLEN has found the list not empty
  have hlength := hrecorded log₁ w _ _ _ hlog
  have hfound : (listFifo (urlListKey w)).items
      (storeAfter (taskProcs gumboGetAttribute workProcesses) s.store log₁) ≠ [] := by
    intro hnil
    have hzero : TaskReply.length k = .length 0 := 
      hlength.trans (congrArg (fun l : List CStr => TaskReply.length l.length) hnil)
    cases hzero
    exact hk rfl
  -- and nobody else pops from it
  have hnone : ∀ v c r', (v, .cmd c r') ∈ between → (listFifo (urlListKey w)).op c ≠ .take := by
    intro v c r' hin htake
    obtain rfl := listFifo_take_iff.mp htake
    have hmem : (v, .cmd (.lpop (urlListKey w)) r') ∈ u.log := by
      rw [hlog]
      simp [hin]
    obtain rfl := urlListKey_inj (crawlers_proper hinit hr hmem)
    rw [← mem_own_iff, hquiet] at hin
    cases hin
  have hlasts := hlaw.lasts (P := taskProcs gumboGetAttribute workProcesses) hnone hfound
  have hreply := hrecorded (log₁ ++ (w, .cmd (.llen (urlListKey w)) (.length k)) :: between) w
    (.lpop (urlListKey w)) r log₃ (by rw [hlog]; simp)
  have htaken := hlaw.empty _ _ (listFifo_take_iff.mpr rfl) hlasts
  rw [storeAfter_append] at hreply
  have hsome : ((listFifo (urlListKey w)).taken r).isSome := by
    rw [hreply]
    exact htaken
  cases r with
  | string url => exact ⟨url, rfl⟩
  | base r => cases hsome
  | length k => cases hsome

end

/-! ## One worker, a page and a round -/

/-- A page of the forum that has been received. -/
def forumClient : HttpClient where
  status := .htmlDone
  url := ⟨80, lit "http", lit "bbs.dgtle.com", lit "/forum.php?mod=forumdisplay&fid=2&page=1"⟩

/-- Worker 0 parses the page and then asks for a URL. -/
def pageThenRound (n : UInt32) : List Task :=
  if n = 0 then [.page forumClient (some threadPage), .round true] else []

/-- The workers over an empty redis. -/
def crawlStart : Shared UInt32 (UInt32 × Task) TaskCommand TaskReply TaskResult Redis where
  store := emptyRedis
  worker := fun n => .idle ((pageThenRound n).map (Prod.mk n))
  log := []

theorem crawlStart_init : (crawlers attributeNamed 1 pageThenRound).init crawlStart := ⟨rfl, rfl⟩

/-- The steps of worker 0 to its end. -/
def crawlSteps : List UInt32 := List.replicate 18 0

/-- Where they lead. -/
def crawlEnd : Shared UInt32 (UInt32 × Task) TaskCommand TaskReply TaskResult Redis :=
  ((crawlers attributeNamed 1 pageThenRound).play crawlStart crawlSteps).getD crawlStart

theorem crawlSteps_run : Run (crawlers attributeNamed 1 pageThenRound) crawlStart crawlSteps crawlEnd := by
  have hplay : ((crawlers attributeNamed 1 pageThenRound).play crawlStart crawlSteps).isSome := by
    decide +kernel
  obtain ⟨u, hu⟩ := Option.isSome_iff_exists.mp hplay
  rw [crawlEnd, hu]
  exact run_of_play (fun _ _ => trivial) hu

/-- It appends the link to its own list and pops it. -/
theorem reachable_delivered_crawlEnd :
    poppedUrls 0 crawlEnd.log = [threadUrl] ∧
      poppedUrls 0 crawlEnd.log ++ crawlEnd.store.lists (urlListKey 0) =
        crawlStart.store.lists (urlListKey 0) ++
          (pushedUrls crawlEnd.log).filter fun url => murmurHash3X86_32 url hashSeed % 1 = 0 :=
  ⟨by decide +kernel, reachable_delivered crawlStart_init crawlSteps_run 0⟩

theorem reachable_popped_crawlEnd :
    ∃ key r, (0, .cmd (.lpop key) r) ∈ crawlEnd.log ∧ ∃ url, r = .string url := by
  have hurl : threadUrl ∈ poppedUrls 0 crawlEnd.log := by decide +kernel
  obtain ⟨key, hm⟩ := exists_lpop_of_mem hurl
  exact ⟨key, _, hm, reachable_popped crawlStart_init crawlSteps_run hm⟩

end Crawler.Tasks
