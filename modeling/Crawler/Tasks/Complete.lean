/-
# Crawler.Tasks.Complete — what the harvest of all workers together leaves out

Two workers may both append a URL that they find at the same time, and a URL may be left out because all
its bits were set for others. It is not left out for any other reason: over a filter that was clear, once
all workers are between two tasks, every link of every forum page that has been parsed was appended, by
whichever worker, or each of its nine bits is a bit of a URL that was.
-/
import Crawler.Tasks.Queues

namespace Crawler.Tasks

open Crawler.Lib Crawler.Bloom Crawler.Html Crawler.Http

/-! ## What a search has seen -/

/-- Every bit of the URL was read as set, or was set. -/
def Seen (t : List (Command × Reply)) (url : CStr) : Prop :=
  ∀ off ∈ offsets url, (∃ n, n ≠ 0 ∧ (.getbit bloomFilter off, .integer n) ∈ t) ∨
    ∃ r, (.setbit bloomFilter off true, r) ∈ t

theorem Seen.mono {t t' : List (Command × Reply)} {url : CStr} (h : Seen t url) (hsub : t ⊆ t') :
    Seen t' url := by
  intro off hoff
  rcases h off hoff with ⟨n, hn, hm⟩ | ⟨r, hm⟩
  · exact .inl ⟨n, hn, hsub hm⟩
  · exact .inr ⟨r, hsub hm⟩

/-- A check that answers 1 has read every bit as set. -/
theorem checkFrom_one {str : CStr} {seeds : List UInt32} {t : List (Command × Reply)}
    (h : (checkFrom str seeds).Path t (.done 1)) (hok : AllAnswered t) :
    ∀ seed ∈ seeds, ∃ n, n ≠ 0 ∧ (.getbit bloomFilter (murmurHash3X86_32 str seed), .integer n) ∈ t := by
  induction seeds generalizing t with
  | nil => exact fun _ hm => absurd hm List.not_mem_nil
  | cons seed seeds ih =>
      obtain ⟨t₁, t₂, ⟨rc, value⟩, rfl, hget, hrest⟩ := h.bind_done
      obtain ⟨rfl, rfl⟩ := redisStringGetbit_done hget fun x hx => hok x (List.mem_append_left _ hx)
      rw [if_neg (Int.lt_irrefl 0)] at hrest
      by_cases hzero : value = 0
      · rw [if_pos hzero] at hrest
        obtain ⟨-, hq⟩ := Prog.path_done_iff.mp hrest
        cases hq
      · rw [if_neg hzero] at hrest
        have htail := ih hrest fun x hx => hok x (List.mem_append_right _ hx)
        intro seed' hm
        rcases List.mem_cons.mp hm with rfl | hm
        · exact ⟨value, hzero, List.mem_append_left _ List.mem_cons_self⟩
        · obtain ⟨n, hn, hin⟩ := htail seed' hm
          exact ⟨n, hn, List.mem_append_right _ hin⟩

theorem redisListRpush_done {key value : CStr} {t : List (Command × Reply)} {rc : Int}
    (h : (redisListRpush key value).Path t (.done rc)) (hok : AllAnswered t) :
    rc = 0 ∧ ∃ r, t = [(.rpush key value, r)] := by
  rcases redisListRpush_path h with rfl | ⟨r, rfl⟩
  · cases Prog.path_nil_iff.mp h
  · refine ⟨?_, r, rfl⟩
    rcases Prog.path_ask_iff.mp h with ⟨hnil, -⟩ | ⟨r', t', heq, hret⟩
    · cases hnil
    · cases heq
      have hr : r ≠ .failed := (hok _ List.mem_cons_self).1
      cases r with
      | failed => exact absurd rfl hr
      | integer n =>
          obtain ⟨-, hq⟩ := Prog.path_done_iff.mp hret
          cases hq
          rfl
      | other =>
          obtain ⟨-, hq⟩ := Prog.path_done_iff.mp hret
          cases hq
          rfl

/-- A visit has seen its link. -/
theorem visitLink_done {workProcesses : UInt32} {url : CStr} {t : List (Command × Reply)} {rc : Int}
    (h : (visitLink workProcesses url).Path t (.done rc)) (hok : AllAnswered t) : rc = 0 ∧ Seen t url := by
  obtain ⟨t₁, t₂, seen, rfl, hcheck, hrest⟩ := h.bind_done
  have hok₁ : AllAnswered t₁ := fun x hx => hok x (List.mem_append_left _ hx)
  have hok₂ : AllAnswered t₂ := fun x hx => hok x (List.mem_append_right _ hx)
  by_cases hseen : seen = 0
  · rw [if_pos hseen] at hrest
    obtain ⟨s, t₃, rc', rfl, hset, hpush⟩ := hrest.bind_done
    have hbits := bloomSet_done hset fun x hx => hok₂ x (List.mem_append_left _ hx)
    obtain ⟨rfl, -⟩ := redisListRpush_done hpush fun x hx => hok₂ x (List.mem_append_right _ hx)
    refine ⟨rfl, fun off hoff => .inr ?_⟩
    obtain ⟨r, hr⟩ := hbits off hoff
    exact ⟨r, List.mem_append_right _ (List.mem_append_left _ hr)⟩
  · rw [if_neg hseen] at hrest
    obtain ⟨rfl, hq⟩ := Prog.path_done_iff.mp hrest
    cases hq
    rcases bloomCheck_done hcheck hok₁ with rfl | ⟨rfl, -⟩
    · refine ⟨rfl, fun off hoff => .inl ?_⟩
      obtain ⟨seed, hseed, rfl⟩ := List.mem_map.mp hoff
      obtain ⟨n, hn, hm⟩ := checkFrom_one hcheck hok₁ seed hseed
      exact ⟨n, hn, List.mem_append_left _ hm⟩
    · exact absurd rfl hseen

section

variable {gumboGetAttribute : List GumboAttribute → CStr → Option GumboAttribute}
  {workProcesses : UInt32}

mutual

/-- A search that goes through has seen every link of its tree. -/
theorem searchForLinks_seen (node : GumboNode) {t : List (Command × Reply)}
    (h : (searchForLinks gumboGetAttribute workProcesses node).Path t (.done (some ())))
    (hok : AllAnswered t) : ∀ url ∈ linksOf gumboGetAttribute node, Seen t url := by
  cases node with
  | text _ => exact fun _ hm => absurd hm List.not_mem_nil
  | other => exact fun _ hm => absurd hm List.not_mem_nil
  | element tag attributes children =>
      unfold searchForLinks searchWith at h
      rw [linksOf, ← linkOf_eq]
      cases hlink : linkOf gumboGetAttribute tag attributes with
      | none =>
          rw [hlink] at h
          exact searchChildren_seen children h hok
      | some href =>
          rw [hlink] at h
          simp only at h
          split_ifs at h
          · obtain ⟨t₁, t₂, rc, rfl, hvisit, hrest⟩ := h.bind_done
            obtain ⟨rfl, hseen⟩ := visitLink_done hvisit fun x hx => hok x (List.mem_append_left _ hx)
            rw [if_neg (Int.lt_irrefl 0)] at hrest
            have hbelow := searchChildren_seen children hrest fun x hx => hok x (List.mem_append_right _ hx)
            intro url hm
            rcases List.mem_cons.mp hm with rfl | hm
            · exact hseen.mono (List.subset_append_left _ _)
            · exact (hbelow url hm).mono (List.subset_append_right _ _)
          · obtain ⟨-, hq⟩ := Prog.path_done_iff.mp h
            cases hq

theorem searchChildren_seen (nodes : List GumboNode) {t : List (Command × Reply)}
    (h : (searchChildren gumboGetAttribute workProcesses nodes).Path t (.done (some ())))
    (hok : AllAnswered t) : ∀ url ∈ linksOfAll gumboGetAttribute nodes, Seen t url := by
  cases nodes with
  | nil => exact fun _ hm => absurd hm List.not_mem_nil
  | cons node nodes =>
      unfold searchChildren searchChildrenWith at h
      rw [linksOfAll]
      obtain ⟨t₁, t₂, r, rfl, hnode, hrest⟩ := h.bind_done
      cases r with
      | none =>
          obtain ⟨-, hq⟩ := Prog.path_done_iff.mp hrest
          cases hq
      | some _ =>
          have hfirst := searchForLinks_seen node hnode fun x hx => hok x (List.mem_append_left _ hx)
          have hothers := searchChildren_seen nodes hrest fun x hx => hok x (List.mem_append_right _ hx)
          intro url hm
          rcases List.mem_append.mp hm with hm | hm
          · exact (hfirst url hm).mono (List.subset_append_left _ _)
          · exact (hothers url hm).mono (List.subset_append_right _ _)

end

end

/-! ## What a call has marked -/

/-- A program that has come to its end has appended, for every bit it has set, a URL with this bit. -/
def MarksPushed (workProcesses : UInt32) {α : Type} (p : Prog Command Reply α) : Prop :=
  ∀ t a, p.Path t (.done a) → AllAnswered t → ∀ off r, (.setbit bloomFilter off true, r) ∈ t →
    ∃ url r', (.rpush (listOf workProcesses url) url, r') ∈ t ∧ off ∈ offsets url

section

variable {gumboGetAttribute : List GumboAttribute → CStr → Option GumboAttribute}
  {workProcesses : UInt32}

theorem MarksPushed.of_sends {α : Type} {p : Prog Command Reply α}
    (h : p.Sends fun c => ¬ SetsBit c) : MarksPushed workProcesses p :=
  fun t _ hp _ off _ hm => absurd ⟨off, rfl⟩ (h t _ hp _ hm)

theorem MarksPushed.bind {α β : Type} {p : Prog Command Reply α} {f : α → Prog Command Reply β}
    (hp : MarksPushed workProcesses p) (hf : ∀ a, MarksPushed workProcesses (f a)) :
    MarksPushed workProcesses (p >>= f) := by
  intro t b h hok off r hm
  obtain ⟨t₁, t₂, a, rfl, hp', hf'⟩ := h.bind_done
  rcases List.mem_append.mp hm with hm | hm
  · obtain ⟨url, r', hin, hoff⟩ := hp t₁ a hp' (fun x hx => hok x (List.mem_append_left _ hx)) off r hm
    exact ⟨url, r', List.mem_append_left _ hin, hoff⟩
  · obtain ⟨url, r', hin, hoff⟩ := hf a t₂ b hf' (fun x hx => hok x (List.mem_append_right _ hx)) off r hm
    exact ⟨url, r', List.mem_append_right _ hin, hoff⟩

/-- The loop of `bloom_set` sets bits of its string only. -/
theorem setFrom_offsets (str : CStr) {seeds : List UInt32} {off : UInt32} {t : List (Command × Reply)}
    {q : Prog Command Reply Int} (h : (setFrom str seeds).Path t q) {r : Reply}
    (hm : (.setbit bloomFilter off true, r) ∈ t) : off ∈ seeds.map (murmurHash3X86_32 str) := by
  have hsends : (setFrom str seeds).Sends fun c => ∃ off ∈ seeds.map (murmurHash3X86_32 str),
      c = .setbit bloomFilter off true := by
    clear h hm
    induction seeds with
    | nil => exact .done 0
    | cons seed seeds ih =>
        refine .bind (.ask ⟨_, List.mem_cons_self, rfl⟩ fun r => ?_) fun rc => ?_
        · cases r <;> exact .done _
        · split_ifs
          · exact .done _
          · exact ih.mono fun c ⟨off, hoff, hc⟩ => ⟨off, List.mem_cons_of_mem _ hoff, hc⟩
  obtain ⟨off', hoff, heq⟩ := hsends t q h _ hm
  cases heq
  exact hoff

theorem visitLink_marksPushed (url : CStr) :
    MarksPushed workProcesses (visitLink workProcesses url) := by
  refine MarksPushed.bind (.of_sends ((checkFrom_sends url seeds).mono ?_)) fun seen => ?_
  · rintro c ⟨off, rfl⟩ ⟨off', h⟩
    cases h
  · by_cases hseen : seen = 0
    · rw [if_pos hseen]
      intro t rc h hok off r hm
      obtain ⟨t₁, t₂, rc', rfl, hset, hpush⟩ := h.bind_done
      obtain ⟨-, r', rfl⟩ := redisListRpush_done hpush fun x hx => hok x (List.mem_append_right _ hx)
      refine ⟨url, r', List.mem_append_right _ List.mem_cons_self, ?_⟩
      rcases List.mem_append.mp hm with hm | hm
      · exact setFrom_offsets url hset hm
      · cases List.mem_singleton.mp hm
    · rw [if_neg hseen]
      exact .of_sends (.done _)

theorem searchPage_marksPushed (path : CStr) (root : GumboNode) :
    MarksPushed workProcesses (searchPage gumboGetAttribute workProcesses path root) := by
  rw [searchPage]
  split_ifs
  · exact searchForLinks_rule gumboGetAttribute workProcesses
      ⟨fun a => .of_sends (.done a), MarksPushed.bind⟩ visitLink_marksPushed root
  · exact .of_sends (.done _)
  · exact .of_sends (.done _)

theorem parseHtml_marksPushed (client : HttpClient) (output : Option GumboNode) :
    MarksPushed workProcesses (parseHtml gumboGetAttribute workProcesses client output) := by
  unfold parseHtml
  split_ifs
  · exact .of_sends (.done _)
  · cases output with
    | none => exact .of_sends (.done _)
    | some root =>
        refine (searchPage_marksPushed client.url.path root).bind fun searched => ?_
        split
        · refine MarksPushed.bind (.of_sends ((redisListRpush_sends _ parseDone).mono ?_)) fun _ =>
            .of_sends (.done _)
          rintro c rfl ⟨off, h⟩
          cases h
        · exact .of_sends (.done _)

/-- A page that was parsed was searched to the end. -/
theorem parseHtml_done {client : HttpClient} {output : Option GumboNode} {t : List (Command × Reply)}
    (h : (parseHtml gumboGetAttribute workProcesses client output).Path t (.done (some 0))) :
    client.status = .htmlDone ∧ ∃ root t', output = some root ∧ t' ⊆ t ∧
      (searchPage gumboGetAttribute workProcesses client.url.path root).Path t' (.done (some ())) := by
  unfold parseHtml at h
  by_cases hstatus : client.status ≠ .htmlDone
  · rw [if_pos hstatus] at h
    obtain ⟨-, hq⟩ := Prog.path_done_iff.mp h
    cases hq
  · rw [if_neg hstatus] at h
    refine ⟨not_not.mp hstatus, ?_⟩
    cases output with
    | none =>
        obtain ⟨-, hq⟩ := Prog.path_done_iff.mp h
        cases hq
    | some root =>
        obtain ⟨t₁, t₂, searched, rfl, hsearch, hrest⟩ := h.bind_done
        cases searched with
        | none =>
            obtain ⟨-, hq⟩ := Prog.path_done_iff.mp hrest
            cases hq
        | some _ => exact ⟨root, t₁, rfl, List.subset_append_left _ _, hsearch⟩

end

/-! ## Every run -/

section

variable {gumboGetAttribute : List GumboAttribute → CStr → Option GumboAttribute}
  {workProcesses : UInt32} {tasks : UInt32 → List Task}
  {s u : Shared UInt32 (UInt32 × Task) TaskCommand TaskReply TaskResult Redis} {as : List UInt32}

theorem parseHtml_keepsBits (client : HttpClient) (output : Option GumboNode) :
    (parseHtml gumboGetAttribute workProcesses client output).Sends KeepsBits := by
  unfold parseHtml
  split_ifs
  · exact .done _
  · cases output with
    | none => exact .done _
    | some root =>
        refine Prog.Sends.bind ?_ fun searched => ?_
        · rw [searchPage]
          split_ifs
          · exact searchForLinks_keepsBits gumboGetAttribute workProcesses root
          · exact .done _
          · exact .done _
        · split
          · refine ((redisListRpush_sends _ parseDone).mono ?_).bind fun _ => .done _
            rintro c rfl off
            rfl
          · exact .done _

/-- A round sends none of the commands of the filter. -/
theorem popTask_sends_list (n : UInt32) (gate : Bool) :
    (popTask n gate).Sends fun c => ∀ c', c ≠ .base c' := by
  have hllen : ∀ key c', TaskCommand.llen key ≠ .base c' := fun key c' => by simp
  have hlpop : ∀ key c', TaskCommand.lpop key ≠ .base c' := fun key c' => by simp
  rw [popTask]
  split_ifs
  · refine .bind (.ask (hllen _) fun r => ?_) fun length => ?_
    · cases r <;> exact .done _
    · split_ifs
      · refine .ask (hlpop _) fun r => ?_
        cases r <;> exact .done _
      · exact .done _
  · exact .done _

/-- What a task sends clears no bit of the filter. -/
theorem runTask_keepsBits (n : UInt32) (task : Task) :
    (runTask gumboGetAttribute workProcesses n task).Sends
      fun c => ∀ c', c = .base c' → KeepsBits c' := by
  cases task with
  | round gate =>
      exact ((popTask_sends_list n gate).mono fun c hc c' h => absurd h (hc c')).bind fun _ => .done _
  | page client output =>
      refine (Prog.Sends.lift (parseHtml_keepsBits client output) ?_).bind fun _ => .done _
      rintro c hc _ ⟨⟩
      exact hc

/-- Where a bit comes from. -/
theorem exec_bit {c : Command} (hc : KeepsBits c) {r : Redis} {off : UInt32}
    (h : (r.exec c).1.strings bloomFilter off = true) :
    r.strings bloomFilter off = true ∨ c = .setbit bloomFilter off true := by
  cases c with
  | setbit key off' value =>
      by_cases hkey : key = bloomFilter
      · subst hkey
        by_cases hoff : off = off'
        · subst hoff
          cases value with
          | true => exact .inr rfl
          | false => simp [Redis.exec] at h
        · exact .inl (by simpa [Redis.exec, hoff] using h)
      · exact .inl (by simpa [Redis.exec, Function.update_of_ne (Ne.symm hkey)] using h)
  | getbit key off' => exact .inl h
  | bitop op dest keys =>
      have hdest : dest ≠ bloomFilter := by simpa [clears] using hc off
      rw [Redis.exec] at h
      split_ifs at h
      · exact .inl (by simpa [Function.update_of_ne (Ne.symm hdest)] using h)
      · exact .inl h
  | rpush key url => exact .inl h

/-- A bit that is set was set at the start, or by a worker. -/
theorem bit_logged {log : TaskLog}
    (hlog : ∀ w c r, (w, .cmd (.base c) r) ∈ log → KeepsBits c) {r : Redis} {off : UInt32}
    (h : (storeAfter (taskProcs gumboGetAttribute workProcesses) r log).strings bloomFilter off = true) :
    r.strings bloomFilter off = true ∨
      ∃ w r', (w, .cmd (.base (.setbit bloomFilter off true)) r') ∈ log := by
  induction log using List.reverseRecOn with
  | nil => exact .inl h
  | append_singleton log e ih =>
      have hfirst : ∀ {r' : Redis}, r' = storeAfter (taskProcs gumboGetAttribute workProcesses) r log →
          r'.strings bloomFilter off = true → r.strings bloomFilter off = true ∨
            ∃ w r', (w, .cmd (.base (.setbit bloomFilter off true)) r') ∈ log ++ [e] := by
        rintro _ rfl hset
        rcases ih (fun w c r hm => hlog w c r (List.mem_append_left _ hm)) hset with h | ⟨w, r', hm⟩
        · exact .inl h
        · exact .inr ⟨w, r', List.mem_append_left _ hm⟩
      rw [storeAfter_append] at h
      obtain ⟨w, x | ⟨c, r'⟩ | ⟨x, a⟩⟩ := e
      · exact hfirst rfl h
      · rcases c with c | key | key
        · rcases exec_bit (hlog w c r' (by simp)) h with h | rfl
          · exact hfirst rfl h
          · exact .inr ⟨w, r', by simp⟩
        · exact hfirst rfl h
        · refine hfirst rfl ?_
          revert h
          show (execTask _ (.lpop key)).1.strings bloomFilter off = true → _
          rw [execTask]
          split <;> exact id
      · exact hfirst rfl h

/-- The replies to a page's commands, as the log has them. -/
theorem crawlers_allAnswered {r : Redis} {log : TaskLog}
    (hlog : Recorded (taskProcs gumboGetAttribute workProcesses) r log) {w : UInt32}
    {m : List (Command × TaskReply)} (hm : ∀ x ∈ m, (w, .cmd (.base x.1) x.2) ∈ log) :
    AllAnswered (m.map (Prod.map id TaskReply.toReply)) ∧ ∀ x ∈ m, ∃ r', x.2 = .base r' := by
  have hbase : ∀ x ∈ m, ∃ r', x.2 = .base r' ∧ Answered x.1 r' := by
    intro x hx
    obtain ⟨log₁, log₂, hsplit⟩ := List.append_of_mem (hm x hx)
    exact ⟨_, hlog log₁ w _ _ log₂ hsplit, Redis.exec_answered _ _⟩
  refine ⟨fun y hy => ?_, fun x hx => ?_⟩
  · obtain ⟨x, hx, rfl⟩ := List.mem_map.mp hy
    obtain ⟨r', hr', hans⟩ := hbase x hx
    simpa [hr', TaskReply.toReply] using hans
  · obtain ⟨r', hr', -⟩ := hbase x hx
    exact ⟨r', hr'⟩

/-- A page's task is `parse_html`. -/
theorem runTask_page_done {n : UInt32} {client : HttpClient} {output : Option GumboNode}
    {m : List (TaskCommand × TaskReply)} {a : TaskResult}
    (h : (runTask gumboGetAttribute workProcesses n (.page client output)).Path m (.done a)) :
    ∃ (m' : List (Command × TaskReply)) (rc : Option Int), m = m'.map (Prod.map .base id) ∧
      a = rc.elim .crashed .rc ∧ (parseHtml gumboGetAttribute workProcesses client output).Path
        (m'.map (Prod.map id TaskReply.toReply)) (.done rc) := by
  obtain ⟨t₁, t₂, rc, rfl, hlift, hret⟩ := h.bind_done
  obtain ⟨rfl, hq⟩ := Prog.path_done_iff.mp hret
  obtain ⟨m', p', rfl, hdone, hpath⟩ := hlift.of_lift
  cases p' with
  | ask c next => cases hdone
  | done rc' =>
      cases hdone
      cases hq
      exact ⟨m', rc, List.append_nil _, rfl, hpath⟩

/-- Once a worker is between two tasks, it has appended a URL for every bit it has set. -/
theorem crawlers_marksPushed (hinit : (crawlers gumboGetAttribute workProcesses tasks).init s)
    (hr : Run (crawlers gumboGetAttribute workProcesses tasks) s as u) {w : UInt32}
    {calls : List (UInt32 × Task)} (hidle : u.worker w = .idle calls) {off : UInt32} {r : TaskReply}
    (hm : (w, .cmd (.base (.setbit bloomFilter off true)) r) ∈ u.log) :
    ∃ url ∈ pushedUrls u.log, off ∈ offsets url := by
  obtain ⟨-, hrecorded⟩ := reachable_recorded hinit hr
  have hfollows := reachable_follows hinit hr w
  rw [hidle] at hfollows
  obtain ⟨⟨n, task⟩, m, a, hin, hown, hpath⟩ := hfollows.completed (mem_own_iff.mpr hm)
  cases task with
  | round gate =>
      obtain ⟨t₁, t₂, url, rfl, hpop, hret⟩ := hpath.bind_done
      obtain ⟨rfl, -⟩ := Prog.path_done_iff.mp hret
      rw [List.append_nil] at hin
      exact absurd rfl (popTask_sends_list n gate t₁ _ hpop _ hin _)
  | page client output =>
      obtain ⟨m', rc, rfl, -, hparse⟩ := runTask_page_done (n := n) hpath
      have hlogged : ∀ x ∈ m', (w, .cmd (.base x.1) x.2) ∈ u.log := fun x hx =>
        mem_own_iff.mp (hown _ (mem_cmds_iff.mpr (List.mem_map_of_mem (f := Prod.map TaskCommand.base id) hx)))
      obtain ⟨hok, -⟩ := crawlers_allAnswered hrecorded hlogged
      obtain ⟨⟨c, r'⟩, hx, heq⟩ := List.mem_map.mp hin
      cases heq
      obtain ⟨url, r'', hpush, hoff⟩ := parseHtml_marksPushed client output _ rc hparse hok off
        r'.toReply (List.mem_map_of_mem (f := Prod.map id TaskReply.toReply) hx)
      obtain ⟨⟨c, r₀⟩, hy, heq⟩ := List.mem_map.mp hpush
      cases heq
      refine ⟨url, List.mem_filterMap.mpr ⟨_, hlogged _ hy, ?_⟩, hoff⟩
      exact if_neg (urlListKey_ne_parseDone _)

/-- What a search has seen over a filter that was clear, somebody has set. -/
theorem crawlers_seen (hinit : (crawlers gumboGetAttribute workProcesses tasks).init s)
    (hr : Run (crawlers gumboGetAttribute workProcesses tasks) s as u)
    (hclear : ∀ off, s.store.strings bloomFilter off = false) {w : UInt32}
    {m : List (Command × TaskReply)} (hm : ∀ x ∈ m, (w, .cmd (.base x.1) x.2) ∈ u.log) {url : CStr}
    (hseen : Seen (m.map (Prod.map id TaskReply.toReply)) url) {off : UInt32} (hoff : off ∈ offsets url) :
    ∃ v r, (v, .cmd (.base (.setbit bloomFilter off true)) r) ∈ u.log := by
  obtain ⟨-, hrecorded⟩ := reachable_recorded hinit hr
  have hkeeps : ∀ v c r, (v, .cmd (.base c) r) ∈ u.log → KeepsBits c := by
    intro v c r hm
    obtain ⟨t₁, t₂, hown⟩ := List.append_of_mem (mem_own_iff.mpr hm)
    obtain ⟨task, t₀, m, p, -, hgoes⟩ := crawlers_before hinit hr hown
    exact runTask_keepsBits v task _ p hgoes (.base c, r) (by simp) c rfl
  rcases hseen off hoff with ⟨n, hn, hread⟩ | ⟨r, hmark⟩
  · obtain ⟨⟨c, r₀⟩, hx, heq⟩ := List.mem_map.mp hread
    obtain ⟨r', hr'⟩ := (crawlers_allAnswered hrecorded hm).2 _ hx
    simp only at hr'
    subst hr'
    cases heq
    obtain ⟨log₁, log₂, hlog⟩ := List.append_of_mem (hm _ hx)
    -- the bit was set when it was read
    have hbit : (storeAfter (taskProcs gumboGetAttribute workProcesses) s.store log₁).strings
        bloomFilter off = true := by
      by_contra hzero
      have hnone : TaskReply.base (Reply.integer n) = .base (.integer 0) := by
        refine (hrecorded log₁ w _ _ log₂ hlog).trans ?_
        show TaskReply.base (bitReply _) = _
        rw [eq_false_of_ne_true hzero]
        rfl
      cases hnone
      exact hn rfl
    have hbefore : ∀ e ∈ log₁, e ∈ u.log := fun e he => by
      rw [hlog]
      exact List.mem_append_left _ he
    rcases bit_logged (fun v c r hm => hkeeps v c r (hbefore _ hm)) hbit with hinitial | ⟨v, r, hm⟩
    · rw [hclear off] at hinitial
      cases hinitial
    · exact ⟨v, r, hbefore _ hm⟩
  · obtain ⟨⟨c, r₀⟩, hx, heq⟩ := List.mem_map.mp hmark
    cases heq
    exact ⟨w, r₀, hm _ hx⟩

/-- Over a filter that was clear, once all workers are between two tasks, each of the nine bits of every
link on every forum page that has been parsed is a bit of a URL that was appended. -/
theorem reachable_complete (hinit : (crawlers gumboGetAttribute workProcesses tasks).init s)
    (hr : Run (crawlers gumboGetAttribute workProcesses tasks) s as u)
    (hclear : ∀ off, s.store.strings bloomFilter off = false)
    (hidle : ∀ w, ∃ calls, u.worker w = .idle calls) {w : UInt32} {client : HttpClient} {root : GumboNode}
    (hdone : (w, .ret (w, .page client (some root)) (.rc 0)) ∈ u.log)
    (hforum : strstr client.url.path (lit "forum.php?mod=forumdisplay&fid=2") = true) :
    ∀ link ∈ linksOf gumboGetAttribute root, ∀ off ∈ offsets link,
      ∃ url ∈ pushedUrls u.log, off ∈ offsets url := by
  obtain ⟨-, hrecorded⟩ := reachable_recorded hinit hr
  have hfollows := reachable_follows hinit hr w
  obtain ⟨t₁, t₂, hsplit⟩ := List.append_of_mem (mem_own_iff.mpr hdone)
  obtain ⟨t₀, m, rfl, hpath⟩ := hfollows.before_ret hsplit
  obtain ⟨m', rc, rfl, hrc, hparse⟩ := runTask_page_done (n := w) hpath
  obtain rfl : rc = some 0 := by
    cases rc with
    | none => cases hrc
    | some rc =>
        cases hrc
        rfl
  have hlogged : ∀ x ∈ m', (w, .cmd (.base x.1) x.2) ∈ u.log := by
    intro x hx
    rw [← mem_own_iff, hsplit]
    refine List.mem_append_left _ (List.mem_append_right _ (List.mem_cons_of_mem _ ?_))
    exact mem_cmds_iff.mpr (List.mem_map_of_mem (f := Prod.map TaskCommand.base id) hx)
  obtain ⟨hok, -⟩ := crawlers_allAnswered hrecorded hlogged
  obtain ⟨-, root', t', heq, hsub, hsearch⟩ := parseHtml_done hparse
  cases heq
  rw [searchPage, if_pos hforum] at hsearch
  intro link hlink off hoff
  have hseen := searchForLinks_seen root hsearch (fun x hx => hok x (hsub hx)) link hlink
  obtain ⟨v, r, hm⟩ := crawlers_seen hinit hr hclear hlogged (hseen.mono hsub) hoff
  obtain ⟨calls, hcalls⟩ := hidle v
  exact crawlers_marksPushed hinit hr hcalls hm

end

/-! ## One worker -/

theorem crawlEnd_idle (w : UInt32) : ∃ calls, crawlEnd.worker w = .idle calls := by
  by_cases hw : w = 0
  · subst hw
    have hidle : (match crawlEnd.worker 0 with
        | .idle _ => true
        | .busy _ _ _ => false) = true := by decide +kernel
    generalize crawlEnd.worker 0 = wk at hidle ⊢
    cases wk with
    | idle calls => exact ⟨calls, rfl⟩
    | busy x p calls => cases hidle
  · refine ⟨_, worker_of_notMem crawlSteps_run fun hm => ?_⟩
    exact hw (List.eq_of_mem_replicate hm)

/-- The end of `parse_html` on the forum page of worker 0. -/
def endsThreadPage : UInt32 × Entry (UInt32 × Task) TaskCommand TaskReply TaskResult → Bool
  | (0, .ret (0, .page client (some (.element .a [⟨name, value⟩] []))) (.rc 0)) =>
      client = forumClient && name = lit "href" && value = threadUrl
  | _ => false

theorem eq_of_endsThreadPage {e : UInt32 × Entry (UInt32 × Task) TaskCommand TaskReply TaskResult}
    (h : endsThreadPage e = true) : e = (0, .ret (0, .page forumClient (some threadPage)) (.rc 0)) := by
  unfold endsThreadPage at h
  split at h
  · simp only [Bool.and_eq_true, decide_eq_true_eq] at h
    obtain ⟨⟨rfl, rfl⟩, rfl⟩ := h
    rfl
  · cases h

/-- The one link of the page was appended. -/
theorem reachable_complete_crawlEnd :
    linksOf attributeNamed threadPage = [threadUrl] ∧
      ∀ link ∈ linksOf attributeNamed threadPage, ∀ off ∈ offsets link,
        ∃ url ∈ pushedUrls crawlEnd.log, off ∈ offsets url := by
  refine ⟨by decide +kernel, ?_⟩
  have hdone : (0, .ret (0, .page forumClient (some threadPage)) (.rc 0)) ∈ crawlEnd.log := by
    have hany : crawlEnd.log.any endsThreadPage = true := by decide +kernel
    obtain ⟨e, hm, hret⟩ := List.any_eq_true.mp hany
    exact eq_of_endsThreadPage hret ▸ hm
  exact reachable_complete crawlStart_init crawlSteps_run (fun _ => rfl) crawlEnd_idle hdone
    (by decide +kernel)

end Crawler.Tasks
