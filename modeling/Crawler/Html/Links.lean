/-
# Crawler.Html.Links — the links of a page, appended to the workers' lists

`search_for_links` of `html_parser.c`, run by any number of workers over one redis. The check of a URL,
its nine bits and its append are separate commands, so two workers can both find a URL unvisited. What
an append needs is a bit of the URL read as 0 and then, by the same worker and before the append, all
nine bits set (`PushOk`). Hence a worker appends a URL once, and two workers append the same URL only
when the later one has read a bit as 0 before the other one set it (`reachable_overlap`).
-/
import Crawler.Bloom.Marks

namespace Crawler.Html

open Crawler.Lib Crawler.Bloom

/-! ## `search_for_links` -/

/-- `GumboTag`, the tags that `html_parser.c` looks for. -/
inductive GumboTag where
  | a
  | b
  | div
  | em
  | font
  | h1
  | p
  | span
  | other (n : Nat)
  deriving DecidableEq, Repr

/-- `GumboAttribute`. -/
structure GumboAttribute where
  name : CStr
  value : CStr
  deriving DecidableEq, Repr

/-- `GumboNode`: an element, a text, or a node of another type. -/
inductive GumboNode where
  | element (tag : GumboTag) (attributes : List GumboAttribute) (children : List GumboNode)
  | text (text : CStr)
  | other

/-- `strstr`. -/
def strstr (s sub : CStr) : Bool := s.tails.any fun t => sub.isPrefixOf t

/-- `HASH_SEED`. -/
def hashSeed : UInt32 := 8887

/-- The key `url_list_%d`. -/
def urlListKey (id : UInt32) : CStr := lit "url_list_" ++ lit (toString id.toInt32.toInt)

/-- A link into the forum. -/
def forumLink (href : CStr) : Bool :=
  strstr href (lit "http://bbs.dgtle.com/thread-") ||
    strstr href (lit "http://bbs.dgtle.com/forum.php?mod=forumdisplay&fid=2&page=")

section

-- `gumbo_get_attribute`, and the number of workers
variable (gumboGetAttribute : List GumboAttribute → CStr → Option GumboAttribute)
  (workProcesses : UInt32)

/-- The link of a node that is to be followed. -/
def linkOf (tag : GumboTag) (attributes : List GumboAttribute) : Option CStr :=
  if tag = .a then
    match gumboGetAttribute attributes (lit "href") with
    | some href => if forumLink href.value then some href.value else none
    | none => none
  else none

/-- A link that is to be followed: checked, and if it is new marked and appended to the list of the
worker its hash selects. A negative result is a failed append. -/
def visitLink (httpurl : CStr) : Prog Command Reply Int := do
  let seen ← bloomCheck httpurl
  if seen = 0 then
    let _ ← bloomSet httpurl
    redisListRpush (urlListKey (murmurHash3X86_32 httpurl hashSeed % workProcesses)) httpurl
  else return 0

section

variable {κ ρ : Type} (visit : CStr → Prog κ ρ Int)

mutual

/-- The recursion of `search_for_links`, with what is done about a link that is to be followed; `none`
where a link overruns the array of 1024 bytes it is copied to. -/
def searchWith : GumboNode → Prog κ ρ (Option Unit)
  | .text _ => return some ()
  | .other => return some ()
  | .element tag attributes children =>
      match linkOf gumboGetAttribute tag attributes with
      | none => searchChildrenWith children
      | some href =>
          if href.length < 1024 then do
            let rc ← visit href
            if rc < 0 then return some ()
            else searchChildrenWith children
          else return none

/-- The loop over the children. -/
def searchChildrenWith : List GumboNode → Prog κ ρ (Option Unit)
  | [] => return some ()
  | node :: nodes => do
      let r ← searchWith node
      match r with
      | none => return none
      | some _ => searchChildrenWith nodes

end

end

/-- `search_for_links(node)`. -/
def searchForLinks (node : GumboNode) : Prog Command Reply (Option Unit) :=
  searchWith gumboGetAttribute (visitLink workProcesses) node

/-- Its loop over the children. -/
def searchChildren (nodes : List GumboNode) : Prog Command Reply (Option Unit) :=
  searchChildrenWith gumboGetAttribute (visitLink workProcesses) nodes

/-- The pages of a worker, searched one after another; a worker that overruns its array does no more. -/
def linkProcs : Procs GumboNode Command Reply (Option Unit) Redis where
  body := searchForLinks gumboGetAttribute workProcesses
  rest _ r pages := if r = none then [] else pages
  exec := Redis.exec

end

/-! ## What an append needs -/

/-- Commands other than an append. -/
def NoPush (c : Command) : Prop := ∀ key url, c ≠ .rpush key url

/-- Every append of a URL comes after a bit of it was read as 0 and then all its bits were set, with no
append in between. -/
def PushOk (t : List (Command × Reply)) : Prop :=
  ∀ t₁ key url r t₂, t = t₁ ++ (.rpush key url, r) :: t₂ →
    ∃ before off after, t₁ = before ++ (.getbit bloomFilter off, .integer 0) :: after ∧
      off ∈ offsets url ∧ (∀ off ∈ offsets url, ∃ r, (.setbit bloomFilter off true, r) ∈ after) ∧
      ∀ x ∈ after, NoPush x.1

theorem PushOk.of_noPush {t : List (Command × Reply)} (h : ∀ x ∈ t, NoPush x.1) : PushOk t := by
  rintro t₁ key url r t₂ rfl
  exact absurd rfl (h _ (List.mem_append_right _ List.mem_cons_self) key url)

theorem PushOk.append {t t' : List (Command × Reply)} (h : PushOk t) (h' : PushOk t') :
    PushOk (t ++ t') := by
  intro t₁ key url r t₂ ht
  rcases List.append_eq_append_iff.mp ht with ⟨s, rfl, hs⟩ | ⟨s, rfl, hs⟩
  · obtain ⟨before, off, after, rfl, hrest⟩ := h' s key url r t₂ hs
    exact ⟨t ++ before, off, after, (List.append_assoc _ _ _).symm, hrest⟩
  · cases s with
    | nil =>
        obtain ⟨before, off, after, hnil, -⟩ := h' [] key url r t₂ hs.symm
        simp at hnil
    | cons x s =>
        obtain ⟨rfl, -⟩ := List.cons.inj hs
        exact h t₁ key url r s rfl

/-- On every path along which the commands succeed, appends have what they need. -/
def Guarded {α : Type} (p : Prog Command Reply α) : Prop :=
  ∀ t q, p.Path t q → AllAnswered t → PushOk t

theorem Guarded.of_sends {α : Type} {p : Prog Command Reply α} (h : p.Sends NoPush) : Guarded p :=
  fun t q hp _ => .of_noPush (h t q hp)

theorem Guarded.done {α : Type} (a : α) : Guarded (.done a) := .of_sends (.done a)

theorem Guarded.bind {α β : Type} {p : Prog Command Reply α} {f : α → Prog Command Reply β}
    (hp : Guarded p) (hf : ∀ a, Guarded (f a)) : Guarded (p >>= f) := by
  intro t q h hok
  rcases h.bind_cases with ⟨p', hp', -⟩ | ⟨t₁, t₂, a, rfl, hp', hf'⟩
  · exact hp t p' hp' hok
  · exact (hp t₁ _ hp' fun x hx => hok x (List.mem_append_left _ hx)).append
      (hf a t₂ q hf' fun x hx => hok x (List.mem_append_right _ hx))

theorem SetsBit.noPush {c : Command} (h : SetsBit c) : NoPush c := by
  obtain ⟨off, rfl⟩ := h
  rintro key url ⟨⟩

theorem GetsBit.noPush {c : Command} (h : GetsBit c) : NoPush c := by
  obtain ⟨off, rfl⟩ := h
  rintro key url ⟨⟩

theorem redisListRpush_path {key value : CStr} {t : List (Command × Reply)}
    {q : Prog Command Reply Int} (h : (redisListRpush key value).Path t q) :
    t = [] ∨ ∃ r, t = [(.rpush key value, r)] := by
  rcases Prog.path_ask_iff.mp h with ⟨rfl, -⟩ | ⟨r, t', rfl, hret⟩
  · exact .inl rfl
  · refine .inr ⟨r, ?_⟩
    cases r <;> rw [(Prog.path_done_iff.mp hret).1]

/-- The check, the marks and the append of one link. -/
theorem pushOk_link {t s : List (Command × Reply)} {off : UInt32} {key url : CStr} {r : Reply}
    (ht : ∀ x ∈ t, NoPush x.1) (hoff : off ∈ offsets url) (hs : ∀ x ∈ s, NoPush x.1)
    (hset : ∀ off ∈ offsets url, ∃ r, (.setbit bloomFilter off true, r) ∈ s) :
    PushOk ((t ++ (.getbit bloomFilter off, .integer 0) :: s) ++ [(.rpush key url, r)]) := by
  intro t₁ key' url' r' t₂ hsplit
  rcases append_singleton_split hsplit with ⟨rfl, heq⟩ | ⟨t₂', hin⟩
  · simp only [Prod.mk.injEq, Command.rpush.injEq] at heq
    obtain ⟨⟨-, rfl⟩, -⟩ := heq
    exact ⟨t, off, s, rfl, hoff, hset, hs⟩
  · -- the append is the last command, so it does not stand among the others
    have hmem : (Command.rpush key' url', r') ∈ t ++ (.getbit bloomFilter off, .integer 0) :: s := by
      rw [hin]
      exact List.mem_append_right _ List.mem_cons_self
    rcases List.mem_append.mp hmem with hm | hm
    · exact absurd rfl (ht _ hm key' url')
    · rcases List.mem_cons.mp hm with heq | hm
      · cases heq
      · exact absurd rfl (hs _ hm key' url')

theorem bloomCheck_noPush (str : CStr) : (bloomCheck str).Sends NoPush :=
  (checkFrom_sends str seeds).mono fun _ => GetsBit.noPush

theorem bloomSet_noPush (str : CStr) : (bloomSet str).Sends NoPush :=
  (setFrom_sends str seeds).mono fun _ => SetsBit.noPush

/-- A new link is marked and then appended. -/
theorem markAndPush_pushOk {httpurl key : CStr} {t t' : List (Command × Reply)} {off : UInt32}
    {q : Prog Command Reply Int} (ht : ∀ x ∈ t, NoPush x.1) (hoff : off ∈ offsets httpurl)
    (h : (bloomSet httpurl >>= fun _ => redisListRpush key httpurl).Path t' q)
    (hok : AllAnswered t') : PushOk ((t ++ [(.getbit bloomFilter off, .integer 0)]) ++ t') := by
  have hcheck : ∀ x ∈ t ++ [(.getbit bloomFilter off, .integer 0)], NoPush x.1 := by
    intro x hx
    rcases List.mem_append.mp hx with hx | hx
    · exact ht x hx
    · rw [List.mem_singleton.mp hx]
      exact GetsBit.noPush ⟨off, rfl⟩
  rcases h.bind_cases with ⟨p', hset, -⟩ | ⟨s, t'', rc, rfl, hset, hpush⟩
  · refine (PushOk.of_noPush hcheck).append (.of_noPush ?_)
    exact bloomSet_noPush httpurl t' p' hset
  · have hs : ∀ x ∈ s, NoPush x.1 := bloomSet_noPush httpurl s _ hset
    have hbits := bloomSet_done hset fun x hx => hok x (List.mem_append_left _ hx)
    rcases redisListRpush_path hpush with rfl | ⟨r, rfl⟩
    · rw [List.append_nil]
      exact (PushOk.of_noPush hcheck).append (.of_noPush hs)
    · have hlink : PushOk ((t ++ (.getbit bloomFilter off, .integer 0) :: s) ++
          [(.rpush key httpurl, r)]) := pushOk_link ht hoff hs hbits
      simpa using hlink

theorem visitLink_guarded (workProcesses : UInt32) (httpurl : CStr) :
    Guarded (visitLink workProcesses httpurl) := by
  intro t q h hok
  rcases h.bind_cases with ⟨p', hcheck, -⟩ | ⟨t₁, t₂, seen, rfl, hcheck, hrest⟩
  · exact .of_noPush (bloomCheck_noPush httpurl t p' hcheck)
  · have hnone : ∀ x ∈ t₁, NoPush x.1 := bloomCheck_noPush httpurl t₁ _ hcheck
    by_cases hseen : seen = 0
    · rw [if_pos hseen] at hrest
      rcases bloomCheck_done hcheck fun x hx => hok x (List.mem_append_left _ hx) with
        hone | ⟨-, t', off, hoff, rfl⟩
      · rw [hseen] at hone
        cases hone
      · exact markAndPush_pushOk (fun x hx => hnone x (List.mem_append_left _ hx)) hoff hrest fun x hx =>
          hok x (List.mem_append_right _ hx)
    · rw [if_neg hseen] at hrest
      rw [(Prog.path_done_iff.mp hrest).1, List.append_nil]
      exact .of_noPush hnone

section

variable (gumboGetAttribute : List GumboAttribute → CStr → Option GumboAttribute)
  (workProcesses : UInt32)

section

variable {κ ρ : Type} {visit : CStr → Prog κ ρ Int} {P : ∀ α, Prog κ ρ α → Prop}

mutual

/-- What a visit of a link does, and what is closed under sequence, the search does. -/
theorem searchWith_rule (hP : Prog.Closed P) (hvisit : ∀ url, P Int (visit url)) (node : GumboNode) :
    P _ (searchWith gumboGetAttribute visit node) := by
  cases node with
  | text _ => exact hP.done _
  | other => exact hP.done _
  | element tag attributes children =>
      have hchildren := searchChildrenWith_rule hP hvisit children
      unfold searchWith
      split
      · exact hchildren
      · split_ifs
        · refine hP.bind (hvisit _) fun rc => ?_
          split_ifs
          · exact hP.done _
          · exact hchildren
        · exact hP.done _

theorem searchChildrenWith_rule (hP : Prog.Closed P) (hvisit : ∀ url, P Int (visit url))
    (nodes : List GumboNode) : P _ (searchChildrenWith gumboGetAttribute visit nodes) := by
  cases nodes with
  | nil => exact hP.done _
  | cons node nodes =>
      unfold searchChildrenWith
      refine hP.bind (searchWith_rule hP hvisit node) fun r => ?_
      cases r with
      | none => exact hP.done _
      | some _ => exact searchChildrenWith_rule hP hvisit nodes

end

end

theorem searchForLinks_rule {P : ∀ α, Prog Command Reply α → Prop} (hP : Prog.Closed P)
    (hvisit : ∀ url, P Int (visitLink workProcesses url)) (node : GumboNode) :
    P _ (searchForLinks gumboGetAttribute workProcesses node) :=
  searchWith_rule gumboGetAttribute hP hvisit node

theorem searchForLinks_guarded (node : GumboNode) :
    Guarded (searchForLinks gumboGetAttribute workProcesses node) :=
  searchForLinks_rule gumboGetAttribute workProcesses ⟨Guarded.done, Guarded.bind⟩
    (visitLink_guarded workProcesses) node

end

/-! ## No bit is cleared -/

/-- Commands that clear no bit of the filter. -/
def KeepsBits (c : Command) : Prop := ∀ off, clears c off = false

theorem visitLink_keepsBits (workProcesses : UInt32) (httpurl : CStr) :
    (visitLink workProcesses httpurl).Sends KeepsBits := by
  refine ((checkFrom_sends httpurl seeds).mono ?_).bind fun seen => ?_
  · rintro c ⟨off, rfl⟩ off'
    rfl
  · split_ifs
    · refine ((setFrom_sends httpurl seeds).mono ?_).bind fun rc => .ask (fun off => rfl) fun r => ?_
      · rintro c ⟨off, rfl⟩ off'
        rfl
      · cases r <;> exact .done _
    · exact .done _

section

variable (gumboGetAttribute : List GumboAttribute → CStr → Option GumboAttribute)
  (workProcesses : UInt32)

theorem searchForLinks_keepsBits (node : GumboNode) :
    (searchForLinks gumboGetAttribute workProcesses node).Sends KeepsBits :=
  searchForLinks_rule gumboGetAttribute workProcesses (Prog.Sends.closed KeepsBits)
    (visitLink_keepsBits workProcesses) node

end

/-! ## Appends of several workers -/

section

variable {ι : Type} [DecidableEq ι]
  (gumboGetAttribute : List GumboAttribute → CStr → Option GumboAttribute) (workProcesses : UInt32)

/-- Workers that have started up, each with the pages it is to search. -/
def crawling (pages : ι → List GumboNode) :
    System (Shared ι GumboNode Command Reply (Option Unit) Redis) ι :=
  workers (linkProcs gumboGetAttribute workProcesses) pages

/-- The URLs appended, in order. -/
def appended (log : Log ι GumboNode (Option Unit)) : List CStr :=
  log.filterMap fun e =>
    match e.2 with
    | .cmd (.rpush _ url) _ => some url
    | _ => none

/-- Where two appends of one URL stand in the log, they are by different workers, and the later one's
worker has read a bit of the URL as 0, for this append, before the other one set that bit. -/
def OnlyOverlapping (log : Log ι GumboNode (Option Unit)) : Prop :=
  ∀ w w' key key' url r r' log₁ log₂ log₃,
    log = log₁ ++ (w, .cmd (.rpush key url) r) :: (log₂ ++ (w', .cmd (.rpush key' url) r') :: log₃) →
    w ≠ w' ∧ ∃ off ∈ offsets url, ∃ before after,
      log₁ = before ++ (w', .cmd (.getbit bloomFilter off) (.integer 0)) :: after ∧
      (∃ r, (w, .cmd (.setbit bloomFilter off true) r) ∈ after) ∧
      ∀ key url r, (w', .cmd (.rpush key url) r) ∉ after ++ log₂

variable {gumboGetAttribute workProcesses} {pages : ι → List GumboNode}
  {s u : Shared ι GumboNode Command Reply (Option Unit) Redis} {as : List ι}

/-- Nothing that a crawling worker sends clears a bit, so the log stays faithful. -/
theorem crawling_faithful (hinit : (crawling gumboGetAttribute workProcesses pages).init s)
    (hr : Run (crawling gumboGetAttribute workProcesses pages) s as u) : Faithful u.store u.log := by
  refine (hr.invariant (P := fun u => Faithful u.store u.log ∧
    ∀ w, Follows (linkProcs gumboGetAttribute workProcesses) (pages w) (own w u.log) (u.worker w))
    ?_ ?_).1
  · rw [hinit.1, hinit.2]
    exact ⟨.nil _, fun _ => .nil⟩
  · intro t w v ht _ hn
    refine ⟨ht.1.next rfl ?_ hn, follows_next ht.2 hn⟩
    intro c hc off _
    have hw := ht.2 w
    generalize t.worker w = wk at hw hc
    rcases wk with _ | ⟨x, (a | ⟨c', next⟩), calls⟩
    · cases hc
    · cases hc
    · cases hc
      obtain ⟨t₀, m, -, hm⟩ := hw.busy
      exact (searchForLinks_keepsBits gumboGetAttribute workProcesses x).next hm off

/-- What stands in the log before an append: the bit that was read as 0, then all bits set. -/
theorem before_push (hinit : (crawling gumboGetAttribute workProcesses pages).init s)
    (hr : Run (crawling gumboGetAttribute workProcesses pages) s as u) {w : ι} {key url : CStr}
    {r : Reply} {log₁ log₂ : Log ι GumboNode (Option Unit)}
    (hlog : u.log = log₁ ++ (w, .cmd (.rpush key url) r) :: log₂) :
    ∃ before off after,
      log₁ = before ++ (w, .cmd (.getbit bloomFilter off) (.integer 0)) :: after ∧
      off ∈ offsets url ∧
      (∀ off ∈ offsets url, ∃ r, (w, .cmd (.setbit bloomFilter off true) r) ∈ after) ∧
      ∀ key url r, (w, .cmd (.rpush key url) r) ∉ after := by
  have htrace : own w u.log = own w log₁ ++ .cmd (.rpush key url) r :: own w log₂ := by
    rw [hlog, own_append, own_cons_self]
  obtain ⟨x, t₀, m, p, hown, hpath⟩ := (reachable_follows hinit hr w).before_cmd htrace
  have hok : AllAnswered (m ++ [(.rpush key url, r)]) := by
    refine (crawling_faithful hinit hr).allAnswered (w := w) fun e he => ?_
    rw [htrace, hown, List.append_assoc, List.cons_append]
    refine List.mem_append_right _ (List.mem_cons_of_mem _ ?_)
    rw [cmds_append] at he
    rcases List.mem_append.mp he with he | he
    · exact List.mem_append_left _ he
    · rw [List.mem_singleton.mp he]
      exact List.mem_append_right _ List.mem_cons_self
  obtain ⟨ta, off, tb, rfl, hoff, hset, hnone⟩ :=
    searchForLinks_guarded gumboGetAttribute workProcesses x _ p hpath hok m key url r [] rfl
  have hown' : own w log₁ =
      (t₀ ++ .call x :: cmds ta) ++ .cmd (.getbit bloomFilter off) (.integer 0) :: cmds tb := by
    rw [hown, cmds_append, List.append_assoc, List.cons_append]
    rfl
  obtain ⟨before, after, rfl, -, hafter⟩ := own_eq_append_cons hown'
  refine ⟨before, off, after, rfl, hoff, fun off' hoff' => ?_, fun key' url' r' hm => ?_⟩
  · obtain ⟨r', hr'⟩ := hset off' hoff'
    exact ⟨r', by rw [← mem_own_iff, hafter, mem_cmds_iff]; exact hr'⟩
  · rw [← mem_own_iff, hafter, mem_cmds_iff] at hm
    exact hnone _ hm key' url' rfl

/-- In every reachable state, a worker has appended a URL at most once, and two workers have only where
their checks and marks overlapped. -/
theorem reachable_overlap (hinit : (crawling gumboGetAttribute workProcesses pages).init s)
    (hr : Run (crawling gumboGetAttribute workProcesses pages) s as u) : OnlyOverlapping u.log := by
  intro w w' key key' url r r' log₁ log₂ log₃ hlog
  have hlog' : u.log =
      (log₁ ++ (w, .cmd (.rpush key url) r) :: log₂) ++ (w', .cmd (.rpush key' url) r') :: log₃ := by
    rw [hlog, List.append_assoc, List.cons_append]
  obtain ⟨b₁, off₁, after₁, hlog₁, -, hset, -⟩ := before_push hinit hr hlog
  obtain ⟨before, off, after, hread, hoff, -, hnone⟩ := before_push hinit hr hlog'
  -- the earlier append has set the bit that the later one has read as 0
  obtain ⟨r₁, hr₁⟩ := hset off hoff
  have hmark : (w, .cmd (.setbit bloomFilter off true) r₁) ∈ log₁ := by
    rw [hlog₁]
    exact List.mem_append_right _ (List.mem_cons_of_mem _ hr₁)
  have hunset : off ∉ marks before :=
    (crawling_faithful hinit hr).reads before w' off (after ++ (w', .cmd (.rpush key' url) r') :: log₃)
      (by rw [hlog', hread, List.append_assoc, List.cons_append])
  -- so the read comes first
  have hlater : ∀ more, before ≠ log₁ ++ more := by
    rintro more rfl
    rw [marks_append] at hunset
    exact hunset (List.mem_append_left _ (mem_marks_iff.mpr ⟨w, r₁, hmark⟩))
  rcases List.append_eq_append_iff.mp hread with ⟨more, hbefore, -⟩ | ⟨more, rfl, hmore⟩
  · exact absurd hbefore (hlater more)
  · cases more with
    | nil => exact absurd (by simp) (hlater [])
    | cons e more =>
        obtain ⟨rfl, rfl⟩ := List.cons.inj hmore
        have hne : w ≠ w' := by
          rintro rfl
          exact hnone key url r (List.mem_append_right _ List.mem_cons_self)
        refine ⟨hne, off, hoff, before, more, rfl, ⟨r₁, ?_⟩, fun key url r hm => ?_⟩
        · rcases List.mem_append.mp hmark with hm | hm
          · exact absurd (mem_marks_iff.mpr ⟨w, r₁, hm⟩) hunset
          · rcases List.mem_cons.mp hm with heq | hm
            · cases heq
            · exact hm
        · rcases List.mem_append.mp hm with hm | hm
          · exact hnone key url r (List.mem_append_left _ hm)
          · exact hnone key url r (List.mem_append_right _ (List.mem_cons_of_mem _ hm))

end

/-! ## Two workers on one page -/

/-- An attribute of the given name. -/
def attributeNamed (attributes : List GumboAttribute) (name : CStr) : Option GumboAttribute :=
  attributes.find? fun a => a.name = name

/-- A page with one link into the forum. -/
def threadPage : GumboNode :=
  .element .a [⟨lit "href", lit "http://bbs.dgtle.com/thread-1"⟩] []

/-- Two workers, `false` and `true`, that have found the same page. -/
def threadPages : Bool → List GumboNode := fun _ => [threadPage]

/-- The two workers over an empty redis. -/
def threadStart : Shared Bool GumboNode Command Reply (Option Unit) Redis where
  store := { strings := fun _ _ => false, lists := fun _ => [] }
  worker := fun w => .idle (threadPages w)
  log := []

theorem threadStart_init : (crawling attributeNamed 2 threadPages).init threadStart := ⟨rfl, rfl⟩

/-- Both read a bit as 0 before either has set any; then one after the other sets and appends. -/
def bothCheck : List Bool :=
  [false, false, true, true] ++ List.replicate 10 false ++ List.replicate 10 true

theorem bothCheck_run : ∃ u, Run (crawling attributeNamed 2 threadPages) threadStart bothCheck u ∧
    appended u.log = [lit "http://bbs.dgtle.com/thread-1", lit "http://bbs.dgtle.com/thread-1"] := by
  have hplay : ∃ u, (crawling attributeNamed 2 threadPages).play threadStart bothCheck = some u ∧
      appended u.log =
        [lit "http://bbs.dgtle.com/thread-1", lit "http://bbs.dgtle.com/thread-1"] := by
    refine ⟨_, rfl, ?_⟩
    decide +kernel
  obtain ⟨u, hu, hlog⟩ := hplay
  exact ⟨u, run_of_play (fun _ _ => trivial) hu, hlog⟩

theorem reachable_overlap_bothCheck : ∃ u,
    Run (crawling attributeNamed 2 threadPages) threadStart bothCheck u ∧ OnlyOverlapping u.log := by
  obtain ⟨u, hrun, -⟩ := bothCheck_run
  exact ⟨u, hrun, reachable_overlap threadStart_init hrun⟩

/-- The same link is appended twice. -/
theorem bothCheck_not_nodup :
    ¬ ∀ (pages : Bool → List GumboNode) s as u, (crawling attributeNamed 2 pages).init s →
      Run (crawling attributeNamed 2 pages) s as u → (appended u.log).Nodup := by
  intro hclaim
  obtain ⟨u, hrun, hlog⟩ := bothCheck_run
  have hnodup := hclaim threadPages threadStart bothCheck u threadStart_init hrun
  rw [hlog] at hnodup
  exact absurd hnodup (by decide)

end Crawler.Html
