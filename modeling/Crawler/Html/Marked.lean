/-
# Crawler.Html.Marked — links marked as visited, and whether they were queued

One call of `search_for_links` over a redis that may fail any command: by an error reply, which leaves
`ctx->err` at 0, or by a lost connection, after which the command may have been executed or not. A
link is marked by the nine SETBITs of `bloom_set` and queued by one RPUSH. Which link is marked the
commands do not say, as two links may have their bits in common: the log of the calls does
(`searchForLinks_logs`). Behind every call of `bloom_set` in it comes the append of the same link
(`searchCalls_setsPushed`). When that is lost the marks stay, and no later command of the call can queue
the link: its bits are never cleared, so `bloom_check` answers 1, or -1, from then on (`Once`).
-/
import Crawler.Html.Links

namespace Crawler.Html

open Crawler.Lib Crawler.Bloom

/-! ## Redis with faults -/

/-- What becomes of a command. After a lost connection it may have been `applied`. -/
inductive Outcome where
  | success
  | connectionFailure (applied : Bool)
  | errorReply
  deriving DecidableEq, Repr

/-- The command takes effect. -/
def Outcome.effective : Outcome → Bool
  | .success => true
  | .connectionFailure applied => applied
  | .errorReply => false

/-- Redis under a command with this outcome, and what `redisCommand` hands back. -/
def Redis.respond (s : Redis) (c : Command) (o : Outcome) : Redis × Reply :=
  match o with
  | .success => s.exec c
  | .connectionFailure applied => (if applied then (s.exec c).1 else s, .failed)
  | .errorReply => (s, .other)

/-- The commands of a call, with their outcomes, oldest first. -/
abbrev Trace := List (Command × Outcome)

/-! ## Marked and queued -/

section

variable (workProcesses : UInt32)

/-- The list a URL is queued in. -/
def listOf (url : CStr) : CStr := urlListKey (murmurHash3X86_32 url hashSeed % workProcesses)

/-- The nine SETBITs of `bloom_set(url)`, all taking effect. -/
def IsMarking (url : CStr) (t : Trace) : Prop :=
  t.map Prod.fst = (offsets url).map (fun off => .setbit bloomFilter off true) ∧
    ∀ x ∈ t, x.2.effective = true

/-- An RPUSH of the URL to its list took effect. -/
def Queued (t : Trace) (url : CStr) : Prop :=
  ∃ o, (.rpush (listOf workProcesses url) url, o) ∈ t ∧ o.effective = true

end

/-! ## The calls of the search -/

/-- The functions that `search_for_links` calls for a link. -/
inductive Call where
  | bloomCheck (url : CStr)
  | bloomSet (url : CStr)
  | listRpush (key url : CStr)
  deriving DecidableEq, Repr

/-- What a call runs. -/
def Call.body : Call → Prog Command Reply Int
  | .bloomCheck url => Bloom.bloomCheck url
  | .bloomSet url => Bloom.bloomSet url
  | .listRpush key url => redisListRpush key url

/-- The calls for a link that is to be followed. -/
def visitCalls (workProcesses : UInt32) (httpurl : CStr) : Prog Call Int Int := do
  let seen ← Prog.send (.bloomCheck httpurl)
  if seen = 0 then
    let _ ← Prog.send (.bloomSet httpurl)
    Prog.send (.listRpush (listOf workProcesses httpurl) httpurl)
  else return 0

/-- The calls of `search_for_links(node)`. -/
def searchCalls (gumboGetAttribute : List GumboAttribute → CStr → Option GumboAttribute)
    (workProcesses : UInt32) (node : GumboNode) : Prog Call Int (Option Unit) :=
  searchWith gumboGetAttribute (visitCalls workProcesses) node

/-- The calls, each with the commands it has sent and their outcomes, oldest first. -/
abbrev CallLog := List (Call × Trace)

/-- The commands of all calls. -/
def traceOf (log : CallLog) : Trace := log.flatMap Prod.snd

section

variable (workProcesses : UInt32)

/-- `bloom_set(url)` was executed, with all nine SETBITs taking effect. -/
def Marked (log : CallLog) (url : CStr) : Prop := ∃ t, (.bloomSet url, t) ∈ log ∧ IsMarking url t

/-- Every URL that was marked was queued. -/
def MarkedQueued (log : CallLog) : Prop :=
  ∀ url, Marked log url → Queued workProcesses (traceOf log) url

/-- After the nine SETBITs of a URL took effect, what the next call sends does so too, unless the URL was
queued before. -/
def NextTakesEffect (log : CallLog) : Prop :=
  ∀ before url marking next after, log = before ++ (.bloomSet url, marking) :: next :: after →
    IsMarking url marking →
    (∀ x ∈ next.2, x.2.effective = true) ∨ Queued workProcesses (traceOf before) url

end

/-- What is called runs in its place. -/
theorem visitCalls_expand (workProcesses : UInt32) (httpurl : CStr) :
    (visitCalls workProcesses httpurl).expand Call.body = visitLink workProcesses httpurl := by
  rw [visitCalls, visitLink, Prog.expand_bind, Prog.expand_send]
  congr 1
  funext seen
  split_ifs
  · rw [Prog.expand_bind, Prog.expand_send]
    congr 1
    funext rc
    exact Prog.expand_send _ _
  · rfl

section

variable (gumboGetAttribute : List GumboAttribute → CStr → Option GumboAttribute)

section

variable {κ ρ κ' ρ' : Type} (body : κ' → Prog κ ρ ρ') (visit : CStr → Prog κ' ρ' Int)

mutual

theorem searchWith_expand (node : GumboNode) :
    (searchWith gumboGetAttribute visit node).expand body =
      searchWith gumboGetAttribute (fun url => (visit url).expand body) node := by
  cases node with
  | text _ => rfl
  | other => rfl
  | element tag attributes children =>
      have hchildren := searchChildrenWith_expand children
      unfold searchWith
      cases linkOf gumboGetAttribute tag attributes with
      | none => exact hchildren
      | some href =>
          by_cases hlen : href.length < 1024
          · simp only [if_pos hlen, Prog.expand_bind]
            congr 1
            funext rc
            split_ifs
            · rfl
            · exact hchildren
          · simp only [if_neg hlen]
            rfl

theorem searchChildrenWith_expand (nodes : List GumboNode) :
    (searchChildrenWith gumboGetAttribute visit nodes).expand body =
      searchChildrenWith gumboGetAttribute (fun url => (visit url).expand body) nodes := by
  cases nodes with
  | nil => rfl
  | cons node nodes =>
      unfold searchChildrenWith
      rw [Prog.expand_bind, searchWith_expand node]
      congr 1
      funext r
      cases r with
      | none => rfl
      | some _ => exact searchChildrenWith_expand nodes

end

end

variable (workProcesses : UInt32)

/-- A run of the search has a log of its calls. -/
theorem searchForLinks_logs {node : GumboNode} {s s' : Redis} {t : Trace} {r : Option Unit} :
    (searchForLinks gumboGetAttribute workProcesses node).Plays Redis.respond s t s' r ↔
      ∃ log, (searchCalls gumboGetAttribute workProcesses node).Logs Call.body Redis.respond s log s' r ∧
        t = traceOf log := by
  have hexpand : (searchCalls gumboGetAttribute workProcesses node).expand Call.body =
      searchForLinks gumboGetAttribute workProcesses node := by
    rw [searchCalls, searchWith_expand, funext (visitCalls_expand workProcesses)]
    rfl
  rw [← hexpand, Prog.plays_expand_iff]
  rfl

end

/-! ## The bits -/

/-- All bits of the URL are set. -/
def AllSet (s : Redis) (url : CStr) : Prop := ∀ off ∈ offsets url, s.strings bloomFilter off = true

/-- A command that clears no bit leaves the bits that are set, whatever its outcome. -/
theorem respond_keeps {c : Command} (hc : KeepsBits c) {s : Redis} {off : UInt32} (o : Outcome)
    (h : s.strings bloomFilter off = true) : (Redis.respond s c o).1.strings bloomFilter off = true := by
  have hexec := exec_keeps (hc off) h
  cases o with
  | success => exact hexec
  | connectionFailure applied =>
      cases applied with
      | true => exact hexec
      | false => exact h
  | errorReply => exact h

theorem replay_keeps {t : Trace} (ht : ∀ x ∈ t, KeepsBits x.1) {s : Redis} {off : UInt32}
    (h : s.strings bloomFilter off = true) :
    (Prog.replay Redis.respond s t).strings bloomFilter off = true := by
  induction t generalizing s with
  | nil => exact h
  | cons x t ih => exact ih (fun y hy => ht y (by simp [hy])) (respond_keeps (ht x (by simp)) x.2 h)

/-- An effective SETBIT sets its bit. -/
theorem respond_setbit (s : Redis) (off : UInt32) {o : Outcome} (ho : o.effective = true) :
    (Redis.respond s (.setbit bloomFilter off true) o).1.strings bloomFilter off = true := by
  cases o with
  | success => simp [Redis.respond, Redis.exec]
  | connectionFailure applied =>
      obtain rfl : applied = true := ho
      simp [Redis.respond, Redis.exec]
  | errorReply => cases ho

/-- After the marking of a URL all its bits are set. -/
theorem IsMarking.allSet {url : CStr} {t : Trace} (h : IsMarking url t) (s : Redis) :
    AllSet (Prog.replay Redis.respond s t) url := by
  intro off hoff
  have hsets : ∀ x ∈ t, KeepsBits x.1 := by
    intro x hx
    have hm := List.mem_map_of_mem (f := Prod.fst) hx
    rw [h.1] at hm
    obtain ⟨off', -, hc⟩ := List.mem_map.mp hm
    rw [← hc]
    exact fun _ => rfl
  have hmem : Command.setbit bloomFilter off true ∈ t.map Prod.fst := by
    rw [h.1]
    exact List.mem_map_of_mem hoff
  obtain ⟨⟨c, o⟩, hx, rfl⟩ := List.mem_map.mp hmem
  obtain ⟨before, after, rfl⟩ := List.append_of_mem hx
  rw [Prog.replay_append, Prog.replay_cons]
  exact replay_keeps (fun y hy => hsets y (by simp [hy]))
    (respond_setbit (Prog.replay Redis.respond s before) off (h.2 _ hx))

/-! ## The search finds what was marked -/

/-- The command appends the URL somewhere. -/
def Pushes (url : CStr) (c : Command) : Prop := ∃ key, c = .rpush key url

/-- Where all bits of the URL are set, the program does not append it. -/
def Quiet (url : CStr) {α : Type} (p : Prog Command Reply α) : Prop :=
  ∀ s t s' a, p.Plays Redis.respond s t s' a → AllSet s url → ∀ x ∈ t, ¬ Pushes url x.1

/-- Once all bits of the URL are set at an append of it, the program does not append it again. -/
def Once (url : CStr) {α : Type} (p : Prog Command Reply α) : Prop :=
  ∀ s t s' a, p.Plays Redis.respond s t s' a → ∀ before x after, t = before ++ x :: after →
    Pushes url x.1 → AllSet (Prog.replay Redis.respond s before) url → ∀ y ∈ after, ¬ Pushes url y.1

theorem Quiet.of_sends {url : CStr} {α : Type} {p : Prog Command Reply α}
    (h : p.Sends fun c => ¬ Pushes url c) : Quiet url p :=
  fun _ _ _ _ hp _ => h.plays hp

theorem Once.of_sends {url : CStr} {α : Type} {p : Prog Command Reply α}
    (h : p.Sends fun c => ¬ Pushes url c) : Once url p := by
  rintro s t s' a hp before x after rfl - - y hy
  exact h.plays hp y (by simp [hy])

theorem NoPush.not_pushes {c : Command} (h : NoPush c) (url : CStr) : ¬ Pushes url c := by
  rintro ⟨key, rfl⟩
  exact h key url rfl

theorem Quiet.bind {url : CStr} {α β : Type} {p : Prog Command Reply α}
    {f : α → Prog Command Reply β} (hkeeps : p.Sends KeepsBits) (hp : Quiet url p)
    (hf : ∀ a, Quiet url (f a)) : Quiet url (p >>= f) := by
  intro s t s' b h hset
  obtain ⟨t₁, t₂, s₁, a, rfl, hp', hf'⟩ := Prog.plays_bind_iff.mp h
  have hset₁ : AllSet s₁ url := by
    intro off hoff
    rw [hp'.state_eq]
    exact replay_keeps (hkeeps.plays hp') (hset off hoff)
  intro x hx
  rcases List.mem_append.mp hx with hx | hx
  · exact hp s t₁ s₁ a hp' hset x hx
  · exact hf a s₁ t₂ s' b hf' hset₁ x hx

/-- The append in a sequence stands in the first part, with the second part behind it, or in the
second. -/
theorem split_append {β : Type} {t₁ t₂ before after : List β} {x : β}
    (h : t₁ ++ t₂ = before ++ x :: after) :
    (∃ more, t₁ = before ++ x :: more ∧ after = more ++ t₂) ∨
      ∃ more, before = t₁ ++ more ∧ t₂ = more ++ x :: after := by
  rcases List.append_eq_append_iff.mp h with ⟨more, hbefore, h₂⟩ | ⟨more, h₁, hmore⟩
  · exact .inr ⟨more, hbefore, h₂⟩
  · cases more with
    | nil => exact .inr ⟨[], by simpa using h₁.symm, by simpa using hmore.symm⟩
    | cons y more =>
        obtain ⟨rfl, rfl⟩ := List.cons.inj hmore
        exact .inl ⟨more, h₁, rfl⟩

theorem Once.bind_of_sends {url : CStr} {α β : Type} {p : Prog Command Reply α}
    {f : α → Prog Command Reply β} (hp : p.Sends fun c => ¬ Pushes url c)
    (hf : ∀ a, Once url (f a)) : Once url (p >>= f) := by
  intro s t s' b h before x after ht hx hset
  obtain ⟨t₁, t₂, s₁, a, rfl, hp', hf'⟩ := Prog.plays_bind_iff.mp h
  rcases split_append ht with ⟨more, rfl, -⟩ | ⟨more, rfl, h₂⟩
  · exact absurd hx (hp.plays hp' x (by simp))
  · rw [Prog.replay_append, ← hp'.state_eq] at hset
    exact hf a s₁ t₂ s' b hf' more x after h₂ hx hset

/-- In a sequence, an append in the first part leaves all bits set for the second. -/
theorem Once.bind {url : CStr} {α β : Type} {p : Prog Command Reply α}
    {f : α → Prog Command Reply β} (hkeeps : p.Sends KeepsBits) (hp : Once url p)
    (hf : ∀ a, Once url (f a)) (hquiet : ∀ a, Quiet url (f a)) : Once url (p >>= f) := by
  intro s t s' b h before x after ht hx hset
  obtain ⟨t₁, t₂, s₁, a, rfl, hp', hf'⟩ := Prog.plays_bind_iff.mp h
  have hs₁ : s₁ = Prog.replay Redis.respond s t₁ := hp'.state_eq
  rcases split_append ht with ⟨more, rfl, rfl⟩ | ⟨more, rfl, h₂⟩
  · have hset₁ : AllSet s₁ url := by
      intro off hoff
      rw [hs₁, Prog.replay_append]
      exact replay_keeps (fun z hz => hkeeps.plays hp' z (by simp [hz])) (hset off hoff)
    intro z hz
    rcases List.mem_append.mp hz with hz | hz
    · exact hp s _ s₁ a hp' before x more rfl hx hset z hz
    · exact hquiet a s₁ t₂ s' b hf' hset₁ z hz
  · rw [Prog.replay_append, ← hs₁] at hset
    exact hf a s₁ t₂ s' b hf' more x after h₂ hx hset

/-! ## One visit -/

/-- Reading a bit that is set: 1, or a failure. -/
theorem getbit_plays {str : CStr} {off : UInt32} {s s' : Redis} {t : Trace} {r : Int × UInt32}
    (h : (redisStringGetbit str off).Plays Redis.respond s t s' r) (hset : s.strings str off = true) :
    s' = s ∧ (r.1 < 0 ∨ r = (0, 1)) := by
  obtain ⟨o, t', rfl, hdone⟩ := Prog.plays_ask_iff.mp h
  have hsame : (Redis.respond s (.getbit str off) o).1 = s := by
    cases o with
    | success => rfl
    | connectionFailure applied => cases applied <;> rfl
    | errorReply => rfl
  rw [hsame] at hdone
  cases o with
  | success =>
      simp only [Redis.respond, Redis.exec, bitReply, hset, if_true] at hdone
      obtain ⟨-, rfl, rfl⟩ := Prog.plays_done_iff.mp hdone
      exact ⟨rfl, .inr rfl⟩
  | connectionFailure applied =>
      obtain ⟨-, rfl, rfl⟩ := Prog.plays_done_iff.mp hdone
      exact ⟨rfl, .inl (by decide)⟩
  | errorReply =>
      obtain ⟨-, rfl, rfl⟩ := Prog.plays_done_iff.mp hdone
      exact ⟨rfl, .inl (by decide)⟩

/-- A URL whose bits are all set is never reported as new. -/
theorem bloomCheck_ne_zero {url : CStr} {s s' : Redis} {t : Trace} {rc : Int}
    (h : (bloomCheck url).Plays Redis.respond s t s' rc) (hset : AllSet s url) : rc ≠ 0 := by
  have hloop : ∀ (seeds : List UInt32) (s : Redis) (t : Trace),
      (∀ seed ∈ seeds, s.strings bloomFilter (murmurHash3X86_32 url seed) = true) →
      (checkFrom url seeds).Plays Redis.respond s t s' rc → rc ≠ 0 := by
    intro seeds
    induction seeds with
    | nil =>
        intro s t _ h
        obtain ⟨-, -, rfl⟩ := Prog.plays_done_iff.mp h
        decide
    | cons seed seeds ih =>
        intro s t hbits h
        obtain ⟨t₁, t₂, s₁, r, -, hget, hrest⟩ := Prog.plays_bind_iff.mp h
        obtain ⟨rfl, hfail | rfl⟩ := getbit_plays hget (hbits seed (by simp))
        · rw [if_pos hfail] at hrest
          obtain ⟨-, -, rfl⟩ := Prog.plays_done_iff.mp hrest
          decide
        · -- the bit is set, so the loop goes on
          exact ih s₁ t₂ (fun seed' hm => hbits seed' (by simp [hm])) hrest
  exact hloop seeds s t (fun seed hm => hset _ (List.mem_map_of_mem hm)) h

section

variable (workProcesses : UInt32) (httpurl url : CStr)

theorem redisListRpush_sends (key : CStr) :
    (redisListRpush key httpurl).Sends fun c => c = .rpush key httpurl := by
  refine .ask rfl fun r => ?_
  cases r <;> exact .done _

/-- An append is one command. -/
theorem redisListRpush_plays {key value : CStr} {s s' : Redis} {t : Trace} {rc : Int}
    (h : (redisListRpush key value).Plays Redis.respond s t s' rc) :
    ∃ o, t = [(.rpush key value, o)] := by
  obtain ⟨o, t', rfl, hret⟩ := Prog.plays_ask_iff.mp h
  have hnil : t' = [] := by
    revert hret
    generalize (Redis.respond s _ o).2 = r
    cases r <;> exact fun hret => (Prog.plays_done_iff.mp hret).1
  exact ⟨o, by rw [hnil]⟩

/-- A visit appends its own link only. -/
theorem visitLink_sends :
    (visitLink workProcesses httpurl).Sends
      fun c => NoPush c ∨ c = .rpush (listOf workProcesses httpurl) httpurl := by
  refine ((bloomCheck_noPush httpurl).mono fun _ => Or.inl).bind fun seen => ?_
  split_ifs
  · refine ((bloomSet_noPush httpurl).mono fun _ => Or.inl).bind fun rc => ?_
    exact (redisListRpush_sends httpurl _).mono fun _ => Or.inr
  · exact .done _

theorem visitLink_quiet : Quiet url (visitLink workProcesses httpurl) := by
  by_cases hurl : httpurl = url
  · -- the check of a link whose bits are set does not let it through
    subst hurl
    intro s t s' rc h hset
    obtain ⟨t₁, t₂, s₁, seen, rfl, hcheck, hrest⟩ := Prog.plays_bind_iff.mp h
    rw [if_neg (bloomCheck_ne_zero hcheck hset)] at hrest
    obtain ⟨rfl, -⟩ := Prog.plays_done_iff.mp hrest
    intro x hx
    rw [List.append_nil] at hx
    exact ((bloomCheck_noPush httpurl).plays hcheck x hx).not_pushes httpurl
  · refine Quiet.of_sends ((visitLink_sends workProcesses httpurl).mono ?_)
    rintro c (hc | rfl)
    · exact hc.not_pushes url
    · rintro ⟨key, hkey⟩
      cases hkey
      exact hurl rfl

/-- The append is the last command of a visit. -/
theorem visitLink_once : Once url (visitLink workProcesses httpurl) := by
  have hcheck : (bloomCheck httpurl).Sends fun c => ¬ Pushes url c :=
    (bloomCheck_noPush httpurl).mono fun _ hc => hc.not_pushes url
  have hset : (bloomSet httpurl).Sends fun c => ¬ Pushes url c :=
    (bloomSet_noPush httpurl).mono fun _ hc => hc.not_pushes url
  refine Once.bind_of_sends hcheck fun seen => ?_
  split_ifs
  · refine Once.bind_of_sends hset fun rc => ?_
    intro s t s' rc' h before x after ht _ _
    obtain ⟨o, rfl⟩ := redisListRpush_plays h
    cases before with
    | nil =>
        obtain ⟨-, rfl⟩ := List.cons.inj ht
        exact fun y hy => absurd hy List.not_mem_nil
    | cons z before => exact absurd (congrArg List.length ht) (by simp)
  · exact Once.of_sends (.done _)

end

/-! ## The whole call -/

section

variable (gumboGetAttribute : List GumboAttribute → CStr → Option GumboAttribute)
  (workProcesses : UInt32)

/-- After an append of a URL whose bits were all set by then, the call does not append it again. -/
theorem searchForLinks_once (url : CStr) (node : GumboNode) :
    Once url (searchForLinks gumboGetAttribute workProcesses node) := by
  let P : ∀ α, Prog Command Reply α → Prop := fun _ p =>
    p.Sends KeepsBits ∧ Quiet url p ∧ Once url p
  have hP : Prog.Closed P := by
    refine ⟨fun a => ⟨.done a, .of_sends (.done a), .of_sends (.done a)⟩, ?_⟩
    rintro α β p f ⟨hkeeps, hquiet, honce⟩ hf
    exact ⟨hkeeps.bind fun a => (hf a).1, hquiet.bind hkeeps fun a => (hf a).2.1,
      honce.bind hkeeps (fun a => (hf a).2.2) fun a => (hf a).2.1⟩
  exact (searchForLinks_rule gumboGetAttribute workProcesses hP (fun httpurl =>
    ⟨visitLink_keepsBits workProcesses httpurl, visitLink_quiet workProcesses httpurl url,
      visitLink_once workProcesses httpurl url⟩) node).2.2

/-- Every append goes to the list of its URL. -/
theorem searchForLinks_sends (node : GumboNode) :
    (searchForLinks gumboGetAttribute workProcesses node).Sends
      fun c => ∀ key url, c = .rpush key url → key = listOf workProcesses url := by
  refine searchForLinks_rule gumboGetAttribute workProcesses (Prog.Sends.closed _) (fun httpurl =>
    (visitLink_sends workProcesses httpurl).mono ?_) node
  rintro c (hc | rfl) key url h
  · exact absurd h (hc key url)
  · cases h
    rfl

/-! ## Behind every marking an append -/

/-- Behind every call of `bloom_set` comes the append of the same URL to its list. -/
def SetsPushed (log : CallLog) : Prop :=
  ∀ before url t after, log = before ++ (.bloomSet url, t) :: after →
    ∃ o after', after = (.listRpush (listOf workProcesses url) url,
      [(.rpush (listOf workProcesses url) url, o)]) :: after'

variable {workProcesses}

theorem SetsPushed.append {log log' : CallLog} (h : SetsPushed workProcesses log)
    (h' : SetsPushed workProcesses log') : SetsPushed workProcesses (log ++ log') := by
  intro before url t after hsplit
  rcases split_append hsplit with ⟨more, hlog, rfl⟩ | ⟨more, -, hlog'⟩
  · obtain ⟨o, after', rfl⟩ := h before url t more hlog
    exact ⟨o, after' ++ log', rfl⟩
  · exact h' more url t after hlog'

variable (workProcesses)

/-- A link that is marked is appended by the next call. -/
theorem visitCalls_setsPushed (httpurl : CStr) {s s' : Redis} {log : CallLog} {rc : Int}
    (h : (visitCalls workProcesses httpurl).Logs Call.body Redis.respond s log s' rc) :
    SetsPushed workProcesses log := by
  obtain ⟨log₁, log₂, s₁, seen, rfl, hcheck, hrest⟩ := Prog.logs_bind_iff.mp h
  obtain ⟨checks, rfl, -⟩ := Prog.logs_send_iff.mp hcheck
  intro before url t after hsplit
  by_cases hseen : seen = 0
  · rw [if_pos hseen] at hrest
    obtain ⟨log₃, log₄, s₂, set, rfl, hset, hpush⟩ := Prog.logs_bind_iff.mp hrest
    obtain ⟨marking, rfl, -⟩ := Prog.logs_send_iff.mp hset
    obtain ⟨push, rfl, hplays⟩ := Prog.logs_send_iff.mp hpush
    obtain ⟨o, rfl⟩ := redisListRpush_plays hplays
    rcases before with _ | ⟨x, _ | ⟨y, _ | ⟨z, before⟩⟩⟩
    · cases hsplit
    · cases hsplit
      exact ⟨o, [], rfl⟩
    · cases hsplit
    · exact absurd (congrArg List.length hsplit) (by simp)
  · -- a link seen before is not marked
    rw [if_neg hseen] at hrest
    obtain ⟨rfl, -, -⟩ := Prog.logs_done_iff.mp hrest
    rcases before with _ | ⟨x, before⟩
    · cases hsplit
    · exact absurd (congrArg List.length hsplit) (by simp)

theorem searchCalls_setsPushed {node : GumboNode} {s s' : Redis} {log : CallLog} {r : Option Unit}
    (h : (searchCalls gumboGetAttribute workProcesses node).Logs Call.body Redis.respond s log s' r) :
    SetsPushed workProcesses log := by
  let P : ∀ α, Prog Call Int α → Prop := fun α p =>
    ∀ s log s' (a : α), p.Logs Call.body Redis.respond s log s' a → SetsPushed workProcesses log
  have hP : Prog.Closed P := by
    refine ⟨fun a s log s' b h => ?_, fun hp hf s log s' b h => ?_⟩
    · obtain ⟨rfl, -, -⟩ := Prog.logs_done_iff.mp h
      intro before url t after hsplit
      exact absurd (congrArg List.length hsplit) (by simp)
    · obtain ⟨log₁, log₂, s₁, a, rfl, hp', hf'⟩ := Prog.logs_bind_iff.mp h
      exact (hp s log₁ s₁ a hp').append (hf a s₁ log₂ s' b hf')
  exact searchWith_rule gumboGetAttribute hP
    (fun url _ _ _ _ hvisit => visitCalls_setsPushed workProcesses url hvisit) node s log s' r h

/-- A run has a log, and every URL whose marking by `bloom_set` took effect in it was queued in it,
exactly when the command sent after each such marking takes effect or the URL was queued before. -/
theorem markedQueued_iff {node : GumboNode} {s s' : Redis} {t : Trace} {r : Option Unit}
    (h : (searchForLinks gumboGetAttribute workProcesses node).Plays Redis.respond s t s' r) :
    (∃ log, (searchCalls gumboGetAttribute workProcesses node).Logs Call.body Redis.respond s log s' r ∧
      t = traceOf log) ∧
    ∀ log, (searchCalls gumboGetAttribute workProcesses node).Logs Call.body Redis.respond s log s' r →
      t = traceOf log → (MarkedQueued workProcesses log ↔ NextTakesEffect workProcesses log) := by
  refine ⟨(searchForLinks_logs gumboGetAttribute workProcesses).mp h, fun log hlog ht => ⟨?_, ?_⟩⟩
  · rintro hq before url marking next after rfl hmark
    obtain ⟨o, after', hpushed⟩ := searchCalls_setsPushed gumboGetAttribute workProcesses hlog before url
      marking _ rfl
    cases hpushed
    have htrace : t = (traceOf before ++ marking) ++
        (.rpush (listOf workProcesses url) url, o) :: traceOf after := by
      rw [ht, traceOf, List.flatMap_append, List.flatMap_cons, List.flatMap_cons, List.append_assoc]
      rfl
    obtain ⟨o', hm, ho'⟩ := hq url ⟨marking, by simp, hmark⟩
    rw [← ht, htrace] at hm
    rcases List.mem_append.mp hm with hm | hm
    · rcases List.mem_append.mp hm with hm | hm
      · exact .inr ⟨o', hm, ho'⟩
      · -- the marking itself appends nothing
        have hsetbit := List.mem_map_of_mem (f := Prod.fst) hm
        rw [hmark.1] at hsetbit
        obtain ⟨off, -, heq⟩ := List.mem_map.mp hsetbit
        cases heq
    · rcases List.mem_cons.mp hm with heq | hm
      · cases heq
        exact .inl fun x hx => by rwa [List.mem_singleton.mp hx]
      · -- all bits of the URL are set by now, so it is not appended any more
        have hset : AllSet (Prog.replay Redis.respond s (traceOf before ++ marking)) url := by
          rw [Prog.replay_append]
          exact hmark.allSet _
        exact absurd ⟨_, rfl⟩ (searchForLinks_once gumboGetAttribute workProcesses url node s t s' r h
          (traceOf before ++ marking) _ (traceOf after) htrace ⟨_, rfl⟩ hset _ hm)
  · rintro hp url ⟨marking, hm, hmark⟩
    obtain ⟨before, after, rfl⟩ := List.append_of_mem hm
    obtain ⟨o, after', rfl⟩ := searchCalls_setsPushed gumboGetAttribute workProcesses hlog before url
      marking after rfl
    rw [traceOf, List.flatMap_append, List.flatMap_cons, List.flatMap_cons]
    rcases hp before url marking _ after' rfl hmark with hnext | ⟨o', hm', ho'⟩
    · exact ⟨o, by simp, hnext _ (List.mem_singleton.mpr rfl)⟩
    · exact ⟨o', List.mem_append_left _ hm', ho'⟩

end

/-! ## A lost append -/

/-- A redis that holds nothing. -/
def emptyRedis : Redis := { strings := fun _ _ => false, lists := fun _ => [] }

/-- The link of the page. -/
def threadUrl : CStr := lit "http://bbs.dgtle.com/thread-1"

/-- The link is new, is marked, and redis answers the append with an error. -/
def lostPush : CallLog :=
  [(.bloomCheck threadUrl, [(.getbit bloomFilter (murmurHash3X86_32 threadUrl 1999), .success)]),
    (.bloomSet threadUrl, (offsets threadUrl).map fun off => (.setbit bloomFilter off true, .success)),
    (.listRpush (listOf 2 threadUrl) threadUrl, [(.rpush (listOf 2 threadUrl) threadUrl, .errorReply)])]

theorem lostPush_logs : ∃ s', (searchCalls attributeNamed 2 threadPage).Logs Call.body Redis.respond
    emptyRedis lostPush s' (some ()) := by
  have hlink : linkOf attributeNamed .a [⟨lit "href", lit "http://bbs.dgtle.com/thread-1"⟩] =
      some threadUrl := by decide +kernel
  have hlen : threadUrl.length < 1024 := by decide +kernel
  have hvisit : ∃ s', (visitCalls 2 threadUrl).Logs Call.body Redis.respond emptyRedis lostPush s' 0 :=
    ⟨_, .ask (.ask .done) (.ask (.ask (.ask (.ask (.ask (.ask (.ask (.ask (.ask (.ask .done)))))))))
      (.ask (.ask .done) .done))⟩
  obtain ⟨s', hvisit⟩ := hvisit
  refine ⟨s', ?_⟩
  rw [threadPage, searchCalls, searchWith, hlink]
  simp only [if_pos hlen]
  exact Prog.logs_bind_iff.mpr ⟨lostPush, [], s', 0, rfl, hvisit, .done⟩

theorem markedQueued_iff_lostPush : MarkedQueued 2 lostPush ↔ NextTakesEffect 2 lostPush := by
  obtain ⟨s', hlogs⟩ := lostPush_logs
  exact (markedQueued_iff attributeNamed 2
    ((searchForLinks_logs attributeNamed 2).mpr ⟨lostPush, hlogs, rfl⟩)).2 lostPush hlogs rfl

/-- The call returns, the link is marked, and it is in no list. -/
theorem lostPush_not_markedQueued :
    (∃ s', (searchForLinks attributeNamed 2 threadPage).Plays Redis.respond emptyRedis
        (traceOf lostPush) s' (some ()) ∧
      (searchCalls attributeNamed 2 threadPage).Logs Call.body Redis.respond emptyRedis lostPush s'
        (some ())) ∧
      Marked lostPush threadUrl ∧ ¬ Queued 2 (traceOf lostPush) threadUrl ∧
      ¬ MarkedQueued 2 lostPush := by
  have hmarked : Marked lostPush threadUrl := by
    refine ⟨(offsets threadUrl).map fun off => (.setbit bloomFilter off true, .success), ?_, ?_, ?_⟩
    · exact List.mem_cons_of_mem _ List.mem_cons_self
    · rw [List.map_map]
      rfl
    · intro x hx
      obtain ⟨off, -, rfl⟩ := List.mem_map.mp hx
      rfl
  have htrace : traceOf lostPush =
      (.getbit bloomFilter (murmurHash3X86_32 threadUrl 1999), .success) ::
        ((offsets threadUrl).map (fun off => (.setbit bloomFilter off true, .success)) ++
          [(.rpush (listOf 2 threadUrl) threadUrl, .errorReply)]) := rfl
  have hlost : ¬ Queued 2 (traceOf lostPush) threadUrl := by
    rintro ⟨o, hm, ho⟩
    rw [htrace] at hm
    rcases List.mem_cons.mp hm with heq | hm
    · cases heq
    · rcases List.mem_append.mp hm with hm | hm
      · obtain ⟨off, -, heq⟩ := List.mem_map.mp hm
        cases heq
      · -- the only append is the one redis refused
        cases List.mem_singleton.mp hm
        cases ho
  obtain ⟨s', hlogs⟩ := lostPush_logs
  have hplays := (searchForLinks_logs attributeNamed 2).mpr ⟨lostPush, hlogs, rfl⟩
  exact ⟨⟨s', hplays, hlogs⟩, hmarked, hlost, fun h => hlost (h threadUrl hmarked)⟩

end Crawler.Html
