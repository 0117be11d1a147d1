/-
# Crawler.Html.Author — title, category, author and time of a page

`search_for_author` of `html_parser.c`. Four patterns are looked for, each an element with given ancestors,
the last of which has a given class. Where one fits, the first child of the element is read, and if it is
a text it is copied to an array of 1024 bytes. Neither is checked: that there is a child, and that the
text fits. So the search goes through exactly on the trees in which no pattern fits an element that is
empty or begins with a long text (`searchForAuthor_isSome_iff`).
-/
import Crawler.Html.Links

namespace Crawler.Html

/-! ## The patterns -/

/-- What is read of a node through `parent`. -/
structure Ancestor where
  tag : GumboTag
  attributes : List GumboAttribute
  deriving DecidableEq, Repr

/-- The four arrays of `parse_html`. -/
structure PageInfo where
  title : CStr := []
  category : CStr := []
  author : CStr := []
  timestamp : CStr := []
  deriving DecidableEq, Repr

/-- One `if` of `search_for_author`: the tags of a node and, upwards, of its ancestors, the class of the
last of them, which texts are wanted, and where they go. -/
structure AuthorRule where
  tag : GumboTag
  ancestors : List GumboTag
  className : CStr
  wants : CStr → Bool := fun _ => true
  store : PageInfo → CStr → PageInfo

/-- `span.cr_date > a > font > b`. -/
def categoryRule : AuthorRule where
  tag := .b
  ancestors := [.font, .a, .span]
  className := lit "cr_date"
  store info text := { info with category := text }

/-- `h1.cr_h1title > a > p`. -/
def titleRule : AuthorRule where
  tag := .p
  ancestors := [.a, .h1]
  className := lit "cr_h1title"
  store info text := { info with title := text }

/-- `div.mporf > p > a`. -/
def authorRule : AuthorRule where
  tag := .a
  ancestors := [.p, .div]
  className := lit "mporf"
  store info text := { info with author := text }

/-- `span.cr_date > em`, with a text that `strchr` finds a colon in. -/
def timestampRule : AuthorRule where
  tag := .em
  ancestors := [.span]
  className := lit "cr_date"
  wants text := text.contains 58
  store info text := { info with timestamp := text }

def authorRules : List AuthorRule := [categoryRule, titleRule, authorRule, timestampRule]

/-- The last of the ancestors with these tags, if they have them. -/
def ancestorAt : List GumboTag → List Ancestor → Option Ancestor
  | [], _ => none
  | _ :: _, [] => none
  | [tag], e :: _ => if e.tag = tag then some e else none
  | tag :: tags, e :: above => if e.tag = tag then ancestorAt tags above else none

section

-- `gumbo_get_attribute`
variable (gumboGetAttribute : List GumboAttribute → CStr → Option GumboAttribute)

/-- The conditions of the `if`, for a node whose ancestors are `above`. -/
def AuthorRule.fits (rule : AuthorRule) (above : List Ancestor) (tag : GumboTag) : Bool :=
  tag = rule.tag &&
    match ancestorAt rule.ancestors above with
    | none => false
    | some parent =>
        match gumboGetAttribute parent.attributes (lit "class") with
        | none => false
        | some found => found.value = rule.className

/-- The whole `if`; `none` where `children.data[0]` is read of a node without children, or the text overruns
its array. -/
def AuthorRule.apply (rule : AuthorRule) (above : List Ancestor) (tag : GumboTag)
    (children : List GumboNode) (info : PageInfo) : Option PageInfo :=
  if rule.fits gumboGetAttribute above tag then
    match children with
    | [] => none
    | .text text :: _ =>
        if rule.wants text then
          if text.length < 1024 then some (rule.store info text) else none
        else some info
    | _ :: _ => some info
  else some info

mutual

/-- `search_for_author(node, title, category, author, timestamp)`. The parent of the root is the document,
which is no element. -/
def searchForAuthor (above : List Ancestor) : GumboNode → PageInfo → Option PageInfo
  | .text _, info => some info
  | .other, info => some info
  | .element tag attributes children, info => do
      let info ← categoryRule.apply gumboGetAttribute above tag children info
      let info ← titleRule.apply gumboGetAttribute above tag children info
      let info ← authorRule.apply gumboGetAttribute above tag children info
      let info ← timestampRule.apply gumboGetAttribute above tag children info
      searchAuthorChildren (⟨tag, attributes⟩ :: above) children info

/-- The loop over the children. -/
def searchAuthorChildren (above : List Ancestor) : List GumboNode → PageInfo → Option PageInfo
  | [], info => some info
  | node :: nodes, info => do
      let info ← searchForAuthor above node info
      searchAuthorChildren above nodes info

end

end

/-! ## Where the search goes through -/

/-- The elements of a tree with their ancestors: `Occurs above node above' tag children` says that an
element with this tag and these children stands below `node`, or is it, and that its ancestors are
`above'` where those of `node` are `above`. -/
inductive Occurs : List Ancestor → GumboNode → List Ancestor → GumboTag → List GumboNode → Prop
  | here {above : List Ancestor} {tag : GumboTag} {attributes : List GumboAttribute}
      {children : List GumboNode} : Occurs above (.element tag attributes children) above tag children
  | inside {above above' : List Ancestor} {tag tag' : GumboTag} {attributes : List GumboAttribute}
      {children children' : List GumboNode} {child : GumboNode} : child ∈ children →
      Occurs (⟨tag, attributes⟩ :: above) child above' tag' children' →
      Occurs above (.element tag attributes children) above' tag' children'

/-- There is a first child, and if it is a text that the rule wants, it has at most 1023 bytes. -/
def Harmless (rule : AuthorRule) (children : List GumboNode) : Prop :=
  ∃ child rest, children = child :: rest ∧
    ∀ text, child = .text text → rule.wants text = true → text.length ≤ 1023

/-- No pattern fits an element that has no child or begins with a text that is too long. -/
def HarmlessAt (gumboGetAttribute : List GumboAttribute → CStr → Option GumboAttribute)
    (above : List Ancestor) (tag : GumboTag) (children : List GumboNode) : Prop :=
  ∀ rule ∈ authorRules, rule.fits gumboGetAttribute above tag = true → Harmless rule children

section

variable {gumboGetAttribute : List GumboAttribute → CStr → Option GumboAttribute} {above : List Ancestor}
  {tag : GumboTag} {attributes : List GumboAttribute} {children : List GumboNode}

theorem AuthorRule.apply_isSome_iff (rule : AuthorRule) (info : PageInfo) :
    (rule.apply gumboGetAttribute above tag children info).isSome = true ↔
      (rule.fits gumboGetAttribute above tag = true → Harmless rule children) := by
  unfold AuthorRule.apply
  split_ifs with hfits
  · rw [forall_prop_of_true hfits]
    rcases children with _ | ⟨child, rest⟩
    · -- there is no first child
      refine iff_of_false (by simp) ?_
      rintro ⟨child, rest, hnil, -⟩
      cases hnil
    · cases child with
      | text text =>
          simp only
          split_ifs with hwants hlen
          · refine iff_of_true rfl ⟨_, _, rfl, ?_⟩
            rintro _ ⟨⟩ -
            exact Nat.le_of_lt_succ hlen
          · refine iff_of_false (by simp) ?_
            rintro ⟨_, _, heq, hle⟩
            cases heq
            exact hlen (Nat.lt_succ_of_le (hle text rfl hwants))
          · refine iff_of_true rfl ⟨_, _, rfl, ?_⟩
            rintro _ ⟨⟩ hwanted
            exact absurd hwanted hwants
      | element tag attributes children =>
          refine iff_of_true rfl ⟨_, _, rfl, ?_⟩
          rintro _ ⟨⟩
      | other =>
          refine iff_of_true rfl ⟨_, _, rfl, ?_⟩
          rintro _ ⟨⟩
  · exact iff_of_true rfl fun h => absurd h hfits

/-- A rule, and what comes after it, whose success does not depend on what the rule has found. -/
theorem AuthorRule.bind_isSome_iff (rule : AuthorRule) {f : PageInfo → Option PageInfo} {Q : Prop}
    (h : ∀ info, (f info).isSome = true ↔ Q) (info : PageInfo) :
    ((rule.apply gumboGetAttribute above tag children info).bind f).isSome = true ↔
      (rule.fits gumboGetAttribute above tag = true → Harmless rule children) ∧ Q := by
  rw [← rule.apply_isSome_iff info]
  cases rule.apply gumboGetAttribute above tag children info with
  | none => simp
  | some info => simp [h info]

theorem harmlessAt_iff : HarmlessAt gumboGetAttribute above tag children ↔
    (categoryRule.fits gumboGetAttribute above tag = true → Harmless categoryRule children) ∧
    (titleRule.fits gumboGetAttribute above tag = true → Harmless titleRule children) ∧
    (authorRule.fits gumboGetAttribute above tag = true → Harmless authorRule children) ∧
    (timestampRule.fits gumboGetAttribute above tag = true → Harmless timestampRule children) := by
  simp [HarmlessAt, authorRules]

/-- An element of a tree is its root, or stands below one of its children. -/
theorem occurs_element_iff {above' : List Ancestor} {tag' : GumboTag} {children' : List GumboNode} :
    Occurs above (.element tag attributes children) above' tag' children' ↔
      (above' = above ∧ tag' = tag ∧ children' = children) ∨
        ∃ child ∈ children, Occurs (⟨tag, attributes⟩ :: above) child above' tag' children' := by
  constructor
  · intro h
    cases h with
    | here => exact .inl ⟨rfl, rfl, rfl⟩
    | inside hchild h => exact .inr ⟨_, hchild, h⟩
  · rintro (⟨rfl, rfl, rfl⟩ | ⟨child, hchild, h⟩)
    · exact .here
    · exact Occurs.inside hchild h

mutual

/-- The search of a tree goes through when every element in it is harmless. -/
theorem searchForAuthor_isSome (node : GumboNode) (above : List Ancestor) (info : PageInfo) :
    (searchForAuthor gumboGetAttribute above node info).isSome = true ↔
      ∀ above' tag children, Occurs above node above' tag children →
        HarmlessAt gumboGetAttribute above' tag children := by
  cases node with
  | text _ => exact iff_of_true rfl fun _ _ _ h => by cases h
  | other => exact iff_of_true rfl fun _ _ _ h => by cases h
  | element tag attributes children =>
      have hloop := searchAuthorChildren_isSome children (⟨tag, attributes⟩ :: above)
      rw [searchForAuthor]
      simp only [Option.bind_eq_bind]
      -- the four rules and the loop, none of which depends on what has been found
      refine (categoryRule.bind_isSome_iff (titleRule.bind_isSome_iff
        (authorRule.bind_isSome_iff (timestampRule.bind_isSome_iff hloop))) info).trans ?_
      constructor
      · rintro ⟨hcategory, htitle, hauthor, htimestamp, hbelow⟩ above' tag' children' hoccurs
        rcases occurs_element_iff.mp hoccurs with ⟨rfl, rfl, rfl⟩ | ⟨child, hchild, hoccurs⟩
        · exact harmlessAt_iff.mpr ⟨hcategory, htitle, hauthor, htimestamp⟩
        · exact hbelow child hchild above' tag' children' hoccurs
      · intro hall
        obtain ⟨hcategory, htitle, hauthor, htimestamp⟩ := harmlessAt_iff.mp (hall _ _ _ .here)
        exact ⟨hcategory, htitle, hauthor, htimestamp, fun child hchild above' tag' children' hoccurs =>
          hall above' tag' children' (.inside hchild hoccurs)⟩

theorem searchAuthorChildren_isSome (nodes : List GumboNode) (above : List Ancestor) (info : PageInfo) :
    (searchAuthorChildren gumboGetAttribute above nodes info).isSome = true ↔
      ∀ node ∈ nodes, ∀ above' tag children, Occurs above node above' tag children →
        HarmlessAt gumboGetAttribute above' tag children := by
  cases nodes with
  | nil => exact iff_of_true rfl fun _ h => by cases h
  | cons node nodes =>
      have hrest := searchAuthorChildren_isSome nodes above
      rw [searchAuthorChildren, List.forall_mem_cons, ← searchForAuthor_isSome node above info]
      simp only [Option.bind_eq_bind]
      cases searchForAuthor gumboGetAttribute above node info with
      | none => simp
      | some info => simp [hrest info]

end

/-- The search of a page goes through exactly when no pattern fits an element that has no child or begins
with a text that is too long. -/
theorem searchForAuthor_isSome_iff (root : GumboNode) :
    (searchForAuthor gumboGetAttribute [] root {}).isSome = true ↔
      ∀ above tag children, Occurs [] root above tag children →
        HarmlessAt gumboGetAttribute above tag children :=
  searchForAuthor_isSome root [] {}

end

/-- A page with the title `<h1 class="cr_h1title"><a><p></p></a></h1>`. -/
def emptyTitlePage : GumboNode :=
  .element (.other 0) [] [.element (.other 1) [] [], .element (.other 2) []
    [.element .h1 [⟨lit "class", lit "cr_h1title"⟩] [.element .a [] [.element .p [] []]]]]

/-- The first child of an empty title is read. -/
theorem emptyTitlePage_none : searchForAuthor attributeNamed [] emptyTitlePage {} = none := by
  decide

end Crawler.Html
