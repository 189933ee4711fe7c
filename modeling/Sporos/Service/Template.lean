import Sporos.Lib.Trim
import Sporos.Matcher.Release

/-! # Templates

`template.rs`, and the context and the tags of `persist_plan`. A template is text with variables
between double braces; `render` puts the values in, and `sanitize` makes a category or a tag of the
result. The map of the values is a function. -/

namespace Sporos.Service.Template

open Sporos.Model.Matching (Str)
open Sporos.Matcher.Release (Unicode bytes contains isWhitespace trim)

/-- `MAX_OUTPUT_BYTES`. -/
def maxOutputBytes : ℕ := 128

/-- `VARIABLES`. -/
def templateVariables : List Str :=
  ["trigger", "indexer_id", "indexer_name", "indexer_slug", "match_mode", "source_category",
    "source_kind", "video_kind", "year", "season", "episode"].map String.toList

/-- Why a template is refused. -/
inductive TemplateError where
  | unsupportedSyntax
  | unknownVariable (name : Str)
  | undefinedVariable (name : Str)
  | outputLimit
  deriving DecidableEq, Repr

/-! ### Rendering -/

/-- The text before the first occurrence of a pattern, and the text after it. -/
def splitOnce (pattern : Str) : Str → Option (Str × Str)
  | [] => if pattern = [] then some ([], []) else none
  | c :: s =>
    if pattern.isPrefixOf (c :: s) then some ([], (c :: s).drop pattern.length)
    else (splitOnce pattern s).map fun found => (c :: found.1, found.2)

theorem splitOnce_eq_some {pattern : Str} : ∀ {s before after : Str},
    splitOnce pattern s = some (before, after) →
    s = before ++ pattern ++ after
  | [], before, after, h => by
    simp only [splitOnce, Option.ite_none_right_eq_some, Option.some.injEq, Prod.mk.injEq] at h
    obtain ⟨rfl, rfl, rfl⟩ := h
    rfl
  | c :: s, before, after, h => by
    simp only [splitOnce] at h
    split_ifs at h with hprefix
    · obtain ⟨rest, hrest⟩ := List.isPrefixOf_iff_prefix.mp hprefix
      obtain ⟨rfl, rfl⟩ := Prod.mk.inj (Option.some.inj h)
      rw [← hrest]
      simp
    · obtain ⟨found, hfound, heq⟩ := Option.map_eq_some_iff.mp h
      obtain ⟨rfl, rfl⟩ := Prod.mk.inj heq
      conv_lhs => rw [splitOnce_eq_some hfound]
      simp

theorem length_splitOnce {pattern s before after : Str}
    (h : splitOnce pattern s = some (before, after)) :
    s.length = before.length + pattern.length + after.length := by
  rw [splitOnce_eq_some h, List.length_append, List.length_append]

/-- The opening of a variable. -/
def openBraces : Str := ['\x7b', '\x7b']

/-- The end of a variable. -/
def closeBraces : Str := ['\x7d', '\x7d']

/-- The loop over the variables that are left, with the output so far. -/
def renderLoop (values : Str → Option Str) (rest output : Str) : Except TemplateError Str :=
  match _h : splitOnce openBraces rest with
  | none => if contains rest closeBraces then .error .unsupportedSyntax else .ok (output ++ rest)
  | some (literal, inner) =>
    if contains literal closeBraces then .error .unsupportedSyntax
    else match _h' : splitOnce closeBraces inner with
      | none => .error .unsupportedSyntax
      | some (text, rest) =>
        if trim text = [] ∨ trim text ∉ templateVariables then .error (.unknownVariable (trim text))
        else match values (trim text) with
          | none => .error (.undefinedVariable (trim text))
          | some value => renderLoop values rest (output ++ literal ++ value)
  termination_by rest.length
  decreasing_by
    have h := length_splitOnce _h
    have h' := length_splitOnce _h'
    have hlen : openBraces.length = 2 := rfl
    omega

/-- `render`. -/
def render (template : Str) (values : Str → Option Str) : Except TemplateError Str :=
  if contains template ['\x7b', '%'] ∨ contains template ['\x7b', '#']
    then .error .unsupportedSyntax
  else renderLoop values template []

/-- `validate` renders with an empty value for each variable. -/
def validate (template : Str) : Except TemplateError Unit :=
  (render template fun name => if name ∈ templateVariables then some [] else none).map fun _ => ()

/-! ### Categories and tags -/

/-- `char::is_control`: the characters of the category `Cc`. -/
def isControl (c : Char) : Bool := c.toNat < 32 || (127 ≤ c.toNat && c.toNat < 160)

/-- The characters that stay and fit. -/
def sanitizeLoop (tag : Bool) : Str → Str → Str
  | [], output => output
  | c :: rest, output =>
    if isControl c || (tag && c == ',') then sanitizeLoop tag rest output
    else if (bytes output).length + c.utf8Size > maxOutputBytes then output
    else sanitizeLoop tag rest (output ++ [c])

/-- `sanitize`. -/
def sanitize (value : Str) (tag : Bool) : Except TemplateError Str :=
  let output := trim (sanitizeLoop tag (trim value) [])
  if (bytes output).length > maxOutputBytes then .error .outputLimit else .ok output

/-- The values of a template's variables. -/
structure TemplateContext where
  values : Str → Option Str

namespace TemplateContext

/-- No variable has a value. -/
def default : TemplateContext := ⟨fun _ => none⟩

/-- A variable gets a value. -/
def insert (context : TemplateContext) (name : String) (value : Str) : TemplateContext :=
  ⟨Function.update context.values name.toList (some value)⟩

/-- `render_category`. -/
def renderCategory (context : TemplateContext) (template : Str) : Except TemplateError Str := do
  sanitize (← render template context.values) false

/-- The tags so far and the set of those seen. -/
def tagStep (s : List Str × List Str) (value : Except TemplateError Str) :
    Except TemplateError (List Str × List Str) := do
  let tag ← sanitize (← value) true
  if tag ≠ [] ∧ tag ∉ s.2 then return (s.1 ++ [tag], s.2 ++ [tag]) else return s

/-- `render_tags`: each tag once. -/
def renderTags (context : TemplateContext) (templates inherited : List Str) :
    Except TemplateError (List Str) := do
  let values := templates.map (render · context.values) ++ inherited.map .ok
  let s ← values.foldlM tagStep ([], [])
  return s.1

end TemplateContext

/-- `slug`: the letters and digits of ASCII, in lower case, with a hyphen for what stands between.
-/
def slugStep (s : Str × Bool) (c : Char) : Str × Bool :=
  if c.isAlphanum then
    ((if s.2 && !s.1.isEmpty then s.1 ++ ['-'] else s.1) ++ [c], false)
  else (s.1, true)

/-- `slug`. -/
def slug (U : Unicode) (value : Str) : Str :=
  ((value.flatMap U.toLowercase).foldl slugStep ([], false)).1

/-- What `persist_plan` knows of a candidate and its sources, as text. -/
structure PlanData where
  trigger : Str
  indexerId : Str
  indexerName : Str
  matchMode : Str
  sourceCategory : Str
  sourceKind : Str
  videoKind : Str
  year : Str
  season : Str
  episode : Str

/-- The variables of a plan. -/
def planContext (U : Unicode) (data : PlanData) : TemplateContext :=
  ((((((((((TemplateContext.default.insert "trigger" data.trigger).insert "indexer_id"
    data.indexerId).insert
    "indexer_name" data.indexerName).insert "indexer_slug" (slug U data.indexerName)).insert
    "match_mode" data.matchMode).insert "source_category" data.sourceCategory).insert
    "source_kind" data.sourceKind).insert "video_kind" data.videoKind).insert "year"
      data.year).insert
    "season" data.season).insert "episode" data.episode

/-- The tag of the service. -/
def sporosTag : Str := "sporos".toList

/-- The tags of a plan. -/
def planTags (tags : List Str) : List Str :=
  if tags.any fun tag => tag == sporosTag then tags else sporosTag :: tags

/-- The category and the tags of a plan. -/
def planLabels (context : TemplateContext) (categoryTemplate : Str) (tagTemplates : List Str)
    (inheritSourceCategory inheritSourceTags : Bool) (sourceCategory : Str)
    (sourceTags : List Str) : Except TemplateError (Str × List Str) := do
  let category ← if inheritSourceCategory && !sourceCategory.isEmpty then pure sourceCategory
    else context.renderCategory categoryTemplate
  let tags ← context.renderTags tagTemplates (if inheritSourceTags then sourceTags else [])
  return (category, planTags tags)

end Sporos.Service.Template
