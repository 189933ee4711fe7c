import Sporos.Lib.Lists
import Sporos.Lib.Loop
import Sporos.Service.Template

/-! # What templates become

A template that `validate` accepts is a list of segments, literal text and variables, and renders to
the literal text with the values in between (`render_segments`): the values are not looked at. What
`sanitize` makes of a text is trimmed, without control characters and no longer than its limit, and
the tags are the first occurrences of those that are not empty (`renderTags_eq`). -/

namespace Sporos.Service.TemplateOutput

open Sporos.Model.Matching (Str)
open Sporos.Matcher.Release (Unicode bytes contains isWhitespace trim)
open Sporos.Lib.Loop
open Sporos.Lib.Lists (eraseDups_concat nodup_eraseDups)
open Sporos.Lib.Trim (Trimmed exists_trim trim_trimmed)
open Sporos.Service.Template

/-! ### Segments -/

/-- A part of a template. -/
inductive Segment where
  | literal (text : Str)
  | variable (text : Str)

/-- The text of a segment in the template. -/
def Segment.source : Segment → Str
  | .literal text => text
  | .variable text => openBraces ++ text ++ closeBraces

/-- What a part is rendered as. -/
def Segment.value (values : Str → Option Str) : Segment → Str
  | .literal text => text
  | .variable text => (values (trim text)).getD []

/-- A part that a template can have. -/
def Segment.Valid : Segment → Prop
  | .literal text => contains text openBraces = false ∧ contains text closeBraces = false
  | .variable text => contains text closeBraces = false ∧ trim text ∈ templateVariables

theorem contains_cons (c : Char) (s pattern : Str) :
    contains (c :: s) pattern = (pattern.isPrefixOf (c :: s) || contains s pattern) := rfl

theorem splitOnce_eq_none {pattern : Str} : ∀ {s : Str}, splitOnce pattern s = none →
    contains s pattern = false
  | [], h => by
    cases pattern with
    | nil => simp [splitOnce] at h
    | cons c pattern => rfl
  | c :: s, h => by
    simp only [splitOnce] at h
    split_ifs at h with hprefix
    rw [contains_cons, splitOnce_eq_none (Option.map_eq_none_iff.mp h), Bool.or_false]
    exact Bool.eq_false_iff.mpr hprefix

/-- The occurrence is the first one. -/
theorem contains_before {pattern : Str} (hne : pattern ≠ []) : ∀ {s before after : Str},
    splitOnce pattern s = some (before, after) → contains before pattern = false
  | [], before, after, h => by simp [splitOnce, hne] at h
  | c :: s, before, after, h => by
    simp only [splitOnce] at h
    split_ifs at h with hprefix
    · obtain ⟨rfl, -⟩ := Prod.mk.inj (Option.some.inj h)
      obtain ⟨a, pattern, rfl⟩ := List.exists_cons_of_ne_nil hne
      rfl
    · obtain ⟨found, hfound, heq⟩ := Option.map_eq_some_iff.mp h
      obtain ⟨rfl, rfl⟩ := Prod.mk.inj heq
      rw [contains_cons, contains_before hne hfound, Bool.or_false]
      by_contra hpre
      refine hprefix (List.isPrefixOf_iff_prefix.mpr ?_)
      have hstart : pattern <+: c :: found.1 := List.isPrefixOf_iff_prefix.mp (by simpa using hpre)
      rw [splitOnce_eq_some hfound, List.append_assoc]
      exact hstart.trans (List.prefix_append (c :: found.1) _)

/-- The context has a value for each variable. -/
def Total (values : Str → Option Str) : Prop := ∀ name ∈ templateVariables, (values name).isSome

/-- The loop renders the segments of what is left, whatever the values are. -/
theorem renderLoop_segments {values₀ : Str → Option Str} : ∀ (n : ℕ) {rest output result : Str},
    rest.length ≤ n →
    renderLoop values₀ rest output = .ok result →
    ∃ segments : List Segment, rest = segments.flatMap Segment.source ∧ (∀ segment ∈ segments,
      segment.Valid) ∧
      ∀ values output, Total values →
        renderLoop values rest output =
          .ok (output ++ segments.flatMap (Segment.value values)) := by
  intro n
  induction n with
  | zero =>
    intro rest output result hlen h
    obtain rfl := List.length_eq_zero_iff.mp (Nat.le_zero.mp hlen)
    refine ⟨[], rfl, by simp, fun values output _ => ?_⟩
    rw [renderLoop]
    simp [splitOnce, openBraces, contains, closeBraces]
  | succ n ih =>
    intro rest output result hlen h
    rw [renderLoop] at h
    split at h
    · next hnone =>
      split_ifs at h with hclose
      rw [Bool.not_eq_true] at hclose
      refine ⟨[.literal rest], by simp [Segment.source], ?_, fun values output _ => ?_⟩
      · simpa [Segment.Valid] using ⟨splitOnce_eq_none hnone, hclose⟩
      · rw [renderLoop]
        split
        · simp [hclose, Segment.value]
        · next hsome => rw [hnone] at hsome; cases hsome
    · next literal inner hopen =>
      split_ifs at h with hclose
      split at h
      · cases h
      · next text after hend =>
        split_ifs at h with hname
        push Not at hname
        split at h
        · cases h
        · next value hvalue =>
          have h₁ := length_splitOnce hopen
          have h₂ := length_splitOnce hend
          have hbraces : openBraces.length = 2 := rfl
          obtain ⟨segments, hafter, hvalid, hrender⟩ := ih (by omega) h
          refine ⟨.literal literal :: .variable text :: segments, ?_, ?_,
            fun values output htotal => ?_⟩
          · rw [splitOnce_eq_some hopen, splitOnce_eq_some hend, hafter]
            simp [Segment.source]
          · rw [Bool.not_eq_true] at hclose
            simp only [List.forall_mem_cons]
            exact ⟨⟨contains_before (by decide) hopen, hclose⟩, ⟨contains_before (by decide) hend,
              hname.2⟩, hvalid⟩
          · obtain ⟨v, hv⟩ := Option.isSome_iff_exists.mp (htotal _ hname.2)
            rw [renderLoop]
            split
            · next hnone => rw [hopen] at hnone; cases hnone
            · next literal' inner' hopen' =>
              rw [hopen] at hopen'
              obtain ⟨rfl, rfl⟩ := Prod.mk.inj (Option.some.inj hopen')
              rw [if_neg hclose]
              split
              · next hnone => rw [hend] at hnone; cases hnone
              · next text' after' hend' =>
                rw [hend] at hend'
                obtain ⟨rfl, rfl⟩ := Prod.mk.inj (Option.some.inj hend')
                rw [if_neg (by push Not; exact hname)]
                simp only [hv]
                rw [hrender values _ htotal]
                simp [Segment.value, hv]

/-- **An accepted template** is made of literal text and variables, and renders to the text and the
values. -/
theorem render_segments {template : Str} (h : validate template = .ok ()) :
    ∃ segments : List Segment, template = segments.flatMap Segment.source ∧ (∀ segment ∈ segments,
      segment.Valid) ∧
      ∀ values, Total values →
        render template values = .ok (segments.flatMap (Segment.value values)) := by
  obtain ⟨result, hresult, -⟩ := map_eq_ok h
  unfold render at hresult
  split_ifs at hresult with hsyntax
  obtain ⟨segments, hsource, hvalid, hrender⟩ := renderLoop_segments template.length le_rfl hresult
  refine ⟨segments, hsource, hvalid, fun values htotal => ?_⟩
  rw [render, if_neg hsyntax, hrender values [] htotal, List.nil_append]

/-! ### Sanitising -/

/-- A text that may be a category: short, trimmed and without control characters. -/
structure Clean (output : Str) : Prop where
  length_le : (bytes output).length ≤ maxOutputBytes
  trimmed : trim output = output
  noControl : ∀ c ∈ output, isControl c = false

theorem length_bytes_append (s t : Str) :
    (bytes (s ++ t)).length = (bytes s).length + (bytes t).length := by
  simp [bytes]

theorem sanitizeLoop_spec (tag : Bool) : ∀ (rest output : Str),
    (bytes output).length ≤ maxOutputBytes →
    (∀ c ∈ output, isControl c = false ∧ (tag = true → c ≠ ',')) →
    (bytes (sanitizeLoop tag rest output)).length ≤ maxOutputBytes ∧
      ∀ c ∈ sanitizeLoop tag rest output, isControl c = false ∧ (tag = true → c ≠ ',')
  | [], output, hlen, hkeep => ⟨hlen, hkeep⟩
  | c :: rest, output, hlen, hkeep => by
    simp only [sanitizeLoop]
    split_ifs with hskip hfull
    · exact sanitizeLoop_spec tag rest output hlen hkeep
    · exact ⟨hlen, hkeep⟩
    · simp only [Bool.or_eq_true, Bool.and_eq_true, beq_iff_eq, not_or, not_and,
        Bool.not_eq_true] at hskip
      refine sanitizeLoop_spec tag rest (output ++ [c]) ?_ fun d hd => ?_
      · have hsize : (bytes [c]).length = c.utf8Size := by simp [bytes]
        rw [length_bytes_append, hsize]
        omega
      · rcases List.mem_append.mp hd with hd | hd
        · exact hkeep d hd
        · obtain rfl := List.mem_singleton.mp hd
          exact hskip

/-- What is left of a text. -/
theorem exists_sanitize (value : Str) (tag : Bool) :
    ∃ output, sanitize value tag = .ok output ∧ Clean output ∧ (tag = true → ',' ∉ output) := by
  obtain ⟨hlen, hkeep⟩ := sanitizeLoop_spec tag (trim value) [] (by decide) (by simp)
  obtain ⟨before, after, hsplit, -, -, htrimmed⟩ :=
    exists_trim isWhitespace (sanitizeLoop tag (trim value) [])
  change _ = before ++ trim (sanitizeLoop tag (trim value) []) ++ after at hsplit
  have hshort : (bytes (trim (sanitizeLoop tag (trim value) []))).length ≤ maxOutputBytes := by
    rw [hsplit, length_bytes_append, length_bytes_append] at hlen
    omega
  have hmem : ∀ c ∈ trim (sanitizeLoop tag (trim value) []), isControl c = false
      ∧ (tag = true → c ≠ ',') :=
    fun c hc => hkeep c (by rw [hsplit]; simp [hc])
  refine ⟨trim (sanitizeLoop tag (trim value) []), ?_, ⟨hshort, trim_trimmed htrimmed,
    fun c hc => (hmem c hc).1⟩, fun htag hcomma => (hmem ',' hcomma).2 htag rfl⟩
  simp only [sanitize, if_neg (not_lt.mpr hshort)]

/-! ### Tags -/

/-- The text that is left of a value as a tag. -/
def sanitized (value : Str) : Str := trim (sanitizeLoop true (trim value) [])

theorem sanitize_tag (value : Str) : sanitize value true = .ok (sanitized value) := by
  obtain ⟨output, houtput, -⟩ := exists_sanitize value true
  unfold sanitize at houtput ⊢
  simp only at houtput ⊢
  split_ifs at houtput ⊢
  rfl

/-- The first occurrences of the tags that are not empty. -/
def kept (values : List Str) : List Str := ((values.map sanitized).filter (· ≠ [])).eraseDups

theorem mem_kept {values : List Str} {tag : Str} :
    tag ∈ kept values ↔ tag ∈ values.map sanitized ∧ tag ≠ [] := by
  simp [kept, List.mem_eraseDups]

/-- A tag after others is kept if it is not empty and new. -/
theorem kept_concat (values : List Str) (value : Str) :
    kept (values ++ [value]) =
      if sanitized value ≠ [] ∧ sanitized value ∉ kept values then kept values ++ [sanitized value]
      else kept values := by
  by_cases hempty : sanitized value = []
  · simp [kept, hempty]
  · have hnew : sanitized value ∈ kept values
        ↔ sanitized value ∈ (values.map sanitized).filter (· ≠ []) :=
      List.mem_eraseDups
    have hfilter : ((values ++ [value]).map sanitized).filter (· ≠ []) =
        (values.map sanitized).filter (· ≠ []) ++ [sanitized value] := by simp [hempty]
    rw [kept, hfilter, eraseDups_concat, ← kept]
    by_cases hseen : sanitized value ∈ kept values
    · rw [if_pos (hnew.mp hseen), if_neg (by simp [hseen])]
    · rw [if_neg fun h => hseen (hnew.mpr h), if_pos ⟨hempty, hseen⟩]

theorem tagStep_eq (done : List Str) (value : Str) :
    TemplateContext.tagStep (kept done, kept done) (.ok value) =
      .ok (kept (done ++ [value]), kept (done ++ [value])) := by
  simp only [TemplateContext.tagStep, bind, Except.bind, sanitize_tag, kept_concat]
  split_ifs <;> rfl

theorem foldlM_tagStep : ∀ (values done : List Str),
    (values.map Except.ok).foldlM TemplateContext.tagStep (kept done, kept done) =
      .ok (kept (done ++ values), kept (done ++ values))
  | [], done => by simp [pure, Except.pure]
  | value :: values, done => by
    rw [List.map_cons, List.foldlM_cons, tagStep_eq]
    change (values.map Except.ok).foldlM TemplateContext.tagStep _ = _
    rw [foldlM_tagStep values (done ++ [value]), List.append_assoc, List.singleton_append]

/-- **Tags** are the first occurrences of what the values become, the empty ones left out. -/
theorem renderTags_eq {context : TemplateContext} {templates rendered inherited : List Str}
    (h : templates.map (render · context.values) = rendered.map .ok) :
    context.renderTags templates inherited = .ok (kept (rendered ++ inherited)) := by
  simp only [TemplateContext.renderTags, h, ← List.map_append]
  rw [show (([], []) : List Str × List Str) = (kept [], kept []) from rfl,
    foldlM_tagStep, List.nil_append]
  rfl

/-! ### Plans -/

/-- The tag of the service stands in the tags of a plan once. -/
theorem count_planTags {tags : List Str} (h : tags.Nodup) :
    (planTags tags).count sporosTag = 1 := by
  unfold planTags
  split_ifs with hany
  · obtain ⟨tag, htag, heq⟩ := List.any_eq_true.mp hany
    obtain rfl : tag = sporosTag := by simpa using heq
    exact List.count_eq_one_of_mem h htag
  · have hnot : sporosTag ∉ tags :=
      fun hmem => hany (List.any_eq_true.mpr ⟨sporosTag, hmem, by simp⟩)
    rw [List.count_cons_self, List.count_eq_zero_of_not_mem hnot]

/-- A plan gives all the variables values. -/
theorem total_planContext (U : Unicode) (data : PlanData) : Total (planContext U data).values := by
  intro name hname
  simp only [templateVariables, List.map_cons, List.map_nil, List.mem_cons, List.not_mem_nil,
    or_false] at hname
  simp only [planContext, TemplateContext.insert, Function.update_apply]
  rcases hname with rfl | rfl | rfl | rfl | rfl | rfl | rfl | rfl | rfl | rfl | rfl <;> rfl

/-- Accepted templates are all rendered. -/
theorem exists_rendered {context : TemplateContext} (htotal : Total context.values) :
    ∀ {templates : List Str},
    (∀ template ∈ templates, validate template = .ok ()) →
    ∃ rendered : List Str, templates.map (render · context.values) = rendered.map .ok
  | [], _ => ⟨[], rfl⟩
  | template :: templates, h => by
    obtain ⟨segments, -, -, hrender⟩ := render_segments (h template (by simp))
    obtain ⟨rendered, hrest⟩ := exists_rendered htotal fun template hmem =>
      h template (List.mem_cons_of_mem _ hmem)
    exact ⟨segments.flatMap (Segment.value context.values)
      :: rendered, by simp [hrender _ htotal, hrest]⟩

theorem exists_category {context : TemplateContext} (htotal : Total context.values) {template : Str}
    (h : validate template = .ok ()) : ∃ category, context.renderCategory template = .ok category
      ∧ Clean category := by
  obtain ⟨segments, -, -, hrender⟩ := render_segments h
  obtain ⟨category, hcategory, hclean, -⟩ :=
    exists_sanitize (segments.flatMap (Segment.value context.values)) false
  refine ⟨category, ?_, hclean⟩
  simp only [TemplateContext.renderCategory, hrender _ htotal, bind, Except.bind, hcategory]

/-- **The labels of a plan** with accepted templates: its tags have the tag of the service once. -/
theorem planLabels_ok (U : Unicode) (data : PlanData) {template : Str} {templates : List Str}
    (h : validate template = .ok ())
    (htemplates : ∀ template ∈ templates, validate template = .ok ())
    (inheritSourceCategory inheritSourceTags : Bool) (sourceTags : List Str) :
    ∃ category tags, planLabels (planContext U data) template templates inheritSourceCategory
      inheritSourceTags
      data.sourceCategory sourceTags = .ok (category, tags) ∧ tags.count sporosTag = 1 := by
  have htotal := total_planContext U data
  obtain ⟨rendered, hrendered⟩ := exists_rendered htotal htemplates
  obtain ⟨category, hcategory, -⟩ := exists_category htotal h
  unfold planLabels
  generalize (if inheritSourceTags then sourceTags else []) = inherited
  have htags : (planContext U data).renderTags templates inherited = _ := renderTags_eq hrendered
  refine ⟨if inheritSourceCategory && !data.sourceCategory.isEmpty
    then data.sourceCategory else category,
    planTags (kept (rendered ++ inherited)), ?_, count_planTags (nodup_eraseDups _)⟩
  split_ifs <;> simp only [bind, Except.bind, pure, Except.pure, hcategory, htags]

/-- A plan whose tracker has braces in its name. -/
def bracesData : PlanData :=
  ⟨"autobrr".toList, "7".toList, ['\x7b', '\x7b', 'y', 'e', 'a', 'r', '\x7d', '\x7d'],
    "strict".toList, "tv".toList, "qbittorrent_torrent".toList, "episode".toList, [],
    "1".toList, "2".toList⟩

/-- The template of a tag, the name of the tracker behind a slash. -/
def nameTemplate : Str := '/' :: openBraces ++ " indexer_name ".toList ++ closeBraces

example : render nameTemplate (planContext Unicode.ascii bracesData).values =
    .ok ['/', '\x7b', '\x7b', 'y', 'e', 'a', 'r', '\x7d', '\x7d'] := by decide +kernel

end Sporos.Service.TemplateOutput
