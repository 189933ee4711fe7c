import Sporos.Service.StoredDecisions

/-! # Stored mappings

The rows of the mappings and of the plans that evaluations leave. Evaluations add rows and change
none of them (`grows_tablesAfter`). The rows with the id of a match are the mappings of its
decision, each of them once (`mappings_of_match`), and the row with the id of its plan names the
match (`plan_of_match`). -/

namespace Sporos.Service.StoredMappings

open Sporos.Model.Matching
open Sporos.Service.Tables
open Sporos.Service.Ingress
open Sporos.Service.Evaluation
open Sporos.Service.StoredDecisions
open Sporos.Lib.Table
open Sporos.Lib.Loop
open Sporos.Lib.Lists

/-- The mappings of a match, in the order of their ordinals. -/
def persistedMappings (mappings : List MappingRow) (matchId : Id) : List MappingRow :=
  (mappings.filter fun row => row.matchId = matchId).insertionSort
    (ByKey MappingRow.candidateOrdinal)

/-- Every row of the mappings and of the plans comes from a decision in use. -/
structure Linked (codec : EvaluationCodec) (used : List Decided) (tables : MatchTables) : Prop where
  mappings : ∀ row ∈ tables.mappings, ∃ d ∈ used, ∃ mapping ∈ d.decision.mappings,
    row = mappingRow (d.matchId codec) mapping
  mappingKeys : UniqueKey MappingRow.key tables.mappings
  plans : ∀ row ∈ tables.plans, ∃ d ∈ used, row.id = first16 (d.planDigest codec)
    ∧ row.planDigest = d.planDigest codec ∧ row.matchId = d.matchId codec
  planIds : UniqueKey PlanRow.id tables.plans

/-- What the encoders and SHA-256 promise about the plans of the decisions in use: different
decisions have different digests, and so have the plans of different matches, which the match is
encoded with. -/
structure LawfulPlans (codec : EvaluationCodec) (used : List Decided) : Prop
    extends Lawful codec used where
  planDigest : ∀ d ∈ used, ∀ d' ∈ used, d.planDigest codec = d'.planDigest codec →
    d.matchId codec = d'.matchId codec

/-- The rows of some mappings are inserted, unless there are rows with their keys. -/
structure Inserts (matchId : Id) (mappings : List FileMapping) (rows rows' : List MappingRow) :
    Prop where
  grows : rows <+: rows'
  cases : ∀ row ∈ rows', row ∈ rows ∨ ∃ mapping ∈ mappings, row = mappingRow matchId mapping
  unique : UniqueKey MappingRow.key rows → UniqueKey MappingRow.key rows'
  found : ∀ mapping ∈ mappings, ∃ row ∈ rows', row.key = (matchId, mapping.candidateOrdinal)

variable {codec : EvaluationCodec} {used : List Decided} {tables tables' : MatchTables}
  {d : Decided} {now : ℤ}

/-! ### The transaction -/

theorem inserts_persistMappings {matchId : Id} {mappings : List FileMapping}
    {rows rows' : List MappingRow}
    (h : mappings.foldlM (persistMapping matchId) rows = .ok rows') :
    Inserts matchId mappings rows rows' := by
  have hfold := foldlM_invariant (f := persistMapping matchId)
    (P := fun done result => Inserts matchId done rows result)
    (fun done mapping before result hdone hpersist => by
      obtain ⟨-, rfl⟩ := persistMapping_eq_ok.mp hpersist
      refine ⟨hdone.grows.trans (prefix_insertOrIgnore _ _ _), fun row hrow => ?_,
        fun hunique => (hdone.unique hunique).insertOrIgnore _, fun other hother => ?_⟩
      · rcases mem_insertOrIgnore hrow with hold | ⟨rfl, -⟩
        · rcases hdone.cases row hold with hold | ⟨other, hother, rfl⟩
          · exact .inl hold
          · exact .inr ⟨other, List.mem_append_left _ hother, rfl⟩
        · exact .inr ⟨mapping, by simp, rfl⟩
      · rcases List.mem_append.mp hother with hother | hother
        · obtain ⟨row, hrow, hkey⟩ := hdone.found other hother
          exact ⟨row, mem_insertOrIgnore_of_mem hrow, hkey⟩
        · obtain rfl := List.mem_singleton.mp hother
          obtain ⟨hmem, hkey⟩ := lookup_eq_some_mem
            (@lookup_insertOrIgnore_self _ _ _ MappingRow.key before (mappingRow matchId other))
          exact ⟨_, hmem, hkey⟩)
    mappings [] rows rows'
    ⟨List.prefix_rfl, fun _ => .inl, id, fun _ hmem => absurd hmem List.not_mem_nil⟩ h
  simpa using hfold

theorem persistPlan_eq_ok (d : Decided) {plans plans' : List PlanRow} {planId : Id}
    (h : persistPlan codec plans d.input d.loaded d.decision (d.matchId codec) now
      = .ok (plans', planId)) :
    planId = first16 (d.planDigest codec) ∧ plans <+: plans'
      ∧ (UniqueKey PlanRow.id plans → UniqueKey PlanRow.id plans')
      ∧ (∃ row, lookup PlanRow.id plans' planId = some row ∧ row.planDigest = d.planDigest codec)
      ∧ ∀ row ∈ plans', row ∈ plans ∨ (row.id = first16 (d.planDigest codec)
        ∧ row.planDigest = d.planDigest codec ∧ row.matchId = d.matchId codec) := by
  unfold persistPlan at h
  dsimp only at h
  generalize (if d.loaded.policy.dryRun = true then "dry_run_complete" else "planned") = state at h
  split_ifs at h with hdigest
  obtain ⟨rfl, rfl⟩ := Prod.mk.inj (Except.ok.inj h)
  refine ⟨rfl, prefix_insertOrIgnore _ _ _, fun hunique => hunique.insertOrIgnore _,
    Option.map_eq_some_iff.mp hdigest, fun row hrow => ?_⟩
  rcases mem_insertOrIgnore hrow with hold | ⟨rfl, -⟩
  · exact .inl hold
  · exact .inr ⟨rfl, rfl, rfl⟩

/-- **The rows that the transaction of a decision adds.** -/
theorem persistTerminal_eq_ok (d : Decided) {result : EvaluationResult}
    (h : persistTerminal codec tables d.input d.loaded d.decision now = .ok (tables', result)) :
    Inserts (d.matchId codec) d.decision.mappings tables.mappings tables'.mappings
      ∧ ∃ state reason planId, result = .terminal state reason (d.matchId codec) planId
        ∧ ((planId = none ∧ tables'.plans = tables.plans)
          ∨ ∃ id, planId = some id ∧ d.decision.outcome = .matched
            ∧ persistPlan codec tables.plans d.input d.loaded d.decision (d.matchId codec) now
              = .ok (tables'.plans, id)) := by
  unfold persistTerminal at h
  obtain ⟨_, -, h⟩ := bind_eq_ok.mp h
  obtain ⟨_, -, h⟩ := bind_eq_ok.mp h
  dsimp only at h
  split at h
  · cases h
  · obtain ⟨mappings, hmappings, h⟩ := bind_eq_ok.mp h
    have hinserts := inserts_persistMappings hmappings
    split_ifs at h with hmatched
    · obtain ⟨⟨plans, id⟩, hplan, h⟩ := bind_eq_ok.mp h
      obtain ⟨rfl, rfl⟩ := Prod.mk.inj (Except.ok.inj h)
      exact ⟨hinserts, _, _, _, rfl, .inr ⟨id, rfl, hmatched, hplan⟩⟩
    · obtain ⟨rfl, rfl⟩ := Prod.mk.inj (Except.ok.inj h)
      exact ⟨hinserts, _, _, _, rfl, .inl ⟨rfl, rfl⟩⟩

/-- Rows are added and none is changed. -/
structure Grows (tables tables' : MatchTables) : Prop where
  mappings : tables.mappings <+: tables'.mappings
  plans : tables.plans <+: tables'.plans

theorem Grows.refl (tables : MatchTables) : Grows tables tables :=
  ⟨List.prefix_rfl, List.prefix_rfl⟩

theorem Grows.trans {tables'' : MatchTables} (h : Grows tables tables')
    (h' : Grows tables' tables'') : Grows tables tables'' :=
  ⟨h.mappings.trans h'.mappings, h.plans.trans h'.plans⟩

theorem Linked.mono {used' : List Decided} (h : Linked codec used tables) (hsub : used ⊆ used') :
    Linked codec used' tables where
  mappings row hrow := by
    obtain ⟨d, hd, hfrom⟩ := h.mappings row hrow
    exact ⟨d, hsub hd, hfrom⟩
  mappingKeys := h.mappingKeys
  plans row hrow := by
    obtain ⟨d, hd, hfrom⟩ := h.plans row hrow
    exact ⟨d, hsub hd, hfrom⟩
  planIds := h.planIds

/-- The transaction of a decision adds rows of the decision. -/
theorem linked_persistTerminal (h : Linked codec used tables) (d : Decided)
    {result : EvaluationResult}
    (hpersist : persistTerminal codec tables d.input d.loaded d.decision now
      = .ok (tables', result)) : Linked codec (d :: used) tables' ∧ Grows tables tables' := by
  obtain ⟨hinserts, _, _, _, -, hplans⟩ := persistTerminal_eq_ok d hpersist
  have hkept := h.mono (List.subset_cons_self d used)
  have hmappings : ∀ row ∈ tables'.mappings, ∃ d' ∈ d :: used, ∃ mapping ∈ d'.decision.mappings,
      row = mappingRow (d'.matchId codec) mapping := by
    intro row hrow
    rcases hinserts.cases row hrow with hold | hnew
    · exact hkept.mappings row hold
    · exact ⟨d, List.mem_cons_self, hnew⟩
  rcases hplans with ⟨-, hsame⟩ | ⟨id, -, -, hplan⟩
  · refine ⟨⟨hmappings, hinserts.unique h.mappingKeys, ?_, ?_⟩, hinserts.grows, ?_⟩
    · rw [hsame]
      exact hkept.plans
    · rw [hsame]
      exact h.planIds
    · rw [hsame]
  · obtain ⟨-, hgrows, hunique, -, hcases⟩ := persistPlan_eq_ok d hplan
    refine ⟨⟨hmappings, hinserts.unique h.mappingKeys, fun row hrow => ?_, hunique h.planIds⟩,
      hinserts.grows, hgrows⟩
    rcases hcases row hrow with hold | hnew
    · exact hkept.plans row hold
    · exact ⟨d, List.mem_cons_self, hnew⟩

/-! ### Runs -/

/-- **Every call** adds rows of its decision, or none. -/
theorem linked_after {call : Call} (h : Linked codec used tables) :
    Linked codec (call.decided codec ++ used) (after codec tables call)
      ∧ Grows tables (after codec tables call) := by
  have hkept := h.mono (List.subset_append_right (call.decided codec) used)
  unfold after
  cases hevaluate : call.evaluate codec tables with
  | error e => exact ⟨hkept, .refl tables⟩
  | ok result =>
    obtain ⟨tables', result⟩ := result
    unfold Call.evaluate evaluateCandidate at hevaluate
    obtain ⟨verdict, hdecide, hverdict⟩ := bind_eq_ok.mp hevaluate
    cases verdict with
    | waiting delayMs sourceIds =>
      obtain ⟨rfl, -⟩ := Prod.mk.inj (Except.ok.inj hverdict)
      exact ⟨⟨hkept.mappings, hkept.mappingKeys, hkept.plans, hkept.planIds⟩,
        List.prefix_rfl, List.prefix_rfl⟩
    | terminal decision =>
      rw [Call.decided_eq hdecide]
      exact linked_persistTerminal h ⟨call.input, call.loaded, decision, call.isLoaded⟩ hverdict

theorem tablesAfter_append (candidates : List CandidateStateRow) (calls : List Call) (call : Call) :
    tablesAfter codec candidates (calls ++ [call]) =
      after codec (tablesAfter codec candidates calls) call := by
  unfold tablesAfter
  rw [List.foldl_append]
  rfl

/-- **After every run of calls** the rows come from the decisions of the run. -/
theorem linked_tablesAfter (candidates : List CandidateStateRow) (calls : List Call) :
    Linked codec (calls.flatMap (Call.decided codec)) (tablesAfter codec candidates calls) := by
  induction calls using List.reverseRecOn with
  | nil => exact ⟨fun _ hrow => absurd hrow List.not_mem_nil, List.nodup_nil,
      fun _ hrow => absurd hrow List.not_mem_nil, List.nodup_nil⟩
  | append_singleton calls call ih =>
    rw [tablesAfter_append, List.flatMap_append, List.flatMap_singleton]
    exact (linked_after ih).1.mono (List.append_subset.mpr
      ⟨List.subset_append_right _ _, List.subset_append_left _ _⟩)

/-- Later calls keep the rows. -/
theorem grows_tablesAfter (candidates : List CandidateStateRow) (earlier later : List Call) :
    Grows (tablesAfter codec candidates earlier)
      (tablesAfter codec candidates (earlier ++ later)) := by
  induction later using List.reverseRecOn with
  | nil =>
    rw [List.append_nil]
    exact .refl _
  | append_singleton later call ih =>
    rw [← List.append_assoc, tablesAfter_append]
    exact ih.trans (linked_after (linked_tablesAfter candidates (earlier ++ later))).2

/-! ### The rows of a match -/

/-- The rows with the id of a match are mappings of its decision. -/
theorem mapping_of_row (h : Linked codec used tables) (hlawful : Lawful codec used) (hd : d ∈ used)
    {row : MappingRow} (hrow : row ∈ tables.mappings) (hmatch : row.matchId = d.matchId codec) :
    ∃ mapping ∈ d.decision.mappings, row = mappingRow (d.matchId codec) mapping := by
  obtain ⟨d', hd', mapping, hmapping, rfl⟩ := h.mappings row hrow
  have hid : d'.matchId codec = d.matchId codec := hmatch
  have hdecision := hlawful.decisionDigest d' hd' d hd (hlawful.matchId d' hd' d hd hid).2
  exact ⟨mapping, hdecision ▸ hmapping, by rw [hid]⟩

section

variable {earlier later : List Call} {call : Call} {decision : MatchDecision} {matchId planId : Id}
  {state reason : String} {candidates : List CandidateStateRow}

/-- What a call has stored that returns a plan. -/
theorem stored_of_evaluate
    (hdecide : decideCandidate codec.unicode call.loaded call.reads call.now
      = .ok (.terminal decision))
    (hevaluate : call.evaluate codec tables
      = .ok (tables', .terminal state reason matchId (some planId))) :
    matchId = Evaluation.matchId codec call.input call.loaded decision
      ∧ decision.outcome = .matched
      ∧ Inserts matchId decision.mappings tables.mappings tables'.mappings
      ∧ persistPlan codec tables.plans call.input call.loaded decision matchId call.now
        = .ok (tables'.plans, planId) := by
  unfold Call.evaluate evaluateCandidate at hevaluate
  rw [hdecide] at hevaluate
  obtain ⟨hinserts, _, _, _, hresult, hplan⟩ :=
    persistTerminal_eq_ok ⟨call.input, call.loaded, decision, call.isLoaded⟩ hevaluate
  obtain ⟨-, -, rfl, rfl⟩ := EvaluationResult.terminal.inj hresult
  rcases hplan with ⟨hnone, -⟩ | ⟨id, hid, hmatched, hplan⟩
  · cases hnone
  · obtain rfl := Option.some_inj.mp hid
    exact ⟨rfl, hmatched, hinserts, hplan⟩

/-- The calls after a call keep what it has stored. -/
theorem grows_of_evaluate
    (hevaluate : call.evaluate codec (tablesAfter codec candidates earlier)
      = .ok (tables', .terminal state reason matchId (some planId))) :
    Grows tables' (tablesAfter codec candidates (earlier ++ call :: later)) := by
  have hafter : tablesAfter codec candidates (earlier ++ [call]) = tables' := by
    rw [tablesAfter_append]
    unfold after
    rw [hevaluate]
  rw [List.append_cons, ← hafter]
  exact grows_tablesAfter candidates _ later

/-- The decision of a call is one of those of the run. -/
theorem decided_mem_run
    (hdecide : decideCandidate codec.unicode call.loaded call.reads call.now
      = .ok (.terminal decision)) :
    ⟨call.input, call.loaded, decision, call.isLoaded⟩
      ∈ (earlier ++ call :: later).flatMap (Call.decided codec) :=
  List.mem_flatMap.mpr ⟨call, by simp, by
    rw [Call.decided_eq hdecide]
    exact List.mem_singleton_self _⟩

/-- **The mappings of a match**, after any later calls: those of its decision, each of them once. -/
theorem mappings_of_match
    (hlawful : LawfulPlans codec ((earlier ++ call :: later).flatMap (Call.decided codec)))
    (hdecide : decideCandidate codec.unicode call.loaded call.reads call.now
      = .ok (.terminal decision))
    (hevaluate : call.evaluate codec (tablesAfter codec candidates earlier)
      = .ok (tables', .terminal state reason matchId (some planId)))
    (hordinals : (decision.mappings.map FileMapping.candidateOrdinal).Nodup) :
    ((tablesAfter codec candidates (earlier ++ call :: later)).mappings.filter
        fun row => row.matchId = matchId).Perm (decision.mappings.map (mappingRow matchId)) := by
  obtain ⟨rfl, -, hinserts, -⟩ := stored_of_evaluate hdecide hevaluate
  have hgrows := @grows_of_evaluate codec tables' earlier later _ _ _ _ _ _ hevaluate
  have hlinked := @linked_tablesAfter codec candidates (earlier ++ call :: later)
  have hmem := @decided_mem_run codec earlier later call decision hdecide
  have hrows : ∀ row ∈ (tablesAfter codec candidates (earlier ++ call :: later)).mappings,
      row.matchId = Evaluation.matchId codec call.input call.loaded decision →
      ∃ mapping ∈ decision.mappings, row =
        mappingRow (Evaluation.matchId codec call.input call.loaded decision) mapping :=
    fun row hrow hmatch => mapping_of_row hlinked hlawful.toLawful hmem hrow hmatch
  have hnodup : ((decision.mappings.map (mappingRow
      (Evaluation.matchId codec call.input call.loaded decision))).map
        MappingRow.candidateOrdinal).Nodup := by
    rw [List.map_map]
    exact hordinals
  refine (List.perm_ext_iff_of_nodup ((List.Nodup.of_map _ hlinked.mappingKeys).filter _)
    (List.Nodup.of_map _ hnodup)).mpr fun row => ?_
  rw [List.mem_filter, decide_eq_true_eq, List.mem_map]
  constructor
  · rintro ⟨hrow, hmatch⟩
    obtain ⟨mapping, hmapping, rfl⟩ := hrows row hrow hmatch
    exact ⟨mapping, hmapping, rfl⟩
  · rintro ⟨mapping, hmapping, rfl⟩
    refine ⟨?_, rfl⟩
    -- The row that is found under the key of the mapping is its own.
    obtain ⟨row, hrow, hkey⟩ := hinserts.found mapping hmapping
    obtain ⟨hmatch, hordinal⟩ := Prod.mk.inj hkey
    obtain ⟨other, hother, rfl⟩ := hrows row (hgrows.mappings.subset hrow) hmatch
    obtain rfl : other = mapping :=
      List.inj_on_of_nodup_map hordinals hother hmapping hordinal
    exact hgrows.mappings.subset hrow

/-- **The plan of a match**, after any later calls: the row with its id names the match. -/
theorem plan_of_match
    (hlawful : LawfulPlans codec ((earlier ++ call :: later).flatMap (Call.decided codec)))
    (hdecide : decideCandidate codec.unicode call.loaded call.reads call.now
      = .ok (.terminal decision))
    (hevaluate : call.evaluate codec (tablesAfter codec candidates earlier)
      = .ok (tables', .terminal state reason matchId (some planId))) :
    ∃ plan, (tablesAfter codec candidates (earlier ++ call :: later)).plans.filter
        (fun row => row.id = planId) = [plan] ∧ plan.matchId = matchId := by
  obtain ⟨rfl, -, -, hplan⟩ := stored_of_evaluate hdecide hevaluate
  have hgrows := @grows_of_evaluate codec tables' earlier later _ _ _ _ _ _ hevaluate
  have hlinked := @linked_tablesAfter codec candidates (earlier ++ call :: later)
  have hmem := @decided_mem_run codec earlier later call decision hdecide
  obtain ⟨-, -, -, ⟨plan, hlookup, hdigest⟩, -⟩ :=
    persistPlan_eq_ok ⟨call.input, call.loaded, decision, call.isLoaded⟩ hplan
  obtain ⟨hplans, rfl⟩ := lookup_eq_some_mem hlookup
  have hplan := hgrows.plans.subset hplans
  refine ⟨plan, UniqueKey.filter_eq hlinked.planIds hplan fun other hother => ?_, ?_⟩
  · rw [decide_eq_true_eq]
    exact ⟨List.inj_on_of_nodup_map hlinked.planIds hother hplan, congrArg PlanRow.id⟩
  · obtain ⟨d, hd, -, hdigest', hmatch⟩ := hlinked.plans plan hplan
    have hsame := hlawful.planDigest d hd
      ⟨call.input, call.loaded, decision, call.isLoaded⟩ hmem (hdigest'.symm.trans hdigest)
    exact hmatch.trans hsame

end

/-- One decision alone has one plan. -/
theorem lawfulPlans_singleton (codec : EvaluationCodec) (call : Call) :
    LawfulPlans codec (([] ++ [call]).flatMap (Call.decided codec)) := by
  refine ⟨lawful_singleton codec call, fun d hd d' hd' _ => ?_⟩
  rw [List.nil_append, List.flatMap_singleton] at hd hd'
  unfold Call.decided at hd hd'
  split at hd
  · rename_i hdecide
    rw [hdecide] at hd'
    rw [List.mem_singleton.mp hd, List.mem_singleton.mp hd']
  · cases hd

end Sporos.Service.StoredMappings
