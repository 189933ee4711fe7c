import Sporos.Service.Evaluation

/-! # Stored decisions

What `persist_terminal` leaves. It stores a decision if, and only if, the numbers of the decision
are integers of a column; then the row of the match carries the codes of the decision, and what is
returned names that row (`persistTerminal_spec`). The ids of the rows are hashes. In a run of
evaluations every row comes from a decision of the run (`stored_tablesAfter`), so that no conflict
on an id hides a decision unless two hashes collide. -/

namespace Sporos.Service.StoredDecisions

open Sporos.Model.Matching
open Sporos.Service.Tables
open Sporos.Service.Ingress
open Sporos.Service.Selection
open Sporos.Service.Evaluation
open Sporos.Lib.Table
open Sporos.Lib.Loop

/-! ### Calls -/

/-- A call of `evaluate_candidate`: its input, the candidate that is loaded for it, what its queries
return, and the time. -/
structure Call where
  input : CandidateInput
  loaded : LoadedCandidate
  reads : Reads
  now : ℤ
  isLoaded : loaded.id = input.candidateId

/-- A decision that is to be stored. -/
structure Decided where
  input : CandidateInput
  loaded : LoadedCandidate
  decision : MatchDecision
  isLoaded : loaded.id = input.candidateId

section

variable (codec : EvaluationCodec)

/-- The call of `evaluate_candidate`. -/
def Call.evaluate (call : Call) (tables : MatchTables) :
    Except EvaluationError (MatchTables × EvaluationResult) :=
  evaluateCandidate codec tables call.input call.loaded call.reads call.now

/-- The decision that a call stores, if it comes to one. -/
def Call.decided (call : Call) : List Decided :=
  match decideCandidate codec.unicode call.loaded call.reads call.now with
  | .ok (.terminal decision) => [⟨call.input, call.loaded, decision, call.isLoaded⟩]
  | _ => []

/-- The tables after a call; one that fails leaves them. -/
def after (tables : MatchTables) (call : Call) : MatchTables :=
  match call.evaluate codec tables with
  | .ok (tables, _) => tables
  | .error _ => tables

/-- The tables after a run of calls, the first of them on tables with candidates only. -/
def tablesAfter (candidates : List CandidateStateRow) (calls : List Call) : MatchTables :=
  calls.foldl (after codec) (.initial candidates)

/-- The id of the row of a decision. -/
def Decided.matchId (d : Decided) : Id := Evaluation.matchId codec d.input d.loaded d.decision

/-- The digest of the plan of a decision. -/
def Decided.planDigest (d : Decided) : Digest :=
  codec.sha256 (utf8 (codec.planJson d.loaded (d.matchId codec) d.decision))

/-- What the encoders and SHA-256 promise about the decisions in use: different decisions have
different digests, and different contents have different ids. -/
structure Lawful (used : List Decided) : Prop where
  decisionDigest : ∀ d ∈ used, ∀ d' ∈ used,
    decisionDigest codec d.decision = decisionDigest codec d'.decision → d.decision = d'.decision
  matchId : ∀ d ∈ used, ∀ d' ∈ used, d.matchId codec = d'.matchId codec →
    d.loaded.id = d'.loaded.id ∧ Evaluation.decisionDigest codec d.decision =
      Evaluation.decisionDigest codec d'.decision
  planId : ∀ d ∈ used, ∀ d' ∈ used, first16 (d.planDigest codec) = first16 (d'.planDigest codec) →
    d.planDigest codec = d'.planDigest codec

/-- Every row of the tables comes from a decision in use. -/
structure Stored (used : List Decided) (tables : MatchTables) : Prop where
  decisions : ∀ row ∈ tables.decisions, ∃ d ∈ used, ∃ now,
    row = matchRow codec d.input d.loaded d.decision now
  plans : ∀ row ∈ tables.plans, ∃ d ∈ used,
    row.id = first16 (d.planDigest codec) ∧ row.planDigest = d.planDigest codec

end

/-- The numbers of a decision are integers of a column. -/
structure Storable (decision : MatchDecision) : Prop where
  mappedBytes : decision.mappedBytes ≤ i64Max
  missingBytes : decision.missingBytes ≤ i64Max
  sourceFileIds : ∀ mapping ∈ decision.mappings, mapping.sourceFileId ≤ i64Max
  sizes : ∀ mapping ∈ decision.mappings, mapping.size ≤ i64Max

/-- The call has stored and returned a decision with these codes: the row of the match that it
returns belongs to the candidate and carries the outcome and the reason, and the candidate is in the
state that is returned. -/
def EndsWith (codec : EvaluationCodec) (tables : MatchTables) (call : Call)
    (state outcome reason : String) : Prop :=
  ∃ tables' matchId planId row, call.evaluate codec tables = .ok (tables',
    .terminal state reason matchId planId)
    ∧ lookup MatchRow.id tables'.decisions matchId = some row
    ∧ row.candidateId = call.input.candidateId ∧ row.outcome = outcome ∧ row.reasonCode = reason
    ∧ ∀ candidate ∈ tables'.candidates, candidate.id = call.input.candidateId →
      candidate.state = state

variable {codec : EvaluationCodec} {used : List Decided} {tables tables' : MatchTables}
  {d : Decided} {now : ℤ}

/-! ### The statements of the transaction -/

theorem toI64_eq_ok {value n : ℕ} {field : String} :
    toI64 value field = .ok n ↔ value ≤ i64Max ∧ value = n := by
  unfold toI64
  split_ifs with h
  · exact iff_of_false (by simp) fun hle => absurd hle.1 (not_le.mpr h)
  · rw [Except.ok.injEq, and_iff_right (not_lt.mp h)]

theorem toI64_eq_error {value : ℕ} {field : String} (h : ¬ value ≤ i64Max) :
    toI64 value field = .error (.range field) :=
  if_pos (not_le.mp h)

theorem persistMapping_eq_ok {matchId : Id} {rows rows' : List MappingRow} {mapping : FileMapping} :
    persistMapping matchId rows mapping = .ok rows'
      ↔ (mapping.sourceFileId ≤ i64Max ∧ mapping.size ≤ i64Max)
        ∧ insertOrIgnore MappingRow.key rows (mappingRow matchId mapping) = rows' := by
  unfold persistMapping
  simp only [bind_eq_ok, toI64_eq_ok, pure, Except.pure, Except.ok.injEq]
  constructor
  · rintro ⟨_, ⟨hid, rfl⟩, _, ⟨hsize, rfl⟩, hrows⟩
    exact ⟨⟨hid, hsize⟩, hrows⟩
  · rintro ⟨⟨hid, hsize⟩, hrows⟩
    exact ⟨_, ⟨hid, rfl⟩, _, ⟨hsize, rfl⟩, hrows⟩

/-- The mappings are stored if their numbers fit, and otherwise the transaction fails at one of
them. -/
theorem persistMappings_spec (matchId : Id) (mappings : List FileMapping) (rows : List MappingRow) :
    ((∀ mapping ∈ mappings, mapping.sourceFileId ≤ i64Max ∧ mapping.size ≤ i64Max) →
        ∃ rows', mappings.foldlM (persistMapping matchId) rows = .ok rows')
      ∧ (¬ (∀ mapping ∈ mappings, mapping.sourceFileId ≤ i64Max ∧ mapping.size ≤ i64Max) →
        ∃ field, mappings.foldlM (persistMapping matchId) rows = .error (.range field)) := by
  induction mappings generalizing rows with
  | nil => exact ⟨fun _ => ⟨rows, rfl⟩, fun h =>
    absurd (fun _ hmem => absurd hmem List.not_mem_nil) h⟩
  | cons mapping mappings ih =>
    rw [List.forall_mem_cons, List.foldlM_cons]
    by_cases hfits : mapping.sourceFileId ≤ i64Max ∧ mapping.size ≤ i64Max
    · obtain ⟨hstored, hfailed⟩ :=
        ih (insertOrIgnore MappingRow.key rows (mappingRow matchId mapping))
      have hfirst : persistMapping matchId rows mapping
          = .ok (insertOrIgnore MappingRow.key rows (mappingRow matchId mapping)) :=
        persistMapping_eq_ok.mpr ⟨hfits, rfl⟩
      rw [hfirst, and_iff_right hfits]
      exact ⟨hstored, hfailed⟩
    · refine ⟨fun h => absurd h.1 hfits, fun _ => ?_⟩
      unfold persistMapping
      by_cases hid : mapping.sourceFileId ≤ i64Max
      · rw [toI64_eq_ok.mpr ⟨hid, rfl⟩, toI64_eq_error fun hsize => hfits ⟨hid, hsize⟩]
        exact ⟨_, rfl⟩
      · rw [toI64_eq_error hid]
        exact ⟨_, rfl⟩

/-- The row that a decision finds under its id is a row of the same decision. -/
theorem Stored.row_eq (h : Stored codec used tables)
    (hlawful : Lawful codec (d :: used)) (now : ℤ) :
    ∃ row, lookup MatchRow.id
        (insertOrIgnore MatchRow.id tables.decisions
          (matchRow codec d.input d.loaded d.decision now))
        (d.matchId codec) = some row
      ∧ row.candidateId = d.input.candidateId ∧ row.outcome = outcomeCode d.decision.outcome
      ∧ row.reasonCode = reasonCode d.decision.reason ∧ row.decisionDigest =
        decisionDigest codec d.decision := by
  have hlookup := @lookup_insertOrIgnore_self _ _ _ MatchRow.id tables.decisions
    (matchRow codec d.input d.loaded d.decision now)
  refine ⟨_, hlookup, ?_⟩
  cases hold : lookup MatchRow.id tables.decisions (matchRow codec d.input d.loaded
    d.decision now).id with
  | none => exact ⟨rfl, rfl, rfl, rfl⟩
  | some row =>
    obtain ⟨hmem, hid⟩ := lookup_eq_some_mem hold
    obtain ⟨d', hd', now', rfl⟩ := h.decisions row hmem
    obtain ⟨hloaded, hdigest⟩ :=
      hlawful.matchId d' (List.mem_cons_of_mem _ hd') d List.mem_cons_self hid
    have hdecision :=
      hlawful.decisionDigest d' (List.mem_cons_of_mem _ hd') d List.mem_cons_self hdigest
    rw [d'.isLoaded, d.isLoaded] at hloaded
    rw [Option.getD_some, matchRow, hdecision]
    exact ⟨hloaded, rfl, rfl, rfl⟩

theorem Stored.decisions_insert (h : Stored codec used tables) (now : ℤ) :
    ∀ row ∈ insertOrIgnore MatchRow.id tables.decisions (matchRow codec d.input d.loaded
      d.decision now),
      ∃ d' ∈ d :: used, ∃ now', row = matchRow codec d'.input d'.loaded d'.decision now' := by
  intro row hrow
  rcases mem_insertOrIgnore hrow with hold | ⟨rfl, -⟩
  · obtain ⟨d', hd', hnow⟩ := h.decisions row hold
    exact ⟨d', List.mem_cons_of_mem _ hd', hnow⟩
  · exact ⟨d, List.mem_cons_self, now, rfl⟩

/-- The plan of a decision is stored, or it is there already. -/
theorem Stored.persistPlan_eq (h : Stored codec used tables)
    (hlawful : Lawful codec (d :: used)) (now : ℤ) :
    ∃ plans, persistPlan codec tables.plans d.input d.loaded d.decision (d.matchId codec) now
        = .ok (plans, first16 (d.planDigest codec))
      ∧ ∀ row ∈ plans, ∃ d' ∈ d :: used, row.id = first16 (d'.planDigest codec)
        ∧ row.planDigest = d'.planDigest codec := by
  have hplans : ∀ row ∈ tables.plans, ∃ d' ∈ d :: used, row.id = first16 (d'.planDigest codec)
      ∧ row.planDigest = d'.planDigest codec := fun row hrow => by
    obtain ⟨d', hd', hrow'⟩ := h.plans row hrow
    exact ⟨d', List.mem_cons_of_mem _ hd', hrow'⟩
  let new : PlanRow :=
    { id := first16 (d.planDigest codec)
      matchId := d.matchId codec
      candidateId := d.input.candidateId
      planDigest := d.planDigest codec
      state := if d.loaded.policy.dryRun then "dry_run_complete" else "planned"
      createdAt := now }
  have hlookup := @lookup_insertOrIgnore_self _ _ _ PlanRow.id tables.plans new
  have hdigest : ((lookup PlanRow.id tables.plans new.id).getD new).planDigest =
      d.planDigest codec := by
    cases hold : lookup PlanRow.id tables.plans new.id with
    | none => rfl
    | some row =>
      obtain ⟨hmem, hid⟩ := lookup_eq_some_mem hold
      obtain ⟨d', hd', hrow, hplan⟩ := hplans row hmem
      exact hplan.trans (hlawful.planId d' hd' d List.mem_cons_self (hrow.symm.trans hid))
  refine ⟨insertOrIgnore PlanRow.id tables.plans new, ?_, fun row hrow => ?_⟩
  · exact if_pos ((congrArg (Option.map PlanRow.planDigest) hlookup).trans (congrArg some hdigest))
  · rcases mem_insertOrIgnore hrow with hold | ⟨rfl, -⟩
    · exact hplans row hold
    · exact ⟨d, List.mem_cons_self, rfl, rfl⟩

/-! ### The transaction -/

/-- What the transaction leaves of a decision. -/
structure Persisted (codec : EvaluationCodec) (used : List Decided) (d : Decided)
    (tables' : MatchTables) : Prop where
  row : ∃ row, lookup MatchRow.id tables'.decisions (d.matchId codec) = some row
    ∧ row.candidateId = d.input.candidateId ∧ row.outcome = outcomeCode d.decision.outcome
    ∧ row.reasonCode = reasonCode d.decision.reason
  candidates : ∀ candidate ∈ tables'.candidates, candidate.id = d.input.candidateId →
    candidate.state = terminalState d.decision d.loaded.policy.dryRun
  stored : Stored codec (d :: used) tables'

theorem state_of_updateKey {candidates : List CandidateStateRow} {id : Id} {state : String} :
    ∀ candidate ∈ updateKey CandidateStateRow.id candidates id
        (fun candidate => { candidate with state, updatedAt := now }),
      candidate.id = id → candidate.state = state := by
  intro candidate hmem hid
  obtain ⟨old, hold, rfl⟩ := List.mem_map.mp hmem
  split_ifs at hid ⊢ with hkey
  · rfl
  · exact absurd hid hkey

/-- **The transaction of a decision.** It commits if, and only if, the numbers of the decision fit,
and fails with a range error otherwise; after it the row of the match has the codes of the decision,
and what is returned names that row. -/
theorem persistTerminal_spec (h : Stored codec used tables)
    (hlawful : Lawful codec (d :: used)) (now : ℤ) :
    (Storable d.decision → ∃ tables' planId,
        persistTerminal codec tables d.input d.loaded d.decision now
          = .ok (tables', .terminal (terminalState d.decision d.loaded.policy.dryRun)
            (reasonCode d.decision.reason)
              (d.matchId codec) planId)
        ∧ Persisted codec used d tables')
      ∧ (¬ Storable d.decision → ∃ field,
        persistTerminal codec tables d.input d.loaded d.decision now = .error (.range field)) := by
  obtain ⟨row, hrow, hcandidate, houtcome, hreason, hdigest⟩ := h.row_eq hlawful now
  have hsame : (lookup MatchRow.id
      (insertOrIgnore MatchRow.id tables.decisions (matchRow codec d.input d.loaded d.decision now))
      (matchRow codec d.input d.loaded d.decision now).id).map MatchRow.decisionDigest
        = some (matchRow codec d.input d.loaded d.decision now).decisionDigest :=
    (congrArg (Option.map MatchRow.decisionDigest) hrow).trans (congrArg some hdigest)
  unfold persistTerminal
  by_cases hmapped : d.decision.mappedBytes ≤ i64Max
  case neg =>
    rw [toI64_eq_error hmapped]
    exact ⟨fun hstorable => absurd hstorable.mappedBytes hmapped, fun _ => ⟨_, rfl⟩⟩
  by_cases hmissing : d.decision.missingBytes ≤ i64Max
  case neg =>
    rw [toI64_eq_ok.mpr ⟨hmapped, rfl⟩, toI64_eq_error hmissing]
    exact ⟨fun hstorable => absurd hstorable.missingBytes hmissing, fun _ => ⟨_, rfl⟩⟩
  rw [toI64_eq_ok.mpr ⟨hmapped, rfl⟩, toI64_eq_ok.mpr ⟨hmissing, rfl⟩]
  dsimp only [bind, Except.bind]
  rw [if_neg (not_not.mpr hsame)]
  dsimp only [pure, Except.pure]
  obtain ⟨hfits, hfails⟩ := persistMappings_spec (matchRow codec d.input d.loaded d.decision now).id
    d.decision.mappings tables.mappings
  refine ⟨fun hstorable => ?_, fun hstorable => ?_⟩
  · obtain ⟨mappings, hmappings⟩ := hfits fun mapping hmem =>
      ⟨hstorable.sourceFileIds mapping hmem, hstorable.sizes mapping hmem⟩
    rw [hmappings]
    dsimp only
    split_ifs with hmatched
    · obtain ⟨plans, hplans, hrows⟩ := h.persistPlan_eq hlawful now
      rw [show (matchRow codec d.input d.loaded d.decision now).id =
        d.matchId codec from rfl, hplans]
      exact ⟨_, _, rfl, ⟨row, hrow, hcandidate, houtcome, hreason⟩, state_of_updateKey,
        h.decisions_insert now, hrows⟩
    · refine ⟨_, _, rfl, ⟨row, hrow, hcandidate, houtcome, hreason⟩, state_of_updateKey,
        h.decisions_insert now, fun row hrow => ?_⟩
      obtain ⟨d', hd', hplan⟩ := h.plans row hrow
      exact ⟨d', List.mem_cons_of_mem _ hd', hplan⟩
  · obtain ⟨field, hfield⟩ := hfails fun hall => hstorable
      ⟨hmapped, hmissing, fun mapping hmem => (hall mapping hmem).1, fun mapping hmem =>
        (hall mapping hmem).2⟩
    rw [hfield]
    exact ⟨field, rfl⟩

/-! ### Runs -/

theorem Lawful.mono {used' : List Decided} (h : Lawful codec used') (hsub : used ⊆ used') :
    Lawful codec used where
  decisionDigest := fun d hd d' hd' => h.decisionDigest d (hsub hd) d' (hsub hd')
  matchId := fun d hd d' hd' => h.matchId d (hsub hd) d' (hsub hd')
  planId := fun d hd d' hd' => h.planId d (hsub hd) d' (hsub hd')

theorem Stored.mono {used' : List Decided} (h : Stored codec used tables) (hsub : used ⊆ used') :
    Stored codec used' tables where
  decisions := fun row hrow => by
    obtain ⟨d, hd, hnow⟩ := h.decisions row hrow
    exact ⟨d, hsub hd, hnow⟩
  plans := fun row hrow => by
    obtain ⟨d, hd, hplan⟩ := h.plans row hrow
    exact ⟨d, hsub hd, hplan⟩

/-- The call has come to a decision. -/
theorem Call.decided_eq {call : Call} {decision : MatchDecision}
    (hdecide : decideCandidate codec.unicode call.loaded call.reads call.now
      = .ok (.terminal decision)) :
    call.decided codec = [⟨call.input, call.loaded, decision, call.isLoaded⟩] := by
  unfold Call.decided
  rw [hdecide]

/-- A call that comes to a decision stores and returns it, or fails with a range error. -/
theorem evaluate_spec {call : Call} (h : Stored codec used tables)
    (hlawful : Lawful codec (call.decided codec ++ used)) {decision : MatchDecision}
    (hdecide : decideCandidate codec.unicode call.loaded call.reads call.now
      = .ok (.terminal decision)) :
    (Storable decision → ∃ tables' matchId planId,
        call.evaluate codec tables = .ok (tables',
          .terminal (terminalState decision call.loaded.policy.dryRun)
            (reasonCode decision.reason) matchId planId)
        ∧ (∃ row, lookup MatchRow.id tables'.decisions matchId = some row
          ∧ row.candidateId = call.input.candidateId ∧ row.outcome = outcomeCode decision.outcome
          ∧ row.reasonCode = reasonCode decision.reason)
        ∧ (∀ candidate ∈ tables'.candidates, candidate.id = call.input.candidateId →
          candidate.state = terminalState decision call.loaded.policy.dryRun)
        ∧ Stored codec (call.decided codec ++ used) tables')
      ∧ (¬ Storable decision → ∃ field, call.evaluate codec tables = .error (.range field)) := by
  rw [Call.decided_eq hdecide] at hlawful ⊢
  obtain ⟨hstored, hfailed⟩ := persistTerminal_spec
    (d := ⟨call.input, call.loaded, decision, call.isLoaded⟩) h hlawful call.now
  unfold Call.evaluate evaluateCandidate
  rw [hdecide]
  refine ⟨fun hstorable => ?_, hfailed⟩
  obtain ⟨tables', planId, hok, hleft⟩ := hstored hstorable
  exact ⟨tables', _, planId, hok, hleft.row, hleft.candidates, hleft.stored⟩

/-- A call that returns a match has come to a decision. -/
theorem decided_of_evaluate {call : Call} {state reason : String} {matchId : Id}
    {planId : Option Id}
    (h : call.evaluate codec tables = .ok (tables', .terminal state reason matchId planId)) :
    ∃ decision, decideCandidate codec.unicode call.loaded call.reads call.now
      = .ok (.terminal decision) := by
  unfold Call.evaluate evaluateCandidate at h
  obtain ⟨verdict, hdecide, hverdict⟩ := bind_eq_ok.mp h
  cases verdict with
  | waiting delayMs sourceIds => cases hverdict
  | terminal decision => exact ⟨decision, hdecide⟩

/-- Every call keeps that the rows come from decisions. -/
theorem stored_after {call : Call} (h : Stored codec used tables)
    (hlawful : Lawful codec (call.decided codec ++ used)) :
    Stored codec (call.decided codec ++ used) (after codec tables call) := by
  have hkept : Stored codec (call.decided codec ++ used) tables :=
    h.mono (List.subset_append_right _ _)
  unfold after
  cases hdecide : decideCandidate codec.unicode call.loaded call.reads call.now with
  | error e =>
    unfold Call.evaluate evaluateCandidate
    rw [hdecide]
    exact hkept
  | ok verdict =>
    cases verdict with
    | waiting delayMs sourceIds =>
      unfold Call.evaluate evaluateCandidate
      rw [hdecide]
      exact ⟨hkept.decisions, hkept.plans⟩
    | terminal decision =>
      obtain ⟨hstored, hfailed⟩ := evaluate_spec h hlawful hdecide
      by_cases hstorable : Storable decision
      · obtain ⟨tables', matchId, planId, hok, -, -, hleft⟩ := hstored hstorable
        rw [hok]
        exact hleft
      · obtain ⟨field, herror⟩ := hfailed hstorable
        rw [herror]
        exact hkept

/-- **After every run of calls** the rows of the tables come from the decisions of the run. -/
theorem stored_tablesAfter (candidates : List CandidateStateRow) {calls : List Call}
    (hlawful : Lawful codec (calls.flatMap (Call.decided codec))) :
    Stored codec (calls.flatMap (Call.decided codec)) (tablesAfter codec candidates calls) := by
  induction calls using List.reverseRecOn with
  | nil => exact ⟨fun _ hrow => absurd hrow List.not_mem_nil, fun _ hrow =>
    absurd hrow List.not_mem_nil⟩
  | append_singleton calls call ih =>
    have hsub : call.decided codec ++ calls.flatMap (Call.decided codec)
        ⊆ (calls ++ [call]).flatMap (Call.decided codec) := by
      rw [List.flatMap_append, List.flatMap_singleton]
      exact List.append_subset.mpr ⟨List.subset_append_right _ _, List.subset_append_left _ _⟩
    have hbefore := ih (hlawful.mono fun d hd => hsub (List.mem_append_right _ hd))
    have hafter := stored_after hbefore (hlawful.mono hsub)
    unfold tablesAfter at hafter ⊢
    rw [List.foldl_append]
    exact hafter.mono hsub

/-- **What a call ends with.** A call stores and returns some codes if, and only if, it comes to a
decision with these codes whose numbers fit. -/
theorem endsWith_iff {call : Call} (h : Stored codec used tables)
    (hlawful : Lawful codec (call.decided codec ++ used)) {state outcome reason : String} :
    EndsWith codec tables call state outcome reason
      ↔ ∃ decision, decideCandidate codec.unicode call.loaded call.reads call.now
          = .ok (.terminal decision)
        ∧ Storable decision ∧ terminalState decision call.loaded.policy.dryRun = state
        ∧ outcomeCode decision.outcome = outcome ∧ reasonCode decision.reason = reason := by
  constructor
  · rintro ⟨tables', matchId, planId, row, hok, hrow, -, houtcome, -, -⟩
    obtain ⟨decision, hdecide⟩ := decided_of_evaluate hok
    obtain ⟨hstored, hfailed⟩ := evaluate_spec h hlawful hdecide
    by_cases hstorable : Storable decision
    · obtain ⟨tables'', matchId', planId', hok', ⟨row', hrow', -, houtcome', -⟩, -, -⟩ :=
        hstored hstorable
      obtain ⟨htables, hresult⟩ := Prod.mk.inj (Except.ok.inj (hok'.symm.trans hok))
      obtain ⟨hstate, hreason, hid, -⟩ := EvaluationResult.terminal.inj hresult
      rw [htables, hid, hrow, Option.some_inj] at hrow'
      exact ⟨decision, hdecide, hstorable, hstate, houtcome'.symm.trans (hrow' ▸ houtcome), hreason⟩
    · obtain ⟨field, herror⟩ := hfailed hstorable
      cases herror.symm.trans hok
  · rintro ⟨decision, hdecide, hstorable, rfl, rfl, rfl⟩
    obtain ⟨tables', matchId, planId, hok, ⟨row, hrow, hcandidate, houtcome, hreason⟩, hstate, -⟩ :=
      (evaluate_spec h hlawful hdecide).1 hstorable
    exact ⟨tables', matchId, planId, row, hok, hrow, hcandidate, houtcome, hreason, hstate⟩

/-- A call that comes to a decision ends with it, or fails with a range error. -/
theorem endsWith_or_range {call : Call} (h : Stored codec used tables)
    (hlawful : Lawful codec (call.decided codec ++ used)) {decision : MatchDecision}
    (hdecide : decideCandidate codec.unicode call.loaded call.reads call.now
      = .ok (.terminal decision)) :
    EndsWith codec tables call (terminalState decision call.loaded.policy.dryRun)
        (outcomeCode decision.outcome) (reasonCode decision.reason)
      ∨ ∃ field, call.evaluate codec tables = .error (.range field) := by
  by_cases hstorable : Storable decision
  · exact .inl ((endsWith_iff h hlawful).mpr ⟨decision, hdecide, hstorable, rfl, rfl, rfl⟩)
  · exact .inr ((evaluate_spec h hlawful hdecide).2 hstorable)

section

variable {earlier : List Call} {call : Call} (candidates : List CandidateStateRow)
  (hlawful : Lawful codec ((earlier ++ [call]).flatMap (Call.decided codec)))
include hlawful

theorem lawful_next :
    Stored codec (earlier.flatMap (Call.decided codec)) (tablesAfter codec candidates earlier)
    ∧ Lawful codec (call.decided codec ++ earlier.flatMap (Call.decided codec)) := by
  rw [List.flatMap_append, List.flatMap_singleton] at hlawful
  exact ⟨stored_tablesAfter candidates (hlawful.mono (List.subset_append_left _ _)),
    hlawful.mono (List.append_subset.mpr ⟨List.subset_append_right _ _,
      List.subset_append_left _ _⟩)⟩

/-- What a call ends with after a run of calls. -/
theorem endsWith_after {state outcome reason : String} :
    EndsWith codec (tablesAfter codec candidates earlier) call state outcome reason
      ↔ ∃ decision, decideCandidate codec.unicode call.loaded call.reads call.now
          = .ok (.terminal decision)
        ∧ Storable decision ∧ terminalState decision call.loaded.policy.dryRun = state
        ∧ outcomeCode decision.outcome = outcome ∧ reasonCode decision.reason = reason :=
  endsWith_iff (lawful_next candidates hlawful).1 (lawful_next candidates hlawful).2

theorem endsWith_or_range_after {decision : MatchDecision}
    (hdecide : decideCandidate codec.unicode call.loaded call.reads call.now
      = .ok (.terminal decision)) :
    EndsWith codec (tablesAfter codec candidates earlier) call
        (terminalState decision call.loaded.policy.dryRun) (outcomeCode decision.outcome)
        (reasonCode decision.reason)
      ∨ ∃ field,
        call.evaluate codec (tablesAfter codec candidates earlier) = .error (.range field) :=
  endsWith_or_range (lawful_next candidates hlawful).1 (lawful_next candidates hlawful).2 hdecide

end

/-- One decision alone is told apart from itself. -/
theorem lawful_singleton (codec : EvaluationCodec) (call : Call) :
    Lawful codec (([] ++ [call]).flatMap (Call.decided codec)) := by
  rw [List.nil_append, List.flatMap_singleton]
  have hsame : ∀ d ∈ call.decided codec, ∀ d' ∈ call.decided codec, d = d' := by
    unfold Call.decided
    intro d hd d' hd'
    split at hd
    · rename_i hdecide
      rw [hdecide] at hd'
      exact (List.mem_singleton.mp hd).trans (List.mem_singleton.mp hd').symm
    · exact absurd hd List.not_mem_nil
  exact ⟨fun d hd d' hd' _ => congrArg Decided.decision (hsame d hd d' hd'),
    fun d hd d' hd' _ => by rw [hsame d hd d' hd']; exact ⟨rfl, rfl⟩,
    fun d hd d' hd' _ => by rw [hsame d hd d' hd']⟩

end Sporos.Service.StoredDecisions
