import Sporos.Service.Identity
import Sporos.Service.Search

/-! # Summaries of search results

A summary is keyed by the ordinal of its result in an execution. Its first call writes the whole
row; later ones, of the same execution or of another one of the same attempt, write the state and
the candidate only. So the row has always its first title, fingerprint and size, its last state and
its last candidate (`recorded_of_run`), and it describes one result exactly when the calls for the
ordinal do: `summaries_coherent_iff`. -/

namespace Sporos.Service.SearchSummaries

open Sporos.Matcher.Release (Unicode)
open Sporos.Service.Tables Sporos.Service.Ingress Sporos.Service.Search
open Sporos.Lib.Table Sporos.Lib.Loop

/-! ### Runs -/

/-- An execution of an attempt that ends after a number of its writes, since it was cut off, or one
failed, or there are no more. -/
structure Execution where
  input : SearchInput
  now : I64
  answers : Answers
  cut : ℕ

/-- A write, with the input of its execution. -/
abbrev Step := SearchInput × Write

/-- A call of `summarize`. -/
structure SummaryCall where
  attemptId : Id
  ordinal : ℕ
  result : TorznabResult
  state : String
  candidateId : Option Id

/-- The row that a call is for. -/
def SummaryCall.key (call : SummaryCall) : Id × ℕ := (call.attemptId, call.ordinal)

/-- The call that a write is, if it is one. -/
def Step.call : Step → Option SummaryCall
  | (input, .summarize ordinal result state candidateId) => some ⟨input.attemptId, ordinal, result,
      state, candidateId⟩
  | _ => none

/-- The calls of `summarize` among the writes. -/
def calls (steps : List Step) : List SummaryCall := steps.filterMap Step.call

section

variable (U : Unicode) (message : ProwlarrError → String)

/-- The writes of an execution, up to where it is cut off. -/
def Execution.steps (execution : Execution) : List Step :=
  ((executeWrites U message execution.input execution.now execution.answers).1.take
    execution.cut).map
    (execution.input, ·)

/-- The writes of executions, one after another. -/
def stepsOf (executions : List Execution) : List Step :=
  executions.flatMap (Execution.steps U message)

end

/-- The tables after writes that succeed. -/
def run (codec : Codec) (config : IngressConfig) (s : SearchDb) (steps : List Step) :
    Except SearchError SearchDb :=
  steps.foldlM (fun s step => step.2.apply codec config step.1 s) s

/-! ### Descriptions -/

/-- What a summary says of its result. -/
structure Description where
  title : String
  fingerprint : Digest
  size : Option ℕ
  deriving DecidableEq

/-- How a result is described. -/
def describe (sha256 : Bytes → Digest) (result : TorznabResult) : Description :=
  ⟨result.title, resultFingerprint sha256 result, result.size.filter (· ≤ i64Max)⟩

/-- How a row is described. -/
def description (row : SummaryRow) : Description := ⟨row.title, row.fingerprint, row.size⟩

/-- **The row describes one result**: the last one whose state it has, which is also the last one
whose candidate it has. -/
def Coherent (sha256 : Bytes → Digest) (calls : List SummaryCall) (row : SummaryRow) : Prop :=
  ∃ last, (calls.filter (·.key = row.key)).getLast? = some last ∧ row.state = last.state
    ∧ description row = describe sha256 last.result
    ∧ ∀ id, row.candidateId = some id → ∃ accepted,
      (calls.filter fun call => call.key = row.key
        ∧ call.candidateId.isSome).getLast? = some accepted
        ∧ accepted.candidateId = some id ∧ description row = describe sha256 accepted.result

/-- All calls for an ordinal of an attempt are for results with one description. -/
def Stable (sha256 : Bytes → Digest) (calls : List SummaryCall) : Prop :=
  ∀ call ∈ calls, ∀ call' ∈ calls, call.key = call'.key →
    describe sha256 call.result = describe sha256 call'.result

/-! ### What the rows record -/

section

variable (sha256 : Bytes → Digest)

/-- The row that a call inserts. -/
def SummaryCall.row (call : SummaryCall) : SummaryRow :=
  ⟨call.attemptId, call.ordinal, resultFingerprint sha256 call.result, call.result.title,
    call.result.size.filter (· ≤ i64Max), call.state, call.candidateId⟩

/-- What a call changes of a row that is there. -/
def SummaryCall.update (call : SummaryCall) (row : SummaryRow) : SummaryRow :=
  { row with state := call.state, candidateId := call.candidateId.or row.candidateId }

/-- The row of a key after calls for it. -/
def recordAll (row : Option SummaryRow) (calls : List SummaryCall) : Option SummaryRow :=
  calls.foldl (fun row call => some ((row.map call.update).getD (call.row sha256))) row

variable {sha256}

/-- **The first call describes the row, the last one gives its state, and the last one with a
candidate gives its candidate.** -/
theorem recordAll_eq_some (calls : List SummaryCall) {row : SummaryRow}
    (h : recordAll sha256 none calls = some row) :
    (∃ first, calls.head? = some first ∧ description row = describe sha256 first.result)
      ∧ (∃ last, calls.getLast? = some last ∧ row.state = last.state)
      ∧ row.candidateId = ((calls.filter fun call => call.candidateId.isSome).getLast?).bind
        SummaryCall.candidateId := by
  induction calls using List.reverseRecOn generalizing row with
  | nil => cases h
  | append_singleton calls call ih =>
    rw [recordAll, List.foldl_append, List.foldl_cons, List.foldl_nil, Option.some.injEq] at h
    have hlast : (calls ++ [call]).getLast? = some call := List.getLast?_concat
    have hfilter : (calls ++ [call]).filter (fun call => call.candidateId.isSome)
        = calls.filter (fun call => call.candidateId.isSome) ++ if call.candidateId.isSome
          then [call] else [] := by
      rw [List.filter_append, List.filter_singleton]
      cases call.candidateId.isSome <;> rfl
    cases hrow : recordAll sha256 none calls with
    | none =>
      have hnil : calls = [] := by
        cases calls using List.reverseRecOn with
        | nil => rfl
        | append_singleton calls' call' => rw [recordAll, List.foldl_append] at hrow; cases hrow
      subst hnil
      obtain rfl := h
      refine ⟨⟨call, rfl, rfl⟩, ⟨call, hlast, rfl⟩, ?_⟩
      cases hcandidate : call.candidateId <;> simp [SummaryCall.row, hcandidate]
    | some old =>
      obtain ⟨⟨first, hfirst, hdescription⟩, -, hcandidate⟩ := ih hrow
      rw [show calls.foldl (fun row call =>
        some ((row.map call.update).getD (call.row sha256))) none
        = some old from hrow] at h
      obtain rfl := h
      refine ⟨⟨first, ?_, hdescription⟩, ⟨call, hlast, rfl⟩, ?_⟩
      · rw [List.head?_append, hfirst, Option.some_or]
      · rw [hfilter]
        cases hc : call.candidateId with
        | none => simpa [SummaryCall.update, hc] using hcandidate
        | some id => simp [SummaryCall.update, hc]

end

section

variable {codec : Codec} {config : IngressConfig}

/-- A write changes the summaries as its call does, if it has one. -/
theorem apply_summaries {input : SearchInput} {write : Write} {s s' : SearchDb}
    (h : write.apply codec config input s = .ok s') :
    s'.summaries = match Step.call (input, write) with
      | some call => upsert SummaryRow.key s.summaries (call.row codec.sha256) call.update
      | none => s.summaries := by
  cases write with
  | claim now =>
    obtain ⟨⟨s'', next⟩, hclaim, rfl⟩ := map_eq_ok h
    unfold claimIndexer at hclaim
    split at hclaim <;> split_ifs at hclaim <;>
      rw [← (Prod.mk.inj (Except.ok.inj hclaim)).1] <;> rfl
  | postpone next now =>
    simp only [Write.apply] at h
    split_ifs at h
    rw [← Except.ok.inj h]
    rfl
  | summarize ordinal result state candidateId =>
    simp only [Write.apply, summarize] at h
    split_ifs at h
    rw [← Except.ok.inj h]
    rfl
  | accept submission =>
    simp only [Write.apply] at h
    split at h
    · rw [← Except.ok.inj h]
      rfl
    · cases h
  | searchingTask now => rw [← Except.ok.inj h]; rfl
  | searchingAttempt => rw [← Except.ok.inj h]; rfl
  | waitAttempt next reason => rw [← Except.ok.inj h]; rfl
  | waitTask reason now => rw [← Except.ok.inj h]; rfl
  | finishAttempt now reason failed seen downloaded => rw [← Except.ok.inj h]; rfl
  | finishTask now reason failed => rw [← Except.ok.inj h]; rfl

/-- **The rows of a run**, key by key. -/
theorem recorded_of_run (steps : List Step) : ∀ {s s' : SearchDb},
    run codec config s steps = .ok s' →
    (UniqueKey SummaryRow.key s.summaries → UniqueKey SummaryRow.key s'.summaries)
      ∧ ∀ key, lookup SummaryRow.key s'.summaries key
        = recordAll codec.sha256 (lookup SummaryRow.key s.summaries key)
          ((calls steps).filter (·.key = key)) := by
  induction steps with
  | nil =>
    intro s s' h
    obtain rfl := Except.ok.inj h
    exact ⟨id, fun key => rfl⟩
  | cons step steps ih =>
    intro s s' h
    obtain ⟨input, write⟩ := step
    rw [run, List.foldlM_cons] at h
    obtain ⟨s₁, hwrite, hrest⟩ := bind_eq_ok.mp h
    obtain ⟨hunique, hlookup⟩ := ih hrest
    have hsummaries := apply_summaries hwrite
    cases hcall : Step.call (input, write) with
    | none =>
      rw [hcall] at hsummaries
      rw [show calls ((input, write) :: steps) = calls steps from List.filterMap_cons_none hcall]
      rw [hsummaries] at hunique hlookup
      exact ⟨hunique, hlookup⟩
    | some call =>
      rw [hcall] at hsummaries
      have hkey : ∀ row, SummaryRow.key (call.update row) = SummaryRow.key row := fun _ => rfl
      refine ⟨fun h => hunique (hsummaries ▸ h.upsert hkey _), fun key => ?_⟩
      rw [show calls ((input, write) :: steps) = call :: calls steps from
        List.filterMap_cons_some hcall]
      rw [hlookup, hsummaries, lookup_upsert hkey, List.filter_cons]
      rw [show SummaryRow.key (call.row codec.sha256) = call.key from rfl]
      by_cases heq : call.key = key
      · rw [if_pos heq.symm, if_pos (by simpa using heq)]
        rfl
      · rw [if_neg (Ne.symm heq), if_neg (by simpa using heq)]

theorem run_take {steps : List Step} {s s' : SearchDb}
    (h : run codec config s steps = .ok s') (n : ℕ) :
    ∃ s₁, run codec config s (steps.take n) = .ok s₁ := by
  rw [run, ← List.take_append_drop n steps, List.foldlM_append] at h
  obtain ⟨s₁, hs₁, -⟩ := bind_eq_ok.mp h
  exact ⟨s₁, hs₁⟩

theorem calls_take_prefix (steps : List Step) (n : ℕ) : calls (steps.take n) <+: calls steps := by
  refine ⟨calls (steps.drop n), ?_⟩
  rw [calls, calls, ← List.filterMap_append, List.take_append_drop]
  rfl

/-- The last call of some of the first writes can be any call. -/
theorem exists_take_of_mem_calls : ∀ {steps : List Step} {call : SummaryCall}, call ∈ calls steps →
    ∃ n before, calls (steps.take n) = before ++ [call]
  | [], call, h => by cases h
  | step :: steps, call, h => by
    cases hcall : Step.call step with
    | none =>
      have hcalls : ∀ steps, calls (step :: steps) = calls steps :=
        fun _ => List.filterMap_cons_none hcall
      rw [hcalls] at h
      obtain ⟨n, before, htake⟩ := exists_take_of_mem_calls h
      exact ⟨n + 1, before, by rw [List.take_succ_cons, hcalls, htake]⟩
    | some call' =>
      have hcalls : ∀ steps, calls (step :: steps) = call' :: calls steps :=
        fun _ => List.filterMap_cons_some hcall
      rw [hcalls] at h
      rcases List.mem_cons.mp h with rfl | h
      · exact ⟨1, [], by rw [List.take_succ_cons, hcalls, List.take_zero]; rfl⟩
      · obtain ⟨n, before, htake⟩ := exists_take_of_mem_calls h
        exact ⟨n + 1, call' :: before, by rw [List.take_succ_cons, hcalls, htake]; rfl⟩

end

section

variable {codec : Codec} {config : IngressConfig} {steps : List Step} {s s' : SearchDb}

/-- A row after a run from no summary on is what the calls for its key record. -/
theorem recordAll_of_mem (hempty : s.summaries = []) (hrun : run codec config s steps = .ok s')
    {row : SummaryRow} (hrow : row ∈ s'.summaries) :
    recordAll codec.sha256 none ((calls steps).filter (·.key = row.key)) = some row := by
  obtain ⟨hunique, hlookup⟩ := recorded_of_run steps hrun
  have hnone : lookup SummaryRow.key s.summaries row.key = none := by rw [hempty]; rfl
  rw [← hnone, ← hlookup]
  exact (hunique (by rw [hempty]; exact List.nodup_nil)).lookup_of_mem hrow rfl

theorem coherent_of_stable (hempty : s.summaries = []) (hrun : run codec config s steps = .ok s')
    (hstable : Stable codec.sha256 (calls steps)) {row : SummaryRow} (hrow : row ∈ s'.summaries) :
    Coherent codec.sha256 (calls steps) row := by
  obtain ⟨⟨first, hfirst, hdescription⟩, ⟨last, hlast, hstate⟩, hcandidate⟩ :=
    recordAll_eq_some _ (recordAll_of_mem hempty hrun hrow)
  obtain ⟨hfirstMem, hfirstKey⟩ := List.mem_filter.mp (List.mem_of_head? hfirst)
  have hdescribe : ∀ call ∈ calls steps, call.key = row.key →
      description row = describe codec.sha256 call.result := fun call hcall hkey => by
    rw [hdescription]
    exact hstable first hfirstMem call hcall ((of_decide_eq_true hfirstKey).trans hkey.symm)
  obtain ⟨hlastMem, hlastKey⟩ := List.mem_filter.mp (List.mem_of_getLast? hlast)
  refine ⟨last, hlast, hstate, hdescribe last hlastMem (of_decide_eq_true hlastKey),
    fun id hid => ?_⟩
  rw [hid] at hcandidate
  obtain ⟨accepted, haccepted, hacceptedId⟩ := Option.bind_eq_some_iff.mp hcandidate.symm
  rw [List.filter_filter] at haccepted
  obtain ⟨hacceptedMem, hacceptedKey⟩ := List.mem_filter.mp (List.mem_of_getLast? haccepted)
  simp only [Bool.and_eq_true, decide_eq_true_eq] at hacceptedKey
  refine ⟨accepted, ?_, hacceptedId, hdescribe accepted hacceptedMem hacceptedKey.2⟩
  rw [← haccepted]
  congr 2
  funext call
  rw [Bool.eq_iff_iff, Bool.and_eq_true, decide_eq_true_eq, decide_eq_true_eq, and_comm]

/-- Where the state after a call is coherent, the call is for a result with the description of the
first one. -/
theorem describe_of_coherent (hempty : s.summaries = []) (hrun : run codec config s steps = .ok s')
    (hcoherent : ∀ row ∈ s'.summaries, Coherent codec.sha256 (calls steps) row)
    {before : List SummaryCall} {call : SummaryCall} (hcalls : calls steps = before ++ [call]) :
    ∃ first, ((calls steps).filter (·.key = call.key)).head? = some first
      ∧ describe codec.sha256 call.result = describe codec.sha256 first.result := by
  have hlast : ((calls steps).filter (·.key = call.key)).getLast? = some call := by
    rw [hcalls, List.filter_append, List.filter_singleton, decide_eq_true rfl, cond_true]
    exact List.getLast?_concat
  obtain ⟨-, hlookup⟩ := recorded_of_run steps hrun
  have hnone : lookup SummaryRow.key s.summaries call.key = none := by rw [hempty]; rfl
  cases hrow : lookup SummaryRow.key s'.summaries call.key with
  | none =>
    -- The call itself has left a row.
    rw [hlookup, hnone, hcalls, List.filter_append, List.filter_singleton, decide_eq_true rfl,
      cond_true, recordAll, List.foldl_append] at hrow
    cases hrow
  | some row =>
    obtain ⟨hmem, hkey⟩ := lookup_eq_some_mem hrow
    obtain ⟨⟨first, hfirst, hdescription⟩, -, -⟩ :=
      recordAll_eq_some _ (recordAll_of_mem hempty hrun hmem)
    obtain ⟨last, hlast', -, hdescribe, -⟩ := hcoherent row hmem
    rw [hkey] at hfirst hlast'
    obtain rfl : last = call := Option.some.inj (hlast'.symm.trans hlast)
    exact ⟨first, hfirst, hdescribe.symm.trans hdescription⟩

end

/-- **When the summaries describe one result each.** They do in every state that a run reaches, from
no summary on, exactly if all the calls of the run for an ordinal of an attempt are for results of
one description. -/
theorem summaries_coherent_iff (codec : Codec) (config : IngressConfig) (U : Unicode)
    (message : ProwlarrError → String) (s s' : SearchDb) (executions : List Execution)
    (hempty : s.summaries = [])
    (hrun : run codec config s (stepsOf U message executions) = .ok s') :
    (∀ n reached, run codec config s ((stepsOf U message executions).take n) = .ok reached →
        ∀ row ∈ reached.summaries,
          Coherent codec.sha256 (calls ((stepsOf U message executions).take n)) row)
      ↔ Stable codec.sha256 (calls (stepsOf U message executions)) := by
  constructor
  · intro hcoherent
    have hfirst : ∀ call ∈ calls (stepsOf U message executions), ∃ first,
        ((calls (stepsOf U message executions)).filter (·.key = call.key)).head? = some first
          ∧ describe codec.sha256 call.result = describe codec.sha256 first.result := by
      intro call hcall
      obtain ⟨n, before, hcalls⟩ := exists_take_of_mem_calls hcall
      obtain ⟨reached, hreached⟩ := run_take hrun n
      obtain ⟨first, hfirst, hdescribe⟩ :=
        describe_of_coherent hempty hreached (hcoherent n reached hreached) hcalls
      obtain ⟨rest, hrest⟩ := calls_take_prefix (stepsOf U message executions) n
      refine ⟨first, ?_, hdescribe⟩
      rw [← hrest, List.filter_append, List.head?_append, hfirst, Option.some_or]
    intro call hcall call' hcall' hkey
    obtain ⟨first, hhead, hdescribe⟩ := hfirst call hcall
    obtain ⟨first', hhead', hdescribe'⟩ := hfirst call' hcall'
    rw [hkey, hhead'] at hhead
    rw [hdescribe, hdescribe', Option.some.inj hhead]
  · intro hstable n reached hreached row hrow
    have hfront := calls_take_prefix (stepsOf U message executions) n
    exact coherent_of_stable hempty hreached
      (fun call hcall call' hcall' =>
        hstable call (hfront.subset hcall) call' (hfront.subset hcall')) hrow

/-- A search for a show. -/
def showSource : SearchSource := ⟨.unknown "show".toList, 100000, "indexer"⟩

/-- The input of the search for the show. -/
def showInput : SearchInput := ⟨1, 2, 3, ⟨7, by decide⟩, 4, "manual"⟩

/-- An execution with one result, whose download fails if it is eligible. -/
def showExecution (now : I64) (title : String) (size : Option ℕ) : Execution where
  input := showInput
  now
  answers := ⟨some showSource, true, none,
    .ok [⟨⟨title, none, "http://127.0.0.1/download", size⟩, .error .malformed,
    .error .torrent⟩], 0, now⟩
  cut := 7

/-- The result of the first execution is eligible, the one of the second execution, an hour later,
too small. -/
def showExecutions : List Execution :=
  [showExecution ⟨5, by decide⟩ "Show.S01" none,
    showExecution ⟨3600005, by decide⟩ "Show.S02E01" (some 5)]

/-- The same result in both executions. -/
def showRepeated : List Execution :=
  [showExecution ⟨5, by decide⟩ "Show.S01" none, showExecution ⟨3600005, by decide⟩ "Show.S01" none]

/-- The tables with an attempt and its indexer. -/
def showDb : SearchDb where
  db := Db.empty
  indexers := [⟨⟨7, by decide⟩, "indexer", 25, true⟩]
  attempts := [⟨2, 3, ⟨7, by decide⟩, 0, 4, "manual", "queued", 0, 0, none, none,
    5, none, some 1, 0⟩]
  rateLimits := []
  summaries := []

/-- A codec whose hash is the length. -/
def showCodec : Codec := { Identity.scanCodec with sha256 := fun bytes => .ofNat 256 bytes.length }

/-- The summary has the title of the first result and the state of the second one. -/
theorem summaries_reordered : ∃ s', run showCodec ⟨0, 0, 0, fun _ => none⟩ showDb
      (stepsOf Unicode.ascii (fun _ => "") showExecutions) = .ok s'
    ∧ ∃ row ∈ s'.summaries, row.title = "Show.S01" ∧ row.state = "filtered"
      ∧ ¬Coherent showCodec.sha256 (calls (stepsOf Unicode.ascii
        (fun _ => "") showExecutions)) row := by
  refine ⟨_, rfl, ⟨2, 0, 17, "Show.S01", none, "filtered", none⟩, ?_, rfl, rfl, ?_⟩
  · decide +kernel
  · rintro ⟨last, hlast, -, hdescription, -⟩
    obtain rfl := Option.some.inj hlast
    have htitle := congrArg Description.title hdescription
    revert htitle
    decide +kernel

/-- The same result twice: the summary describes it after every write. -/
theorem summaries_coherent_repeated :
    Stable showCodec.sha256 (calls (stepsOf Unicode.ascii (fun _ => "") showRepeated))
    ∧ ∀ n reached, run showCodec ⟨0, 0, 0, fun _ => none⟩ showDb
        ((stepsOf Unicode.ascii (fun _ => "") showRepeated).take n) = .ok reached →
      ∀ row ∈ reached.summaries, Coherent showCodec.sha256
        (calls ((stepsOf Unicode.ascii (fun _ => "") showRepeated).take n)) row := by
  have hstable : Stable showCodec.sha256 (calls (stepsOf Unicode.ascii
      (fun _ => "") showRepeated)) := by
    unfold Stable
    decide +kernel
  exact ⟨hstable, (summaries_coherent_iff showCodec ⟨0, 0, 0, fun _ => none⟩ Unicode.ascii
    (fun _ => "") showDb _
    showRepeated rfl rfl).mpr hstable⟩

end Sporos.Service.SearchSummaries
