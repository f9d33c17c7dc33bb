import ScoredChaining.CommandLine.Perform
import ScoredChaining.Proofs.Engine.Forgetting

/-!
Documents do not depend on one another.

* `Document.split_alone`: a document and what is shared are cut again into the document and what is
  shared.
* `CommandLine.afterDocuments_eq`: running documents and forgetting them leaves an engine as it was,
  if the relation of their names is declared.
* `CommandLine.runFiles_independent`: what is reported of the last document is what is reported of
  it when it is the only one.
-/

namespace ScoredChaining

/-! ### Cutting -/

namespace Document

/-- The document begins with its name, and has no other. -/
def Named (d : Document) : Prop :=
  ∃ id rest, d = ⟨some id, .startDocument id :: rest⟩ ∧ ∀ line ∈ rest, started? line = none

theorem fromStarts_of_none {lines : List FactLine} (none : ∀ line ∈ lines, started? line = none) :
    fromStarts lines = (lines, []) := by
  induction lines with
  | nil => rfl
  | cons line rest ih =>
    obtain ⟨noneFirst, noneRest⟩ := List.forall_mem_cons.mp none
    simp [fromStarts, ih noneRest, noneFirst]

theorem fromStarts_append {before lines : List FactLine}
    (none : ∀ line ∈ before, started? line = none) :
    fromStarts (before ++ lines) = (before ++ (fromStarts lines).1, (fromStarts lines).2) := by
  induction before with
  | nil => rfl
  | cons line rest ih =>
    obtain ⟨noneFirst, noneRest⟩ := List.forall_mem_cons.mp none
    simp [fromStarts, ih noneRest, noneFirst]

/-- No document starts in what comes before the first, and every document begins with its name. -/
theorem fromStarts_spec (lines : List FactLine) :
    (∀ line ∈ (fromStarts lines).1, started? line = none) ∧
      ∀ d ∈ (fromStarts lines).2, d.Named := by
  induction lines with
  | nil => simp [fromStarts]
  | cons line rest ih =>
    obtain ⟨none, named⟩ := ih
    rw [fromStarts]
    cases starts : started? line with
    | none => exact ⟨List.forall_mem_cons.mpr ⟨starts, none⟩, named⟩
    | some id =>
      cases line <;> simp only [started?, reduceCtorEq, Option.some.injEq] at starts
      subst starts
      exact ⟨by simp, List.forall_mem_cons.mpr ⟨⟨_, _, rfl, none⟩, named⟩⟩

variable {lines shared : List FactLine} {docs : List Document} {d : Document}

/-- Several documents all begin with their names. -/
theorem named_of_split (cut : split lines = (shared, docs)) (several : 1 < docs.length) :
    ∀ d ∈ docs, d.Named := by
  unfold split at cut
  split at cut
  · intro d mem
    apply (fromStarts_spec lines).2
    rwa [cut]
  · obtain ⟨rfl, rfl⟩ := Prod.mk.inj cut
    split at several <;> simp at several

/-- The lines that are shared and those of one document make this document again. -/
theorem split_alone (cut : split lines = (shared, docs)) (mem : d ∈ docs) :
    split (shared ++ d.lines) = (shared, [d]) := by
  unfold split at cut
  split at cut
  · obtain ⟨none, named⟩ := fromStarts_spec lines
    rw [cut] at none named
    obtain ⟨id, rest, rfl, noneRest⟩ := named d mem
    rw [split, if_pos (by simp [started?]), fromStarts_append none, fromStarts,
      fromStarts_of_none noneRest]
    simp [started?]
  · rename_i noStart
    rw [List.partition_eq_filter_filter] at cut
    obtain ⟨rfl, rfl⟩ := Prod.mk.inj cut
    split at mem
    · cases mem
    · rename_i some_
      obtain rfl := List.mem_singleton.mp mem
      have noStart' : ¬((lines.filter isShared ++ lines.filter (not ∘ isShared)).any fun line =>
          (started? line).isSome) = true := by
        simp only [List.any_eq_true, List.mem_append, List.mem_filter, not_exists] at noStart ⊢
        rintro line ⟨mem, starts⟩
        exact noStart line ⟨mem.elim And.left And.left, starts⟩
      have sharedAgain : (lines.filter isShared ++ lines.filter (not ∘ isShared)).filter isShared =
          lines.filter isShared := by
        simp [List.filter_append, List.filter_filter]
      have ownAgain : (lines.filter isShared ++ lines.filter (not ∘ isShared)).filter
          (not ∘ isShared) = lines.filter (not ∘ isShared) := by
        simp [List.filter_append, List.filter_filter, Function.comp_def]
      rw [split, if_neg noStart', List.partition_eq_filter_filter, sharedAgain, ownAgain]
      simp only [if_neg some_]

end Document

/-! ### Declaring the relation of the names -/

theorem Schema.internTypes_relations (s : Schema) (names : List String) :
    (s.internTypes names).2.relations = s.relations := by
  induction names generalizing s with
  | nil => rfl
  | cons name rest ih => exact (ih _).trans (s.internType_relations name)

/-- A new name can be declared. -/
theorem Schema.declareByNames_new {s : Schema} {name : String} (new : s.find? name = none)
    (types : List String) : ∃ r, (s.declareByNames name types).1 = .ok r ∧
      (s.declareByNames name types).2.find? name = some r := by
  have fresh : (s.internTypes types).2.find? name = none := by
    simpa only [find?, s.internTypes_relations types] using new
  obtain ⟨r, ok⟩ : ∃ r, (s.declareByNames name types).1 = .ok r := by
    simp only [declareByNames, declare, fresh]
    exact ⟨_, rfl⟩
  exact ⟨r, ok, (declare_ok ok).1⟩

namespace Engine

variable {e b : Engine}

/-- The relation that names the documents can be declared, and need not be declared again. -/
theorem Rested.declareDocuments (rested : e.Rested) : ∃ b : Engine, b.Rested ∧
    b.graph.schema.find? documentRelation ≠ none ∧ e.declareDocuments = (.ok (), b) ∧
      b.declareDocuments = (.ok (), b) := by
  cases found : e.graph.schema.find? documentRelation with
  | some r =>
    have known : e.declareDocuments = (.ok (), e) := by rw [Engine.declareDocuments, found]
    exact ⟨e, rested, by simp [found], known, known⟩
  | none =>
    obtain ⟨r, ok, found'⟩ := Schema.declareByNames_new found [documentType]
    let b := (e.declare documentRelation [documentType]).2
    have declares : e.declareDocuments = (.ok (), b) := by
      simp only [Engine.declareDocuments, found, Engine.declare, ok, b]
      rfl
    have foundB : b.graph.schema.find? documentRelation = some r := found'
    refine ⟨b, rested.declare _ _, by simp [foundB], declares, ?_⟩
    rw [Engine.declareDocuments, foundB]

end Engine

/-! ### Running documents -/

namespace CommandLine

variable {b e : Engine} {trajectory : Bool} {fuel : Nat} {o : RunOptions} {docs : List Document}
  {d : Document}

/-- The engine after documents were run one after the other and each was forgotten. -/
def afterDocuments (trajectory : Bool) (fuel : Nat) (e : Engine) (docs : List Document) : Engine :=
  docs.foldl (fun e d => (runDocument trajectory fuel e d).2.clearDocument) e

/-- Running a document, whether it succeeds or fails, and forgetting it changes nothing. -/
theorem clearDocument_runDocument (rested : b.Rested)
    (declared : b.graph.schema.find? Engine.documentRelation ≠ none)
    (own : ∀ line ∈ d.lines, Document.isShared line = false) :
    (runDocument trajectory fuel b d).2.clearDocument = b := by
  apply rested.clearDocument_eq
  have loaded := rested.atop.load rested declared own
  unfold runDocument
  generalize b.load d.lines = answer at loaded
  obtain ⟨_ | _, e⟩ := answer
  · exact loaded
  · have ran : Engine.Atop b (e.run e.settings.mode fuel).engine :=
      loaded.runWithin rested e.settings.mode fuel e.settings.maxPops
    simp only
    split <;> exact ran

theorem afterDocuments_eq (rested : b.Rested)
    (declared : b.graph.schema.find? Engine.documentRelation ≠ none)
    (own : ∀ d ∈ docs, ∀ line ∈ d.lines, Document.isShared line = false) :
    afterDocuments trajectory fuel b docs = b := by
  induction docs with
  | nil => rfl
  | cons d rest ih =>
    obtain ⟨ownFirst, ownRest⟩ := List.forall_mem_cons.mp own
    rw [afterDocuments, List.foldl_cons, clearDocument_runDocument rested declared ownFirst]
    exact ih ownRest

/-- A document that begins with its name declares the relation of the names itself. -/
theorem runDocument_of_declares (named : d.Named) (declares : e.declareDocuments = (.ok (), b))
    (known : b.declareDocuments = (.ok (), b)) :
    runDocument trajectory fuel e d = runDocument trajectory fuel b d := by
  obtain ⟨id, rest, rfl, _⟩ := named
  have loads : e.load (.startDocument id :: rest) = b.load (.startDocument id :: rest) := by
    simp only [Engine.load, Engine.loadLine, declares, known]
  rw [runDocument, runDocument, loads]

/-- A document that is not run to its end does not end well. -/
theorem ne_done_of_runDocument {ending : Ending}
    (failed : (runDocument trajectory fuel e d).1 = .error ending) : ending ≠ .done := by
  unfold runDocument at failed
  split at failed
  · cases failed
    simp
  · simp only at failed
    split at failed <;> cases failed <;> simp

/-- If documents are all run to their ends, the last one is run in the engine that the others
leave. -/
theorem runDocuments_append (done : (runDocuments o fuel e (docs ++ [d])).ending = .done) :
    ∃ before report, runDocuments o fuel e docs = ⟨before, .done⟩ ∧
      runDocuments o fuel e (docs ++ [d]) = ⟨before ++ report.render o.json, .done⟩ ∧
      (runDocument o.trajectory fuel (afterDocuments o.trajectory fuel e docs) d).1 =
        .ok report := by
  induction docs generalizing e with
  | nil =>
    simp only [List.nil_append, runDocuments, afterDocuments, List.foldl_nil] at done ⊢
    have failed := @ne_done_of_runDocument e o.trajectory fuel d
    generalize runDocument o.trajectory fuel e d = answer at done failed ⊢
    obtain ⟨ending | report, e'⟩ := answer
    · exact absurd done (failed rfl)
    · exact ⟨"", report, rfl, by simp [Result.print, Result.after], rfl⟩
  | cons first rest ih =>
    simp only [List.cons_append, runDocuments, afterDocuments, List.foldl_cons] at done ⊢
    have failed := @ne_done_of_runDocument e o.trajectory fuel first
    generalize runDocument o.trajectory fuel e first = answer at done failed ⊢
    obtain ⟨ending | report, e'⟩ := answer
    · exact absurd done (failed rfl)
    · obtain ⟨before, last, doneRest, all, reported⟩ := ih (e := e'.clearDocument) done
      refine ⟨report.render o.json ++ before, last, ?_, ?_, reported⟩
      · simp only [doneRest, Result.after]
      · simp only [all, Result.after, String.append_assoc]

theorem runDocuments_singleton {report : DocumentReport}
    (reported : (runDocument o.trajectory fuel e d).1 = .ok report) :
    runDocuments o fuel e [d] = ⟨report.render o.json, .done⟩ := by
  rw [runDocuments]
  generalize runDocument o.trajectory fuel e d = answer at reported
  obtain ⟨result, e'⟩ := answer
  obtain rfl : result = .ok report := reported
  simp [runDocuments, Result.print, Result.after]

/-! ### Independence -/

/-- What is shared by all documents leaves nothing of a document in an engine. -/
theorem rested_of_prepare {files : FileReader} {rules : String} {settings : Settings}
    {shared : List FactLine} {e₀ : Engine} (new : Engine.new settings = .ok e₀)
    (sharedOnly : ∀ line ∈ shared, Document.isShared line = true)
    (prepared : prepare files rules e₀ shared = .ok e) : e.Rested := by
  obtain ⟨priority, rfl⟩ := Engine.eq_withPriority_of_new new
  have rested := Engine.rested_withPriority settings priority
  have loaded := rested.load_shared (fun _ => rfl) sharedOnly
  simp only [prepare, bind, Except.bind] at prepared
  generalize (Engine.withPriority settings priority).load shared = answer at loaded prepared
  obtain ⟨_ | _, e₁⟩ := answer
  · cases prepared
  · have rested₁ := loaded rfl
    simp only at prepared
    split at prepared
    · cases prepared
    · rename_i rules _
      have added := rested₁.addRules rules
      generalize e₁.addRules rules = answer at added prepared
      obtain ⟨_ | compiled, e₂⟩ := answer
      · cases prepared
      · have installed := added.installGroups
        simp only at prepared
        generalize e₂.installGroups = answer at installed prepared
        obtain ⟨_ | _, e₃⟩ := answer
        · cases prepared
        · obtain rfl := Except.ok.inj prepared
          exact installed

/-- The last of several documents is run as if it were the only one. -/
theorem runDocument_afterDocuments (rested : e.Rested)
    (named : docs ≠ [] → ∀ d' ∈ docs ++ [d], d'.Named)
    (own : ∀ d' ∈ docs, ∀ line ∈ d'.lines, Document.isShared line = false) :
    runDocument trajectory fuel (afterDocuments trajectory fuel e docs) d =
      runDocument trajectory fuel e d := by
  cases docs with
  | nil => rfl
  | cons first rest =>
    have named := named (by simp)
    obtain ⟨b, restedB, declared, declares, known⟩ := rested.declareDocuments
    obtain ⟨ownFirst, ownRest⟩ := List.forall_mem_cons.mp own
    have runsFirst : runDocument trajectory fuel e first = runDocument trajectory fuel b first :=
      runDocument_of_declares (named first (by simp)) declares known
    have after : afterDocuments trajectory fuel e (first :: rest) = b := by
      rw [afterDocuments, List.foldl_cons, runsFirst,
        clearDocument_runDocument restedB declared ownFirst]
      exact afterDocuments_eq restedB declared ownRest
    rw [after]
    exact (runDocument_of_declares (named d (by simp)) declares known).symm

section Files

variable {files : FileReader} {settings : Settings} {lines shared : List FactLine} {e₀ : Engine}

/-- A run of files prepares an engine, and then runs the documents. -/
theorem runFiles_eq (new : Engine.new (o.settings settings) = .ok e₀)
    (isRead : FactLine.ofFile files o.facts = .ok lines) : runFiles files fuel settings o =
      match prepare files o.rules e₀ (Document.split lines).1 with
      | .error failure => .fail failure
      | .ok e => runDocuments o fuel e (Document.split lines).2 := by
  simp only [runFiles, new, isRead, bind, Except.bind, Except.mapError]
  cases prepare files o.rules e₀ (Document.split lines).1 <;> rfl

/-- When the documents of a fact file are all run to their ends, the report of the last one, with
its facts, counts, candidates and agreement, is the report of a run of this document alone, and all
that is printed for a fact file without the other documents. -/
theorem runFiles_independent (isRead : FactLine.ofFile files o.facts = .ok lines)
    (cut : Document.split lines = (shared, docs ++ [d]))
    (sharedOnly : ∀ line ∈ shared, Document.isShared line = true)
    (own : ∀ d' ∈ docs ++ [d], ∀ line ∈ d'.lines, Document.isShared line = false)
    (done : (runFiles files fuel settings o).ending = .done) :
    ∃ e₀ e before report, Engine.new (o.settings settings) = .ok e₀ ∧
      prepare files o.rules e₀ shared = .ok e ∧
      runFiles files fuel settings o = ⟨before ++ report.render o.json, .done⟩ ∧
      (runDocument o.trajectory fuel (afterDocuments o.trajectory fuel e docs) d).1 = .ok report ∧
      (runDocument o.trajectory fuel e d).1 = .ok report ∧
      ∀ alone, FactLine.ofFile alone o.facts = .ok (shared ++ d.lines) →
        Rule.ofFile alone o.rules = Rule.ofFile files o.rules →
        runFiles alone fuel settings o = ⟨report.render o.json, .done⟩ := by
  cases new : Engine.new (o.settings settings) with
  | error failure =>
    have fails : runFiles files fuel settings o = .fail failure := by
      simp [runFiles, new, bind, Except.bind]
    rw [fails] at done
    cases done
  | ok e₀ =>
    have runs := @runFiles_eq fuel o files settings lines e₀ new isRead
    rw [cut] at runs
    cases prepared : prepare files o.rules e₀ shared with
    | error failure =>
      rw [runs, prepared] at done
      cases done
    | ok e =>
      simp only [prepared] at runs
      have rested := rested_of_prepare new sharedOnly prepared
      rw [runs] at done
      obtain ⟨before, report, _, all, last⟩ := runDocuments_append done
      have named : docs ≠ [] → ∀ d' ∈ docs ++ [d], d'.Named := by
        intro others
        apply Document.named_of_split cut
        have := List.length_pos_iff.mpr others
        simp only [List.length_append, List.length_singleton]
        omega
      have only := last
      rw [runDocument_afterDocuments rested named
        (List.forall_mem_append.mp own).1] at only
      refine ⟨e₀, e, before, report, rfl, prepared, runs.trans all, last, only, ?_⟩
      intro alone isReadAlone sameRules
      have again : prepare alone o.rules e₀ shared = .ok e := by
        rw [← prepared, prepare, prepare, sameRules]
      rw [runFiles_eq new isReadAlone, Document.split_alone cut (by simp), again]
      exact runDocuments_singleton only

end Files

/-- A rule file by which two links in a row are a path, and a fact file with these documents. A link
from 0 to 1 is shared. -/
def chainFiles (documents : String) : FileReader
  | "facts" => .ok ("def link point point\nschema link 0 1\n" ++ documents)
  | _ => .ok "link(x,y) & link(y,z) => path(x,z)"

/-- The first path from a point is accepted. -/
def chainOptions : RunOptions :=
  ⟨"facts", "rules", none, none, ["AT_LEAST_ONE:path(x,y):x"], none, false, true, true⟩

/-- A document that goes on from the shared link. -/
def onwardText : String :=
  "startdoc onward\nx link 1 2\n"

/-- A document with two links of its own, and the path over them as a gold fact. -/
def apartText : String :=
  "startdoc apart\nx link 2 3\nx link 3 4\ny path 2 4\n"

/-- The first document. -/
def onward : Document :=
  ⟨some "onward", [.startDocument "onward", .fact "link" [.int 1, .int 2]]⟩

/-- The second document. -/
def apart : Document :=
  ⟨some "apart", [.startDocument "apart", .fact "link" [.int 2, .int 3],
    .fact "link" [.int 3, .int 4], .label "path" [.int 2, .int 4]]⟩

/-- A fact file with both documents, and one with the second of them only. -/
theorem runFiles_independent_apart :
    let shared : List FactLine :=
      [.declaration "link" ["point", "point"], .schemaFact "link" [.int 0, .int 1]]
    ∃ e₀ e before report, Engine.new (chainOptions.settings .usual) = .ok e₀ ∧
      prepare (chainFiles (onwardText ++ apartText)) "rules" e₀ shared = .ok e ∧
      runFiles (chainFiles (onwardText ++ apartText)) 1 .usual chainOptions =
        ⟨before ++ report.render true, .done⟩ ∧
      (runDocument true 1 (afterDocuments true 1 e [onward]) apart).1 = .ok report ∧
      (runDocument true 1 e apart).1 = .ok report ∧
      runFiles (chainFiles apartText) 1 .usual chainOptions = ⟨report.render true, .done⟩ := by
  intro shared
  have isRead : FactLine.ofFile (chainFiles (onwardText ++ apartText)) "facts" =
      .ok (shared ++ onward.lines ++ apart.lines) := by decide +kernel
  have cut : Document.split (shared ++ onward.lines ++ apart.lines) =
      (shared, [onward] ++ [apart]) := by decide +kernel
  have ends : (runFiles (chainFiles (onwardText ++ apartText)) 1 .usual chainOptions).ending.code =
      0 := by decide +kernel
  have done : (runFiles (chainFiles (onwardText ++ apartText)) 1 .usual chainOptions).ending =
      .done := by
    generalize (runFiles (chainFiles (onwardText ++ apartText)) 1 .usual chainOptions).ending =
      ending at ends
    cases ending <;> simp_all [Ending.code]
  have isReadAlone :
      FactLine.ofFile (chainFiles apartText) "facts" = .ok (shared ++ apart.lines) := by
    decide +kernel
  obtain ⟨e₀, e, before, report, new, prepared, all, last, only, alone⟩ :=
    runFiles_independent isRead cut (by decide) (by decide) done
  exact ⟨e₀, e, before, report, new, prepared, all, last, only, alone _ isReadAlone rfl⟩

end CommandLine

end ScoredChaining
