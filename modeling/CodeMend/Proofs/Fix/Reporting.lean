import CodeMend.Command.Fix
import CodeMend.Proofs.Fix.Batch
import CodeMend.Proofs.Fix.Changes

/-!
# CodeMend — what is reported as fixed

A batch reports the findings whose fixes it took, and it takes none that changes nothing.  The fix
of the finding at a place is reported whatever came of it, so that a finding all of whose sites were
skipped is reported as fixed with no edit.  Where there is a change, both commands make the same
one.

* **`fixAll_single`** — a batch of one finding is its fix, and drops it if nothing changes.
* **`Batch.Reflects.exists_change`** — the edits of a batch are those of its changes.
* **`Command.reported_fixes_change`** — what both commands report, and when something changed.
* **`Command.skipped_fix_is_reported`** — a finding that is reported as fixed with no change.
-/

namespace CodeMend

open CodeMend.Tree

variable {p : Program} {s : Solution} {f : Finding} {cancelled : Bool} {o : PlanOutcome}

/-! ## A batch of one finding

When there is one fix, nothing can overlap it.  A batch of one finding comes down to the fix itself.
-/

/-- A larger document comes last. -/
theorem ByDocument.append_of_lt {α : Type} {m : ByDocument α} {d : DocumentId} {xs : List α}
    (h : ∀ entry ∈ m, entry.1 < d) : m.append d xs = m ++ [(d, xs)] := by
  induction m with
  | nil => rfl
  | cons entry rest ih =>
    obtain ⟨hfirst, hrest⟩ := List.forall_mem_cons.mp h
    rw [append, if_neg (Nat.lt_asymm hfirst), if_neg, ih hrest]
    · rfl
    · exact fun heq => Nat.ne_of_gt hfirst (beq_iff_eq.mp heq)

/-- The changes of one fix, document by document. -/
theorem foldl_append_of_ascending {changes : List DocumentChange} {m : ByDocument TextEdit}
    (hm : ∀ entry ∈ m, ∀ c ∈ changes, entry.1 < c.document)
    (h : changes.Pairwise fun a b => a.document < b.document) :
    changes.foldl (fun m c => m.append c.document c.edits) m =
      m ++ changes.map fun c => (c.document, c.edits) := by
  induction changes generalizing m with
  | nil => simp
  | cons c changes ih =>
    obtain ⟨hfirst, hrest⟩ := List.pairwise_cons.mp h
    rw [List.foldl_cons, ByDocument.append_of_lt fun entry hentry => hm entry hentry c
      List.mem_cons_self, ih _ hrest]
    · simp
    · intro entry hentry c' hc'
      rcases List.mem_append.mp hentry with hentry | hentry
      · exact hm entry hentry c' (List.mem_cons_of_mem _ hc')
      · obtain rfl := List.mem_singleton.mp hentry
        exact hfirst c' hc'

/-- The changes of a fix have paths and edits. -/
theorem Finding.edits_ne_nil_of_runFix (ho : f.runFix p cancelled = .ok o) {c : DocumentChange}
    (hc : c ∈ o.documents) :
    ∃ d, p.solution.document? c.document = some d ∧ c.Sound d ∧ c.path = d.path ∧ c.edits ≠ [] := by
  obtain ⟨plan, -, hexecute⟩ := exists_of_bind_eq_ok ho
  obtain ⟨d, sites, skipped, hd, -, hchange⟩ := Plan.exists_sites_of_execute hexecute hc
  exact ⟨d, hd, Execution.sound_of_changeDocument hchange,
    Execution.edits_ne_nil_of_changeDocument hchange⟩

/-- The edits of a change lead to the change again. -/
theorem Batch.documentChange_eq {d : Document} {c : DocumentChange}
    (hd : s.document? c.document = some d) (hsound : c.Sound d) (hpath : c.path = d.path) :
    documentChange s c.document c.edits = .ok c := by
  have hdocument : s.document c.document = .ok d := by
    rw [Solution.document, hd]
  have happly : applyEdits d.text c.edits = .ok c.after := by
    rw [applyEdits_of_splices hsound.walk hsound.separated, String.ofList_toList]
  have hsorted : sortStable (fun a b => compare a.span.start b.span.start) c.edits = c.edits := by
    refine sortStable_eq_self (hsound.separated.imp_of_mem fun ha _ hlt => ?_)
    have hspan := (hsound.fits _ ha).1
    rw [Nat.compare_ne_gt]
    omega
  obtain ⟨t, ht⟩ := hsound.parses
  unfold documentChange
  rw [← hsound.before] at happly
  simp only [hdocument, ok_bind, ← hpath, ← hsound.before, happly, Except.mapError, ht, hsorted]
  rfl

/-- Committing the changes of one fix makes these changes. -/
theorem Batch.commit_of_runFix (ho : f.runFix p cancelled = .ok o) :
    commit p.solution (o.documents.map fun c => (c.document, c.edits)) =
      .ok (o.solution, o.documents) := by
  have hall : ∀ c ∈ o.documents, documentChange p.solution c.document c.edits = .ok c := by
    intro c hc
    obtain ⟨d, hd, hchange, hpath, -⟩ := Finding.edits_ne_nil_of_runFix ho hc
    exact documentChange_eq hd hchange hpath
  have hchanges : (o.documents.map fun c => (c.document, c.edits)).mapM
      (fun entry => documentChange p.solution entry.1 entry.2) = .ok o.documents := by
    generalize o.documents = changes at hall
    induction changes with
    | nil => rfl
    | cons c changes ih =>
      obtain ⟨hfirst, hrest⟩ := List.forall_mem_cons.mp hall
      rw [List.map_cons, List.mapM_cons, hfirst, ok_bind, ih hrest]
      rfl
  unfold commit
  rw [hchanges, ok_bind, (Finding.sound_of_runFix ho).solution]
  rfl

/-- The first fix of a batch is taken, unless it changes nothing. -/
theorem Batch.consider_first (h : o.Sound s) : consider {} f (.ok o) =
    .ok ⟨o.documents.map fun c => (c.document, c.edits), if o.isEmpty then [] else [f],
      if o.isEmpty then [f] else []⟩ := by
  have haccepted := foldl_append_of_ascending (m := []) (by simp) h.distinct
  have hfree : conflicts [] o.documents = false :=
    List.any_eq_false.mpr fun _ _ => Bool.false_ne_true
  simp only [consider, haccepted, hfree, Bool.or_false, List.nil_append]
  cases hempty : o.isEmpty with
  | true =>
    rw [List.isEmpty_iff.mp hempty]
    rfl
  | false => rfl

/-- **A batch of one finding is its fix**, and drops it when nothing changes. -/
theorem fixAll_single {rules : RuleSet} (hoffers : f.offersFix p.solution = .ok true)
    (hrule : rules.contains f.rule = true) (ho : f.runFix p cancelled = .ok o) :
    fixAll p [f] (.rules rules) cancelled = .ok ⟨o.solution, o.documents,
      if o.isEmpty then [] else [f], if o.isEmpty then [f] else []⟩ := by
  have hcancelled : cancelled = false := by
    obtain ⟨plan, -, hexecute⟩ := exists_of_bind_eq_ok ho
    exact Plan.not_cancelled_of_execute hexecute
  have hoffered : ([f].filterM fun f => f.offersFix p.solution) = .ok [f] := by
    simp only [List.filterM, List.filterAuxM, hoffers]
    rfl
  have htaken : [f].filter (FixScope.rules rules).includes = [f] :=
    List.filter_cons_of_pos hrule
  have hfold : [f].foldlM (fun s f => Batch.consider s f (f.runFix p cancelled)) {} =
      Batch.consider {} f (.ok o) := by
    rw [List.foldlM_cons, ho]
    exact bind_pure _
  unfold fixAll
  rw [hoffered, ok_bind, htaken, hfold, Batch.consider_first (Finding.sound_of_runFix ho), ok_bind,
    if_neg (by simp [hcancelled])]
  dsimp only
  rw [Batch.commit_of_runFix ho]
  rfl

/-! ## The edits of a batch

A batch commits the edits it accepted, and each of them is found in the change of its document. -/

/-- A fix that a batch took has an outcome, and changes something. -/
theorem Batch.Judged.run_of_mem {run : Finding → Analysis PlanOutcome} {l : Ledger}
    (h : Judged run l) (hmem : (f, some o) ∈ l) : run f = .ok o ∧ o.isEmpty = false := by
  induction h with
  | nil => cases hmem
  | failed _ _ _ ih => exact ih (by simpa using hmem)
  | unchanged _ _ _ ih => exact ih (by simpa using hmem)
  | overlapping _ _ _ _ ih => exact ih (by simpa using hmem)
  | taken _ hrun hchanges _ ih =>
    rcases List.mem_append.mp hmem with hmem | hmem
    · exact ih hmem
    · cases List.mem_singleton.mp hmem
      exact ⟨hrun, hchanges⟩

/-- **The edits of a batch are those of its changes.** -/
theorem Batch.Reflects.exists_change {progress : Progress} {l : Ledger}
    (h : Reflects s progress l) {solution : Solution} {changes : List DocumentChange}
    (hcommit : Batch.commit s progress.accepted = .ok (solution, changes)) {id : DocumentId}
    (hne : l.edits id ≠ []) : ∃ c ∈ changes, c.document = id ∧ l.edits id ⊆ c.edits := by
  obtain ⟨changes', hchanges, hrest⟩ := exists_of_bind_eq_ok hcommit
  obtain ⟨solution', -, hrest⟩ := exists_of_bind_eq_ok hrest
  cases hrest
  rw [← h.accepted id] at hne ⊢
  obtain ⟨e, he⟩ := List.exists_mem_of_ne_nil _ hne
  obtain ⟨c, hc, hchange⟩ :=
    exists_of_forall₂_left (forall₂_of_mapM hchanges) (ByDocument.mem_of_ofDocument he)
  obtain ⟨d, -, hid, -, -, hperm⟩ := exists_of_documentChange hchange
  exact ⟨c, hc, hid, hperm.symm.subset⟩

/-- The changes have all edits of an outcome, in the documents where it has them, and there are
some. -/
def PlanOutcome.Within (o : PlanOutcome) (changes : List DocumentChange) : Prop :=
  o.documents ≠ [] ∧ ∀ c ∈ o.documents, c.edits ≠ [] ∧
    ∃ c' ∈ changes, c'.document = c.document ∧ c.edits ⊆ c'.edits

/-- **The fixes that a batch took changed something**: all their edits are among those of the
batch. -/
theorem exists_outcome_of_fixAll {findings : List Finding} {scope : FixScope} {b : BatchOutcome}
    (h : fixAll p findings scope cancelled = .ok b) (hf : f ∈ b.applied) :
    f ∈ findings ∧ ∃ o, f.runFix p cancelled = .ok o ∧ o.Within b.documents := by
  obtain ⟨offered, hoffered, hrest⟩ := exists_of_bind_eq_ok h
  obtain ⟨progress, hfold, hrest⟩ := exists_of_bind_eq_ok hrest
  split at hrest
  · cases hrest
  obtain ⟨⟨solution, documents⟩, hcommit, hrest⟩ := exists_of_bind_eq_ok hrest
  cases hrest
  obtain ⟨ledger, hfst, hjudged, hreflects⟩ := Batch.reflects_of_foldlM
    (fun f o => Finding.sound_of_runFix) (Batch.reflects_nil p.solution) .nil hfold
  rw [show progress.applied = _ from hreflects.applied] at hf
  obtain ⟨⟨f', verdict⟩, hmem, rfl⟩ := List.mem_map.mp hf
  obtain ⟨hmem, hsome⟩ := List.mem_filter.mp hmem
  obtain ⟨o, rfl⟩ := Option.isSome_iff_exists.mp hsome
  obtain ⟨hrun, hchanges⟩ := hjudged.run_of_mem hmem
  have hfinding : f' ∈ offered.filter scope.includes := by
    have hfirst := List.mem_map_of_mem (f := Prod.fst) hmem
    rwa [hfst] at hfirst
  refine ⟨mem_of_filterM hoffered (List.mem_filter.mp hfinding).1, o, hrun,
    List.isEmpty_eq_false_iff.mp hchanges, fun c hc => ?_⟩
  obtain ⟨d, -, -, -, hne⟩ := Finding.edits_ne_nil_of_runFix hrun hc
  -- the edits of the outcome are in the ledger
  have hsub : c.edits ⊆ ledger.edits c.document := by
    intro e he
    refine List.mem_flatMap.mpr ⟨o, List.mem_filterMap.mpr ⟨_, hmem, rfl⟩, ?_⟩
    exact PlanOutcome.mem_editsOf.mpr ⟨c, hc, rfl, he⟩
  obtain ⟨c', hc', hid, hedits⟩ := hreflects.exists_change hcommit
    fun hnil => hne (List.eq_nil_of_subset_nil (hnil ▸ hsub))
  exact ⟨hne, c', hc', hid, List.Subset.trans hsub hedits⟩

/-! ## The commands

The two commands report in different ways.  The fix at a place reports its finding in any case; the
fix of all findings reports those whose fixes it took. -/

namespace Command

variable {rules : RuleSet} {place : Location} {outcome : FixOutcome} {info : FindingInfo}

/-- What is reported under some rules is a finding of one of them. -/
theorem contains_of_mem {found : List Finding}
    (hfound : Check.solution (.ofSolution s) rules = .ok found) (hf : f ∈ found) :
    rules.contains f.rule = true := by
  obtain ⟨d, -, n, hn⟩ := Check.exists_node_of_solution hfound hf
  exact (Check.cases_of_node hn).1

/-- What is carried out was on offer. -/
theorem offersFix_of_applyFix (h : f.applyFix p cancelled = .ok (some o)) :
    f.offersFix p.solution = .ok true := by
  obtain ⟨offered, hoffered, hrest⟩ := exists_of_bind_eq_ok h
  cases offered with
  | true => exact hoffered
  | false => cases hrest

/-- A fix at a place that reports something is that of a finding. -/
theorem exists_of_fixAt (h : fixAt p place rules cancelled = .ok outcome)
    (hfixed : outcome.response.fixed ≠ []) :
    ∃ found f info o, Check.solution p rules = .ok found ∧ f ∈ found ∧
      f.applyFix p cancelled = .ok (some o) ∧
      f.info p.solution (some f.rule.fixTitle) = .ok info ∧
      outcome = ⟨fixResponse [info] o.documents (siteWarnings o.skipped), o.documents⟩ := by
  unfold fixAt at h
  dsimp only at h
  split at h
  next d hd =>
    obtain ⟨found, hfound, h⟩ := exists_of_bind_eq_ok h
    split at h
    next f hf =>
      obtain ⟨applied, happlied, h⟩ := exists_of_bind_eq_ok h
      split at h
      next =>
        -- without a fix nothing is reported
        obtain ⟨warning, -, h⟩ := exists_of_bind_eq_ok h
        cases h
        exact absurd rfl hfixed
      next o =>
        obtain ⟨info, hinfo, h⟩ := exists_of_bind_eq_ok h
        cases h
        exact ⟨found, f, info, o, eq_ok_of_mapError hfound, List.mem_of_find?_eq_some hf,
          eq_ok_of_mapError happlied, eq_ok_of_mapError hinfo, rfl⟩
    next => cases h
  next => cases h

/-- What a fix of all findings consists of. -/
theorem exists_of_fixEverything (h : fixEverything p rules cancelled = .ok outcome) :
    ∃ found batch fixed warnings, Check.solution p rules = .ok found ∧
      fixAll p found (.rules rules) cancelled = .ok batch ∧
      batch.applied.mapM (fun f => f.info p.solution (some f.rule.fixTitle)) = .ok fixed ∧
      outcome = ⟨fixResponse fixed batch.documents warnings, batch.documents⟩ := by
  obtain ⟨found, hfound, h⟩ := exists_of_bind_eq_ok h
  obtain ⟨batch, hbatch, h⟩ := exists_of_bind_eq_ok h
  obtain ⟨fixed, hfixed, h⟩ := exists_of_bind_eq_ok h
  obtain ⟨warnings, -, h⟩ := exists_of_bind_eq_ok h
  cases h
  exact ⟨found, batch, fixed, warnings, eq_ok_of_mapError hfound, eq_ok_of_mapError hbatch,
    eq_ok_of_mapError hfixed, rfl⟩

/-- Changes with edits are reported with edits. -/
theorem edits_ne_nil {fixed : List FindingInfo} {changes : List DocumentChange}
    {warnings : List Warning} {c : DocumentChange} (hc : c ∈ changes) (hne : c.edits ≠ []) :
    (fixResponse fixed changes warnings).edits ≠ [] := by
  obtain ⟨e, he⟩ := List.exists_mem_of_ne_nil _ hne
  exact List.ne_nil_of_mem (List.mem_flatMap.mpr ⟨c, hc, List.mem_map_of_mem he⟩)

/-- When there is one finding, a fix of all findings is the batch of it. -/
theorem fixEverything_single (hfound : Check.solution p rules = .ok [f])
    (hbatch : fixAll p [f] (.rules rules) cancelled = .ok ⟨o.solution, o.documents,
      if o.isEmpty then [] else [f], if o.isEmpty then [f] else []⟩)
    (hinfo : f.info p.solution (some f.rule.fixTitle) = .ok info) :
    ∃ warnings, fixEverything p rules cancelled =
      .ok ⟨fixResponse (if o.isEmpty then [] else [info]) o.documents warnings, o.documents⟩ := by
  obtain ⟨d, hd, -⟩ := exists_of_bind_eq_ok hinfo
  obtain ⟨plain, hplain⟩ : ∃ plain, f.info p.solution none = .ok plain := by
    unfold Finding.info
    rw [hd]
    exact ⟨_, rfl⟩
  cases hempty : o.isEmpty with
  | true =>
    refine ⟨[⟨"fix_skipped", "fix for " ++ f.rule.id ++ " was not applied in this pass",
      some plain.location⟩], ?_⟩
    simp only [fixEverything, hfound, hbatch, hempty, reported, Except.mapError, ok_bind,
      List.mapM_cons, List.mapM_nil, droppedWarning, findingWarning, hplain, if_true]
    rfl
  | false =>
    refine ⟨[], ?_⟩
    simp only [fixEverything, hfound, hbatch, hempty, reported, Except.mapError, ok_bind,
      List.mapM_cons, List.mapM_nil, hinfo, Bool.false_eq_true, if_false]
    rfl

/-- **What is reported as fixed, and when something changed.**

The fix of the finding at a place reports one finding.  Its changes are those of the fix, and a
batch of the finding makes the same ones; it takes the fix if there are any and drops it otherwise.

A fix of all findings reports none whose fix changed nothing, and has all edits of those that it
reports. -/
theorem reported_fixes_change (rules : RuleSet) (cancelled : Bool)
    (outcome : FixOutcome) :
    (∀ place, fix s (.place place) rules cancelled = .ok outcome →
      outcome.response.fixed ≠ [] →
      ∃ found f info o, Check.solution (.ofSolution s) rules = .ok found ∧ f ∈ found ∧
        f.info s (some f.rule.fixTitle) = .ok info ∧
        f.runFix (.ofSolution s) cancelled = .ok o ∧
        outcome.response.fixed = [info] ∧ outcome.changes = o.documents ∧
        (outcome.response.edits ≠ [] ↔ o.documents ≠ []) ∧
        fixAll (.ofSolution s) [f] (.rules rules) cancelled = .ok ⟨o.solution, o.documents,
          if o.isEmpty then [] else [f], if o.isEmpty then [f] else []⟩ ∧
        (found = [f] → ∃ warnings, fix s .all rules cancelled =
          .ok ⟨fixResponse (if o.isEmpty then [] else [info]) o.documents warnings,
            o.documents⟩)) ∧
    (fix s .all rules cancelled = .ok outcome → ∀ info ∈ outcome.response.fixed,
      ∃ found f o, Check.solution (.ofSolution s) rules = .ok found ∧ f ∈ found ∧
        f.info s (some f.rule.fixTitle) = .ok info ∧
        f.runFix (.ofSolution s) cancelled = .ok o ∧ o.Within outcome.changes ∧
        outcome.response.edits ≠ []) := by
  have hsolution := Program.solution_ofSolution s
  constructor
  · intro place h hfixed
    obtain ⟨found, f, info, o, hfound, hf, happly, hinfo, rfl⟩ := exists_of_fixAt h hfixed
    have hrun := Finding.runFix_of_applyFix happly
    have hbatch := fixAll_single (offersFix_of_applyFix happly) (contains_of_mem hfound hf) hrun
    refine ⟨found, f, info, o, hfound, hf, hsolution ▸ hinfo, hrun, rfl, rfl, ?_,
      hbatch, ?_⟩
    · constructor
      · intro hedits hnil
        rw [hnil] at hedits
        exact hedits rfl
      · intro hne
        obtain ⟨c, hc⟩ := List.exists_mem_of_ne_nil _ hne
        obtain ⟨-, -, -, -, hedits⟩ := Finding.edits_ne_nil_of_runFix hrun hc
        exact edits_ne_nil hc hedits
    · rintro rfl
      exact fixEverything_single hfound hbatch hinfo
  · intro h info hinfo
    obtain ⟨found, batch, fixed, warnings, hfound, hbatch, hfixed, rfl⟩ :=
      exists_of_fixEverything h
    obtain ⟨f, hf, hinfo⟩ := exists_of_forall₂_right (forall₂_of_mapM hfixed) hinfo
    obtain ⟨hf, o, hrun, hwithin⟩ := exists_outcome_of_fixAll hbatch hf
    refine ⟨found, f, o, hfound, hf, hsolution ▸ hinfo, hrun, hwithin, ?_⟩
    obtain ⟨c, hc⟩ := List.exists_mem_of_ne_nil _ hwithin.1
    obtain ⟨hne, c', hc', -, hsub⟩ := hwithin.2 c hc
    exact edits_ne_nil hc' fun hnil => hne (List.eq_nil_of_subset_nil (hnil ▸ hsub))

/-- Two calls of which one will do. -/
def twoCalls : Solution := .ofFiles [("A.cs",
  "class C\x7bint G(int x)\x7breturn x;\x7dint M(bool a)\x7breturn a?G(1):G(2);\x7d\x7d")]

/-- The finding about the two calls. -/
def twoCallsFinding : Finding := ⟨.duplicateCall, 0, ⟨53, 54⟩, ["G"]⟩

theorem twoCalls_facts :
    (Check.solution (.ofSolution twoCalls) Rule.all).toOption = some [twoCallsFinding] ∧
    (fix twoCalls (.place ⟨"A.cs", 1, 54, none, none⟩) Rule.all false).toOption.map (fun o =>
        (o.response.fixed.length, o.changes.map DocumentChange.edits)) =
      some (1, [[⟨⟨52, 63⟩, "G(a ? 1 : 2)"⟩]]) := by
  decide +kernel

/-- Both commands make one call of them and say so. -/
theorem reported_fixes_change_twoCalls : ∃ outcome outcome' info,
    fix twoCalls (.place ⟨"A.cs", 1, 54, none, none⟩) Rule.all false = .ok outcome ∧
      fix twoCalls .all Rule.all false = .ok outcome' ∧
      outcome.response.fixed = [info] ∧ outcome'.response.fixed = [info] ∧
      outcome'.changes = outcome.changes ∧ outcome.response.edits ≠ [] ∧
      outcome'.response.edits ≠ [] := by
  obtain ⟨hfound, hfix⟩ := twoCalls_facts
  cases hcheck : Check.solution (.ofSolution twoCalls) Rule.all with
  | error e =>
    rw [hcheck] at hfound
    cases hfound
  | ok fs =>
  cases houtcome : fix twoCalls (.place ⟨"A.cs", 1, 54, none, none⟩) Rule.all false with
  | error e =>
    rw [houtcome] at hfix
    cases hfix
  | ok outcome =>
    rw [hcheck] at hfound
    obtain rfl := Option.some.inj hfound
    rw [houtcome] at hfix
    obtain ⟨hlength, hedits⟩ := Prod.mk.inj (Option.some.inj hfix)
    have hne : outcome.response.fixed ≠ [] := by
      intro hnil
      rw [hnil] at hlength
      cases hlength
    obtain ⟨found, f, info, o, hfound, hf, hinfo, -, hfixed, hchanges, hiff, -, hall⟩ :=
      (reported_fixes_change Rule.all false outcome).1 _ houtcome hne
    obtain rfl := Except.ok.inj (hcheck.symm.trans hfound)
    obtain rfl := List.mem_singleton.mp hf
    have hdocuments : o.documents ≠ [] := by
      intro hnil
      rw [hchanges, hnil] at hedits
      cases hedits
    obtain ⟨warnings, hall⟩ := hall rfl
    have hempty : o.isEmpty = false := List.isEmpty_eq_false_iff.mpr hdocuments
    rw [hempty] at hall
    obtain ⟨-, -, -, -, -, -, -, -, hedits'⟩ :=
      (reported_fixes_change Rule.all false _).2 hall info List.mem_cons_self
    exact ⟨outcome, _, info, rfl, hall, hfixed, rfl, hchanges.symm, hiff.mpr hdocuments, hedits'⟩

/-- Two calls with a comment between them and the condition. -/
def commentedCalls : List (String × String) := [("A.cs",
  "class C\x7bint G(int x)\x7breturn x;\x7dint M(bool a)\x7breturn a/*c*/?G(1):G(2);\x7d\x7d")]

theorem commentedCalls_facts :
    (fix (.ofFiles commentedCalls) (.place ⟨"A.cs", 1, 59, none, none⟩) Rule.all false).toOption.map
      (fun o => (o.response.fixed.length, o.changes.length)) = some (1, 0) := by
  decide +kernel

/-- **A finding is reported as fixed although nothing changed.**  The comment has no place in the
merged call, so the only site is skipped. -/
theorem skipped_fix_is_reported : ¬ ∀ (files : List (String × String)) (place : Location)
    (rules : RuleSet) (outcome : FixOutcome),
      fix (.ofFiles files) (.place place) rules false = .ok outcome →
        outcome.response.fixed ≠ [] → outcome.response.edits ≠ [] ∧ outcome.changes ≠ [] := by
  intro h
  have hfix := commentedCalls_facts
  cases houtcome :
    fix (.ofFiles commentedCalls) (.place ⟨"A.cs", 1, 59, none, none⟩) Rule.all false with
  | error e =>
    rw [houtcome] at hfix
    cases hfix
  | ok outcome =>
    rw [houtcome] at hfix
    obtain ⟨hfixed, hchanges⟩ := Prod.mk.inj (Option.some.inj hfix)
    have hne : outcome.response.fixed ≠ [] := by
      intro hnil
      rw [hnil] at hfixed
      cases hfixed
    exact (h _ _ _ _ houtcome hne).2 (List.eq_nil_of_length_eq_zero hchanges)

end Command

end CodeMend
