import CodeMend.Proofs.Fix.Termination
import CodeMend.Proofs.Patch.Changes
import CodeMend.Proofs.Plan.Resolution

/-!
# CodeMend — fixes that change something

The fix of a modifier always has a document to change: the modifier that the finding is about is
there, and its site is among those of the plan.  The fix of a single node changes its document
exactly when the node has the form that the rewrite needs; otherwise its only site is skipped.

* **`Execution.cases_of_changeDocument`** — a document changes when its text comes to be
  another one.
* **`Execution.isSome_of_single`**, **`Execution.isSome_of_modifier`** — the change of a document
  with a node to rewrite, and of one with a modifier.
* **`Finding.documents_ne_nil_of_modifier`**, **`Finding.documents_ne_nil_iff_of_conversion`**,
  **`Finding.documents_ne_nil_iff_of_duplicateCall`** — the fixes that change something.
-/

namespace CodeMend

open CodeMend.Tree

/-! ## Sites

The sites of a plan are kept by document, and the declaration of the method is among them. -/

namespace ByDocument

variable {α : Type} {m : ByDocument α} {d : DocumentId}

/-- A document with values has an entry with them. -/
theorem mem_of_ofDocument {x : α} (h : x ∈ m.ofDocument d) : (d, m.ofDocument d) ∈ m := by
  unfold ofDocument at h ⊢
  cases hfind : m.find? fun entry => entry.1 == d with
  | none =>
    rw [hfind] at h
    cases h
  | some entry =>
    obtain rfl : entry.1 = d := by simpa using List.find?_some hfind
    exact List.mem_of_find?_eq_some hfind

end ByDocument

/-- The declaration is among the sites of a plan for a signature. -/
theorem Resolve.declaration_mem {p : Program} {rule : Rule} {d : Document} {n : NodeId}
    {indices : List Nat} {cancelled : Bool} {plan : Plan}
    (h : signaturePlan p rule d n indices cancelled = .ok plan) :
    plan.rule = rule ∧ plan.parameters = indices ∧
      ∃ sites, (d.id, sites) ∈ plan.sites ∧ Site.ofNode d.tree n .declaration ∈ sites := by
  obtain ⟨m, names, references, sites, -, -, -, -, hsites, rfl⟩ := exists_of_signaturePlan h
  have hkept := invariant_of_foldlM
    (P := fun sites => sites.Ascending ∧
      Site.ofNode d.tree n .declaration ∈ sites.ofDocument d.id)
    (fun r _ sites sites' hs hstep => ?_) ⟨List.pairwise_singleton _ _, ?_⟩ hsites
  · exact ⟨rfl, rfl, _, ByDocument.mem_of_ofDocument hkept.2, hkept.2⟩
  · obtain ⟨there, -, hstep⟩ := exists_of_bind_eq_ok hstep
    split at hstep
    · cases hstep
      refine ⟨hs.1.append, ?_⟩
      rw [ByDocument.ofDocument_append hs.1]
      split
      · exact List.mem_append_left _ hs.2
      · exact hs.2
    · cases hstep
      exact hs
  · rw [ByDocument.ofDocument_cons, if_pos rfl]
    exact List.mem_singleton_self _

namespace Execution

theorem mem_orderedSites {site : Site} {sites : List Site} (h : site ∈ sites) :
    site ∈ orderedSites sites := by
  have hdrop : ∀ sites : List Site, site ∈ sites → site ∈ orderedSites.dropRepeats sites := by
    intro sites
    fun_induction orderedSites.dropRepeats sites with
    | case1 a b rest heq ih =>
      intro hmem
      rcases List.mem_cons.mp hmem with rfl | hmem
      · exact ih (beq_iff_eq.mp heq ▸ List.mem_cons_self)
      · exact ih hmem
    | case2 a b rest _ ih =>
      intro hmem
      rcases List.mem_cons.mp hmem with rfl | hmem
      · exact List.mem_cons_self
      · exact List.mem_cons_of_mem _ (ih hmem)
    | case3 => exact id
  exact hdrop _ (mem_sortStable.mpr h)

/-! ## Documents

A document is changed when its text is another one in the end.  With a single site that is a
question about one rewrite; a modifier that is taken out is never put back. -/

variable {plan : Plan} {d : Document} {sites : List Site} {cancelled : Bool}
  {change : Option DocumentChange} {skipped : Nat} {n : NodeId}

/-- **A document changes when its text comes to be another one.** -/
theorem cases_of_changeDocument
    (h : changeDocument plan d sites cancelled = .ok (change, skipped)) :
    ∃ s log, (orderedSites sites).foldlM (changeSite plan d.path cancelled)
        ⟨.ofText d.text, [], 0⟩ = .ok s ∧ tidyRegions s = .ok log ∧
      (change = none ∧ log.current = d.text ∨
        ∃ edits, change = some ⟨d.id, d.path, d.text, log.current, edits⟩ ∧
          log.current ≠ d.text) := by
  obtain ⟨s, hs, hrest⟩ := exists_of_bind_eq_ok h
  obtain ⟨log, hlog, hrest⟩ := exists_of_bind_eq_ok hrest
  obtain ⟨t, -, hrest⟩ := exists_of_bind_eq_ok hrest
  have hstart : Keeps d.text ⟨.ofText d.text, [], 0⟩ := ⟨EditLog.wellFormed_ofText _, rfl⟩
  have hend : Keeps d.text s :=
    invariant_of_foldlM (fun site _ s s' hs hstep => Keeps.changeSite hs hstep) hstart hs
  have hbase := (hend.tidyRegions hlog).2
  refine ⟨s, log, hs, hlog, ?_⟩
  rw [EditLog.isUnchanged, hbase] at hrest
  split at hrest
  next heq =>
    cases hrest
    exact .inl ⟨rfl, beq_iff_eq.mp heq⟩
  next hne =>
    split at hrest
    next edits _ =>
      cases hrest
      exact .inr ⟨edits, rfl, fun heq => hne (beq_iff_eq.mpr heq)⟩
    next => cases hrest

/-- A changed document has its path and the text it had, and some edits. -/
theorem edits_ne_nil_of_changeDocument {c : DocumentChange}
    (h : changeDocument plan d sites cancelled = .ok (some c, skipped)) :
    c.path = d.path ∧ c.edits ≠ [] := by
  obtain ⟨s, log, -, -, ⟨hnone, -⟩ | ⟨edits, hsome, hne⟩⟩ := cases_of_changeDocument h
  · cases hnone
  obtain rfl := Option.some.inj hsome
  refine ⟨rfl, fun hnil => hne ?_⟩
  -- without an edit the walk through the text ends where it started
  have hwalk := (sound_of_changeDocument h).walk
  rw [show edits = [] from hnil] at hwalk
  exact String.toList_inj.mp (hwalk.unique (.nil 0 _))

/-- Without regions there is nothing to tidy. -/
theorem eq_of_tidyRegions {s : Progress} {log : EditLog} (hregions : s.regions = [])
    (h : tidyRegions s = .ok log) : log = s.log := by
  unfold tidyRegions at h
  rw [hregions] at h
  exact (Except.ok.inj h).symm

/-- A patch that asks for no tidying leaves no region behind. -/
theorem regions_of_applyPatches {t : Tree} {s s' : Progress} {patch : Patch}
    (hregions : s.regions = []) (hplain : patch.tidy = false)
    (h : applyPatches t s [patch] = .ok s') : s'.regions = [] := by
  have hfold : [patch].foldlM applyPatch s = .ok s' := eq_ok_of_mapError h
  obtain ⟨s'', hstep, hrest⟩ := exists_of_bind_eq_ok hfold
  cases hrest
  obtain ⟨log, -, hrest⟩ := exists_of_bind_eq_ok hstep
  cases hrest
  simp [hregions, hplain, shiftRegions]

/-- The first site of a document is found in the tree of the document: either there is nothing to
rewrite and it is skipped, or the rewrite is carried out. -/
theorem cases_of_first_site {source : String} {t : Tree} {s : Progress}
    (ht : parse source = .ok t) (hk : t.kind n ≠ .compilationUnit)
    (h : changeSite plan d.path cancelled ⟨.ofText source, [], 0⟩ (Site.ofNode t n .declaration) =
      .ok s) :
    plan.rule.declarationPatches? t n plan.parameters = none ∧ s = ⟨.ofText source, [], 1⟩ ∨
      ∃ patches, plan.rule.declarationPatches? t n plan.parameters = some patches ∧
        applyPatches t ⟨.ofText source, [], 0⟩ patches = .ok s := by
  unfold changeSite at h
  split at h
  · cases h
  obtain ⟨t', hparse, h⟩ := exists_of_bind_eq_ok h
  have hparse : parse source = .ok t' := parse_of_reparse hparse
  obtain rfl := Except.ok.inj (ht.symm.trans hparse)
  have hpatches : sitePatches? plan t (Site.ofNode t n .declaration) =
      plan.rule.declarationPatches? t n plan.parameters := by
    rw [sitePatches?, relocate?_ofNode ht (lt_nodeCount_of_kind hk)]
    rfl
  rw [hpatches] at h
  cases hsome : plan.rule.declarationPatches? t n plan.parameters with
  | none =>
    rw [hsome] at h
    exact .inl ⟨rfl, (Except.ok.inj h).symm⟩
  | some patches =>
    rw [hsome] at h
    exact .inr ⟨patches, rfl, h⟩

/-- **A document with a single node to rewrite changes exactly when there is a rewrite.** -/
theorem isSome_of_single {source : String} (ht : parse source = .ok d.tree)
    (hk : d.tree.kind n ≠ .compilationUnit)
    (halters : ∀ patches, plan.rule.declarationPatches? d.tree n plan.parameters = some patches →
      ∃ patch, patches = [patch] ∧ patch.Alters source)
    (h : changeDocument plan d [Site.ofNode d.tree n .declaration] cancelled =
      .ok (change, skipped)) :
    change.isSome = (plan.rule.declarationPatches? d.tree n plan.parameters).isSome := by
  have htext : d.text = source := source_of_parse ht
  obtain ⟨s, log, hs, hlog, hcases⟩ := cases_of_changeDocument h
  obtain ⟨s', hsite, hs⟩ := exists_of_bind_eq_ok
    (show (changeSite plan d.path cancelled _ (Site.ofNode d.tree n .declaration) >>= pure) = _
      from hs)
  cases hs
  rw [htext] at hsite hcases
  rcases cases_of_first_site ht hk hsite with ⟨hnone, rfl⟩ | ⟨patches, hsome, happly⟩
  · -- the site is skipped, and there is nothing to tidy
    rw [hnone]
    obtain rfl := eq_of_tidyRegions rfl hlog
    rcases hcases with ⟨rfl, -⟩ | ⟨edits, -, hne⟩
    · rfl
    · exact absurd rfl hne
  · -- the patch writes another text, and again there is nothing to tidy
    rw [hsome]
    obtain ⟨patch, rfl, hpatch⟩ := halters patches hsome
    obtain rfl := eq_of_tidyRegions (regions_of_applyPatches rfl hpatch.plain happly) hlog
    have hreplace := EditLog.replaceSpan?_of_replace (replace_of_applyPatches happly)
    have hne := hpatch.ne_of_replaceSpan? hreplace
    rcases hcases with ⟨-, heq⟩ | ⟨edits, rfl, -⟩
    · exact absurd (congrArg String.toList heq) hne
    · rfl

/-- **A document with a modifier to rewrite changes**, whatever else its sites do. -/
theorem isSome_of_modifier {new : Option (TokenKind × String)} {source : String} {site : Site}
    {i : TokenId} (hrule : plan.rule.Rewords new) (ht : parse source = .ok d.tree)
    (hsite : site ∈ sites) (hi : siteModifier? plan d.tree site = some i)
    (h : changeDocument plan d sites cancelled = .ok (change, skipped)) :
    change.isSome = true := by
  obtain ⟨s, log, hs, hlog, ⟨-, heq⟩ | ⟨edits, rfl, -⟩⟩ := cases_of_changeDocument h
  · have htext : d.text = source := source_of_parse ht
    obtain ⟨tokens, htokens, -⟩ := exists_tokens_of_parse ht
    rw [← htext] at ht htokens
    have hstart : Says new _ _ [] d.text := says_of_tokenize htokens
    obtain ⟨taken, hrewrites, hsays⟩ := exists_rewrites_of_foldlM hrule hstart hs
    obtain ⟨out, hout, hwords, -⟩ := says_of_tidyRegions hsays hlog
    obtain ⟨out', hout', hwords', -⟩ := hstart
    -- the text is the one of before, so that no word is missing
    rw [heq, hout'] at hout
    obtain rfl := Option.some.inj hout
    have hnil : taken = [] := by
      by_contra hne
      obtain ⟨k, hk⟩ := List.exists_mem_of_ne_nil _ hne
      obtain ⟨-, href⟩ := hrewrites.taken_ref .nil (by simp)
      have hlt := count_ref_reworded_lt hrule.ne_ref hk (href k hk)
      rw [← hwords, hwords', reworded_nil] at hlt
      exact Nat.lt_irrefl _ hlt
    obtain ⟨t, ht', hnone⟩ := hrewrites.left_of_nil hnil site (mem_orderedSites hsite)
    obtain rfl := Except.ok.inj (ht.symm.trans ht')
    rw [hi] at hnone
    cases hnone
  · rfl

end Execution

/-! ## Plans

A plan goes through its documents, each by itself.  The check that reported two calls and the
rewrite that merges them look at the same nodes. -/

/-- What becomes of the sites of a document when a plan is carried out. -/
theorem Plan.exists_change_of_execute {plan : Plan} {s : Solution} {cancelled : Bool}
    {o : PlanOutcome} (h : plan.execute s cancelled = .ok o) {entry : DocumentId × List Site}
    (hentry : entry ∈ plan.sites) :
    ∃ d change skipped, s.document entry.1 = .ok d ∧
      Execution.changeDocument plan d entry.2 cancelled = .ok (change, skipped) ∧
      (change.isSome = true → o.documents ≠ []) := by
  obtain ⟨results, hresults, hrest⟩ := exists_of_bind_eq_ok h
  split at hrest
  · cases hrest
  obtain ⟨solution, -, hrest⟩ := exists_of_bind_eq_ok hrest
  cases hrest
  obtain ⟨⟨change, skipped⟩, hresult, hrun⟩ :=
    exists_of_forall₂_left (forall₂_of_mapM hresults) hentry
  obtain ⟨d, hd, hrun⟩ := exists_of_bind_eq_ok hrun
  refine ⟨d, change, skipped, hd, hrun, fun hsome => ?_⟩
  obtain ⟨c, rfl⟩ := Option.isSome_iff_exists.mp hsome
  exact List.ne_nil_of_mem (List.mem_filterMap.mpr ⟨_, hresult, rfl⟩)

/-- A plan with sites in one document changes that document or nothing. -/
theorem Plan.documents_ne_nil_iff_of_single {plan : Plan} {s : Solution} {cancelled : Bool}
    {o : PlanOutcome} {id : DocumentId} {sites : List Site} (hsites : plan.sites = [(id, sites)])
    (h : plan.execute s cancelled = .ok o) :
    ∃ d change skipped, s.document id = .ok d ∧
      Execution.changeDocument plan d sites cancelled = .ok (change, skipped) ∧
      (o.documents ≠ [] ↔ change.isSome = true) := by
  obtain ⟨d, change, skipped, hd, hchange, hdocuments⟩ :=
    exists_change_of_execute h (hsites ▸ List.mem_singleton_self _)
  refine ⟨d, change, skipped, hd, hchange, fun hne => ?_, hdocuments⟩
  obtain ⟨c, hc⟩ := List.exists_mem_of_ne_nil _ hne
  obtain ⟨d', sites', skipped', hd', hentry, hchange'⟩ := exists_sites_of_execute h hc
  rw [hsites] at hentry
  obtain ⟨hid, rfl⟩ := Prod.mk.inj (List.mem_singleton.mp hentry)
  rw [hid, Solution.document?_of_document hd] at hd'
  obtain rfl := Option.some.inj hd'
  obtain ⟨rfl, -⟩ := Prod.mk.inj (Except.ok.inj (hchange.symm.trans hchange'))
  rfl

/-- A cancelled plan is not carried out. -/
theorem Plan.not_cancelled_of_execute {plan : Plan} {s : Solution} {cancelled : Bool}
    {o : PlanOutcome} (h : plan.execute s cancelled = .ok o) : cancelled = false := by
  obtain ⟨results, -, hrest⟩ := exists_of_bind_eq_ok h
  split at hrest
  · cases hrest
  next hcancelled => exact eq_false_of_ne_true hcancelled

namespace Check

variable {b : Binder} {t : Tree} {n : NodeId}

/-- The check and the rewrite speak of the same two calls. -/
theorem calls_eq_of_branching? {anchor : TokenId} {condition : NodeId}
    {calls calls' : NodeId × NodeId}
    (h : branching? t n = some (anchor, calls))
    (h' : Effects.branches? t n = some (condition, calls')) : calls = calls' := by
  unfold branching? at h
  unfold Effects.branches? at h'
  split at h
  next hk =>
    simp only [hk, Option.bind_eq_bind, Option.bind_eq_some_iff, Option.pure_def,
      Option.some.injEq, Prod.mk.injEq] at h h'
    obtain ⟨_, hcalls, v, -, -, rfl⟩ := h
    obtain ⟨w, -, _, hcalls', -, rfl⟩ := h'
    exact Option.some.inj (hcalls.symm.trans hcalls')
  next hk =>
    simp only [hk, Option.bind_eq_bind, Option.bind_eq_some_iff, Option.pure_def,
      Option.some.injEq, Prod.mk.injEq] at h h'
    obtain ⟨_, hcalls, i, -, -, rfl⟩ := h
    obtain ⟨c, -, _, hcalls', -, rfl⟩ := h'
    exact Option.some.inj (hcalls.symm.trans hcalls')
  next => cases h

/-- Calls that are compared are bound. -/
theorem resolves_of_matchCalls? {whenTrue whenFalse : NodeId}
    {comparisons? : Option (List Comparison)}
    (h : matchCalls? b whenTrue whenFalse = .ok comparisons?) (hsome : comparisons? ≠ none) :
    ∃ id, b.resolveInvocation? whenFalse = .ok (some id) := by
  simp only [matchCalls?] at h
  split at h
  next =>
    split at h
    · exact absurd (Except.ok.inj h).symm hsome
    obtain ⟨id?, -, h⟩ := exists_of_bind_eq_ok h
    cases id? with
    | none => exact absurd (Except.ok.inj h).symm hsome
    | some id =>
      obtain ⟨other?, hother, h⟩ := exists_of_bind_eq_ok h
      have h := Except.ok.inj h
      split at h
      next hsame => exact ⟨id, by rw [hother, beq_iff_eq.mp hsame]⟩
      next => exact absurd h.symm hsome
  next => exact absurd (Except.ok.inj h).symm hsome

/-- The calls that are reported as one have names. -/
theorem exists_nameToken_of_duplicateCall? {f : Finding} {site : Effects.MergeSite}
    (hp : Parsed b.tree) (hnum : b.program.Numbered) (h : duplicateCall? b n = .ok (some f))
    (hsite : Effects.mergeSite? b.tree n = some site) :
    ∃ i, References.nameToken? b.tree site.whenFalse = some i := by
  obtain ⟨hbranches, -⟩ := Patch.views_of_mergeSite? hsite
  simp only [duplicateCall?] at h
  split at h
  next => cases h
  next anchor whenTrue whenFalse hbranching =>
    obtain ⟨comparisons?, hmatch, h⟩ := exists_of_bind_eq_ok h
    have hsome : comparisons? ≠ none := by
      rintro rfl
      cases h
    obtain ⟨id, hresolves⟩ := resolves_of_matchCalls? hmatch hsome
    obtain ⟨w, i, -, -, hw, hi, -⟩ := Binder.exists_of_resolveInvocation? hp hnum hresolves
    rw [(Prod.mk.inj (calls_eq_of_branching? hbranching hbranches)).2] at hw
    refine ⟨i, ?_⟩
    rw [References.nameToken?, hw]
    exact hi

end Check

/-! ## Findings

For the rules about a modifier, a conversion and two calls, the finding tells whether its fix
changes anything. -/

namespace Finding

variable {s : Solution} {d : Document} {n : NodeId} {f : Finding} {source : String}
  {cancelled : Bool} {o : PlanOutcome}

/-- **The fix of a modifier changes a document**: the modifier is found by its anchor and stands at
a site of the plan. -/
theorem documents_ne_nil_of_modifier (hs : s.Parsed) (h : parse source = .ok d.tree)
    (hd : d ∈ s.documents)
    (hf : Check.refParameter (.ofDocument (.ofSolution s) d) n = .ok (some f))
    (ho : f.runFix (.ofSolution s) cancelled = .ok o) : o.documents ≠ [] := by
  obtain ⟨plan, hplan, hexecute⟩ := exists_of_bind_eq_ok ho
  rw [Program.solution_ofSolution] at hexecute
  obtain ⟨w, v, i, m, hw, hi, htext, hv, hc, -, hdocument, hspan, hrule⟩ :=
    Check.place_of_refParameter h hf
  obtain ⟨-, hk, -, hlist⟩ := MethodView.mem_childNodes hv
  obtain ⟨index, hat, hanchor⟩ :=
    Anchor.parameter?_of_modifier h hw (hi ▸ List.mem_singleton_self i) hc hlist hk
  -- The finding points at the modifier, and the plan finds the modifier at the declaration again.
  have hmodifier : Patch.parameterModifier? d.tree v.node index = some i := by
    have hitem : (v.parameters d.tree).items[index]? = some n := hat
    simp [Patch.parameterModifier?, hv, hitem, hw, hi, htext]
  obtain ⟨d', hd', hcases⟩ := Plan.cases_of_resolve hplan
  rw [Program.solution_ofSolution, hdocument, hs.document_eq hd] at hd'
  obtain rfl := Except.ok.inj hd'
  rw [← hspan] at hanchor
  rcases hcases with ⟨method, j, hparameter, -, hsignature⟩ | ⟨_, -, hrule', -⟩ |
    ⟨_, ⟨hrule', -⟩ | ⟨hrule', -⟩, -⟩
  · obtain ⟨rfl, rfl⟩ := Prod.mk.inj (Option.some.inj (hanchor.symm.trans hparameter))
    obtain ⟨hsame, hparameters, sites, hentry, hsite⟩ := Resolve.declaration_mem hsignature
    obtain ⟨d', change, skipped, hd', hchange, hdocuments⟩ :=
      Plan.exists_change_of_execute hexecute hentry
    obtain rfl := Except.ok.inj ((hs.document_eq hd).symm.trans hd')
    refine hdocuments ?_
    have hsite' : siteModifier? plan d.tree (Site.ofNode d.tree v.node .declaration) = some i := by
      rw [siteModifier?, relocate?_ofNode h (lt_nodeCount_of_kind (by rw [hk]; decide)), hparameters]
      exact hmodifier
    rw [← hsame] at hrule
    rcases hrule with hrule | hrule
    · exact Execution.isSome_of_modifier (.inl ⟨hrule, rfl⟩) h hsite hsite' hchange
    · exact Execution.isSome_of_modifier (.inr ⟨hrule, rfl⟩) h hsite hsite' hchange
  all_goals rcases hrule with hrule | hrule <;> rw [hrule] at hrule' <;> cases hrule'

/-- **The fix of a single node changes its document exactly when there is a rewrite.** -/
theorem documents_ne_nil_iff_of_single (hs : s.Parsed) (h : parse source = .ok d.tree)
    (hd : d ∈ s.documents) (hdocument : f.document = d.id)
    (hanchor : f.rule = .duplicateCall ∧ Anchor.branching? d.tree f.span = some n ∨
      f.rule = .redundantConversion ∧ Anchor.invocation? d.tree f.span = some n)
    (hk : d.tree.kind n ≠ .compilationUnit)
    (halters : ∀ patches, f.rule.declarationPatches? d.tree n [] = some patches →
      ∃ patch, patches = [patch] ∧ patch.Alters source)
    (ho : f.runFix (.ofSolution s) cancelled = .ok o) :
    o.documents ≠ [] ↔ (f.rule.declarationPatches? d.tree n []).isSome = true := by
  obtain ⟨plan, hplan, hexecute⟩ := exists_of_bind_eq_ok ho
  rw [resolve_of_node hs hd hdocument hanchor] at hplan
  obtain rfl := Except.ok.inj hplan
  rw [Program.solution_ofSolution] at hexecute
  have hdoc : s.document f.document = .ok d := hdocument ▸ hs.document_eq hd
  obtain ⟨d', change, skipped, hd', hchange, hdocuments⟩ :=
    Plan.documents_ne_nil_iff_of_single rfl hexecute
  obtain rfl := Except.ok.inj (hdoc.symm.trans hd')
  rw [hdocuments]
  exact Bool.eq_iff_iff.mp (Execution.isSome_of_single h hk halters hchange)

/-- **The fix of a redundant conversion changes its document exactly when the call can be
unwrapped.** -/
theorem documents_ne_nil_iff_of_conversion (hs : s.Parsed) (h : parse source = .ok d.tree)
    (hd : d ∈ s.documents)
    (hf : Check.conversion? (.ofDocument (.ofSolution s) d) n = .ok (some f))
    (ho : f.runFix (.ofSolution s) cancelled = .ok o) :
    o.documents ≠ [] ↔ (Patch.unwrapArgument? d.tree n).isSome = true := by
  obtain ⟨v, hv, hdocument, hrule, hspan⟩ := Check.cases_of_conversion? hf
  have hanchor : Anchor.invocation? d.tree f.span = some n := by
    rw [hspan]
    exact Anchor.invocation?_of_callee h hv
  have hk : d.tree.kind n = .invocationExpression :=
    (Anchor.children_of_view (inOrder_of_parse h) hv).1
  have hiff := documents_ne_nil_iff_of_single hs h hd hdocument (.inr ⟨hrule, hanchor⟩)
    (by rw [hk]; decide) (fun patches hpatches => by
      rw [hrule] at hpatches
      exact Patch.unwrapArgument?_alters h hpatches) ho
  rwa [hrule] at hiff

/-- **The fix of a duplicate call changes its document exactly when the calls can be merged.** -/
theorem documents_ne_nil_iff_of_duplicateCall (hs : s.Parsed) (h : parse source = .ok d.tree)
    (hd : d ∈ s.documents)
    (hf : Check.duplicateCall? (.ofDocument (.ofSolution s) d) n = .ok (some f))
    (ho : f.runFix (.ofSolution s) cancelled = .ok o) :
    o.documents ≠ [] ↔ (Patch.mergeCalls? d.tree n).isSome = true := by
  obtain ⟨anchor, calls, hcalls, hdocument, hrule, hspan⟩ := Check.cases_of_duplicateCall? hf
  have hanchor : Anchor.branching? d.tree f.span = some n := by
    rw [hspan]
    exact Anchor.branching?_of_check h hcalls
  have hk : d.tree.kind n ≠ .compilationUnit := by
    obtain ⟨-, ⟨hk, -⟩ | ⟨hk, -⟩⟩ := Anchor.cases_of_branching? (inOrder_of_parse h) hcalls
    · exact fun heq => nomatch hk.symm.trans heq
    · exact fun heq => nomatch hk.symm.trans heq
  have hiff := documents_ne_nil_iff_of_single hs h hd hdocument (.inl ⟨hrule, hanchor⟩) hk
    (fun patches hpatches => by
      rw [hrule] at hpatches
      obtain ⟨site, hsite⟩ := Effects.exists_mergeSite hpatches
      obtain ⟨i, hi⟩ := Check.exists_nameToken_of_duplicateCall?
        (b := .ofDocument (.ofSolution s) d) (parsed_of_parse h) (Program.numbered_ofSolution s) hf
        hsite
      exact Patch.mergeCalls?_alters h hpatches hsite hi) ho
  rwa [hrule] at hiff

end Finding

end CodeMend
