import CodeMend.Fix.Apply
import CodeMend.Proofs.Patch.Spans
import CodeMend.Proofs.Text.NetEdits

/-!
# CodeMend — what carrying out a plan leaves behind

While the sites of a document are changed, its log stays in order: no patch and no tidying edit ends
before it starts.  So the change of a document is told by edits of the text it had, and the changes
of a fix are those of different documents.

* **`Execution.sound_of_changeDocument`** — the edits of a change turn the old text into the new
  one.
* **`Solution.document?_withChanges_of_mem`** — the documents of a solution after some changes.
* **`Finding.sound_of_runFix`** — a fix changes every document at most once.
-/

namespace CodeMend

open Tree

/-! ## Values by document

Sites and edits are kept in lists with an entry for each document, in the order of the documents.
Adding values to one document leaves the entries of the others alone. -/

namespace ByDocument

variable {α : Type} {m : ByDocument α} {d e : DocumentId} {new : List α}

/-- Every document is there at most once, and the documents ascend. -/
def Ascending (m : ByDocument α) : Prop := m.Pairwise fun a b => a.1 < b.1

/-- The documents that values were added for are those with values before, and the new one. -/
theorem mem_append {entry : DocumentId × List α} (h : entry ∈ m.append d new) :
    entry ∈ m ∨ entry.1 = d := by
  induction m with
  | nil => exact .inr (List.mem_singleton.mp h ▸ rfl)
  | cons first rest ih =>
    obtain ⟨e, xs⟩ := first
    unfold append at h
    split at h
    · rcases List.mem_cons.mp h with rfl | h
      · exact .inr rfl
      · exact .inl h
    · split at h
      · rename_i heq
        rcases List.mem_cons.mp h with rfl | h
        · exact .inr (beq_iff_eq.mp heq).symm
        · exact .inl (List.mem_cons_of_mem _ h)
      · rcases List.mem_cons.mp h with rfl | h
        · exact .inl List.mem_cons_self
        · exact (ih h).imp_left (List.mem_cons_of_mem _)

theorem Ascending.append (h : m.Ascending) : (m.append d new).Ascending := by
  induction m with
  | nil => exact List.pairwise_singleton _ _
  | cons first rest ih =>
    obtain ⟨e, xs⟩ := first
    obtain ⟨hfirst, hrest⟩ := List.pairwise_cons.mp h
    unfold ByDocument.append
    split
    · rename_i hlt
      refine List.pairwise_cons.mpr ⟨fun entry hentry => ?_, h⟩
      rcases List.mem_cons.mp hentry with rfl | hentry
      · exact hlt
      · exact Nat.lt_trans hlt (hfirst entry hentry)
    · rename_i hge
      split
      · exact List.pairwise_cons.mpr ⟨hfirst, hrest⟩
      · rename_i hne
        have hne : d ≠ e := by simpa using hne
        have hd : e < d := Nat.lt_of_le_of_ne (Nat.not_lt.mp hge) (Ne.symm hne)
        refine List.pairwise_cons.mpr ⟨fun entry hentry => ?_, ih hrest⟩
        rcases mem_append hentry with hentry | heq
        · exact hfirst entry hentry
        · exact heq.symm ▸ hd

theorem ofDocument_cons {xs : List α} :
    ofDocument ((e, xs) :: m) d = if e = d then xs else ofDocument m d := by
  unfold ofDocument
  by_cases heq : e = d
  · simp [heq]
  · simp [heq]

theorem ofDocument_eq_nil (h : ∀ entry ∈ m, entry.1 ≠ d) : ofDocument m d = [] := by
  unfold ofDocument
  rw [List.find?_eq_none.mpr]
  · rfl
  · intro entry hentry
    simpa using h entry hentry

/-- **Values are added to those of their document, and no others change.** -/
theorem ofDocument_append (h : m.Ascending) :
    ofDocument (m.append d new) e = if d = e then ofDocument m e ++ new else ofDocument m e := by
  induction m with
  | nil =>
    show ofDocument [(d, new)] e = _
    rw [ofDocument_cons]
    rfl
  | cons first rest ih =>
    obtain ⟨e', xs⟩ := first
    obtain ⟨hfirst, hrest⟩ := List.pairwise_cons.mp h
    unfold append
    split
    · rename_i hlt
      -- the document was not there: all that are there come behind it
      have hnil : ofDocument ((e', xs) :: rest) d = [] := by
        refine ofDocument_eq_nil fun entry hentry => ?_
        rcases List.mem_cons.mp hentry with rfl | hentry
        · exact Nat.ne_of_gt hlt
        · exact Nat.ne_of_gt (Nat.lt_trans hlt (hfirst entry hentry))
      rw [ofDocument_cons]
      by_cases heq : d = e
      · rw [if_pos heq, if_pos heq, ← heq, hnil]
        rfl
      · rw [if_neg heq, if_neg heq]
    · split
      · rename_i heq
        obtain rfl : d = e' := beq_iff_eq.mp heq
        rw [ofDocument_cons, ofDocument_cons]
        by_cases heq : d = e
        · rw [if_pos heq, if_pos heq, if_pos heq]
        · rw [if_neg heq, if_neg heq, if_neg heq]
      · rename_i hne
        have hne : d ≠ e' := by simpa using hne
        rw [ofDocument_cons, ofDocument_cons, ih hrest]
        by_cases heq : e' = e
        · have hde : d ≠ e := heq ▸ hne
          rw [if_pos heq, if_pos heq, if_neg hde]
        · rw [if_neg heq, if_neg heq]

/-- The values of a document are those of its entry. -/
theorem Ascending.ofDocument_of_mem (h : m.Ascending) {xs : List α} (hmem : (d, xs) ∈ m) :
    ofDocument m d = xs := by
  induction m with
  | nil => cases hmem
  | cons first rest ih =>
    obtain ⟨e, ys⟩ := first
    obtain ⟨hfirst, hrest⟩ := List.pairwise_cons.mp h
    rw [ofDocument_cons]
    rcases List.mem_cons.mp hmem with heq | hmem
    · cases heq
      exact if_pos rfl
    · rw [if_neg (Nat.ne_of_lt (hfirst _ hmem))]
      exact ih hrest hmem

end ByDocument

/-! ## The log of a document while its sites are changed

Whatever a fix does to a document, it does by replacements in the log of that document.  So the log
stays in order through patches, sites and the tidying at the end, and its net edits tell what became
of the text. -/

namespace Execution

/-- The log stays in order, and it is the log of a text. -/
def Keeps (text : String) (s : Progress) : Prop := s.log.WellFormed ∧ s.log.base = text

variable {text : String} {s s' : Progress}

theorem Keeps.replace {log log' : EditLog} (h : log.WellFormed ∧ log.base = text) {span : Span}
    {new : String} (hspan : span.Forward) (hreplace : log.replace span new = .ok log') :
    log'.WellFormed ∧ log'.base = text := by
  have hafter : log.after (span, new) = log' := by
    unfold EditLog.after
    rw [hreplace]
  obtain ⟨hwf, hbase⟩ := h.1.after (span, new) hspan
  rw [hafter] at hwf hbase
  exact ⟨hwf, hbase.trans h.2⟩

theorem Keeps.applyPatch (h : Keeps text s) {p : Patch} (hp : p.span.Forward)
    (hs' : applyPatch s p = .ok s') : Keeps text s' := by
  obtain ⟨log, hlog, hrest⟩ := exists_of_bind_eq_ok hs'
  cases hrest
  exact Keeps.replace h hp hlog

theorem Keeps.applyPatches (h : Keeps text s) {t : Tree} {patches : List Patch}
    (hpatches : Patch.Forward patches) (hs' : applyPatches t s patches = .ok s') :
    Keeps text s' := by
  simp only [Execution.applyPatches] at hs'
  split at hs'
  · cases hs'
  · refine invariant_of_foldlM (fun p hp s s' hs hstep => ?_) h (eq_ok_of_mapError hs')
    rw [mem_sortStable] at hp
    exact Keeps.applyPatch hs (hpatches p hp) hstep

theorem parse_of_reparse {path text : String} {t : Tree} (h : reparse path text = .ok t) :
    parse text = .ok t := by
  unfold reparse at h
  split at h
  · rename_i hparse
    cases h
    exact hparse
  · cases h

/-- The patches of a site in a parsed source run forward. -/
theorem forward_of_sitePatches? {plan : Plan} {t : Tree} (ht : InOrder t) {site : Site}
    {patches : List Patch} (h : sitePatches? plan t site = some patches) :
    Patch.Forward patches := by
  simp only [sitePatches?, Option.bind_eq_bind, Option.bind_eq_some_iff] at h
  obtain ⟨n, -, hpatches⟩ := h
  split at hpatches
  · exact Rule.forward_of_declarationPatches? ht hpatches
  · exact Rule.forward_of_callPatches? ht hpatches

theorem Keeps.changeSite (h : Keeps text s) {plan : Plan} {path : String} {cancelled : Bool}
    {site : Site} (hs' : changeSite plan path cancelled s site = .ok s') : Keeps text s' := by
  unfold Execution.changeSite at hs'
  split at hs'
  · cases hs'
  obtain ⟨t, ht, hrest⟩ := exists_of_bind_eq_ok hs'
  have hinOrder : InOrder t := inOrder_of_parse (parse_of_reparse ht)
  split at hrest
  · rename_i patches hpatches
    exact h.applyPatches (forward_of_sitePatches? hinOrder hpatches) hrest
  · cases hrest
    exact h

/-- Tidying edits run forward. -/
theorem forward_of_gapEdits {gap : Layout.Gap} {regions : List Span} {first : Bool}
    {offset : Nat} {before : Option Char} {pieces : List Trivia} :
    ∀ e ∈ Layout.gapEdits gap regions first offset before pieces, e.span.Forward := by
  induction pieces generalizing first offset before with
  | nil => intro e he; cases he
  | cons piece rest ih =>
    intro e he
    rcases List.mem_append.mp he with he | he
    · split at he
      · split at he
        · obtain rfl := List.mem_singleton.mp he
          exact Nat.le_add_right _ _
        · cases he
      · cases he
    · exact ih e he

theorem forward_of_layoutEdits {source : String} {regions : List Span} {edits : List TextEdit}
    (h : layoutEdits source regions = .ok edits) : ∀ e ∈ edits, e.span.Forward := by
  unfold layoutEdits at h
  split at h
  · cases h
    intro e he
    cases he
  obtain ⟨tokens, -, hrest⟩ := exists_of_bind_eq_ok h
  cases hrest
  clear h
  generalize (none : Option Token) = previous
  induction tokens generalizing previous with
  | nil => intro e he; cases he
  | cons token tokens ih =>
    intro e he
    rcases List.mem_append.mp he with he | he
    · exact forward_of_gapEdits e he
    · exact ih (some token) e he

theorem Keeps.tidyRegions (h : Keeps text s) {log : EditLog} (hlog : tidyRegions s = .ok log) :
    log.WellFormed ∧ log.base = text := by
  obtain ⟨edits, hedits, hrest⟩ := exists_of_bind_eq_ok hlog
  have hforward := forward_of_layoutEdits (eq_ok_of_mapError hedits)
  have hstep : ∀ e ∈ edits.reverse, ∀ log log' : EditLog, log.WellFormed ∧ log.base = text →
      log.replace e.span e.newText = .ok log' → log'.WellFormed ∧ log'.base = text := by
    intro e he log log' hlog hreplace
    exact Keeps.replace hlog (hforward e (List.mem_reverse.mp he)) hreplace
  exact invariant_of_foldlM hstep h (eq_ok_of_mapError hrest)

end Execution

/-! ## The change of a document

The change that is reported has the edits of the log.  They are kept apart by at least a byte, so
that they can be made in any order. -/

/-- What the change of a document says: with some byte between any two of them, its edits turn the
text of the document into the new text, which parses. -/
structure DocumentChange.Sound (d : Document) (c : DocumentChange) : Prop where
  document : c.document = d.id
  before : c.before = d.text
  walk : Splices 0 d.text.toList c.edits c.after.toList
  separated : Separated c.edits
  changes : ∀ e ∈ c.edits, IsChange d.text e
  parses : ∃ t, parse c.after = .ok t

theorem DocumentChange.Sound.fits {d : Document} {c : DocumentChange} (h : c.Sound d) :
    Fits d.text c.edits :=
  h.walk.checkSpan [] rfl rfl

theorem DocumentChange.Sound.noOverlaps {d : Document} {c : DocumentChange} (h : c.Sound d) :
    NoOverlaps c.edits :=
  h.separated.noOverlaps fun e he => (h.fits e he).1

namespace Execution

/-- **The edits of a change turn the old text of the document into the new one.** -/
theorem sound_of_changeDocument {plan : Plan} {d : Document} {sites : List Site}
    {cancelled : Bool} {c : DocumentChange} {skipped : Nat}
    (h : changeDocument plan d sites cancelled = .ok (some c, skipped)) : c.Sound d := by
  obtain ⟨s, hs, hrest⟩ := exists_of_bind_eq_ok h
  obtain ⟨log, hlog, hrest⟩ := exists_of_bind_eq_ok hrest
  obtain ⟨t, ht, hrest⟩ := exists_of_bind_eq_ok hrest
  have hstart : Keeps d.text ⟨.ofText d.text, [], 0⟩ := ⟨EditLog.wellFormed_ofText _, rfl⟩
  have hend : Keeps d.text s :=
    invariant_of_foldlM (fun site _ s s' hs hstep => Keeps.changeSite hs hstep) hstart hs
  obtain ⟨hwf, hbase⟩ := hend.tidyRegions hlog
  obtain ⟨edits, hedits, hwalk, hseparated, hchanges⟩ := hwf.edits?
  rw [hedits] at hrest
  split at hrest
  · cases hrest
  · cases hrest
    rw [hbase] at hwalk hchanges
    exact ⟨rfl, hbase, hwalk, hseparated, hchanges, t, parse_of_reparse ht⟩

end Execution

/-! ## The documents of a solution

A solution with changed documents has the new texts under the old numbers, and what was not changed
is as it was. -/

namespace Solution

variable {s s' : Solution} {id : DocumentId}

theorem document?_of_document {d : Document} (h : s.document id = .ok d) :
    s.document? id = some d := by
  unfold document at h
  split at h
  · rename_i hd
    cases h
    exact hd
  · cases h

theorem id_of_document? {d : Document} (h : s.document? id = some d) : d.id = id := by
  simpa using List.find?_some h

/-- A document with a new text is found under its number, with its path. -/
theorem document?_withText {text : String} (h : s.withText id text = .ok s') :
    ∃ d d', s.document? id = some d ∧ s'.document? id = some d' ∧ d'.path = d.path ∧
      d'.text = text := by
  obtain ⟨d, hd, hrest⟩ := exists_of_bind_eq_ok h
  obtain ⟨new, hnew, hrest⟩ := exists_of_bind_eq_ok hrest
  cases hrest
  have hd := document?_of_document hd
  unfold Document.parse at hnew
  split at hnew
  · rename_i tree htree
    cases hnew
    refine ⟨d, ⟨id, d.path, tree⟩, hd, ?_, rfl, source_of_parse htree⟩
    unfold document? at hd ⊢
    generalize s.documents = documents at hd
    induction documents with
    | nil => cases hd
    | cons first rest ih =>
      by_cases hfirst : first.id = id
      · simp [hfirst]
      · simp only [List.find?_cons, beq_eq_false_iff_ne.mpr hfirst] at hd
        simpa [hfirst] using ih hd
  · cases hnew

/-- All other documents stay as they are. -/
theorem document?_withText_of_ne {text : String} {e : DocumentId} (hne : e ≠ id)
    (h : s.withText id text = .ok s') : s'.document? e = s.document? e := by
  obtain ⟨d, hd, hrest⟩ := exists_of_bind_eq_ok h
  obtain ⟨new, hnew, hrest⟩ := exists_of_bind_eq_ok hrest
  cases hrest
  have hid : new.id = id := by
    unfold Document.parse at hnew
    split at hnew
    · cases hnew
      rfl
    · cases hnew
  unfold document?
  rw [List.find?_map]
  induction s.documents with
  | nil => rfl
  | cons first rest ih =>
    by_cases hfirst : first.id = id
    · have hother : first.id ≠ e := fun heq => hne (heq.symm.trans hfirst)
      have hnew : new.id ≠ e := fun heq => hne (heq.symm.trans hid)
      simpa [hfirst, hother, hnew, Ne.symm hne] using ih
    · by_cases hother : first.id = e
      · simp [hother, hne]
      · simpa [hfirst, hother] using ih

/-- Documents without a change stay as they are. -/
theorem document?_withChanges_of_forall_ne {changes : List DocumentChange}
    (hne : ∀ c ∈ changes, c.document ≠ id) (h : s.withChanges changes = .ok s') :
    s'.document? id = s.document? id := by
  refine invariant_of_foldlM (P := fun r => r.document? id = s.document? id)
    (fun c hc r r' hr hstep => ?_) rfl h
  exact (document?_withText_of_ne (hne c hc).symm hstep).trans hr

/-- A changed document has the new text, under its number and with its path. -/
theorem document?_withChanges_of_mem {changes : List DocumentChange}
    (hdistinct : changes.Pairwise fun a b => a.document < b.document) {c : DocumentChange}
    (hc : c ∈ changes) (h : s.withChanges changes = .ok s') :
    ∃ d d', s.document? c.document = some d ∧ s'.document? c.document = some d' ∧
      d'.path = d.path ∧ d'.text = c.after := by
  unfold withChanges at h
  induction changes generalizing s with
  | nil => cases hc
  | cons first rest ih =>
    obtain ⟨hfirst, hrest⟩ := List.pairwise_cons.mp hdistinct
    rw [List.foldlM_cons] at h
    obtain ⟨r, hr, hr'⟩ := exists_of_bind_eq_ok h
    rcases List.mem_cons.mp hc with rfl | hc
    · -- the changes that follow are those of other documents
      obtain ⟨d, d', hd, hd', hpath, htext⟩ := document?_withText hr
      have hne : ∀ c' ∈ rest, c'.document ≠ c.document := fun c' hc' =>
        Nat.ne_of_gt (hfirst c' hc')
      have hsame := document?_withChanges_of_forall_ne hne hr'
      exact ⟨d, d', hd, hsame.trans hd', hpath, htext⟩
    · obtain ⟨d, d', hd, hd', hpath, htext⟩ := ih hrest hc hr'
      have hne : c.document ≠ first.document := Nat.ne_of_gt (hfirst c hc)
      rw [document?_withText_of_ne hne hr] at hd
      exact ⟨d, d', hd, hd', hpath, htext⟩

end Solution

/-! ## The changes of a fix

No plan names a document twice.  This is a matter of how plans are made, and with it every document
has at most one change. -/

/-- What carrying out a plan leads to: a change says how the text of its document became the new
one, no document has two changes, and the solution has the new texts. -/
structure PlanOutcome.Sound (s : Solution) (o : PlanOutcome) : Prop where
  changes : ∀ c ∈ o.documents, ∃ d, s.document? c.document = some d ∧ c.Sound d
  distinct : o.documents.Pairwise fun a b => a.document < b.document
  solution : s.withChanges o.documents = .ok o.solution

/-- **Carrying out a plan that names every document once changes every document once.** -/
theorem Plan.sound_of_execute {plan : Plan} {s : Solution} {cancelled : Bool} {o : PlanOutcome}
    (hplan : plan.sites.Ascending) (h : plan.execute s cancelled = .ok o) : o.Sound s := by
  obtain ⟨results, hresults, hrest⟩ := exists_of_bind_eq_ok h
  split at hrest
  · cases hrest
  obtain ⟨solution, hsolution, hrest⟩ := exists_of_bind_eq_ok hrest
  cases hrest
  have hpairs := forall₂_of_mapM hresults
  -- What one document gives, whichever list of sites it is.
  have hresult : ∀ (id : DocumentId) (sites : List Site) (r : Option DocumentChange × Nat),
      (do Execution.changeDocument plan (← s.document id) sites cancelled) = .ok r →
      ∀ c, r.1 = some c → c.document = id ∧ ∃ d, s.document? c.document = some d ∧ c.Sound d := by
    rintro id sites ⟨-, skipped⟩ hr c rfl
    obtain ⟨d, hd, hchange⟩ := exists_of_bind_eq_ok hr
    have hd := Solution.document?_of_document hd
    have hsound := Execution.sound_of_changeDocument hchange
    have hid : c.document = id := hsound.document.trans (Solution.id_of_document? hd)
    exact ⟨hid, d, hid ▸ hd, hsound⟩
  -- The induction is on the documents of the plan, so a change is told by its entry there.
  suffices hall : (∀ c ∈ results.filterMap Prod.fst,
      (∃ entry ∈ plan.sites, c.document = entry.1) ∧
        ∃ d, s.document? c.document = some d ∧ c.Sound d) ∧
      (results.filterMap Prod.fst).Pairwise fun a b => a.document < b.document from
    ⟨fun c hc => (hall.1 c hc).2, hall.2, hsolution⟩
  clear hresults h hrest hsolution
  generalize plan.sites = sites at hpairs hplan
  induction hpairs with
  | nil => exact ⟨fun c hc => (List.not_mem_nil hc).elim, List.Pairwise.nil⟩
  | @cons entry r sites results hfirst hpairs ih =>
    obtain ⟨hbefore, hascending⟩ := List.pairwise_cons.mp hplan
    obtain ⟨hmem, hpairwise⟩ := ih hascending
    have hwiden : ∀ c ∈ results.filterMap Prod.fst, (∃ e ∈ entry :: sites, c.document = e.1) ∧
        ∃ d, s.document? c.document = some d ∧ c.Sound d := by
      intro c hc
      obtain ⟨⟨e, he, hid⟩, hsound⟩ := hmem c hc
      exact ⟨⟨e, List.mem_cons_of_mem _ he, hid⟩, hsound⟩
    rw [List.filterMap_cons]
    split
    · exact ⟨hwiden, hpairwise⟩
    · rename_i c hc
      obtain ⟨hid, hsound⟩ := hresult entry.1 entry.2 r hfirst c hc
      refine ⟨fun c' hc' => ?_, List.pairwise_cons.mpr ⟨fun c' hc' => ?_, hpairwise⟩⟩
      · rcases List.mem_cons.mp hc' with rfl | hc'
        · exact ⟨⟨entry, List.mem_cons_self, hid⟩, hsound⟩
        · exact hwiden c' hc'
      · obtain ⟨⟨e, he, hid'⟩, -⟩ := hmem c' hc'
        rw [hid, hid']
        exact hbefore e he

/-- One more call among the sites of a plan, if the fix can follow it. -/
def Resolve.addCall (p : Program) (rule : Rule) (parameters : List (Nat × String))
    (sites : ByDocument Site) (r : MethodReference) : Analysis (ByDocument Site) := do
  let there ← p.solution.document r.document
  match callSite? there.tree rule parameters r with
  | some site => return sites.append r.document [site]
  | none => return sites

/-- A plan for a signature has the declaration and the calls that were found. -/
theorem Resolve.exists_of_signaturePlan {p : Program} {rule : Rule} {d : Document} {n : NodeId}
    {indices : List Nat} {cancelled : Bool} {plan : Plan}
    (h : signaturePlan p rule d n indices cancelled = .ok plan) :
    ∃ m names references sites, p.declaredMethod? d.id n = some m ∧
      (indices.mapM fun i => m.parameters[i]?.map ParameterSymbol.name) = some names ∧
      p.findReferences m.id cancelled = .ok references ∧
      ensureComplete p.solution m.name references = .ok () ∧
      references.foldlM (addCall p rule (indices.zip names))
        [(d.id, [Site.ofNode d.tree n .declaration])] = .ok sites ∧
      plan = ⟨rule, some m.id, indices, sites⟩ := by
  simp only [signaturePlan] at h
  split at h
  · rename_i m hm
    obtain ⟨_, hm', h⟩ := exists_of_bind_eq_ok h
    cases hm'
    split at h
    · rename_i names hnames
      obtain ⟨_, hnames', h⟩ := exists_of_bind_eq_ok h
      cases hnames'
      obtain ⟨references, hreferences, h⟩ := exists_of_bind_eq_ok h
      obtain ⟨_, hcomplete, h⟩ := exists_of_bind_eq_ok h
      obtain ⟨sites, hsites, h⟩ := exists_of_bind_eq_ok h
      cases h
      exact ⟨m, names, references, sites, hm, hnames, hreferences, hcomplete, hsites, rfl⟩
    · obtain ⟨_, herror, -⟩ := exists_of_bind_eq_ok h
      cases herror
  · obtain ⟨_, herror, -⟩ := exists_of_bind_eq_ok h
    cases herror

/-- The calls of a method are added to its declaration, document by document. -/
theorem Resolve.ascending_of_signaturePlan {p : Program} {rule : Rule} {d : Document} {n : NodeId}
    {indices : List Nat} {cancelled : Bool} {plan : Plan}
    (h : signaturePlan p rule d n indices cancelled = .ok plan) : plan.sites.Ascending := by
  obtain ⟨m, names, references, sites, -, -, -, -, hsites, rfl⟩ := exists_of_signaturePlan h
  refine invariant_of_foldlM (P := ByDocument.Ascending) (fun r _ sites sites' hs hstep => ?_)
    (List.pairwise_singleton _ _) hsites
  obtain ⟨there, -, hstep⟩ := exists_of_bind_eq_ok hstep
  split at hstep
  · cases hstep
    exact hs.append
  · cases hstep
    exact hs

/-- A plan is one for a signature, for the method and the parameters that the anchor of the finding
stands for, or one for a single node. -/
theorem Plan.cases_of_resolve {p : Program} {f : Finding} {cancelled : Bool} {plan : Plan}
    (h : Plan.resolve p f cancelled = .ok plan) : ∃ d, p.solution.document f.document = .ok d ∧
      ((∃ n i, Anchor.parameter? d.tree f.span = some (n, i) ∧
          (f.rule = .unneededRef ∨ f.rule = .refAsOut ∨ f.rule = .outAsResult) ∧
          Resolve.signaturePlan p f.rule d n [i] cancelled = .ok plan) ∨
        (∃ v, Anchor.method? d.tree f.span = some v ∧ f.rule = .outsAsTuple ∧
          Resolve.signaturePlan p f.rule d v.node
            (Resolve.outIndices d.tree (v.parameters d.tree)) cancelled = .ok plan) ∨
        ∃ n, (f.rule = .duplicateCall ∧ Anchor.branching? d.tree f.span = some n ∨
            f.rule = .redundantConversion ∧ Anchor.invocation? d.tree f.span = some n) ∧
          plan = Resolve.singlePlan f d.tree n) := by
  obtain ⟨d, hd, hrest⟩ := exists_of_bind_eq_ok h
  refine ⟨d, hd, ?_⟩
  have hparameter : (f.rule = .unneededRef ∨ f.rule = .refAsOut ∨ f.rule = .outAsResult) →
      ∃ n i, Anchor.parameter? d.tree f.span = some (n, i) ∧
        Resolve.signaturePlan p f.rule d n [i] cancelled = .ok plan := by
    intro hrule
    cases hanchor : Anchor.parameter? d.tree f.span with
    | none => rcases hrule with hr | hr | hr <;> simp [hr, hanchor] at hrest
    | some found =>
      refine ⟨found.1, found.2, rfl, ?_⟩
      rcases hrule with hr | hr | hr <;> simpa [hr, hanchor] using hrest
  cases hr : f.rule with
  | unneededRef =>
    obtain ⟨n, i, hanchor, hplan⟩ := hparameter (.inl hr)
    exact .inl ⟨n, i, hanchor, .inl rfl, hr ▸ hplan⟩
  | refAsOut =>
    obtain ⟨n, i, hanchor, hplan⟩ := hparameter (.inr (.inl hr))
    exact .inl ⟨n, i, hanchor, .inr (.inl rfl), hr ▸ hplan⟩
  | outAsResult =>
    obtain ⟨n, i, hanchor, hplan⟩ := hparameter (.inr (.inr hr))
    exact .inl ⟨n, i, hanchor, .inr (.inr rfl), hr ▸ hplan⟩
  | outsAsTuple =>
    simp only [hr] at hrest
    split at hrest
    · rename_i v hanchor
      split at hrest
      · cases hrest
      · exact .inr (.inl ⟨v, hanchor, rfl, hrest⟩)
    · cases hrest
  | duplicateCall =>
    simp only [hr] at hrest
    split at hrest
    · rename_i n hanchor
      cases hrest
      exact .inr (.inr ⟨n, .inl ⟨rfl, hanchor⟩, rfl⟩)
    · cases hrest
  | redundantConversion =>
    simp only [hr] at hrest
    split at hrest
    · rename_i n hanchor
      cases hrest
      exact .inr (.inr ⟨n, .inr ⟨rfl, hanchor⟩, rfl⟩)
    · cases hrest

/-- **A plan names every document once.** -/
theorem Plan.ascending_of_resolve {p : Program} {f : Finding} {cancelled : Bool} {plan : Plan}
    (h : Plan.resolve p f cancelled = .ok plan) : plan.sites.Ascending := by
  obtain ⟨d, -, hplan⟩ := Plan.cases_of_resolve h
  rcases hplan with ⟨n, i, -, -, hplan⟩ | ⟨v, -, -, hplan⟩ | ⟨n, -, rfl⟩
  · exact Resolve.ascending_of_signaturePlan hplan
  · exact Resolve.ascending_of_signaturePlan hplan
  · exact List.pairwise_singleton _ _

/-- **The fix of a finding changes every document at most once.** -/
theorem Finding.sound_of_runFix {p : Program} {f : Finding} {cancelled : Bool} {o : PlanOutcome}
    (h : f.runFix p cancelled = .ok o) : o.Sound p.solution := by
  obtain ⟨plan, hplan, hexecute⟩ := exists_of_bind_eq_ok h
  exact Plan.sound_of_execute (Plan.ascending_of_resolve hplan) hexecute

end CodeMend
