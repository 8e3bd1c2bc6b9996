import CodeMend.Check.Run
import CodeMend.Plan.Resolve
import CodeMend.Proofs.Binding.Typing
import CodeMend.Proofs.Fix.Execution
import CodeMend.Proofs.Model.Index
import CodeMend.Proofs.Plan.Anchors

/-!
# CodeMend — findings are resolved

The checks ask the index for the symbol of a method, and the plan of a fix finds the node of a
finding again by its anchor.  Neither fails for the program that was checked: what is reported
either has a plan, or some call of the method could not be bound.  Only a method that stands outside
of every type is no method of the index.

* **`Solution.Parsed`** — the documents of a solution are parsed, each under a number of its own.
* **`Check.exists_ok`** — the checks succeed where every method stands in a type.
* **`Resolve.signaturePlan_cases`** — a plan for a method of the index fails at an unbound call
  only.
* **`findings_are_resolved`** — the checks succeed, and what they report is resolved.
* **`method_outside_types_stops_checks`** — a method outside of a type stops them.
-/

namespace CodeMend

open Tree

/-! ## Documents

A solution that is made from files has a parsed document for each of them, and they are numbered in
order. -/

namespace Solution

/-- The documents are parsed, each under a number of its own. -/
structure Parsed (s : Solution) : Prop where
  nodup : (s.documents.map Document.id).Nodup
  parses : ∀ d ∈ s.documents, ∃ source, parse source = .ok d.tree

theorem parses_of_parseAll {id : DocumentId} {sources : List (String × String)}
    {ds : List Document} (h : parseAll id sources = .ok ds) :
    ds.map Document.id = List.range' id ds.length ∧
      ∀ d ∈ ds, ∃ source, parse source = .ok d.tree := by
  induction sources generalizing id ds with
  | nil =>
    cases h
    exact ⟨rfl, by simp⟩
  | cons file rest ih =>
    obtain ⟨d, hd, h⟩ := exists_of_bind_eq_ok h
    obtain ⟨ds', hds', h⟩ := exists_of_bind_eq_ok h
    cases h
    obtain ⟨hids, hparses⟩ := ih hds'
    unfold Document.parse at hd
    split at hd
    next tree htree =>
      cases hd
      refine ⟨?_, List.forall_mem_cons.mpr ⟨⟨file.2, htree⟩, hparses⟩⟩
      rw [List.map_cons, hids, List.length_cons, List.range'_succ]
    next => cases hd

/-- **The documents of some sources are parsed.** -/
theorem parsed_of_ofSources {sources : List (String × String)} {s : Solution}
    (h : ofSources sources = .ok s) : s.Parsed := by
  obtain ⟨ds, hds, h⟩ := exists_of_bind_eq_ok h
  cases h
  obtain ⟨hids, hparses⟩ := parses_of_parseAll hds
  refine ⟨?_, hparses⟩
  rw [hids]
  exact List.nodup_range'

/-- The solution of one file, read from the characters of its text.  A text that is written out has
its characters at hand, and a run on it need not decode them. -/
theorem toOption_ofSources {path source : String} {cs : List Char} (hcs : source.toList = cs) :
    (ofSources [(path, source)]).toOption =
      (Lexer.tokensFrom 0 true cs).toOption.bind fun tokens =>
        (parseTokens tokens.toArray).toOption.map fun parsed =>
          ⟨[⟨0, path, parsed.2.builder.finish source tokens.toArray⟩], []⟩ := by
  simp only [ofSources, parseAll, Document.parse, parse, tokenize, hcs]
  cases Lexer.tokensFrom 0 true cs with
  | error e => rfl
  | ok tokens =>
    simp only [Except.toOption, Option.bind_some]
    cases parseTokens tokens.toArray <;> rfl

/-- **The documents of some files are parsed**, whichever of them parse. -/
theorem parsed_ofFiles (files : List (String × String)) : (ofFiles files).Parsed := by
  have hall : ∀ s : Solution, s.documents.map Document.id = List.range s.documents.length →
      (∀ d ∈ s.documents, ∃ source, parse source = .ok d.tree) → (files.foldl addFile s).Parsed := by
    induction files with
    | nil => exact fun s hids hparses => ⟨hids ▸ List.nodup_range, hparses⟩
    | cons file files ih =>
      intro s hids hparses
      rw [List.foldl_cons]
      unfold addFile
      split
      next tree htree =>
        refine ih _ ?_ ?_
        · rw [List.map_append, hids, List.length_append, List.length_singleton, List.range_succ]
          rfl
        · intro d hd
          rcases List.mem_append.mp hd with hd | hd
          · exact hparses d hd
          · obtain rfl := List.mem_singleton.mp hd
            exact ⟨file.2, htree⟩
      next => exact ih _ hids hparses
  exact hall ⟨[], []⟩ rfl (by simp)

/-- A document is found under its number. -/
theorem Parsed.document_eq {s : Solution} (h : s.Parsed) {d : Document} (hd : d ∈ s.documents) :
    s.document d.id = .ok d := by
  have hfound : s.document? d.id = some d := by
    obtain ⟨e, he⟩ : ∃ e, s.document? d.id = some e :=
      Option.isSome_iff_exists.mp (List.find?_isSome.mpr ⟨d, hd, beq_self_eq_true _⟩)
    have hmem := List.mem_of_find?_eq_some he
    rw [he, List.inj_on_of_nodup_map h.nodup hmem hd (id_of_document? he)]
  rw [document, hfound]

end Solution

/-! ## References

References are looked for in all documents of the solution, and all that can go wrong on the way is
a type that no search tells. -/

namespace References

variable {p : Program} {m : MethodSymbol} {d : Document}

theorem document_of_ofInvocation? {b : Binder} {n : NodeId} {r : MethodReference}
    (h : ofInvocation? b m n = .ok (some r)) : r.document = b.document.id := by
  simp only [ofInvocation?] at h
  split at h
  next => cases h
  next =>
    split at h
    · cases h
    · obtain ⟨id?, -, h⟩ := exists_of_bind_eq_ok h
      obtain ⟨role, -, rfl⟩ := Option.map_eq_some_iff.mp (Except.ok.inj h)
      rfl

theorem document_of_ofName? {b : Binder} {n : NodeId} {r : MethodReference}
    (h : ofName? b m n = .ok (some r)) : r.document = b.document.id := by
  simp only [ofName?] at h
  split at h
  · cases h
  split at h
  next => cases h
  next =>
    obtain ⟨symbol?, -, h⟩ := exists_of_bind_eq_ok h
    have h := Except.ok.inj h
    split at h
    · cases h
      rfl
    · cases h

theorem document_of_mem_ofLiteral {b : Binder} {n : NodeId} {r : MethodReference}
    (h : r ∈ ofLiteral b m n) : r.document = b.document.id := by
  simp only [ofLiteral] at h
  split at h
  · cases h
  · split at h
    · cases h
    · obtain ⟨hole, -, rfl⟩ := List.mem_map.mp h
      rfl

theorem document_of_mem_ofNode {b : Binder} {n : NodeId} {rs : List MethodReference}
    {r : MethodReference} (h : ofNode b m n = .ok rs) (hr : r ∈ rs) :
    r.document = b.document.id := by
  unfold ofNode at h
  split at h
  next =>
    obtain ⟨r?, hfound, h⟩ := exists_of_bind_eq_ok h
    cases h
    obtain rfl := Option.mem_toList.mp hr
    exact document_of_ofInvocation? hfound
  next =>
    obtain ⟨r?, hfound, h⟩ := exists_of_bind_eq_ok h
    cases h
    obtain rfl := Option.mem_toList.mp hr
    exact document_of_ofName? hfound
  next =>
    obtain ⟨r?, hfound, h⟩ := exists_of_bind_eq_ok h
    cases h
    obtain rfl := Option.mem_toList.mp hr
    exact document_of_ofName? hfound
  next =>
    cases h
    exact document_of_mem_ofLiteral hr
  next =>
    cases h
    cases hr

theorem document_of_mem_inDocument {rs : List MethodReference} {r : MethodReference}
    (h : inDocument p m d = .ok rs) (hr : r ∈ rs) : r.document = d.id := by
  unfold inDocument at h
  split at h
  · obtain ⟨found, hfound, h⟩ := exists_of_bind_eq_ok h
    cases h
    rw [mem_sortStable] at hr
    obtain ⟨ns, hns, hr⟩ := List.mem_flatten.mp hr
    obtain ⟨n, -, hn⟩ := exists_of_forall₂_right (forall₂_of_mapM hfound) hns
    exact document_of_mem_ofNode hn hr
  · cases h
    cases hr

/-- What holds of all types and is kept by asking questions holds of a search for references. -/
theorem inDocuments_keeps {P : {α : Type} → Analysis α → Prop} (hP : Binder.Closed P)
    (m : MethodSymbol) {ds : List Document}
    (htypes : ∀ d ∈ ds, ∀ n, P ((Binder.ofDocument p d).typeOf n)) :
    P (inDocuments p m false ds) := by
  -- From one name and one call to a node, to a document, and then to all documents.
  have hname : ∀ d ∈ ds, ∀ n, P (ofName? (.ofDocument p d) m n) := by
    intro d hd n
    simp only [ofName?]
    split
    · exact hP.pure none
    split
    next => exact hP.pure none
    next e _ =>
      exact hP.bind (Binder.referencedSymbol?_keeps hP (htypes d hd) e) fun _ => hP.pure _
  have hinvocation : ∀ d ∈ ds, ∀ n, P (ofInvocation? (.ofDocument p d) m n) := by
    intro d hd n
    simp only [ofInvocation?]
    split
    next => exact hP.pure none
    next =>
      split
      · exact hP.pure none
      · exact hP.bind (Binder.resolveInvocation?_keeps hP (htypes d hd) n) fun _ => hP.pure _
  have hnode : ∀ d ∈ ds, ∀ n, P (ofNode (.ofDocument p d) m n) := by
    intro d hd n
    unfold ofNode
    split
    next => exact hP.bind (hinvocation d hd n) fun _ => hP.pure _
    next => exact hP.bind (hname d hd n) fun _ => hP.pure _
    next => exact hP.bind (hname d hd n) fun _ => hP.pure _
    all_goals exact hP.pure _
  have hdocument : ∀ d ∈ ds, P (inDocument p m d) := by
    intro d hd
    unfold inDocument
    split
    · have hnodes := hP.sequential.mapM (g := ofNode (.ofDocument p d) m)
        fun n (_ : n ∈ d.tree.descendants root) => hnode d hd n
      exact hP.bind hnodes fun _ => hP.pure _
    · exact hP.pure []
  clear htypes hname hinvocation hnode
  induction ds with
  | nil => exact hP.pure []
  | cons d ds ih =>
    obtain ⟨hd, hds⟩ := List.forall_mem_cons.mp hdocument
    exact hP.bind hd fun found => hP.bind (ih hds) fun rest => hP.pure (found ++ rest)

theorem exists_document_of_mem {m : MethodSymbol} {cancelled : Bool} {ds : List Document}
    {rs : List MethodReference} (h : inDocuments p m cancelled ds = .ok rs)
    {r : MethodReference} (hr : r ∈ rs) : ∃ d ∈ ds, r.document = d.id := by
  induction ds generalizing rs with
  | nil =>
    cases h
    cases hr
  | cons d ds ih =>
    unfold inDocuments at h
    split at h
    · cases h
    obtain ⟨found, hfound, h⟩ := exists_of_bind_eq_ok h
    obtain ⟨rest, hrest, h⟩ := exists_of_bind_eq_ok h
    obtain rfl := Except.ok.inj h
    rcases List.mem_append.mp hr with hr | hr
    · exact ⟨d, List.mem_cons_self, document_of_mem_inDocument hfound hr⟩
    · obtain ⟨e, he, hid⟩ := ih hrest hr
      exact ⟨e, List.mem_cons_of_mem _ he, hid⟩

/-- **A search that is not cancelled finds all references** where the searches for types end. -/
theorem exists_inDocuments (m : MethodSymbol) {ds : List Document}
    (htyped : ∀ d ∈ ds, d.Typed p) : ∃ rs, inDocuments p m false ds = .ok rs :=
  inDocuments_keeps Binder.closed_ok m htyped

end References

/-! ## Plans

A plan for a method is its declaration and the calls that were found.  It fails when some call has
the name of the method and could not be bound, and for no other reason. -/

namespace Resolve

variable {s : Solution} {d : Document} {n : NodeId} {m : MethodSymbol}

/-- Some call may be one of the method, and this is all that can be wrong. -/
theorem ensureComplete_cases (hs : s.Parsed) (name : String) {references : List MethodReference}
    (hdocuments : ∀ r ∈ references, ∃ d ∈ s.documents, r.document = d.id) :
    ensureComplete s name references = .ok () ∨
      ∃ path reason, ensureComplete s name references =
        .error (.unboundCallSite name path reason) := by
  unfold ensureComplete
  split
  next r hr =>
    obtain ⟨d, hd, hid⟩ := hdocuments r (List.mem_of_find?_eq_some hr)
    rw [hid, hs.document_eq hd]
    exact .inr ⟨_, _, rfl⟩
  next =>
    split
    next => exact .inr ⟨_, _, rfl⟩
    next => exact .inl rfl

/-- Calls in documents of the solution are added to the sites of a plan. -/
theorem exists_addCalls (hs : s.Parsed) {p : Program} (hp : p.solution = s) (rule : Rule)
    (parameters : List (Nat × String)) {references : List MethodReference}
    (hdocuments : ∀ r ∈ references, ∃ d ∈ s.documents, r.document = d.id)
    (sites : ByDocument Site) :
    ∃ sites', references.foldlM (addCall p rule parameters) sites = .ok sites' := by
  induction references generalizing sites with
  | nil => exact ⟨sites, rfl⟩
  | cons r rest ih =>
    obtain ⟨⟨d, hd, hid⟩, hrest⟩ := List.forall_mem_cons.mp hdocuments
    obtain ⟨sites', hsites'⟩ : ∃ sites', addCall p rule parameters sites r = .ok sites' := by
      unfold addCall
      rw [hp, hid, hs.document_eq hd]
      simp only [bind, Except.bind]
      split
      · exact ⟨_, rfl⟩
      · exact ⟨_, rfl⟩
    obtain ⟨sites'', hsites''⟩ := ih hrest sites'
    exact ⟨sites'', by rw [List.foldlM_cons, hsites']; exact hsites''⟩

/-- **A plan for a method of the index fails at an unbound call only**, where the searches for types
end. -/
theorem signaturePlan_cases (hs : s.Parsed)
    (htyped : ∀ d ∈ s.documents, d.Typed (.ofSolution s)) (rule : Rule)
    (hm : (Program.ofSolution s).declaredMethod? d.id n = some m)
    (hid : (Program.ofSolution s).method? m.id = some m) {indices : List Nat}
    (hindices : ∀ i ∈ indices, i < m.parameters.length) :
    (∃ plan, signaturePlan (.ofSolution s) rule d n indices false = .ok plan) ∨
      ∃ path reason, signaturePlan (.ofSolution s) rule d n indices false =
        .error (.unboundCallSite m.name path reason) := by
  have hsolution := Program.solution_ofSolution s
  obtain ⟨names, hnames⟩ : ∃ names,
      (indices.mapM fun i => m.parameters[i]?.map ParameterSymbol.name) = some names := by
    clear hm hid
    induction indices with
    | nil => exact ⟨[], rfl⟩
    | cons i rest ih =>
      obtain ⟨hi, hrest⟩ := List.forall_mem_cons.mp hindices
      obtain ⟨names, hnames⟩ := ih hrest
      exact ⟨m.parameters[i].name :: names, by simp [List.mapM_cons, hnames, hi]⟩
  obtain ⟨references, hreferences⟩ := References.exists_inDocuments m htyped
  have hdocuments : ∀ r ∈ references, ∃ d ∈ s.documents, r.document = d.id := fun r hr =>
    References.exists_document_of_mem hreferences hr
  have hfound : (Program.ofSolution s).findReferences m.id false = .ok references := by
    rw [Program.findReferences, hid, hsolution]
    exact hreferences
  -- With all of that found, a plan fails at an incomplete site or at none.
  have hplan : signaturePlan (.ofSolution s) rule d n indices false = (do
      ensureComplete s m.name references
      let sites ← references.foldlM (addCall (.ofSolution s) rule (indices.zip names))
        [(d.id, [Site.ofNode d.tree n .declaration])]
      return ⟨rule, some m.id, indices, sites⟩) := by
    simp only [signaturePlan, hm, hnames, hfound, hsolution, ok_bind]
    unfold addCall
    rewrite [hsolution]
    rfl
  obtain ⟨sites, hsites⟩ := exists_addCalls hs hsolution rule (indices.zip names) hdocuments
    [(d.id, [Site.ofNode d.tree n .declaration])]
  rcases ensureComplete_cases hs m.name hdocuments with hcomplete | ⟨path, reason, hcomplete⟩
  · refine .inl ⟨⟨rule, some m.id, indices, sites⟩, ?_⟩
    rw [hplan, hcomplete, hsites]
    rfl
  · refine .inr ⟨path, reason, ?_⟩
    rw [hplan, hcomplete]
    rfl

end Resolve

/-! ## What the checks report

Every check looks at a node and asks the index about its method.  The index knows the methods of
types, which is why a method outside of all types is an error and not a negative answer. -/

/-- Every method of the document stands in the declaration of a type. -/
def Document.MethodsInTypes (d : Document) : Prop :=
  ∀ n ∈ d.tree.descendants root, d.tree.kind n = .methodDeclaration →
    (d.tree.parent? n).any (fun p => (d.tree.kind p).isTypeDeclaration) = true

instance (d : Document) : Decidable d.MethodsInTypes :=
  inferInstanceAs (Decidable (∀ n ∈ d.tree.descendants root,
    d.tree.kind n = .methodDeclaration →
      (d.tree.parent? n).any (fun p => (d.tree.kind p).isTypeDeclaration) = true))

namespace Check

variable {s : Solution} {d : Document} {n : NodeId} {source : String}

/-- A method that stands in a type has a symbol. -/
theorem exists_declaredMethod (h : parse source = .ok d.tree) (hd : d ∈ s.documents)
    (hin : d.MethodsInTypes) {v : MethodView} (hv : MethodView.ofNode? d.tree n = some v) :
    ∃ m, declaredMethod (.ofDocument (.ofSolution s) d) n = .ok m := by
  have hk := (MethodView.mem_childNodes hv).2.1
  have hmem := mem_descendants_root h (n := n) (by rw [hk]; decide)
  obtain ⟨p, hp, htype⟩ := (Option.any_eq_true _ _).mp (hin n hmem hk)
  have hchild := (parsed_of_parse h).wellFormed.mem_childNodes_of_parent? hp
  obtain ⟨m, hm⟩ :=
    Program.exists_declaredMethod? (Program.hasMethod_ofSolution hd h htype hchild hv)
  refine ⟨m, ?_⟩
  have hm' : (Binder.ofDocument (.ofSolution s) d).program.declaredMethod?
      (Binder.ofDocument (.ofSolution s) d).document.id n = some m := hm
  rw [declaredMethod, hm']

theorem declaredMethod?_of_declaredMethod {b : Binder} {m : MethodSymbol}
    (h : declaredMethod b n = .ok m) : b.program.declaredMethod? b.document.id n = some m := by
  unfold declaredMethod at h
  split at h
  next found hfound =>
    cases h
    exact hfound
  next => cases h

/-- The method whose parameter may be changed. -/
theorem method_of_changeableMethod? {t : Tree} {method : MethodView} {body : NodeId}
    (h : changeableMethod? t n = some (method, body)) :
    ∃ list, t.parent? n = some list ∧ t.parent? list = some method.node ∧
      MethodView.ofNode? t method.node = some method := by
  simp only [changeableMethod?, Option.bind_eq_bind, Option.bind_eq_some_iff, Option.pure_def] at h
  obtain ⟨list, hlist, node, hnode, v, hv, body', -, h⟩ := h
  split at h
  · cases h
  · cases h
    have hsame := (MethodView.mem_childNodes hv).1
    exact ⟨list, hlist, hsame ▸ hnode, hsame.symm ▸ hv⟩

/-- What is reported about a parameter. -/
theorem cases_of_refParameter {b : Binder} {f : Finding}
    (h : refParameter b n = .ok (some f)) :
    ∃ v method body modifier m, ParameterView.ofNode? b.tree n = some v ∧
      changeableMethod? b.tree n = some (method, body) ∧ v.modifiers = [modifier] ∧
      (b.tree.token modifier).text = "ref" ∧ declaredMethod b method.node = .ok m ∧
      f.document = b.document.id ∧ f.span = (b.tree.token modifier).span ∧
      (f.rule = .unneededRef ∨ f.rule = .refAsOut) := by
  simp only [refParameter] at h
  split at h
  next v method body hv hmethod =>
    split at h
    next modifier hmodifiers =>
      split at h
      · cases h
      next htext =>
        obtain ⟨m, hm, h⟩ := exists_of_bind_eq_ok h
        split at h
        · cases h
        · have h := Except.ok.inj h
          simp only [Option.bind_eq_bind, Option.bind_eq_some_iff, Option.pure_def,
            Option.some.injEq] at h
          obtain ⟨flow, -, rule, hrule, rfl⟩ := h
          refine ⟨v, method, body, modifier, m, hv, hmethod, hmodifiers, by simpa using htext, hm,
            rfl, rfl, ?_⟩
          unfold refRule? at hrule
          split at hrule
          · exact .inl (Option.some.inj hrule).symm
          · split at hrule
            · exact .inr (Option.some.inj hrule).symm
            · cases hrule
    next => cases h
  next => cases h

/-- The parameter that is reported stands in the list of its method, and the method has a symbol. -/
theorem place_of_refParameter (h : parse source = .ok d.tree) {p : Program} {f : Finding}
    (hf : refParameter (.ofDocument p d) n = .ok (some f)) :
    ∃ w v modifier m, ParameterView.ofNode? d.tree n = some w ∧ w.modifiers = [modifier] ∧
      (d.tree.token modifier).text = "ref" ∧ MethodView.ofNode? d.tree v.node = some v ∧
      n ∈ d.tree.childNodes v.parameterList ∧ p.declaredMethod? d.id v.node = some m ∧
      f.document = d.id ∧ f.span = (d.tree.token modifier).span ∧
      (f.rule = .unneededRef ∨ f.rule = .refAsOut) := by
  have hp := parsed_of_parse h
  obtain ⟨w, v, body, i, m, hw, hmethod, hi, htext, hm, hdocument, hspan, hrule⟩ :=
    cases_of_refParameter hf
  obtain ⟨list, hlist, hmethodNode, hv⟩ := method_of_changeableMethod? hmethod
  have hc := hp.wellFormed.mem_childNodes_of_parent? hlist
  have hl := hp.wellFormed.mem_childNodes_of_parent? hmethodNode
  have hkind := hp.kind_of_parameter_child (MethodView.mem_childNodes hv).2.1 hl hc
    (ParameterView.kind_of_ofNode? hw)
  refine ⟨w, v, i, m, hw, hi, htext, hv, ?_, declaredMethod?_of_declaredMethod hm, hdocument,
    hspan, hrule⟩
  rwa [MethodView.eq_parameterList hp hv hl hkind] at hc

/-- What is reported about a method. -/
theorem cases_of_outParameters {b : Binder} {f : Finding}
    (h : outParameters b n = .ok (some f)) :
    ∃ v m, MethodView.ofNode? b.tree n = some v ∧ declaredMethod b n = .ok m ∧
      f.document = b.document.id ∧
      ((∃ w ∈ outParameterViews b.tree (v.parameters b.tree), ∃ modifier ∈ w.modifiers,
          f.rule = .outAsResult ∧ f.span = (b.tree.token modifier).span) ∨
        (outParameterViews b.tree (v.parameters b.tree) ≠ [] ∧ f.rule = .outsAsTuple ∧
          f.span = b.tree.span v.returnType)) := by
  simp only [outParameters] at h
  split at h
  next => cases h
  next v hv =>
    split at h
    · cases h
    next hguard =>
      obtain ⟨m, hm, h⟩ := exists_of_bind_eq_ok h
      split at h
      · cases h
      split at h
      next single hsingle =>
        have h := Except.ok.inj h
        simp only [Option.map_eq_some_iff] at h
        obtain ⟨modifier, hmodifier, rfl⟩ := h
        exact ⟨v, m, hv, hm, rfl, .inl ⟨single, by simp [hsingle], modifier,
          List.mem_of_head? hmodifier, rfl, rfl⟩⟩
      next =>
        cases h
        refine ⟨v, m, hv, hm, rfl, .inr ⟨?_, rfl, rfl⟩⟩
        rintro hnil
        simp [hnil] at hguard

/-- What is reported about a node is what one of the checks reports, for a rule that is asked
for. -/
theorem cases_of_node {b : Binder} {rules : RuleSet} {f : Finding}
    (h : node b rules n = .ok (some f)) : rules.contains f.rule = true ∧
      (refParameter b n = .ok (some f) ∨ outParameters b n = .ok (some f) ∨
        conversion? b n = .ok (some f) ∨ duplicateCall? b n = .ok (some f)) := by
  have hfilter : ∀ {found : Option Finding},
      (.ok (found.filter fun f => rules.contains f.rule) : Analysis _) = .ok (some f) →
        rules.contains f.rule = true ∧ found = some f := by
    intro found hfound
    exact (Option.filter_eq_some_iff.mp (Except.ok.inj hfound)).symm
  obtain ⟨found, hfound, h⟩ := exists_of_bind_eq_ok h
  obtain ⟨rfl, hrule⟩ := Option.filter_eq_some_iff.mp (Except.ok.inj h)
  have hchecked : ∀ {p : Bool} {check : Analysis (Option Finding)},
      (if p then check else .ok none) = .ok (some f) → check = .ok (some f) := by
    intro p check h
    split at h
    · exact h
    · cases h
  refine ⟨hrule, ?_⟩
  unfold nodeCheck at hfound
  split at hfound
  · exact .inl (hchecked hfound)
  · exact .inr (.inl (hchecked hfound))
  · exact .inr (.inr (.inl (hchecked hfound)))
  · exact .inr (.inr (.inr (hchecked hfound)))
  · exact .inr (.inr (.inr (hchecked hfound)))
  · cases hfound

/-- What is reported about a call. -/
theorem cases_of_conversion? {b : Binder} {f : Finding} (h : conversion? b n = .ok (some f)) :
    ∃ v, InvocationView.ofNode? b.tree n = some v ∧ f.document = b.document.id ∧
      f.rule = .redundantConversion ∧ f.span = b.tree.span v.callee := by
  unfold conversion? at h
  split at h
  next => cases h
  next v hv =>
    split at h
    · cases h
    obtain ⟨m?, -, h⟩ := exists_of_bind_eq_ok h
    split at h
    next m a _ =>
      obtain ⟨T, -, h⟩ := exists_of_bind_eq_ok h
      have hfinding : conversionFinding? b v m T = some f := Except.ok.inj h
      unfold conversionFinding? at hfinding
      split at hfinding
      · cases hfinding
      · obtain rfl := Option.some.inj hfinding
        exact ⟨v, hv, rfl, rfl, rfl⟩
    next => cases h

/-- What is reported about a choice between two calls. -/
theorem cases_of_duplicateCall? {b : Binder} {f : Finding}
    (h : duplicateCall? b n = .ok (some f)) :
    ∃ anchor calls, branching? b.tree n = some (anchor, calls) ∧ f.document = b.document.id ∧
      f.rule = .duplicateCall ∧ f.span = (b.tree.token anchor).span := by
  simp only [duplicateCall?] at h
  split at h
  next => cases h
  next anchor whenTrue whenFalse hcalls =>
    obtain ⟨comparisons?, -, h⟩ := exists_of_bind_eq_ok h
    split at h
    · cases h
    · obtain ⟨id?, -, h⟩ := exists_of_bind_eq_ok h
      obtain ⟨m, -, rfl⟩ := Option.map_eq_some_iff.mp (Except.ok.inj h)
      exact ⟨anchor, _, hcalls, rfl, rfl, rfl⟩

theorem exists_refParameter (h : parse source = .ok d.tree) (hd : d ∈ s.documents)
    (hin : d.MethodsInTypes) (n : NodeId) :
    ∃ found, refParameter (.ofDocument (.ofSolution s) d) n = .ok found := by
  simp only [refParameter]
  split
  next v method body hv hmethod =>
    split
    next =>
      split
      · exact ⟨_, rfl⟩
      · obtain ⟨-, -, -, hview⟩ := method_of_changeableMethod? hmethod
        obtain ⟨m, hm⟩ := exists_declaredMethod h hd hin hview
        rw [hm, ok_bind]
        split <;> exact ⟨_, rfl⟩
    next => exact ⟨_, rfl⟩
  next => exact ⟨_, rfl⟩

theorem exists_outParameters (h : parse source = .ok d.tree) (hd : d ∈ s.documents)
    (hin : d.MethodsInTypes) (n : NodeId) :
    ∃ found, outParameters (.ofDocument (.ofSolution s) d) n = .ok found := by
  simp only [outParameters]
  split
  next => exact ⟨_, rfl⟩
  next v hv =>
    split
    · exact ⟨_, rfl⟩
    · obtain ⟨m, hm⟩ := exists_declaredMethod h hd hin hv
      rw [hm, ok_bind]
      split
      · exact ⟨_, rfl⟩
      · split <;> exact ⟨_, rfl⟩

theorem exists_conversion? {p : Program} (htyped : d.Typed p) (n : NodeId) :
    ∃ found, conversion? (.ofDocument p d) n = .ok found := by
  unfold conversion?
  split
  next => exact ⟨_, rfl⟩
  next v hv =>
    split
    · exact ⟨_, rfl⟩
    obtain ⟨id?, hid⟩ := Binder.resolveInvocation?_keeps Binder.closed_ok htyped n
    simp only [calledConversion?, hid, ok_bind, pure_bind]
    split
    next a _ _ =>
      obtain ⟨T, hT⟩ := htyped a.expression
      exact ⟨_, by rw [hT]; rfl⟩
    next => exact ⟨_, rfl⟩

theorem exists_matchCalls? {p : Program} (htyped : d.Typed p) (whenTrue whenFalse : NodeId) :
    ∃ found, matchCalls? (.ofDocument p d) whenTrue whenFalse = .ok found := by
  obtain ⟨id?, hid⟩ := Binder.resolveInvocation?_keeps Binder.closed_ok htyped whenTrue
  obtain ⟨id'?, hid'⟩ := Binder.resolveInvocation?_keeps Binder.closed_ok htyped whenFalse
  simp only [matchCalls?, hid, hid', ok_bind]
  split
  next =>
    split
    · exact ⟨_, rfl⟩
    · cases id? <;> exact ⟨_, rfl⟩
  next => exact ⟨_, rfl⟩

theorem exists_duplicateCall? {p : Program} (htyped : d.Typed p) (n : NodeId) :
    ∃ found, duplicateCall? (.ofDocument p d) n = .ok found := by
  simp only [duplicateCall?]
  split
  next => exact ⟨_, rfl⟩
  next anchor whenTrue whenFalse _ =>
    obtain ⟨comparisons?, hcomparisons⟩ := exists_matchCalls? htyped whenTrue whenFalse
    obtain ⟨id?, hid⟩ := Binder.resolveInvocation?_keeps Binder.closed_ok htyped whenTrue
    simp only [hcomparisons, hid, ok_bind]
    split <;> exact ⟨_, rfl⟩

/-- Every node of a document is checked if its methods stand in types and the searches for types
end. -/
theorem exists_node (h : parse source = .ok d.tree) (hd : d ∈ s.documents)
    (hin : d.MethodsInTypes) (htyped : d.Typed (.ofSolution s)) (rules : RuleSet) (n : NodeId) :
    ∃ found, node (.ofDocument (.ofSolution s) d) rules n = .ok found := by
  have hchecked : ∀ {p : Bool} {check : Analysis (Option Finding)}, (∃ found, check = .ok found) →
      ∃ found, (if p then check else .ok none) = .ok found := by
    rintro p check hcheck
    cases p with
    | true => exact hcheck
    | false => exact ⟨none, rfl⟩
  have hfound : ∃ found, nodeCheck (.ofDocument (.ofSolution s) d) rules n = .ok found := by
    unfold nodeCheck
    split
    · exact hchecked (exists_refParameter h hd hin n)
    · exact hchecked (exists_outParameters h hd hin n)
    · exact hchecked (exists_conversion? htyped n)
    · exact hchecked (exists_duplicateCall? htyped n)
    · exact hchecked (exists_duplicateCall? htyped n)
    · exact ⟨none, rfl⟩
  obtain ⟨found, hfound⟩ := hfound
  exact ⟨_, by rw [node, hfound]; rfl⟩

/-- **The checks succeed where every method stands in a type** and the searches for types end. -/
theorem exists_ok (hs : s.Parsed) (hin : ∀ d ∈ s.documents, d.MethodsInTypes)
    (htyped : ∀ d ∈ s.documents, d.Typed (.ofSolution s)) (rules : RuleSet) :
    ∃ fs, solution (.ofSolution s) rules = .ok fs := by
  have hdocument : ∀ d ∈ s.documents, ∃ fs, document (.ofSolution s) d rules = .ok fs := by
    intro d hd
    obtain ⟨source, h⟩ := hs.parses d hd
    have hnodes := exists_mapM_ok fun n (_ : n ∈ d.tree.descendants root) =>
      exists_node h hd (hin d hd) (htyped d hd) rules n
    obtain ⟨found, hfound⟩ := hnodes
    exact ⟨found.filterMap id, by simp only [document]; exact hfound ▸ rfl⟩
  obtain ⟨found, hfound⟩ := exists_mapM_ok hdocument
  refine ⟨sortStable Finding.compare found.flatten, ?_⟩
  simp only [solution, Program.solution_ofSolution, hfound, ok_bind]
  rfl

/-- A finding of a document is reported for a node of it. -/
theorem exists_node_of_document {p : Program} {rules : RuleSet} {fs : List Finding} {f : Finding}
    (h : document p d rules = .ok fs) (hf : f ∈ fs) :
    ∃ n, node (.ofDocument p d) rules n = .ok (some f) := by
  obtain ⟨nodes, hnodes, h⟩ := exists_of_bind_eq_ok h
  cases h
  obtain ⟨x, hx, rfl⟩ := List.mem_filterMap.mp hf
  obtain ⟨n, -, hn⟩ := exists_of_forall₂_right (forall₂_of_mapM hnodes) hx
  exact ⟨n, hn⟩

/-- A finding is reported for a node of a document. -/
theorem exists_node_of_solution {rules : RuleSet} {fs : List Finding} {f : Finding}
    (h : solution (.ofSolution s) rules = .ok fs) (hf : f ∈ fs) :
    ∃ d ∈ s.documents, ∃ n, node (.ofDocument (.ofSolution s) d) rules n = .ok (some f) := by
  obtain ⟨found, hfound, h⟩ := exists_of_bind_eq_ok h
  cases h
  rw [mem_sortStable] at hf
  obtain ⟨fs, hfs, hf⟩ := List.mem_flatten.mp hf
  rw [Program.solution_ofSolution] at hfound
  obtain ⟨d, hd, hdocument⟩ := exists_of_forall₂_right (forall₂_of_mapM hfound) hfs
  exact ⟨d, hd, exists_node_of_document hdocument hf⟩

end Check

/-! ## From what is reported to plans

A fix starts again from the anchor that was reported.  The anchor leads back to the node it was made
for, so that there is a plan for what was reported. -/

/-- The finding has a plan, or some call of its method could not be bound. -/
def Finding.Resolved (p : Program) (f : Finding) : Prop :=
  (∃ plan, Plan.resolve p f false = .ok plan) ∨
    ∃ method path reason, Plan.resolve p f false = .error (.unboundCallSite method path reason)

namespace Finding

variable {s : Solution} {d : Document} {n : NodeId} {f : Finding} {source : String}

/-- The symbol of a method has as many parameters as its list has items. -/
theorem length_parameters (hs : s.Parsed) (h : parse source = .ok d.tree) (hd : d ∈ s.documents)
    {v : MethodView} (hv : MethodView.ofNode? d.tree n = some v) {m : MethodSymbol}
    (hm : (Program.ofSolution s).declaredMethod? d.id n = some m) :
    m.parameters.length = (d.tree.childNodes v.parameterList).length := by
  obtain ⟨-, v', hv', hnames⟩ := Program.declaredMethod?_ofSolution hs.nodup hd hm
  obtain rfl : v = v' := Option.some.inj (hv.symm.trans hv')
  have ht := inOrder_of_parse h
  have hviews : ((v.parameters d.tree).items.filterMap (ParameterView.ofNode? d.tree)).length =
      (d.tree.childNodes v.parameterList).length := by
    refine List.filterMap_length_eq_length.mpr fun c hc => ?_
    have hk := ht.parsed.kind_of_mem_parameters (MethodView.kinds hv).1 c hc
    exact Option.isSome_iff_exists.mpr (ParameterView.exists_ofNode? ht hk)
  have hlength := congrArg List.length hnames
  rwa [List.length_map, List.length_map, hviews] at hlength

/-- A finding whose anchor is a modifier of a parameter. -/
theorem resolved_of_modifier (hs : s.Parsed)
    (htyped : ∀ d ∈ s.documents, d.Typed (.ofSolution s)) (h : parse source = .ok d.tree)
    (hd : d ∈ s.documents) (hdocument : f.document = d.id) {w : ParameterView} {c : NodeId}
    (hw : ParameterView.ofNode? d.tree c = some w) {i : TokenId} (hi : i ∈ w.modifiers)
    (hspan : f.span = (d.tree.token i).span) {v : MethodView} (hv : MethodView.ofNode? d.tree n = some v)
    (hc : c ∈ d.tree.childNodes v.parameterList)
    (hrule : f.rule = .unneededRef ∨ f.rule = .refAsOut ∨ f.rule = .outAsResult)
    {m : MethodSymbol} (hm : (Program.ofSolution s).declaredMethod? d.id n = some m) :
    f.Resolved (.ofSolution s) := by
  obtain ⟨-, hk, -, hlist⟩ := MethodView.mem_childNodes hv
  obtain ⟨index, hat, hanchor⟩ := Anchor.parameter?_of_modifier h hw hi hc hlist hk
  have hindex := (List.getElem?_eq_some_iff.mp hat).1
  rw [← length_parameters hs h hd hv hm] at hindex
  have hplan : Plan.resolve (.ofSolution s) f false =
      Resolve.signaturePlan (.ofSolution s) f.rule d n [index] false := by
    simp only [Plan.resolve, Program.solution_ofSolution, hdocument, hs.document_eq hd, ok_bind]
    rcases hrule with hrule | hrule | hrule <;> simp only [hrule, hspan, hanchor]
  have hid := (Program.declaredMethod?_ofSolution hs.nodup hd hm).1
  rw [Resolved, hplan]
  exact (Resolve.signaturePlan_cases hs htyped f.rule hm hid (by simpa using hindex)).imp_right
    fun ⟨path, reason, hunbound⟩ => ⟨m.name, path, reason, hunbound⟩

/-- A finding whose anchor is the return type of a method that gives out several values. -/
theorem resolved_of_returnType (hs : s.Parsed)
    (htyped : ∀ d ∈ s.documents, d.Typed (.ofSolution s)) (h : parse source = .ok d.tree)
    (hd : d ∈ s.documents) (hdocument : f.document = d.id) {v : MethodView}
    (hv : MethodView.ofNode? d.tree n = some v)
    (houts : Check.outParameterViews d.tree (v.parameters d.tree) ≠ [])
    (hspan : f.span = d.tree.span v.returnType) (hrule : f.rule = .outsAsTuple)
    {m : MethodSymbol} (hm : (Program.ofSolution s).declaredMethod? d.id n = some m) :
    f.Resolved (.ofSolution s) := by
  have hanchor := Anchor.method?_of_returnType h hv
  have hnode := (MethodView.mem_childNodes hv).1
  have hindices : ∀ i ∈ Resolve.outIndices d.tree (v.parameters d.tree),
      i < m.parameters.length := by
    intro i hi
    obtain ⟨⟨c, j⟩, hmem, rfl⟩ := List.mem_map.mp hi
    rw [length_parameters hs h hd hv hm]
    exact List.snd_lt_of_mem_zipIdx (List.mem_filter.mp hmem).1
  have hsome : (Resolve.outIndices d.tree (v.parameters d.tree)).isEmpty = false := by
    obtain ⟨w, hw⟩ := List.exists_mem_of_ne_nil _ houts
    obtain ⟨hw, hout⟩ := List.mem_filter.mp hw
    obtain ⟨c, hc, hview⟩ := List.mem_filterMap.mp hw
    obtain ⟨j, hj⟩ := List.mem_iff_getElem?.mp hc
    rw [List.isEmpty_eq_false_iff_exists_mem]
    refine ⟨j, List.mem_map.mpr ⟨(c, j), List.mem_filter.mpr ⟨?_, by simp [hview, hout]⟩, rfl⟩⟩
    exact List.mk_mem_zipIdx_iff_getElem?.mpr hj
  have hplan : Plan.resolve (.ofSolution s) f false =
      Resolve.signaturePlan (.ofSolution s) f.rule d n
        (Resolve.outIndices d.tree (v.parameters d.tree)) false := by
    simp only [Plan.resolve, Program.solution_ofSolution, hdocument, hs.document_eq hd, ok_bind,
      hrule, hspan, hanchor, hsome, hnode]
    rfl
  have hid := (Program.declaredMethod?_ofSolution hs.nodup hd hm).1
  rw [Resolved, hplan]
  exact (Resolve.signaturePlan_cases hs htyped f.rule hm hid hindices).imp_right
    fun ⟨path, reason, hunbound⟩ => ⟨m.name, path, reason, hunbound⟩

/-- The plan of a finding whose anchor leads to the one node that its fix changes. -/
theorem resolve_of_node (hs : s.Parsed) (hd : d ∈ s.documents) (hdocument : f.document = d.id)
    (hanchor : f.rule = .duplicateCall ∧ Anchor.branching? d.tree f.span = some n ∨
      f.rule = .redundantConversion ∧ Anchor.invocation? d.tree f.span = some n)
    (cancelled : Bool) :
    Plan.resolve (.ofSolution s) f cancelled = .ok (Resolve.singlePlan f d.tree n) := by
  simp only [Plan.resolve, Program.solution_ofSolution, hdocument, hs.document_eq hd, ok_bind]
  rcases hanchor with ⟨hrule, hanchor⟩ | ⟨hrule, hanchor⟩ <;> simp only [hrule, hanchor] <;> rfl

theorem resolved_of_refParameter (hs : s.Parsed)
    (htyped : ∀ d ∈ s.documents, d.Typed (.ofSolution s)) (h : parse source = .ok d.tree)
    (hd : d ∈ s.documents)
    (hf : Check.refParameter (.ofDocument (.ofSolution s) d) n = .ok (some f)) :
    f.Resolved (.ofSolution s) := by
  obtain ⟨w, v, i, m, hw, hi, -, hv, hc, hm, hdocument, hspan, hrule⟩ :=
    Check.place_of_refParameter h hf
  exact resolved_of_modifier hs htyped h hd hdocument hw (hi ▸ List.mem_singleton_self i) hspan hv hc
    (hrule.imp_right .inl) hm

theorem resolved_of_outParameters (hs : s.Parsed)
    (htyped : ∀ d ∈ s.documents, d.Typed (.ofSolution s)) (h : parse source = .ok d.tree)
    (hd : d ∈ s.documents)
    (hf : Check.outParameters (.ofDocument (.ofSolution s) d) n = .ok (some f)) :
    f.Resolved (.ofSolution s) := by
  obtain ⟨v, m, hv, hm, hdocument, hanchor⟩ := Check.cases_of_outParameters hf
  have hm := Check.declaredMethod?_of_declaredMethod hm
  rcases hanchor with ⟨w, hw, i, hi, hrule, hspan⟩ | ⟨houts, hrule, hspan⟩
  · obtain ⟨c, hc, hview⟩ := List.mem_filterMap.mp (List.mem_filter.mp hw).1
    exact resolved_of_modifier hs htyped h hd hdocument hview hi hspan hv hc (.inr (.inr hrule)) hm
  · exact resolved_of_returnType hs htyped h hd hdocument hv houts hspan hrule hm

/-- **What the checks report about a node is resolved.** -/
theorem resolved_of_node_check (hs : s.Parsed)
    (htyped : ∀ d ∈ s.documents, d.Typed (.ofSolution s)) (hd : d ∈ s.documents) {rules : RuleSet}
    (hf : Check.node (.ofDocument (.ofSolution s) d) rules n = .ok (some f)) :
    f.Resolved (.ofSolution s) := by
  obtain ⟨source, h⟩ := hs.parses d hd
  obtain ⟨-, hf | hf | hf | hf⟩ := Check.cases_of_node hf
  · exact resolved_of_refParameter hs htyped h hd hf
  · exact resolved_of_outParameters hs htyped h hd hf
  · obtain ⟨v, hv, hdocument, hrule, hspan⟩ := Check.cases_of_conversion? hf
    refine .inl ⟨_, resolve_of_node (n := n) hs hd hdocument (.inr ⟨hrule, ?_⟩) false⟩
    rw [hspan]
    exact Anchor.invocation?_of_callee h hv
  · obtain ⟨anchor, calls, hbranching, hdocument, hrule, hspan⟩ := Check.cases_of_duplicateCall? hf
    refine .inl ⟨_, resolve_of_node (n := n) hs hd hdocument (.inl ⟨hrule, ?_⟩) false⟩
    rw [hspan]
    exact Anchor.branching?_of_check h hbranching

end Finding

/-- **The checks of a program succeed, and all that they report is resolved**, if its methods stand
in types and the search for the type of every node ends.  For all sources and all sets of rules:
every finding has a plan, or some call of its method could not be bound. -/
theorem findings_are_resolved {sources : List (String × String)} {s : Solution}
    (h : Solution.ofSources sources = .ok s) (hin : ∀ d ∈ s.documents, d.MethodsInTypes)
    (htyped : ∀ d ∈ s.documents, d.Typed (.ofSolution s)) (rules : RuleSet) :
    ∃ fs, Check.solution (.ofSolution s) rules = .ok fs ∧
      ∀ f ∈ fs, (∃ plan, Plan.resolve (.ofSolution s) f false = .ok plan) ∨
        ∃ method path reason,
          Plan.resolve (.ofSolution s) f false = .error (.unboundCallSite method path reason) := by
  have hs := Solution.parsed_of_ofSources h
  obtain ⟨fs, hfs⟩ := Check.exists_ok hs hin htyped rules
  refine ⟨fs, hfs, fun f hf => ?_⟩
  obtain ⟨d, hd, n, hn⟩ := Check.exists_node_of_solution hfs hf
  exact Finding.resolved_of_node_check hs htyped hd hn

/-- A class with a parameter that is never written, one that is given out, and a loop. -/
def loopOverArray : String :=
  "class C{void M(ref int a){}void N(out int b){b=1;}void L(int[] s){foreach(var x in s)F(x);}}"

/-- The types of the class are told, as the name of the loop variable stands behind the
collection. -/
theorem findings_are_resolved_class : ∃ s,
    Solution.ofSources [("A.cs", loopOverArray)] = .ok s ∧
      (∀ d ∈ s.documents, d.MethodsInTypes) ∧
      (∀ d ∈ s.documents, d.Typed (.ofSolution s)) ∧
      ∃ fs, Check.solution (.ofSolution s) Rule.all = .ok fs ∧
        fs.map Finding.rule = [.unneededRef, .outAsResult] ∧
        ∀ f ∈ fs, (∃ plan, Plan.resolve (.ofSolution s) f false = .ok plan) ∨
          ∃ method path reason,
            Plan.resolve (.ofSolution s) f false = .error (.unboundCallSite method path reason) := by
  have hrun : ((Solution.ofSources [("A.cs", loopOverArray)]).toOption.any fun s =>
        decide (∀ d ∈ s.documents, d.MethodsInTypes ∧ d.NamesBehindValues) &&
          (Check.solution (.ofSolution s) Rule.all).toOption.map (List.map Finding.rule) ==
            some [.unneededRef, .outAsResult]) = true := by
    rw [Solution.toOption_ofSources (show loopOverArray.toList = _ from String.toList_ofList)]
    decide +kernel
  cases h : Solution.ofSources [("A.cs", loopOverArray)] with
  | error e =>
    rw [h] at hrun
    cases hrun
  | ok s =>
    rw [h] at hrun
    obtain ⟨hin, hrules⟩ := (Bool.and_eq_true _ _).mp hrun
    have hin := of_decide_eq_true hin
    have htyped : ∀ d ∈ s.documents, d.Typed (.ofSolution s) := by
      intro d hd
      obtain ⟨source, hparse⟩ := (Solution.parsed_of_ofSources h).parses d hd
      exact Binder.typed_of_namesBehindValues hparse (hin d hd).2
    obtain ⟨fs, hfs, hresolved⟩ :=
      findings_are_resolved h (fun d hd => (hin d hd).1) htyped Rule.all
    rw [hfs] at hrules
    exact ⟨s, rfl, fun d hd => (hin d hd).1, htyped, fs, hfs,
      Option.some.inj (beq_iff_eq.mp hrules), hresolved⟩

/-- **A method outside of a type stops the checks**: the parser takes it, and the index does not. -/
theorem method_outside_types_stops_checks : ∃ s,
    Solution.ofSources [("A.cs", "void M(ref int a) { }")] = .ok s ∧
      Check.solution (.ofSolution s) Rule.all =
        .error (.internal "no symbol for method declaration at 0 in A.cs") := by
  have hrun : ((Solution.ofSources [("A.cs", "void M(ref int a) { }")]).toOption.any fun s =>
      match Check.solution (.ofSolution s) Rule.all with
      | .error e => e = .internal "no symbol for method declaration at 0 in A.cs"
      | .ok _ => false) = true := by
    decide +kernel
  cases h : Solution.ofSources [("A.cs", "void M(ref int a) { }")] with
  | error e =>
    rw [h] at hrun
    cases hrun
  | ok s =>
    rw [h, Except.toOption, Option.any_some] at hrun
    refine ⟨s, rfl, ?_⟩
    cases hcheck : Check.solution (.ofSolution s) Rule.all with
    | error e =>
      rw [hcheck] at hrun
      rw [of_decide_eq_true hrun]
    | ok found =>
      rw [hcheck] at hrun
      cases hrun

end CodeMend
