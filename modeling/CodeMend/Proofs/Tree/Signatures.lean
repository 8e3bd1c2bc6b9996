import CodeMend.Proofs.Tree.Children
import CodeMend.Proofs.Tree.Modifiers
import CodeMend.Proofs.Tree.Places

/-!
# CodeMend — the parts of a method declaration

Where the parts of a method and of a parameter stand in a parsed tree.

* **`MethodView.mem_childNodes`** — the return type and the list of parameters stand under the
  method.
* **`kind_of_parameter_child`** — of the nodes under a method, only lists of parameters hold any.
* **`MethodView.eq_parameterList`** — a method has one such list.
* **`exists_parameterView`** — every parameter has a view.
* **`ParameterView.mem_children`** — the modifiers of a parameter stand under it.
-/

namespace CodeMend

open Tree Production
open scoped Computability

variable {t : Tree} {c l m n : NodeId} {i : TokenId}

/-! ## Methods

The view of a method goes through its children and keeps the last of each sort.  The production says
that there is one of each. -/

namespace MethodView

/-- Some parts of a method are among given nodes; the return type is a type. -/
def Parts.Within (t : Tree) (ns : List NodeId) (p : Parts) : Prop :=
  (∀ r, p.returnType = some r → r ∈ ns ∧ (t.kind r).isType = true) ∧
    ∀ l, p.parameterList = some l → l ∈ ns

theorem Parts.Within.add {ns : List NodeId} {p : Parts} (h : p.Within t ns) {c : Child}
    (hc : ∀ m, c = .node m → m ∈ ns) : (p.add t c).Within t ns := by
  obtain ⟨htype, hlist⟩ := h
  cases c with
  | token i =>
    simp only [Parts.add]
    split
    · exact ⟨htype, hlist⟩
    · split <;> exact ⟨htype, hlist⟩
  | node m =>
    have hm := hc m rfl
    simp only [Parts.add]
    split
    next => exact ⟨htype, hlist⟩
    next => exact ⟨htype, hlist⟩
    next => exact ⟨htype, hlist⟩
    next => exact ⟨htype, fun l hl => Option.some.inj hl ▸ hm⟩
    next => exact ⟨htype, hlist⟩
    next => exact ⟨htype, hlist⟩
    next =>
      split
      next hkind =>
        rw [Bool.and_eq_true] at hkind
        exact ⟨fun r hr => Option.some.inj hr ▸ ⟨hm, hkind.1⟩, hlist⟩
      next => exact ⟨htype, hlist⟩

/-- **The return type and the list of parameters of a method stand under it.** -/
theorem mem_childNodes {v : MethodView} (h : MethodView.ofNode? t n = some v) :
    v.node = n ∧ t.kind n = .methodDeclaration ∧
      (v.returnType ∈ t.childNodes n ∧ (t.kind v.returnType).isType = true) ∧
      v.parameterList ∈ t.childNodes n := by
  have hwithin : ((t.children n).foldl (Parts.add t) {}).Within t (t.childNodes n) := by
    have hall : ∀ (cs : List Child) (p : Parts), (∀ c ∈ cs, c ∈ t.children n) →
        p.Within t (t.childNodes n) → (cs.foldl (Parts.add t) p).Within t (t.childNodes n) := by
      intro cs
      induction cs with
      | nil => exact fun p _ hp => hp
      | cons c cs ih =>
        intro p hcs hp
        refine ih _ (fun d hd => hcs d (List.mem_cons_of_mem _ hd)) (hp.add ?_)
        rintro m rfl
        exact mem_childNodes_iff.mpr (hcs _ List.mem_cons_self)
    refine hall _ _ (fun _ hc => hc) ⟨?_, ?_⟩ <;> (intro m hm; cases hm)
  obtain ⟨htype, hlist⟩ := hwithin
  unfold MethodView.ofNode? at h
  split at h
  · cases h
  next hk =>
  simp only [Option.bind_eq_bind, Option.bind_eq_some_iff, Option.pure_def, Option.some.injEq] at h
  obtain ⟨type, htype', name, -, list, hlist', rfl⟩ := h
  exact ⟨rfl, by simpa using hk, htype type htype', hlist list hlist'⟩

end MethodView

namespace Tree

/-- The kinds of the parts of a method that are not names and types. -/
def methodPartKinds : List NodeKind :=
  [.attributeList, .typeParameterList, .parameterList, .typeParameterConstraintClause, .block,
    .arrowExpressionClause]

/-- The sort of shapes that a method consists of. -/
def IsMethodPart (s : Shape) : Prop := HasKind (· ∈ methodPartKinds) s ∨ IsPlain s

theorem methodDeclaration_le_each {ts : Array Token} :
    methodDeclaration ts ≤ each IsMethodPart := by
  have htoken : ∀ i, IsMethodPart (.token i) := fun i => .inr (.token i)
  have hword : anyWord ts ≤ each IsMethodPart := word_le_each htoken
  have hmark : ∀ {text}, mark ts text ≤ each IsMethodPart := fun {_} => word_le_each htoken
  have hpart : ∀ {k}, k ∈ methodPartKinds → a k ≤ each IsMethodPart := fun hk =>
    part_le_each fun _ hs => .inl (hs.mono fun _ heq => heq ▸ hk)
  have hplain : ∀ {k}, plain k ≤ each IsMethodPart := fun {_} => part_le_each fun _ hs => .inr hs.2
  have htype : plainType ≤ each IsMethodPart := part_le_each fun _ hs => .inr hs.2
  have hbody : memberBody ts ≤ each IsMethodPart :=
    add_le_each (add_le_each (hpart (by decide))
      (cons_le_each (hpart (by decide)) (cons_le_each hmark nil_le_each))) hmark
  exact cons_le_each (kstar_le_each (hpart (by decide))) <|
    cons_le_each (kstar_le_each hword) <| cons_le_each htype <|
    cons_le_each (opt_le_each hplain) <| cons_le_each hword <|
    cons_le_each (opt_le_each (hpart (by decide))) <| cons_le_each (hpart (by decide)) <|
    cons_le_each (kstar_le_each (hpart (by decide))) <| cons_le_each hbody nil_le_each

/-- The parts of a method other than its list of parameters hold no parameter. -/
theorem production_le_each_of_methodPart {ts : Array Token} {k : NodeKind}
    (hk : k ∈ methodPartKinds) (hne : k ≠ .parameterList) :
    production ts k ≤ each (OfKind (· ≠ .parameter)) := by
  have hword : anyWord ts ≤ each (OfKind (· ≠ .parameter)) := word_le_each ofKind_token
  have hmark : ∀ {text}, mark ts text ≤ each (OfKind (· ≠ .parameter)) := fun {_} =>
    word_le_each ofKind_token
  have hexpr : expr ts ≤ each (OfKind (· ≠ .parameter)) :=
    expr_le.trans <| part_le_each_ofKind (by decide : ∀ k, k ∈ expressionKinds → k ≠ .parameter)
  have hstmt : stmt ≤ each (OfKind (· ≠ .parameter)) :=
    part_le_each_ofKind fun k hk heq => by
      rw [heq] at hk
      cases hk
  cases k with
  | attributeList =>
    exact cons_le_each (kstar_le_each hword) (cons_le_each hmark nil_le_each)
  | typeParameterList | typeParameterConstraintClause =>
    exact mul_le_each hword (kstar_le_each hword)
  | block => exact enclosed_le_each ofKind_token (kstar_le_each hstmt)
  | arrowExpressionClause => exact cons_le_each hmark (cons_le_each hexpr nil_le_each)
  | parameterList => exact absurd rfl hne
  | _ => exact absurd hk (by decide)

/-- Names and types consist of names and types. -/
theorem Plain.child (h : Plain t n) (hc : c ∈ t.childNodes n) : Plain t c := by
  obtain ⟨k, cs, hs, hplain⟩ := h
  cases hplain with
  | node _ _ _ _ hall =>
    obtain ⟨k', cs', hs', hplain'⟩ := (hs.words (l := each IsPlain) hall).each le_rfl c hc
    exact ⟨k', cs', hs', hplain'⟩

theorem Plain.of_rises {ns : List NodeId} (h : Plain t n) (hrises : Rises t m ns n) :
    ∀ c ∈ m :: ns, Plain t c := by
  induction hrises with
  | here n =>
    intro c hc
    exact List.mem_singleton.mp hc ▸ h
  | up hm _ ih =>
    intro c hc
    rcases List.mem_cons.mp hc with rfl | hc
    · exact (ih h _ List.mem_cons_self).child hm
    · exact ih h c hc

theorem Plain.kind_mem (h : Plain t n) : t.kind n ∈ plainKinds := by
  obtain ⟨k, cs, hs, hplain⟩ := h
  cases hplain with
  | node _ _ _ hk _ => exact hs.kind_eq ▸ hk

/-- A part of a method is of one of some kinds, or consists of names and types. -/
theorem Parsed.cases_of_methodPart (hp : Parsed t) (hk : t.kind n = .methodDeclaration)
    (hc : c ∈ t.childNodes n) : t.kind c ∈ methodPartKinds ∨ Plain t c := by
  have hwords : Words t (methodDeclaration t.tokens) (t.childNodes n) := hp.words hk (by decide)
  obtain ⟨k, cs, hs, hpart⟩ := hwords.each methodDeclaration_le_each c hc
  rcases hpart with ⟨_, _, _, heq, hkind⟩ | hplain
  · cases heq
    exact .inl (hs.kind_eq ▸ hkind)
  · exact .inr ⟨k, cs, hs, hplain⟩

/-- **Of the nodes under a method, only its list of parameters holds parameters.** -/
theorem Parsed.kind_of_parameter_child (hp : Parsed t) (hk : t.kind n = .methodDeclaration)
    (hl : l ∈ t.childNodes n) (hc : c ∈ t.childNodes l) (hparameter : t.kind c = .parameter) :
    t.kind l = .parameterList := by
  by_contra hne
  rcases hp.cases_of_methodPart hk hl with hpart | hplain
  · have hroot : t.kind l ≠ .compilationUnit := by
      intro heq
      rw [heq] at hpart
      exact absurd hpart (by decide)
    exact (hp.words rfl hroot).kinds (production_le_each_of_methodPart hpart hne) c hc hparameter
  · have hkind := (hplain.child hc).kind_mem
    rw [hparameter] at hkind
    exact absurd hkind (by decide)

/-- The nodes under a method: a type, a list of parameters, and others that are neither. -/
theorem Parsed.childNodes_method (hp : Parsed t) (hk : t.kind n = .methodDeclaration) :
    ∃ (type list : NodeId) (others : List NodeId),
      (∀ c ∈ t.childNodes n, c = type ∨ c = list ∨ c ∈ others) ∧
      Plain t type ∧ (t.kind type).isType = true ∧ t.kind list = .parameterList ∧
      ∀ c ∈ others, (t.kind c).isType = false ∧ t.kind c ≠ .parameterList := by
  have hwords : Words t (methodDeclaration t.tokens) (t.childNodes n) := hp.words hk (by decide)
  have hother : ∀ {k : NodeKind}, k.isType = false ∧ k ≠ .parameterList → a k ≤
      each (OfKind fun k => k.isType = false ∧ k ≠ .parameterList) := fun hk =>
    part_le_each_ofKind fun _ heq => heq ▸ hk
  have hword : ∀ {sort}, word t.tokens sort ≤
      each (OfKind fun k => k.isType = false ∧ k ≠ .parameterList) := fun {_} =>
    word_le_each ofKind_token
  have hbody : memberBody t.tokens ≤ each (OfKind fun k => k.isType = false ∧ k ≠ .parameterList) :=
    add_le_each (add_le_each (hother (by decide))
      (cons_le_each (hother (by decide)) (cons_le_each hword nil_le_each))) hword
  obtain ⟨attributes, _, hn₁, hattributes, h₁⟩ := hwords.append
  obtain ⟨modifiers, _, rfl, hmodifiers, h₂⟩ := h₁.append
  obtain ⟨type, _, rfl, htype, hplain, h₃⟩ := h₂.plain
  obtain ⟨specifier, _, rfl, hspecifier, h₄⟩ := h₃.append
  obtain ⟨typeParameters, _, rfl, htypeParameters, h₅⟩ := h₄.skip.append
  obtain ⟨list, back, rfl, hlist, h₆⟩ := h₅.kind
  refine ⟨type, list, attributes ++ modifiers ++ specifier ++ typeParameters ++ back, ?_, hplain,
    htype, hlist, ?_⟩
  · intro c hc
    rw [hn₁] at hc
    simp only [List.mem_append, List.mem_cons] at hc ⊢
    tauto
  · have hspecifiers : opt (plain .explicitInterfaceSpecifier) ≤
        each (OfKind fun k => k.isType = false ∧ k ≠ .parameterList) :=
      opt_le_each ((part_mono fun _ hs => hs.1).trans (hother (by decide)))
    intro c hc
    simp only [List.mem_append] at hc
    rcases hc with (((hc | hc) | hc) | hc) | hc
    · exact hattributes.kinds (kstar_le_each (hother (by decide))) c hc
    · exact hmodifiers.kinds (kstar_le_each hword) c hc
    · exact hspecifier.kinds hspecifiers c hc
    · exact htypeParameters.kinds (opt_le_each (hother (by decide))) c hc
    · exact h₆.kinds (cons_le_each (kstar_le_each (hother (by decide)))
        (cons_le_each hbody nil_le_each)) c hc

end Tree

/-- The return type of a method consists of names and types. -/
theorem MethodView.plain_returnType (hp : Parsed t) {v : MethodView}
    (hv : MethodView.ofNode? t n = some v) : Plain t v.returnType := by
  obtain ⟨-, hk, ⟨hmem, htype⟩, -⟩ := mem_childNodes hv
  obtain ⟨type, list, others, hall, hplain, -, hlist, hothers⟩ := hp.childNodes_method hk
  rcases hall _ hmem with heq | heq | hother
  · exact heq ▸ hplain
  · rw [heq, hlist] at htype
    cases htype
  · rw [(hothers _ hother).1] at htype
    cases htype

/-- **A method has one list of parameters**, the one in its view. -/
theorem MethodView.eq_parameterList (hp : Parsed t) {v : MethodView}
    (hv : MethodView.ofNode? t n = some v) (hl : l ∈ t.childNodes n)
    (hlist : t.kind l = .parameterList) : l = v.parameterList := by
  obtain ⟨-, hk, ⟨-, -⟩, hmem⟩ := mem_childNodes hv
  obtain ⟨type, list, others, hall, -, htype, -, hothers⟩ := hp.childNodes_method hk
  have hunique : ∀ c ∈ t.childNodes n, t.kind c = .parameterList → c = list := by
    intro c hc hkind
    rcases hall c hc with rfl | heq | hother
    · rw [hkind] at htype
      cases htype
    · exact heq
    · exact absurd hkind (hothers c hother).2
  rw [hunique l hl hlist, hunique _ hmem (kinds hv).1]

/-! ## Parameters

An item of a list of parameters always has a view. -/

/-- The items of a list of parameters are parameters. -/
theorem Tree.Parsed.kind_of_mem_parameters (hp : Parsed t) (hk : t.kind l = .parameterList) :
    ∀ c ∈ t.childNodes l, t.kind c = .parameter := by
  have hwords : Words t (enclosed t.tokens "(" (listed t.tokens (a .parameter)) ")")
      (t.childNodes l) := hp.words hk (by decide)
  exact hwords.kinds (enclosed_le_each ofKind_token
    (listed_le_each ofKind_token (part_le_each_ofKind fun _ h => h)))

namespace ParameterView

theorem kind_of_ofNode? {v : ParameterView} (hv : ParameterView.ofNode? t n = some v) :
    t.kind n = .parameter := by
  unfold ParameterView.ofNode? at hv
  split at hv
  · cases hv
  · simp_all

open ParameterParts in
/-- **Every parameter has a view.** -/
theorem exists_ofNode? (h : InOrder t) (hk : t.kind n = .parameter) :
    ∃ v, ParameterView.ofNode? t n = some v := by
  obtain ⟨attributes, words, types, name, clauses, hc⟩ := exists_parameterChildren h hk
  have hname : ((t.children n).foldl (Parts.add t) {}).name.isSome = true := by
    simp only [hc.children_eq, List.foldl_append, List.foldl_cons]
    generalize List.foldl (Parts.add t) _ (types.map Child.node) = p
    rw [(foldl_clauses (p := Parts.add t p (.token name)) hc.clauses_kind).2.2]
    cases htype : p.typeNode <;> cases hn : p.name <;> simp [Parts.add, hc.name_sort, htype, hn]
  obtain ⟨i, hi⟩ := Option.isSome_iff_exists.mp hname
  unfold ParameterView.ofNode?
  rw [if_neg (by simp [hk])]
  simp only [hi, Option.bind_eq_bind, Option.bind_some, Option.pure_def]
  exact ⟨_, rfl⟩

/-- The modifiers of a parameter stand under it. -/
theorem mem_children (h : InOrder t) {v : ParameterView}
    (hv : ParameterView.ofNode? t n = some v) (hi : i ∈ v.modifiers) : .token i ∈ t.children n := by
  obtain ⟨attributes, words, types, name, clauses, hc⟩ :=
    exists_parameterChildren h (kind_of_ofNode? hv)
  unfold ParameterView.ofNode? at hv
  split at hv
  · cases hv
  simp only [Option.bind_eq_bind, Option.bind_eq_some_iff, Option.pure_def, Option.some.injEq] at hv
  obtain ⟨name', -, rfl⟩ := hv
  dsimp only at hi
  rw [List.mem_append, hc.parts.1] at hi
  rcases hi with hi | hi
  · rw [hc.children_eq]
    have hword := (List.mem_filter.mp hi).1
    simp [hword]
  · split at hi
    · exact mem_childTokens_iff.mp (List.mem_filter.mp hi).1
    · cases hi

end ParameterView

end CodeMend
