import CodeMend.Proofs.Model.Parts

/-!
# CodeMend — types that are told apart

Declarations are parts of one type when they have one dotted name.  This is as it should be, as long
as the names of the solution tell what its declarations stand for.  Then a type has nothing from a
declaration of another one, and a call on it is not bound to a method of another one, unless that is
a base.

* **`Binder.calleeTypes`** — the types that a call looks for its method on.
* **`Binder.exists_calleeType`** — a call is bound to a method of one of these or of a base of it.
* **`Program.declaredType?_eq_of_standsIn`** — a method is one of the type in whose declaration it
  stands.
* **`Program.declarations_of_one_type`** — when declarations merge, and what is kept apart.
* **`Program.type_parameters_are_merged`** — types that differ in their type parameters are merged.
-/

namespace CodeMend

open Tree

variable {s : Solution} {d e : Document} {n m call : NodeId}

/-! ## The types that a call is made on

Methods are found through types: those around the call, that of the receiver, or those of the base
list.  What is found belongs to one of these or to a base of it. -/

namespace Program

variable {p : Program} {id : MethodId} {type : TypeId} {name : String}

/-- **A method that is found on a type is one of that type or of a base.** -/
theorem containingType_mem_withBases (hp : p.Numbered) (hplaced : p.Placed)
    (h : id ∈ p.methodsNamed type name) :
    ∃ m, p.method? id = some m ∧ m.containingType ∈ p.withBases type := by
  obtain ⟨m, hm, rfl⟩ := List.mem_map.mp h
  obtain ⟨⟨u, hu, hmu⟩, -⟩ := mem_listed.mp (foldl_addUnlessHidden_subset _ _ hm)
  exact ⟨m, method?_of_mem_methodsOf hp hmu, containingType_of_mem_methodsOf hplaced hmu ▸ hu⟩

end Program

namespace Binder

variable {b : Binder} {callee : NodeId} {id : MethodId}

/-- The types on which a callee looks for its methods: those around a bare name, the bases of the
innermost one for a call through `base`, and else the type of what stands in front of the point. -/
def calleeTypes (b : Binder) (callee : NodeId) : Analysis (List TypeId) := do
  match b.tree.kind callee with
  | .identifierName | .genericName => return b.enclosingTypes callee
  | .memberAccessExpression =>
    match firstAndLast? (b.tree.childNodes callee) with
    | none => return []
    | some (r, _) =>
      if b.tree.kind r == .baseExpression then
        return ((b.enclosingType? callee).map b.program.basesOf).getD []
      else return (b.receiverType? (← b.receiver r)).toList
  | .memberBindingExpression =>
    match bindingReceiver? b.tree callee with
    | some r => return (b.receiverType? (.value (← b.typeOf r))).toList
    | none => return []
  | _ => return []

/-- What a call may mean is found on one of the types that it is made on. -/
theorem exists_of_mem_calleeCandidates {candidates : List MethodId}
    (h : b.calleeCandidates callee = .ok candidates) (hid : id ∈ candidates) :
    ∃ types, b.calleeTypes callee = .ok types ∧
      ∃ type ∈ types, ∃ name, id ∈ b.program.methodsNamed type name := by
  unfold calleeCandidates at h
  dsimp only at h
  split at h
  case h_1 hk | h_2 hk =>
    obtain rfl := Except.ok.inj h
    simp only [calleeTypes, hk]
    split at hid
    · cases hid
    · obtain ⟨type, htype, hmem⟩ := exists_of_mem_methodsInScope hid
      exact ⟨_, rfl, type, htype, _, hmem⟩
  case h_3 hk =>
    split at h
    next =>
      obtain rfl := Except.ok.inj h
      cases hid
    next r name hparts =>
      simp only [calleeTypes, hk, hparts]
      -- a call through `base` is made on all types of the base list of the class around it
      split at h
      next hbase =>
        obtain rfl := Except.ok.inj h
        rw [if_pos hbase]
        cases htype : b.enclosingType? callee with
        | none => simp [htype] at hid
        | some type =>
          rw [htype] at hid
          obtain ⟨base, hmem, hfound⟩ := List.mem_flatMap.mp hid
          exact ⟨_, rfl, base, hmem, _, hfound⟩
      next hbase =>
        obtain ⟨receiver, hreceiver, h⟩ := exists_of_bind_eq_ok h
        obtain rfl := Except.ok.inj h
        rw [if_neg hbase, hreceiver]
        obtain ⟨type, htype, hmem⟩ := exists_of_mem_methodsOn hid
        exact ⟨_, rfl, type, htype, _, hmem⟩
  case h_4 hk =>
    split at h
    next r _ hreceiver =>
      obtain ⟨T, hT, h⟩ := exists_of_bind_eq_ok h
      obtain rfl := Except.ok.inj h
      simp only [calleeTypes, hk, hreceiver, hT]
      obtain ⟨type, htype, hmem⟩ := exists_of_mem_methodsOn hid
      exact ⟨_, rfl, type, htype, _, hmem⟩
    next =>
      obtain rfl := Except.ok.inj h
      cases hid
  case h_5 =>
    obtain rfl := Except.ok.inj h
    cases hid

/-- **A call is bound to a method of a type that it is made on, or of a base of it.** -/
theorem exists_calleeType (hp : b.program.Numbered) (hplaced : b.program.Placed)
    (h : b.resolveInvocation? call = .ok (some id)) :
    ∃ v m types, InvocationView.ofNode? b.tree call = some v ∧ b.program.method? id = some m ∧
      b.calleeTypes v.callee = .ok types ∧
      ∃ type ∈ types, m.containingType ∈ b.program.withBases type := by
  obtain ⟨v, m, candidates, -, hv, hcandidates, hcandidate, hmethod, -⟩ := exists_candidate hp h
  obtain ⟨types, htypes, type, htype, name, hfound⟩ :=
    exists_of_mem_calleeCandidates hcandidates hcandidate
  obtain ⟨m', hm', hmem⟩ := Program.containingType_mem_withBases hp hplaced hfound
  obtain rfl : m' = m := Option.some.inj (hm'.symm.trans hmethod)
  exact ⟨v, m', types, hv, hm', htypes, type, htype, hmem⟩

end Binder

/-! ## Types and their declarations

Declarations are merged by their dotted name.  That one name stands for one type is a condition on
the solution, and the type parameters show that it is needed. -/

namespace Program

variable {p : Program} {id : MethodId}

/-- A method stands in a declaration of a type. -/
def StandsIn (p : Program) (id : MethodId) (e : Document) (m : NodeId) : Prop :=
  ∃ symbol declaration, p.method? id = some symbol ∧ symbol.declaration = some declaration ∧
    declaration.document = e.id ∧ declaration.node ∈ e.tree.childNodes m

theorem standsIn_iff {m : NodeId} : p.StandsIn id e m ↔
    ∃ declaration ∈ (p.method? id).bind MethodSymbol.declaration,
      declaration.document = e.id ∧ declaration.node ∈ e.tree.childNodes m := by
  constructor
  · rintro ⟨symbol, declaration, hsymbol, hdeclaration, hplace⟩
    exact ⟨declaration, Option.bind_eq_some_iff.mpr ⟨symbol, hsymbol, hdeclaration⟩, hplace⟩
  · rintro ⟨declaration, hmem, hplace⟩
    obtain ⟨symbol, hsymbol, hdeclaration⟩ := Option.bind_eq_some_iff.mp hmem
    exact ⟨symbol, declaration, hsymbol, hdeclaration, hplace⟩

instance (m : NodeId) : Decidable (p.StandsIn id e m) := decidable_of_iff _ standsIn_iff.symm

/-- **A method is one of the type whose declaration it stands in.** -/
theorem declaredType?_eq_of_standsIn (hs : s.Parsed) (he : e ∈ s.documents)
    (h : (ofSolution s).StandsIn id e m) :
    ∃ symbol, (ofSolution s).method? id = some symbol ∧
      (ofSolution s).declaredType? e.id m = some symbol.containingType := by
  obtain ⟨symbol, declaration, hsymbol, hdeclaration, hdocument, hchild⟩ := h
  obtain ⟨d, hd, hid, n, htype, hchild'⟩ := (ownParts_ofSolution s).methods symbol
    (Array.mem_of_getElem? hsymbol) declaration hdeclaration
  obtain rfl := List.inj_on_of_nodup_map hs.nodup hd he (hid.trans hdocument)
  obtain ⟨source, hparse⟩ := hs.parses d hd
  obtain rfl := (parsed_of_parse hparse).wellFormed.parent_unique hchild hchild'
  exact ⟨symbol, hsymbol, htype⟩

theorem declares_ofSolution (hs : s.Parsed) (hn : DeclaresType s d n) :
    (ofSolution s).Declares d.id n := by
  obtain ⟨source, hparse⟩ := hs.parses d hn.1
  obtain ⟨id, hid⟩ := exists_declaredType? (declares_registered hn.1 hparse hn.2)
  rw [(sameNames_ofSolution s).declaredType?_eq] at hid
  obtain ⟨t, ht, hmem⟩ := declaresAs_of_declaredType? hid
  exact ⟨id, t, ht, hmem⟩

/-- **Declarations merge into one type just when they stand for one type**, provided that names tell
what declarations stand for; every declaration is that of a type, which has its bases, members and
methods from its own declarations; and a call is bound to a method that stands in a declaration only
if the type of this declaration, or a type that has it as a base, is one that the call is made
on. -/
theorem declarations_of_one_type (hs : s.Parsed) :
    (∀ d n, DeclaresType s d n → ∃ id, (ofSolution s).declaredType? d.id n = some id) ∧
    (PlainNamespaces s →
      (NamesApart s ↔ ∀ d e n m, DeclaresType s d n → DeclaresType s e m →
        ((ofSolution s).declaredType? d.id n = (ofSolution s).declaredType? e.id m ↔
          typeIdentity d.tree n = typeIdentity e.tree m))) ∧
    OwnParts s.documents (ofSolution s) (ofSolution s) ∧
    ∀ d call id e m, e ∈ s.documents →
      (Binder.ofDocument (ofSolution s) d).resolveInvocation? call = .ok (some id) →
      (ofSolution s).StandsIn id e m →
      ∃ v types, InvocationView.ofNode? d.tree call = some v ∧
        (Binder.ofDocument (ofSolution s) d).calleeTypes v.callee = .ok types ∧
        ∃ type ∈ types,
          ∃ id ∈ (ofSolution s).withBases type, (ofSolution s).declaredType? e.id m = some id := by
  refine ⟨fun d n hn => exists_declaredType? (declares_ofSolution hs hn), fun hplain => ?_,
    ownParts_ofSolution s, fun d call id e m he hcall hstands => ?_⟩
  · rw [namesApart_iff hplain hs.parses]
    -- types are merged by their dotted names, so that what is left is about names alone
    have hmerge : ∀ d e n m, DeclaresType s d n → DeclaresType s e m →
        ((ofSolution s).declaredType? d.id n = (ofSolution s).declaredType? e.id m ↔
          dottedName d.tree n = dottedName e.tree m) := fun d e n m hn hm =>
      (registers_ofSolution hs).declaredType?_eq_iff hs hn.1 hm.1 (declares_ofSolution hs hn)
        (declares_ofSolution hs hm)
    constructor
    · exact fun h d e n m hn hm => (hmerge d e n m hn hm).trans (h d e n m hn hm)
    · exact fun h d e n m hn hm => (hmerge d e n m hn hm).symm.trans (h d e n m hn hm)
  · obtain ⟨v, symbol, types, hv, hsymbol, htypes, type, htype, hmem⟩ :=
      Binder.exists_calleeType (numbered_ofSolution s) (placed_ofSolution s) hcall
    obtain ⟨symbol', hsymbol', hdeclared⟩ := declaredType?_eq_of_standsIn hs he hstands
    obtain rfl := Option.some.inj (hsymbol'.symm.trans hsymbol)
    exact ⟨v, types, hv, htypes, type, htype, _, hmem, hdeclared⟩

/-- **Two types that differ in the number of type parameters are taken for one**, and a call on one
of them is bound to a method of the other one. -/
theorem type_parameters_are_merged : ∃ s, Solution.ofSources [("A.cs",
      "class R{public void M(){}}class R<T>{public void M(){}}class C{void N(R<int> r){r.M();}}")]
        = .ok s ∧
    ∃ d ∈ s.documents, ∃ n m call, DeclaresType s d n ∧ DeclaresType s d m ∧
      typeIdentity d.tree n = ⟨"", [("R", 0)]⟩ ∧ typeIdentity d.tree m = ⟨"", [("R", 1)]⟩ ∧
      (ofSolution s).declaredType? d.id n = (ofSolution s).declaredType? d.id m ∧
      d.tree.text call = "r.M()" ∧
      (Binder.ofDocument (ofSolution s) d).resolveInvocation? call = .ok (some 210) ∧
      (ofSolution s).StandsIn 210 d n := by
  have hrun : ((Solution.ofSources [("A.cs",
      "class R{public void M(){}}class R<T>{public void M(){}}class C{void N(R<int> r){r.M();}}")]
        ).toOption.any fun s =>
      decide (∃ d ∈ s.documents, ∃ n ∈ d.tree.descendants root,
        (d.tree.kind n).isTypeDeclaration = true ∧ typeIdentity d.tree n = ⟨"", [("R", 0)]⟩ ∧
        ∃ m ∈ d.tree.descendants root,
        (d.tree.kind m).isTypeDeclaration = true ∧ typeIdentity d.tree m = ⟨"", [("R", 1)]⟩ ∧
        (ofSolution s).declaredType? d.id n = (ofSolution s).declaredType? d.id m ∧
        ∃ call ∈ d.tree.descendants root, d.tree.text call = "r.M()" ∧
        ((Binder.ofDocument (ofSolution s) d).resolveInvocation? call).toOption =
          some (some 210) ∧
        (ofSolution s).StandsIn 210 d n)) = true := by
    rw [Solution.toOption_ofSources String.toList_ofList]
    decide +kernel
  cases h : Solution.ofSources [("A.cs",
      "class R{public void M(){}}class R<T>{public void M(){}}class C{void N(R<int> r){r.M();}}")]
      with
  | error error =>
    rw [h] at hrun
    cases hrun
  | ok s =>
    rw [h] at hrun
    obtain ⟨d, hd, n, -, hn, hidentity, m, -, hm, hidentity', hmerged, call, -, htext, hcall,
      hstands⟩ := of_decide_eq_true hrun
    exact ⟨s, rfl, d, hd, n, m, call, ⟨hd, hn⟩, ⟨hd, hm⟩, hidentity, hidentity', hmerged, htext,
      toOption_eq_some_iff.mp hcall, hstands⟩

end Program

end CodeMend
