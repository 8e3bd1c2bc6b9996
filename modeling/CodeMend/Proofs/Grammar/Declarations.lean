import CodeMend.Proofs.Grammar.Statements

/-!
# CodeMend — declarations keep to the grammar of trees

A declaration is begun behind the parts of it that were read before it was recognised: the contract
of its rule names those parts as what stands in front.

* **`makes_typedMember`**, **`makes_member`**, **`makes_namespaceMember`** — from the parts in front
  to the whole declaration.
-/

namespace CodeMend.Grammar

open CodeMend.Parser Production
open scoped Computability

section Declarations

variable {ts : Array Token} {rules : Rules} {n : Checkpoint} {P : Cursor → Prop}
  {shapes : List Shape} (hts : Ended ts) (hr : Sound ts rules)

/-- The contract of a declaration, of which nothing but its parts is told. -/
abbrev MakesSome (ts : Array Token) (n : Checkpoint) (P : Cursor → Prop) (front : List Shape)
    (p : Parser Shape) : Prop :=
  Makes ts n P front p fun _ => True

theorem makesSome_of {k : NodeKind} {p : Parser Shape} (h : Makes ts n P shapes p (IsA k)) :
    MakesSome ts n P shapes p :=
  Yields.mono h (fun _ hc => hc) fun _ _ => trivial

/-- A declaration behind the parts that were read already. -/
theorem makes_behind {k : NodeKind} {ps : List (Parser (List Shape))} {l : Language Shape}
    {ls : List (Language Shape)} (hP : Steady P) (hshapes : shapes ∈ l)
    (hall : ∀ s ∈ shapes, Conforms ts s) (hps : ∀ {n}, Reads ts n P [] (seq ps) ls.prod)
    (hk : (l :: ls).prod ≤ production ts k) :
    MakesSome ts n P shapes (nodeAt n k (seq (pure shapes :: ps))) :=
  makesSome_of (Makes.node_at (.since _ _) hP ((Reads.seq_pure hshapes hall hps).mono hk))

/-- A declaration of which nothing is told, behind the parts that were read already. -/
theorem makesSome_behind {k : NodeKind} {ps : List (Parser (List Shape))}
    {ls : List (Language Shape)} (hall : ∀ s ∈ shapes, Conforms ts s)
    (hps : ∀ {n}, Reads ts n anywhere [] (seq ps) ls.prod) (hls : [] ∉ ls.prod)
    (hk : production ts k = something) :
    MakesSome ts n P shapes (nodeAt n k (seq (pure shapes :: ps))) := by
  refine Yields.here (makes_behind (l := ⊤) (fun _ _ h => h) trivial hall hps ?_)
  rw [hk, List.prod_cons]
  exact le_something fun h => hls (nil_mem_mul_iff.mp h).2

/-- The lists of attributes and the modifiers in front of a declaration. -/
abbrev modified (ts : Array Token) : Language Shape := [(a .attributeList)∗, (anyWord ts)∗].prod

/-! ## Tokens of declarations

Modifiers, constraints and the tokens of unknown members are kept as they are.  All that has to be
shown of them is that the end of the file is not among them. -/

theorem ahead_of_atModifier {c : Cursor} (h : atModifier c = true) : Ahead c := by
  intro hend
  simp [atModifier, hend] at h

include hts

theorem reads_modifiers : Reads ts n P [] modifiers ((anyWord ts)∗) :=
  Reads.manyWhile (Reads.bump_any hts fun _ h => ahead_of_atModifier h)

theorem reads_constraintTokens (fuel depth : Nat) :
    Reads ts n P [] (constraintTokens fuel depth) ((anyWord ts)∗) := by
  have hall : ∀ {n}, Reads ts n anywhere [] (constraintTokens fuel depth) ((anyWord ts)∗) := by
    induction fuel generalizing depth with
    | zero => exact Yields.tooDeep
    | succ fuel ih =>
      refine Yields.get fun c₀ _ _ => ?_
      dsimp only
      split
      · exact Yields.pure (V := id) (by simp) nil_mem_kstar
      next hkind =>
      have hahead : Ahead c₀ := by simpa [Ahead] using hkind
      split
      · exact Yields.pure (V := id) (by simp) nil_mem_kstar
      refine Yields.bind (V := id) (Reads.bump_any hts fun _ hc => hc ▸ hahead) fun x hx hx' => ?_
      refine Yields.bind_behind (V := id) (ih _) fun y hy hy' => ?_
      exact Yields.pure (V := id) (conforms_append hx' hy') (append_mem_kstar hx hy)
  exact hall.here

theorem reads_constraintClauses :
    Reads ts n P [] constraintClauses ((a .typeParameterConstraintClause)∗) := by
  refine Reads.manyWhile (Makes.one ?_)
  have hword : ∀ {n}, Reads ts n (fun c => c.atContextual "where" = true) [] bump (anyWord ts) :=
    Reads.bump_any hts fun _ h => ahead_of_atContextual h
  have htokens : ∀ {n}, Reads ts n anywhere []
      (choose fun c => constraintTokens (c.tokens.size + 1) 0) ((anyWord ts)∗) :=
    Yields.choose fun _ _ _ => reads_constraintTokens hts _ _
  have hbody := (hword.seq_cons (n := 0) htokens.single).mono (m := words ts)
    (le_of_eq (by simp [words]))
  refine Yields.before (Makes.node_at (.anew _) (fun _ _ h => h) hbody) fun c hc => ?_
  exact (Bool.and_eq_true _ _ ▸ hc).1

theorem reads_unknownTokens (fuel depth : Nat) (valued : Bool) :
    Reads ts n P [] (unknownTokens fuel depth valued) something := by
  have hall : ∀ {n}, Reads ts n anywhere [] (unknownTokens fuel depth valued) something := by
    induction fuel generalizing depth valued with
    | zero => exact Yields.tooDeep
    | succ fuel ih =>
      have hmore : ∀ {x y : List Shape}, x ∈ anyWord ts → x ++ y ∈ something := by
        rintro _ _ ⟨i, _, _, rfl⟩
        exact List.cons_ne_nil _ _
      refine fun {n} => Yields.get fun c₀ _ _ => ?_
      dsimp only
      split
      · exact Yields.unexpected _
      next hkind =>
      have hahead : Ahead c₀ := by simpa [Ahead] using hkind
      split
      · exact Yields.unexpected _
      refine Yields.bind (V := id) (Reads.bump_any hts fun _ hc => hc ▸ hahead) fun x hx hx' => ?_
      -- what is read next does not depend on how deep it lies
      generalize (if c₀.current.isMark "(" || c₀.current.isMark "[" || c₀.current.isMark "\x7b" then
          depth + 1
        else if c₀.current.isMark ")" || c₀.current.isMark "]" || c₀.current.isMark "\x7d" then
          depth - 1
        else depth) = inside
      split
      · refine Yields.pure (V := id) hx' ?_
        simpa using hmore hx (y := [])
      split
      · refine Yields.bind_behind (V := id)
          (Reads.whenAt (Reads.bump_any hts fun _ h => ahead_of_atMark h)) fun y hy hy' => ?_
        exact Yields.pure (V := id) (conforms_append hx' hy') (hmore hx)
      · refine Yields.bind_behind (V := id) (ih _ _) fun y hy hy' => ?_
        exact Yields.pure (V := id) (conforms_append hx' hy') (hmore hx)
  exact hall.here

theorem makes_unknownMember (hall : ∀ s ∈ shapes, Conforms ts s) :
    MakesSome ts n P shapes (unknownMember n shapes) := by
  have htokens : ∀ {n}, Reads ts n anywhere []
      (choose fun c => unknownTokens (c.tokens.size + 1) 0 false) something :=
    Yields.choose fun _ _ _ => reads_unknownTokens hts _ _ _
  exact makesSome_behind hall htokens.single (by simp) rfl

/-! ## Types

A type is known by its keyword, which tells the kind of node and is the first thing read behind the
modifiers. -/

include hr in
theorem makes_baseList :
    Makes ts n (fun c => c.atMark ":" = true) [] (baseList rules) (IsA .baseList) := by
  have hbase : ∀ {n}, Reads ts n anywhere [] (baseType rules)
      [plainType, opt (a .argumentList)].prod :=
    (hr.type true).one.seq_cons (reads_optionalArguments hts hr).single
  have hbody := Reads.seq_cons (n := 0) (P := fun c => c.atMark ":" = true)
    (Reads.bump_any hts fun _ h => ahead_of_atMark h) (Reads.commaSeparated hts hbase).single
  exact Makes.node_something (.anew _) (fun _ _ h => h) hbody (by simp [anyWord]) rfl

include hr in
theorem reads_typeBody : Reads ts n P [] (typeBody rules) something := by
  refine Yields.choose fun c₀ _ _ => ?_
  split
  next hat =>
    have hbump : ∀ {n}, Reads ts n (· = c₀) [] bump (mark ts ";") :=
      Reads.bump_mark hts fun _ hc => hc ▸ hat
    exact hbump.mono (le_something (nil_notMem_word _ _))
  next =>
    have hbody := Reads.seq_cons (n := n) (P := (· = c₀)) (Reads.expect hts "\x7b") <|
      (Reads.untilBrace hts hr.member.one).seq_cons <|
      (Reads.whenAt (Reads.bump_any hts fun _ (h : Cursor.atMark _ ";" = true) =>
        ahead_of_atMark h)).single
    exact hbody.mono (le_something (by simp [mark]))

/-- The word that begins the declaration of a type stands ahead. -/
def AtTypeKeyword (c : Cursor) : Prop := IsTypeKeyword c.current

omit hts in
theorem ahead_of_atTypeKeyword {c : Cursor} (h : AtTypeKeyword c) : Ahead c := by
  rcases h with h | h | h | h
  · exact ahead_of_atWord h
  · exact ahead_of_atWord h
  · exact ahead_of_atWord h
  · exact ahead_of_atContextual h

omit hts in
/-- Where a type is declared, its keyword stands ahead, and the kind is one of types. -/
theorem atTypeKeyword_of_typeDeclarationKind? {c : Cursor} {k : NodeKind}
    (h : typeDeclarationKind? c = some k) :
    AtTypeKeyword c ∧ production ts k = Production.typeDeclaration ts := by
  simp only [typeDeclarationKind?] at h
  split at h
  next hat =>
    cases h
    exact ⟨.inl hat, rfl⟩
  split at h
  next hat =>
    cases h
    exact ⟨.inr (.inl hat), rfl⟩
  split at h
  next hat =>
    cases h
    exact ⟨.inr (.inr (.inl hat)), rfl⟩
  split at h
  next hat =>
    cases h
    exact ⟨.inr (.inr (.inr (Bool.and_eq_true _ _ ▸ hat).1)), rfl⟩
  · cases h

include hr in
theorem makes_typeDeclaration {k : NodeKind}
    (hk : production ts k = Production.typeDeclaration ts)
    (hall : ∀ s ∈ shapes, Conforms ts s) :
    MakesSome ts n AtTypeKeyword shapes (typeDeclaration rules n shapes k) := by
  have hkeyword : ∀ {n}, Reads ts n AtTypeKeyword [] bump (word ts IsTypeKeyword) :=
    Reads.bump hts fun _ h => ⟨h, ahead_of_atTypeKeyword h⟩
  have hrecord : ∀ {n}, Reads ts n anywhere []
      (whenAt (fun c => k == .recordDeclaration && (c.atWord "class" || c.atWord "struct")) bump)
      (opt (anyWord ts)) := by
    refine Reads.whenAt (Reads.bump_any hts fun c hc => ?_)
    simp only [Bool.and_eq_true, Bool.or_eq_true] at hc
    exact hc.2.elim ahead_of_atWord ahead_of_atWord
  have hparameters : ∀ {n}, Reads ts n anywhere []
      (whenAt (·.atMark "(") (one (parameterList rules))) (opt (a .parameterList)) :=
    Reads.whenAt (makes_parameterList hts hr).one
  have hbases : ∀ {n}, Reads ts n anywhere [] (whenAt (·.atMark ":") (one (baseList rules)))
      (opt (a .baseList)) :=
    Reads.whenAt (makes_baseList hts hr).one
  have hrest {n} := hkeyword.seq_cons (n := n) <| hrecord.seq_cons <|
    (Reads.expectIdentifier hts).seq_cons <| (reads_optionalTypeParameters hts).seq_cons <|
    hparameters.seq_cons <| hbases.seq_cons <| (reads_constraintClauses hts).seq_cons
      (reads_typeBody hts hr).single
  refine makes_behind (l := ⊤) (fun _ _ h => h) trivial hall hrest ?_
  -- what stands behind the name is not told
  rw [hk, Production.typeDeclaration]
  simp only [List.prod_cons, List.prod_nil, mul_one]
  exact mul_le_mul' le_rfl <| mul_le_mul' le_rfl <| mul_le_mul' le_rfl <|
    mul_le_mul' le_rfl le_top

/-! ## Members

What comes in front of a member was read before its kind is known, so each rule is told what stands
there already. -/

include hr in
theorem makes_constructorInitializer :
    Makes ts n (fun c => c.atMark ":" = true) [] (constructorInitializer rules)
      (IsA .constructorInitializer) := by
  have htarget : ∀ {n}, Reads ts n anywhere [] (choose fun c =>
      if c.atWord "base" || c.atWord "this" then bump else unexpected "'base' or 'this'")
      (anyWord ts) := by
    refine Yields.choose fun c₀ _ _ => ?_
    split
    next hat =>
      have hahead : Ahead c₀ :=
        (Bool.or_eq_true _ _ ▸ hat).elim ahead_of_atWord ahead_of_atWord
      exact Reads.bump_any hts fun _ hc => hc ▸ hahead
    next => exact Yields.unexpected _
  have hbody := Reads.seq_cons (n := 0) (P := fun c => c.atMark ":" = true)
    (Reads.bump_any hts fun _ h => ahead_of_atMark h) <|
    htarget.seq_cons (makes_argumentList hts hr).one.single
  exact Makes.node_something (.anew _) (fun _ _ h => h) hbody (by simp [anyWord]) rfl

include hr in
theorem makes_constructor (hall : ∀ s ∈ shapes, Conforms ts s) :
    MakesSome ts n P shapes (constructor rules n shapes) := by
  have hcall : ∀ {n}, Reads ts n anywhere []
      (whenAt (·.atMark ":") (one (constructorInitializer rules)))
      (opt (a .constructorInitializer)) :=
    Reads.whenAt (makes_constructorInitializer hts hr).one
  have hrest {n} := Reads.seq_cons (n := n) (P := anywhere) (Reads.expectIdentifier hts) <|
    (makes_parameterList hts hr).one.seq_cons <| hcall.seq_cons (reads_memberBody hts hr).single
  exact makesSome_behind hall hrest (by simp) rfl

include hr in
/-- A method, of which everything up to its name was read. -/
theorem makes_methodRest {memberType : Shape} {name : List Shape} (hshapes : shapes ∈ modified ts)
    (htype : IsPlainType memberType)
    (hname : name ∈ [opt (plain .explicitInterfaceSpecifier), anyWord ts].prod)
    (hall : ∀ s ∈ shapes ++ memberType :: name, Conforms ts s) :
    MakesSome ts n P (shapes ++ memberType :: name)
      (methodRest rules n (shapes ++ memberType :: name)) := by
  have hrest {n} := Reads.seq_cons (n := n) (P := anywhere) (reads_optionalTypeParameters hts) <|
    (makes_parameterList hts hr).one.seq_cons <| (reads_constraintClauses hts).seq_cons
      (reads_memberBody hts hr).single
  have hfront : shapes ++ memberType :: name ∈ modified ts *
      (plainType * [opt (plain .explicitInterfaceSpecifier), anyWord ts].prod) :=
    Language.append_mem_mul hshapes (Language.append_mem_mul (mem_part htype) hname)
  refine Yields.here (makes_behind (fun _ _ h => h) hfront hall hrest (le_of_eq ?_))
  simp only [production, methodDeclaration, a, List.prod_cons, List.prod_nil, mul_one, mul_assoc]

include hr in
theorem makes_accessor : Makes ts n P [] (accessor rules) (IsA .accessorDeclaration) := by
  have hword : ∀ {n}, Reads ts n anywhere [] (choose fun c =>
      if c.atIdentifier && ["get", "set", "init", "add", "remove"].contains c.current.text then bump
      else unexpected "accessor") (anyWord ts) := by
    refine Yields.choose fun c₀ _ _ => ?_
    split
    next hat =>
      exact Reads.bump_any hts fun _ hc => hc ▸ ahead_of_atIdentifier (Bool.and_eq_true _ _ ▸ hat).1
    next => exact Yields.unexpected _
  have hbody := Reads.seq_cons (n := 0) (P := anywhere) (reads_attributeLists hts) <|
    (reads_modifiers hts).seq_cons <| hword.seq_cons (reads_memberBody hts hr).single
  exact Yields.here <| Makes.node_something (.anew _) (fun _ _ h => h) hbody (by simp [anyWord]) rfl

include hr in
/-- What stands behind the name of a property. -/
theorem reads_propertyBody : Reads ts n P [] (choose fun c =>
    if c.atMark "=>" then seq [one (arrowExpressionClause rules), expect ";"]
    else seq [
      one (node .accessorList (seq [expect "\x7b", untilBrace (one (accessor rules))])),
      whenAt (·.atMark "=") (seq [one (equalsValueClause rules), expect ";"])]) something := by
  have haccessors : ∀ {n}, Makes ts n anywhere []
      (node .accessorList (seq [expect "\x7b", untilBrace (one (accessor rules))]))
      (IsA .accessorList) :=
    Makes.node_something (.anew _) (fun _ _ h => h) ((Reads.expect hts "\x7b").seq_cons
      (Reads.untilBrace hts (makes_accessor hts hr).one).single) (by simp [mark]) rfl
  have hvalue : ∀ {n}, Reads ts n (fun c => c.atMark "=" = true) []
      (seq [one (equalsValueClause rules), expect ";"]) [a .equalsValueClause, mark ts ";"].prod :=
    (makes_equalsValueClause hts hr).one.seq_cons (Reads.expect hts ";").single
  refine Yields.choose fun c₀ _ _ => ?_
  split
  · exact ((makes_arrowExpressionClause hts hr).one.seq_cons (Reads.expect hts ";").single).mono
      (le_something (by simp))
  · exact Yields.here ((haccessors.one.seq_cons (Reads.whenAt hvalue).single).mono
      (le_something (by simp)))

include hr in
theorem makes_propertyRest (hall : ∀ s ∈ shapes, Conforms ts s) :
    MakesSome ts n P shapes (propertyRest rules n shapes) :=
  makesSome_behind hall (reads_propertyBody hts hr).single (by simp) rfl

/-! ## Names of members

The name of a member may begin with that of an interface, and a scan tells where the one ends and
the other begins. -/

include hr in
theorem makes_interfaceSegments (count : Nat) {name : Shape} (hname : IsPlainType name)
    (hconforms : Conforms ts name) :
    Makes ts n P [name] (interfaceSegments rules n count name) IsPlainType := by
  have hall : ∀ name, IsPlainType name → Conforms ts name →
      Makes ts n anywhere [name] (interfaceSegments rules n count name) IsPlainType := by
    induction count with
    | zero => exact fun name hname hconforms => Yields.pure (V := fun s => [s]) (by simpa) hname
    | succ count ih =>
      intro name hname hconforms
      have hbody : ∀ {n}, Reads ts n anywhere [name]
          (seq [pure [name], expect ".", one (simpleTypeName rules)])
          (production ts .qualifiedName) :=
        Reads.seq_shape hname hconforms <| ((Reads.expect hts ".").mono word_le_anyWord).seq_cons
          (makes_simpleTypeName hts hr).one.single
      have hlonger := makes_plain (k := .qualifiedName) (.since n [name]) (fun _ _ h => h) hbody
        le_rfl ?_ (by decide)
      · refine Yields.bind hlonger fun longer hlonger hall => ?_
        exact ih longer (isPlainType_of hlonger.1 hlonger.2 rfl)
          (hall longer (List.mem_singleton_self longer))
      · exact cons_le_each plainType_le_each <| cons_le_each (word_le_each .token) <|
          cons_le_each plainType_le_each nil_le_each
  exact (hall name hname hconforms).here

include hr in
theorem makes_explicitInterfaceSpecifier (points : Nat) :
    Makes ts n P [] (explicitInterfaceSpecifier rules points)
      (fun s => IsA .explicitInterfaceSpecifier s ∧ IsPlain s) := by
  have hname : ∀ {n}, Makes ts n anywhere [] (interfaceName rules points) IsPlainType := by
    intro n
    refine Yields.checkpoint <| Yields.bind (makes_simpleTypeName hts hr) fun name hname hall => ?_
    exact makes_interfaceSegments hts hr _ hname (hall name (List.mem_singleton_self name))
  refine Yields.here (makes_plain (.anew _) (fun _ _ h => h)
    (hname.one.seq_cons (Reads.expect hts ".").single) le_rfl ?_ (by decide))
  exact cons_le_each plainType_le_each <| cons_le_each (word_le_each .token) nil_le_each

include hr in
/-- The name of a member, with the interface in front of it. -/
theorem reads_memberName : Reads ts n P [] (seq [optionalInterface rules, expectIdentifier])
    [opt (plain .explicitInterfaceSpecifier), anyWord ts].prod := by
  refine Reads.seq_cons (Yields.choose fun c₀ _ _ => ?_)
    ((Reads.expectIdentifier hts).mono word_le_anyWord).single
  split
  · dsimp only
    split
    · exact (makes_explicitInterfaceSpecifier hts hr _).one.mono fun _ h => mem_opt_of_mem h
    · exact Yields.pure (V := id) (by simp) nil_mem_opt
  · exact Yields.pure (V := id) (by simp) nil_mem_opt

include hr in
/-- A field, of whose first name everything but the value was read. -/
theorem makes_fieldRest {fieldType : Shape} {name : List Shape}
    (hall : ∀ s ∈ shapes, Conforms ts s) (htype : IsPlainType fieldType)
    (htype' : Conforms ts fieldType)
    (hname : name ∈ [opt (plain .explicitInterfaceSpecifier), anyWord ts].prod)
    (hname' : ∀ s ∈ name, Conforms ts s) :
    MakesSome ts n P (shapes ++ fieldType :: name)
      (fieldRest rules ⟨n, n + shapes.length, n + (shapes ++ [fieldType]).length⟩ shapes fieldType
        name) := by
  have hwhole : shapes ++ fieldType :: name = (shapes ++ [fieldType]) ++ name := by simp
  rw [hwhole]
  have hfirst : ∀ {n}, Makes ts n anywhere name
      (nodeAt n .variableDeclarator (seq [pure name, optionalEqualsValue rules]))
      (IsA .variableDeclarator) := by
    intro n
    refine Makes.node_at (.since _ _) (fun _ _ h => h) (Reads.mono
      (Reads.seq_pure hname hname' (reads_optionalEqualsValue hts hr).single) (le_of_eq ?_))
    simp only [production, List.prod_cons, List.prod_nil, mul_one, mul_assoc]
  refine Yields.bind_stop (S := anywhere) hfirst.here (fun _ _ _ _ => trivial)
    fun first hfirst hfirst' => ?_
  refine Yields.bind_behind (V := id) (reads_moreDeclarators hts hr) fun more hmore hmore' => ?_
  -- the type and the names make a declaration, the parts in front of them stay in front
  have hparts : shapes ++ [fieldType] ++ [first] ++ more =
      shapes ++ (fieldType :: first :: more) := by
    simp
  simp only [id_eq, hparts]
  have hdeclaration : ∀ {n}, Makes ts n anywhere (fieldType :: first :: more)
      (nodeAt n .variableDeclaration (pure (fieldType :: first :: more)))
      (IsA .variableDeclaration) := by
    intro n
    refine Makes.node_pure (.since _ _) ?_ ?_
    · intro s hs
      rcases List.mem_cons.mp hs with rfl | hs
      · exact htype'
      rcases List.mem_cons.mp hs with rfl | hs
      · exact hfirst' _ (List.mem_singleton_self _)
      · exact hmore' s hs
    · have hnames : [first] ++ more ∈ separated ts (a .variableDeclarator) :=
        Language.append_mem_mul (mem_part hfirst) hmore
      exact append_mem_prod (mem_part htype) (mem_prod_singleton hnames)
  refine Yields.bind_stop (S := anywhere) hdeclaration (fun _ _ _ _ => trivial)
    fun declaration hdeclaration hdeclaration' => ?_
  refine Yields.bind_behind (V := id) (Reads.expect hts ";")
    fun semicolon hsemicolon hsemicolon' => ?_
  refine makesSome_of (k := .fieldDeclaration) (Makes.node_pure (.since _ _)
    (conforms_append (conforms_append hall hdeclaration') hsemicolon') ?_)
  intro hnil
  simp at hnil

include hr in
theorem makes_typedMember {memberType : Shape} (hshapes : shapes ∈ modified ts)
    (hall : ∀ s ∈ shapes, Conforms ts s) (htype : IsPlainType memberType)
    (htype' : Conforms ts memberType) :
    MakesSome ts n P (shapes ++ [memberType])
      (typedMember rules n (n + shapes.length) shapes memberType) := by
  have htyped : ∀ s ∈ shapes ++ [memberType], Conforms ts s :=
    conforms_append hall (by simpa using htype')
  refine Yields.get fun c₀ _ _ => ?_
  split
  · exact makes_unknownMember hts htyped
  refine Yields.checkpoint ?_
  refine Yields.bind_behind (V := id) (reads_memberName hts hr) fun name hname hname' => ?_
  have hwhole : ∀ s ∈ shapes ++ memberType :: name, Conforms ts s := by
    have h := conforms_append htyped hname'
    rwa [id_eq, List.append_assoc, List.singleton_append] at h
  rw [id_eq, List.append_assoc, List.singleton_append]
  refine Yields.get fun c₁ _ _ => ?_
  dsimp only
  split
  · exact makes_methodRest hts hr hshapes htype hname hwhole
  split
  · exact makes_propertyRest hts hr hwhole
  split
  · exact makes_fieldRest hts hr hall htype htype' hname hname'
  · exact makes_unknownMember hts hwhole

include hr in
/-- **A declaration of a type or a member.** -/
theorem makes_member : MakesSome ts n P [] (member rules) := by
  refine Yields.checkpoint <| Yields.get fun c₀ _ _ => ?_
  dsimp only
  refine Yields.bind (V := id)
    (Reads.seq_cons (reads_attributeLists hts) (reads_modifiers hts).single)
    fun shapes hshapes hall => ?_
  refine Yields.get fun c₁ _ _ => ?_
  split
  next k hk =>
    obtain ⟨hat, hproduction⟩ := atTypeKeyword_of_typeDeclarationKind? hk
    exact Yields.at (makes_typeDeclaration hts hr hproduction hall) hat
  next =>
  split
  · exact makes_unknownMember hts hall
  split
  · exact makes_constructor hts hr hall
  refine Yields.checkpoint ?_
  split
  · split
    · exact Yields.unexpected _
    · exact makes_unknownMember hts hall
  · refine Yields.bind_behind (hr.type true) fun memberType htype htype' => ?_
    exact makes_typedMember hts hr hshapes hall htype (htype' _ (List.mem_singleton_self _))

/-! ## Namespaces

The last rules, up to the whole file. -/

include hr in
theorem makes_usingDirective : MakesSome ts n P [] (usingDirective rules) := by
  have halias : ∀ {n}, Reads ts n (fun c => (c.atIdentifier && (c.nth 1).isMark "=") = true) []
      (seq [bump, bump]) [opt (anyWord ts), opt (anyWord ts)].prod :=
    (Reads.bump_loose hts).seq_cons (Reads.bump_loose hts).single
  have hglobal : ∀ {n}, Reads ts n anywhere [] (whenAt (·.atContextual "global") bump)
      (opt (opt (anyWord ts))) :=
    Reads.whenAt (Reads.bump_loose hts)
  have hstatic : ∀ {n}, Reads ts n anywhere [] (whenAt (·.atWord "static") bump)
      (opt (opt (anyWord ts))) :=
    Reads.whenAt (Reads.bump_loose hts)
  have hbody := hglobal.seq_cons (n := 0) <| (Reads.expectWord hts "using").seq_cons <|
    hstatic.seq_cons <| (Reads.whenAt halias).seq_cons <| (makes_typeName hts hr).one.seq_cons
      (Reads.expect hts ";").single
  exact makesSome_of <| Yields.here <|
    Makes.node_something (.anew _) (fun _ _ h => h) hbody (by simp) rfl

include hr in
theorem makes_namespaceDeclaration : MakesSome ts n P [] (namespaceDeclaration rules) := by
  have hhead : ∀ {n}, Reads ts n P [] (seq [expectWord "namespace", one (typeName rules)])
      [word ts fun t => t.isKeyword "namespace", part IsPlainType].prod :=
    (Reads.expectWord hts "namespace").seq_cons (makes_typeName hts hr).one.single
  refine Yields.checkpoint <| Yields.bind (V := id) hhead fun head hhead hhead' => ?_
  refine Yields.get fun c₀ _ _ => ?_
  split
  next hat =>
    refine Yields.bind_behind (V := id) (Reads.bump_mark hts fun _ hc => hc ▸ hat)
      fun semicolon hsemicolon hsemicolon' => ?_
    have hfront : head ++ semicolon ∈ something := by
      intro hnil
      obtain ⟨rfl, -⟩ := List.append_eq_nil_iff.mp hnil
      exact absurd hhead (by simp)
    have hbody : ∀ {n}, Reads ts n anywhere (head ++ semicolon)
        (seq [pure (head ++ semicolon),
          manyWhile (fun c => !c.atEnd) (one (rules .namespaceMember))])
        [something, (part fun _ => True)∗].prod :=
      Reads.seq_pure hfront (conforms_append hhead' hsemicolon')
        (Reads.manyWhile hr.namespaceMember.one).single
    exact makesSome_of (k := .fileScopedNamespaceDeclaration)
      (Makes.node_something (.since _ _) (fun _ _ h => h) hbody (by simp) rfl)
  next =>
    have hrest {n} := Reads.seq_cons (n := n) (P := anywhere) (Reads.expect hts "\x7b") <|
      (Reads.untilBrace hts hr.namespaceMember.one).seq_cons <|
      (Reads.whenAt (Reads.bump_any hts fun _ (h : Cursor.atMark _ ";" = true) =>
        ahead_of_atMark h)).single
    exact makesSome_behind hhead' hrest (by simp [mark]) rfl

include hr in
/-- **A member of a file or of a namespace.** -/
theorem makes_namespaceMember : MakesSome ts n P [] (namespaceMember rules) := by
  refine Yields.choose fun c₀ _ _ => ?_
  split
  · exact makes_usingDirective hts hr
  split
  · exact makes_namespaceDeclaration hts hr
  · exact makes_member hts hr

end Declarations

end CodeMend.Grammar
