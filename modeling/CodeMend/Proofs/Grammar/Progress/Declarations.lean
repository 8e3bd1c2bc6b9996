import CodeMend.Proofs.Grammar.Declarations
import CodeMend.Proofs.Grammar.Progress.Statements

/-!
# CodeMend — the rules for declarations go on

What a member is kept as when it has no known form is a run of plain tokens, which is never empty.
Constraints are such a run too, and a count of the tokens that are left is enough for both.

* **`goes_unknownTokens`** — a member of no known form takes a token or is a fault.
* **`goes_member`**, **`goes_namespaceMember`** — the rules that have a nonterminal of their own.
* **`goes_compilationUnit`** — a whole file.
-/

namespace CodeMend.Grammar

open CodeMend.Parser Production

section Declarations

variable {ts : Array Token} {level n : Nat} {rules : Rules} {P : Cursor → Prop}
  (hts : Ended ts) (hr : Ready ts level rules)

include hts

/-! ## Runs of plain tokens

Loops over plain tokens are bounded by the number of tokens left, which is enough because each round
takes one. -/

theorem goes_modifiers : Goes ts n P 0 modifiers :=
  Goes.manyWhile (Goes.bump_any hts fun _ => ahead_of_atModifier)

/-- **The tokens of a constraint.**  Each one is taken before the count goes down. -/
theorem goes_constraintTokens (fuel depth : Nat) :
    Goes ts n (fun c => ts.size ≤ c.pos + fuel) 0 (constraintTokens fuel depth) := by
  induction fuel generalizing n depth with
  | zero =>
    intro c hc _ hfuel
    have hlt := hc.pos_lt
    omega
  | succ fuel ih =>
    refine Goes.get fun c₀ _ hn hfuel => ?_
    dsimp only
    split
    · exact .pure []
    next hkind =>
    have hahead : Ahead c₀ := by simpa [Ahead] using hkind
    split
    · exact .pure []
    next =>
    have hbump : Goes ts c₀.pos (· = c₀) 1 bump := (Goes.bump_ahead hts).at hahead
    have hrest : ∀ depth,
        Goes ts (c₀.pos + 1) anywhere 0 (constraintTokens fuel depth) :=
      fun depth c hc hpos _ => ih depth hc hpos (by omega)
    exact .from_here ((hbump.bind fun x => (hrest _).bind_pure).atLeast (Nat.zero_le _))

theorem goes_constraintClauses : Goes ts n P 0 constraintClauses := by
  have htokens : Goes ts (n + 1) anywhere 0
      (choose fun c => constraintTokens (c.tokens.size + 1) 0) :=
    Goes.choose fun c₀ hc₀ _ _ =>
      (goes_constraintTokens hts _ 0).at (by rw [hc₀.tokens_eq]; omega)
  refine Goes.manyWhile (Goes.one (Goes.node _ (fun _ _ h => h) (.atLeast (
    (Goes.bump_any hts fun c hc => ?_).seq_cons htokens.single) (by omega))))
  exact ahead_of_atContextual (Bool.and_eq_true _ _ ▸ hc).1

/-- **The tokens of an unknown member.**  The first one is taken, or is a fault. -/
theorem goes_unknownTokens (fuel depth : Nat) (valued : Bool) :
    Goes ts n (fun c => ts.size ≤ c.pos + fuel) 1 (unknownTokens fuel depth valued) := by
  induction fuel generalizing n depth valued with
  | zero =>
    intro c hc _ hfuel
    have hlt := hc.pos_lt
    omega
  | succ fuel ih =>
    refine Goes.get fun c₀ _ hn hfuel => ?_
    dsimp only
    split
    · exact .unexpected _
    next hkind =>
    have hahead : Ahead c₀ := by simpa [Ahead] using hkind
    split
    · exact .unexpected _
    next =>
    have hbump : Goes ts c₀.pos (· = c₀) 1 bump := (Goes.bump_ahead hts).at hahead
    have hrest : ∀ depth valued,
        Goes ts (c₀.pos + 1) anywhere 1 (unknownTokens fuel depth valued) :=
      fun depth valued c hc hpos _ => ih depth valued hc hpos (by omega)
    refine .from_here (hbump.andThen fun x => ?_)
    -- what is read next does not depend on how deep it lies
    generalize (if c₀.current.isMark "(" || c₀.current.isMark "[" || c₀.current.isMark "\x7b" then
        depth + 1
      else if c₀.current.isMark ")" || c₀.current.isMark "]" || c₀.current.isMark "\x7d" then
        depth - 1
      else depth) = inside
    split
    · exact .pure x
    split
    · exact (Goes.whenAt Goes.bump).bind_pure
    · exact ((hrest _ _).bind_pure).atLeast (Nat.zero_le _)

theorem goes_unknownMember (cp : Checkpoint) (front : List Shape) :
    Goes ts n P 1 (unknownMember cp front) :=
  goes_node <| .seq_pure _ <| Goes.single <| Goes.choose fun c₀ hc₀ _ _ =>
    (goes_unknownTokens hts _ 0 false).at (by rw [hc₀.tokens_eq]; omega)

include hr

/-! ## Types

From here on the rules are gone through once, each by the parts that it reads.  The bound on the
level says how deep the rules may still ask for others. -/

theorem goes_baseType (hn : level ≤ 2 * n + 1) : Goes ts n P 1 (baseType rules) :=
  .atLeast ((hr.type hn true).one.seq_cons
    (goes_optionalArguments hts hr (by omega)).single) (by omega)

theorem goes_baseList (hn : level ≤ 2 * n + 1) : Goes ts n P 1 (baseList rules) :=
  goes_node <| .atLeast (
    Goes.bump.seq_cons (Goes.here (P := anywhere)
      (Goes.commaSeparated hts (goes_baseType hts hr (by omega)))).single) (by omega)

theorem goes_typeBody (hn : level ≤ 2 * n + 2) : Goes ts n P 1 (typeBody rules) := by
  refine Goes.choose fun c₀ _ _ _ => ?_
  split
  next hat => exact (Goes.bump_ahead hts).at (ahead_of_atMark hat)
  next =>
    exact .atLeast (
      (Goes.expect hts "\x7b").seq_cons <|
        (Goes.untilBrace (hr.member (by omega)).one).seq_cons
          (Goes.whenAt Goes.bump).single) (by omega)

theorem goes_typeDeclaration (hn : level ≤ 2 * n + 2) (cp : Checkpoint) (front : List Shape)
    (k : NodeKind) : Goes ts n AtTypeKeyword 1 (typeDeclaration rules cp front k) :=
  Goes.node _ (fun _ _ h => h) <| .seq_pure _ <| .atLeast (
    (Goes.bump_any hts fun _ => ahead_of_atTypeKeyword).seq_cons <|
      (Goes.whenAt Goes.bump).seq_cons <| (Goes.expectIdentifier hts).seq_cons <|
      (goes_optionalTypeParameters hts).seq_cons <|
      (Goes.whenAt (goes_parameterList hts hr (by omega)).one).seq_cons <|
      (Goes.whenAt (goes_baseList hts hr (by omega)).one).seq_cons <|
      (goes_constraintClauses hts).seq_cons (goes_typeBody hts hr (by omega)).single) (by omega)

/-! ## Members

Each of these takes a token that shows what member it is. -/

theorem goes_constructorInitializer (hn : level ≤ 2 * n + 2) :
    Goes ts n P 1 (constructorInitializer rules) := by
  have htarget : Goes ts n anywhere 1 (choose fun c =>
      if c.atWord "base" || c.atWord "this" then bump else unexpected "'base' or 'this'") := by
    refine Goes.choose fun c₀ _ _ _ => ?_
    split
    next hat =>
      exact (Goes.bump_ahead hts).at
        ((Bool.or_eq_true _ _ ▸ hat).elim ahead_of_atWord ahead_of_atWord)
    next => exact .unexpected _
  exact goes_node <| .atLeast (
    Goes.bump.seq_cons <| (htarget.later (by omega)).seq_cons
      (goes_argumentList hts hr (by omega)).one.single) (by omega)

theorem goes_constructor (hn : level ≤ 2 * n + 2) (cp : Checkpoint) (front : List Shape) :
    Goes ts n P 1 (constructor rules cp front) :=
  goes_node <| .seq_pure _ <| .atLeast (
    (Goes.expectIdentifier hts).seq_cons <|
      (goes_parameterList hts hr (by omega)).one.seq_cons <|
      (Goes.whenAt (goes_constructorInitializer hts hr (by omega)).one).seq_cons
        (goes_memberBody hts hr (by omega)).single) (by omega)

theorem goes_methodRest (hn : level ≤ 2 * n + 2) (cp : Checkpoint) (front : List Shape) :
    Goes ts n P 1 (methodRest rules cp front) :=
  goes_node <| .seq_pure _ <| .atLeast (
    (goes_optionalTypeParameters hts).seq_cons <|
      (goes_parameterList hts hr (by omega)).one.seq_cons <|
      (goes_constraintClauses hts).seq_cons (goes_memberBody hts hr (by omega)).single) (by omega)

theorem goes_accessor (hn : level ≤ 2 * n + 2) : Goes ts n P 1 (accessor rules) := by
  have hword : Goes ts n anywhere 1 (choose fun c =>
      if c.atIdentifier && ["get", "set", "init", "add", "remove"].contains c.current.text then bump
      else unexpected "accessor") := by
    refine Goes.choose fun c₀ _ _ _ => ?_
    split
    next hat =>
      exact (Goes.bump_ahead hts).at (ahead_of_atIdentifier (Bool.and_eq_true _ _ ▸ hat).1)
    next => exact .unexpected _
  exact goes_node <| .atLeast (
    (goes_attributeLists hts).seq_cons <| (goes_modifiers hts).seq_cons <| hword.seq_cons
      (goes_memberBody hts hr (by omega)).single) (by omega)

theorem goes_propertyRest (hn : level ≤ 2 * n + 2) (cp : Checkpoint) (front : List Shape) :
    Goes ts n P 1 (propertyRest rules cp front) := by
  have haccessors : Goes ts n anywhere 1
      (node .accessorList (seq [expect "\x7b", untilBrace (one (accessor rules))])) :=
    goes_node <| .atLeast ((Goes.expect hts "\x7b").seq_cons
      (Goes.untilBrace (goes_accessor hts hr (by omega)).one).single) (by omega)
  have hvalue : Goes ts (n + 1) (fun c => c.atMark "=" = true) 1
      (seq [one (equalsValueClause rules), expect ";"]) :=
    .atLeast ((goes_equalsValueClause hts hr (by omega)).one.seq_cons
      (Goes.expect hts ";").single) (by omega)
  refine goes_node <| .seq_pure _ <| Goes.single <| Goes.choose fun c₀ _ _ _ => ?_
  split
  · exact .atLeast ((goes_arrowExpressionClause hts hr hn).one.seq_cons
      (Goes.expect hts ";").single) (by omega)
  · exact Goes.here (.atLeast (haccessors.one.seq_cons (Goes.whenAt hvalue).single) (by omega))

/-! ## Names of members

What was read before the kind of the member is known is taken into account by the tokens that it
spans. -/

theorem goes_fieldRest (hn : level ≤ 2 * n + 2) (cps : MemberCheckpoints) (front : List Shape)
    (fieldType : Shape) (name : List Shape) :
    Goes ts n P 1 (fieldRest rules cps front fieldType name) := by
  have hfirst : Goes ts n anywhere 0
      (nodeAt cps.name .variableDeclarator (seq [pure name, optionalEqualsValue rules])) :=
    goes_node <| .seq_pure _ (goes_optionalEqualsValue hts hr hn).single
  refine Goes.here ((hfirst.bind (e := 1) fun first => ?_).atLeast (by omega))
  refine ((goes_moreDeclarators hts hr (by omega)).bind (e := 1) fun more => ?_).atLeast (by omega)
  refine (Goes.bind (d := 0) (e := 1) (goes_node (.pure _)) fun declaration => ?_).atLeast
    (by omega)
  exact (Goes.expect hts ";").andThen fun semicolon => goes_node (.pure _)

theorem goes_interfaceSegments (hn : level ≤ 2 * n + 2) (cp : Checkpoint) (segments : Nat)
    (name : Shape) : Goes ts n P 0 (interfaceSegments rules cp segments name) := by
  have hall : ∀ name, Goes ts n anywhere 0 (interfaceSegments rules cp segments name) := by
    induction segments with
    | zero => exact fun name => .pure name
    | succ segments ih =>
      intro name
      have hlonger : Goes ts n anywhere 1
          (nodeAt cp .qualifiedName
            (seq [pure [name], expect ".", one (simpleTypeName rules)])) :=
        goes_node <| .seq_pure _ <| .atLeast ((Goes.expect hts ".").seq_cons
          (goes_simpleTypeName hts hr (by omega)).one.single) (by omega)
      exact (hlonger.andThen fun longer => (ih longer).later (by omega)).atLeast (Nat.zero_le _)
  exact (hall name).here

theorem goes_explicitInterfaceSpecifier (hn : level ≤ 2 * n + 2) (points : Nat) :
    Goes ts n P 1 (explicitInterfaceSpecifier rules points) := by
  have hname : Goes ts n anywhere 1 (interfaceName rules points) :=
    Goes.checkpoint fun cp => (goes_simpleTypeName hts hr hn).andThen fun name =>
      goes_interfaceSegments hts hr (by omega) cp _ name
  exact goes_node <| .atLeast (hname.one.seq_cons (Goes.expect hts ".").single) (by omega)

theorem goes_optionalInterface (hn : level ≤ 2 * n + 2) :
    Goes ts n P 0 (optionalInterface rules) := by
  refine Goes.choose fun c₀ _ _ _ => ?_
  split
  · dsimp only
    split
    · exact (goes_explicitInterfaceSpecifier hts hr hn _).one.atLeast (Nat.zero_le _)
    · exact .pure []
  · exact .pure []

theorem goes_typedMember (hn : level ≤ 2 * n + 2) (cp typeCp : Checkpoint) (front : List Shape)
    (memberType : Shape) : Goes ts n P 1 (typedMember rules cp typeCp front memberType) := by
  refine Goes.get fun c₀ _ _ _ => ?_
  split
  · exact goes_unknownMember hts _ _
  refine Goes.checkpoint fun nameCp => ?_
  have hname : Goes ts n (· = c₀) 1 (seq [optionalInterface rules, expectIdentifier]) :=
    .atLeast ((goes_optionalInterface hts hr hn).seq_cons (Goes.expectIdentifier hts).single)
      (by omega)
  refine hname.andThen fun name => Goes.get fun c₁ _ _ _ => ?_
  dsimp only
  refine Goes.atLeast (d := 1) ?_ (Nat.zero_le _)
  split
  · exact goes_methodRest hts hr (by omega) _ _
  split
  · exact goes_propertyRest hts hr (by omega) _ _
  split
  · exact goes_fieldRest hts hr (by omega) _ _ _ _
  · exact goes_unknownMember hts _ _

/-- **The rule for members goes on**: what has no known form takes a token all the same. -/
theorem goes_member (hn : level ≤ 2 * n + 1) : Goes ts n P 1 (member rules) := by
  refine Goes.checkpoint fun cp => Goes.get fun c₀ _ _ _ => ?_
  dsimp only
  have hfront : Goes ts n (· = c₀) 0 (seq [attributeLists, modifiers]) :=
    (goes_attributeLists hts).seq_cons (goes_modifiers hts).single
  refine (hfront.bind (e := 1) fun front => Goes.get fun c₁ _ _ _ => ?_).atLeast (by omega)
  split
  next k hk =>
    obtain ⟨hat, -⟩ : AtTypeKeyword c₁ ∧ production ts k = Production.typeDeclaration ts :=
      atTypeKeyword_of_typeDeclarationKind? hk
    exact (goes_typeDeclaration hts hr (by omega) cp front k).at hat
  next =>
  split
  · exact goes_unknownMember hts _ _
  split
  · exact goes_constructor hts hr (by omega) _ _
  refine Goes.checkpoint fun typeCp => ?_
  split
  · split
    · exact .unexpected _
    · exact goes_unknownMember hts _ _
  · exact (hr.type (by omega) true).andThen fun memberType =>
      (goes_typedMember hts hr (by omega) cp typeCp front memberType).atLeast (Nat.zero_le _)

/-! ## Namespaces

A file is read up to its end, because every member takes a token. -/

theorem goes_usingDirective (hn : level ≤ 2 * n + 2) : Goes ts n P 1 (usingDirective rules) :=
  goes_node <| .atLeast (
    (Goes.whenAt Goes.bump).seq_cons <| (Goes.expectWord hts "using").seq_cons <|
      (Goes.whenAt Goes.bump).seq_cons <|
      (Goes.whenAt (Goes.bump.seq_cons Goes.bump.single)).seq_cons <|
      (goes_typeName hts hr (by omega)).one.seq_cons (Goes.expect hts ";").single) (by omega)

theorem goes_namespaceDeclaration (hn : level ≤ 2 * n + 2) :
    Goes ts n P 1 (namespaceDeclaration rules) := by
  have hhead : Goes ts n P 1 (seq [expectWord "namespace", one (typeName rules)]) :=
    .atLeast ((Goes.expectWord hts "namespace").seq_cons
      (goes_typeName hts hr (by omega)).one.single) (by omega)
  refine Goes.checkpoint fun cp => hhead.andThen fun head => Goes.get fun c₀ _ _ _ => ?_
  split
  · refine Goes.bump.andThen fun semicolon => goes_node <| .seq_pure _ ?_
    exact (Goes.manyWhile (hr.namespaceMember (by omega)).one).single
  · refine goes_node <| .seq_pure _ <| .atLeast ?_ (Nat.zero_le 1)
    exact .atLeast ((Goes.expect hts "\x7b").seq_cons <|
      (Goes.untilBrace (hr.namespaceMember (by omega)).one).seq_cons
        (Goes.whenAt Goes.bump).single) (by omega)

/-- **The rule for members of namespaces goes on.** -/
theorem goes_namespaceMember (hn : level ≤ 2 * n + 1) : Goes ts n P 1 (namespaceMember rules) := by
  refine Goes.choose fun c₀ _ _ _ => ?_
  split
  · exact goes_usingDirective hts hr (by omega)
  split
  · exact goes_namespaceDeclaration hts hr (by omega)
  · exact goes_member hts hr hn

/-- **A whole file goes on**, from its first token. -/
theorem goes_compilationUnit (hn : level ≤ 2 * n + 1) : Goes ts n P 0 (compilationUnit rules) :=
  goes_node <| (Goes.manyWhile (goes_namespaceMember hts hr hn).one).seq_cons <|
    Goes.single .endOfFile

end Declarations

end CodeMend.Grammar
