import CodeMend.Proofs.Tree.Places

/-!
# CodeMend — what an expression begins and ends with

The first token of an expression belongs to the expression, or to an expression, a name, a type, a
parameter of a lambda or a list of arguments at its front, and so on.  It never belongs to a
statement: a lambda, the only expression that holds statements, has its parameters in front of them.

The mark of a division has an operand behind it.  So it is not what an expression ends with, and
neither are the parts that an expression may end with: names, types, patterns, lists, blocks and so
on.

* **`Production.beginning`** — the words that begin with a token or with a shape of some sort.
* **`Production.production_le_beginning`** — the children of what may stand at the front begin so.
* **`InOrder.kind_mem_initialKinds`** — the nodes at the front of an expression are of these kinds.
* **`Production.Closing`** — a language whose words have an end, and end with a shape of some sort.
* **`Production.production_le_ending`** — the children of what may stand at the end end so.
* **`Stands.isMark_lastOf`** — the last token of what may stand at the end does not divide.
-/

namespace CodeMend

open Tree
open scoped Computability

/-! ## Beginnings

How nodes may begin is found by an induction along the first children of a node. -/

namespace Production

variable {ts : Array Token} {p : NodeKind → Prop} {l m : Language Shape}
  {ls : List (Language Shape)}

/-- The words that begin with a token, or with a node of one of some kinds. -/
def beginning (p : NodeKind → Prop) : Language Shape :=
  {cs | ∀ id k ds rest, cs = .node id k ds :: rest → p k}

theorem word_le_beginning {sort : Token → Prop} : word ts sort ≤ beginning p := by
  rintro _ ⟨i, -, -, rfl⟩ id k ds rest h
  cases h

theorem part_le_beginning {q : Shape → Prop} (h : ∀ id k ds, q (.node id k ds) → p k) :
    part q ≤ beginning p := by
  rintro _ ⟨s, hs, rfl⟩ id k ds rest heq
  cases heq
  exact h id k ds hs

theorem a_le_beginning {k : NodeKind} (hk : p k) : a k ≤ beginning p := by
  refine part_le_beginning fun _ _ _ h => ?_
  obtain ⟨_, _, _, heq, rfl⟩ := h
  cases heq
  exact hk

theorem add_le_beginning (hl : l ≤ beginning p) (hm : m ≤ beginning p) : l + m ≤ beginning p := by
  rintro x (hx | hx)
  · exact hl hx
  · exact hm hx

theorem opt_le_beginning (hl : l ≤ beginning p) : opt l ≤ beginning p := by
  refine add_le_beginning (fun x hx => ?_) hl
  obtain rfl := (Language.mem_one x).mp hx
  intro _ _ _ _ h
  cases h

/-- Of two words one after the other, the first is at the front unless it is empty. -/
theorem mul_le_beginning (hl : l ≤ beginning p) (hm : [] ∈ l → m ≤ beginning p) :
    l * m ≤ beginning p := by
  rintro _ ⟨x, hx, y, hy, rfl⟩ id k ds rest h
  cases x with
  | nil => exact hm hx hy id k ds rest h
  | cons s x =>
    obtain ⟨rfl, -⟩ := List.cons.inj h
    exact hl hx id k ds x rfl

theorem cons_le_beginning (hl : l ≤ beginning p) (hls : [] ∈ l → ls.prod ≤ beginning p) :
    (l :: ls).prod ≤ beginning p := by
  rw [List.prod_cons]
  exact mul_le_beginning hl hls

theorem kstar_le_beginning (hl : l ≤ beginning p) : l∗ ≤ beginning p := by
  rintro x hx id k ds rest rfl
  obtain ⟨words, hwords, hall⟩ := Language.mem_kstar_iff_exists_nonempty.mp hx
  cases words with
  | nil => cases hwords
  | cons w words =>
    obtain ⟨hw, hne⟩ := hall w List.mem_cons_self
    cases w with
    | nil => exact absurd rfl hne
    | cons s w =>
      obtain ⟨rfl, -⟩ := List.cons.inj hwords
      exact hl hw id k ds w rfl

/-- The kinds of what may stand at the front of an expression. -/
def initialKinds : List NodeKind :=
  expressionKinds ++ plainKinds ++ [.bracketedArgumentList, .parameter, .parameterList,
    .attributeList]

theorem expr_le_beginning : expr ts ≤ beginning (· ∈ initialKinds) := by
  refine part_le_beginning fun _ _ _ h => ?_
  obtain ⟨⟨_, _, _, heq, hk⟩, -⟩ := h
  cases heq
  exact List.mem_append_left _ (List.mem_append_left _ hk)

theorem operand_le_beginning {g : Nat} : operand ts g ≤ beginning (· ∈ initialKinds) :=
  operand_le_expr.trans expr_le_beginning

theorem plainType_le_beginning : plainType ≤ beginning (· ∈ initialKinds) := by
  refine part_le_beginning fun _ _ _ h => ?_
  cases h.2 with
  | node _ _ _ hk _ => exact List.mem_append_left _ (List.mem_append_right _ hk)

theorem simpleName_le_beginning : part (IsSimpleName ts) ≤ beginning (· ∈ initialKinds) := by
  refine part_le_beginning fun _ _ _ h => ?_
  have hkinds : ∀ k ∈ nameKinds, k ∈ initialKinds := by decide
  obtain ⟨⟨_, _, _, heq, hk⟩, -⟩ := h
  cases heq
  exact hkinds _ hk

/-- The first word stands at the front. -/
theorem first_le_beginning (hl : l ≤ beginning p) (hne : [] ∉ l) : (l :: ls).prod ≤ beginning p :=
  cons_le_beginning hl fun h => absurd h hne

theorem expr_cons_le : (expr ts :: ls).prod ≤ beginning (· ∈ initialKinds) :=
  first_le_beginning expr_le_beginning (nil_notMem_part _)

theorem operand_cons_le {g : Nat} : (operand ts g :: ls).prod ≤ beginning (· ∈ initialKinds) :=
  first_le_beginning operand_le_beginning (nil_notMem_part _)

theorem plainType_cons_le : (plainType :: ls).prod ≤ beginning (· ∈ initialKinds) :=
  first_le_beginning plainType_le_beginning (nil_notMem_part _)

theorem word_cons_le {sort : Token → Prop} : (word ts sort :: ls).prod ≤ beginning p :=
  first_le_beginning word_le_beginning (nil_notMem_word ts _)

theorem bareWord_le_beginning : bareWord ts ≤ beginning p := word_le_beginning

theorem lambda_le_beginning {taken : NodeKind} (h : p taken) : lambda ts taken ≤ beginning p :=
  cons_le_beginning (opt_le_beginning word_le_beginning) fun _ =>
    first_le_beginning (a_le_beginning h) (nil_notMem_part _)

/-- **What begins like an expression has children that begin so.** -/
theorem production_le_beginning {k : NodeKind} (hk : k ∈ initialKinds) :
    production ts k ≤ beginning (· ∈ initialKinds) := by
  cases k with
  | identifierName => exact (word_le_beginning : word ts (·.isIdentifier = true) ≤ _)
  | predefinedType | literalExpression | thisExpression | baseExpression =>
    exact bareWord_le_beginning
  | qualifiedName | arrayType | nullableType | tupleElement | explicitInterfaceSpecifier =>
    exact plainType_cons_le
  | typeArgumentList | tupleType | arrayRankSpecifier | parameterList | bracketedArgumentList
  | tupleExpression | initializerExpression =>
    exact word_cons_le
  | memberAccessExpression | invocationExpression | elementAccessExpression
  | conditionalAccessExpression | postfixUnaryExpression | assignmentExpression =>
    exact expr_cons_le
  | asExpression | isPatternExpression | conditionalExpression => exact operand_cons_le
  | binaryExpression => exact production_binary_le.trans expr_cons_le
  | memberBindingExpression => exact simpleName_le_beginning
  | elementBindingExpression => exact a_le_beginning (by decide)
  | declarationExpression =>
    exact add_le_beginning plainType_cons_le
      (first_le_beginning (a_le_beginning (by decide)) (nil_notMem_part _))
  | simpleLambdaExpression | parenthesizedLambdaExpression => exact lambda_le_beginning (by decide)
  | parameter =>
    refine add_le_beginning ?_ ?_
    · exact cons_le_beginning (kstar_le_beginning (a_le_beginning (by decide))) fun _ =>
        cons_le_beginning (kstar_le_beginning word_le_beginning) fun _ => plainType_cons_le
    · exact cons_le_beginning (kstar_le_beginning word_le_beginning) fun _ =>
        cons_le_beginning (opt_le_beginning plainType_le_beginning) fun _ => word_cons_le
  | attributeList =>
    exact cons_le_beginning (kstar_le_beginning word_le_beginning) fun _ => word_cons_le
  | genericName | parenthesizedExpression | prefixUnaryExpression | awaitExpression
  | throwExpression | castExpression | objectCreationExpression | implicitObjectCreationExpression
  | arrayCreationExpression | implicitArrayCreationExpression | typeOfExpression
  | defaultExpression =>
    exact word_cons_le
  | _ => exact absurd hk (by decide)

end Production

namespace Tree

open Production

variable {t : Tree} {c m n : NodeId} {ns : List NodeId}

/-- A node that starts where the node that lists it starts is listed first. -/
theorem InOrder.exists_children_of_firstToken (h : InOrder t) (hc : c ∈ t.childNodes n)
    (hfirst : t.firstToken c = t.firstToken n) : ∃ rest, t.children n = .node c :: rest := by
  obtain ⟨front, back, hsplit⟩ := List.append_of_mem (mem_childNodes_iff.mp hc)
  cases front with
  | nil => exact ⟨back, hsplit⟩
  | cons d front =>
    have hpairs := h.children_pairwise n
    rw [hsplit] at hpairs
    have hlt : t.lastOf d < t.firstToken c := (List.pairwise_cons.mp hpairs).1 (.node c) (by simp)
    have hle : t.firstOf d ≤ t.lastOf d := by
      cases d with
      | token i => exact Nat.le_refl i
      | node k => exact (h.firstToken_le_lastToken k).1
    have hstart : t.firstToken n = t.firstOf d := h.firstToken_eq hsplit
    rw [hfirst, hstart] at hlt
    exact absurd hlt (Nat.not_lt.mpr hle)

/-- **The nodes at the front of an expression are of some kinds**, and no statement is among
them. -/
theorem InOrder.kind_mem_initialKinds (h : InOrder t) (hk : t.kind n ∈ initialKinds)
    (hrises : Rises t m ns n) (hfirst : t.firstToken m = t.firstToken n) :
    t.kind m ∈ initialKinds := by
  induction hrises with
  | here => exact hk
  | @up c p ns n hc hrises ih =>
    -- what lies between two nodes with one first token starts with it too
    have hup := (hrises.tokens_le h).1
    have hchild := (h.child_tokens_le hc).1
    have hsame : t.firstToken p = t.firstToken n := Nat.le_antisymm (hfirst ▸ hchild) hup
    have hp := ih hk hsame
    obtain ⟨rest, hchildren⟩ := h.exists_children_of_firstToken hc (hfirst.trans hsame.symm)
    obtain ⟨cs, hword, hstands⟩ := h.parsed.exists_children rfl fun heq => by
      rw [heq] at hp
      exact absurd hp (by decide)
    cases hstands with
    | node _ _ hcs _ hall =>
      rw [hchildren] at hcs
      cases cs with
      | nil => cases hcs
      | cons s cs =>
        cases s with
        | token i => cases hcs
        | node id k ds =>
          cases hcs
          have hkind := (hall _ List.mem_cons_self).kind_eq
          rw [hkind]
          exact production_le_beginning hp hword _ k ds cs rfl

end Tree

/-! ## Endings

In the same way it goes along the last children. -/

namespace Production

variable {ts : Array Token} {p : NodeKind → Prop} {l m : Language Shape}
  {ls : List (Language Shape)}

/-- The shape is a token other than the mark of a division, or a node of one of some kinds. -/
def Ends (ts : Array Token) (p : NodeKind → Prop) : Shape → Prop
  | .token i => i < ts.size ∧ (tokenAt ts i).isMark "/" = false
  | .node _ k _ => p k

/-- The words that end with such a shape. -/
def ending (ts : Array Token) (p : NodeKind → Prop) : Language Shape :=
  {cs | ∀ s ∈ cs.getLast?, Ends ts p s}

/-- Of two words one after the other, the second is at the end unless it is empty. -/
theorem append_mem_ending {x y : List Shape} (hy : y ∈ ending ts p)
    (hx : y = [] → x ∈ ending ts p) : x ++ y ∈ ending ts p := by
  intro s hs
  rw [List.getLast?_append] at hs
  cases hlast : y.getLast? with
  | none =>
    rw [hlast] at hs
    exact hx (List.getLast?_eq_none_iff.mp hlast) s hs
  | some s' =>
    rw [hlast] at hs
    exact hy s (hlast ▸ hs)

theorem nil_mem_ending : [] ∈ ending ts p := nofun

theorem singleton_mem_ending {s : Shape} (hs : Ends ts p s) : [s] ∈ ending ts p := by
  rintro _ ⟨⟩
  exact hs

theorem word_le_ending {sort : Token → Prop} (h : ∀ t, sort t → t.isMark "/" = false) :
    word ts sort ≤ ending ts p := by
  rintro _ ⟨i, hi, hsort, rfl⟩
  exact singleton_mem_ending (And.intro (Nat.lt_of_succ_lt hi) (h _ hsort))

theorem part_le_ending {q : Shape → Prop} (h : ∀ s, q s → Ends ts p s) :
    part q ≤ ending ts p := by
  rintro _ ⟨s, hs, rfl⟩
  exact singleton_mem_ending (h s hs)

theorem add_le_ending (hl : l ≤ ending ts p) (hm : m ≤ ending ts p) : l + m ≤ ending ts p := by
  rintro x (hx | hx)
  · exact hl hx
  · exact hm hx

theorem opt_le_ending (hl : l ≤ ending ts p) : opt l ≤ ending ts p := by
  refine add_le_ending (fun x hx => ?_) hl
  obtain rfl := (Language.mem_one x).mp hx
  exact nil_mem_ending

theorem kstar_le_ending (hl : l ≤ ending ts p) : l∗ ≤ ending ts p := by
  rintro x hx
  obtain ⟨words, rfl, hall⟩ := Language.mem_kstar.mp hx
  clear hx
  induction words with
  | nil => exact nil_mem_ending
  | cons w words ih =>
    obtain ⟨hw, hall⟩ := List.forall_mem_cons.mp hall
    exact append_mem_ending (ih hall) fun _ => hl hw

theorem cons_le_ending (hls : ls.prod ≤ ending ts p) (hl : [] ∈ ls.prod → l ≤ ending ts p) :
    (l :: ls).prod ≤ ending ts p := by
  intro x hx
  obtain ⟨y, hy, z, hz, rfl⟩ := mem_prod_cons.mp hx
  exact append_mem_ending (hls hz) fun hnil => hl (hnil ▸ hz) hy

/-- The words of a language have an end, and they end with such a shape. -/
def Closing (ts : Array Token) (p : NodeKind → Prop) (l : Language Shape) : Prop :=
  l ≤ ending ts p ∧ [] ∉ l

theorem Closing.last (h : Closing ts p l) : Closing ts p [l].prod := by
  rwa [List.prod_singleton]

/-- What has an end ends so, whatever stands in front of it. -/
theorem Closing.behind (h : Closing ts p ls.prod) : Closing ts p (l :: ls).prod := by
  refine ⟨cons_le_ending h.1 fun hnil => absurd hnil h.2, ?_⟩
  rw [List.prod_cons, nil_mem_mul_iff]
  exact fun hnil => h.2 hnil.2

theorem Closing.add (hl : Closing ts p l) (hm : Closing ts p m) : Closing ts p (l + m) :=
  ⟨add_le_ending hl.1 hm.1, fun hnil => hnil.elim hl.2 hm.2⟩

/-- What may be missing stands behind what has an end. -/
theorem Closing.opt_behind (hl : Closing ts p l) (hls : ls.prod ≤ ending ts p) :
    Closing ts p (l :: ls).prod := by
  refine ⟨cons_le_ending hls fun _ => hl.1, ?_⟩
  rw [List.prod_cons, nil_mem_mul_iff]
  exact fun hnil => hl.2 hnil.1

theorem closing_word {sort : Token → Prop} (h : ∀ t, sort t → t.isMark "/" = false) :
    Closing ts p (word ts sort) :=
  ⟨word_le_ending h, nil_notMem_word ts _⟩

theorem closing_hasKind {q : NodeKind → Prop} (h : ∀ k, q k → p k) :
    Closing ts p (part (HasKind q)) :=
  ⟨part_le_ending fun _ ⟨_, k, _, hs, hk⟩ => hs ▸ h k hk, nil_notMem_part _⟩

theorem closing_a {k : NodeKind} (hk : p k) : Closing ts p (a k) :=
  closing_hasKind fun _ h => h ▸ hk

theorem closing_mark {text : String} (h : text ≠ "/") : Closing ts p (mark ts text) := by
  refine closing_word fun t ht => ?_
  have htext := Parser.text_of_isMark ht
  simp [Token.isMark, htext, h]

theorem closing_enclosed {opening close : String} (h : close ≠ "/") :
    Closing ts p (enclosed ts opening l close) :=
  (closing_mark h).last.behind.behind

theorem closing_bareWord : Closing ts p (bareWord ts) :=
  closing_word fun _ h => by simp [Token.isMark, h]

theorem closing_identifier : Closing ts p (word ts fun t => t.isIdentifier = true) :=
  closing_word fun _ h => by simp [Token.isMark, Parser.kind_of_isIdentifier h]

/-- The kinds of what may stand at the end of an expression, an argument or a parameter. -/
def finalKinds : List NodeKind :=
  expressionKinds ++ [.qualifiedName, .arrayType, .nullableType, .tupleType, .typeArgumentList,
    .arrayRankSpecifier, .argumentList, .bracketedArgumentList, .singleVariableDesignation,
    .parenthesizedVariableDesignation, .constantPattern, .declarationPattern, .typePattern,
    .notPattern, .equalsValueClause, .argument, .parameter, .block]

theorem closing_expr : Closing ts (· ∈ finalKinds) (expr ts) :=
  ⟨expr_le.trans (closing_hasKind fun _ h => List.mem_append_left _ h).1, nil_notMem_part _⟩

theorem closing_type : Closing ts (· ∈ finalKinds) (part (HasKind fun k => k.isType = true)) :=
  closing_hasKind fun k hk => by
    cases k <;> first | decide | exact absurd hk (by decide)

theorem closing_plainType : Closing ts (· ∈ finalKinds) plainType :=
  ⟨(part_mono fun _ h => h.1).trans closing_type.1, nil_notMem_part _⟩

theorem closing_plain {k : NodeKind} (hk : k ∈ finalKinds) :
    Closing ts (· ∈ finalKinds) (plain k) :=
  ⟨(part_mono fun _ h => h.1).trans (closing_a hk).1, nil_notMem_part _⟩

theorem closing_pattern : Closing ts (· ∈ finalKinds) (part IsPattern) :=
  closing_hasKind fun k hk => by
    cases k <;> first | decide | exact absurd hk (by decide)

theorem closing_simpleName : Closing ts (· ∈ finalKinds) (part (IsSimpleName ts)) := by
  have hnames : Closing ts (· ∈ finalKinds) (part (HasKind (· ∈ nameKinds))) :=
    closing_hasKind (by decide)
  exact ⟨simpleName_le.trans hnames.1, nil_notMem_part _⟩

/-- **What ends like an expression has children that end so.** -/
theorem production_le_ending {k : NodeKind} (hk : k ∈ finalKinds) :
    production ts k ≤ ending ts (· ∈ finalKinds) := by
  have hinitializer : opt (a .initializerExpression) ≤ ending ts (· ∈ finalKinds) :=
    opt_le_ending (closing_a (by decide)).1
  have harguments : [opt (a .argumentList), opt (a .initializerExpression)].prod ≤
      ending ts (· ∈ finalKinds) :=
    cons_le_ending (by rwa [List.prod_singleton]) fun _ =>
      opt_le_ending (closing_a (by decide)).1
  -- One production at a time: its last part, or the one in front of it where that may be missing.
  cases k with
  | identifierName => exact closing_identifier.1
  | predefinedType | literalExpression | thisExpression | baseExpression
  | singleVariableDesignation =>
    exact closing_bareWord.1
  | typeArgumentList | arrayRankSpecifier | tupleType | argumentList | bracketedArgumentList
  | parenthesizedVariableDesignation | tupleExpression | initializerExpression | block
  | parenthesizedExpression =>
    exact (closing_enclosed (by decide)).1
  | genericName => exact (closing_plain (by decide)).last.behind.1
  | arrayType =>
    refine (closing_plainType.opt_behind ?_).1
    rw [List.prod_singleton]
    exact kstar_le_ending (closing_a (by decide)).1
  | nullableType => exact (closing_mark (by decide)).last.behind.1
  | typePattern => exact closing_plainType.1
  | qualifiedName | asExpression => exact closing_plainType.last.behind.behind.1
  | notPattern => exact closing_pattern.last.behind.1
  | isPatternExpression => exact closing_pattern.last.behind.behind.1
  | declarationPattern => exact (closing_a (by decide)).last.behind.1
  | declarationExpression =>
    exact ((closing_a (by decide)).last.behind.add (closing_a (by decide)).last.behind).1
  | constantPattern => exact closing_expr.1
  | equalsValueClause | prefixUnaryExpression | awaitExpression | throwExpression =>
    exact closing_expr.last.behind.1
  | argument | conditionalAccessExpression => exact closing_expr.last.behind.behind.1
  | castExpression | assignmentExpression => exact closing_expr.last.behind.behind.behind.1
  | conditionalExpression => exact closing_expr.last.behind.behind.behind.behind.1
  | binaryExpression =>
    exact production_binary_le.trans closing_expr.last.behind.behind.behind.1
  | postfixUnaryExpression =>
    refine (closing_word fun t ht => ?_).last.behind.1
    rcases ht with ht | ht | ht <;> simp [Token.isMark, Parser.text_of_isMark ht]
  | memberAccessExpression => exact closing_simpleName.last.behind.behind.1
  | memberBindingExpression => exact closing_simpleName.1
  | invocationExpression | elementAccessExpression =>
    exact (closing_a (by decide)).last.behind.1
  | elementBindingExpression => exact (closing_a (by decide)).1
  | objectCreationExpression => exact (closing_plainType.opt_behind harguments).behind.1
  | implicitObjectCreationExpression => exact (closing_bareWord.opt_behind harguments).1
  | arrayCreationExpression =>
    exact (closing_type.opt_behind (by rwa [List.prod_singleton])).behind.1
  | implicitArrayCreationExpression =>
    exact (closing_a (by decide)).last.behind.behind.behind.behind.1
  | typeOfExpression | defaultExpression =>
    exact (closing_mark (by decide)).last.behind.behind.behind.1
  | simpleLambdaExpression | parenthesizedLambdaExpression =>
    exact ((closing_a (by decide)).add closing_expr).last.behind.last.behind.behind.1
  | parameter =>
    have hname : Closing ts (· ∈ finalKinds) (word ts fun t => t.isIdentifier = true) :=
      closing_identifier
    refine (Closing.add ?_ hname.last.behind.behind).1
    refine (hname.opt_behind ?_).behind.behind.behind
    rw [List.prod_singleton]
    exact opt_le_ending (closing_a (by decide)).1
  | _ => exact absurd hk (by decide)

end Production

namespace Tree

open Production

variable {t : Tree} {n : NodeId} {s : Shape}

/-- **The last token of what may stand at the end does not divide.**  By induction along the
shapes that end a shape: each stands last among the children of the one before. -/
theorem Stands.isMark_lastOf (hs : Stands t s) (h : InOrder t)
    (hends : Ends t.tokens (· ∈ finalKinds) s) :
    (t.token (t.lastOf s.asChild)).isMark "/" = false := by
  induction hs with
  | token i =>
    obtain ⟨hi, hmark⟩ := hends
    show (t.token i).isMark "/" = false
    rwa [token_eq_tokenAt hi]
  | @node id k cs hlt hk hchildren hword hall ih =>
    have hne : cs ≠ [] := fun hnil => nil_notMem_production t.tokens k (hnil ▸ hword)
    -- the shape ends with its last child
    obtain ⟨front, last, rfl⟩ := List.eq_nil_or_concat cs |>.resolve_left hne
    have hlast : last ∈ front ++ [last] := by simp
    rw [List.concat_eq_append] at hchildren hword ih
    have hend := production_le_ending hends hword last (by simp)
    rw [List.map_append] at hchildren
    have htoken : t.lastToken id = t.lastOf last.asChild := h.lastToken_eq hchildren
    show (t.token (t.lastToken id)).isMark "/" = false
    rw [htoken]
    exact ih last hlast hend

theorem InOrder.isMark_lastToken (h : InOrder t) (hn : n < t.nodeCount)
    (hk : t.kind n ∈ finalKinds) : (t.token (t.lastToken n)).isMark "/" = false := by
  obtain ⟨cs, hstands, -⟩ := h.parsed.stands n hn
  exact hstands.isMark_lastOf h hk

end Tree

end CodeMend
