import CodeMend.Proofs.Flow.Paths
import CodeMend.Proofs.Lists

/-!
# CodeMend — the forms of nodes

What the form of a node tells about the forms of the nodes under it.  `HasForm` hides how deep the
reading went; each kind of node has one lemma that opens its form.

* **`HasForm`**, **`HasStatement`** — a node has a form.
* **`HasForm.binary`** and so on — the form of a node, from the forms under it.
* **`Names.of_targets`**, **`Names.of_place`** — a form is written to only where its node names.
-/

namespace CodeMend.Flow

variable {b : Binder} {n : NodeId} {e : Expr} {s : Stmt} {v : VariableId}

/-! ## The kinds of nodes with a view

A view of a node tells its kind. -/

theorem kind_of_invocation {t : Tree} {view : InvocationView}
    (h : InvocationView.ofNode? t n = some view) : t.kind n = .invocationExpression := by
  unfold InvocationView.ofNode? at h
  split at h
  · cases h
  next hk => simpa using hk

theorem kind_of_argument {t : Tree} {view : ArgumentView}
    (h : ArgumentView.ofNode? t n = some view) : t.kind n = .argument := by
  unfold ArgumentView.ofNode? at h
  split at h
  · cases h
  next hk => simpa using hk

theorem kind_of_if {t : Tree} {view : IfView} (h : IfView.ofNode? t n = some view) :
    t.kind n = .ifStatement := by
  unfold IfView.ofNode? at h
  split at h
  · cases h
  next hk => simpa using hk

/-! ## Expressions

Reading is a function of the node, and proofs want it the other way round: given the kind of a node
that has a form, what the form is and what forms the nodes under it have. -/

/-- The expression of a node has the form. -/
def HasForm (b : Binder) (n : NodeId) (e : Expr) : Prop := ∃ fuel, readExprFuel b fuel n = some e

/-- The expressions of some nodes have the forms. -/
def HaveForms (b : Binder) (ns : List NodeId) (es : List Expr) : Prop :=
  ∃ fuel, ns.mapM (readExprFuel b fuel) = some es

theorem hasForm_of_readExpr? (h : readExpr? b n = some e) : HasForm b n e := ⟨_, h⟩

/-- A form is one step of reading away from the forms under it. -/
theorem HasForm.step (h : HasForm b n e) :
    ∃ fuel, readExprStep b (readExprFuel b fuel) n = some e := by
  obtain ⟨fuel, h⟩ := h
  cases fuel with
  | zero => cases h
  | succ fuel => exact ⟨fuel, h⟩

namespace HasForm

theorem identifier (h : HasForm b n e) (hk : b.tree.kind n = .identifierName) :
    e = .name (namedVariable? b n) := by
  obtain ⟨fuel, h⟩ := h.step
  simpa [readExprStep, hk] using h.symm

theorem literal (h : HasForm b n e) (hk : b.tree.kind n = .literalExpression) :
    e = readLiteral b n := by
  obtain ⟨fuel, h⟩ := h.step
  simpa [readExprStep, hk] using h.symm

theorem leaf (h : HasForm b n e) (hk : b.tree.kind n ∈ leafKinds) : e = .constant := by
  obtain ⟨fuel, h⟩ := h.step
  simp only [leafKinds, List.mem_cons, List.not_mem_nil, or_false] at hk
  rcases hk with hk | hk | hk | hk | hk | hk | hk | hk | hk | hk | hk | hk <;>
    simp [readExprStep, hk] at h <;> exact h.symm

/-- Operands one after the other, in braces or not. -/
theorem straight (h : HasForm b n e) (hk : b.tree.kind n ∈ straightKinds) :
    ∃ es, HaveForms b (b.tree.childNodes n) es ∧
      (e = .ofList es ∨ e = .initializer (.ofList es)) := by
  obtain ⟨fuel, h⟩ := h.step
  simp only [straightKinds, List.mem_cons, List.not_mem_nil, or_false] at hk
  rcases hk with hk | hk | hk | hk | hk | hk <;> simp [readExprStep, hk] at h
  case inr.inr.inr.inr.inr =>
    obtain ⟨es, hes, rfl⟩ := h
    exact ⟨es, ⟨fuel, hes⟩, Or.inr rfl⟩
  all_goals
    obtain ⟨es, hes, rfl⟩ := h
    exact ⟨es, ⟨fuel, hes⟩, Or.inl rfl⟩

/-- A node of which only some nodes are evaluated, one after the other. -/
theorem access (h : HasForm b n e)
    (hk : b.tree.kind n = .memberAccessExpression ∨ b.tree.kind n = .asExpression) :
    ∃ es, HaveForms b ((b.tree.childNodes n).take 1) es ∧ e = .ofList es := by
  obtain ⟨fuel, h⟩ := h.step
  rcases hk with hk | hk <;> simp [readExprStep, hk] at h <;>
  · obtain ⟨es, hes, rfl⟩ := h
    exact ⟨es, ⟨fuel, hes⟩, rfl⟩

theorem cast (h : HasForm b n e) (hk : b.tree.kind n = .castExpression) :
    ∃ es, HaveForms b (((b.tree.childNodes n).drop 1).take 1) es ∧ e = .ofList es := by
  obtain ⟨fuel, h⟩ := h.step
  simp only [readExprStep, hk, Option.map_eq_some_iff] at h
  obtain ⟨es, hes, rfl⟩ := h
  exact ⟨es, ⟨fuel, hes⟩, rfl⟩

theorem tuple (h : HasForm b n e) (hk : b.tree.kind n = .tupleExpression) :
    ∃ es, HaveForms b (tupleItems b.tree n) es ∧ e = es.foldr .tuple .constant := by
  obtain ⟨fuel, h⟩ := h.step
  simp only [readExprStep, hk, Option.bind_eq_bind, Option.bind_eq_some_iff, Option.pure_def,
    Option.some.injEq] at h
  obtain ⟨es, hes, rfl⟩ := h
  exact ⟨es, ⟨fuel, hes⟩, rfl⟩

theorem throwing (h : HasForm b n e) (hk : b.tree.kind n = .throwExpression) :
    ∃ es, HaveForms b (b.tree.childNodes n) es ∧ e = .throwing (.ofList es) := by
  obtain ⟨fuel, h⟩ := h.step
  simp only [readExprStep, hk, Option.map_map, Option.map_eq_some_iff] at h
  obtain ⟨es, hes, rfl⟩ := h
  exact ⟨es, ⟨fuel, hes⟩, rfl⟩

theorem declaration (h : HasForm b n e) (hk : b.tree.kind n = .declarationExpression) :
    e = .declaration (designatedVariables b n) := by
  obtain ⟨fuel, h⟩ := h.step
  simpa [readExprStep, hk] using h.symm

theorem pattern (h : HasForm b n e) (hk : b.tree.kind n = .declarationPattern) :
    e = .pattern (designatedVariables b n) := by
  obtain ⟨fuel, h⟩ := h.step
  simpa [readExprStep, hk] using h.symm

/-! ## Operators

Each kind of operator gives its operands to one form. -/

theorem parenthesized (h : HasForm b n e) (hk : b.tree.kind n = .parenthesizedExpression)
    {inner : NodeId} {rest : List NodeId} (hn : b.tree.childNodes n = inner :: rest) :
    ∃ i, HasForm b inner i ∧ e = .parenthesized i := by
  obtain ⟨fuel, h⟩ := h.step
  simp only [readExprStep, hk, hn, Option.bind_eq_bind, Option.bind_eq_some_iff, Option.pure_def,
    Option.some.injEq] at h
  obtain ⟨i, hi, rfl⟩ := h
  exact ⟨i, ⟨fuel, hi⟩, rfl⟩

theorem unary (h : HasForm b n e)
    (hk : b.tree.kind n = .prefixUnaryExpression ∨ b.tree.kind n = .postfixUnaryExpression)
    {operand : NodeId} {rest : List NodeId} (hn : b.tree.childNodes n = operand :: rest) :
    ∃ o, HasForm b operand o ∧ e = unaryOperation b.tree n o := by
  obtain ⟨fuel, h⟩ := h.step
  rcases hk with hk | hk <;>
    simp only [readExprStep, hk, hn, Option.bind_eq_bind, Option.bind_eq_some_iff, Option.pure_def,
      Option.some.injEq] at h <;>
  · obtain ⟨o, ho, rfl⟩ := h
    exact ⟨o, ⟨fuel, ho⟩, rfl⟩

section Pairs

variable {left right : NodeId} {rest : List NodeId}

theorem binary (h : HasForm b n e) (hk : b.tree.kind n = .binaryExpression)
    (hn : b.tree.childNodes n = left :: right :: rest) :
    ∃ l r, HasForm b left l ∧ HasForm b right r ∧
      e = binaryOperation (operatorText b.tree n) l r := by
  obtain ⟨fuel, h⟩ := h.step
  simp only [readExprStep, hk, hn, Option.bind_eq_bind, Option.bind_eq_some_iff, Option.pure_def,
    Option.some.injEq] at h
  obtain ⟨l, hl, r, hr, rfl⟩ := h
  exact ⟨l, r, ⟨fuel, hl⟩, ⟨fuel, hr⟩, rfl⟩

theorem assignment (h : HasForm b n e) (hk : b.tree.kind n = .assignmentExpression)
    (hn : b.tree.childNodes n = left :: right :: rest) :
    ∃ l r, HasForm b left l ∧ HasForm b right r ∧
      e = Flow.assignment (operatorText b.tree n) l r := by
  obtain ⟨fuel, h⟩ := h.step
  simp only [readExprStep, hk, hn, Option.bind_eq_bind, Option.bind_eq_some_iff, Option.pure_def,
    Option.some.injEq] at h
  obtain ⟨l, hl, r, hr, rfl⟩ := h
  exact ⟨l, r, ⟨fuel, hl⟩, ⟨fuel, hr⟩, rfl⟩

theorem conditionalAccess (h : HasForm b n e) (hk : b.tree.kind n = .conditionalAccessExpression)
    (hn : b.tree.childNodes n = left :: right :: rest) :
    ∃ l r, HasForm b left l ∧ HasForm b right r ∧ e = .optional l r := by
  obtain ⟨fuel, h⟩ := h.step
  simp only [readExprStep, hk, hn, Option.bind_eq_bind, Option.bind_eq_some_iff, Option.pure_def,
    Option.some.injEq] at h
  obtain ⟨l, hl, r, hr, rfl⟩ := h
  exact ⟨l, r, ⟨fuel, hl⟩, ⟨fuel, hr⟩, rfl⟩

/-- Behind an operand that is asked for a pattern, the pattern is taken as an operand too. -/
theorem isPattern (h : HasForm b n e) (hk : b.tree.kind n = .isPatternExpression)
    (hn : b.tree.childNodes n = [left, right]) :
    ∃ l r, HasForm b left l ∧ HasForm b right r ∧ e = .seq l (.seq r .constant) := by
  obtain ⟨fuel, h⟩ := h.step
  simp only [readExprStep, hk, hn, List.mapM_cons, List.mapM_nil, Option.map_eq_some_iff,
    Option.bind_eq_bind, Option.bind_eq_some_iff, Option.pure_def, Option.some.injEq] at h
  obtain ⟨es, ⟨l, hl, es', ⟨r, hr, es'', rfl, rfl⟩, rfl⟩, rfl⟩ := h
  exact ⟨l, r, ⟨fuel, hl⟩, ⟨fuel, hr⟩, rfl⟩

end Pairs

theorem notPattern (h : HasForm b n e) (hk : b.tree.kind n = .notPattern) {inner : NodeId}
    (hn : b.tree.childNodes n = [inner]) :
    ∃ i, HasForm b inner i ∧ e = .seq i .constant := by
  obtain ⟨fuel, h⟩ := h.step
  simp only [readExprStep, hk, hn, List.mapM_cons, List.mapM_nil, Option.map_eq_some_iff,
    Option.bind_eq_bind, Option.bind_eq_some_iff, Option.pure_def, Option.some.injEq] at h
  obtain ⟨es, ⟨i, hi, es', rfl, rfl⟩, rfl⟩ := h
  exact ⟨i, ⟨fuel, hi⟩, rfl⟩

theorem conditional (h : HasForm b n e) (hk : b.tree.kind n = .conditionalExpression)
    {test first second : NodeId} {rest : List NodeId}
    (hn : b.tree.childNodes n = test :: first :: second :: rest) :
    ∃ t x y, HasForm b test t ∧ HasForm b first x ∧ HasForm b second y ∧
      e = .conditional t x y := by
  obtain ⟨fuel, h⟩ := h.step
  simp only [readExprStep, hk, hn, Option.bind_eq_bind, Option.bind_eq_some_iff, Option.pure_def,
    Option.some.injEq] at h
  obtain ⟨t, ht, x, hx, y, hy, rfl⟩ := h
  exact ⟨t, x, y, ⟨fuel, ht⟩, ⟨fuel, hx⟩, ⟨fuel, hy⟩, rfl⟩

/-! ## Calls and creations

The parts of a call stand under different nodes, so the views come in here. -/

theorem call (h : HasForm b n e) {view : InvocationView}
    (hview : InvocationView.ofNode? b.tree n = some view) :
    ∃ callee fuel es, HasForm b view.callee callee ∧
      (view.argumentViews b.tree).mapM (readPassed b (readExprFuel b fuel)) = some es ∧
      e = .call callee (.ofList es) := by
  have hk := kind_of_invocation hview
  obtain ⟨fuel, h⟩ := h.step
  simp only [readExprStep, hk, hview, Option.bind_eq_bind, Option.bind_eq_some_iff, Option.pure_def,
    Option.some.injEq, Option.bind_some] at h
  obtain ⟨es, hes, callee, hcallee, rfl⟩ := h
  exact ⟨callee, fuel, es, ⟨fuel, hcallee⟩, hes, rfl⟩

/-- A list of arguments apart from a call: they are taken as operands. -/
theorem arguments (h : HasForm b n e)
    (hk : b.tree.kind n = .argumentList ∨ b.tree.kind n = .bracketedArgumentList) :
    ∃ es, HaveForms b (b.tree.childNodes n) es ∧ e = .ofList es := by
  obtain ⟨fuel, h⟩ := h.step
  rcases hk with hk | hk <;> simp [readExprStep, hk] at h <;>
  · obtain ⟨es, hes, rfl⟩ := h
    exact ⟨es, ⟨fuel, hes⟩, rfl⟩

theorem argument (h : HasForm b n e) {view : ArgumentView}
    (hview : ArgumentView.ofNode? b.tree n = some view) :
    ∃ i, HasForm b view.expression i ∧ e = .argument (passMode b.tree view) i := by
  have hk := kind_of_argument hview
  obtain ⟨fuel, h⟩ := h.step
  simp only [readExprStep, hk, hview, Option.bind_eq_bind, Option.bind_eq_some_iff, Option.pure_def,
    Option.some.injEq, Option.bind_some] at h
  obtain ⟨i, hi, rfl⟩ := h
  exact ⟨i, ⟨fuel, hi⟩, rfl⟩

/-- What stands under the creation of an object or an array, apart from its type. -/
theorem creation (h : HasForm b n e)
    (hk : b.tree.kind n = .objectCreationExpression ∨ b.tree.kind n = .arrayCreationExpression) :
    ∃ es, HaveForms b (createdNodes b.tree n) es ∧ e = .ofList es := by
  obtain ⟨fuel, h⟩ := h.step
  rcases hk with hk | hk <;> simp [readExprStep, hk] at h <;>
  · obtain ⟨es, hes, rfl⟩ := h
    exact ⟨es, ⟨fuel, hes⟩, rfl⟩

theorem implicitCreation (h : HasForm b n e)
    (hk : b.tree.kind n = .implicitObjectCreationExpression) :
    ∃ es, HaveForms b (b.tree.childNodes n) es ∧ e = .ofList es := by
  obtain ⟨fuel, h⟩ := h.step
  simp only [readExprStep, hk, Option.map_eq_some_iff] at h
  obtain ⟨es, hes, rfl⟩ := h
  exact ⟨es, ⟨fuel, hes⟩, rfl⟩

theorem initializer (h : HasForm b n e) (hk : b.tree.kind n = .initializerExpression) :
    ∃ es, HaveForms b (b.tree.childNodes n) es ∧ e = .initializer (.ofList es) := by
  obtain ⟨fuel, h⟩ := h.step
  simp only [readExprStep, hk, Option.map_map, Option.map_eq_some_iff] at h
  obtain ⟨es, hes, rfl⟩ := h
  exact ⟨es, ⟨fuel, hes⟩, rfl⟩

end HasForm

/-! ## What a form is written to

Only a name, a declaration, and parentheses and tuples around them are written to. -/

@[simp]
theorem targets_ofList (es : List Expr) : (Expr.ofList es).targets = [] := by
  cases es <;> rfl

theorem mem_targets_foldr_tuple {es : List Expr}
    (h : v ∈ (es.foldr Expr.tuple .constant).targets) : ∃ e ∈ es, v ∈ e.targets := by
  induction es with
  | nil => cases h
  | cons e es ih =>
    rw [List.foldr_cons, Expr.targets, List.mem_append] at h
    rcases h with h | h
    · exact ⟨e, List.mem_cons_self, h⟩
    · obtain ⟨e', he', hv⟩ := ih h
      exact ⟨e', List.mem_cons_of_mem _ he', hv⟩

theorem namedVariable?_of_targets (h : v ∈ (Expr.name (namedVariable? b n)).targets) :
    namedVariable? b n = some v := by
  simpa [Expr.targets] using h

/-- The place of an argument that is given out is written to only where it names. -/
theorem Names.of_place {fuel : Nat} (h : v ∈ (readPlaceFuel b fuel n).targets) : Names b n v := by
  induction fuel generalizing n with
  | zero => cases h
  | succ fuel ih =>
    rw [readPlaceFuel, readPlaceStep] at h
    split at h
    next hk => exact .name hk (namedVariable?_of_targets h)
    next hk =>
      split at h
      next inner rest hn => exact .parenthesized hk hn (ih h)
      next => cases h
    next hk => exact .declaration hk h
    next hk =>
      obtain ⟨e, he, hv⟩ := mem_targets_foldr_tuple h
      obtain ⟨item, hitem, rfl⟩ := List.mem_map.mp he
      exact .tuple hk hitem (ih hv)
    next => cases h

/-- The forms of operations are not written to. -/
theorem targets_readLiteral : (readLiteral b n).targets = [] := by
  unfold readLiteral
  dsimp only
  split
  · rfl
  · split <;> rfl

theorem targets_assignment (operator : String) (target value : Expr) :
    (assignment operator target value).targets = [] := rfl

theorem targets_binaryOperation (operator : String) (left right : Expr) :
    (binaryOperation operator left right).targets = [] := by
  unfold binaryOperation
  split <;> rfl

theorem targets_unaryOperation (operand : Expr) :
    (unaryOperation b.tree n operand).targets = [] := by
  unfold unaryOperation
  split
  · rfl
  · split <;> rfl

theorem receivers_ofList (es : List Expr) : (Expr.ofList es).receivers = Expr.ofList es := by
  cases es <;> rfl

theorem receivers_readLiteral : (readLiteral b n).receivers = readLiteral b n := by
  unfold readLiteral
  dsimp only
  split
  · rfl
  · split <;> rfl

theorem receivers_binaryOperation (operator : String) (left right : Expr) :
    (binaryOperation operator left right).receivers = binaryOperation operator left right := by
  unfold binaryOperation
  split <;> rfl

theorem receivers_unaryOperation (operand : Expr) :
    (unaryOperation b.tree n operand).receivers = unaryOperation b.tree n operand := by
  unfold unaryOperation
  split
  · rfl
  · split <;> rfl

/-- Nothing but a place has a form that is written to, or that is not evaluated as it stands. -/
theorem form_of_otherKind {read : NodeId → Option Expr} (h : readExprStep b read n = some e)
    (hk : b.tree.kind n ∉ placeKinds) : e.targets = [] ∧ e.receivers = e := by
  unfold readExprStep at h
  dsimp only at h
  split at h <;> rename_i hkind
  all_goals first | exact absurd (by rw [hkind]; decide) hk | skip
  all_goals
    try split at h
    all_goals
      try simp only [Option.map_eq_some_iff, Option.bind_eq_some_iff, Option.bind_eq_bind,
        Option.pure_def, Option.some.injEq] at h
      grind [Expr.targets, Expr.receivers, targets_ofList, receivers_ofList, targets_readLiteral,
        receivers_readLiteral, targets_assignment, assignment, targets_binaryOperation,
        receivers_binaryOperation, targets_unaryOperation, receivers_unaryOperation]

/-- **A form is written to only where its node names.** -/
theorem Names.of_targets (h : HasForm b n e) (hv : v ∈ e.targets) : Names b n v := by
  obtain ⟨fuel, h⟩ := h
  induction fuel generalizing n e with
  | zero => cases h
  | succ fuel ih =>
    by_cases hk : b.tree.kind n ∈ placeKinds
    · simp only [placeKinds, List.mem_cons, List.not_mem_nil, or_false] at hk
      rcases hk with hk | hk | hk | hk
      · obtain rfl := HasForm.identifier ⟨_, h⟩ hk
        exact .name hk (namedVariable?_of_targets hv)
      · obtain rfl := HasForm.declaration ⟨_, h⟩ hk
        exact .declaration hk hv
      · simp only [readExprFuel, readExprStep, hk] at h
        cases hn : b.tree.childNodes n with
        | nil =>
          rw [hn] at h
          obtain rfl := Option.some.inj h
          cases hv
        | cons inner rest =>
          simp only [hn, Option.bind_eq_bind, Option.bind_eq_some_iff, Option.pure_def,
            Option.some.injEq] at h
          obtain ⟨i, hi, rfl⟩ := h
          exact .parenthesized hk hn (ih (e := i) hv hi)
      · simp only [readExprFuel, readExprStep, hk, Option.bind_eq_bind, Option.bind_eq_some_iff,
          Option.pure_def, Option.some.injEq] at h
        obtain ⟨es, hes, rfl⟩ := h
        obtain ⟨i, hi, hiv⟩ := mem_targets_foldr_tuple hv
        obtain ⟨item, hitem, hform⟩ := mem_of_mapM hes hi
        exact .tuple hk hitem (ih hiv hform)
    · rw [(form_of_otherKind h hk).1] at hv
      cases hv

/-! ## Statements

The same for statements, whose parts may be left out in more ways. -/

/-- The statement of a node has the form. -/
def HasStatement (b : Binder) (n : NodeId) (s : Stmt) : Prop :=
  ∃ fuel jumps, readStmtFuel b fuel jumps n = some s

/-- The statements of some nodes have the forms. -/
def HaveStatements (b : Binder) (ns : List NodeId) (ss : List Stmt) : Prop :=
  ∃ fuel jumps, ns.mapM (readStmtFuel b fuel jumps) = some ss

theorem HasStatement.step (h : HasStatement b n s) :
    ∃ fuel jumps, readStmtStep b (readStmtFuel b fuel) jumps n = some s := by
  obtain ⟨fuel, jumps, h⟩ := h
  cases fuel with
  | zero => cases h
  | succ fuel => exact ⟨fuel, jumps, h⟩

namespace HasStatement

theorem block (h : HasStatement b n s) (hk : b.tree.kind n = .block) :
    ∃ ss, HaveStatements b (b.tree.childNodes n) ss ∧ s = .ofList ss := by
  obtain ⟨fuel, jumps, h⟩ := h.step
  simp only [readStmtStep, hk, Option.map_eq_some_iff] at h
  obtain ⟨ss, hss, rfl⟩ := h
  exact ⟨ss, ⟨fuel, jumps, hss⟩, rfl⟩

theorem empty (h : HasStatement b n s) (hk : b.tree.kind n = .emptyStatement) : s = .skip := by
  obtain ⟨fuel, jumps, h⟩ := h.step
  simpa [readStmtStep, hk] using h.symm

theorem localDeclaration (h : HasStatement b n s) (hk : b.tree.kind n = .localDeclarationStatement)
    {declaration : NodeId} (hd : b.tree.childOfKind? n .variableDeclaration = some declaration) :
    readDeclaration? b declaration = some s := by
  obtain ⟨fuel, jumps, h⟩ := h.step
  simpa [readStmtStep, hk, hd] using h

theorem evaluation (h : HasStatement b n s)
    (hk : b.tree.kind n = .expressionStatement ∨ b.tree.kind n = .yieldReturnStatement) :
    ∃ e, readFirst? b n = some e ∧ s = .eval e := by
  obtain ⟨fuel, jumps, h⟩ := h.step
  rcases hk with hk | hk <;> simp [readStmtStep, hk] at h <;>
  · obtain ⟨e, he, rfl⟩ := h
    exact ⟨e, he, rfl⟩

theorem leave (h : HasStatement b n s) (hk : b.tree.kind n = .returnStatement) :
    ∃ e, readFirst? b n = some e ∧ s = .leave e := by
  obtain ⟨fuel, jumps, h⟩ := h.step
  simp only [readStmtStep, hk, Option.map_eq_some_iff] at h
  obtain ⟨e, he, rfl⟩ := h
  exact ⟨e, he, rfl⟩

theorem yieldBreak (h : HasStatement b n s) (hk : b.tree.kind n = .yieldBreakStatement) :
    s = .leave .constant := by
  obtain ⟨fuel, jumps, h⟩ := h.step
  simpa [readStmtStep, hk] using h.symm

theorem raise (h : HasStatement b n s) (hk : b.tree.kind n = .throwStatement) :
    ∃ e, readFirst? b n = some e ∧ s = .throwing e := by
  obtain ⟨fuel, jumps, h⟩ := h.step
  simp only [readStmtStep, hk, Option.map_eq_some_iff] at h
  obtain ⟨e, he, rfl⟩ := h
  exact ⟨e, he, rfl⟩

theorem leaveLoop (h : HasStatement b n s) (hk : b.tree.kind n = .breakStatement) :
    s = .leaveLoop := by
  obtain ⟨fuel, jumps, h⟩ := h.step
  simp only [readStmtStep, hk] at h
  split at h
  · exact (Option.some.inj h).symm
  · cases h

theorem nextRound (h : HasStatement b n s) (hk : b.tree.kind n = .continueStatement) :
    s = .nextRound := by
  obtain ⟨fuel, jumps, h⟩ := h.step
  simp only [readStmtStep, hk] at h
  split at h
  · exact (Option.some.inj h).symm
  · cases h

/-- The form of what stands behind the word else, if anything does. -/
def Otherwise (b : Binder) (otherwise : Option NodeId) (s : Stmt) : Prop :=
  match otherwise with
  | some n => HasStatement b n s
  | none => s = .skip

theorem branch (h : HasStatement b n s) {view : IfView}
    (hview : IfView.ofNode? b.tree n = some view) :
    ∃ e x y, HasForm b view.condition e ∧ HasStatement b view.statement x ∧
      Otherwise b view.elseStatement y ∧ s = .branch e x y := by
  have hk := kind_of_if hview
  obtain ⟨fuel, jumps, h⟩ := h.step
  cases hother : view.elseStatement with
  | none =>
    simp only [readStmtStep, hk, hview, hother, Option.bind_eq_bind, Option.bind_eq_some_iff,
      Option.pure_def, Option.some.injEq, Option.bind_some] at h
    obtain ⟨e, he, x, hx, rfl⟩ := h
    exact ⟨e, x, .skip, hasForm_of_readExpr? he, ⟨fuel, jumps, hx⟩, rfl, rfl⟩
  | some other =>
    simp only [readStmtStep, hk, hview, hother, Option.bind_eq_bind, Option.bind_eq_some_iff,
      Option.pure_def, Option.some.injEq, Option.bind_some] at h
    obtain ⟨y, hy, e, he, x, hx, rfl⟩ := h
    exact ⟨e, x, y, hasForm_of_readExpr? he, ⟨fuel, jumps, hx⟩, ⟨fuel, jumps, hy⟩, rfl⟩

section Pairs

variable {first second : NodeId} {rest : List NodeId}

theorem whileLoop (h : HasStatement b n s) (hk : b.tree.kind n = .whileStatement)
    (hn : b.tree.childNodes n = first :: second :: rest) :
    ∃ e body, HasForm b first e ∧ HasStatement b second body ∧ s = .whileLoop e body := by
  obtain ⟨fuel, jumps, h⟩ := h.step
  simp only [readStmtStep, hk, hn, Option.bind_eq_bind, Option.bind_eq_some_iff, Option.pure_def,
    Option.some.injEq] at h
  obtain ⟨e, he, body, hbody, rfl⟩ := h
  exact ⟨e, body, hasForm_of_readExpr? he, ⟨fuel, _, hbody⟩, rfl⟩

theorem doLoop (h : HasStatement b n s) (hk : b.tree.kind n = .doStatement)
    (hn : b.tree.childNodes n = first :: second :: rest) :
    ∃ body e, HasStatement b first body ∧ HasForm b second e ∧ s = .doLoop body e := by
  obtain ⟨fuel, jumps, h⟩ := h.step
  simp only [readStmtStep, hk, hn, Option.bind_eq_bind, Option.bind_eq_some_iff, Option.pure_def,
    Option.some.injEq] at h
  obtain ⟨body, hbody, e, he, rfl⟩ := h
  exact ⟨body, e, ⟨fuel, _, hbody⟩, hasForm_of_readExpr? he, rfl⟩

theorem lock (h : HasStatement b n s) (hk : b.tree.kind n = .lockStatement)
    (hn : b.tree.childNodes n = first :: second :: rest) :
    ∃ e body, HasForm b first e ∧ HasStatement b second body ∧ s = .seq (.eval e) body := by
  obtain ⟨fuel, jumps, h⟩ := h.step
  simp only [readStmtStep, hk, hn, Option.bind_eq_bind, Option.bind_eq_some_iff, Option.pure_def,
    Option.some.injEq] at h
  obtain ⟨e, he, body, hbody, rfl⟩ := h
  exact ⟨e, body, hasForm_of_readExpr? he, ⟨fuel, _, hbody⟩, rfl⟩

theorem forEach (h : HasStatement b n s) (hk : b.tree.kind n = .forEachStatement) {type : NodeId}
    (hn : b.tree.childNodes n = type :: first :: second :: rest) :
    ∃ e body, HasForm b first e ∧ HasStatement b second body ∧
      s = .seq (.eval e)
        (.forEach ((declaredIdentifier? b.tree n).map (declaredVariable b)) body) := by
  obtain ⟨fuel, jumps, h⟩ := h.step
  simp only [readStmtStep, hk, hn, Option.bind_eq_bind, Option.bind_eq_some_iff, Option.pure_def,
    Option.some.injEq] at h
  obtain ⟨e, he, body, hbody, rfl⟩ := h
  exact ⟨e, body, hasForm_of_readExpr? he, ⟨fuel, _, hbody⟩, rfl⟩

end Pairs

/-- The form of the test of a for loop, if it has one. -/
def LoopTest (b : Binder) (tests : List NodeId) (test : Option Expr) : Prop :=
  match tests with
  | n :: _ => ∃ e, HasForm b n e ∧ test = some e
  | [] => test = none

theorem forLoop (h : HasStatement b n s) (hk : b.tree.kind n = .forStatement) :
    ∃ before test body steps node, (forParts b.tree n).before.mapM (readHeadPart? b) = some before ∧
      LoopTest b (forParts b.tree n).test test ∧ (forParts b.tree n).body = some node ∧
      HasStatement b node body ∧ HaveForms b (forParts b.tree n).steps steps ∧
      s = .seq (.ofList before) (.forLoop test body (.ofList steps)) := by
  obtain ⟨fuel, jumps, h⟩ := h.step
  have hparts : (b.tree.children n).foldl (ForParts.add b.tree) {} = forParts b.tree n := rfl
  cases htest : (forParts b.tree n).test with
  | nil =>
    simp only [readStmtStep, hk, hparts, htest, Option.bind_eq_bind, Option.bind_eq_some_iff,
      Option.pure_def, Option.some.injEq, Option.bind_some] at h
    obtain ⟨node, hnode, body, hbody, before, hbefore, steps, hsteps, rfl⟩ := h
    exact ⟨before, none, body, steps, node, hbefore, rfl, hnode, ⟨fuel, _, hbody⟩, ⟨_, hsteps⟩, rfl⟩
  | cons test rest =>
    simp only [readStmtStep, hk, hparts, htest, Option.bind_eq_bind, Option.bind_eq_some_iff,
      Option.pure_def, Option.some.injEq, Option.map_eq_some_iff] at h
    obtain ⟨node, hnode, body, hbody, before, hbefore, _, ⟨e, he, rfl⟩, steps, hsteps, rfl⟩ := h
    exact ⟨before, some e, body, steps, node, hbefore, ⟨e, hasForm_of_readExpr? he, rfl⟩, hnode,
      ⟨fuel, _, hbody⟩, ⟨_, hsteps⟩, rfl⟩

theorem useResource (h : HasStatement b n s) (hk : b.tree.kind n = .usingStatement) {node : NodeId}
    (hnode : ((b.tree.childNodes n).filter fun c => (b.tree.kind c).isStatement).getLast? =
      some node) :
    ∃ head body, ((b.tree.childNodes n).filter fun c => !(b.tree.kind c).isStatement).mapM
        (readHeadPart? b) = some head ∧
      HasStatement b node body ∧ s = .seq (.ofList head) body := by
  obtain ⟨fuel, jumps, h⟩ := h.step
  simp only [readStmtStep, hk, hnode, Option.bind_eq_bind, Option.bind_eq_some_iff, Option.pure_def,
    Option.some.injEq, Option.bind_some] at h
  obtain ⟨body, hbody, head, hhead, rfl⟩ := h
  exact ⟨head, body, hhead, ⟨fuel, _, hbody⟩, rfl⟩

/-! ### Exceptions

The form of a try statement is put together from three parts of which some may be missing. -/

/-- The form of a try statement without what runs in any case: its body, or its body and what may
follow when that is cut short. -/
def Guarded (b : Binder) (n : NodeId) (s : Stmt) : Prop :=
  ∃ fuel jumps block body catches, tryBlock? b.tree n = some block ∧ HasStatement b block body ∧
    (b.tree.childrenOfKind n .catchClause).mapM (readCatch? b (readStmtFuel b fuel jumps)) =
      some catches ∧
    (catches = [] ∧ s = body ∨
      ∃ last ways, (∀ c ∈ catches, c ∈ ways ∨ c = last) ∧
        s = .attempt body (.chooseFrom last ways))

/-- The form of what runs in any case, if anything does. -/
def InAnyCase (b : Binder) (final : Option NodeId) (guarded s : Stmt) : Prop :=
  match final with
  | some node => ∃ f, HasStatement b node f ∧ s = .cleanup guarded f
  | none => s = guarded

theorem tryStatement (h : HasStatement b n s) (hk : b.tree.kind n = .tryStatement) :
    ∃ guarded, Guarded b n guarded ∧ InAnyCase b (finallyBlock? b.tree n) guarded s := by
  obtain ⟨fuel, jumps, h⟩ := h.step
  simp only [readStmtStep, hk, readTry?] at h
  split at h
  · cases h
  simp only [Option.bind_eq_bind, Option.bind_eq_some_iff, Option.pure_def] at h
  obtain ⟨block, hblock, body, hbody, catches, hcatches, h⟩ := h
  apply Exists.intro
  refine ⟨?guarded, ?final⟩
  case final =>
    cases hnode : finallyBlock? b.tree n with
    | some node =>
      unfold finallyBlock? at hnode
      rw [hnode] at h
      obtain ⟨f, hf, h⟩ := Option.bind_eq_some_iff.mp h
      exact ⟨f, ⟨fuel, jumps, hf⟩, (Option.some.inj h).symm⟩
    | none =>
      unfold finallyBlock? at hnode
      rw [hnode] at h
      exact (Option.some.inj h).symm
  case guarded =>
    refine ⟨fuel, jumps, block, body, catches, hblock, ⟨fuel, jumps, hbody⟩, hcatches, ?_⟩
    cases hreverse : catches.reverse with
    | nil => exact Or.inl ⟨List.reverse_eq_nil_iff.mp hreverse, rfl⟩
    | cons last earlier =>
      refine Or.inr ⟨last, earlier.reverse, fun c hc => ?_, rfl⟩
      rw [← List.mem_reverse, hreverse, List.mem_cons] at hc
      exact hc.symm.imp_left List.mem_reverse.mpr

/-! ### Switches

Sections are offered as ways of which one is taken. -/

/-- The form of the sections of a switch: it offers the form of each of them, and without a default
label a way past all of them. -/
def Sections (b : Binder) (sections : List NodeId) (s : Stmt) : Prop :=
  ∃ last ways, s = .chooseFrom last ways ∧
    (∀ g ∈ sections, ∃ labels ss, (sectionLabels b.tree g).mapM (readLabel? b) = some labels ∧
      HaveStatements b (sectionStatements b.tree g) ss ∧
      (.labelled labels (.ofList ss) ∈ ways ∨ .labelled labels (.ofList ss) = last)) ∧
    ((∀ g ∈ sections, b.tree.childOfKind? g .defaultSwitchLabel = none) → last = .skip)

theorem switch (h : HasStatement b n s) (hk : b.tree.kind n = .switchStatement) {governing : NodeId}
    {sections : List NodeId} (hn : b.tree.childNodes n = governing :: sections) :
    ∃ e chosen, HasForm b governing e ∧ Sections b sections chosen ∧
      s = .seq (.eval e) (.switch chosen) := by
  obtain ⟨fuel, jumps, h⟩ := h.step
  simp only [readStmtStep, hk, readSwitch?, hn, Option.bind_eq_bind, Option.bind_eq_some_iff,
    Option.pure_def, Option.some.injEq] at h
  obtain ⟨e, he, forms, hforms, rfl⟩ := h
  refine ⟨e, _, hasForm_of_readExpr? he, ?_, rfl⟩
  have hoffers : ∀ g ∈ sections, ∃ labels ss, (sectionLabels b.tree g).mapM (readLabel? b) =
      some labels ∧ HaveStatements b (sectionStatements b.tree g) ss ∧
      .labelled labels (.ofList ss) ∈ forms := by
    intro g hg
    obtain ⟨form, hmem, hform⟩ := exists_of_mapM hforms hg
    simp only [Option.bind_eq_some_iff, Option.some.injEq] at hform
    obtain ⟨labels, hlabels, ss, hss, rfl⟩ := hform
    exact ⟨labels, ss, hlabels, ⟨fuel, _, hss⟩, hmem⟩
  split
  next last earlier hdefault hreverse =>
    refine ⟨last, earlier.reverse, rfl, fun g hg => ?_, fun hnone => ?_⟩
    · obtain ⟨labels, ss, hlabels, hss, hmem⟩ := hoffers g hg
      rw [← List.mem_reverse, hreverse, List.mem_cons] at hmem
      exact ⟨labels, ss, hlabels, hss, hmem.symm.imp_left List.mem_reverse.mpr⟩
    · obtain ⟨g, hg, hsome⟩ := List.any_eq_true.mp hdefault
      rw [hnone g hg] at hsome
      cases hsome
  next =>
    refine ⟨.skip, forms, rfl, fun g hg => ?_, fun _ => rfl⟩
    obtain ⟨labels, ss, hlabels, hss, hmem⟩ := hoffers g hg
    exact ⟨labels, ss, hlabels, hss, Or.inl hmem⟩

end HasStatement

/-! ## Declarations

A variable with a value is declared behind it, and one without a value is not written. -/

theorem readDeclarator?_eq_some {clause : NodeId}
    (hclause : b.tree.childOfKind? n .equalsValueClause = some clause)
    (h : readDeclarator? b n = some s) :
    ∃ e, readFirst? b clause = some e ∧
      s = .seq (.eval e) (declareToken b (b.tree.childTokens n).head?) := by
  simp only [readDeclarator?, hclause, Option.bind_eq_bind, Option.bind_eq_some_iff,
    Option.pure_def, Option.some.injEq] at h
  obtain ⟨e, he, rfl⟩ := h
  exact ⟨e, he, rfl⟩

end CodeMend.Flow
