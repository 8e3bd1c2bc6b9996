import CodeMend.Proofs.Flow.BlindSpots
import CodeMend.Proofs.Tree.Children

/-!
# CodeMend — where a body writes

The nodes of a body that write to a variable, told over the syntax tree, and which of them the form
of an expression accounts for.

* **`WritesTo`** — a node writes to a variable.
* **`WriteOverlooked`** — the analysis does not look at a node that writes.
* **`Finds`** — every write at or under a node, other than those, is to one of some variables.
* **`HasForm.finds`** — the writes under an expression are found in its form.
-/

namespace CodeMend.Flow

open Tree

variable {b : Binder} {body n c m : NodeId} {e : Expr} {v : VariableId} {vs : List VariableId}

/-! ## Writes

What a node writes is said by its form alone: an assignment, a step, or an argument that is given
out. -/

/-- A node writes to a variable: it assigns to a place that names the variable, it raises or lowers
such a place by one, or it passes one on to be written. -/
inductive WritesTo (b : Binder) : NodeId → VariableId → Prop where
  | assignment {n target value rest v} : b.tree.kind n = .assignmentExpression →
      b.tree.childNodes n = target :: value :: rest → Names b target v → WritesTo b n v
  | increment {n operand rest v} :
      b.tree.kind n = .prefixUnaryExpression ∨ b.tree.kind n = .postfixUnaryExpression →
      b.tree.childNodes n = operand :: rest → increments b.tree n = true → Names b operand v →
      WritesTo b n v
  | argument {n view v} : ArgumentView.ofNode? b.tree n = some view →
      passMode b.tree view = .ref ∨ passMode b.tree view = .out → Names b view.expression v →
      WritesTo b n v

/-- The analysis does not look at the node: it is an argument of something else than a call, or it
stands in the type of a new array, among the sizes, or in the place of an argument that is given
out. -/
inductive WriteOverlooked (b : Binder) (body : NodeId) : NodeId → Prop where
  | argument {n : NodeId} : b.tree.kind n = .argument →
      (∀ call view, InvocationView.ofNode? b.tree call = some view → n ∉ view.arguments.items) →
      WriteOverlooked b body n
  | size {n creation type} : Below b.tree body creation →
      b.tree.kind creation = .arrayCreationExpression → type ∈ b.tree.childNodes creation →
      (b.tree.kind type).isType = true → Below b.tree type n → WriteOverlooked b body n
  | place {n call view a} : Below b.tree body call →
      InvocationView.ofNode? b.tree call = some view → a ∈ view.argumentViews b.tree →
      passMode b.tree a = .out → Below b.tree a.expression n → WriteOverlooked b body n

/-- The kinds of nodes that may write. -/
def writeKinds : List NodeKind :=
  [.assignmentExpression, .prefixUnaryExpression, .postfixUnaryExpression, .argument]

theorem WritesTo.kind_mem (h : WritesTo b n v) : b.tree.kind n ∈ writeKinds := by
  cases h with
  | assignment hk => simp [hk, writeKinds]
  | increment hk => rcases hk with hk | hk <;> simp [hk, writeKinds]
  | argument hview => simp [kind_of_argument hview, writeKinds]

/-! ## Nodes under a node

The result is by induction over the nodes of a tree, from those further in to those around them. -/

theorem Below.trans {t : Tree} (h : Below t n c) (hc : Below t c m) : Below t n m := by
  induction hc with
  | here => exact h
  | child _ hmem ih => exact .child ih hmem

/-- A node under another one is that node, or stands at or under one of its children. -/
theorem Below.eq_or_child {t : Tree} (h : Below t n m) :
    m = n ∨ ∃ c ∈ t.childNodes n, Below t c m := by
  induction h with
  | here => exact .inl rfl
  | @child p c _ hc ih =>
    rcases ih with rfl | ⟨d, hd, hbelow⟩
    · exact .inr ⟨c, hc, .here⟩
    · exact .inr ⟨d, hd, .child hbelow hc⟩

/-- Induction over the nodes of a parsed tree: what holds of a node if it holds of everything under
it holds of all of them. -/
theorem Below.induction {t : Tree} (hp : Parsed t) {P : NodeId → Prop}
    (step : ∀ n, (∀ c ∈ t.childNodes n, ∀ m, Below t c m → P m) → P n) (n : NodeId) : P n := by
  have hall : ∀ {s : Shape}, Stands t s → ∀ id k cs, s = .node id k cs →
      ∀ m, Below t id m → P m := by
    intro s hs
    induction hs with
    | token => exact fun _ _ _ h => nomatch h
    | @node id k cs hlt hk hchildren hword hall ih =>
      intro _ _ _ heq
      cases heq
      have hbelow : ∀ c ∈ t.childNodes id, ∀ m, Below t c m → P m := by
        intro c hc
        rw [childNodes, hchildren, List.filterMap_map] at hc
        obtain ⟨s, hs, hnode⟩ := List.mem_filterMap.mp hc
        cases s with
        | token i => cases hnode
        | node id' k' cs' =>
          cases hnode
          exact ih _ hs _ _ _ rfl
      intro m hm
      rcases hm.eq_or_child with rfl | ⟨c, hc, hm⟩
      · exact step m hbelow
      · exact hbelow c hc m hm
  by_cases hn : n < t.nodeCount
  · obtain ⟨cs, hs, -⟩ := hp.stands n hn
    exact hall hs _ _ _ rfl n .here
  · exact step n fun c hc => absurd (hp.wellFormed.lt_of_mem hc).1 hn

/-! ## Writes that are found

A list of variables is compared with the writes at or under a node.  Each kind of node adds its own
write to those of the nodes under it. -/

/-- Every write at or under the node is to one of the variables, or is overlooked. -/
def Finds (b : Binder) (body n : NodeId) (vs : List VariableId) : Prop :=
  ∀ m v, Below b.tree n m → WritesTo b m v → ¬ WriteOverlooked b body m → v ∈ vs

namespace Finds

theorem mono {ws : List VariableId} (h : Finds b body n vs) (hvs : vs ⊆ ws) : Finds b body n ws :=
  fun m v hm hw hseen => hvs (h m v hm hw hseen)

/-- The writes of a node, and those of its children. -/
theorem of_children (hown : ∀ v, WritesTo b n v → ¬ WriteOverlooked b body n → v ∈ vs)
    (hchildren : ∀ c ∈ b.tree.childNodes n, Finds b body c vs) : Finds b body n vs := by
  intro m v hm hw hseen
  rcases hm.eq_or_child with rfl | ⟨c, hc, hm⟩
  · exact hown v hw hseen
  · exact hchildren c hc m v hm hw hseen

/-- A node that does not write itself. -/
theorem of_kind (hk : b.tree.kind n ∉ writeKinds)
    (hchildren : ∀ c ∈ b.tree.childNodes n, Finds b body c vs) : Finds b body n vs :=
  of_children (fun _ hw => absurd hw.kind_mem hk) hchildren

/-- Where nothing is evaluated, nothing is written. -/
theorem of_still (hp : Parsed b.tree) (h : Still b.tree n) : Finds b body n vs := by
  induction n using Below.induction hp with
  | step n ih =>
    refine of_kind (fun hk => ?_) fun c hc => ih c hc c .here (h.child hp hc)
    have hdisjoint : ∀ k ∈ writeKinds, k ∉ stillKinds ++ Production.plainKinds := by decide
    exact hdisjoint _ hk h.kind_mem

/-- Where the analysis does not look, there is nothing to be found. -/
theorem of_overlooked (h : ∀ m, Below b.tree n m → WriteOverlooked b body m) :
    Finds b body n vs :=
  fun m _ hm _ hseen => absurd (h m hm) hseen

end Finds

/-! ## Arguments

An argument writes only in a call, which is why calls are taken apart from all other nodes. -/

/-- An argument has a view, and apart from its expression nothing is evaluated in it. -/
theorem exists_argumentView {t : Tree} (hp : Parsed t) (hk : t.kind n = .argument) :
    ∃ view, ArgumentView.ofNode? t n = some view ∧
      ∀ c ∈ t.childNodes n, c = view.expression ∨ Still t c := by
  obtain ⟨e, he, hn⟩ := hp.childNodes_argument hk
  have hlabel : (t.kind e != .nameColon) = true := by
    rw [bne_iff_ne]
    rintro heq
    rw [heq] at he
    exact absurd he (by decide)
  have hview : ∃ view, ArgumentView.ofNode? t n = some view ∧ view.expression = e := by
    rcases hn with hn | ⟨label, hn, hkind⟩
    · simp [ArgumentView.ofNode?, hk, hn, hlabel]
    · simp [ArgumentView.ofNode?, hk, hn, hlabel, hkind]
  obtain ⟨view, hview, rfl⟩ := hview
  refine ⟨view, hview, fun c hc => ?_⟩
  rcases hn with hn | ⟨label, hn, hkind⟩
  · rw [hn, List.mem_singleton] at hc
    exact .inl hc
  · rw [hn, List.mem_cons, List.mem_singleton] at hc
    rcases hc with rfl | rfl
    · exact .inr (.kind (by rw [hkind]; decide))
    · exact .inl rfl

/-- A call has a view: under it are what is called and the list of arguments. -/
theorem exists_invocationView {t : Tree} (hp : Parsed t) (hk : t.kind n = .invocationExpression) :
    ∃ view, InvocationView.ofNode? t n = some view ∧
      t.childNodes n = [view.callee, view.arguments.node] ∧ t.kind view.callee ≠ .argumentList := by
  obtain ⟨callee, list, hn, hcallee, hlist⟩ := hp.childNodes_invocation hk
  have hne : t.kind callee ≠ .argumentList := fun heq => by
    rw [heq] at hcallee
    exact absurd hcallee (by decide)
  simp [InvocationView.ofNode?, hk, hn, Tree.childOfKind?, hne, hlist, SeparatedList.ofNode]

theorem kind_of_arguments {t : Tree} {view : InvocationView}
    (h : InvocationView.ofNode? t n = some view) :
    view.arguments.node ∈ t.childNodes n ∧ t.kind view.arguments.node = .argumentList ∧
      view.arguments.items = t.childNodes view.arguments.node := by
  unfold InvocationView.ofNode? at h
  split at h
  · cases h
  simp only [Option.bind_eq_bind, Option.bind_eq_some_iff, Option.pure_def, Option.some.injEq] at h
  obtain ⟨callee, -, list, hlist, rfl⟩ := h
  have hkind : t.kind list = .argumentList := by simpa using List.find?_some hlist
  exact ⟨List.mem_of_find?_eq_some hlist, hkind, rfl⟩

/-- The node is neither the list of arguments of a call nor an argument in one. -/
def Apart (b : Binder) (n : NodeId) : Prop :=
  ∀ call view, InvocationView.ofNode? b.tree call = some view →
    n ≠ view.arguments.node ∧ n ∉ view.arguments.items

/-- What stands under a node that is not part of a call is no part of one either. -/
theorem Apart.of_child (hp : Parsed b.tree) (hc : c ∈ b.tree.childNodes n)
    (hcall : b.tree.kind n = .invocationExpression → b.tree.kind c ≠ .argumentList)
    (hlist : b.tree.kind n = .argumentList → Apart b n) : Apart b c := by
  intro call view hview
  obtain ⟨hmem, hkind, hitems⟩ := kind_of_arguments hview
  constructor
  · rintro rfl
    obtain rfl := hp.wellFormed.parent_unique hc hmem
    exact hcall (kind_of_invocation hview) hkind
  · intro hitem
    rw [hitems] at hitem
    obtain rfl := hp.wellFormed.parent_unique hc hitem
    exact (hlist hkind call view hview).1 rfl

/-- An argument of something else than a call is overlooked. -/
theorem WriteOverlooked.of_apart (hk : b.tree.kind n = .argument) (h : Apart b n) :
    WriteOverlooked b body n :=
  .argument hk fun call view hview => (h call view hview).2

/-- The writes of an argument, and those of its expression. -/
theorem Finds.argument (hp : Parsed b.tree) {view : ArgumentView}
    (hview : ArgumentView.ofNode? b.tree n = some view)
    (hown : ∀ v, WritesTo b n v → ¬ WriteOverlooked b body n → v ∈ vs)
    (hexpression : Finds b body view.expression vs) : Finds b body n vs := by
  obtain ⟨view', hview', hchildren⟩ := exists_argumentView hp (kind_of_argument hview)
  obtain rfl := Option.some.inj (hview.symm.trans hview')
  refine .of_children hown fun c hc => ?_
  rcases hchildren c hc with rfl | hstill
  · exact hexpression
  · exact .of_still hp hstill

/-! ## Places

The place that is written to may be wrapped in parentheses or be an item of a tuple. -/

theorem mem_targets_of_mem_tuple {es : List Expr} (he : e ∈ es) (hv : v ∈ e.targets) :
    v ∈ (es.foldr Expr.tuple .constant).targets := by
  induction es with
  | nil => cases he
  | cons x es ih =>
    rw [List.foldr_cons, Expr.targets, List.mem_append]
    rcases List.mem_cons.mp he with rfl | he
    · exact .inl hv
    · exact .inr (ih he)

/-- What a node names is what its form is written to. -/
theorem Names.mem_targets (h : Names b n v) (he : HasForm b n e) : v ∈ e.targets := by
  induction h generalizing e with
  | name hk hv =>
    obtain rfl := he.identifier hk
    simp [Expr.targets, hv]
  | parenthesized hk hn _ ih =>
    obtain ⟨i, hi, rfl⟩ := he.parenthesized hk hn
    exact ih (e := i) hi
  | declaration hk hv =>
    obtain rfl := he.declaration hk
    exact hv
  | tuple hk hitem _ ih =>
    obtain ⟨es, ⟨fuel, hes⟩, rfl⟩ := he.tuple hk
    obtain ⟨i, hi, hform⟩ := exists_of_mapM hes hitem
    exact mem_targets_of_mem_tuple hi (ih ⟨fuel, hform⟩)

theorem Names.mem_placeFuel (h : Names b n v) {k : NodeKind} {cs : List Shape} {fuel : Nat}
    (hs : Stands b.tree (.node n k cs)) (hfuel : (Shape.node n k cs).size ≤ fuel) :
    v ∈ (readPlaceFuel b fuel n).targets := by
  induction fuel generalizing n k cs with
  | zero => simp [Shape.size] at hfuel
  | succ fuel ih =>
    rw [readPlaceFuel, readPlaceStep]
    cases h with
    | name hk hv => simp [hk, hv, Expr.targets]
    | parenthesized hk hn hinner =>
      obtain ⟨k', ds, hs', hlt⟩ := hs.child (by rw [hn]; exact List.mem_cons_self)
      simp only [hk, hn, Expr.targets]
      exact ih hinner hs' (by omega)
    | declaration hk hv =>
      simp only [hk, Expr.targets]
      exact hv
    | tuple hk hitem hinner =>
      -- an item is two nodes down, behind its argument
      have hitem' := hitem
      obtain ⟨view, hview, rfl⟩ := List.mem_map.mp hitem'
      obtain ⟨a, ha, hview⟩ := List.mem_filterMap.mp hview
      obtain ⟨k', ds, hs', hlt⟩ := hs.child (mem_childNodes_of_mem_childrenOfKind ha)
      obtain ⟨k'', ds', hs'', hlt'⟩ := hs'.child (ArgumentView.mem_childNodes hview)
      simp only [hk]
      exact mem_targets_of_mem_tuple (List.mem_map_of_mem hitem) (ih hinner hs'' (by omega))

/-- What a node names is what its place is written to. -/
theorem Names.mem_place (h : Names b n v) (hp : Parsed b.tree) (hn : n < b.tree.nodeCount) :
    v ∈ (readPlace b n).targets := by
  obtain ⟨cs, hs, hsize⟩ := hp.stands n hn
  exact h.mem_placeFuel hs (Nat.le_succ_of_le hsize)

/-! ## What forms write

The variables that a form writes are those that its operands write and those that it is written to.
-/

theorem written_ofList (es : List Expr) : (Expr.ofList es).written = es.flatMap Expr.written := by
  induction es with
  | nil => rfl
  | cons e es ih => exact congrArg (e.written ++ ·) ih

theorem written_foldr_tuple (es : List Expr) :
    (es.foldr Expr.tuple .constant).written = es.flatMap Expr.written := by
  induction es with
  | nil => rfl
  | cons e es ih => exact congrArg (e.written ++ ·) ih

/-- What is not evaluated of the left side of an assignment is what is assigned to. -/
theorem mem_receivers_or_targets (h : v ∈ e.written) :
    v ∈ e.receivers.written ∨ v ∈ e.targets := by
  induction e with
  | declaration vs => exact .inr h
  | tuple first rest ihFirst ihRest =>
    simp only [Expr.written, Expr.receivers, Expr.targets, List.mem_append] at h ⊢
    rcases h with h | h
    · exact (ihFirst h).imp .inl .inl
    · exact (ihRest h).imp .inr .inr
  | _ => exact .inl h

theorem written_assignment (operator : String) (target value : Expr) :
    target.written ⊆ (assignment operator target value).written ∧
      value.written ⊆ (assignment operator target value).written ∧
      target.targets ⊆ (assignment operator target value).written := by
  unfold assignment
  refine ⟨fun v hv => ?_, fun v hv => ?_, List.subset_append_right _ _⟩
  · rw [Expr.written, List.mem_append]
    split
    · rw [Expr.written, List.mem_append]
      exact (mem_receivers_or_targets hv).imp_left .inl
    · split <;> exact .inl (List.mem_append_left _ hv)
  · rw [Expr.written, List.mem_append]
    split
    · exact .inl (List.mem_append_right _ hv)
    · split <;> exact .inl (List.mem_append_right _ hv)

theorem written_binaryOperation (operator : String) (left right : Expr) :
    (binaryOperation operator left right).written = left.written ++ right.written := by
  unfold binaryOperation
  split <;> rfl

theorem written_unaryOperation (t : Tree) (operand : Expr) :
    operand.written ⊆ (unaryOperation t n operand).written ∧
      (increments t n = true → operand.targets ⊆ (unaryOperation t n operand).written) := by
  unfold unaryOperation
  split
  · exact ⟨List.subset_append_left _ _, fun _ => List.subset_append_right _ _⟩
  next hother =>
    refine ⟨?_, fun h => absurd h hother⟩
    split
    · exact List.Subset.refl _
    · exact List.subset_append_left _ _

/-! ## Expressions

All kinds of expressions are gone through once. -/

/-- The kinds of nodes of which not all nodes are evaluated one after the other, or whose arguments
are looked at. -/
def partialKinds : List NodeKind :=
  [.simpleLambdaExpression, .parenthesizedLambdaExpression, .parenthesizedExpression,
    .memberAccessExpression, .asExpression, .castExpression, .conditionalAccessExpression,
    .invocationExpression, .argument, .assignmentExpression, .prefixUnaryExpression,
    .postfixUnaryExpression, .binaryExpression, .conditionalExpression, .objectCreationExpression,
    .arrayCreationExpression, .tupleExpression]

/-- Any other node has a form in which all nodes under it have one. -/
theorem HasForm.operands (h : HasForm b n e) (hstill : b.tree.kind n ∉ stillKinds)
    (hk : b.tree.kind n ∉ partialKinds) :
    ∃ es, HaveForms b (b.tree.childNodes n) es ∧ e.written = es.flatMap Expr.written := by
  by_cases hinit : b.tree.kind n = .initializerExpression
  · obtain ⟨es, hes, rfl⟩ := h.initializer hinit
    exact ⟨es, hes, written_ofList es⟩
  by_cases hthrow : b.tree.kind n = .throwExpression
  · obtain ⟨es, hes, rfl⟩ := h.throwing hthrow
    exact ⟨es, hes, written_ofList es⟩
  obtain ⟨fuel, h⟩ := h.step
  unfold readExprStep at h
  dsimp only at h
  split at h <;> rename_i hkind
  case h_34 =>
    obtain ⟨es, hes, rfl⟩ := Option.map_eq_some_iff.mp h
    exact ⟨es, ⟨fuel, hes⟩, written_ofList es⟩
  all_goals
    first
    | exact absurd hkind hinit
    | exact absurd hkind hthrow
    | exact absurd (by rw [hkind]; decide) hstill
    | exact absurd (by rw [hkind]; decide) hk

theorem HasForm.not_lambda (h : HasForm b n e) : (b.tree.kind n).isLambda = false := by
  obtain ⟨fuel, h⟩ := h.step
  by_contra hk
  cases hkind : b.tree.kind n <;> simp_all [NodeKind.isLambda, readExprStep]

/-- The writes at or under a node of the body are found in its form. -/
def Sought (b : Binder) (body n : NodeId) : Prop :=
  ∀ e, HasForm b n e → Below b.tree body n → Apart b n → Finds b body n e.written

section Step

/-! ### One node

The writes under the nodes under a node are found; so are those under the node. -/

variable (hp : Parsed b.tree) (hn : Below b.tree body n) (hapart : Apart b n)
  (ih : ∀ c ∈ b.tree.childNodes n, ∀ m, Below b.tree c m → Sought b body m)

include hp hn hapart ih

/-- The writes under a child are found in its form. -/
theorem finds_child (hk : b.tree.kind n ≠ .invocationExpression) (hc : c ∈ b.tree.childNodes n)
    (he : HasForm b c e) : Finds b body c e.written :=
  ih c hc c .here e he (hn.child hc) (.of_child hp hc (fun h => absurd h hk) fun _ => hapart)

/-- The writes under some children are found in their forms. -/
theorem finds_children (hk : b.tree.kind n ≠ .invocationExpression) {ns : List NodeId}
    {es : List Expr} (hns : ns ⊆ b.tree.childNodes n) (hes : HaveForms b ns es) :
    ∀ c ∈ ns, Finds b body c (es.flatMap Expr.written) := by
  intro c hc
  obtain ⟨fuel, hes⟩ := hes
  obtain ⟨e, he, hform⟩ := exists_of_mapM hes hc
  refine (finds_child hp hn hapart ih hk (hns hc) ⟨fuel, hform⟩).mono ?_
  exact fun v hv => List.mem_flatMap.mpr ⟨e, he, hv⟩

theorem finds_parenthesized (he : HasForm b n e) (hk : b.tree.kind n = .parenthesizedExpression) :
    Finds b body n e.written := by
  obtain ⟨inner, hinner⟩ := hp.childNodes_parenthesized hk
  obtain ⟨i, hi, rfl⟩ := he.parenthesized hk hinner
  refine .of_kind (by rw [hk]; decide) fun c hc => ?_
  obtain rfl : c = inner := by simpa [hinner] using hc
  exact finds_child hp hn hapart ih (e := i) (by simp [hk]) hc hi

/-- An operand with a name or a type behind it. -/
theorem finds_access (he : HasForm b n e)
    (hk : b.tree.kind n = .memberAccessExpression ∨ b.tree.kind n = .asExpression) :
    Finds b body n e.written := by
  obtain ⟨operand, name, hnodes, hname⟩ := hp.childNodes_access hk
  obtain ⟨es, hes, rfl⟩ := he.access hk
  have hoperands := finds_children hp hn hapart ih (by rcases hk with hk | hk <;> simp [hk])
    (List.take_subset _ _) hes
  rw [written_ofList]
  refine .of_kind (by rcases hk with hk | hk <;> rw [hk] <;> decide) fun c hc => ?_
  simp only [hnodes, List.mem_cons, List.not_mem_nil, or_false] at hc
  rcases hc with rfl | rfl
  · exact hoperands _ (by simp [hnodes])
  · exact .of_still hp hname

theorem finds_cast (he : HasForm b n e) (hk : b.tree.kind n = .castExpression) :
    Finds b body n e.written := by
  obtain ⟨type, operand, hnodes, htype⟩ := hp.childNodes_cast hk
  obtain ⟨es, hes, rfl⟩ := he.cast hk
  have hoperands := finds_children hp hn hapart ih (by simp [hk])
    (fun _ h => List.mem_of_mem_drop (List.mem_of_mem_take h)) hes
  rw [written_ofList]
  refine .of_kind (by rw [hk]; decide) fun c hc => ?_
  simp only [hnodes, List.mem_cons, List.not_mem_nil, or_false] at hc
  rcases hc with rfl | rfl
  · exact .of_still hp htype
  · exact hoperands _ (by simp [hnodes])

/-- The operands of an operation are its children; what it writes besides is left to be shown. -/
theorem finds_pair {l r : Expr} {left right : NodeId}
    (hk : b.tree.kind n ≠ .invocationExpression) (hnodes : b.tree.childNodes n = [left, right])
    (hl : HasForm b left l) (hr : HasForm b right r) (hlvs : l.written ⊆ vs)
    (hrvs : r.written ⊆ vs)
    (hown : ∀ v, WritesTo b n v → ¬ WriteOverlooked b body n → v ∈ vs) : Finds b body n vs := by
  refine .of_children hown fun c hc => ?_
  have hc' := hc
  simp only [hnodes, List.mem_cons, List.not_mem_nil, or_false] at hc'
  rcases hc' with rfl | rfl
  · exact (finds_child hp hn hapart ih hk hc hl).mono hlvs
  · exact (finds_child hp hn hapart ih hk hc hr).mono hrvs

theorem finds_conditionalAccess (he : HasForm b n e)
    (hk : b.tree.kind n = .conditionalAccessExpression) : Finds b body n e.written := by
  obtain ⟨left, right, hnodes⟩ := hp.childNodes_pair (n := n) (by simp [hk])
  obtain ⟨l, r, hl, hr, rfl⟩ := he.conditionalAccess hk hnodes
  refine finds_pair hp hn hapart ih (by simp [hk]) hnodes hl hr (List.subset_append_left _ _)
    (List.subset_append_right _ _) fun v hw => ?_
  exact absurd hw.kind_mem (by rw [hk]; decide)

theorem finds_binary (he : HasForm b n e) (hk : b.tree.kind n = .binaryExpression) :
    Finds b body n e.written := by
  obtain ⟨left, right, hnodes⟩ := hp.childNodes_pair (n := n) (by simp [hk])
  obtain ⟨l, r, hl, hr, rfl⟩ := he.binary hk hnodes
  rw [written_binaryOperation]
  refine finds_pair hp hn hapart ih (by simp [hk]) hnodes hl hr (List.subset_append_left _ _)
    (List.subset_append_right _ _) fun v hw => ?_
  exact absurd hw.kind_mem (by rw [hk]; decide)

/-- **What is assigned to is written.** -/
theorem finds_assignment (he : HasForm b n e) (hk : b.tree.kind n = .assignmentExpression) :
    Finds b body n e.written := by
  obtain ⟨target, value, hnodes⟩ := hp.childNodes_pair (n := n) (by simp [hk])
  obtain ⟨l, r, hl, hr, rfl⟩ := he.assignment hk hnodes
  obtain ⟨hlvs, hrvs, htargets⟩ := written_assignment (operatorText b.tree n) l r
  refine finds_pair hp hn hapart ih (by simp [hk]) hnodes hl hr hlvs hrvs fun v hw _ => ?_
  cases hw with
  | assignment _ hnodes' hnames =>
    obtain ⟨rfl, -⟩ := List.cons.inj (hnodes.symm.trans hnodes')
    exact htargets (hnames.mem_targets hl)
  | increment hk' => rcases hk' with hk' | hk' <;> rw [hk] at hk' <;> cases hk'
  | argument hview =>
    rw [kind_of_argument hview] at hk
    cases hk

/-- **What is raised or lowered by one is written.** -/
theorem finds_unary (he : HasForm b n e)
    (hk : b.tree.kind n = .prefixUnaryExpression ∨ b.tree.kind n = .postfixUnaryExpression) :
    Finds b body n e.written := by
  obtain ⟨operand, hnodes⟩ := hp.childNodes_unary hk
  obtain ⟨o, ho, rfl⟩ := he.unary hk hnodes
  obtain ⟨hvs, htargets⟩ := written_unaryOperation (n := n) b.tree o
  refine .of_children (fun v hw _ => ?_) fun c hc => ?_
  · cases hw with
    | assignment hk' => rcases hk with hk | hk <;> rw [hk] at hk' <;> cases hk'
    | increment _ hnodes' hincrements hnames =>
      obtain ⟨rfl, -⟩ := List.cons.inj (hnodes.symm.trans hnodes')
      exact htargets hincrements (hnames.mem_targets ho)
    | argument hview =>
      rw [kind_of_argument hview] at hk
      rcases hk with hk | hk <;> cases hk
  · obtain rfl : c = operand := by simpa [hnodes] using hc
    exact (finds_child hp hn hapart ih (by rcases hk with hk | hk <;> simp [hk]) hc ho).mono hvs

theorem finds_conditional (he : HasForm b n e) (hk : b.tree.kind n = .conditionalExpression) :
    Finds b body n e.written := by
  obtain ⟨test, first, second, hnodes⟩ := hp.childNodes_conditional hk
  obtain ⟨t, x, y, ht, hx, hy, rfl⟩ := he.conditional hk hnodes
  have hchild := fun {c : NodeId} {e : Expr} =>
    finds_child hp hn hapart ih (by simp [hk]) (c := c) (e := e)
  refine .of_kind (by rw [hk]; decide) fun c hc => ?_
  have hc' := hc
  simp only [hnodes, List.mem_cons, List.not_mem_nil, or_false] at hc'
  rcases hc' with rfl | rfl | rfl
  · exact (hchild hc ht).mono fun v hv => by simp [Expr.written, hv]
  · exact (hchild hc hx).mono fun v hv => by simp [Expr.written, hv]
  · exact (hchild hc hy).mono fun v hv => by simp [Expr.written, hv]

/-- Of a new object or array the type is not evaluated. -/
theorem finds_creation (he : HasForm b n e)
    (hk : b.tree.kind n = .objectCreationExpression ∨ b.tree.kind n = .arrayCreationExpression) :
    Finds b body n e.written := by
  obtain ⟨es, hes, rfl⟩ := he.creation hk
  have hcreated := finds_children hp hn hapart ih (by rcases hk with hk | hk <;> simp [hk])
    (fun _ h => (List.mem_filter.mp h).1) hes
  rw [written_ofList]
  refine .of_kind (by rcases hk with hk | hk <;> rw [hk] <;> decide) fun c hc => ?_
  cases htype : (b.tree.kind c).isType with
  | false => exact hcreated c (List.mem_filter.mpr ⟨hc, by simp [htype]⟩)
  | true =>
    rcases hk with hk | hk
    · exact .of_still hp (hp.childNodes_objectCreation hk c hc htype)
    · exact .of_overlooked fun m hm => .size hn hk hc htype hm

/-- An argument apart from a call: what its expression writes, and no more. -/
theorem finds_looseArgument (he : HasForm b n e) (hk : b.tree.kind n = .argument) :
    Finds b body n e.written := by
  obtain ⟨view, hview, -⟩ := exists_argumentView hp hk
  obtain ⟨i, hi, rfl⟩ := he.argument hview
  refine .argument hp hview (fun v _ hseen => absurd (.of_apart hk hapart) hseen) ?_
  exact finds_child hp hn hapart ih (e := i) (by simp [hk]) (ArgumentView.mem_childNodes hview) hi

/-- The items of a tuple stand behind arguments of their own. -/
theorem finds_tuple (he : HasForm b n e) (hk : b.tree.kind n = .tupleExpression) :
    Finds b body n e.written := by
  obtain ⟨es, ⟨fuel, hes⟩, rfl⟩ := he.tuple hk
  rw [written_foldr_tuple]
  refine .of_kind (by rw [hk]; decide) fun c hc => ?_
  have hkind := hp.kind_of_mem_arguments (n := n) (by simp [hk]) c hc
  have hloose : Apart b c := .of_child hp hc (fun h => by rw [hk] at h; cases h) fun _ => hapart
  obtain ⟨view, hview, -⟩ := exists_argumentView hp hkind
  have hexpression := ArgumentView.mem_childNodes hview
  have hitem : view.expression ∈ tupleItems b.tree n := by
    refine List.mem_map_of_mem (List.mem_filterMap.mpr ⟨c, ?_, hview⟩)
    exact List.mem_filter.mpr ⟨hc, by simp [hkind]⟩
  obtain ⟨i, hi, hform⟩ := exists_of_mapM hes hitem
  refine .argument hp hview (fun v _ hseen => absurd (.of_apart hkind hloose) hseen) ?_
  have happart : Apart b view.expression :=
    .of_child hp hexpression (fun h => by rw [hkind] at h; cases h) fun _ => hloose
  refine (ih c hc _ (.child .here hexpression) i ⟨fuel, hform⟩ ((hn.child hc).child hexpression)
    happart).mono ?_
  exact fun v hv => List.mem_flatMap.mpr ⟨i, hi, hv⟩

omit hapart in
/-- **What is passed to a call to be written is written.** -/
theorem finds_passed {call : InvocationView} (hcall : InvocationView.ofNode? b.tree n = some call)
    {fuel : Nat} {es : List Expr}
    (hes : (call.argumentViews b.tree).mapM (readPassed b (readExprFuel b fuel)) = some es) :
    Finds b body call.arguments.node (es.flatMap Expr.written) := by
  obtain ⟨hlist, hkind, hitems⟩ := kind_of_arguments hcall
  refine .of_kind (by rw [hkind]; decide) fun c hc => ?_
  have hargument := hp.kind_of_mem_arguments (n := call.arguments.node) (by simp [hkind]) c hc
  obtain ⟨view, hview, -⟩ := exists_argumentView hp hargument
  have hexpression := ArgumentView.mem_childNodes hview
  have hmem : view ∈ call.argumentViews b.tree :=
    List.mem_filterMap.mpr ⟨c, hitems ▸ hc, hview⟩
  obtain ⟨e, he, hform⟩ := exists_of_mapM hes hmem
  have hbelow : Below b.tree body view.expression := ((hn.child hlist).child hc).child hexpression
  have hsub : e.written ⊆ es.flatMap Expr.written := fun v hv => List.mem_flatMap.mpr ⟨e, he, hv⟩
  have hsought : ∀ i, HasForm b view.expression i → Finds b body view.expression i.written := by
    intro i hi
    refine ih _ hlist _ (.child (.child .here hc) hexpression) i hi hbelow ?_
    refine .of_child hp hexpression (fun h => ?_) fun h => ?_ <;>
      rw [hargument] at h <;> cases h
  -- what the argument itself writes, by the way it is passed
  have hnames : ∀ v, WritesTo b c v →
      (passMode b.tree view = .ref ∨ passMode b.tree view = .out) ∧ Names b view.expression v := by
    intro v hw
    cases hw with
    | assignment hk => rw [hargument] at hk; cases hk
    | increment hk => rw [hargument] at hk; rcases hk with hk | hk <;> cases hk
    | argument hview' hmode hnames =>
      obtain rfl := Option.some.inj (hview.symm.trans hview')
      exact ⟨hmode, hnames⟩
  suffices h : Finds b body c e.written from h.mono hsub
  refine .argument hp hview (fun v hw _ => ?_) ?_
  · obtain ⟨hmode, hnames⟩ := hnames v hw
    rcases hmode with hmode | hmode
    · simp only [readPassed, hmode, Option.map_eq_some_iff] at hform
      obtain ⟨i, hi, rfl⟩ := hform
      exact List.mem_append_right _ (hnames.mem_targets ⟨fuel, hi⟩)
    · simp only [readPassed, hmode, Option.some.injEq] at hform
      subst hform
      exact hnames.mem_place hp (hp.wellFormed.lt_of_mem hexpression).2.1
  · cases hmode : passMode b.tree view with
    | out => exact .of_overlooked fun m hm => .place hn hcall hmem hmode hm
    | ref =>
      simp only [readPassed, hmode, Option.map_eq_some_iff] at hform
      obtain ⟨i, hi, rfl⟩ := hform
      exact (hsought i ⟨fuel, hi⟩).mono (List.subset_append_left _ _)
    | value | input =>
      simp only [readPassed, hmode, Option.map_eq_some_iff] at hform
      obtain ⟨i, hi, rfl⟩ := hform
      exact hsought i ⟨fuel, hi⟩

omit hapart in
theorem finds_call (he : HasForm b n e) (hk : b.tree.kind n = .invocationExpression) :
    Finds b body n e.written := by
  obtain ⟨view, hview, hnodes, hcallee⟩ := exists_invocationView hp hk
  obtain ⟨callee, fuel, es, hform, hes, rfl⟩ := he.call hview
  refine .of_kind (by rw [hk]; decide) fun c hc => ?_
  have hc' := hc
  simp only [hnodes, List.mem_cons, List.not_mem_nil, or_false] at hc'
  rw [Expr.written, written_ofList]
  rcases hc' with rfl | rfl
  · have happart : Apart b view.callee :=
      .of_child hp hc (fun _ => hcallee) fun h => by rw [hk] at h; cases h
    exact (ih _ hc _ .here callee hform (hn.child hc) happart).mono (List.subset_append_left _ _)
  · exact (finds_passed hp hn ih hview hes).mono (List.subset_append_right _ _)

end Step

/-- **The writes under an expression are found in its form.** -/
theorem HasForm.finds (hp : Parsed b.tree) (he : HasForm b n e) (hn : Below b.tree body n)
    (hapart : Apart b n) : Finds b body n e.written := by
  suffices h : ∀ n, Sought b body n from h n e he hn hapart
  intro n
  induction n using Below.induction hp with
  | step n ih =>
    intro e he hn hapart
    by_cases hstill : b.tree.kind n ∈ stillKinds
    · exact .of_still hp (.kind hstill)
    have hother : b.tree.kind n ∉ partialKinds → Finds b body n e.written := by
      -- all nodes under it are evaluated one after the other
      intro hk
      obtain ⟨es, hes, hwritten⟩ := he.operands hstill hk
      have hcall : b.tree.kind n ≠ .invocationExpression := fun h => hk (by rw [h]; decide)
      have hwrites : b.tree.kind n ∉ writeKinds := fun h => hk <|
        (by decide : ∀ k ∈ writeKinds, k ∈ partialKinds) _ h
      rw [hwritten]
      exact .of_kind hwrites (finds_children hp hn hapart ih hcall (List.Subset.refl _) hes)
    cases hk : b.tree.kind n with
    | simpleLambdaExpression | parenthesizedLambdaExpression =>
      have hlambda := he.not_lambda
      rw [hk] at hlambda
      cases hlambda
    | parenthesizedExpression => exact finds_parenthesized hp hn hapart ih he hk
    | memberAccessExpression => exact finds_access hp hn hapart ih he (.inl hk)
    | asExpression => exact finds_access hp hn hapart ih he (.inr hk)
    | castExpression => exact finds_cast hp hn hapart ih he hk
    | conditionalAccessExpression => exact finds_conditionalAccess hp hn hapart ih he hk
    | invocationExpression => exact finds_call hp hn ih he hk
    | argument => exact finds_looseArgument hp hn hapart ih he hk
    | assignmentExpression => exact finds_assignment hp hn hapart ih he hk
    | prefixUnaryExpression => exact finds_unary hp hn hapart ih he (.inl hk)
    | postfixUnaryExpression => exact finds_unary hp hn hapart ih he (.inr hk)
    | binaryExpression => exact finds_binary hp hn hapart ih he hk
    | conditionalExpression => exact finds_conditional hp hn hapart ih he hk
    | objectCreationExpression => exact finds_creation hp hn hapart ih he (.inl hk)
    | arrayCreationExpression => exact finds_creation hp hn hapart ih he (.inr hk)
    | tupleExpression => exact finds_tuple hp hn hapart ih he hk
    | _ => exact hother (by rw [hk]; decide)

end CodeMend.Flow
