import CodeMend.Proofs.Flow.Fixpoint
import CodeMend.Proofs.Flow.WrittenInside
import CodeMend.Proofs.Tree.Chains
import CodeMend.Proofs.Tree.Order

/-!
# CodeMend — a condition and its value

An expression is evaluated for its value or as a condition.  The two walks take negations, truth
values and the operators of two sides apart in different ways, so it has to be shown that they
agree: the ways behind a condition meet in what is known behind its value, and both walks find the
same writes and the same early reads, and have no form for the same nodes.

* **`Knowledge.Same`** — two states know the same.
* **`Expr.after_same_tested`**, **`Expr.early_use`** — the agreement for the form of an expression.
* **`readExpr?_eq_step`** — in a parsed tree the form of a node is one step away from the forms
  under it.
* **`condition?`**, **`value?`** — the two walks from a node.
* **`Rules`** — how a walk goes through the nodes that decide about truth values.
* **`conditions_agree_with_values`** — the statement, for the nodes of a parsed source.
-/

namespace CodeMend.Flow

open Tree Production

/-! ## What states know

The two walks visit the same nodes and meet the same ways, but may join them in another order.
States are therefore compared by what they know. -/

namespace Knowledge

variable {k k' k₁ k₂ : Knowledge}

/-- Two states know the same: the lists in them may differ in order. -/
def Same (k k' : Knowledge) : Prop := k.isReachable = k'.isReachable ∧ ∀ v, k.knows v = k'.knows v

theorem Same.refl (k : Knowledge) : k.Same k := ⟨rfl, fun _ => rfl⟩

theorem Same.trans (h : k.Same k₁) (h' : k₁.Same k₂) : k.Same k₂ :=
  ⟨h.1.trans h'.1, fun v => (h.2 v).trans (h'.2 v)⟩

/-- Where two ways meet, a variable is known that is known on both. -/
theorem knows_join (k₁ k₂ : Knowledge) (v : VariableId) :
    (k₁.join k₂).knows v = (k₁.knows v && k₂.knows v) := by
  cases k₁ with
  | unreachable => simp [join, knows]
  | reachable vs =>
    cases k₂ with
    | unreachable => simp [join, knows]
    | reachable ws =>
      rw [Bool.eq_iff_iff]
      simp [join, knows]

/-- It does not matter which way comes first. -/
theorem same_join_comm (k₁ k₂ : Knowledge) : (k₁.join k₂).Same (k₂.join k₁) :=
  ⟨by rw [isReachable_join, isReachable_join, Bool.or_comm],
    fun v => by rw [knows_join, knows_join, Bool.and_comm]⟩

@[simp]
theorem join_self (k : Knowledge) : k.join k = k := join_eq_left (le_refl k)

@[simp]
theorem join_unreachable (k : Knowledge) : k.join .unreachable = k := by cases k <;> rfl

end Knowledge

/-! ## Forms

A form that does not decide about a truth value has the same knowledge on both ways behind it.  For
the others, the two ways meet again in what is known behind the value. -/

namespace Expr

variable {e : Expr}

/-- The truth value of an expression says nothing about the way. -/
def Undecided (e : Expr) : Prop := ∀ k, e.tested k = .same (e.after k)

theorem Undecided.same (h : e.Undecided) (k : Knowledge) :
    (e.after k).Same (e.tested k).join := by
  rw [h k]
  show (e.after k).Same ((e.after k).join (e.after k))
  rw [Knowledge.join_self]
  exact .refl _

/-- **The ways behind a condition meet in what is known behind its value.** -/
theorem after_same_tested (e : Expr) (k : Knowledge) : (e.after k).Same (e.tested k).join := by
  induction e with
  | parenthesized e ih => exact ih
  | negation e ih =>
    -- the ways are swapped, and so is the order in which they meet
    have hafter : (negation e).after k = e.after k := e.side_value k false
    rw [hafter]
    exact ih.trans (Knowledge.same_join_comm _ _)
  | literal c =>
    cases c with
    | true =>
      show k.Same (k.join .unreachable)
      rw [Knowledge.join_unreachable]
      exact .refl k
    | false => exact .refl k
  | conjunction a b | disjunction a b => exact .refl _
  | passed mode e => cases mode <;> exact Undecided.same (fun _ => rfl) k
  | _ => exact Undecided.same (fun _ => rfl) k

/-- What is read early does not depend on what an expression is evaluated for. -/
theorem early_use (e : Expr) (use use' : Use) (k : Knowledge) : e.early use k = e.early use' k := by
  induction e with
  | parenthesized e ih | negation e ih => exact ih
  | passed mode e => cases mode <;> rfl
  | _ => rfl

/-- The expression decides about a truth value itself. -/
def decides : Expr → Bool
  | .literal _ | .parenthesized _ | .negation _ | .conjunction _ _ | .disjunction _ _ => true
  | _ => false

theorem undecided_of_decides (h : e.decides = false) : e.Undecided := by
  cases e with
  | literal | parenthesized | negation | conjunction | disjunction => cases h
  | passed mode e => cases mode <;> exact fun _ => rfl
  | _ => exact fun _ => rfl

@[simp]
theorem decides_ofList (es : List Expr) : (ofList es).decides = false := by cases es <;> rfl

@[simp]
theorem decides_tuple (es : List Expr) : (es.foldr tuple constant).decides = false := by
  cases es <;> rfl

end Expr

/-! ## The form of a node, from the forms under it

A form is read from a node by the forms of the nodes under it, so what is known of one step is known
of all. -/

variable {b : Binder} {n : NodeId} {e : Expr}

theorem mapM_congr {α β : Type} {f g : α → Option β} {xs : List α} (h : ∀ x ∈ xs, f x = g x) :
    xs.mapM f = xs.mapM g := by
  induction xs with
  | nil => rfl
  | cons x xs ih =>
    rw [List.mapM_cons, List.mapM_cons, h x List.mem_cons_self,
      ih fun y hy => h y (List.mem_cons_of_mem _ hy)]

/-- Two readings agree on the nodes strictly under a node. -/
def AgreeUnder (t : Tree) (n : NodeId) (read read' : NodeId → Option Expr) : Prop :=
  ∀ c ns, Rises t c ns n → ns ≠ [] → read c = read' c

namespace AgreeUnder

variable {t : Tree} {read read' : NodeId → Option Expr} (h : AgreeUnder t n read read')

include h

theorem child {c : NodeId} (hc : c ∈ t.childNodes n) : read c = read' c :=
  h c [n] (.up hc (.here n)) (by simp)

theorem mapM {ns : List NodeId} (hns : ns ⊆ t.childNodes n) : ns.mapM read = ns.mapM read' :=
  mapM_congr fun _ hc => h.child (hns hc)

theorem tuple : (tupleItems t n).mapM read = (tupleItems t n).mapM read' := by
  refine mapM_congr fun item hitem => ?_
  obtain ⟨view, hview, rfl⟩ := List.mem_map.mp hitem
  obtain ⟨c, hc, hview⟩ := List.mem_filterMap.mp hview
  exact h _ [c, n] (.up (ArgumentView.mem_childNodes hview)
    (.up (mem_childNodes_of_mem_childrenOfKind hc) (.here n))) (by simp)

theorem call {view : InvocationView} (hview : InvocationView.ofNode? t n = some view) :
    read view.callee = read' view.callee ∧
      ∀ a ∈ view.argumentViews t, read a.expression = read' a.expression := by
  unfold InvocationView.ofNode? at hview
  split at hview
  · cases hview
  simp only [Option.bind_eq_bind, Option.bind_eq_some_iff, Option.pure_def, Option.some.injEq]
    at hview
  obtain ⟨callee, hcallee, list, hlist, rfl⟩ := hview
  refine ⟨h.child (List.mem_of_mem_head? hcallee), fun a ha => ?_⟩
  obtain ⟨c, hc, ha⟩ := List.mem_filterMap.mp ha
  exact h _ [c, list, n] (.up (ArgumentView.mem_childNodes ha) (.up hc
    (.up (mem_childNodes_of_childOfKind? hlist) (.here n)))) (by simp)

end AgreeUnder

/-- A step of reading looks at the forms under the node only. -/
theorem readExprStep_congr {read read' : NodeId → Option Expr}
    (h : AgreeUnder b.tree n read read') : readExprStep b read n = readExprStep b read' n := by
  have hone : ∀ c ∈ b.tree.childNodes n, read c = read' c := fun c hc => h.child hc
  unfold readExprStep
  dsimp only
  split
  -- nodes without a form under them, and lists of operands
  all_goals first
    | rfl
    | rw [h.mapM (List.take_subset _ _)]
    | rw [h.mapM (List.Subset.trans (List.take_subset _ _) (List.drop_subset _ _))]
    | rw [h.mapM fun _ hc => (List.mem_filter.mp hc).1]
    | rw [h.mapM (List.Subset.refl _)]
    | rw [h.tuple]
    | skip
  case h_20 =>
    cases hview : InvocationView.ofNode? b.tree n with
    | none => rfl
    | some view =>
      obtain ⟨hcallee, harguments⟩ := h.call hview
      have hpassed : (view.argumentViews b.tree).mapM (readPassed b read) =
          (view.argumentViews b.tree).mapM (readPassed b read') := by
        refine mapM_congr fun a ha => ?_
        unfold readPassed
        rw [harguments a ha]
      simp only [Option.bind_eq_bind, Option.bind_some]
      rw [hpassed, hcallee]
  case h_21 =>
    cases hview : ArgumentView.ofNode? b.tree n with
    | none => rfl
    | some view =>
      simp only [Option.bind_eq_bind, Option.bind_some]
      rw [hone _ (ArgumentView.mem_childNodes hview)]
  -- the nodes under all others are listed one by one
  all_goals
    split
    · next hn => simp [hone, hn]
    · rfl

/-- **The form of a node is one step away from the forms under it.**  The reading of a parsed tree
never stops for want of depth. -/
theorem readExprFuel_succ (hp : Parsed b.tree) {ns : List NodeId} (hn : Rises b.tree n ns root)
    {fuel : Nat} (hfuel : b.tree.nodeCount ≤ fuel + ns.length) :
    readExprFuel b fuel n = readExprFuel b (fuel + 1) n := by
  induction fuel generalizing n ns with
  | zero => exact absurd (hn.length_lt hp) (by omega)
  | succ fuel ih =>
    show readExprStep b (readExprFuel b fuel) n = readExprStep b (readExprFuel b (fuel + 1)) n
    refine readExprStep_congr fun c ms hc hms => ih (hc.append hn) ?_
    have hpos := List.length_pos_iff.mpr hms
    rw [List.length_append]
    omega

theorem readExpr?_eq_step (hp : Parsed b.tree) (n : NodeId) :
    readExpr? b n = readExprStep b (readExpr? b) n := by
  show readExprStep b (readExprFuel b b.tree.nodeCount) n = _
  refine readExprStep_congr fun c ms hc hms => ?_
  have hlt : c < b.tree.nodeCount := by
    cases hc with
    | here => exact absurd rfl hms
    | up hc _ => exact (hp.wellFormed.lt_of_mem hc).2.1
  obtain ⟨ns, hns⟩ := hp.exists_rises_root hlt
  exact readExprFuel_succ hp hns (Nat.le_add_right _ _)

/-! ## The two walks

The walk for a condition and the walk for a value are stated as functions of nodes, and each kind of
node has a rule in both. -/

/-- What a walk through an expression finds. -/
structure Walk (α : Type) where
  /-- What is known behind the expression. -/
  behind : α
  written : List VariableId
  /-- The variables that are read where they may be unwritten. -/
  early : List VariableId

namespace Walk

variable {α β γ : Type}

def map (f : α → β) (w : Walk α) : Walk β := ⟨f w.behind, w.written, w.early⟩

/-- A walk, and then another one. -/
def before (w : Walk α) (w' : Walk β) (behind : γ) : Walk γ :=
  ⟨behind, w.written ++ w'.written, w.early ++ w'.early⟩

end Walk

/-- Evaluate a node as a condition. -/
def condition? (b : Binder) (n : NodeId) (k : Knowledge) : Option (Walk Split) :=
  (readExpr? b n).map fun e => ⟨e.tested k, e.written, e.early .test k⟩

/-- Evaluate a node for its value. -/
def value? (b : Binder) (n : NodeId) (k : Knowledge) : Option (Walk Knowledge) :=
  (readExpr? b n).map fun e => ⟨e.after k, e.written, e.early .value k⟩

/-- A condition with its ways swapped. -/
def Split.swap (s : Split) : Split := ⟨s.whenFalse, s.whenTrue⟩

/-- What is known behind a truth value that is written down. -/
def Split.decided (k : Knowledge) : Bool → Split
  | true => ⟨k, .unreachable⟩
  | false => ⟨.unreachable, k⟩

/-- Evaluate two sides as conditions, the second one where the first one has a value, and put their
ways together. -/
def bothConditions (b : Binder) (left right : NodeId) (needed : Bool) (ways : Split → Split → Split)
    (k : Knowledge) : Option (Walk Split) := do
  let l ← condition? b left k
  let r ← condition? b right (l.behind.side needed)
  return l.before r (ways l.behind r.behind)

/-- The node decides about a truth value itself: it is put in parentheses, a negation, a truth value
or an operation with two conditions. -/
def Decides (t : Tree) (n : NodeId) : Prop :=
  t.kind n = .parenthesizedExpression ∨ negates t n = true ∨
    (t.kind n = .literalExpression ∧ literalTruth? t n ≠ none) ∨
    (t.kind n = .binaryExpression ∧ (operatorText t n = "&&" ∨ operatorText t n = "||"))

/-- The rules of the two walks: how they go through the nodes that decide about a truth value, and
that behind all others both ways are the one behind the value. -/
structure Rules (b : Binder) : Prop where
  parenthesized : ∀ n, b.tree.kind n = .parenthesizedExpression →
    ∃ inner, b.tree.childNodes n = [inner] ∧ ∀ k,
      condition? b n k = condition? b inner k ∧ value? b n k = value? b inner k
  negation : ∀ n, negates b.tree n = true →
    ∃ operand, b.tree.childNodes n = [operand] ∧ ∀ k,
      condition? b n k = (condition? b operand k).map (·.map Split.swap) ∧
        value? b n k = value? b operand k
  truth : ∀ n c, b.tree.kind n = .literalExpression → literalTruth? b.tree n = some c → ∀ k,
    condition? b n k = some ⟨.decided k c, [], []⟩ ∧ value? b n k = some ⟨k, [], []⟩
  conjunction : ∀ n, b.tree.kind n = .binaryExpression → operatorText b.tree n = "&&" →
    ∃ left right, b.tree.childNodes n = [left, right] ∧ ∀ k,
      condition? b n k = bothConditions b left right true
          (fun l r => ⟨r.whenTrue, l.whenFalse.join r.whenFalse⟩) k ∧
        value? b n k = (condition? b n k).map (·.map Split.join)
  disjunction : ∀ n, b.tree.kind n = .binaryExpression → operatorText b.tree n = "||" →
    ∃ left right, b.tree.childNodes n = [left, right] ∧ ∀ k,
      condition? b n k = bothConditions b left right false
          (fun l r => ⟨l.whenTrue.join r.whenTrue, r.whenFalse⟩) k ∧
        value? b n k = (condition? b n k).map (·.map Split.join)
  other : ∀ n, ¬ Decides b.tree n → ∀ k,
    condition? b n k = (value? b n k).map (·.map Split.same)

section Rules

/-! ### The nodes that do not decide

For all kinds of nodes but four, the walk for a condition is that for a value. -/

theorem decides_readLiteral (h : literalTruth? b.tree n = none) :
    (readLiteral b n).decides = false := by
  rw [readLiteral_of_other h]
  rfl

theorem decides_unaryOperation (h : negates b.tree n = false) (operand : Expr) :
    (unaryOperation b.tree n operand).decides = false := by
  rw [unaryOperation_eq, h]
  split <;> rfl

theorem decides_binaryOperation {operator : String} (hand : operator ≠ "&&") (hor : operator ≠ "||")
    (left right : Expr) : (binaryOperation operator left right).decides = false := by
  unfold binaryOperation
  split
  · exact absurd rfl hand
  · exact absurd rfl hor
  · rfl
  · rfl

/-- The forms of nodes that do not decide about a truth value do not either. -/
theorem decides_of_step {read : NodeId → Option Expr} (h : readExprStep b read n = some e)
    (hn : ¬ Decides b.tree n) : e.decides = false := by
  obtain ⟨hparenthesized, hnegates, hliteral, hbinary⟩ : b.tree.kind n ≠ .parenthesizedExpression ∧
      negates b.tree n = false ∧
      (b.tree.kind n = .literalExpression → literalTruth? b.tree n = none) ∧
      (b.tree.kind n = .binaryExpression →
        operatorText b.tree n ≠ "&&" ∧ operatorText b.tree n ≠ "||") := by
    unfold Decides at hn
    simp only [not_or, not_and, not_not, Bool.not_eq_true] at hn
    exact hn
  unfold readExprStep at h
  dsimp only at h
  split at h <;> rename_i hkind
  all_goals
    try split at h
    all_goals
      try simp only [Option.map_eq_some_iff, Option.bind_eq_some_iff, Option.bind_eq_bind,
        Option.pure_def, Option.some.injEq] at h
      grind [Expr.decides, Expr.decides_ofList, Expr.decides_tuple, decides_readLiteral,
        decides_unaryOperation, decides_binaryOperation, assignment]

/-! ### The nodes that do

For these the condition looks into the operands, and an induction shows that its two ways meet in
what the value knows. -/

/-- A negation has one token, so it raises or lowers nothing. -/
theorem increments_of_negates (ho : InOrder b.tree) (h : negates b.tree n = true) :
    increments b.tree n = false := by
  obtain ⟨hk, hmark⟩ : b.tree.kind n = .prefixUnaryExpression ∧
      (b.tree.token (b.tree.firstToken n)).isMark "!" = true := by
    unfold negates at h
    simpa using h
  obtain ⟨cs, hword, hstands⟩ := ho.parsed.exists_children hk (by decide)
  obtain ⟨_, ⟨i, -, -, rfl⟩, _, hrest, rfl⟩ := mem_prod_cons.mp hword
  rw [List.prod_singleton] at hrest
  obtain ⟨_, hexpression, rfl⟩ := hrest
  obtain ⟨⟨c, k, ds, rfl, -⟩, -⟩ := hexpression
  have hchildren : b.tree.children n = [.token i, .node c] := by
    cases hstands with
    | node _ _ hchildren => exact hchildren
  have htext : (b.tree.token i).text = "!" := by
    rw [ho.firstToken_eq hchildren] at hmark
    exact Parser.text_of_isMark hmark
  have htokens : b.tree.childTokens n = [i] := by
    rw [childTokens, hchildren]
    rfl
  unfold increments
  rw [htokens]
  simp [Token.isMark, htext]

variable (hp : Parsed b.tree)

include hp

theorem readExpr?_parenthesized (hk : b.tree.kind n = .parenthesizedExpression) :
    ∃ inner, b.tree.childNodes n = [inner] ∧
      readExpr? b n = (readExpr? b inner).map .parenthesized := by
  obtain ⟨inner, hn⟩ := hp.childNodes_parenthesized hk
  refine ⟨inner, hn, ?_⟩
  rw [readExpr?_eq_step hp]
  simp [readExprStep, hk, hn, Option.map_eq_bind]

theorem readExpr?_negation (hincrements : increments b.tree n = false)
    (h : negates b.tree n = true) :
    ∃ operand, b.tree.childNodes n = [operand] ∧
      readExpr? b n = (readExpr? b operand).map .negation := by
  have hk : b.tree.kind n = .prefixUnaryExpression := by
    unfold negates at h
    simp only [Bool.and_eq_true, beq_iff_eq] at h
    exact h.1
  obtain ⟨operand, hn⟩ := hp.childNodes_unary (.inl hk)
  refine ⟨operand, hn, ?_⟩
  rw [readExpr?_eq_step hp]
  simp [readExprStep, hk, hn, unaryOperation_eq, hincrements, h, Option.map_eq_bind]

theorem readExpr?_binary (hk : b.tree.kind n = .binaryExpression) :
    ∃ left right, b.tree.childNodes n = [left, right] ∧
      readExpr? b n = (readExpr? b left).bind fun l =>
        (readExpr? b right).map fun r => binaryOperation (operatorText b.tree n) l r := by
  obtain ⟨left, right, hn⟩ := hp.childNodes_pair (n := n) (by simp [hk])
  refine ⟨left, right, hn, ?_⟩
  rw [readExpr?_eq_step hp]
  simp [readExprStep, hk, hn, Option.map_eq_bind]

theorem readExpr?_literal (hk : b.tree.kind n = .literalExpression) :
    readExpr? b n = some (readLiteral b n) := by
  rw [readExpr?_eq_step hp]
  simp [readExprStep, hk]

theorem rules_of_parsed (ho : InOrder b.tree) : Rules b where
  parenthesized n hk := by
    obtain ⟨inner, hn, hread⟩ := readExpr?_parenthesized hp hk
    refine ⟨inner, hn, fun k => ?_⟩
    unfold condition? value?
    rw [hread, Option.map_map, Option.map_map]
    exact ⟨rfl, rfl⟩
  negation n h := by
    obtain ⟨operand, hn, hread⟩ := readExpr?_negation hp (increments_of_negates ho h) h
    refine ⟨operand, hn, fun k => ?_⟩
    unfold condition? value?
    rw [hread, Option.map_map, Option.map_map, Option.map_map]
    refine ⟨rfl, Option.map_congr fun e _ => ?_⟩
    have hafter : (Expr.negation e).after k = e.after k := e.side_value k false
    simp [hafter, Expr.written, Expr.early]
  truth n c hk htruth k := by
    unfold condition? value?
    rw [readExpr?_literal hp hk, readLiteral_of_truth htruth]
    cases c <;> exact ⟨rfl, rfl⟩
  conjunction n hk hoperator := by
    obtain ⟨left, right, hn, hread⟩ := readExpr?_binary hp hk
    refine ⟨left, right, hn, fun k => ?_⟩
    unfold bothConditions condition? value?
    rw [hread, hoperator]
    cases readExpr? b left with
    | none => exact ⟨rfl, rfl⟩
    | some l =>
      cases readExpr? b right with
      | none => exact ⟨rfl, rfl⟩
      | some r => exact ⟨rfl, rfl⟩
  disjunction n hk hoperator := by
    obtain ⟨left, right, hn, hread⟩ := readExpr?_binary hp hk
    refine ⟨left, right, hn, fun k => ?_⟩
    unfold bothConditions condition? value?
    rw [hread, hoperator]
    cases readExpr? b left with
    | none => exact ⟨rfl, rfl⟩
    | some l =>
      cases readExpr? b right with
      | none => exact ⟨rfl, rfl⟩
      | some r => exact ⟨rfl, rfl⟩
  -- All other nodes have a form that does not decide about a truth value.
  other n hn k := by
    unfold condition? value?
    cases hread : readExpr? b n with
    | none => rfl
    | some e =>
      rw [readExpr?_eq_step hp] at hread
      have hundecided := Expr.undecided_of_decides (decides_of_step hread hn) k
      simp [Walk.map, hundecided, e.early_use .test .value k]

end Rules

/-- **A condition and its value agree.** -/
theorem conditions_agree_with_values {source : String} (hparse : parse source = .ok b.tree) :
    Rules b ∧ ∀ n k, (condition? b n k = none ↔ value? b n k = none) ∧
      ∀ c, condition? b n k = some c → ∃ e, value? b n k = some e ∧
        e.behind.Same c.behind.join ∧ e.written = c.written ∧ e.early = c.early := by
  refine ⟨rules_of_parsed (parsed_of_parse hparse) (inOrder_of_parse hparse), fun n k => ⟨?_, fun c hc => ?_⟩⟩
  · unfold condition? value?
    rw [Option.map_eq_none_iff, Option.map_eq_none_iff]
  · obtain ⟨e, he, rfl⟩ := Option.map_eq_some_iff.mp hc
    refine ⟨⟨e.after k, e.written, e.early .value k⟩, ?_, e.after_same_tested k, rfl,
      e.early_use .value .test k⟩
    unfold value?
    rw [he]
    rfl

/-- A method that returns a negation, in which a variable may be written. -/
def negatingText : String :=
  "class C \x7b bool M(bool s) \x7b bool x; return !(s || (x = s)); \x7d \x7d"

@[irreducible]
def negating : Binder := binderOf negatingText

theorem negating_walks :
    negating.tree.childNodes 13 = [20] ∧
    (condition? negating 13 (.reachable [])).map (fun c => (c.behind.whenTrue, c.behind.whenFalse,
      c.written, c.early)) = some (.reachable [⟨0, 32⟩], .reachable [], [⟨0, 32⟩],
        [⟨0, 22⟩, ⟨0, 22⟩]) := by
  decide +kernel

/-- When the negation holds, the variable was written; behind its value nothing is known. -/
theorem conditions_agree_with_values_negating : ∃ source c e,
    parse source = .ok negating.tree ∧ condition? negating 13 (.reachable []) = some c ∧
      c.behind.whenTrue = .reachable [⟨0, 32⟩] ∧ c.behind.whenFalse = .reachable [] ∧
      value? negating 13 (.reachable []) = some e ∧ e.behind.knows ⟨0, 32⟩ = false ∧
      e.written = [⟨0, 32⟩] := by
  obtain ⟨hn, hcondition⟩ := negating_walks
  obtain ⟨c, hc, hfound⟩ := Option.map_eq_some_iff.mp hcondition
  have hparse : parse negatingText = .ok negating.tree := by
    unfold negating at hn ⊢
    exact parse_eq_binderOf hn
  obtain ⟨-, hagree⟩ := conditions_agree_with_values hparse
  obtain ⟨e, he, hsame, hwritten, -⟩ := (hagree 13 (.reachable [])).2 c hc
  obtain ⟨htrue, hfalse, hvars, -⟩ := by simpa only [Prod.mk.injEq] using hfound
  refine ⟨negatingText, c, e, hparse, hc, htrue, hfalse, he, ?_, hwritten.trans hvars⟩
  rw [hsame.2, Split.join, htrue, hfalse]
  rfl

end CodeMend.Flow
