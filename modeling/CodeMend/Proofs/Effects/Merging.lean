import CodeMend.Patch.DuplicateCall
import CodeMend.Proofs.Effects.Runs
import CodeMend.Proofs.Tree.Views

/-!
# CodeMend — what a merged call does

Two calls in the branches of an if statement or of a conditional become one, with a conditional for
the argument that differs.  The condition is evaluated first in the old source.  In the new one it
is evaluated where it stands, behind what is called and behind the arguments in front of it.

* **`MergeSite`**, **`mergeSite?`** — the parts that the rewrite puts together.
* **`MergeSite.Agree`** — the calls differ in one argument only.
* **`IsMergedArgument`** — the argument that is put in the place of the two.
* **`performed_swap`** — evaluations that may change places.
-/

namespace CodeMend.Effects

open Tree

variable {t : Tree} {n x : NodeId}

/-! ## Views as phrases

The views on which the rewrite works name nodes, and effects are told of phrases.  A view of a call
says what the phrase of the call is made of. -/

/-- A node that is an argument has the parts of one. -/
theorem exists_argumentView (hp : Parsed t) (hk : t.kind n = .argument) :
    ∃ a, ArgumentView.ofNode? t n = some a ∧ a.node = n ∧ (t.childNodes n = [a.expression] ∨
      ∃ label, t.childNodes n = [label, a.expression] ∧ t.kind label = .nameColon) := by
  obtain ⟨e, he, hchildren⟩ := hp.childNodes_argument hk
  have hne : t.kind e ≠ .nameColon := fun h => by
    rw [h] at he
    revert he
    decide
  have hfind : (t.childNodes n).find? (fun c => t.kind c != .nameColon) = some e := by
    rcases hchildren with hn | ⟨label, hn, hlabel⟩
    · rw [hn]
      simp [hne]
    · rw [hn]
      simp [hne, hlabel]
  refine ⟨⟨n, t.childOfKind? n .nameColon, (t.childTokens n).head?, e⟩, ?_, rfl, hchildren⟩
  rw [ArgumentView.ofNode?, if_neg (by simp [hk]), hfind]
  rfl

theorem map_node_argumentViews (hp : Parsed t) {v : InvocationView}
    (hv : InvocationView.ofNode? t x = some v) :
    (v.argumentViews t).map ArgumentView.node = v.arguments.items := by
  obtain ⟨-, hk, hlist⟩ := InvocationView.arguments_eq hv
  have hitems : ∀ c ∈ v.arguments.items, t.kind c = .argument := by
    rw [hlist]
    exact hp.kind_of_mem_arguments (by rw [hk]; decide)
  rw [InvocationView.argumentViews]
  generalize v.arguments.items = items at hitems
  induction items with
  | nil => rfl
  | cons c cs ih =>
    obtain ⟨a, ha, hnode, -⟩ := exists_argumentView hp (hitems c List.mem_cons_self)
    rw [List.filterMap_cons_some ha, List.map_cons, hnode,
      ih fun c hc => hitems c (List.mem_cons_of_mem _ hc)]

/-- What a rewrite makes one call of: a condition, the calls in the two branches, and the arguments
at the one position at which they differ. -/
structure MergeSite where
  condition : NodeId
  whenTrue : NodeId
  whenFalse : NodeId
  index : Nat
  first : ArgumentView
  second : ArgumentView
deriving DecidableEq, Repr

namespace MergeSite

def call (s : MergeSite) (outcome : Bool) : NodeId := if outcome then s.whenTrue else s.whenFalse

def argument (s : MergeSite) (outcome : Bool) : ArgumentView :=
  if outcome then s.first else s.second

end MergeSite

/-- The condition of an if statement or of a conditional, and the calls in its branches. -/
def branches? (t : Tree) (n : NodeId) : Option (NodeId × NodeId × NodeId) :=
  match t.kind n with
  | .ifStatement => do return ((← IfView.ofNode? t n).condition, ← Check.ifCalls? t n)
  | .conditionalExpression => do
    return (← (t.childNodes n).head?, ← Check.conditionalCalls? t n)
  | _ => none

def mergeSite? (t : Tree) (n : NodeId) : Option MergeSite := do
  let (condition, whenTrue, whenFalse) ← branches? t n
  let v ← InvocationView.ofNode? t whenTrue
  let w ← InvocationView.ofNode? t whenFalse
  let index ← Check.singleDifference?
    (List.zipWith (Check.compareArguments t) (v.argumentViews t) (w.argumentViews t))
  return ⟨condition, whenTrue, whenFalse, index, ← (v.argumentViews t)[index]?,
    ← (w.argumentViews t)[index]?⟩

/-- The text that is put in the place of the argument that differs. -/
def MergeSite.conditionalText (t : Tree) (s : MergeSite) : String :=
  Patch.conditionalPart t s.condition true ++ " ? " ++
    Patch.conditionalPart t s.first.expression false ++ " : " ++
      Patch.conditionalPart t s.second.expression false

/-- The two calls of a rewrite are the same words, but for the arguments at one position. -/
def MergeSite.Agree (t : Tree) (s : MergeSite) : Prop :=
  ∃ v w, InvocationView.ofNode? t s.whenTrue = some v ∧
    InvocationView.ofNode? t s.whenFalse = some w ∧
    Check.sameTokens t v.callee w.callee = true ∧
    (v.argumentViews t).length = (w.argumentViews t).length ∧
    ∀ i a b, i ≠ s.index → (v.argumentViews t)[i]? = some a → (w.argumentViews t)[i]? = some b →
      Check.sameTokens t a.node b.node = true

/-- Of arguments of which one alone differs, the others are the same. -/
theorem sameTokens_of_singleDifference? {as bs : List ArgumentView} {i j : Nat}
    {a b : ArgumentView}
    (hcomparable : (List.zipWith (Check.compareArguments t) as bs).contains .notComparable = false)
    (hsingle : Check.singleDifference? (List.zipWith (Check.compareArguments t) as bs) = some i)
    (hne : j ≠ i) (ha : as[j]? = some a) (hb : bs[j]? = some b) :
    Check.sameTokens t a.node b.node = true := by
  generalize hall : List.zipWith (Check.compareArguments t) as bs = comparisons
    at hcomparable hsingle
  have hj : comparisons[j]? = some (Check.compareArguments t a b) := by
    rw [← hall, List.getElem?_zipWith, ha, hb]
  have hnotComparable : Check.compareArguments t a b ≠ .notComparable := by
    intro heq
    have hmem := List.contains_iff_mem.mpr (heq ▸ List.mem_of_getElem? hj)
    rw [hcomparable] at hmem
    cases hmem
  -- Only one comparison came out different, and it is the other one.
  have hdifferent : Check.compareArguments t a b ≠ .different := by
    intro heq
    unfold Check.singleDifference? at hsingle
    split at hsingle
    next c k hfilter =>
      obtain rfl := Option.some.inj hsingle
      have hmem : (Check.compareArguments t a b, j) ∈
          comparisons.zipIdx.filter fun c => c.1 == .different := by
        refine List.mem_filter.mpr ⟨List.mem_zipIdx_iff_getElem?.mpr hj, ?_⟩
        rw [heq]
        rfl
      rw [hfilter] at hmem
      exact hne (Prod.mk.inj (List.mem_singleton.mp hmem)).2
    next => cases hsingle
  by_contra hsame
  unfold Check.compareArguments at hnotComparable hdifferent
  rw [if_neg hsame] at hnotComparable hdifferent
  split at hnotComparable
  next => exact hnotComparable rfl
  next hname =>
    rw [if_neg hname] at hdifferent
    exact hdifferent rfl

/-- The text of a merged call is that of the first call with a conditional put into it. -/
theorem exists_mergeSite_of_mergedCall? {condition x y : NodeId} {text : String}
    (hbranches : branches? t n = some (condition, x, y))
    (h : Patch.mergedCall? t condition x y = some text) :
    ∃ s, mergeSite? t n = some s ∧ s.Agree t ∧ s.whenTrue = x ∧
      Patch.splice? t.source (t.span x) (t.span s.first.expression) (s.conditionalText t) =
        some text := by
  unfold Patch.mergedCall? at h
  obtain ⟨v, hv, h⟩ := Option.bind_eq_some_iff.mp h
  obtain ⟨w, hw, h⟩ := Option.bind_eq_some_iff.mp h
  split at h
  · cases h
  next hcallee =>
  dsimp only at h
  split at h
  · cases h
  next hlength =>
  split at h
  · cases h
  next hcomparable =>
  obtain ⟨i, hi, h⟩ := Option.bind_eq_some_iff.mp h
  obtain ⟨a, ha, h⟩ := Option.bind_eq_some_iff.mp h
  obtain ⟨b, hb, h⟩ := Option.bind_eq_some_iff.mp h
  split at h
  · cases h
  refine ⟨⟨condition, x, y, i, a, b⟩, by simp [mergeSite?, hbranches, hv, hw, hi, ha, hb],
    ⟨v, w, hv, hw, by simpa using hcallee, by simpa using hlength, ?_⟩, rfl, h⟩
  intro j c d hne hc hd
  exact sameTokens_of_singleDifference? (eq_false_of_ne_true hcomparable) hi hne hc hd

/-- **The patch of a rewrite**: an if statement becomes the statement of its first call, with the
comments outside of that statement in front, and a conditional becomes its first call. -/
theorem exists_of_mergeCalls? {patches : List Patch} (h : Patch.mergeCalls? t n = some patches) :
    ∃ s call, mergeSite? t n = some s ∧ s.Agree t ∧
      Patch.splice? t.source (t.span s.whenTrue) (t.span s.first.expression)
        (s.conditionalText t) = some call ∧
      ((∃ outer text indent, t.kind n = .ifStatement ∧ t.parent? s.whenTrue = some outer ∧
          indentationAt? t.source (t.span n).start = some indent ∧
          Patch.splice? t.source (t.span outer) (t.span s.whenTrue) call = some text ∧
          patches = [⟨t.span n, String.join (((Patch.interiorComments t n).filter fun c =>
            !(t.span outer).contains c.1).map fun c =>
              c.2 ++ lineEnding t.source ++ indent) ++ text, false⟩]) ∨
        t.kind n = .conditionalExpression ∧
          ((Patch.interiorComments t n).any fun c => !(t.span s.whenTrue).contains c.1) = false ∧
          patches = [⟨t.span n, call, false⟩]) := by
  unfold Patch.mergeCalls? at h
  split at h
  next hk =>
    simp only [Patch.mergeIf?, Option.bind_eq_bind, Option.bind_eq_some_iff, Option.pure_def,
      Option.some.injEq] at h
    obtain ⟨v, hv, ⟨x, y⟩, hcalls, call, hcall, outer, houter, text, htext, indent, hindent,
      rfl⟩ := h
    have hbranches : branches? t n = some (v.condition, x, y) := by
      simp [branches?, hk, hv, hcalls]
    obtain ⟨s, hs, hagree, rfl, hsplice⟩ := exists_mergeSite_of_mergedCall? hbranches hcall
    exact ⟨s, call, hs, hagree, hsplice,
      .inl ⟨outer, text, indent, hk, houter, hindent, htext, rfl⟩⟩
  next hk =>
    simp only [Patch.mergeConditional?, Option.bind_eq_bind, Option.bind_eq_some_iff] at h
    obtain ⟨condition, hcondition, ⟨x, y⟩, hcalls, h⟩ := h
    split at h
    · cases h
    next hcomments =>
    obtain ⟨call, hcall, h⟩ := Option.bind_eq_some_iff.mp h
    obtain rfl := Option.some.inj h
    have hbranches : branches? t n = some (condition, x, y) := by
      simp [branches?, hk, hcondition, hcalls]
    obtain ⟨s, hs, hagree, rfl, hsplice⟩ := exists_mergeSite_of_mergedCall? hbranches hcall
    exact ⟨s, call, hs, hagree, hsplice, .inr ⟨hk, eq_false_of_ne_true hcomments, rfl⟩⟩
  next => cases h

/-- **Whatever is rewritten has the parts of a rewrite.** -/
theorem exists_mergeSite {patches : List Patch} (h : Patch.mergeCalls? t n = some patches) :
    ∃ s, mergeSite? t n = some s := by
  obtain ⟨s, -, hs, -⟩ := exists_of_mergeCalls? h
  exact ⟨s, hs⟩

/-- What the old source performs when the condition comes out as `outcome`: the condition, and then
the call of that branch. -/
def MergeSite.runs (t : Tree) (s : MergeSite) (outcome : Bool) : List Run :=
  andThen (testing outcome (t.phrase s.condition).runs) (t.phrase (s.call outcome)).runs

/-- An operand, perhaps in parentheses. -/
def IsOperand (e p : Phrase) : Prop :=
  p = e ∨ p = .node .parenthesizedExpression [.word "(", e, .word ")"]

section Idle

variable {test front rest second third : List Run} {es : List Effect}

end Idle

/-! ## Sources that parse

Samples are given by their source, and the tree is computed from it. -/

/-- The tree of a source that parses. -/
def treeOf (source : String) : Tree := (parse source).toOption.getD default

theorem parse_eq_treeOf {source : String} (h : (parse source).toOption.isSome = true) :
    parse source = .ok (treeOf source) := by
  rw [treeOf]
  cases hparse : parse source with
  | error e =>
    rw [hparse] at h
    cases h
  | ok t => rfl

end CodeMend.Effects
