import CodeMend.Proofs.Flow.Forms
import CodeMend.Proofs.Tree.Chains
import CodeMend.Proofs.Tree.Views

/-!
# CodeMend — ways stay among nodes

The parts on a way through a node stand under that node, and no way leads into a lambda or a local
function.  So an execution stays among any nodes that hold, with a node, the nodes under it; those
under a function inside of the body need not be among them.

* **`Closed`** — some nodes hold the nodes under them, up to functions of their own.
* **`Part.Stays`** — a part is at one of the nodes.
* **`Way.stays`** — the parts on a way are at the nodes that the part is at.
-/

namespace CodeMend.Flow

open Tree

/-- The kinds of nodes that hold the body of a function of their own. -/
def functionKinds : List NodeKind :=
  [.localFunctionStatement, .simpleLambdaExpression, .parenthesizedLambdaExpression]

/-- Among some nodes are the nodes under each of them, unless it is of a kind that is not gone
into. -/
structure Closed (t : Tree) (stops : List NodeKind) (P : NodeId → Prop) : Prop where
  stops_subset : stops ⊆ functionKinds
  child : ∀ {n c}, P n → t.kind n ∉ stops → c ∈ t.childNodes n → P c
  /-- The sections of a switch are gone into.  They follow the expression that it looks at. -/
  sections : ∀ {n governing sections}, t.kind n = .switchStatement →
    t.childNodes n = governing :: sections → ∀ s ∈ sections, t.kind s ∉ stops

/-- The node that a part is about. -/
def Part.node? : Part → Option NodeId
  | .expr n | .test n _ | .pattern n _ | .place n | .created n | .member n | .declarator n
  | .statement n | .breakable n | .inside n | .round n | .label n _ | .guarded n | .handlers n
  | .caught n | .refused n => some n
  | .argument _ | .write _ => none

variable {b : Binder} {stops : List NodeKind} {P : NodeId → Prop} {n : NodeId} {p : Part}
  {ps : List Part} {events : Trace} {ex : Exit}

/-- A part is at one of some nodes.  Ways through declarators, labels and pieces of try statements
do not ask for the kind of the node, so that it is said here. -/
def Part.Stays (b : Binder) (stops : List NodeKind) (P : NodeId → Prop) : Part → Prop
  | .expr n | .test n _ | .pattern n _ | .place n | .created n | .member n | .statement n
  | .breakable n | .inside n | .round n => P n
  | .argument a => P a.expression
  | .declarator n | .label n _ | .guarded n | .handlers n | .caught n | .refused n =>
    P n ∧ b.tree.kind n ∉ stops
  | .write _ => True

namespace Closed

variable (hP : Closed b.tree stops P)

include hP

/-- Only functions are not gone into. -/
theorem enters {k : NodeKind} (hk : b.tree.kind n = k) (h : k ∉ functionKinds) :
    b.tree.kind n ∉ stops :=
  fun hmem => h (hk ▸ hP.stops_subset hmem)

theorem ofArguments (h : P n) (hn : b.tree.kind n ∉ stops) {view : ArgumentView} {c : NodeId}
    (hc : c ∈ b.tree.childNodes n) (hview : ArgumentView.ofNode? b.tree c = some view) :
    P view.expression :=
  hP.child (hP.child h hn hc) (hP.enters (kind_of_argument hview) (by decide))
    (ArgumentView.mem_childNodes hview)

theorem ofTuple (h : P n) (hn : b.tree.kind n ∉ stops) {item : NodeId}
    (hitem : item ∈ tupleItems b.tree n) : P item := by
  obtain ⟨view, hview, rfl⟩ := List.mem_map.mp hitem
  obtain ⟨c, hc, hview⟩ := List.mem_filterMap.mp hview
  exact hP.ofArguments h hn (mem_childNodes_of_mem_childrenOfKind hc) hview

theorem ofCall (h : P n) {view : InvocationView}
    (hview : InvocationView.ofNode? b.tree n = some view) :
    P view.callee ∧ ∀ a ∈ view.argumentViews b.tree, P a.expression := by
  have hn := hP.enters (kind_of_invocation hview) (by decide)
  unfold InvocationView.ofNode? at hview
  split at hview
  · cases hview
  simp only [Option.bind_eq_bind, Option.bind_eq_some_iff, Option.pure_def, Option.some.injEq]
    at hview
  obtain ⟨callee, hcallee, list, hlist, rfl⟩ := hview
  refine ⟨hP.child h hn (List.mem_of_mem_head? hcallee), fun a ha => ?_⟩
  obtain ⟨c, hc, ha⟩ := List.mem_filterMap.mp ha
  have hlist' := hP.child h hn (mem_childNodes_of_childOfKind? hlist)
  exact hP.ofArguments hlist' (hP.enters (kind_of_childOfKind? hlist) (by decide)) hc ha

theorem ofIf (h : P n) {view : IfView} (hview : IfView.ofNode? b.tree n = some view) :
    P view.condition ∧ P view.statement ∧ ∀ s ∈ view.elseStatement, P s := by
  have hfree := hP.enters (kind_of_if hview) (by decide)
  unfold IfView.ofNode? at hview
  split at hview
  · cases hview
  split at hview
  next condition statement rest hn =>
    simp only [Option.bind_eq_bind, Option.bind_eq_some_iff, Option.pure_def, Option.some.injEq]
      at hview
    obtain ⟨paren, hparen, rfl⟩ := hview
    refine ⟨hP.child h hfree (by simp [hn]), hP.child h hfree (by simp [hn]), fun s hs => ?_⟩
    dsimp only at hs
    split at hs
    next c rest' =>
      split at hs
      next hk =>
        exact hP.child (hP.child h hfree (by simp [hn]))
          (hP.enters (by simpa using hk) (by decide)) (List.mem_of_mem_head? hs)
      next => cases hs
    next => cases hs
  next => cases hview

end Closed

/-- All nodes among the parts of a for statement have a property. -/
structure ForParts.All (P : NodeId → Prop) (p : ForParts) : Prop where
  before : ∀ n ∈ p.before, P n
  test : ∀ n ∈ p.test, P n
  steps : ∀ n ∈ p.steps, P n
  body : ∀ n ∈ p.body, P n

theorem ForParts.All.add {P : NodeId → Prop} {t : Tree} {p : ForParts} (h : p.All P) {c : Child}
    (hc : ∀ n, c = .node n → P n) : (p.add t c).All P := by
  unfold ForParts.add
  cases c with
  | token i =>
    dsimp only
    split
    · exact ⟨h.before, h.test, h.steps, h.body⟩
    · split
      · exact ⟨h.before, h.test, h.steps, h.body⟩
      · exact h
  | node n =>
    have hn := hc n rfl
    have hmore : ∀ ns : List NodeId, (∀ m ∈ ns, P m) → ∀ m ∈ ns ++ [n], P m := by
      intro ns hns m hm
      rcases List.mem_append.mp hm with hm | hm
      · exact hns m hm
      · obtain rfl := List.mem_singleton.mp hm
        exact hn
    dsimp only
    split
    · exact ⟨hmore _ h.before, h.test, h.steps, h.body⟩
    · exact ⟨h.before, hmore _ h.test, h.steps, h.body⟩
    · exact ⟨h.before, h.test, hmore _ h.steps, h.body⟩
    · refine ⟨h.before, h.test, h.steps, fun m hm => ?_⟩
      obtain rfl : n = m := by simpa using hm
      exact hn

theorem forParts_all (t : Tree) (n : NodeId) : (forParts t n).All (· ∈ t.childNodes n) := by
  suffices h : ∀ (cs : List Child) (p : ForParts), p.All (· ∈ t.childNodes n) →
      (∀ c ∈ cs, c ∈ t.children n) → (cs.foldl (ForParts.add t) p).All (· ∈ t.childNodes n) by
    exact h _ {} ⟨by simp, by simp, by simp, by simp⟩ fun c hc => hc
  intro cs
  induction cs with
  | nil => exact fun p hp _ => hp
  | cons c cs ih =>
    intro p hp hcs
    refine ih _ (hp.add fun m hm => ?_) fun c' hc' => hcs c' (List.mem_cons_of_mem _ hc')
    subst hm
    exact List.mem_filterMap.mpr ⟨_, hcs _ List.mem_cons_self, rfl⟩

/-! ## The parts on a way

Every rule of execution takes its parts from the node that it is about.  A set of nodes that is
closed under this is not left by any execution. -/

theorem stays_declaredPart {identifier : Option TokenId} (hp : p ∈ declaredPart b identifier) :
    p.Stays b stops P := by
  obtain ⟨i, -, rfl⟩ := List.mem_map.mp hp
  trivial

theorem stays_catchParts (h : P n) (hp : p ∈ catchParts b n) : p.Stays b stops P := by
  unfold catchParts at hp
  split at hp
  · exact stays_declaredPart hp
  · obtain rfl := List.mem_singleton.mp hp
    exact h
  · obtain rfl := List.mem_singleton.mp hp
    exact h

namespace Closed

variable (hP : Closed b.tree stops P)

include hP

theorem stays_firstPart (h : P n) (hn : b.tree.kind n ∉ stops) (hp : p ∈ firstPart b.tree n) :
    p.Stays b stops P := by
  obtain ⟨c, hc, rfl⟩ := List.mem_map.mp hp
  exact hP.child h hn (List.mem_of_mem_take hc)

theorem stays_declarationParts (h : P n) (hn : b.tree.kind n ∉ stops)
    (hp : p ∈ declarationParts b.tree n) : p.Stays b stops P := by
  obtain ⟨c, hc, rfl⟩ := List.mem_map.mp hp
  exact ⟨hP.child h hn (mem_childNodes_of_mem_childrenOfKind hc),
    hP.enters (kind_of_mem_childrenOfKind hc) (by decide)⟩

theorem stays_headParts (h : P n) (hp : p ∈ headParts b.tree n) : p.Stays b stops P := by
  unfold headParts at hp
  split at hp
  next hk => exact hP.stays_declarationParts h (hP.enters (by simpa using hk) (by decide)) hp
  next =>
    obtain rfl := List.mem_singleton.mp hp
    exact h

theorem label (h : P n) (hn : b.tree.kind n ∉ stops) {l : NodeId}
    (hl : l ∈ sectionLabels b.tree n) : P l ∧ b.tree.kind l ∉ stops := by
  obtain ⟨hmem, hlabel⟩ := List.mem_filter.mp hl
  have hk : b.tree.kind l = .caseSwitchLabel ∨ b.tree.kind l = .defaultSwitchLabel := by
    simpa [isLabel] using hlabel
  refine ⟨hP.child h hn hmem, ?_⟩
  rcases hk with hk | hk
  · exact hP.enters hk (by decide)
  · exact hP.enters hk (by decide)

theorem clause (h : P n) (hn : b.tree.kind n ∉ stops) {c : NodeId}
    (hc : c ∈ b.tree.childrenOfKind n .catchClause) : P c ∧ b.tree.kind c ∉ stops :=
  ⟨hP.child h hn (mem_childNodes_of_mem_childrenOfKind hc),
    hP.enters (kind_of_mem_childrenOfKind hc) (by decide)⟩

end Closed

theorem Part.Stays.node (h : p.Stays b stops P) (hn : p.node? = some n) : P n := by
  cases p with
  | argument | write => cases hn
  | declarator | label | guarded | handlers | caught | refused =>
    obtain rfl := Option.some.inj hn
    exact h.1
  | _ =>
    obtain rfl := Option.some.inj hn
    exact h

/-- The way through a part goes on at the same node, or the node is gone into. -/
theorem Way.enters (h : Way b p ps events ex) (hP : Closed b.tree stops P)
    (hp : p.Stays b stops P) (hn : p.node? = some n) :
    (∀ q ∈ ps, q = .expr n) ∨ b.tree.kind n ∉ stops := by
  cases h with
  | write | passedOut | passedIn => cases hn
  | named | unbound | truth | literal | leaf | declaration | matched | unmatched | simplePlace
  | bareDeclarator | empty | yieldBreak | leaveLoop | nextRound | forEachEnd | defaultLabel =>
    exact Or.inl fun q hq => nomatch hq
  | otherPattern | otherPlace | noMembers | otherItem =>
    obtain rfl := Option.some.inj hn
    exact Or.inl fun q hq => List.mem_singleton.mp hq
  | declarator | chosen | unlike | filtered | guarded | handled | unhandled | caught | refused =>
    obtain rfl := Option.some.inj hn
    exact Or.inr hp.2
  | member hitem =>
    obtain rfl := Option.some.inj hn
    exact Or.inr (hP.enters hitem.1 (by decide))
  | _ =>
    obtain rfl := Option.some.inj hn
    refine Or.inr fun hmem => ?_
    have hfunction := hP.stops_subset hmem
    grind [functionKinds, straightKinds, kind_of_invocation, kind_of_if]

/-- **A way stays among the nodes.** -/
theorem Way.stays (h : Way b p ps events ex) (hP : Closed b.tree stops P)
    (hp : p.Stays b stops P) : ∀ q ∈ ps, q.Stays b stops P := by
  intro q hq
  -- A way that goes on at the same node says nothing of its kind, and need not.
  by_cases hsame : ∃ n, p.node? = some n ∧ ∀ q ∈ ps, q = .expr n
  · obtain ⟨n, hn, hall⟩ := hsame
    obtain rfl := hall q hq
    exact hp.node hn
  have hfree : ∀ n, p.node? = some n → b.tree.kind n ∉ stops := fun n hn =>
    (h.enters hP hp hn).resolve_left fun hall => hsame ⟨n, hn, hall⟩
  cases h with
  | named | unbound | truth | literal | leaf | declaration | matched | unmatched | simplePlace
  | write | bareDeclarator | empty | yieldBreak | leaveLoop | nextRound | forEachEnd
  | defaultLabel => cases hq
  | otherPattern | otherPlace | noMembers | otherItem =>
    obtain rfl := List.mem_singleton.mp hq
    exact hp
  | straight | throwing | implicitCreation | members =>
    obtain ⟨c, hc, rfl⟩ := List.mem_map.mp hq
    exact hP.child hp (hfree _ rfl) hc
  | access =>
    obtain ⟨c, hc, rfl⟩ := List.mem_map.mp hq
    exact hP.child hp (hfree _ rfl) (List.mem_of_mem_take hc)
  | cast =>
    obtain ⟨c, hc, rfl⟩ := List.mem_map.mp hq
    exact hP.child hp (hfree _ rfl) (List.mem_of_mem_drop (List.mem_of_mem_take hc))
  | tuple | placesOfTuple =>
    obtain ⟨c, hc, rfl⟩ := List.mem_map.mp hq
    exact hP.ofTuple hp (hfree _ rfl) hc
  -- One node of the children, or two, or three.
  | parenthesized _ hn | increment _ hn | negation _ hn | unary _ hn | andFalse _ hn | orTrue _ hn
  | present _ hn | accessOfNull _ hn | notPattern _ hn | notNull _ hn | placeInParentheses _ hn
  | whileEnd _ hn =>
    obtain rfl := List.mem_singleton.mp hq
    exact hP.child hp (hfree _ rfl) (by simp [hn])
  | unlike hn =>
    obtain rfl := List.mem_singleton.mp hq
    exact hP.child hp.1 hp.2 (by simp [hn])
  | and _ hn | or _ hn | absent _ hn | binary _ hn | accessOfValue _ hn | whenTrue _ hn
  | whenFalse _ hn | isPattern _ hn | assignment _ hn | assignmentIfNull _ hn | compound _ hn
  | lock _ hn | doEnd _ hn =>
    simp only [List.mem_cons, List.not_mem_nil, or_false] at hq
    rcases hq with rfl | rfl
    · exact hP.child hp (hfree _ rfl) (by simp [hn])
    · exact hP.child hp (hfree _ rfl) (by simp [hn])
  | whileRound _ hn | doRound _ hn =>
    simp only [List.mem_cons, List.not_mem_nil, or_false] at hq
    rcases hq with rfl | rfl | rfl
    · exact hP.child hp (hfree _ rfl) (by simp [hn])
    · exact hP.child hp (hfree _ rfl) (by simp [hn])
    · exact hp
  | loop =>
    obtain rfl := List.mem_singleton.mp hq
    exact hp
  -- Calls and creations.
  | call hview =>
    obtain ⟨hcallee, harguments⟩ := hP.ofCall hp hview
    rcases List.mem_cons.mp hq with rfl | hq
    · exact hcallee
    · obtain ⟨a, ha, rfl⟩ := List.mem_map.mp hq
      exact harguments a ha
  | arguments _ hviews =>
    obtain ⟨a, ha, rfl⟩ := List.mem_map.mp hq
    obtain ⟨c, hc, hview⟩ := mem_of_mapM hviews ha
    exact hP.ofArguments hp (hfree _ rfl) hc hview
  | passedOut | passedIn =>
    obtain rfl := List.mem_singleton.mp hq
    exact hp
  | creation =>
    obtain ⟨c, hc, rfl⟩ := List.mem_map.mp hq
    exact hP.child hp (hfree _ rfl) (List.mem_filter.mp hc).1
  | arrayCreation =>
    rcases List.mem_append.mp hq with hq | hq
    · obtain ⟨c, hc, rfl⟩ := List.mem_map.mp hq
      obtain ⟨type, htype, hc⟩ := List.mem_flatMap.mp hc
      obtain ⟨rank, hrank, hc⟩ := List.mem_flatMap.mp hc
      have htypeIn := hP.child hp (hfree _ rfl) (mem_childNodes_of_mem_childrenOfKind htype)
      have hrankIn := hP.child htypeIn (hP.enters (kind_of_mem_childrenOfKind htype) (by decide))
        (mem_childNodes_of_mem_childrenOfKind hrank)
      exact hP.child hrankIn (hP.enters (kind_of_mem_childrenOfKind hrank) (by decide)) hc
    · obtain ⟨c, hc, rfl⟩ := List.mem_map.mp hq
      exact hP.child hp (hfree _ rfl) (List.mem_filter.mp hc).1
  | member hitem =>
    obtain rfl := List.mem_singleton.mp hq
    obtain ⟨rest, hn⟩ := hitem.2.2.1
    exact hP.child hp (hfree _ rfl) (by simp [hn])
  -- Statements.
  | declarator hclause =>
    rcases List.mem_append.mp hq with hq | hq
    · exact hP.stays_firstPart (hP.child hp.1 hp.2 (mem_childNodes_of_childOfKind? hclause))
        (hP.enters (kind_of_childOfKind? hclause) (by decide)) hq
    · exact stays_declaredPart hq
  | block =>
    obtain ⟨c, hc, rfl⟩ := List.mem_map.mp hq
    exact hP.child hp (hfree _ rfl) hc
  | localDeclaration _ hd =>
    exact hP.stays_declarationParts
      (hP.child hp (hfree _ rfl) (mem_childNodes_of_childOfKind? hd))
      (hP.enters (kind_of_childOfKind? hd) (by decide)) hq
  | evaluation | leave | raise => exact hP.stays_firstPart hp (hfree _ rfl) hq
  | ifTrue hview =>
    obtain ⟨hcondition, hstatement, -⟩ := hP.ofIf hp hview
    simp only [List.mem_cons, List.not_mem_nil, or_false] at hq
    rcases hq with rfl | rfl
    · exact hcondition
    · exact hstatement
  | ifFalse hview =>
    obtain ⟨hcondition, -, hother⟩ := hP.ofIf hp hview
    rcases List.mem_cons.mp hq with rfl | hq
    · exact hcondition
    · obtain ⟨c, hc, rfl⟩ := List.mem_map.mp hq
      exact hother c (by simpa using hc)
  | useResource _ hbody =>
    rcases List.mem_append.mp hq with hq | hq
    · obtain ⟨c, hc, hq⟩ := List.mem_flatMap.mp hq
      exact hP.stays_headParts (hP.child hp (hfree _ rfl) (List.mem_filter.mp hc).1) hq
    · obtain rfl := List.mem_singleton.mp hq
      exact hP.child hp (hfree _ rfl) (List.mem_filter.mp (List.mem_of_getLast? hbody)).1
  | forLoop =>
    rcases List.mem_append.mp hq with hq | hq
    · obtain ⟨c, hc, hq⟩ := List.mem_flatMap.mp hq
      exact hP.stays_headParts (hP.child hp (hfree _ rfl) ((forParts_all _ _).before c hc)) hq
    · obtain rfl := List.mem_singleton.mp hq
      exact hp
  | forEnd _ htest =>
    obtain rfl := List.mem_singleton.mp hq
    exact hP.child hp (hfree _ rfl) ((forParts_all _ _).test _ (by simp [htest]))
  | forRound _ hbody =>
    simp only [List.mem_append, List.mem_cons, List.mem_map, List.not_mem_nil, or_false] at hq
    rcases hq with ⟨c, hc, rfl⟩ | rfl | ⟨c, hc, rfl⟩ | rfl
    · exact hP.child hp (hfree _ rfl) ((forParts_all _ _).test c (List.mem_of_mem_take hc))
    · exact hP.child hp (hfree _ rfl) ((forParts_all _ _).body _ (by simp [hbody]))
    · exact hP.child hp (hfree _ rfl) ((forParts_all _ _).steps c hc)
    · exact hp
  | forEach _ hn | switch _ hn =>
    simp only [List.mem_cons, List.not_mem_nil, or_false] at hq
    rcases hq with rfl | rfl
    · exact hP.child hp (hfree _ rfl) (by simp [hn])
    · exact hp
  | forEachRound _ hn =>
    simp only [List.mem_append, List.mem_cons, List.not_mem_nil, or_false] at hq
    rcases hq with hq | rfl | rfl
    · exact stays_declaredPart hq
    · exact hP.child hp (hfree _ rfl) (by simp [hn])
    · exact hp
  | chooseSection hk hn htried hgroup hlabel =>
    have hsection : ∀ s ∈ _, P s := fun s hs =>
      hP.child hp (hfree _ rfl) (by rw [hn]; exact List.mem_cons_of_mem _ hs)
    simp only [List.mem_append, List.mem_cons, List.mem_map] at hq
    rcases hq with ⟨l, hl, rfl⟩ | rfl | ⟨c, hc, rfl⟩
    · obtain ⟨s, hs, hl⟩ := htried l hl
      exact hP.label (hsection s hs) (hP.sections hk hn s hs) hl
    · exact hP.label (hsection _ hgroup) (hP.sections hk hn _ hgroup) hlabel
    · exact hP.child (hsection _ hgroup) (hP.sections hk hn _ hgroup) (List.mem_filter.mp hc).1
  | noSection hk hn htried =>
    obtain ⟨l, hl, rfl⟩ := List.mem_map.mp hq
    obtain ⟨s, hs, hl⟩ := htried l hl
    exact hP.label (hP.child hp (hfree _ rfl) (by rw [hn]; exact List.mem_cons_of_mem _ hs))
      (hP.sections hk hn s hs) hl
  | chosen hn =>
    rcases List.mem_cons.mp hq with rfl | hq
    · exact hP.child hp.1 hp.2 (by simp [hn])
    · obtain ⟨c, hc, rfl⟩ := List.mem_map.mp hq
      exact hP.child hp.1 hp.2 (by simp [hn, hc])
  | filtered hn =>
    simp only [List.mem_append, List.mem_cons, List.mem_map, List.not_mem_nil, or_false] at hq
    rcases hq with rfl | ⟨c, hc, rfl⟩ | rfl
    · exact hP.child hp.1 hp.2 (by simp [hn])
    · exact hP.child hp.1 hp.2 (by simp [hn, hc])
    · exact hP.child hp.1 hp.2 (by simp [hn])
  -- Exceptions.
  | unguarded =>
    obtain rfl := List.mem_singleton.mp hq
    exact ⟨hp, hfree _ rfl⟩
  | guarded hbody =>
    obtain rfl := List.mem_singleton.mp hq
    exact hP.child hp.1 hp.2 (List.mem_of_find?_eq_some hbody)
  | handled hrefused hclause =>
    simp only [List.mem_append, List.mem_map, List.mem_singleton] at hq
    rcases hq with ⟨c, hc, rfl⟩ | rfl
    · exact hP.clause hp.1 hp.2 (hrefused c hc)
    · exact hP.clause hp.1 hp.2 hclause
  | unhandled hrefused =>
    obtain ⟨c, hc, rfl⟩ := List.mem_map.mp hq
    exact hP.clause hp.1 hp.2 (hrefused c hc)
  | caught =>
    obtain ⟨c, hc, hq⟩ := List.mem_flatMap.mp hq
    exact stays_catchParts (hP.child hp.1 hp.2 hc) hq
  | refused hn =>
    simp only [List.mem_append, List.mem_flatMap, List.mem_singleton] at hq
    rcases hq with ⟨c, hc, hq⟩ | rfl
    · exact stays_catchParts (hP.child hp.1 hp.2 (by simp [hn, hc])) hq
    · exact hP.child hp.1 hp.2 (by simp [hn])

end CodeMend.Flow
