import CodeMend.Check.Run
import CodeMend.Proofs.Flow.Answers
import CodeMend.Proofs.Flow.ForParts
import CodeMend.Proofs.Flow.Occurrences
import CodeMend.Proofs.Tree.Views

/-!
# CodeMend — what a body writes is written inside

Wherever a body writes to a variable, the variable is among those that are said to be written
inside, unless the analysis does not look at the place.  A parameter that the method writes is then
never taken for one that is passed by reference without need.

* **`HasStatement.finds`** — the writes under a statement are found in its form.
* **`writes_are_written_inside`** — the statement, for one write in a body of a parsed source.
* **`write_in_creation_overlooked`** — a body that passes a parameter to a constructor: nothing is
  said to be written, and the parameter is reported.
-/

namespace CodeMend.Flow

open Tree Production

variable {b : Binder} {body n c : NodeId} {e : Expr} {s : Stmt} {v : VariableId}
  {vs : List VariableId}

/-! ## What statements write

What a statement writes is what its parts write. -/

section Written

variable (e : Expr) (a b : Stmt)

theorem Stmt.written_seq : (seq a b).written = a.written ++ b.written := rfl

theorem Stmt.written_branch :
    (branch e a b).written = e.written ++ a.written ++ b.written := rfl

theorem Stmt.written_forLoop (test : Option Expr) : (forLoop test a e).written =
    (test.map Expr.written).getD [] ++ a.written ++ e.written := rfl

theorem Stmt.written_labelled (labels : List Expr) :
    (labelled labels a).written = labels.flatMap Expr.written ++ a.written := rfl

end Written

theorem Stmt.written_ofList (ss : List Stmt) :
    (Stmt.ofList ss).written = ss.flatMap Stmt.written := by
  induction ss with
  | nil => rfl
  | cons s ss ih => exact congrArg (s.written ++ ·) ih

/-- Every way that is offered may be taken. -/
theorem Stmt.written_subset_chooseFrom {last : Stmt} {ways : List Stmt} (h : s ∈ ways ∨ s = last) :
    s.written ⊆ (Stmt.chooseFrom last ways).written := by
  induction ways with
  | nil =>
    obtain rfl : s = last := h.resolve_left List.not_mem_nil
    exact List.Subset.refl _
  | cons w ways ih =>
    rw [List.mem_cons, or_assoc] at h
    rcases h with rfl | h
    · exact List.subset_append_left _ _
    · exact fun v hv => List.mem_append_right _ (ih h hv)

/-! ## Expressions in statements

Every expression in a statement was shown to give all of its writes. -/

/-- The kinds of nodes that hold the parts of a call. -/
def callKinds : List NodeKind := [.invocationExpression, .argumentList]

section Parts

variable (hp : Parsed b.tree) (hn : Below b.tree body n) (hk : b.tree.kind n ∉ callKinds)

include hp hn hk

/-- The writes under an expression of a statement. -/
theorem finds_expression (hc : c ∈ b.tree.childNodes n) (he : HasForm b c e) :
    Finds b body c e.written := by
  refine he.finds hp (hn.child hc) (.of_child hp hc (fun h => ?_) fun h => ?_) <;>
    exact absurd (by rw [h]; decide) hk

/-- The writes under the only expression of a statement. -/
theorem finds_first (hnodes : b.tree.childNodes n = [] ∨ ∃ e, b.tree.childNodes n = [e])
    (hwrites : b.tree.kind n ∉ writeKinds) (he : readFirst? b n = some e) :
    Finds b body n e.written := by
  refine .of_kind hwrites fun c hc => ?_
  rcases hnodes with hnodes | ⟨first, hnodes⟩
  · rw [hnodes] at hc
    cases hc
  · obtain rfl : c = first := by simpa [hnodes] using hc
    rw [readFirst?, hnodes] at he
    exact finds_expression hp hn hk hc ⟨_, he⟩

end Parts

/-- The writes under the value of a variable. -/
theorem finds_declarator (hp : Parsed b.tree) (hn : Below b.tree body n)
    (hk : b.tree.kind n = .variableDeclarator) (hs : readDeclarator? b n = some s) :
    Finds b body n s.written := by
  obtain ⟨names, hnames, hnodes⟩ := hp.childNodes_variableDeclarator hk
  refine .of_kind (by rw [hk]; decide) fun c hc => ?_
  rcases hnodes with hnodes | ⟨clause, hnodes, hclause⟩
  · exact .of_still hp (hnames c (hnodes ▸ hc)).1
  · rw [hnodes, List.mem_append, List.mem_singleton] at hc
    rcases hc with hc | rfl
    · exact .of_still hp (hnames c hc).1
    · have hfound : b.tree.childOfKind? n .equalsValueClause = some c := by
        have hnone : names.find? (fun c => b.tree.kind c == .equalsValueClause) = none :=
          List.find?_eq_none.mpr fun c hc => by simpa using (hnames c hc).2
        rw [Tree.childOfKind?, hnodes, List.find?_append, hnone]
        simp [hclause]
      obtain ⟨e, he, rfl⟩ := readDeclarator?_eq_some hfound hs
      have hbelow : Below b.tree body c := hn.child (by rw [hnodes]; simp)
      refine (finds_first hp hbelow (by rw [hclause]; decide)
        (.inr (hp.childNodes_clause (.inl hclause))) (by rw [hclause]; decide) he).mono ?_
      exact List.subset_append_left _ _

theorem finds_declaration (hp : Parsed b.tree) (hn : Below b.tree body n)
    (hk : b.tree.kind n = .variableDeclaration) (hs : readDeclaration? b n = some s) :
    Finds b body n s.written := by
  obtain ⟨type, declarators, hnodes, htype, hdeclarators⟩ := hp.childNodes_variableDeclaration hk
  obtain ⟨ss, hss, rfl⟩ := Option.map_eq_some_iff.mp hs
  rw [Stmt.written_ofList]
  refine .of_kind (by rw [hk]; decide) fun c hc => ?_
  have hc' := hc
  rw [hnodes, List.mem_cons] at hc'
  rcases hc' with rfl | hc'
  · exact .of_still hp htype
  · have hkind := hdeclarators c hc'
    obtain ⟨s, hmem, hform⟩ := exists_of_mapM hss (List.mem_filter.mpr ⟨hc, by simp [hkind]⟩)
    refine (finds_declarator hp (hn.child hc) hkind hform).mono ?_
    exact fun v hv => List.mem_flatMap.mpr ⟨s, hmem, hv⟩

/-- The writes under what stands in the head of a statement. -/
theorem finds_headPart (hp : Parsed b.tree) (hn : Below b.tree body n)
    (hk : b.tree.kind n ∉ callKinds) (hc : c ∈ b.tree.childNodes n)
    (hs : readHeadPart? b c = some s) : Finds b body c s.written := by
  unfold readHeadPart? at hs
  split at hs
  next hdeclaration => exact finds_declaration hp (hn.child hc) (by simpa using hdeclaration) hs
  next =>
    obtain ⟨e, he, rfl⟩ := Option.map_eq_some_iff.mp hs
    exact finds_expression hp hn hk hc ⟨_, he⟩

/-! ## Statements

All kinds of statements are gone through, each by the shape of its form. -/

/-- The writes at or under a statement of the body are found in its form. -/
def SoughtStatement (b : Binder) (body n : NodeId) : Prop :=
  ∀ s, HasStatement b n s → Below b.tree body n → Finds b body n s.written

theorem finds_localDeclaration (hp : Parsed b.tree) (hn : Below b.tree body n)
    (hs : HasStatement b n s) (hk : b.tree.kind n = .localDeclarationStatement) :
    Finds b body n s.written := by
  obtain ⟨d, hnodes, hd⟩ := hp.childNodes_localDeclaration hk
  have hfound : b.tree.childOfKind? n .variableDeclaration = some d := by
    simp [childOfKind?, hnodes, hd]
  have hform := hs.localDeclaration hk hfound
  refine .of_kind (by rw [hk]; decide) fun c hc => ?_
  obtain rfl : c = d := by simpa [hnodes] using hc
  exact finds_declaration hp (hn.child hc) hd hform

/-- The kinds of statements of at most one expression. -/
def simpleKinds : List NodeKind :=
  [.expressionStatement, .yieldReturnStatement, .returnStatement, .throwStatement]

/-- Statements of one expression do different things with its value. -/
theorem finds_simpleStatement (hp : Parsed b.tree) (hn : Below b.tree body n)
    (hs : HasStatement b n s) (hk : b.tree.kind n ∈ simpleKinds) : Finds b body n s.written := by
  have hform : ∃ e, readFirst? b n = some e ∧ s.written = e.written := by
    simp only [simpleKinds, List.mem_cons, List.not_mem_nil, or_false] at hk
    rcases hk with hk | hk | hk | hk
    · obtain ⟨e, he, rfl⟩ := hs.evaluation (.inl hk)
      exact ⟨e, he, rfl⟩
    · obtain ⟨e, he, rfl⟩ := hs.evaluation (.inr hk)
      exact ⟨e, he, rfl⟩
    · obtain ⟨e, he, rfl⟩ := hs.leave hk
      exact ⟨e, he, rfl⟩
    · obtain ⟨e, he, rfl⟩ := hs.raise hk
      exact ⟨e, he, rfl⟩
  obtain ⟨e, he, hwritten⟩ := hform
  have hkinds : ∀ k ∈ simpleKinds, k ∉ callKinds ∧ k ∉ writeKinds := by decide
  obtain ⟨hcall, hwrites⟩ := hkinds _ hk
  rw [hwritten]
  exact finds_first hp hn hcall (hp.childNodes_simpleStatement hk) hwrites he

/-- The kinds of statements without parts. -/
def jumpKinds : List NodeKind :=
  [.emptyStatement, .breakStatement, .continueStatement, .yieldBreakStatement]

theorem finds_jump (hp : Parsed b.tree) (hk : b.tree.kind n ∈ jumpKinds) : Finds b body n vs := by
  have hkinds : ∀ k ∈ jumpKinds, k ∉ writeKinds := by decide
  refine .of_kind (hkinds _ hk) fun c hc => ?_
  rw [hp.childNodes_jump hk] at hc
  cases hc

section Step

/-! ### One statement

The writes under the statements under a statement are found; so are those under the statement. -/

variable (hp : Parsed b.tree) (hn : Below b.tree body n)
  (ih : ∀ c ∈ b.tree.childNodes n, ∀ m, Below b.tree c m → SoughtStatement b body m)

include hn ih

/-- The writes under a statement that belongs to another one. -/
theorem finds_statement (hc : c ∈ b.tree.childNodes n) (hs : HasStatement b c s) :
    Finds b body c s.written :=
  ih c hc c .here s hs (hn.child hc)

theorem finds_statements {ns : List NodeId} {ss : List Stmt} (hns : ns ⊆ b.tree.childNodes n)
    (hss : HaveStatements b ns ss) : ∀ c ∈ ns, Finds b body c (ss.flatMap Stmt.written) := by
  intro c hc
  obtain ⟨fuel, jumps, hss⟩ := hss
  obtain ⟨s, hmem, hs⟩ := exists_of_mapM hss hc
  refine (finds_statement hn ih (hns hc) ⟨fuel, jumps, hs⟩).mono ?_
  exact fun v hv => List.mem_flatMap.mpr ⟨s, hmem, hv⟩

theorem finds_block (hs : HasStatement b n s) (hk : b.tree.kind n = .block) :
    Finds b body n s.written := by
  obtain ⟨ss, hss, rfl⟩ := hs.block hk
  rw [Stmt.written_ofList]
  exact .of_kind (by rw [hk]; decide) (finds_statements hn ih (List.Subset.refl _) hss)

include hp

/-- A statement with one expression and one statement under it. -/
theorem finds_two {first second : NodeId} {body' : Stmt}
    (hk : b.tree.kind n ∉ callKinds) (hwrites : b.tree.kind n ∉ writeKinds)
    (hnodes : ∀ c ∈ b.tree.childNodes n, c = first ∨ c = second) (he : HasForm b first e)
    (hs : HasStatement b second body') (hevs : e.written ⊆ vs) (hsvs : body'.written ⊆ vs) :
    Finds b body n vs := by
  refine .of_kind hwrites fun c hc => ?_
  rcases hnodes c hc with rfl | rfl
  · exact (finds_expression hp hn hk hc he).mono hevs
  · exact (finds_statement hn ih hc hs).mono hsvs

theorem finds_while (hs : HasStatement b n s) (hk : b.tree.kind n = .whileStatement) :
    Finds b body n s.written := by
  obtain ⟨test, inner, hnodes⟩ := hp.childNodes_guarded (.inl hk)
  obtain ⟨e, x, he, hx, rfl⟩ := hs.whileLoop hk hnodes
  exact finds_two hp hn ih (by rw [hk]; decide) (by rw [hk]; decide) (by simp [hnodes]) he hx
    (List.subset_append_left _ _) (List.subset_append_right _ _)

theorem finds_lock (hs : HasStatement b n s) (hk : b.tree.kind n = .lockStatement) :
    Finds b body n s.written := by
  obtain ⟨lock, inner, hnodes⟩ := hp.childNodes_guarded (.inr hk)
  obtain ⟨e, x, he, hx, rfl⟩ := hs.lock hk hnodes
  exact finds_two hp hn ih (by rw [hk]; decide) (by rw [hk]; decide) (by simp [hnodes]) he hx
    (List.subset_append_left _ _) (List.subset_append_right _ _)

theorem finds_do (hs : HasStatement b n s) (hk : b.tree.kind n = .doStatement) :
    Finds b body n s.written := by
  obtain ⟨inner, test, hnodes⟩ := hp.childNodes_do hk
  obtain ⟨x, e, hx, he, rfl⟩ := hs.doLoop hk hnodes
  exact finds_two hp hn ih (by rw [hk]; decide) (by rw [hk]; decide)
    (by simp [hnodes, or_comm]) he hx (List.subset_append_right _ _) (List.subset_append_left _ _)

/-- The type of the variable of a loop is not evaluated. -/
theorem finds_forEach (hs : HasStatement b n s) (hk : b.tree.kind n = .forEachStatement) :
    Finds b body n s.written := by
  obtain ⟨type, collection, inner, hnodes, htype⟩ := hp.childNodes_forEach hk
  obtain ⟨e, x, he, hx, rfl⟩ := hs.forEach hk hnodes
  refine .of_kind (by rw [hk]; decide) fun c hc => ?_
  have hc' := hc
  simp only [hnodes, List.mem_cons, List.not_mem_nil, or_false] at hc'
  rcases hc' with rfl | rfl | rfl
  · exact .of_still hp htype
  · refine (finds_expression hp hn (by rw [hk]; decide) hc he).mono ?_
    exact List.subset_append_left _ _
  · refine (finds_statement hn ih hc hx).mono fun v hv => ?_
    exact List.mem_append_right _ (List.mem_append_right _ hv)

theorem finds_using (hs : HasStatement b n s) (hk : b.tree.kind n = .usingStatement) :
    Finds b body n s.written := by
  obtain ⟨head, inner, hnodes, hhead, hinner⟩ := hp.childNodes_using hk
  have hlast : ((b.tree.childNodes n).filter fun c => (b.tree.kind c).isStatement).getLast? =
      some inner := by simp [hnodes, hhead, hinner]
  obtain ⟨parts, x, hparts, hx, rfl⟩ := hs.useResource hk hlast
  refine .of_kind (by rw [hk]; decide) fun c hc => ?_
  have hc' := hc
  simp only [hnodes, List.mem_cons, List.not_mem_nil, or_false] at hc'
  rw [Stmt.written_seq, Stmt.written_ofList]
  rcases hc' with rfl | rfl
  · obtain ⟨p, hp', hform⟩ := exists_of_mapM hparts (x := c) (by simp [hnodes, hhead])
    refine (finds_headPart hp hn (by rw [hk]; decide) hc hform).mono fun v hv => ?_
    exact List.mem_append_left _ (List.mem_flatMap.mpr ⟨p, hp', hv⟩)
  · exact (finds_statement hn ih hc hx).mono (List.subset_append_right _ _)

theorem finds_for (hs : HasStatement b n s) (hk : b.tree.kind n = .forStatement) :
    Finds b body n s.written := by
  obtain ⟨before, test, steps, inner, hparts, hnodes, hone⟩ := forParts_eq hp hk
  obtain ⟨heads, cond, x, es, node, hheads, htest, hnode, hx, hes, rfl⟩ := hs.forLoop hk
  rw [hparts] at hheads htest hnode hes
  obtain rfl := Option.some.inj hnode
  have hcall : b.tree.kind n ∉ callKinds := by rw [hk]; decide
  refine .of_kind (by rw [hk]; decide) fun c hc => ?_
  have hc' := hc
  simp only [hnodes, List.mem_append, List.mem_singleton] at hc'
  rw [Stmt.written_seq, Stmt.written_forLoop, Stmt.written_ofList, written_ofList]
  rcases hc' with ((hbefore | htestMem) | hstep) | rfl
  · obtain ⟨p, hmem, hform⟩ := exists_of_mapM hheads hbefore
    refine (finds_headPart hp hn hcall hc hform).mono fun v hv => ?_
    exact List.mem_append_left _ (List.mem_flatMap.mpr ⟨p, hmem, hv⟩)
  · rcases hone with rfl | ⟨first, rfl⟩
    · cases htestMem
    · obtain rfl := List.mem_singleton.mp htestMem
      obtain ⟨e, he, rfl⟩ := htest
      refine (finds_expression hp hn hcall hc he).mono fun v hv => ?_
      simp [hv]
  · obtain ⟨fuel, hes⟩ := hes
    obtain ⟨e, hmem, he⟩ := exists_of_mapM hes hstep
    refine (finds_expression hp hn hcall hc ⟨fuel, he⟩).mono fun v hv => ?_
    have hsteps : v ∈ es.flatMap Expr.written := List.mem_flatMap.mpr ⟨e, hmem, hv⟩
    simp only [List.mem_append, hsteps, or_true]
  · refine (finds_statement hn ih hc hx).mono fun v hv => ?_
    simp [hv]

/-- The statement behind the word else belongs to a node of its own. -/
theorem finds_if (hs : HasStatement b n s) (hk : b.tree.kind n = .ifStatement) :
    Finds b body n s.written := by
  obtain ⟨view, hview⟩ : ∃ view, IfView.ofNode? b.tree n = some view := by
    obtain ⟨fuel, jumps, h⟩ := hs.step
    simp only [readStmtStep, hk, Option.bind_eq_bind, Option.bind_eq_some_iff] at h
    obtain ⟨view, hview, -⟩ := h
    exact ⟨view, hview⟩
  obtain ⟨e, x, y, he, hx, hy, rfl⟩ := hs.branch hview
  obtain ⟨test, first, hnodes⟩ := hp.childNodes_if hk
  -- the first two nodes are the condition and the statement
  have htwo : ∀ c, c = view.condition ∨ c = view.statement → c ∈ b.tree.childNodes n →
      Finds b body c (Stmt.branch e x y).written := by
    rintro c (rfl | rfl) hc
    · refine (finds_expression hp hn (by rw [hk]; decide) hc he).mono fun v hv => ?_
      simp [Stmt.written_branch, hv]
    · refine (finds_statement hn ih hc hx).mono fun v hv => ?_
      simp [Stmt.written_branch, hv]
  refine .of_kind (by rw [hk]; decide) fun c hc => ?_
  have hc' := hc
  rcases hnodes with hnodes | ⟨other, hnodes, hother⟩
  · obtain ⟨hcondition, hstatement, -⟩ := IfView.parts_eq hview hnodes
    simp only [hnodes, List.mem_cons, List.not_mem_nil, or_false] at hc'
    exact htwo c (hcondition ▸ hstatement ▸ hc') hc
  · obtain ⟨hcondition, hstatement, helse⟩ := IfView.parts_eq hview hnodes
    obtain ⟨second, hsecond⟩ := hp.childNodes_else hother
    simp only [hnodes, List.mem_cons, List.not_mem_nil, or_false, ← or_assoc] at hc'
    rcases hc' with hc' | rfl
    · exact htwo c (hcondition ▸ hstatement ▸ hc') hc
    · have hmem : second ∈ b.tree.childNodes c := by simp [hsecond]
      simp only [List.head?_cons, Option.bind_some, hother, beq_self_eq_true, if_true, hsecond]
        at helse
      rw [helse] at hy
      refine .of_kind (by rw [hother]; decide) fun d hd => ?_
      obtain rfl : d = second := by simpa [hsecond] using hd
      refine (ih c hc d (.child .here hd) y hy ((hn.child hc).child hd)).mono fun v hv => ?_
      simp [Stmt.written_branch, hv]

/-- The writes under a catch clause. -/
theorem finds_catch (hk : b.tree.kind n = .catchClause) {fuel : Nat} {jumps : JumpTargets}
    (hs : readCatch? b (readStmtFuel b fuel jumps) n = some s) : Finds b body n s.written := by
  obtain ⟨ss, hss, rfl⟩ := Option.map_eq_some_iff.mp hs
  rw [Stmt.written_ofList]
  refine .of_kind (by rw [hk]; decide) fun c hc => ?_
  obtain ⟨s, hmem, hform⟩ := exists_of_mapM hss hc
  suffices h : Finds b body c s.written from
    h.mono fun v hv => List.mem_flatMap.mpr ⟨s, hmem, hv⟩
  split at hform
  next hkind => exact .of_still hp (.kind (by rw [hkind]; decide))
  next => exact finds_statement hn ih hc ⟨fuel, jumps, hform⟩
  next =>
    obtain ⟨e, he, rfl⟩ := Option.map_eq_some_iff.mp hform
    exact finds_expression hp hn (by rw [hk]; decide) hc ⟨_, he⟩

theorem finds_try (hs : HasStatement b n s) (hk : b.tree.kind n = .tryStatement) :
    Finds b body n s.written := by
  obtain ⟨block, catches, final, hnodes, hblock, hcatches, hfinal⟩ := hp.childNodes_try hk
  obtain ⟨guarded, ⟨fuel, jumps, block', x, forms, hfound, hx, hforms, hguarded⟩, hcase⟩ :=
    hs.tryStatement hk
  obtain rfl : block = block' := by simpa [tryBlock?, hnodes, hblock] using hfound
  -- what runs in any case comes on top of the rest
  have hguardedSub : guarded.written ⊆ s.written := by
    unfold HasStatement.InAnyCase at hcase
    split at hcase
    · obtain ⟨f, -, rfl⟩ := hcase
      exact List.subset_append_left _ _
    · exact hcase ▸ List.Subset.refl _
  have hbodySub : x.written ⊆ guarded.written := by
    rcases hguarded with ⟨-, rfl⟩ | ⟨last, ways, -, rfl⟩
    · exact List.Subset.refl _
    · exact List.subset_append_left _ _
  have hcatchSub : ∀ form ∈ forms, form.written ⊆ guarded.written := by
    intro form hform
    rcases hguarded with ⟨rfl, -⟩ | ⟨last, ways, hways, rfl⟩
    · cases hform
    · exact fun v hv =>
        List.mem_append_right _ (Stmt.written_subset_chooseFrom (hways form hform) hv)
  refine .of_kind (by rw [hk]; decide) fun c hc => ?_
  have hc' := hc
  rw [hnodes, List.mem_cons, List.mem_append] at hc'
  rcases hc' with rfl | hc' | hc'
  · exact ((finds_statement hn ih hc hx).mono hbodySub).mono hguardedSub
  · have hkind := hcatches c hc'
    obtain ⟨form, hmem, hform⟩ :=
      exists_of_mapM hforms (List.mem_filter.mpr ⟨hc, by simp [hkind]⟩)
    have hcatch := finds_catch hp (hn.child hc)
      (fun d hd m hm => ih c hc m ((Below.child .here hd).trans hm)) hkind hform
    exact (hcatch.mono (hcatchSub form hmem)).mono hguardedSub
  · rcases hfinal with rfl | ⟨clause, rfl, hclause⟩
    · cases hc'
    obtain rfl := List.mem_singleton.mp hc'
    obtain ⟨node, hnode⟩ := hp.childNodes_finally hclause
    have hfinally : finallyBlock? b.tree n = some node := by
      have hnone : catches.find? (fun c => b.tree.kind c == .finallyClause) = none :=
        List.find?_eq_none.mpr fun c hc => by simp [hcatches c hc]
      simp [finallyBlock?, hnodes, hblock, List.find?_append, hnone, hclause, hnode]
    rw [hfinally] at hcase
    obtain ⟨f, hf, rfl⟩ := hcase
    refine .of_kind (by rw [hclause]; decide) fun d hd => ?_
    obtain rfl : d = node := by simpa [hnode] using hd
    refine (ih c hc d (.child .here hd) f hf ((hn.child hc).child hd)).mono ?_
    exact List.subset_append_right _ _

omit ih in
/-- The writes under a label of a switch: in its value, in its pattern or behind the word when. -/
theorem finds_label (hlabel : isLabel b.tree n = true) (he : readLabel? b n = some e) :
    Finds b body n e.written := by
  have hkind : b.tree.kind n = .caseSwitchLabel ∨ b.tree.kind n = .defaultSwitchLabel := by
    simpa [isLabel] using hlabel
  obtain ⟨es, hes, rfl⟩ := Option.map_eq_some_iff.mp he
  rw [written_ofList]
  refine .of_kind (by rcases hkind with hk | hk <;> rw [hk] <;> decide) fun c hc => ?_
  obtain ⟨e, hmem, hform⟩ := exists_of_mapM hes hc
  refine (finds_expression hp hn (by rcases hkind with hk | hk <;> rw [hk] <;> decide) hc
    ⟨_, hform⟩).mono fun v hv => ?_
  exact List.mem_flatMap.mpr ⟨e, hmem, hv⟩

theorem finds_switch (hs : HasStatement b n s) (hk : b.tree.kind n = .switchStatement) :
    Finds b body n s.written := by
  obtain ⟨governing, sections, hnodes, hsections⟩ := hp.childNodes_switch hk
  obtain ⟨e, chosen, he, ⟨last, ways, rfl, hforms, -⟩, rfl⟩ := hs.switch hk hnodes
  refine .of_kind (by rw [hk]; decide) fun c hc => ?_
  have hc' := hc
  rw [hnodes, List.mem_cons] at hc'
  rcases hc' with rfl | hc'
  · exact (finds_expression hp hn (by rw [hk]; decide) hc he).mono (List.subset_append_left _ _)
  · have hkind := hsections c hc'
    obtain ⟨labels, ss, hlabels, hss, hway⟩ := hforms c hc'
    have hsub := Stmt.written_subset_chooseFrom hway
    refine Finds.mono (.of_kind (by rw [hkind]; decide) fun d hd => ?_)
      fun v hv => List.mem_append_right _ (hsub hv)
    by_cases hlabel : isLabel b.tree d = true
    · obtain ⟨form, hmem, hform⟩ := exists_of_mapM hlabels (List.mem_filter.mpr ⟨hd, hlabel⟩)
      refine (finds_label hp ((hn.child hc).child hd) hlabel hform).mono fun v hv => ?_
      exact List.mem_append_left _ (List.mem_flatMap.mpr ⟨form, hmem, hv⟩)
    · have hstatement : d ∈ sectionStatements b.tree c :=
        List.mem_filter.mpr ⟨hd, by simpa using hlabel⟩
      refine (finds_statements (hn.child hc)
        (fun d hd m hm => ih c hc m ((Below.child .here hd).trans hm))
        (fun _ h => (List.mem_filter.mp h).1) hss d hstatement).mono fun v hv => ?_
      rw [Stmt.written_labelled, Stmt.written_ofList]
      exact List.mem_append_right _ hv

end Step

/-- **The writes under a statement are found in its form.** -/
theorem HasStatement.finds (hp : Parsed b.tree) (hs : HasStatement b n s)
    (hn : Below b.tree body n) : Finds b body n s.written := by
  suffices h : ∀ n, SoughtStatement b body n from h n s hs hn
  intro n
  induction n using Below.induction hp with
  | step n ih =>
    intro s hs hn
    cases hk : b.tree.kind n with
    | block => exact finds_block hn ih hs hk
    | localDeclarationStatement => exact finds_localDeclaration hp hn hs hk
    | expressionStatement | yieldReturnStatement | returnStatement | throwStatement =>
      exact finds_simpleStatement hp hn hs (by rw [hk]; decide)
    | emptyStatement | breakStatement | continueStatement | yieldBreakStatement =>
      exact finds_jump hp (by rw [hk]; decide)
    | ifStatement => exact finds_if hp hn ih hs hk
    | whileStatement => exact finds_while hp hn ih hs hk
    | doStatement => exact finds_do hp hn ih hs hk
    | forStatement => exact finds_for hp hn ih hs hk
    | forEachStatement => exact finds_forEach hp hn ih hs hk
    | tryStatement => exact finds_try hp hn ih hs hk
    | switchStatement => exact finds_switch hp hn ih hs hk
    | usingStatement => exact finds_using hp hn ih hs hk
    | lockStatement => exact finds_lock hp hn ih hs hk
    | _ =>
      -- no other node has a form as a statement
      obtain ⟨fuel, jumps, h⟩ := hs.step
      simp only [readStmtStep, hk] at h
      cases h

/-- The writes in a body are found in its form. -/
theorem finds_of_readBody? (hp : Parsed b.tree) (hs : readBody? b body = some s) :
    Finds b body body s.written := by
  unfold readBody? at hs
  split at hs
  next => exact HasStatement.finds hp ⟨_, _, hs⟩ .here
  next hk =>
    obtain ⟨e, hnodes⟩ := hp.childNodes_clause (.inr hk)
    simp only [hnodes, List.head?_cons, Option.bind_eq_bind, Option.bind_some,
      Option.bind_eq_some_iff, Option.pure_def, Option.some.injEq] at hs
    obtain ⟨form, he, rfl⟩ := hs
    refine .of_kind (by rw [hk]; decide) fun c hc => ?_
    obtain rfl : c = e := by simpa [hnodes] using hc
    exact finds_expression hp .here (by rw [hk]; decide) hc ⟨_, he⟩
  next => cases hs

/-! ## The result

A parameter that is written inside is not reported, because the rule looks at exactly this list. -/

/-- A variable that is written inside has no modifier that is not needed. -/
theorem refRule?_of_written {flow : DataFlow} (hv : v ∈ flow.written) :
    Check.refRule? flow v ≠ some .unneededRef := by
  unfold Check.refRule?
  rw [if_neg (by simpa using hv)]
  split <;> simp

/-- A parameter that is written inside is not reported as passed by reference without need. -/
theorem rule_of_written {flow : DataFlow} {parameter : NodeId} {view : ParameterView}
    {method : MethodView} {rules : RuleSet} {f : Finding} (hflow : b.dataFlow? body = some flow)
    (hview : ParameterView.ofNode? b.tree parameter = some view)
    (hmethod : Check.changeableMethod? b.tree parameter = some (method, body))
    (hv : declaredVariable b view.name ∈ flow.written)
    (hf : Check.node b rules parameter = .ok (some f)) : f.rule ≠ .unneededRef := by
  have hkind : b.tree.kind parameter = .parameter := by
    unfold ParameterView.ofNode? at hview
    split at hview
    · cases hview
    next hk => simpa using hk
  have hfound : Check.refParameter b parameter = .ok (some f) := by
    obtain ⟨found, hfound, hf⟩ := exists_of_bind_eq_ok hf
    obtain ⟨rfl, -⟩ := Option.filter_eq_some_iff.mp (Except.ok.inj hf)
    simp only [Check.nodeCheck, hkind] at hfound
    split at hfound
    · exact hfound
    · cases hfound
  simp only [Check.refParameter, hview, hmethod] at hfound
  split at hfound
  · split at hfound
    · cases hfound
    obtain ⟨m, -, hfound⟩ := exists_of_bind_eq_ok hfound
    split at hfound
    · cases hfound
    · have hsome := Except.ok.inj hfound
      simp only [hflow, Option.bind_eq_bind, Option.bind_some, Option.bind_eq_some_iff,
        Option.pure_def, Option.some.injEq] at hsome
      obtain ⟨rule, hrule, rfl⟩ := hsome
      rintro rfl
      exact refRule?_of_written hv hrule
  · cases hfound

/-- **What a body writes is written inside**, and a parameter of the method that it writes is not
reported as passed by reference without need. -/
theorem writes_are_written_inside {text : String} {flow : DataFlow}
    (hparse : parse text = .ok b.tree) (hflow : b.dataFlow? body = some flow)
    (hn : Below b.tree body n) (hwrites : WritesTo b n v) (hseen : ¬ WriteOverlooked b body n) :
    v ∈ flow.written ∧ ∀ parameter view method rules f,
      ParameterView.ofNode? b.tree parameter = some view →
      Check.changeableMethod? b.tree parameter = some (method, body) →
      declaredVariable b view.name = v → Check.node b rules parameter = .ok (some f) →
      f.rule ≠ .unneededRef := by
  have hv : v ∈ flow.written := by
    obtain ⟨s, hs, rfl⟩ := Option.map_eq_some_iff.mp hflow
    exact mem_sorted.mpr (finds_of_readBody? (parsed_of_parse hparse) hs n v hn hwrites hseen)
  refine ⟨hv, ?_⟩
  rintro parameter view method rules f hview hmethod rfl hf
  exact rule_of_written hflow hview hmethod hv hf

/-! ### A body that passes a parameter on

The argument stands in a condition, and so deep inside of a statement. -/

/-- A body with a call in a condition; the call gets the parameter to write to it. -/
def passingText : String :=
  "class C { void M(ref int a) { if (F(ref a)) { } } bool F(ref int x) { return true; } }"

@[irreducible]
def passing : Binder := binderOf passingText

theorem passing_nodes :
    (ArgumentView.ofNode? passing.tree 12).map
      (fun view => (passMode passing.tree view, view.expression)) = some (.ref, 13) ∧
    (InvocationView.ofNode? passing.tree 10).map (fun view => view.arguments.items) = some [12] ∧
    (passing.tree.kind 13 = .identifierName ∧ namedVariable? passing 13 = some ⟨0, 25⟩) ∧
    passing.tree.childNodes 7 = [8] ∧ passing.tree.childNodes 8 = [10, 14] ∧
    passing.tree.childNodes 10 = [9, 11] ∧ passing.tree.childNodes 11 = [12] ∧
    passing.dataFlow? 7 = some ⟨[⟨0, 25⟩], [⟨0, 25⟩], [⟨0, 25⟩]⟩ ∧
    ∀ m ∈ List.range' 7 8, (∀ c ∈ passing.tree.childNodes m, c ∈ List.range' 7 8) ∧
      passing.tree.kind m ≠ .arrayCreationExpression ∧
      ∀ view ∈ InvocationView.ofNode? passing.tree m,
        ∀ a ∈ view.argumentViews passing.tree, passMode passing.tree a ≠ .out := by
  decide +kernel

/-- The tree of a program that is one file.  There is one if it has a node with another under
it. -/
theorem parse_eq_binderOf {text : String} {n c : NodeId} {cs : List NodeId}
    (h : (binderOf text).tree.childNodes n = c :: cs) : parse text = .ok (binderOf text).tree := by
  cases hparse : parse text with
  | error e =>
    have hempty : (default : Document).tree.nodes = #[] := rfl
    simp [binderOf, Solution.ofFiles, Solution.addFile, hparse, Solution.document?, Binder.tree,
      Binder.ofDocument, Tree.childNodes, Tree.children, Tree.data, hempty] at h
    cases h
  | ok t =>
    simp [binderOf, Solution.ofFiles, Solution.addFile, hparse, Solution.document?, Binder.tree,
      Binder.ofDocument]

theorem passing_writes : Below passing.tree 7 12 ∧ WritesTo passing 12 ⟨0, 25⟩ ∧
    ¬ WriteOverlooked passing 7 12 := by
  obtain ⟨hargument, hcall, ⟨hk13, hv13⟩, hn7, hn8, hn10, hn11, -, hplain⟩ := passing_nodes
  obtain ⟨view, hview, hparts⟩ := Option.map_eq_some_iff.mp hargument
  obtain ⟨hmode, hexpression⟩ := Prod.mk.inj hparts
  obtain ⟨call, hcall, hitems⟩ := Option.map_eq_some_iff.mp hcall
  have hbelow : Below passing.tree 7 12 :=
    .child (.child (.child (.child .here (hn7 ▸ List.mem_cons_self)) (hn8 ▸ List.mem_cons_self))
      (hn10 ▸ List.mem_cons_of_mem _ List.mem_cons_self)) (hn11 ▸ List.mem_cons_self)
  have hnodes : ∀ m, Below passing.tree 7 m → m ∈ List.range' 7 8 := fun m hm =>
    hm.mem (by decide) fun m hm => (hplain m hm).1
  refine ⟨hbelow, .argument hview (.inl hmode) (hexpression ▸ .name hk13 hv13), fun h => ?_⟩
  cases h with
  | argument _ hloose => exact hloose 10 call hcall (by rw [hitems]; decide)
  | size hm hk => exact (hplain _ (hnodes _ hm)).2.1 hk
  | place hm hview ha hout => exact (hplain _ (hnodes _ hm)).2.2 _ hview _ ha hout

theorem writes_are_written_inside_passing : ∃ text flow, parse text = .ok passing.tree ∧
    passing.dataFlow? 7 = some flow ∧ Below passing.tree 7 12 ∧ WritesTo passing 12 ⟨0, 25⟩ ∧
      ¬ WriteOverlooked passing 7 12 ∧ ⟨0, 25⟩ ∈ flow.written := by
  obtain ⟨-, -, -, hn7, -, -, -, hflow, -⟩ := passing_nodes
  obtain ⟨hbelow, hwrites, hseen⟩ := passing_writes
  have hparse : parse passingText = .ok passing.tree := by
    unfold passing at hn7 ⊢
    exact parse_eq_binderOf hn7
  refine ⟨passingText, _, hparse, hflow, hbelow, hwrites, hseen, ?_⟩
  exact (writes_are_written_inside hparse hflow hbelow hwrites hseen).1

/-! ### A body that passes a parameter to a constructor

A constructor is not a call to the analysis, and what it is given to write to counts as read only.
-/

/-- A body that makes an object; the constructor gets the parameter to write to it. -/
@[irreducible]
def creating : Binder :=
  binderOf "class C { bool c; C(ref int x) { x = 1; } void M(ref int a) { if (c) new C(ref a); } }"

theorem creating_nodes :
    (ArgumentView.ofNode? creating.tree 26).map
      (fun view => (passMode creating.tree view, view.expression)) = some (.ref, 27) ∧
    (creating.tree.kind 27 = .identifierName ∧ namedVariable? creating 27 = some ⟨0, 57⟩) ∧
    creating.tree.childNodes 20 = [21] ∧ creating.tree.childNodes 21 = [22, 23] ∧
    creating.tree.childNodes 23 = [28] ∧ creating.tree.childNodes 28 = [24, 25] ∧
    creating.tree.childNodes 25 = [26] ∧
    creating.dataFlow? 20 = some ⟨[], [], [⟨0, 57⟩]⟩ ∧
    (Check.node creating [.unneededRef] 18).toOption.map (Option.map Finding.rule) =
      some (some .unneededRef) := by
  decide +kernel

/-- **The argument of the constructor is passed over**, and the parameter is reported. -/
theorem write_in_creation_overlooked :
    (¬ ∀ flow n v, creating.dataFlow? 20 = some flow → Below creating.tree 20 n →
      WritesTo creating n v → v ∈ flow.written) ∧
    ∃ f, Check.node creating [.unneededRef] 18 = .ok (some f) ∧ f.rule = .unneededRef := by
  obtain ⟨hargument, ⟨hk27, hv27⟩, hn20, hn21, hn23, hn28, hn25, hflow, hcheck⟩ := creating_nodes
  obtain ⟨view, hview, hparts⟩ := Option.map_eq_some_iff.mp hargument
  obtain ⟨hmode, hexpression⟩ := Prod.mk.inj hparts
  constructor
  · intro h
    have hstatement : Below creating.tree 20 23 :=
      .child (.child .here (hn20 ▸ List.mem_cons_self))
        (hn21 ▸ List.mem_cons_of_mem _ List.mem_cons_self)
    have hbelow : Below creating.tree 20 26 :=
      .child (.child (.child hstatement (hn23 ▸ List.mem_cons_self))
        (hn28 ▸ List.mem_cons_of_mem _ List.mem_cons_self)) (hn25 ▸ List.mem_cons_self)
    have hwrites : WritesTo creating 26 ⟨0, 57⟩ :=
      .argument hview (.inl hmode) (hexpression ▸ .name hk27 hv27)
    have hmem := h _ _ _ hflow hbelow hwrites
    cases hmem
  · cases hnode : Check.node creating [.unneededRef] 18 with
    | error e =>
      rw [hnode] at hcheck
      cases hcheck
    | ok found =>
      rw [hnode] at hcheck
      obtain ⟨f, rfl, hrule⟩ := Option.map_eq_some_iff.mp (Option.some.inj hcheck)
      exact ⟨f, rfl, hrule⟩

end CodeMend.Flow
