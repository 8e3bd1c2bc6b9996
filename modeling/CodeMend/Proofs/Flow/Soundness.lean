import CodeMend.Flow.Analysis
import CodeMend.Proofs.Flow.Expressions
import CodeMend.Proofs.Flow.Rounds
import CodeMend.Proofs.Text.Sorting

/-!
# CodeMend — the analysis accounts for every execution

One induction over executions of a body: whatever is gone through, its form accounts for the trace.
Each way of the table `Way` is one case; the parts on it account for their traces, and the lemmas on
forms put them together.

* **`Way.accounts`** — one step: a way is accounted for when the parts on it are.
* **`Runs.accounts`** — the induction.
-/

namespace CodeMend.Flow

variable {b : Binder} {body : NodeId} {F : Watch} {n : NodeId} {p : Part} {ps : List Part}
  {tr events : Trace} {ex ex' : Exit} {c : Bool}

/-! ## One way

All kinds of nodes are put together into one step: what a node does is accounted for if its parts
are. -/

/-- Operands one after the other, of a node whose form is nothing more than that. -/
theorem accounts_plain {ns : List NodeId}
    (hform : ∀ e, HasForm b n e → ∃ es, HaveForms b ns es ∧ e = .ofList es) {f : NodeId → Part}
    (hf : ∀ n e tr ex, HasForm b n e → (f n).Accounts b body F tr ex →
      Expr.Accounts F False .value e tr ex)
    (h : Each (Part.Sound b body F) (ns.map f) tr ex) :
    (Part.expr n).Accounts b body F (tr ++ ex.emits []) (ex.andThen (.done c)) := by
  intro e he use
  obtain ⟨es, hes, rfl⟩ := hform e he
  exact ((accounts_of_forms hes h hf).toEnd c).ofList use

theorem Way.expr_accounts (hF : F.Fits b body) (hn : Below b.tree body n)
    (h : Way b (.expr n) ps events ex) (hps : Each (Part.Sound b body F) ps tr ex') :
    (Part.expr n).Accounts b body F (tr ++ ex'.emits events) (ex'.andThen ex) := by
  have hoperand : ∀ n e tr ex, HasForm b n e → (Part.expr n).Accounts b body F tr ex →
      Expr.Accounts F False .value e tr ex := fun n e tr ex he hn => hn e he .value
  -- A rule of execution knows the kind of its node, and so which form the node has.
  cases h with
  | named hk hname =>
    intro e he use
    obtain rfl := he.identifier hk
    rw [hname]
    exact hps.leaf (.name _)
  | unbound hk hname =>
    intro e he use
    obtain rfl := he.identifier hk
    exact hps.leaf (.silent fun k => by rw [Expr.split, Split.side_same])
  | truth hk htruth =>
    intro e he use
    obtain rfl := he.literal hk
    rw [readLiteral_of_truth htruth]
    exact hps.leaf (.literal _)
  | literal hk htruth hevents =>
    intro e he use
    obtain rfl := he.literal hk
    rw [readLiteral_of_other htruth]
    exact hps.leaf (accounts_holes hF hn hk hevents use)
  | leaf hk =>
    intro e he use
    obtain rfl := he.leaf hk
    exact hps.leaf (.silent fun k => by rw [Expr.split, Split.side_same])
  | straight hk =>
    intro e he use
    obtain ⟨es, hes, hform⟩ := he.straight hk
    have hall := accounts_of_operands hes hps
    rcases hform with rfl | rfl
    · exact (hall.toEnd _).ofList use
    · have hbraces : Expr.Accounts F False .value (.initializer (.ofList es)) tr ex' :=
        hall.carry (fun _ hk => by rwa [Expr.side_value] at hk ⊢) fun k => List.Subset.refl _
      exact (hbraces.toEnd _).ofValue (fun _ => rfl) fun _ => rfl
  | access hk => exact accounts_plain (fun e he => he.access hk) hoperand hps
  | cast hk => exact accounts_plain (fun e he => he.cast hk) hoperand hps
  | tuple hk =>
    intro e he use
    obtain ⟨es, hes, rfl⟩ := he.tuple hk
    have hall := (accounts_tuple (accounts_of_operands hes hps)).toEnd
    cases es <;> exact (hall _).ofValue (fun _ => rfl) fun _ => rfl
  | throwing hk =>
    intro e he use
    obtain ⟨es, hes, rfl⟩ := he.throwing hk
    have hall := accounts_of_operands hes hps
    rw [Exit.append_emits_nil, Exit.andThen_cut hall.exits]
    exact hall.throwing
  | declaration hk hwrites =>
    intro e he use
    obtain rfl := he.declaration hk
    have hdeclared : Expr.Accounts F (F.v ∈ designatedVariables b n) .value
        (.declaration (designatedVariables b n)) [] (.done true) := .declared fun _ _ => rfl
    have hwritten := hdeclared.emit hwrites.mem hwrites.not_readsFirst
    exact hps.leaf ((hwritten _).ofValue (fun _ => rfl) fun _ => rfl)
  | parenthesized hk hnodes => exact accounts_parenthesized hk hnodes hps
  | increment hk hnodes hincrements hwrites =>
    exact accounts_increment hk hnodes hincrements hwrites hps
  | negation hk hnodes hincrements hnegates =>
    exact accounts_negation hk hnodes hincrements hnegates hps
  | unary hk hnodes hincrements hnegates => exact accounts_unary hk hnodes hincrements hnegates hps
  | andFalse hk hnodes hoperator =>
    intro e he use
    obtain ⟨l, r, hl, hr, rfl⟩ := he.binary hk hnodes
    rw [hoperator]
    exact accounts_conjunctionLeft hl hps use
  | and hk hnodes hoperator =>
    intro e he use
    obtain ⟨l, r, hl, hr, rfl⟩ := he.binary hk hnodes
    rw [hoperator]
    exact accounts_conjunction hl hr hps use
  | orTrue hk hnodes hoperator =>
    intro e he use
    obtain ⟨l, r, hl, hr, rfl⟩ := he.binary hk hnodes
    rw [hoperator]
    exact accounts_disjunctionLeft hl hps use
  | or hk hnodes hoperator =>
    intro e he use
    obtain ⟨l, r, hl, hr, rfl⟩ := he.binary hk hnodes
    rw [hoperator]
    exact accounts_disjunction hl hr hps use
  | present hk hnodes hoperator =>
    intro e he use
    obtain ⟨l, r, hl, hr, rfl⟩ := he.binary hk hnodes
    rw [hoperator]
    exact accounts_optionalLeftOut hl hps use
  | absent hk hnodes hoperator =>
    intro e he use
    obtain ⟨l, r, hl, hr, rfl⟩ := he.binary hk hnodes
    rw [hoperator]
    exact accounts_optional hl hr hps use
  | binary hk hnodes hoperator =>
    intro e he use
    obtain ⟨l, r, hl, hr, rfl⟩ := he.binary hk hnodes
    exact accounts_binary hl hr hoperator hps use
  | accessOfNull hk hnodes =>
    intro e he use
    obtain ⟨l, r, hl, hr, rfl⟩ := he.conditionalAccess hk hnodes
    exact accounts_optionalLeftOut hl hps use
  | accessOfValue hk hnodes =>
    intro e he use
    obtain ⟨l, r, hl, hr, rfl⟩ := he.conditionalAccess hk hnodes
    exact accounts_optional hl hr hps use
  | whenTrue hk hnodes => exact accounts_conditional true hk hnodes hps
  | whenFalse hk hnodes => exact accounts_conditional false hk hnodes hps
  | isPattern hk hnodes => exact accounts_isPattern hk hnodes hps
  | assignment hk hnodes hoperator hwrites =>
    intro e he use
    obtain ⟨l, r, hl, hr, rfl⟩ := he.assignment hk hnodes
    rw [hoperator]
    exact accounts_assignment hl hr hF hwrites hps use
  | assignmentIfNull hk hnodes hoperator hwrites =>
    intro e he use
    obtain ⟨l, r, hl, hr, rfl⟩ := he.assignment hk hnodes
    rw [hoperator]
    exact accounts_compound hl hr hwrites hps (by decide) use
  -- The one rule that passes over a write: that no watched variable is concerned is granted.
  | notNull hk hnodes hoperator =>
    intro e he use
    obtain ⟨l, r, hl, hr, rfl⟩ := he.assignment hk hnodes
    rw [hoperator, Exit.append_emits_nil]
    refine accounts_notNull hl (fun hnames => hF.ifNull ?_) hps use
    exact ⟨_, _, _, _, hn, hk, hnodes, hoperator, hnames⟩
  | compound hk hnodes hoperator hwrites =>
    intro e he use
    obtain ⟨l, r, hl, hr, rfl⟩ := he.assignment hk hnodes
    exact accounts_compound hl hr hwrites hps (fun h => hoperator (by simp [h])) use
  | call hview hwrites => exact accounts_call hF hn hview hwrites hps
  | arguments hk hviews hwrites => exact accounts_arguments hF hk hviews hwrites hps
  | creation hk =>
    exact accounts_plain (f := .created) (fun e he => he.creation (Or.inl hk))
      (fun n e tr ex he hn => hn e he) hps
  | implicitCreation hk =>
    exact accounts_plain (f := .created) (fun e he => he.implicitCreation hk)
      (fun n e tr ex he hn => hn e he) hps
  | arrayCreation hk => exact accounts_arrayCreation hF hn hk hps

theorem Way.statement_accounts (h : Way b (.statement n) ps events ex)
    (hps : Each (Part.Sound b body F) ps tr ex') :
    (Part.statement n).Accounts b body F (tr ++ ex'.emits events) (ex'.andThen ex) := by
  cases h with
  | block hk => exact accounts_block hk hps
  | empty hk =>
    intro s hs
    obtain rfl := hs.empty hk
    exact hps.stmt_leaf .skip
  | localDeclaration hk hd => exact accounts_localDeclaration hk hd hps
  | evaluation hk => exact accounts_evaluation hk hps
  | ifTrue hview => exact accounts_ifTrue hview hps
  | ifFalse hview => exact accounts_ifFalse hview hps
  | useResource hk hnode => exact accounts_useResource hk hnode hps
  | lock hk hnodes => exact accounts_lock hk hnodes hps
  | leave hk => exact accounts_leave hk hps
  | yieldBreak hk =>
    intro s hs
    obtain rfl := hs.yieldBreak hk
    have hnone : Expr.Accounts F False .value .constant [] (.done true) :=
      .silent fun k => rfl
    exact hps.stmt_leaf hnone.leave
  | raise hk => exact accounts_raise hk hps
  | leaveLoop hk =>
    intro s hs
    obtain rfl := hs.leaveLoop hk
    exact hps.stmt_leaf .leaveLoop
  | nextRound hk =>
    intro s hs
    obtain rfl := hs.nextRound hk
    exact hps.stmt_leaf .nextRound
  | loop hk => exact accounts_loop hk hps
  | forLoop hk => exact accounts_forLoop hk hps
  | forEach hk hnodes => exact accounts_forEach hk hnodes hps
  | switch hk hnodes => exact accounts_switch hk hnodes hps
  | unguarded hk hfinal =>
    intro s hs
    obtain ⟨guarded, hguarded, hform⟩ := hs.tryStatement hk
    rw [hfinal] at hform
    obtain rfl : s = guarded := hform
    have hbody : Stmt.Accounts F s tr ex' := hps.stmt_single fun tr ex hp => hp.2 s hguarded
    exact hbody.toEnd _

/-- **One step.**  A way is accounted for when the parts on it are. -/
theorem Way.accounts (hF : F.Fits b body) (hp : p.Within b body) (h : Way b p ps events ex)
    (hps : Each (Part.Sound b body F) ps tr ex') :
    p.Accounts b body F (tr ++ ex'.emits events) (ex'.andThen ex) := by
  cases p with
  | expr n => exact h.expr_accounts hF hp hps
  | statement n => exact h.statement_accounts hps
  -- No way leads through these: they are jobs of their own.
  | test | breakable | round => cases h
  | pattern n m =>
    cases h with
    | matched hk hwrites => exact accounts_pattern hF hp hk hwrites.not_readsFirst hps
    | unmatched hk => exact accounts_pattern hF hp hk not_readsFirst_nil hps
    | notPattern hk hnodes => exact accounts_notPattern hk hnodes hps
    | otherPattern => exact fun e he => hps.expr_alone fun tr ex hp => hp.2 e he .value
  | place n =>
    cases h with
    | simplePlace hk =>
      intro e he
      exact ⟨hps.leaf (accounts_simplePlace hp hk he).1, hps.leaf (accounts_simplePlace hp hk he).2⟩
    | placeInParentheses hk hnodes =>
      refine accounts_placeInParentheses hk hnodes fun e he => ⟨?_, ?_⟩
      · exact hps.expr_alone fun tr ex hp => (hp.2 e he).1
      · exact hps.expr_alone fun tr ex hp => (hp.2 e he).2
    | placesOfTuple hk =>
      intro e he
      have hplaces := accounts_placesOfTuple hF hk hps e he
      exact ⟨hplaces.1.toEnd _, hplaces.2.toEnd _⟩
    | otherPlace hk =>
      intro e he
      exact accounts_otherPlace hk he (hps.expr_alone fun tr ex hp => hp.2 e he .value)
  | argument a =>
    cases h with
    | passedOut hout =>
      intro e he
      refine Expr.Accounts.mono (hps.expr_alone fun tr ex hp => (hp.2 e he).1) ?_
      exact fun hdue => ⟨hout, hdue⟩
    | passedIn hin =>
      intro e he
      exact Expr.Accounts.mono (hps.expr_alone fun tr ex hp => hp.2 e he .value) False.elim
  | created n =>
    cases h with
    | members hk =>
      intro e he
      obtain ⟨es, hes, rfl⟩ := he.initializer hk
      have hall := accounts_of_forms (f := .member) hes hps fun n e tr ex he hn => hn e he
      have hbraces : Expr.Accounts F False .value (.initializer (.ofList es)) tr ex' :=
        hall.carry (fun _ hk => by rwa [Expr.side_value] at hk ⊢) fun k => List.Subset.refl _
      exact hbraces.toEnd _
    | noMembers => exact fun e he => hps.expr_alone fun tr ex hp => hp.2 e he .value
  | member n =>
    cases h with
    | member hitem => exact accounts_member hF hp hitem hps
    | otherItem => exact fun e he => hps.expr_alone fun tr ex hp => hp.2 e he .value
  | write v =>
    cases h with
    | write => exact hps.stmt_leaf (.declare v)
  | declarator n =>
    cases h with
    | declarator hclause => exact accounts_declarator hclause hps
    | bareDeclarator hclause =>
      intro s hs
      obtain rfl : s = .skip := by simpa [readDeclarator?, hclause] using hs.symm
      exact hps.stmt_leaf .skip
  -- Rounds of a loop and sections of a switch.
  | inside n =>
    cases h with
    | whileEnd hk hnodes => exact accounts_whileEnd hk hnodes hps
    | whileRound hk hnodes => exact accounts_whileRound hk hnodes hps
    | doEnd hk hnodes => exact accounts_doEnd hk hnodes hps
    | doRound hk hnodes => exact accounts_doRound hk hnodes hps
    | forEnd hk htest => exact accounts_forEnd hk htest hps
    | forRound hk hbody => exact accounts_forRound hk hbody hps
    | forEachEnd hk => exact accounts_forEachEnd hk hps
    | forEachRound hk hnodes => exact accounts_forEachRound hk hnodes hps
    | chooseSection hk hnodes htried hgroup hlabel =>
      exact accounts_chooseSection hF hp hk hnodes htried hgroup hlabel hps
    | noSection hk hnodes htried hdefault =>
      exact accounts_noSection hF hp hk hnodes htried hdefault hps
  | label n chosen =>
    cases h with
    | defaultLabel hnodes =>
      intro e he
      obtain rfl : e = .constant := by simpa [readLabel?, hnodes, Expr.ofList] using he.symm
      exact hps.leaf (.silent fun k => by rw [Expr.split, Split.side_same])
    | chosen hnodes => exact accounts_chosen hnodes hps
    | unlike hnodes => exact accounts_unlike hnodes hps _
    | filtered hnodes => exact accounts_filtered hnodes hps _
  | guarded n =>
    cases h with
    | guarded hblock => exact accounts_guarded hblock hps
  | handlers n =>
    cases h with
    | handled hrefused hclause => exact accounts_handled hrefused hclause hps
    | unhandled hrefused => exact accounts_unhandled hrefused hps
  | caught n =>
    cases h with
    | caught => exact accounts_caught hps
  | refused n =>
    cases h with
    | refused hnodes _ hdeclaration hblock =>
      exact accounts_refused hnodes hdeclaration hblock hps _

/-! ## All executions

The step is repeated along an execution, by induction over its tree. -/

/-- Nothing of a part is gone through. -/
theorem Part.accounts_cut (p : Part) : p.Accounts b body F [] .cut := by
  cases p with
  | expr _ => exact fun e he use => .cut
  | test _ _ => exact fun e he use => ⟨.cut, fun c hc => by cases hc⟩
  | place _ => exact fun e he => ⟨.cut, .cut⟩
  | label _ chosen => cases chosen <;> exact fun e he => .cut
  | pattern _ _ | argument _ | created _ | member _ => exact fun e he => .cut
  | write _ => exact .cut
  | declarator _ | statement _ | breakable _ | inside _ | guarded _ => exact fun s hs => .cut
  | round _ => exact ⟨.cut, rfl, fun s hs => .cut⟩
  | handlers _ => exact fun fuel jumps catches hcatches => ⟨fun _ => ⟨rfl, rfl⟩, fun _ _ _ => .cut⟩
  | caught _ | refused _ => exact fun fuel jumps s hs => .cut

/-- A job belongs to the body. -/
def Job.Within (b : Binder) (body : NodeId) : Job → Prop
  | .one p => p.Within b body
  | .each ps => ∀ p ∈ ps, p.Within b body

/-- A job is accounted for. -/
def Job.Accounts (b : Binder) (body : NodeId) (F : Watch) : Job → Trace → Exit → Prop
  | .one p, tr, ex => p.Accounts b body F tr ex
  | .each ps, tr, ex => Each (Part.Sound b body F) ps tr ex

/-- **The analysis accounts for every execution.** -/
theorem Runs.accounts (hF : F.Fits b body) {j : Job} (h : Runs b j tr ex) (hj : j.Within b body) :
    j.Accounts b body F tr ex := by
  induction h with
  | @cut j =>
    cases j with
    | one p => exact p.accounts_cut
    | each ps =>
      cases ps with
      | nil => exact .nil (Or.inr rfl)
      | cons p ps => exact .stop ⟨.cut, p.accounts_cut⟩ rfl
  | none => exact .nil (Or.inl rfl)
  | next hp _ ihp ihps =>
    refine .next ⟨hp, ihp (hj _ List.mem_cons_self)⟩ (ihps fun q hq => ?_)
    exact hj q (List.mem_cons_of_mem _ hq)
  | stop hp hex ih => exact .stop ⟨hp, ih (hj _ List.mem_cons_self)⟩ hex
  | way hway _ ih => exact hway.accounts hF hj (ih (hway.within hj))
  | test _ hvalue ih => exact fun e he use => ⟨ih hj e he use, hvalue⟩
  | round _ ih => exact ⟨_, rfl, ih hj⟩
  | breakable _ ih => exact ih hj
  -- The two rules in which the end of one job decides about another one.
  | handle hblock _ _ ihbody ihhandlers =>
    have hbody : (Part.statement _).Accounts b body F _ .cut :=
      ihbody (.child hj (List.mem_of_find?_eq_some hblock))
    exact accounts_handle hblock hbody (ihhandlers hj)
  | @cleanup n final t₁ t₂ ex' ex hk hfinal _ _ ihguarded ihfinal =>
    intro s hs
    obtain ⟨guarded, hguarded, hform⟩ := hs.tryStatement hk
    rw [hfinal] at hform
    obtain ⟨f, hf, rfl⟩ := hform
    have hbelow : Below b.tree body final := by
      obtain ⟨clause, hclause, hhead⟩ := Option.bind_eq_some_iff.mp hfinal
      exact .child (.child hj (List.mem_of_find?_eq_some hclause)) (List.mem_of_mem_head? hhead)
    exact (ihguarded hj guarded hguarded).cleanup (ihfinal hbelow f hf)

/-- The form of a body accounts for every execution of the body. -/
theorem Executes.accounts (hF : F.Fits b body) (h : Executes b body tr ex) {s : Stmt}
    (hs : readBody? b body = some s) : Stmt.Accounts F s tr ex := by
  unfold readBody? at hs
  rcases h with ⟨hk, hrun⟩ | ⟨hk, m, rest, hnodes, hrun⟩
  · simp only [hk] at hs
    exact hrun.accounts hF (j := .one (.statement body)) .here s ⟨_, _, hs⟩
  · simp only [hk, hnodes, List.head?_cons, Option.bind_eq_bind, Option.bind_some,
      Option.bind_eq_some_iff, Option.pure_def, Option.some.injEq] at hs
    obtain ⟨e, he, rfl⟩ := hs
    have hbelow : Below b.tree body m := .child .here (by simp [hnodes])
    have hvalue := hrun.accounts hF (j := .one (.expr m)) hbelow e (hasForm_of_readExpr? he) .value
    exact Expr.Accounts.eval hvalue

/-- Sorting keeps the variables of a list. -/
theorem mem_sorted {v : VariableId} {vs : List VariableId} : v ∈ VariableId.sorted vs ↔ v ∈ vs := by
  unfold VariableId.sorted
  rw [mem_sortStable, List.mem_eraseDups]

end CodeMend.Flow
