import CodeMend.Proofs.Flow.Branches

/-!
# CodeMend — loops are accounted for

A loop is gone through round after round, and the analysis looks at one round only.  A round that
comes to its end leads to where the loop began, so what follows it is accounted for by the same
form.

* **`accounts_again`** — the rounds behind a round.
* **`accounts_whileRound`**, **`accounts_doRound`**, **`accounts_forRound`**,
  **`accounts_forEachRound`** — one round, and the rounds behind it.
-/

namespace CodeMend.Flow

variable {b : Binder} {body : NodeId} {F : Watch} {n : NodeId} {tr : Trace} {ex : Exit} {c : Bool}
  {s : Stmt}

/-! ## The exits of a loop

A round either ends the loop or leads to the next round, whose trace is an execution of the same
loop. -/

/-- A loop ends where its test ends. -/
theorem Stmt.Accounts.atEnd {c' : Bool} (h : Stmt.Accounts F s tr (ex.andThen (.done c')))
    (hexits : ex.isDone ∨ ex = .cut) (c : Bool) :
    Stmt.Accounts F s (tr ++ ex.emits []) (ex.andThen (.done c)).afterBreak := by
  rw [Exit.append_emits_nil]
  rcases hexits with hdone | rfl
  · cases ex with
    | done _ => exact h.anyValue c
    | _ => cases hdone
  · exact h

/-- A loop that is cut short. -/
theorem Stmt.Accounts.atCut (h : Stmt.Accounts F s tr ex) (c : Bool) :
    Stmt.Accounts F s (tr ++ Exit.cut.emits []) (Exit.cut.andThen (.done c)).afterBreak := by
  rw [Exit.append_emits_nil]
  exact h.toCut

theorem Exit.outOfRound_eq (hex : ex.afterRound.isDone = false) (c : Bool) :
    ex.outOfRound = (ex.afterRound.andThen (.done c)).afterBreak := by
  cases ex with
  | done _ | continued => cases hex
  | _ => rfl

/-- The rounds behind a round: they end the loop as they would if they were all of it. -/
theorem accounts_again (hs : HasStatement b n s) {t₁ t₂ : Trace}
    (hround : Stmt.Accounts F s.breakable t₁ .cut)
    (h : Each (Part.Sound b body F) [.inside n] t₂ ex) (c : Bool) :
    Stmt.Accounts F s.breakable (t₁ ++ t₂ ++ ex.emits []) (ex.andThen (.done c)).afterBreak := by
  have hinside : Stmt.Accounts F s.breakable t₂ (ex.andThen (.done c)).afterBreak := by
    rcases h.single with ⟨hp, hex⟩ | ⟨c', hp, hdone | rfl⟩
    · cases ex with
      | done _ => cases hex
      | _ => exact hp.2 s hs
    · cases ex with
      | done _ => exact (hp.2 s hs).anyValue c
      | _ => cases hdone
    · exact (hp.2 s hs).toCut
  rw [Exit.append_emits_nil]
  exact hround.again hinside

/-! ## Loops with a test

The form of a loop goes through its body once.  The rounds that follow begin with more knowledge
than the first, so the form accounts for them too. -/

section Tests

variable {test loopBody : NodeId} {rest : List NodeId}

theorem accounts_whileEnd (hk : b.tree.kind n = .whileStatement)
    (hn : b.tree.childNodes n = test :: loopBody :: rest)
    (h : Each (Part.Sound b body F) [.test test false] tr ex) :
    (Part.inside n).Accounts b body F (tr ++ ex.emits []) (ex.andThen (.done c)) := by
  intro s hs
  obtain ⟨e, x, he, -, rfl⟩ := hs.whileLoop hk hn
  have htest : Expr.Accounts F False .test e tr (ex.andThen (.done false)) :=
    h.test_single fun tr ex hp => hp.2 e he .test
  have hloop : Stmt.Accounts F (.whileLoop e x) tr (ex.andThen (.done false)) :=
    .whileEnd htest fun c hc => by cases ex <;> simp_all [Exit.andThen]
  exact hloop.atEnd ((runs_of_each h).exits_of_values (by simp [Part.IsValue])) c

theorem accounts_whileRound (hk : b.tree.kind n = .whileStatement)
    (hn : b.tree.childNodes n = test :: loopBody :: rest)
    (h : Each (Part.Sound b body F) [.test test true, .round loopBody, .inside n] tr ex) :
    (Part.inside n).Accounts b body F (tr ++ ex.emits []) (ex.andThen (.done c)) := by
  intro s hs
  obtain ⟨e, x, he, hx, rfl⟩ := hs.whileLoop hk hn
  rcases h.cons with ⟨t₁, t₂, c₁, rfl, htest, hrest⟩ | ⟨htest, hex⟩
  · obtain ⟨he', hvalue⟩ := htest.2 e he .test
    obtain rfl := hvalue c₁ rfl
    rcases hrest.cons with ⟨t₃, t₄, c₂, rfl, hround, hagain⟩ | ⟨hround, hex⟩
    · obtain ⟨ex₀, -, hbody⟩ := hround.2
      have hone := (Stmt.Accounts.whileRound he' (hbody x hx)).toCut
      rw [← List.append_assoc t₁]
      exact accounts_again hs hone hagain c
    · obtain ⟨ex₀, rfl, hbody⟩ := hround.2
      rw [Exit.append_emits_nil, ← Exit.outOfRound_eq hex]
      exact .whileRound he' (hbody x hx)
  · obtain ⟨he', -⟩ := htest.2 e he .test
    obtain rfl : ex = .cut := he'.exits.resolve_left (by simp [hex])
    have hloop : Stmt.Accounts F (.whileLoop e x) tr .cut := .whileEnd he' fun c hc => by cases hc
    exact hloop.atCut c

theorem accounts_doEnd (hk : b.tree.kind n = .doStatement)
    (hn : b.tree.childNodes n = loopBody :: test :: rest)
    (h : Each (Part.Sound b body F) [.round loopBody, .test test false] tr ex) :
    (Part.inside n).Accounts b body F (tr ++ ex.emits []) (ex.andThen (.done c)) := by
  intro s hs
  obtain ⟨x, e, hx, he, rfl⟩ := hs.doLoop hk hn
  rcases h.cons with ⟨t₁, t₂, c₁, rfl, hround, hrest⟩ | ⟨hround, hex⟩
  · obtain ⟨ex₀, hex₀, hbody⟩ := hround.2
    have htest : Expr.Accounts F False .test e t₂ (ex.andThen (.done false)) :=
      hrest.test_single fun tr ex hp => hp.2 e he .test
    have hloop : Stmt.Accounts F (.doLoop x e) (t₁ ++ t₂) (ex.andThen (.done false)) :=
      .doEnd (hbody x hx) hex₀.symm htest fun c hc => by cases ex <;> simp_all [Exit.andThen]
    exact hloop.atEnd ((runs_of_each hrest).exits_of_values (by simp [Part.IsValue])) c
  · obtain ⟨ex₀, rfl, hbody⟩ := hround.2
    rw [Exit.append_emits_nil, ← Exit.outOfRound_eq hex]
    exact .doRound (hbody x hx)

theorem accounts_doRound (hk : b.tree.kind n = .doStatement)
    (hn : b.tree.childNodes n = loopBody :: test :: rest)
    (h : Each (Part.Sound b body F) [.round loopBody, .test test true, .inside n] tr ex) :
    (Part.inside n).Accounts b body F (tr ++ ex.emits []) (ex.andThen (.done c)) := by
  intro s hs
  obtain ⟨x, e, hx, he, rfl⟩ := hs.doLoop hk hn
  rcases h.cons with ⟨t₁, t₂, c₁, rfl, hround, hrest⟩ | ⟨hround, hex⟩
  · obtain ⟨ex₀, hex₀, hbody⟩ := hround.2
    -- Whatever the test comes out with, the round is gone through up to there.
    have hround' : ∀ t x', Part.Sound b body F (.test test true) t x' →
        Stmt.Accounts F (.doLoop x e) (t₁ ++ t) .cut := by
      intro t x' htest
      have he' : Expr.Accounts F False .test e t .cut := (htest.2 e he .test).1.toCut
      exact .doEnd (hbody x hx) hex₀.symm he' fun c hc => by cases hc
    rcases hrest.cons with ⟨t₃, t₄, c₂, rfl, htest, hagain⟩ | ⟨htest, hex⟩
    · rw [← List.append_assoc t₁]
      exact accounts_again hs (hround' _ _ htest) hagain c
    · obtain rfl : ex = .cut := (htest.2 e he .test).1.exits.resolve_left (by simp [hex])
      exact (hround' _ _ htest).atCut c
  · obtain ⟨ex₀, rfl, hbody⟩ := hround.2
    rw [Exit.append_emits_nil, ← Exit.outOfRound_eq hex]
    exact .doRound (hbody x hx)

/-- Nothing is evaluated in front of a loop with a test. -/
theorem HasStatement.breakable_eq (hs : HasStatement b n s)
    (hk : b.tree.kind n = .whileStatement ∨ b.tree.kind n = .doStatement) : s.breakable = s := by
  obtain ⟨fuel, jumps, h⟩ := hs.step
  rcases hk with hk | hk
  all_goals
    simp only [readStmtStep, hk] at h
    split at h
    · simp only [Option.bind_eq_bind, Option.bind_eq_some_iff, Option.pure_def,
        Option.some.injEq] at h
      obtain ⟨_, -, _, -, rfl⟩ := h
      rfl
    · cases h

theorem accounts_loop (hk : b.tree.kind n = .whileStatement ∨ b.tree.kind n = .doStatement)
    (h : Each (Part.Sound b body F) [.breakable n] tr ex) :
    (Part.statement n).Accounts b body F (tr ++ ex.emits []) (ex.andThen (.done c)) := by
  intro s hs
  have hloop : Stmt.Accounts F s tr ex := h.stmt_single fun tr ex hp => by
    rw [← hs.breakable_eq hk]
    exact hp.2 s hs
  exact hloop.toEnd c

end Tests

/-! ## For loops

A for loop may have no test, and steps behind its body. -/

section For

variable {loopBody : NodeId}

theorem accounts_forLoop (hk : b.tree.kind n = .forStatement)
    (h : Each (Part.Sound b body F)
      ((forParts b.tree n).before.flatMap (headParts b.tree) ++ [.breakable n]) tr ex) :
    (Part.statement n).Accounts b body F (tr ++ ex.emits []) (ex.andThen (.done c)) := by
  intro s hs
  obtain ⟨before, test, x, steps, node, hbefore, -, -, -, -, rfl⟩ := hs.forLoop hk
  have hall := h.stmt_append (fun tr ex h => accounts_heads hbefore h) fun tr ex h =>
    h.stmt_single fun tr ex hp => hp.2 _ hs
  exact hall.toEnd c

theorem accounts_forEnd {test : NodeId} {rest : List NodeId} (hk : b.tree.kind n = .forStatement)
    (htest : (forParts b.tree n).test = test :: rest)
    (h : Each (Part.Sound b body F) [.test test false] tr ex) :
    (Part.inside n).Accounts b body F (tr ++ ex.emits []) (ex.andThen (.done c)) := by
  intro s hs
  obtain ⟨before, t, x, steps, node, -, ht, -, -, -, rfl⟩ := hs.forLoop hk
  rw [htest] at ht
  obtain ⟨e, he, rfl⟩ := ht
  have htest' : Expr.Accounts F False .test e tr (ex.andThen (.done false)) :=
    h.test_single fun tr ex hp => hp.2 e he .test
  have hloop : Stmt.Accounts F (.forLoop (some e) x (.ofList steps)) tr
      (ex.andThen (.done false)) :=
    .forEnd htest' fun c hc => by cases ex <;> simp_all [Exit.andThen]
  exact hloop.atEnd ((runs_of_each h).exits_of_values (by simp [Part.IsValue])) c

/-- The test of a for loop holds and the round follows, or it is cut short. -/
theorem accounts_loopTest {tests : List NodeId} {test : Option Expr}
    (ht : HasStatement.LoopTest b tests test) {ps : List Part}
    (h : Each (Part.Sound b body F) ((tests.take 1).map (.test · true) ++ ps) tr ex) :
    (∃ t₁ t₂, tr = t₁ ++ t₂ ∧ Stmt.Accounts.TestHolds F test t₁ ∧
      Each (Part.Sound b body F) ps t₂ ex) ∨
    ∃ e, test = some e ∧ Expr.Accounts F False .test e tr .cut ∧ ex = .cut := by
  cases tests with
  | nil =>
    obtain rfl : test = none := ht
    exact Or.inl ⟨[], tr, rfl, rfl, h⟩
  | cons first rest =>
    obtain ⟨e, he, rfl⟩ := ht
    rcases Each.cons h with ⟨t₁, t₂, c₁, rfl, hfirst, hps⟩ | ⟨hfirst, hex⟩
    · obtain ⟨he', hvalue⟩ := hfirst.2 e he .test
      obtain rfl := hvalue c₁ rfl
      exact Or.inl ⟨t₁, t₂, rfl, he', hps⟩
    · obtain ⟨he', -⟩ := hfirst.2 e he .test
      obtain rfl : ex = .cut := he'.exits.resolve_left (by simp [hex])
      exact Or.inr ⟨e, rfl, he', rfl⟩

theorem accounts_forRound (hk : b.tree.kind n = .forStatement)
    (hbody : (forParts b.tree n).body = some loopBody)
    (h : Each (Part.Sound b body F) (((forParts b.tree n).test.take 1).map (.test · true) ++
      .round loopBody :: ((forParts b.tree n).steps.map .expr ++ [.inside n])) tr ex) :
    (Part.inside n).Accounts b body F (tr ++ ex.emits []) (ex.andThen (.done c)) := by
  intro s hs
  obtain ⟨before, test, x, steps, node, -, ht, hnode, hx, hsteps, rfl⟩ := hs.forLoop hk
  obtain rfl := Option.some.inj (hbody.symm.trans hnode)
  rcases accounts_loopTest ht h with ⟨t₁, t₂, rfl, htest, hrest⟩ | ⟨e, rfl, he, rfl⟩
  · rcases hrest.cons with ⟨t₃, t₄, c₁, rfl, hround, hbehind⟩ | ⟨hround, hex⟩
    · obtain ⟨ex₀, hex₀, hx'⟩ := hround.2
      -- Up to here the round is cut short; the rounds behind it go on from there.
      have hstep : ∀ t x', Each (Part.Sound b body F) ((forParts b.tree n).steps.map .expr) t x' →
          Stmt.Accounts F (.forLoop test x (.ofList steps)) (t₁ ++ t₃ ++ t) .cut := fun t x' h =>
        .forStep htest (hx' x hx) hex₀.symm (accounts_of_operands hsteps h)
      rcases hbehind.append with ⟨t₅, t₆, c₂, rfl, hdone, hagain⟩ | ⟨hstop, hex⟩
      · have htrace : t₁ ++ (t₃ ++ (t₅ ++ t₆)) = t₁ ++ t₃ ++ t₅ ++ t₆ := by simp
        rw [htrace]
        exact accounts_again hs (hstep _ _ hdone) hagain c
      · obtain rfl : ex = .cut := ((runs_of_each hstop).exits_of_values
          (by simp [Part.IsValue])).resolve_left (by simp [hex])
        rw [← List.append_assoc t₁]
        exact (hstep _ _ hstop).atCut c
    · obtain ⟨ex₀, rfl, hx'⟩ := hround.2
      rw [Exit.append_emits_nil, ← Exit.outOfRound_eq hex]
      exact .forRound htest (hx' x hx)
  · have hloop : Stmt.Accounts F (.forLoop (some e) x (.ofList steps)) tr .cut :=
      .forEnd he fun c hc => by cases hc
    exact hloop.atCut c

/-! ## Loops over a collection

The variable of the loop is written at the start of each round. -/

theorem accounts_forEach {type collection : NodeId} {rest : List NodeId}
    (hk : b.tree.kind n = .forEachStatement)
    (hn : b.tree.childNodes n = type :: collection :: loopBody :: rest)
    (h : Each (Part.Sound b body F) [.expr collection, .breakable n] tr ex) :
    (Part.statement n).Accounts b body F (tr ++ ex.emits []) (ex.andThen (.done c)) := by
  intro s hs
  obtain ⟨e, x, he, hx, rfl⟩ := hs.forEach hk hn
  exact (accounts_evalThen he h fun tr ex hp => hp.2 _ hs).toEnd c

/-- In front of a loop over a collection stands an expression. -/
theorem HasStatement.breakable_forEach (hs : HasStatement b n s)
    (hk : b.tree.kind n = .forEachStatement) : ∃ u x, s.breakable = .forEach u x := by
  obtain ⟨fuel, jumps, h⟩ := hs.step
  simp only [readStmtStep, hk] at h
  split at h
  · simp only [Option.bind_eq_bind, Option.bind_eq_some_iff, Option.pure_def,
      Option.some.injEq] at h
    obtain ⟨e, -, x, -, rfl⟩ := h
    exact ⟨_, x, rfl⟩
  · cases h

theorem accounts_forEachEnd (hk : b.tree.kind n = .forEachStatement)
    (h : Each (Part.Sound b body F) [] tr ex) :
    (Part.inside n).Accounts b body F (tr ++ ex.emits []) (ex.andThen (.done c)) := by
  intro s hs
  obtain ⟨u, x, hform⟩ := hs.breakable_forEach hk
  rw [hform]
  cases h with
  | nil hex =>
    rcases hex with hdone | rfl
    · cases ex with
      | done c' => exact .forEachEnd
      | _ => cases hdone
    · exact .cut

/-- A variable is declared, or control stops in front of that. -/
theorem runs_declared {identifier : Option TokenId} {ps : List Part}
    (h : Each (Part.Sound b body F) (declaredPart b identifier ++ ps) tr ex) :
    (∃ t, tr = (identifier.map (declaredVariable b)).toList.map .write ++ t ∧
      Each (Part.Sound b body F) ps t ex) ∨ tr = [] ∧ ex = .cut := by
  cases identifier with
  | none => exact Or.inl ⟨tr, rfl, h⟩
  | some i =>
    have hwrite : ∀ t x, Runs b (.one (.write (declaredVariable b i))) t x →
        t = [.write (declaredVariable b i)] ∧ x.isDone ∨ t = [] ∧ x = .cut := by
      intro t x hrun
      cases hrun with
      | cut => exact Or.inr ⟨rfl, rfl⟩
      | way hway hps =>
        cases hway
        cases hps with
        | cut => exact Or.inr ⟨rfl, rfl⟩
        | none => exact Or.inl ⟨rfl, rfl⟩
    rcases Each.cons h with ⟨t₁, t₂, c, rfl, hp, hps⟩ | ⟨hp, hex⟩
    · rcases hwrite _ _ hp.1 with ⟨rfl, -⟩ | ⟨-, hcut⟩
      · exact Or.inl ⟨t₂, rfl, hps⟩
      · cases hcut
    · rcases hwrite _ _ hp.1 with ⟨-, hdone⟩ | hcut
      · rw [hex] at hdone
        cases hdone
      · exact Or.inr hcut

theorem accounts_forEachRound {type collection : NodeId} {rest : List NodeId}
    (hk : b.tree.kind n = .forEachStatement)
    (hn : b.tree.childNodes n = type :: collection :: loopBody :: rest)
    (h : Each (Part.Sound b body F)
      (declaredPart b (declaredIdentifier? b.tree n) ++ [.round loopBody, .inside n]) tr ex) :
    (Part.inside n).Accounts b body F (tr ++ ex.emits []) (ex.andThen (.done c)) := by
  intro s hs
  obtain ⟨e, x, -, hx, rfl⟩ := hs.forEach hk hn
  rcases runs_declared h with ⟨t₁, rfl, hrest⟩ | ⟨rfl, rfl⟩
  · rcases hrest.cons with ⟨t₂, t₃, c₁, rfl, hround, hagain⟩ | ⟨hround, hex⟩
    · obtain ⟨ex₀, -, hx'⟩ := hround.2
      rw [← List.append_assoc (List.map _ _)]
      exact accounts_again hs (Stmt.Accounts.forEachRound (hx' x hx)).toCut hagain c
    · obtain ⟨ex₀, rfl, hx'⟩ := hround.2
      rw [Exit.append_emits_nil, ← Exit.outOfRound_eq hex]
      exact .forEachRound (hx' x hx)
  · exact .cut

end For

end CodeMend.Flow
