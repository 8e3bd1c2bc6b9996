import CodeMend.Proofs.Flow.BlindSpots
import CodeMend.Proofs.Flow.Forms
import CodeMend.Proofs.Flow.Knowledge
import CodeMend.Proofs.Flow.Statements

/-!
# CodeMend — parts that are accounted for

What it means for a part of a body that its form accounts for a trace.  An execution goes through a
list of parts until one of them is not at its end.  The forms of the parts, put one after the other,
account for the whole trace when each of them accounts for its piece.

* **`Runs.exits`** — an expression comes to its end or is cut short.
* **`Runs.touches`** — a place that is evaluated for its value touches what it names.
* **`Each`** — parts are gone through one after the other, each as `P` says.
* **`Each.append`** — where the trace of two lists is cut in two.
* **`Each.expr_owed`**, **`Each.stmt_ofList`** — the forms of a list account for its trace.
* **`Part.Accounts`** — the form of a part, or of what it belongs to, accounts for a trace.
* **`Watch.Fits`** — what is granted about the variable that is watched.
* **`Part.Sound`** — a part runs, and its form accounts for that.
-/

namespace CodeMend.Flow

section Executions

variable {b : Binder} {n : NodeId} {v : VariableId} {p : Part}
  {ps : List Part} {tr events : Trace} {ex ex' : Exit} {c : Bool}

/-! ## Exits of expressions

No statement is inside of an expression, so control leaves one by its end or by an exception and in
no other way. -/

/-- The part is evaluated, or writes a variable: no jump leads out of it. -/
def Part.IsValue : Part → Bool
  | .expr _ | .test _ _ | .pattern _ _ | .place _ | .argument _ | .created _ | .member _ | .write _
  | .label _ _ | .refused _ => true
  | _ => false

theorem Way.isValue (h : Way b p ps events ex) (hp : p.IsValue = true) :
    (∀ q ∈ ps, q.IsValue = true) ∧ (ex.isDone = true ∨ ex = .cut) := by
  cases h with
  | refused hn hbefore =>
    refine ⟨fun q hq => ?_, Or.inl rfl⟩
    simp only [List.mem_append, List.mem_flatMap, List.mem_singleton] at hq
    rcases hq with ⟨d, hd, hq⟩ | rfl
    · simp only [catchParts, hbefore d hd] at hq
      obtain ⟨i, -, rfl⟩ := List.mem_map.mp hq
      rfl
    · rfl
  | _ =>
    first
    | cases hp; done
    | exact ⟨fun q hq => by grind [Part.IsValue], by simp [Exit.isDone]⟩

/-- **An expression comes to its end or is cut short**, and so do expressions one after the
other. -/
theorem Runs.exits_of_values {j : Job} (h : Runs b j tr ex)
    (hj : match j with
      | .one p => p.IsValue = true
      | .each ps => ∀ p ∈ ps, p.IsValue = true) : ex.isDone = true ∨ ex = .cut := by
  induction h with
  | cut => exact Or.inr rfl
  | none => exact Or.inl rfl
  | next _ _ _ ih => exact ih fun p hp => hj p (List.mem_cons_of_mem _ hp)
  | stop _ _ ih => exact ih (hj _ List.mem_cons_self)
  | @way p ps events tr ex' ex hway _ ih =>
    obtain ⟨hps, hex⟩ := hway.isValue hj
    rcases ih hps with hdone | rfl
    · cases ex' with
      | done c => exact hex
      | _ => cases hdone
    · exact Or.inr rfl
  | test _ _ ih => exact ih rfl
  | round | breakable | handle | cleanup => cases hj

theorem Runs.exits (h : Runs b (.one p) tr ex) (hp : p.IsValue = true) :
    ex.isDone = true ∨ ex = .cut :=
  h.exits_of_values hp

/-! ## Places that are evaluated

A place is evaluated like an expression when it is read too.  Then the variable that it names has
been read. -/

/-- What a bare name names. -/
theorem Names.of_name {u : VariableId} (hk : b.tree.kind n = .identifierName)
    (h : Names b n u) : namedVariable? b n = some u := by
  cases h with
  | name _ hu => exact hu
  | parenthesized hk' | declaration hk' | tuple hk' =>
    rw [hk] at hk'
    cases hk'

theorem writes_nothing {vs : VariableId → Prop} (h : ∀ v, ¬ vs v) : Writes vs [] := by
  intro e
  constructor
  · intro he
    cases he
  · rintro ⟨v, -, hv⟩
    exact absurd hv (h v)

theorem writes_name (hk : b.tree.kind n = .identifierName) (hv : namedVariable? b n = some v) :
    Writes (Names b n) [.write v] := by
  intro e
  rw [List.mem_singleton]
  constructor
  · rintro rfl
    exact ⟨v, rfl, .name hk hv⟩
  · rintro ⟨u, rfl, hu⟩
    rw [Option.some.inj (hv.symm.trans (hu.of_name hk))]

/-- The way on which an expression has come to its end. -/
theorem Runs.way_of_done (h : Runs b (.one (.expr n)) tr (.done c)) :
    ∃ ps events t c', Way b (.expr n) ps events (.done c) ∧ Runs b (.each ps) t (.done c') ∧
      tr = t ++ events := by
  generalize hex : Exit.done c = x at h
  cases h with
  | cut => cases hex
  | @way _ ps events t ex' ex hway hps =>
    cases ex' with
    | done c' =>
      obtain rfl : .done c = ex := hex
      exact ⟨ps, events, t, c', hway, hps, rfl⟩
    | _ => cases hex

/-- A way, at the end of the parts on it. -/
theorem Runs.through {t : Trace} (hway : Way b p ps events ex) (hps : Runs b (.each ps) t (.done c))
    (htr : tr = t ++ events) : Runs b (.one p) tr ex := by
  rw [htr]
  exact .way hway hps

/-- A way on which control stops. -/
theorem Runs.stopped (hway : Way b p ps events ex') (hps : Runs b (.each ps) tr ex)
    (hex : ex.isDone = false) : Runs b (.one p) tr ex := by
  rw [← List.append_nil tr]
  cases ex with
  | done _ => cases hex
  | _ => exact .way hway hps

/-- A condition that has come to its end is an expression that has. -/
theorem Runs.of_test {value : Bool} (h : Runs b (.one (.test n value)) tr (.done c)) :
    Runs b (.one (.expr n)) tr (.done c) := by
  generalize hex : Exit.done c = x at h
  cases h with
  | cut => cases hex
  | way hway => cases hway
  | test hrun => exact hrun

/-- Each of some parts that have come to their end has a piece of the trace. -/
theorem Runs.piece (h : Runs b (.each ps) tr (.done c)) (hp : p ∈ ps) :
    ∃ t c', t ⊆ tr ∧ Runs b (.one p) t (.done c') := by
  induction ps generalizing tr with
  | nil => cases hp
  | cons q ps ih =>
    cases h with
    | next hq hps =>
      rcases List.mem_cons.mp hp with rfl | hp
      · exact ⟨_, _, List.subset_append_left _ _, hq⟩
      · obtain ⟨t, c', ht, hrun⟩ := ih hps hp
        exact ⟨t, c', fun e he => List.mem_append_right _ (ht he), hrun⟩
    | stop _ hex => cases hex

/-- **A place that is evaluated for its value touches what it names**: it reads a variable, and it
writes one that it declares. -/
theorem Runs.touches (hv : Names b n v) (h : Runs b (.one (.expr n)) tr (.done c)) :
    .read v ∈ tr ∨ .write v ∈ tr := by
  -- The kind of the place leaves one way through it.
  induction hv generalizing tr c with
  | name hk hname =>
    obtain ⟨ps, events, t, c', hway, hps, rfl⟩ := h.way_of_done
    cases hway with
    | named _ hname' =>
      obtain rfl := Option.some.inj (hname.symm.trans hname')
      exact Or.inl (by simp)
    | leaf hk' | straight hk' => exact absurd (hk ▸ hk') (by decide)
    | _ => grind [kind_of_invocation]
  | parenthesized hk hn _ ih =>
    obtain ⟨ps, events, t, c', hway, hps, rfl⟩ := h.way_of_done
    cases hway with
    | parenthesized _ hn' =>
      obtain ⟨rfl, -⟩ := List.cons.inj (hn.symm.trans hn')
      obtain ⟨piece, c'', hpiece, hrun⟩ := hps.piece List.mem_cons_self
      have hmem : ∀ e ∈ piece, e ∈ t ++ [] := fun e he => List.mem_append_left _ (hpiece he)
      exact (ih hrun.of_test).imp (hmem _) (hmem _)
    | leaf hk' | straight hk' => exact absurd (hk ▸ hk') (by decide)
    | _ => grind [kind_of_invocation]
  | declaration hk hmem =>
    obtain ⟨ps, events, t, c', hway, hps, rfl⟩ := h.way_of_done
    cases hway with
    | declaration _ hwrites => exact Or.inr (by simp [hwrites.mem hmem])
    | leaf hk' | straight hk' => exact absurd (hk ▸ hk') (by decide)
    | _ => grind [kind_of_invocation]
  | tuple hk hitem _ ih =>
    obtain ⟨ps, events, t, c', hway, hps, rfl⟩ := h.way_of_done
    cases hway with
    | tuple _ =>
      obtain ⟨piece, c'', hpiece, hrun⟩ := hps.piece (List.mem_map_of_mem hitem)
      have hmem : ∀ e ∈ piece, e ∈ t ++ [] := fun e he => List.mem_append_left _ (hpiece he)
      exact (ih hrun).imp (hmem _) (hmem _)
    | leaf hk' | straight hk' => exact absurd (hk ▸ hk') (by decide)
    | _ => grind [kind_of_invocation]

end Executions

/-! ## Parts one after the other

Control may stop at any of several parts.  The parts are gone through by induction, once for all
forms. -/

section Sequences

/-- Parts are gone through one after the other until one of them is not at its end. -/
inductive Each (P : Part → Trace → Exit → Prop) : List Part → Trace → Exit → Prop where
  | nil {ex} : ex.isDone ∨ ex = .cut → Each P [] [] ex
  | next {p ps t₁ t₂ c ex} : P p t₁ (.done c) → Each P ps t₂ ex → Each P (p :: ps) (t₁ ++ t₂) ex
  | stop {p ps tr ex} : P p tr ex → ex.isDone = false → Each P (p :: ps) tr ex

variable {F : Watch} {P Q : Part → Trace → Exit → Prop} {p : Part} {ps qs : List Part} {tr : Trace}
  {ex : Exit} {c : Bool}

namespace Each

/-- The first part is at its end and the others follow, or it is not. -/
theorem cons (h : Each P (p :: ps) tr ex) :
    (∃ t₁ t₂ c, tr = t₁ ++ t₂ ∧ P p t₁ (.done c) ∧ Each P ps t₂ ex) ∨
      P p tr ex ∧ ex.isDone = false := by
  cases h with
  | next hp hps => exact Or.inl ⟨_, _, _, rfl, hp, hps⟩
  | stop hp hex => exact Or.inr ⟨hp, hex⟩

/-- The first parts are at their end and the others follow, or they are not. -/
theorem append (h : Each P (ps ++ qs) tr ex) :
    (∃ t₁ t₂ c, tr = t₁ ++ t₂ ∧ Each P ps t₁ (.done c) ∧ Each P qs t₂ ex) ∨
      Each P ps tr ex ∧ ex.isDone = false := by
  induction ps generalizing tr with
  | nil => exact Or.inl ⟨[], tr, true, rfl, .nil (Or.inl rfl), h⟩
  | cons p ps ih =>
    rcases cons h with ⟨t₁, t₂, c, rfl, hp, hrest⟩ | ⟨hp, hex⟩
    · rcases ih hrest with ⟨t₃, t₄, c', rfl, hps, hqs⟩ | ⟨hps, hex⟩
      · exact Or.inl ⟨t₁ ++ t₃, t₄, c', (List.append_assoc ..).symm, .next hp hps, hqs⟩
      · exact Or.inr ⟨.next hp hps, hex⟩
    · exact Or.inr ⟨.stop hp hex, hex⟩

/-- A single part, behind which control may stop. -/
theorem single (h : Each P [p] tr ex) :
    P p tr ex ∧ ex.isDone = false ∨ ∃ c, P p tr (.done c) ∧ (ex.isDone ∨ ex = .cut) := by
  rcases cons h with ⟨t₁, t₂, c, rfl, hp, hrest⟩ | ⟨hp, hex⟩
  · cases hrest with
    | nil hex =>
      rw [List.append_nil]
      exact Or.inr ⟨c, hp, hex⟩
  · exact Or.inl ⟨hp, hex⟩

/-- An exception may follow the last part. -/
theorem toCut (h : Each P ps tr (.done c)) : Each P ps tr .cut := by
  generalize hx : Exit.done c = x at h
  induction h with
  | nil => exact .nil (Or.inr rfl)
  | next hp _ ih => exact .next hp (ih hx)
  | stop _ hex =>
    subst hx
    cases hex

/-! ## Expressions

Forms that evaluate their operands one after the other differ in the names of their parts only. -/

/-- A single operand accounts for its trace, also when control stops behind it. -/
theorem expr_single {e : Expr} {owed : Prop} (h : Each P [p] tr ex)
    (hP : ∀ tr ex, P p tr ex → Expr.Accounts F owed .value e tr ex) :
    Expr.Accounts F owed .value e tr ex := by
  rcases h.single with ⟨hp, -⟩ | ⟨c, hp, hdone | rfl⟩
  · exact hP _ _ hp
  · cases ex with
    | done c' => exact (hP _ _ hp).anyValue c'
    | _ => cases hdone
  · exact (hP _ _ hp).toCut

/-- A part of the same form as the one operand of it. -/
theorem expr_alone {e : Expr} {owed : Prop} (h : Each P [p] tr ex)
    (hP : ∀ tr ex, P p tr ex → Expr.Accounts F owed .value e tr ex) :
    Expr.Accounts F owed .value e (tr ++ ex.emits []) (ex.andThen (.done c)) :=
  (h.expr_single hP).toEnd c

/-- A single condition, which comes out with a value. -/
theorem test_single {e : Expr} {use : Use} {c : Bool} (h : Each P [p] tr ex)
    (hP : ∀ tr ex, P p tr ex → Expr.Accounts F False use e tr ex ∧ ∀ c', ex = .done c' → c' = c) :
    Expr.Accounts F False use e tr (ex.andThen (.done c)) := by
  rcases h.single with ⟨hp, hex⟩ | ⟨c', hp, hdone | rfl⟩
  · cases ex with
    | done c' => cases hex
    | _ => exact (hP _ _ hp).1
  · obtain ⟨haccounts, hvalue⟩ := hP _ _ hp
    obtain rfl := hvalue c' rfl
    cases ex with
    | done c => exact haccounts
    | _ => cases hdone
  · exact (hP _ _ hp).1.toCut

theorem expr_pair {q : Part} {a b : Expr} (h : Each P [p, q] tr ex)
    (hp : ∀ tr ex, P p tr ex → Expr.Accounts F False .value a tr ex)
    (hq : ∀ tr ex, P q tr ex → Expr.Accounts F False .value b tr ex) :
    Expr.Accounts F False .value (.seq a b) tr ex := by
  rcases cons h with ⟨t₁, t₂, c, rfl, hfirst, hrest⟩ | ⟨hfirst, hex⟩
  · exact (hp _ _ hfirst).seq (hrest.expr_single hq)
  · exact (hp _ _ hfirst).seqStop hex

/-- Nothing is evaluated. -/
theorem leaf {e : Expr} {owed : Prop} {use : Use} {events : Trace} {c : Bool} (h : Each P [] tr ex)
    (he : Expr.Accounts F owed use e events (.done c)) :
    Expr.Accounts F owed use e (tr ++ ex.emits events) (ex.andThen (.done c)) := by
  cases h with
  | nil hex =>
    rcases hex with hdone | rfl
    · cases ex with
      | done c' => exact he
      | _ => cases hdone
    · exact .cut

/-- **The forms of operands, one after the other.**  What an operand owes must not be read first by
the operands behind it. -/
theorem expr_owed {α : Type} {f : α → Part} {read : α → Option Expr} {owed : α → Prop}
    {xs : List α} {es : List Expr} (hread : xs.mapM read = some es) (h : Each P (xs.map f) tr ex)
    (hP : ∀ x ∈ xs, ∀ e, read x = some e → ∀ tr ex, P (f x) tr ex →
      Expr.Accounts F (owed x) .value e tr ex)
    (hlater : F.noticed → ∀ before x after, xs = before ++ x :: after → owed x →
      ∀ t c, P (f x) t (.done c) → Untouched F.v t →
        ∀ t' ex', Each P (after.map f) t' ex' → ¬ ReadsFirst F.v t') :
    Expr.Accounts F (∃ x ∈ xs, owed x) .value (.ofList es) tr ex := by
  induction xs generalizing es tr with
  | nil =>
    obtain rfl : es = [] := by simpa using hread.symm
    cases h with
    | nil hex =>
      rcases hex with hdone | rfl
      · cases ex with
        | done c => exact .silent fun k => by cases c <;> rfl
        | _ => cases hdone
      · exact .cut
  | cons x xs ih =>
    simp only [List.mapM_cons, Option.bind_eq_bind, Option.bind_eq_some_iff, Option.pure_def,
      Option.some.injEq] at hread
    obtain ⟨e, he, es, hes, rfl⟩ := hread
    rcases cons h with ⟨t₁, t₂, c, rfl, hx, hxs⟩ | ⟨hx, hex⟩
    · have hrest := ih hes hxs (fun y hy => hP y (List.mem_cons_of_mem _ hy))
        fun hn before y after hsplit => hlater hn (x :: before) y after (by rw [hsplit]; rfl)
      refine ((hP x List.mem_cons_self e he _ _ hx).seqOwed hrest fun hdue hn hu => ?_).mono ?_
      -- What the first one owes is written behind all others, and these do not read it first.
      · exact hlater hn [] x xs rfl hdue _ _ hx hu _ _ hxs
      · rintro (hdue | ⟨y, hy, hdue⟩)
        · exact ⟨x, List.mem_cons_self, hdue⟩
        · exact ⟨y, List.mem_cons_of_mem _ hy, hdue⟩
    · exact (hP x List.mem_cons_self e he _ _ hx).seqStop hex

/-- Operands that owe nothing. -/
theorem expr_ofParts {α : Type} {f : α → Part} {read : α → Option Expr} {xs : List α}
    {es : List Expr} (hread : xs.mapM read = some es) (h : Each P (xs.map f) tr ex)
    (hP : ∀ x ∈ xs, ∀ e, read x = some e → ∀ tr ex, P (f x) tr ex →
      Expr.Accounts F False .value e tr ex) :
    Expr.Accounts F False .value (.ofList es) tr ex := by
  have hnone : Expr.Accounts F (∃ x ∈ xs, False) .value (.ofList es) tr ex :=
    h.expr_owed hread hP fun _ _ _ _ _ hdue => hdue.elim
  exact hnone.mono fun ⟨_, _, hdue⟩ => hdue

/-! ## Statements

The same for statements, which know more ways to leave. -/

/-- Nothing is done. -/
theorem skip (h : Each P [] tr ex) : Stmt.Accounts F .skip tr ex := by
  cases h with
  | nil hex =>
    rcases hex with hdone | rfl
    · cases ex with
      | done c => exact .skip
      | _ => cases hdone
    · exact .cut

/-- A statement without parts. -/
theorem stmt_leaf {s : Stmt} {events : Trace} {target : Exit} (h : Each P [] tr ex)
    (hs : Stmt.Accounts F s events target) :
    Stmt.Accounts F s (tr ++ ex.emits events) (ex.andThen target) := by
  cases h with
  | nil hex =>
    rcases hex with hdone | rfl
    · cases ex with
      | done c => exact hs
      | _ => cases hdone
    · exact .cut

/-- A single statement accounts for its trace, also when control stops behind it. -/
theorem stmt_single {s : Stmt} (h : Each P [p] tr ex)
    (hP : ∀ tr ex, P p tr ex → Stmt.Accounts F s tr ex) : Stmt.Accounts F s tr ex := by
  rcases h.single with ⟨hp, -⟩ | ⟨c, hp, hdone | rfl⟩
  · exact hP _ _ hp
  · cases ex with
    | done c' => exact (hP _ _ hp).anyValue c'
    | _ => cases hdone
  · exact (hP _ _ hp).toCut

theorem stmt_append {a b : Stmt} (h : Each P (ps ++ qs) tr ex)
    (hps : ∀ tr ex, Each P ps tr ex → Stmt.Accounts F a tr ex)
    (hqs : ∀ tr ex, Each P qs tr ex → Stmt.Accounts F b tr ex) :
    Stmt.Accounts F (.seq a b) tr ex := by
  rcases append h with ⟨t₁, t₂, c, rfl, hfirst, hrest⟩ | ⟨hfirst, hex⟩
  · exact (hps _ _ hfirst).seq (hqs _ _ hrest)
  · exact (hps _ _ hfirst).seqStop hex

/-- **The forms of statements, one after the other.** -/
theorem stmt_ofList {α : Type} {f : α → List Part} {read : α → Option Stmt} {xs : List α}
    {ss : List Stmt} (hread : xs.mapM read = some ss) (h : Each P (xs.flatMap f) tr ex)
    (hP : ∀ x ∈ xs, ∀ s, read x = some s → ∀ tr ex, Each P (f x) tr ex → Stmt.Accounts F s tr ex) :
    Stmt.Accounts F (.ofList ss) tr ex := by
  induction xs generalizing ss tr ex with
  | nil =>
    obtain rfl : ss = [] := by simpa using hread.symm
    exact h.skip
  | cons x xs ih =>
    simp only [List.mapM_cons, Option.bind_eq_bind, Option.bind_eq_some_iff, Option.pure_def,
      Option.some.injEq] at hread
    obtain ⟨s, hs, ss, hss, rfl⟩ := hread
    rw [List.flatMap_cons] at h
    exact h.stmt_append (hP x List.mem_cons_self s hs) fun tr ex h =>
      ih hss h fun y hy => hP y (List.mem_cons_of_mem _ hy)

theorem stmt_ofParts {α : Type} {f : α → Part} {read : α → Option Stmt} {xs : List α}
    {ss : List Stmt} (hread : xs.mapM read = some ss) (h : Each P (xs.map f) tr ex)
    (hP : ∀ x ∈ xs, ∀ s, read x = some s → ∀ tr ex, P (f x) tr ex → Stmt.Accounts F s tr ex) :
    Stmt.Accounts F (.ofList ss) tr ex := by
  rw [List.map_eq_flatMap] at h
  refine h.stmt_ofList hread fun x hx s hs tr ex h => ?_
  exact h.stmt_single (hP x hx s hs)

/-- Parts that a statement passes over, each from where it began, and then the parts of it. -/
theorem stmt_behind {s : Stmt} (h : Each P (qs ++ ps) tr ex)
    (hqs : ∀ q ∈ qs, ∀ tr ex, P q tr ex → Stmt.Accounts F s tr .cut ∧ (ex.isDone ∨ ex = .cut))
    (hps : ∀ tr, Each P ps tr ex → Stmt.Accounts F s tr ex) : Stmt.Accounts F s tr ex := by
  induction qs generalizing tr with
  | nil => exact hps _ h
  | cons q qs ih =>
    rcases cons h with ⟨t₁, t₂, c, rfl, hq, hrest⟩ | ⟨hq, hex⟩
    · have hpassed := (hqs q List.mem_cons_self _ _ hq).1
      exact hpassed.again (ih hrest fun q hq => hqs q (List.mem_cons_of_mem _ hq))
    · obtain ⟨hpassed, hexits⟩ := hqs q List.mem_cons_self _ _ hq
      obtain rfl : ex = .cut := hexits.resolve_left (by simp [hex])
      exact hpassed

end Each

end Sequences

/-! ## What a part owes

A place that is given out owes the variable that it names.  A part is sound if its form accounts for
each way through it, and this is what the induction over executions proves of all parts. -/

variable (b : Binder) (body : NodeId) (F : Watch)

/-- The watched variable is declared in the body, and the place names it. -/
def Owed (n : NodeId) : Prop :=
  (∃ m, Below b.tree body m ∧ F.v ∈ designatedVariables b m) ∧ Names b n F.v

/-- The loop or switch in the form of a statement, without what is evaluated in front of it. -/
def Stmt.breakable : Stmt → Stmt
  | .seq _ s => s
  | s => s

/-- The form of a part, or of what the part belongs to, accounts for a trace and an exit. -/
def Part.Accounts : Part → Trace → Exit → Prop
  | .expr n, tr, ex => ∀ e, HasForm b n e → ∀ use, Expr.Accounts F False use e tr ex
  | .test n value, tr, ex => ∀ e, HasForm b n e → ∀ use,
    Expr.Accounts F False use e tr ex ∧ ∀ c, ex = .done c → c = value
  | .pattern n _, tr, ex | .created n, tr, ex | .member n, tr, ex =>
    ∀ e, HasForm b n e → Expr.Accounts F False .value e tr ex
  | .place n, tr, ex => ∀ e, HasForm b n e →
    Expr.Accounts F (Owed b body F n) .value e tr ex ∧
      Expr.Accounts F (Owed b body F n) .value e.receivers tr ex
  | .argument a, tr, ex => ∀ e, HasForm b a.expression e →
    Expr.Accounts F (passMode b.tree a = .out ∧ Owed b body F a.expression) .value e tr ex
  | .label n true, tr, ex => ∀ e, readLabel? b n = some e → Expr.Accounts F False .value e tr ex
  | .label n false, tr, _ => ∀ e, readLabel? b n = some e → Expr.Accounts F False .value e tr .cut
  | .write u, tr, ex => Stmt.Accounts F (.declare u) tr ex
  | .declarator n, tr, ex => ∀ s, readDeclarator? b n = some s → Stmt.Accounts F s tr ex
  | .statement n, tr, ex => ∀ s, HasStatement b n s → Stmt.Accounts F s tr ex
  | .breakable n, tr, ex => ∀ s, HasStatement b n s → Stmt.Accounts F s.breakable tr ex
  | .inside n, tr, ex => ∀ s, HasStatement b n s → Stmt.Accounts F s.breakable tr ex.afterBreak
  | .round n, tr, ex => ∃ ex₀, ex = ex₀.afterRound ∧
    ∀ s, HasStatement b n s → Stmt.Accounts F s tr ex₀
  | .guarded n, tr, ex => ∀ s, HasStatement.Guarded b n s → Stmt.Accounts F s tr ex
  | .handlers n, tr, ex => ∀ fuel jumps catches,
    (b.tree.childrenOfKind n .catchClause).mapM (readCatch? b (readStmtFuel b fuel jumps)) =
      some catches →
    (catches = [] → tr = [] ∧ ex = .cut) ∧
      ∀ last ways, (∀ s ∈ catches, s ∈ ways ∨ s = last) →
        Stmt.Accounts F (.chooseFrom last ways) tr ex
  | .caught n, tr, ex => ∀ fuel jumps s,
    readCatch? b (readStmtFuel b fuel jumps) n = some s → Stmt.Accounts F s tr ex
  | .refused n, tr, _ => ∀ fuel jumps s,
    readCatch? b (readStmtFuel b fuel jumps) n = some s → Stmt.Accounts F s tr .cut

/-- What is granted about the watched variable: the analysis takes it for written only where it is,
and it passes over no read of it if none is to be passed over. -/
structure Watch.Fits : Prop where
  member : ¬ NamedByMember b body F.v
  labels : ¬ TaughtByLabels b body F.v
  pattern : ¬ DeclaredByPattern b body F.v
  ifNull : AssignedIfNull b body F.v → F.byNull
  outside : F.noticed → ∀ n, Below b.tree body n → F.v ∉ designatedVariables b n
  seen : F.noticed → ¬ ReadOverlooked b body F.v

/-- A part runs, and its form accounts for that. -/
def Part.Sound (p : Part) (tr : Trace) (ex : Exit) : Prop :=
  Runs b (.one p) tr ex ∧ p.Accounts b body F tr ex

variable {b body F} {n : NodeId} {p : Part} {ps : List Part} {tr events : Trace} {ex ex' : Exit}
  {c : Bool}

/-! ## Parts one after the other

Parts that are sound one by one are sound together. -/

/-- The forms of some nodes, evaluated one after the other, account for the trace. -/
theorem accounts_of_forms {f : NodeId → Part} {ns : List NodeId} {es : List Expr}
    (hes : HaveForms b ns es) (h : Each (Part.Sound b body F) (ns.map f) tr ex)
    (hf : ∀ n e tr ex, HasForm b n e → (f n).Accounts b body F tr ex →
      Expr.Accounts F False .value e tr ex) :
    Expr.Accounts F False .value (.ofList es) tr ex := by
  obtain ⟨fuel, hes⟩ := hes
  exact h.expr_ofParts hes fun n _ e he tr ex hn => hf n e tr ex ⟨fuel, he⟩ hn.2

theorem accounts_of_operands {ns : List NodeId} {es : List Expr} (hes : HaveForms b ns es)
    (h : Each (Part.Sound b body F) (ns.map .expr) tr ex) :
    Expr.Accounts F False .value (.ofList es) tr ex :=
  accounts_of_forms hes h fun _ e _ _ he hn => hn e he .value

/-- A tuple does to its items what operands one after the other do. -/
theorem accounts_tuple {owed : Prop} {es : List Expr}
    (h : Expr.Accounts F owed .value (.ofList es) tr ex) :
    Expr.Accounts F owed .value (es.foldr .tuple .constant) tr ex := by
  have hsame : ∀ es : List Expr, (∀ k, (es.foldr Expr.tuple .constant).split .value k =
      (Expr.ofList es).split .value k) ∧ ∀ k, (es.foldr Expr.tuple .constant).early .value k =
      (Expr.ofList es).early .value k := by
    intro es
    induction es with
    | nil => exact ⟨fun _ => rfl, fun _ => rfl⟩
    | cons e es ih =>
      refine ⟨fun k => ?_, fun k => ?_⟩
      · exact congrArg (fun s : Split => Split.same s.whenTrue) (ih.1 _)
      · exact congrArg (e.early .value k ++ ·) (ih.2 _)
  refine h.carry (fun _ hk => ?_) fun k => ?_
  · rw [(hsame es).1]
    exact hk
  · rw [(hsame es).2]
    exact List.Subset.refl _

/-- Parts that are sound one after the other run one after the other. -/
theorem runs_of_each (h : Each (Part.Sound b body F) ps tr ex) : Runs b (.each ps) tr ex := by
  induction h with
  | @nil ex hex =>
    rcases hex with hdone | rfl
    · cases ex with
      | done c => exact .none
      | _ => cases hdone
    · exact .cut
  | next hp _ ih => exact .next hp.1 ih
  | stop hp hex => exact .stop hp.1 hex

theorem Watch.Fits.not_owed (hF : F.Fits b body) (hn : F.noticed) (n : NodeId) :
    ¬ Owed b body F n := by
  rintro ⟨⟨m, hm, hv⟩, -⟩
  exact hF.outside hn m hm hv

end CodeMend.Flow
