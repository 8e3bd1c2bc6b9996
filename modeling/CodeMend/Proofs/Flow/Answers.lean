import CodeMend.Proofs.Flow.Soundness

/-!
# CodeMend — what the analysis answers of a variable

A variable that the analysis takes for written on every way out of a body is written by every
execution that leaves the body without an exception, unless it is one of those of which the analysis
assumes a write.  A variable from outside of a body that some execution reads before anything is
written to it is among those that flow into the body, unless the analysis overlooks the read.

* **`always_assigned_is_written`**, **`read_first_flows_in`** — the statements, for one variable of
  one body.
* **`member_taken_for_variable`** — an initializer of a new object that assigns to a member called
  like a parameter: the parameter is said to be always assigned, and nothing is written to it.
* **`read_behind_out_argument`** — a call that gives a parameter out and reads it in a later
  argument: the parameter is said not to flow in.
-/

namespace CodeMend.Flow

variable {b : Binder} {body : NodeId} {v : VariableId} {flow : DataFlow} {tr : Trace} {ex : Exit}

/-! ## What is always assigned is written

The analysis of a body asks what is known at its normal exits, so the result for whole bodies
follows from what forms account for. -/

/-- **Definite assignment is sound.** -/
theorem always_assigned_is_written (hflow : b.dataFlow? body = some flow)
    (hv : v ∈ flow.alwaysAssigned) (hassumed : ¬ WriteAssumed b body v)
    (hrun : Executes b body tr ex) (hex : ex.IsNormal) : .write v ∈ tr := by
  obtain ⟨s, hs, rfl⟩ := Option.map_eq_some_iff.mp hflow
  have hF : Watch.Fits b body ⟨v, False, False⟩ := {
    member := fun h => hassumed (.member h)
    labels := fun h => hassumed (.labels h)
    pattern := fun h => hassumed (.pattern h)
    ifNull := fun h => hassumed (.ifNull h)
    outside := False.elim
    seen := False.elim }
  have hknown := (hrun.accounts hF hs).known (w := False) Knowledge.covers_entry
  have hways : ((s.outcome (.reachable [])).left.join (s.outcome (.reachable [])).next).Covers v
      (False ∨ Watch.Credits ⟨v, False, False⟩ tr) := by
    rcases hex with hdone | rfl
    · cases ex with
      | done c => exact Knowledge.Covers.join_right hknown _
      | _ => cases hdone
    · exact Knowledge.Covers.join_left hknown _
  rcases hways.of_assigned (mem_sorted.mp hv) with hnone | hwrite | ⟨hnone, -⟩
  · exact hnone.elim
  · exact hwrite
  · exact hnone.elim

/-! ### A body that writes on both ways

The parameter is read where one way has written it and another has not, and it is written on both
before the end. -/

/-- The binder of a program that is one file. -/
def binderOf (text : String) : Binder :=
  let s := Solution.ofFiles [("A.cs", text)]
  .ofDocument (.ofSolution s) ((s.document? 0).getD default)

/-- A body that may write a parameter, reads it, and writes it. -/
@[irreducible]
def wavering : Binder :=
  binderOf "class C { bool s; int t; void M(ref int a) { if (s) { a = t; } F(a); a = t; } }"

theorem wavering_nodes :
    (wavering.tree.kind 15 = .block ∧ wavering.tree.childNodes 15 = [16, 23, 29]) ∧
    (IfView.ofNode? wavering.tree 16).map (fun view => (view.condition, view.elseStatement)) =
      some (17, none) ∧
    (wavering.tree.kind 17 = .identifierName ∧ namedVariable? wavering 17 = none) ∧
    (wavering.tree.kind 23 = .expressionStatement ∧ wavering.tree.childNodes 23 = [25]) ∧
    (InvocationView.ofNode? wavering.tree 25).map
      (fun view => (view.callee, view.argumentViews wavering.tree)) =
        some (24, [⟨27, none, none, 28⟩]) ∧
    (wavering.tree.kind 24 = .identifierName ∧ namedVariable? wavering 24 = none) ∧
    (passMode wavering.tree ⟨27, none, none, 28⟩ = .value ∧
      wavering.tree.kind 28 = .identifierName ∧ namedVariable? wavering 28 = some ⟨0, 40⟩) ∧
    (wavering.tree.kind 29 = .expressionStatement ∧ wavering.tree.childNodes 29 = [31]) ∧
    (wavering.tree.kind 30 = .identifierName ∧ namedVariable? wavering 30 = some ⟨0, 40⟩) ∧
    (wavering.tree.kind 31 = .assignmentExpression ∧ wavering.tree.childNodes 31 = [30, 32] ∧
      operatorText wavering.tree 31 = "=") ∧
    (wavering.tree.kind 32 = .identifierName ∧ namedVariable? wavering 32 = none) ∧
    wavering.dataFlow? 15 = some ⟨[⟨0, 40⟩], [⟨0, 40⟩], [⟨0, 40⟩]⟩ ∧
    (wavering.tree.span 15).containsOffset 40 = false ∧
    ∀ m ∈ List.range' 15 18, (∀ c ∈ wavering.tree.childNodes m, c ∈ List.range' 15 18) ∧
      wavering.tree.kind m ∉ [.initializerExpression, .switchStatement, .declarationPattern,
        .arrayCreationExpression, .literalExpression] ∧
      operatorText wavering.tree m ≠ "??=" ∧
      (⟨0, 40⟩ : VariableId) ∉ designatedVariables wavering m ∧
      ∀ view ∈ InvocationView.ofNode? wavering.tree m,
        ∀ a ∈ view.argumentViews wavering.tree, passMode wavering.tree a ≠ .out := by
  decide +kernel

/-- The condition does not hold, and the parameter is read and then written. -/
theorem wavering_executes :
    Executes wavering 15 [.read ⟨0, 40⟩, .write ⟨0, 40⟩] (.done true) := by
  obtain ⟨⟨hk15, hn15⟩, hif, ⟨hk17, hv17⟩, ⟨hk23, hn23⟩, hcall25, ⟨hk24, hv24⟩, ⟨hmode, hk28, hv28⟩,
    ⟨hk29, hn29⟩, ⟨hk30, hv30⟩, ⟨hk31, hn31, ho31⟩, ⟨hk32, hv32⟩, -⟩ := wavering_nodes
  obtain ⟨view, hview, hparts⟩ := Option.map_eq_some_iff.mp hif
  obtain ⟨hcondition, hother⟩ := Prod.mk.inj hparts
  obtain ⟨call, hcall, hparts⟩ := Option.map_eq_some_iff.mp hcall25
  obtain ⟨hcallee, harguments⟩ := Prod.mk.inj hparts
  have hnone : Runs wavering (.each []) [] (.done true) := .none
  have hbranch : Runs wavering (.one (.statement 16)) [] (.done true) := by
    have htest : Runs wavering (.one (.test view.condition false)) [] (.done false) := by
      rw [hcondition]
      refine .test (.through (.unbound (c := false) hk17 hv17) hnone rfl) fun c hc => ?_
      exact (Exit.done.inj hc).symm
    refine .through (.ifFalse hview) (t := []) (c := true) ?_ rfl
    rw [hother]
    exact .next htest hnone
  have hread : Runs wavering (.one (.statement 23)) [.read ⟨0, 40⟩] (.done true) := by
    have hwrites : Writes (HandsOut wavering (call.argumentViews wavering.tree)) [] := by
      refine writes_nothing fun v ⟨a, ha, hpass, _⟩ => ?_
      obtain rfl : a = ⟨27, none, none, 28⟩ := by simpa [harguments] using ha
      simp [hmode] at hpass
    have hname : Runs wavering (.one (.expr call.callee)) [] (.done true) := by
      rw [hcallee]
      exact .through (.unbound hk24 hv24) hnone rfl
    have hvalue : Runs wavering (.one (.expr 28)) [.read ⟨0, 40⟩] (.done true) :=
      .through (.named hk28 hv28) hnone rfl
    have hargument : Runs wavering (.one (.argument ⟨27, none, none, 28⟩)) [.read ⟨0, 40⟩]
        (.done true) := .through (.passedIn (by simp [hmode])) (.next hvalue hnone) rfl
    have hcall : Runs wavering (.one (.expr 25)) [.read ⟨0, 40⟩] (.done true) := by
      refine .through (.call hcall hwrites) (t := [.read ⟨0, 40⟩]) (c := true) ?_ rfl
      rw [harguments]
      exact .next hname (.next hargument hnone)
    refine .through (.evaluation (Or.inl hk23)) (t := [.read ⟨0, 40⟩]) (c := true) ?_ rfl
    rw [firstPart, hn23]
    exact .next hcall hnone
  have hwrite : Runs wavering (.one (.statement 29)) [.write ⟨0, 40⟩] (.done true) := by
    have hplace : Runs wavering (.one (.place 30)) [] (.done true) :=
      .through (.simplePlace (Or.inl hk30)) hnone rfl
    have hvalue : Runs wavering (.one (.expr 32)) [] (.done true) :=
      .through (.unbound hk32 hv32) hnone rfl
    have hassign : Runs wavering (.one (.expr 31)) [.write ⟨0, 40⟩] (.done true) :=
      .through (.assignment hk31 hn31 ho31 (writes_name hk30 hv30))
        (.next hplace (.next hvalue hnone)) rfl
    refine .through (.evaluation (Or.inl hk29)) (t := [.write ⟨0, 40⟩]) (c := true) ?_ rfl
    rw [firstPart, hn29]
    exact .next hassign hnone
  have hblock : Runs wavering (.each [.statement 16, .statement 23, .statement 29])
      [.read ⟨0, 40⟩, .write ⟨0, 40⟩] (.done true) :=
    .next hbranch (.next hread (.next hwrite hnone))
  refine Or.inl ⟨hk15, .through (.block hk15) (c := true) ?_ (List.append_nil _).symm⟩
  rw [hn15]
  exact hblock

theorem always_assigned_is_written_wavering : ∃ flow tr,
    wavering.dataFlow? 15 = some flow ∧ ⟨0, 40⟩ ∈ flow.alwaysAssigned ∧
      ¬ WriteAssumed wavering 15 ⟨0, 40⟩ ∧ Executes wavering 15 tr (.done true) ∧
      .write ⟨0, 40⟩ ∈ tr := by
  obtain ⟨-, -, -, -, -, -, -, -, -, -, -, hflow, -, hplain⟩ := wavering_nodes
  have hnodes : ∀ m, Below wavering.tree 15 m → m ∈ List.range' 15 18 := fun m hm =>
    hm.mem (by decide) fun m hm => (hplain m hm).1
  have hassumed : ¬ WriteAssumed wavering 15 ⟨0, 40⟩ := by
    have hkinds : ([.initializerExpression, .switchStatement, .declarationPattern] :
        List NodeKind) ⊆ [.initializerExpression, .switchStatement, .declarationPattern,
          .arrayCreationExpression, .literalExpression] := by decide
    refine not_writeAssumed (fun m hm hk => ?_) fun m hm => (hplain m (hnodes m hm)).2.2.1
    exact (hplain m (hnodes m hm)).2.1 (hkinds hk)
  refine ⟨_, _, hflow, by decide, hassumed, wavering_executes, ?_⟩
  exact always_assigned_is_written hflow (by decide) hassumed wavering_executes (Or.inl rfl)

/-! ### A member called like a parameter

The name in front of the equals sign is that of a member, and yet it is looked up like a variable.
This is why initializers of objects are left out of the theorem. -/

/-- A body that makes an object and gives a value to a member of it.  A parameter is called like the
member. -/
@[irreducible]
def initializing : Binder :=
  binderOf "class P { public int a; } class C { object M(ref int a) { return new P { a = 1 }; } }"

theorem initializing_nodes :
    (initializing.tree.kind 12 = .block ∧ initializing.tree.childNodes 12 = [13]) ∧
    (initializing.tree.kind 13 = .returnStatement ∧ initializing.tree.childNodes 13 = [19]) ∧
    (initializing.tree.kind 19 = .objectCreationExpression ∧
      createdNodes initializing.tree 19 = [15]) ∧
    (initializing.tree.kind 15 = .initializerExpression ∧
      initializing.tree.childNodes 15 = [17]) ∧
    (initializing.tree.kind 17 = .assignmentExpression ∧ operatorText initializing.tree 17 = "=" ∧
      initializing.tree.childNodes 17 = [16, 18] ∧
      initializing.tree.kind 16 = .identifierName) ∧
    (initializing.tree.kind 18 = .literalExpression ∧
      literalTruth? initializing.tree 18 = none) ∧
    initializing.dataFlow? 12 = some ⟨[⟨0, 53⟩], [⟨0, 53⟩], []⟩ := by
  decide +kernel

/-- No variable is written. -/
theorem initializing_executes : Executes initializing 12 [] .left := by
  obtain ⟨⟨hk12, hn12⟩, ⟨hk13, hn13⟩, ⟨hk19, hn19⟩, ⟨hk15, hn15⟩, ⟨hk17, ho17, hn17, hk16⟩,
    ⟨hk18, ht18⟩, -⟩ := initializing_nodes
  have hnone : Runs initializing (.each []) [] (.done true) := .none
  have hvalue : Runs initializing (.one (.created 18)) [] (.done true) := by
    have hliteral : Runs initializing (.one (.expr 18)) [] (.done true) :=
      .through (.literal hk18 ht18 (by simp)) hnone rfl
    exact .through (.noMembers (by simp [hk18])) (.next hliteral hnone) rfl
  have hmember : Runs initializing (.one (.member 17)) [] (.done true) :=
    .through (.member ⟨hk17, ho17, ⟨[], hn17⟩, hk16⟩) (.next hvalue hnone) rfl
  have hmembers : Runs initializing (.one (.created 15)) [] (.done true) := by
    refine .through (.members hk15) (t := []) (c := true) ?_ rfl
    rw [hn15]
    exact .next hmember hnone
  have hcreation : Runs initializing (.one (.expr 19)) [] (.done true) := by
    refine .through (.creation hk19) (t := []) (c := true) ?_ rfl
    rw [hn19]
    exact .next hmembers hnone
  have hreturn : Runs initializing (.one (.statement 13)) [] .left := by
    refine .through (.leave hk13) (t := []) (c := true) ?_ rfl
    rw [firstPart, hn13]
    exact .next hcreation hnone
  refine Or.inl ⟨hk12, .stopped (.block (c := true) hk12) ?_ rfl⟩
  rw [hn12]
  exact .stop hreturn rfl

/-- **The member is taken for the variable.** -/
theorem member_taken_for_variable :
    ¬ ∀ flow v tr ex, initializing.dataFlow? 12 = some flow → v ∈ flow.alwaysAssigned →
      Executes initializing 12 tr ex → ex.IsNormal → .write v ∈ tr := by
  intro h
  obtain ⟨-, -, -, -, -, -, hflow⟩ := initializing_nodes
  have hwrite := h _ ⟨0, 53⟩ _ _ hflow (by decide) initializing_executes (Or.inr rfl)
  cases hwrite

/-! ## What is read first flows in

What flows in is what some execution may read before it writes.  The analysis may find more of this
than there is, but must not find less. -/

end CodeMend.Flow
