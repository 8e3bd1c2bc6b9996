import CodeMend.Proofs.Flow.Parts

/-!
# CodeMend — expressions are accounted for

One lemma for each way through an expression, operation, literal or pattern: when the parts on it
are accounted for, the form of the expression accounts for the whole trace.

* **`accounts_assign`** — an assignment owes what it writes until it is at its end.
* **`accounts_passed`**, **`accounts_call`** — a call writes what its arguments hand out.
* **`accounts_member`** — an item of an initializer that is named like no variable.
* **`accounts_conjunction`**, **`accounts_disjunction`** — the right side is left out, or it is not.
* **`accounts_conditional`** — one of the two sides is evaluated.
* **`accounts_pattern`** — a pattern that declares other variables, whether it matches or not.
-/

namespace CodeMend.Flow

variable {b : Binder} {body : NodeId} {F : Watch} {n left right : NodeId} {rest : List NodeId}
  {tr events : Trace} {ex : Exit} {c : Bool}

/-! ## Places

A place that is assigned to is not read, but what stands in it may be: the receiver of a member, or
the index of an element. -/

theorem accounts_simplePlace (hn : Below b.tree body n)
    (hk : b.tree.kind n = .identifierName ∨ b.tree.kind n = .declarationExpression) {e : Expr}
    (he : HasForm b n e) :
    Expr.Accounts F (Owed b body F n) .value e [] (.done c) ∧
      Expr.Accounts F (Owed b body F n) .value e.receivers [] (.done c) := by
  rcases hk with hk | hk
  · obtain rfl := he.identifier hk
    exact ⟨.silent fun k => by cases c <;> rfl, .silent fun k => by cases c <;> rfl⟩
  · obtain rfl := he.declaration hk
    refine ⟨(Expr.Accounts.declared fun _ _ => rfl).mono fun hv => ?_,
      .silent fun k => by cases c <;> rfl⟩
    exact ⟨⟨n, hn, hv⟩, .declaration hk hv⟩

theorem accounts_placeInParentheses (hk : b.tree.kind n = .parenthesizedExpression) {inner : NodeId}
    {rest : List NodeId} (hn : b.tree.childNodes n = inner :: rest)
    (h : (Part.place inner).Accounts b body F tr ex) : (Part.place n).Accounts b body F tr ex := by
  intro e he
  obtain ⟨i, hi, rfl⟩ := he.parenthesized hk hn
  have hinner : Expr.Accounts F (Owed b body F n) .value i tr ex :=
    (h i hi).1.mono fun hdue => ⟨hdue.1, .parenthesized hk hn hdue.2⟩
  have hwrapped : Expr.Accounts F (Owed b body F n) .value (.parenthesized i) tr ex :=
    hinner.carry (fun _ hknown => hknown) fun k => List.Subset.refl _
  exact ⟨hwrapped, hwrapped⟩

theorem mapM_map {α β γ : Type} {f : α → Option β} (g : β → γ) {xs : List α} {ys : List β}
    (h : xs.mapM f = some ys) : xs.mapM (fun x => (f x).map g) = some (ys.map g) := by
  induction xs generalizing ys with
  | nil =>
    obtain rfl : ys = [] := by simpa using h.symm
    rfl
  | cons x xs ih =>
    simp only [List.mapM_cons, Option.bind_eq_bind, Option.bind_eq_some_iff, Option.pure_def,
      Option.some.injEq] at h ⊢
    obtain ⟨y, hy, ys, hys, rfl⟩ := h
    exact ⟨g y, by simp [hy], ys.map g, ih hys, rfl⟩

theorem receivers_foldr_tuple (es : List Expr) :
    (es.foldr Expr.tuple .constant).receivers = .ofList (es.map Expr.receivers) := by
  induction es with
  | nil => rfl
  | cons e es ih => exact congrArg (Expr.seq e.receivers) ih

theorem accounts_placesOfTuple (hF : F.Fits b body) (hk : b.tree.kind n = .tupleExpression)
    (h : Each (Part.Sound b body F) ((tupleItems b.tree n).map .place) tr ex) :
    (Part.place n).Accounts b body F tr ex := by
  intro e he
  obtain ⟨es, ⟨fuel, hes⟩, rfl⟩ := he.tuple hk
  have hdue : (∃ item ∈ tupleItems b.tree n, Owed b body F item) → Owed b body F n := by
    rintro ⟨item, hitem, hdeclared, hnames⟩
    exact ⟨hdeclared, .tuple hk hitem hnames⟩
  constructor
  · refine accounts_tuple ((h.expr_owed hes ?_ ?_).mono hdue)
    · exact fun item _ e he tr ex hp => (hp.2 e ⟨fuel, he⟩).1
    · exact fun hn _ item _ _ hdue => absurd hdue (hF.not_owed hn item)
  · rw [receivers_foldr_tuple]
    refine (h.expr_owed (mapM_map Expr.receivers hes) ?_ ?_).mono hdue
    · intro item _ e he tr ex hp
      obtain ⟨i, hi, rfl⟩ := Option.map_eq_some_iff.mp he
      exact (hp.2 i ⟨fuel, hi⟩).2
    · exact fun hn _ item _ _ hdue => absurd hdue (hF.not_owed hn item)

theorem accounts_otherPlace (hk : b.tree.kind n ∉ placeKinds) {e : Expr} (he : HasForm b n e)
    (h : Expr.Accounts F False .value e tr ex) :
    Expr.Accounts F (Owed b body F n) .value e tr ex ∧
      Expr.Accounts F (Owed b body F n) .value e.receivers tr ex := by
  obtain ⟨fuel, hstep⟩ := he.step
  rw [(form_of_otherKind hstep hk).2]
  exact ⟨h.mono False.elim, h.mono False.elim⟩

/-! ## Assignments

What is written is written behind the operands, so an assignment owes its write to the place while
the value is evaluated. -/

/-- The operands of an assignment, and the write of what its place names. -/
theorem accounts_assign {target : NodeId} {operands l : Expr} {owed : Prop}
    (hl : HasForm b target l) (ho : owed → Names b target F.v)
    (hwrites : Writes (Names b target) events)
    (h : Expr.Accounts F owed .value operands tr ex) (use : Use) :
    Expr.Accounts F False use (.assign operands l.targets) (tr ++ ex.emits events)
      (ex.andThen (.done c)) := by
  have hassign : Expr.Accounts F (owed ∨ F.v ∈ l.targets) .value (.assign operands l.targets) tr
      ex := h.writing (fun _ => rfl) fun _ => rfl
  refine (hassign.emit ?_ hwrites.not_readsFirst c).ofValue (fun _ => rfl) fun _ => rfl
  rintro (hdue | hv)
  · exact hwrites.mem (ho hdue)
  · exact hwrites.mem (.of_targets hl hv)

theorem accounts_assignment {target value : NodeId} {l r : Expr} (hl : HasForm b target l)
    (hr : HasForm b value r) (hF : F.Fits b body) (hwrites : Writes (Names b target) events)
    (h : Each (Part.Sound b body F) [.place target, .expr value] tr ex) (use : Use) :
    Expr.Accounts F False use (assignment "=" l r) (tr ++ ex.emits events)
      (ex.andThen (.done c)) := by
  have hoperands : Expr.Accounts F (Owed b body F target) .value (.seq l.receivers r) tr ex := by
    rcases h.cons with ⟨t₁, t₂, c₁, rfl, hplace, hvalue⟩ | ⟨hplace, hex⟩
    · have hr' := hvalue.expr_single fun tr ex hp => hp.2 r hr .value
      refine ((hplace.2 l hl).2.seqOwed hr' fun hdue hn => ?_).mono fun h => h.resolve_right id
      exact absurd hdue (hF.not_owed hn target)
    · exact (hplace.2 l hl).2.seqStop hex
  exact accounts_assign hl (fun hdue => hdue.2) hwrites hoperands use

/-- An assignment that reads its target too. -/
theorem accounts_compound {target value : NodeId} {l r : Expr} (hl : HasForm b target l)
    (hr : HasForm b value r) (hwrites : Writes (Names b target) events)
    (h : Each (Part.Sound b body F) [.expr target, .expr value] tr ex) {operator : String}
    (hoperator : operator ≠ "=") (use : Use) :
    Expr.Accounts F False use (assignment operator l r) (tr ++ ex.emits events)
      (ex.andThen (.done c)) := by
  have hpair := h.expr_pair (fun tr ex hp => hp.2 l hl .value) fun tr ex hp => hp.2 r hr .value
  unfold assignment
  rw [if_neg (by simpa using hoperator)]
  split
  · exact accounts_assign hl False.elim hwrites hpair.optionalOfSeq use
  · exact accounts_assign hl False.elim hwrites hpair use

/-- The target is not null, and nothing is written: the analysis takes it for written, which is
credited to the read of it. -/
theorem accounts_notNull {target : NodeId} {l r : Expr} (hl : HasForm b target l)
    (hnull : Names b target F.v → F.byNull)
    (h : Each (Part.Sound b body F) [.expr target] tr ex) (use : Use) :
    Expr.Accounts F False use (assignment "??=" l r) tr (ex.andThen (.done c)) := by
  have hform : assignment "??=" l r = .assign (.optional l r) l.targets := rfl
  rw [hform]
  have hassign : ∀ tr ex, Expr.Accounts F False .value l tr ex →
      Expr.Accounts F (F.v ∈ l.targets) .value (.assign (.optional l r) l.targets) tr ex := by
    intro tr ex hleft
    have hoptional : Expr.Accounts F False .value (.optional l r) tr ex := hleft.optionalLeftOut
    have hwriting : Expr.Accounts F (False ∨ F.v ∈ l.targets) .value
        (.assign (.optional l r) l.targets) tr ex := hoptional.writing (fun _ => rfl) fun _ => rfl
    exact hwriting.mono fun h => h.resolve_left id
  have hvalue : Expr.Accounts F False .value (.assign (.optional l r) l.targets) tr
      (ex.andThen (.done c)) := by
    rcases h.single with ⟨hp, hex⟩ | ⟨c', hp, hex⟩
    · have hleft := hassign _ _ (hp.2 l hl .value)
      obtain rfl : ex = .cut := hleft.exits.resolve_left (by simp [hex])
      exact hleft.toCut
    · have hcredit := (hassign _ _ (hp.2 l hl .value)).credit fun _ _ hv => ?_
      · rcases hex with hdone | rfl
        · cases ex with
          | done _ => exact hcredit.anyValue c
          | _ => cases hdone
        · exact hcredit.toCut
      · have hnames := Names.of_targets hl hv
        rcases hp.1.touches hnames with hread | hwrite
        · exact Or.inr ⟨hnull hnames, hread⟩
        · exact Or.inl hwrite
  exact hvalue.ofValue (fun _ => rfl) fun _ => rfl

/-! ## Calls

A call evaluates all of its arguments and then writes to those that it gives out.  The form writes
where the argument stands, hence what an argument hands out is owed until the call returns. -/

/-- Each way through an argument that is given out goes through its place. -/
theorem runs_place_of_argument {a : ArgumentView} (ha : passMode b.tree a = .out)
    (h : Runs b (.one (.argument a)) tr ex) :
    tr = [] ∨ ∃ x, Runs b (.one (.place a.expression)) tr x := by
  cases h with
  | cut => exact Or.inl rfl
  | @way _ ps events t ex' ex hway hps =>
    cases hway with
    | passedIn hne => exact absurd ha hne
    | passedOut =>
      rw [Exit.append_emits_nil]
      cases hps with
      | cut => exact Or.inl rfl
      | next hplace hnone =>
        cases hnone with
        | cut => exact Or.inr ⟨_, by rwa [List.append_nil]⟩
        | none => exact Or.inr ⟨_, by rwa [List.append_nil]⟩
      | stop hplace => exact Or.inr ⟨_, hplace⟩

/-- An argument that is handed both in and out is evaluated for its value. -/
theorem runs_expr_of_argument {a : ArgumentView} (ha : passMode b.tree a ≠ .out)
    (h : Runs b (.one (.argument a)) tr (.done c)) :
    ∃ c', Runs b (.one (.expr a.expression)) tr (.done c') := by
  generalize hx : Exit.done c = x at h
  cases h with
  | cut => cases hx
  | @way _ ps events t ex' ex hway hps =>
    cases hway with
    | passedOut hout => exact absurd hout ha
    | passedIn =>
      cases ex' with
      | done c₁ =>
        cases hps with
        | next hexpr hnone =>
          cases hnone with
          | none => exact ⟨_, by simpa [Exit.emits] using hexpr⟩
        | stop _ hex => cases hex
      | _ => cases hx

/-- The form of an argument of a call. -/
theorem accounts_passed {fuel : Nat} {a : ArgumentView} {e : Expr}
    (he : readPassed b (readExprFuel b fuel) a = some e)
    (h : Part.Sound b body F (.argument a) tr ex)
    (hplace : F.noticed → passMode b.tree a = .out → ∀ tr ex,
      Runs b (.one (.place a.expression)) tr ex → ¬ ReadsFirst F.v tr) :
    Expr.Accounts F ((passMode b.tree a = .ref ∨ passMode b.tree a = .out) ∧
      Names b a.expression F.v) .value e tr ex := by
  unfold readPassed at he
  split at he
  next hout =>
    obtain rfl := Option.some.inj he
    refine (Expr.Accounts.passedOut (h.1.exits rfl) fun hn hread => ?_).mono fun hv =>
      ⟨Or.inr hout, .of_place hv⟩
    rcases runs_place_of_argument hout h.1 with rfl | ⟨x, hrun⟩
    · exact not_readsFirst_nil hread
    · exact hplace hn hout _ _ hrun hread
  next mode hmode =>
    obtain ⟨i, hi, rfl⟩ := Option.map_eq_some_iff.mp he
    have hinner := (h.2 i ⟨fuel, hi⟩).mono fun hdue => hmode hdue.1
    cases hpass : passMode b.tree a with
    | out => exact absurd hpass hmode
    | ref =>
      have hwriting : Expr.Accounts F (False ∨ F.v ∈ i.targets) .value (.passed .ref i) tr ex :=
        hinner.writing (fun _ => rfl) fun _ => rfl
      exact hwriting.mono fun hv => ⟨Or.inl rfl, .of_targets ⟨fuel, hi⟩ (hv.resolve_left id)⟩
    | value | input =>
      refine Expr.Accounts.mono ?_ False.elim
      refine hinner.carry (fun _ hk => ?_) fun k => List.Subset.refl _
      rw [Expr.side_value] at hk ⊢
      exact hk

/-- An argument that gives out the variable is not followed by a read of it. -/
theorem not_readsFirst_behind (hF : F.Fits b body) (hn : Below b.tree body n)
    {view : InvocationView} (hview : InvocationView.ofNode? b.tree n = some view)
    (hseen : F.noticed) {before after : List ArgumentView} {a : ArgumentView}
    (hviews : view.argumentViews b.tree = before ++ a :: after)
    (ha : (passMode b.tree a = .ref ∨ passMode b.tree a = .out) ∧ Names b a.expression F.v)
    (h : Runs b (.one (.argument a)) tr (.done c)) (htr : Untouched F.v tr)
    {tr' : Trace} {ex' : Exit} (hafter : Runs b (.each (after.map .argument)) tr' ex') :
    ¬ ReadsFirst F.v tr' := by
  intro hread
  obtain ⟨href | hout, hnames⟩ := ha
  · obtain ⟨c', hrun⟩ := runs_expr_of_argument (by simp [href]) h
    rcases hrun.touches hnames with hr | hw
    · exact htr.1 hr
    · exact htr.2 hw
  · exact hF.seen hseen (.laterArgument ⟨n, view, before, a, after, tr', ex', hn, hview, hviews,
      hout, hnames, hafter, hread⟩)

/-- **A call.**  It owes what its arguments hand out until it returns. -/
theorem accounts_call (hF : F.Fits b body) (hn : Below b.tree body n) {view : InvocationView}
    (hview : InvocationView.ofNode? b.tree n = some view)
    (hwrites : Writes (HandsOut b (view.argumentViews b.tree)) events)
    (h : Each (Part.Sound b body F)
      (.expr view.callee :: (view.argumentViews b.tree).map .argument) tr ex) :
    (Part.expr n).Accounts b body F (tr ++ ex.emits events) (ex.andThen (.done c)) := by
  intro e he use
  obtain ⟨callee, fuel, es, hcallee, hes, rfl⟩ := he.call hview
  have harguments : ∀ tr ex, Each (Part.Sound b body F)
      ((view.argumentViews b.tree).map .argument) tr ex →
      Expr.Accounts F (HandsOut b (view.argumentViews b.tree) F.v) .value (.ofList es) tr ex := by
    intro tr ex h
    refine h.expr_owed hes (fun a ha e he tr ex hp => ?_)
      fun hseen before a after hsplit hdue t c hp ht t' ex' hrest =>
        not_readsFirst_behind hF hn hview hseen hsplit hdue hp.1 ht (runs_of_each hrest)
    refine accounts_passed he hp fun hseen hout tr ex hrun hread => ?_
    exact hF.seen hseen (.place ⟨n, view, a, tr, ex, hn, hview, ha, hout, hrun, hread⟩)
  have hoperands : Expr.Accounts F (HandsOut b (view.argumentViews b.tree) F.v) .value
      (.seq callee (.ofList es)) tr ex := by
    rcases h.cons with ⟨t₁, t₂, c₁, rfl, hfirst, hrest⟩ | ⟨hfirst, hex⟩
    · exact (hfirst.2 callee hcallee .value).seq (harguments _ _ hrest)
    · exact (hfirst.2 callee hcallee .value).seqStop hex
  -- The write of the call itself comes behind all of its arguments.
  have hcall : Expr.Accounts F (HandsOut b (view.argumentViews b.tree) F.v) .value
      (.call callee (.ofList es)) tr ex :=
    hoperands.carry (fun _ hk => hk) fun k => List.Subset.refl _
  exact (hcall.emit hwrites.mem hwrites.not_readsFirst c).ofValue (fun _ => rfl) fun _ => rfl

/-- The part for a node of a list of arguments. -/
def argumentPart (t : Tree) (c : NodeId) : Part :=
  match ArgumentView.ofNode? t c with
  | some a => .argument a
  | none => .expr c

theorem map_argumentPart {t : Tree} {ns : List NodeId} {views : List ArgumentView}
    (h : ns.mapM (ArgumentView.ofNode? t) = some views) :
    ns.map (argumentPart t) = views.map .argument := by
  induction ns generalizing views with
  | nil =>
    obtain rfl : views = [] := by simpa using h.symm
    rfl
  | cons n ns ih =>
    simp only [List.mapM_cons, Option.bind_eq_bind, Option.bind_eq_some_iff, Option.pure_def,
      Option.some.injEq] at h
    obtain ⟨a, ha, views, hviews, rfl⟩ := h
    rw [List.map_cons, List.map_cons, ih hviews, argumentPart, ha]

/-- Arguments apart from a call. -/
theorem accounts_arguments (hF : F.Fits b body)
    (hk : b.tree.kind n = .argumentList ∨ b.tree.kind n = .bracketedArgumentList)
    {views : List ArgumentView}
    (hviews : (b.tree.childNodes n).mapM (ArgumentView.ofNode? b.tree) = some views)
    (hwrites : Writes (HandsOut b views) events)
    (h : Each (Part.Sound b body F) (views.map .argument) tr ex) :
    (Part.expr n).Accounts b body F (tr ++ ex.emits events) (ex.andThen (.done c)) := by
  intro e he use
  obtain ⟨es, ⟨fuel, hes⟩, rfl⟩ := he.arguments hk
  rw [← map_argumentPart hviews] at h
  have hoperands : Expr.Accounts F (∃ m ∈ b.tree.childNodes n, ∃ a,
      ArgumentView.ofNode? b.tree m = some a ∧ passMode b.tree a = .out ∧
        Owed b body F a.expression) .value (.ofList es) tr ex := by
    refine h.expr_owed hes (fun m hm e he tr ex hp => ?_) ?_
    · obtain ⟨a, -, ha⟩ := exists_of_mapM hviews hm
      obtain ⟨i, hi, rfl⟩ := HasForm.argument ⟨fuel, he⟩ ha
      have hpart : argumentPart b.tree m = .argument a := by rw [argumentPart, ha]
      rw [hpart] at hp
      have hinner : Expr.Accounts F _ .value (.argument (passMode b.tree a) i) tr ex :=
        (hp.2 i hi).carry (fun _ hk => by rwa [Expr.side_value] at hk ⊢) fun k => List.Subset.refl _
      exact hinner.mono fun hdue => ⟨a, ha, hdue⟩
    · rintro hseen before m after - ⟨a, -, -, hdue⟩
      exact absurd hdue (hF.not_owed hseen _)
  refine (hoperands.emit ?_ hwrites.not_readsFirst c).ofList use
  rintro ⟨m, hm, a, ha, hout, hdue⟩
  obtain ⟨a', ha', hview⟩ := exists_of_mapM hviews hm
  obtain rfl := Option.some.inj (ha.symm.trans hview)
  exact hwrites.mem ⟨a, ha', Or.inr hout, hdue.2⟩

/-! ## Creations

Creations evaluate what stands in parentheses and in braces behind the type. -/

/-- **The creation of an array.**  The analysis does not look at the sizes. -/
theorem accounts_arrayCreation (hF : F.Fits b body) (hn : Below b.tree body n)
    (hk : b.tree.kind n = .arrayCreationExpression)
    (h : Each (Part.Sound b body F)
      ((arraySizes b.tree n).map .expr ++ (createdNodes b.tree n).map .expr) tr ex) :
    (Part.expr n).Accounts b body F (tr ++ ex.emits []) (ex.andThen (.done c)) := by
  intro e he use
  obtain ⟨es, hes, rfl⟩ := he.creation (Or.inr hk)
  have hsizes : ∀ t x, Each (Part.Sound b body F) ((arraySizes b.tree n).map .expr) t x →
      F.noticed → ¬ ReadsFirst F.v t := fun t x h hseen hread =>
    hF.seen hseen (.size ⟨n, t, x, hn, hk, runs_of_each h, hread⟩)
  have hitems : Expr.Accounts F False .value (.ofList es) tr ex := by
    rcases h.append with ⟨t₁, t₂, c₁, rfl, hfirst, hrest⟩ | ⟨hfirst, hex⟩
    · exact (accounts_of_operands hes hrest).unseen (hsizes _ _ hfirst)
    · have hends := (runs_of_each hfirst).exits_of_values (by simp [Part.IsValue])
      have hcut : ex = .cut := hends.resolve_left (by simp [hex])
      subst hcut
      have hnone : Expr.Accounts F False .value (.ofList es) [] .cut := .cut
      rw [← List.append_nil tr]
      exact hnone.unseen (hsizes _ _ hfirst)
  exact (hitems.toEnd c).ofList use

/-- An item of the initializer of an object: the analysis takes it for an assignment. -/
theorem accounts_member (hF : F.Fits b body) (hn : (Part.member n).Within b body)
    {target value : NodeId} (hitem : IsMember b.tree n target value)
    (h : Each (Part.Sound b body F) [.created value] tr ex) :
    (Part.member n).Accounts b body F (tr ++ ex.emits []) (ex.andThen (.done c)) := by
  intro e he
  obtain ⟨m, hm, hinit, hmem⟩ := hn
  have hmember := hitem
  obtain ⟨hk, hoperator, ⟨rest, hnodes⟩, htarget⟩ := hitem
  obtain ⟨l, r, hl, hr, rfl⟩ := he.assignment hk hnodes
  obtain rfl := hl.identifier htarget
  have hv : F.v ∉ (Expr.name (namedVariable? b target)).targets := by
    intro hv
    exact hF.member ⟨m, n, target, value, hm, hinit, hmem, hmember, namedVariable?_of_targets hv⟩
  have hvalue : Expr.Accounts F False .value r tr ex := h.expr_single fun tr ex hp => hp.2 r hr
  have hassign : Expr.Accounts F
      (False ∨ F.v ∈ (Expr.name (namedVariable? b target)).targets) .value
      (assignment (operatorText b.tree n) (.name (namedVariable? b target)) r) tr ex := by
    rw [hoperator]
    exact hvalue.writing (fun _ => rfl) fun _ => rfl
  exact (hassign.mono fun hdue => hdue.elim id hv).toEnd c

/-! ## Literals

Literals read nothing, but for strings with holes. -/

theorem readLiteral_of_truth (h : literalTruth? b.tree n = some c) :
    readLiteral b n = .literal c := by
  unfold literalTruth? at h
  unfold readLiteral
  split at h
  next htrue =>
    obtain rfl := Option.some.inj h
    simp [htrue]
  next htrue =>
    split at h
    next hfalse =>
      obtain rfl := Option.some.inj h
      simp [htrue, hfalse]
    next => cases h

theorem readLiteral_of_other (h : literalTruth? b.tree n = none) :
    readLiteral b n = .holes (holeVariables b n) := by
  unfold literalTruth? at h
  unfold readLiteral
  split at h
  next => cases h
  next htrue =>
    split at h
    next => cases h
    next hfalse => simp [htrue, hfalse]

/-- The holes of a string read variables that the analysis finds among their names. -/
theorem accounts_holes (hF : F.Fits b body) (hn : Below b.tree body n)
    (hk : b.tree.kind n = .literalExpression)
    (hevents : ∀ e ∈ events, ∃ v, e = .read v ∧ HoleReads b n v) (use : Use) :
    Expr.Accounts F False use (.holes (holeVariables b n)) events (.done c) := by
  refine .holes fun hseen hread => ?_
  obtain ⟨v, hv, hreads⟩ := hevents _ hread
  obtain rfl := Event.read.inj hv
  by_cases hmem : F.v ∈ holeVariables b n
  · exact hmem
  · exact absurd (.hole ⟨n, hn, hk, hreads, hmem⟩) (hF.seen hseen)

/-! ## Operators

Operators evaluate their operands from left to right, but for those that may leave the right one
out. -/

theorem accounts_parenthesized (hk : b.tree.kind n = .parenthesizedExpression)
    (hn : b.tree.childNodes n = left :: rest)
    (h : Each (Part.Sound b body F) [.test left c] tr ex) :
    (Part.expr n).Accounts b body F (tr ++ ex.emits []) (ex.andThen (.done c)) := by
  intro e he use
  obtain ⟨i, hi, rfl⟩ := he.parenthesized hk hn
  have hinner : Expr.Accounts F False use i tr (ex.andThen (.done c)) :=
    h.test_single fun tr ex hp => hp.2 i hi use
  rw [Exit.append_emits_nil]
  exact hinner.carry (fun _ hk => hk) fun k => List.Subset.refl _

theorem unaryOperation_eq (t : Tree) (n : NodeId) (operand : Expr) :
    unaryOperation t n operand =
      if increments t n then .assign operand operand.targets
      else if negates t n then .negation operand
      else .ofList [operand] := rfl

theorem accounts_increment
    (hk : b.tree.kind n = .prefixUnaryExpression ∨ b.tree.kind n = .postfixUnaryExpression)
    (hn : b.tree.childNodes n = left :: rest) (hincrements : increments b.tree n = true)
    (hwrites : Writes (Names b left) events)
    (h : Each (Part.Sound b body F) [.expr left] tr ex) :
    (Part.expr n).Accounts b body F (tr ++ ex.emits events) (ex.andThen (.done c)) := by
  intro e he use
  obtain ⟨o, ho, rfl⟩ := he.unary hk hn
  rw [unaryOperation_eq, if_pos hincrements]
  have hoperand : Expr.Accounts F False .value o tr ex :=
    h.expr_single fun tr ex hp => hp.2 o ho .value
  exact accounts_assign ho False.elim hwrites hoperand use

theorem accounts_negation (hk : b.tree.kind n = .prefixUnaryExpression)
    (hn : b.tree.childNodes n = left :: rest) (hincrements : increments b.tree n = false)
    (hnegates : negates b.tree n = true)
    (h : Each (Part.Sound b body F) [.test left c] tr ex) :
    (Part.expr n).Accounts b body F (tr ++ ex.emits []) (ex.andThen (.done !c)) := by
  intro e he use
  obtain ⟨o, ho, rfl⟩ := he.unary (Or.inl hk) hn
  rw [unaryOperation_eq, hincrements, if_neg (by simp), if_pos hnegates]
  have hoperand : Expr.Accounts F False use o tr (ex.andThen (.done c)) :=
    h.test_single fun tr ex hp => hp.2 o ho use
  have hnegation := hoperand.negation (c := c) fun c' hc' => by
    cases ex <;> simp_all [Exit.andThen]
  rw [Exit.append_emits_nil]
  cases ex <;> exact hnegation

theorem accounts_unary
    (hk : b.tree.kind n = .prefixUnaryExpression ∨ b.tree.kind n = .postfixUnaryExpression)
    (hn : b.tree.childNodes n = left :: rest) (hincrements : increments b.tree n = false)
    (hnegates : negates b.tree n = false)
    (h : Each (Part.Sound b body F) [.expr left] tr ex) :
    (Part.expr n).Accounts b body F (tr ++ ex.emits []) (ex.andThen (.done c)) := by
  intro e he use
  obtain ⟨o, ⟨fuel, ho⟩, rfl⟩ := he.unary hk hn
  rw [unaryOperation_eq, hincrements, if_neg (by simp), hnegates, if_neg (by simp)]
  have hforms : HaveForms b [left] [o] := ⟨fuel, by simp [ho]⟩
  exact ((accounts_of_operands hforms h).toEnd c).ofList use

/-! ### Conditions of two sides

The left side alone may decide, and then the right side is not gone through; the form must account
for both ways. -/

/-- The left side of a conjunction decides it. -/
theorem accounts_conjunctionLeft {l r : Expr} (hl : HasForm b left l)
    (h : Each (Part.Sound b body F) [.test left false] tr ex) (use : Use) :
    Expr.Accounts F False use (.conjunction l r) (tr ++ ex.emits [])
      (ex.andThen (.done false)) := by
  have hleft : Expr.Accounts F False .test l tr (ex.andThen (.done false)) :=
    h.test_single fun tr ex hp => hp.2 l hl .test
  rw [Exit.append_emits_nil]
  exact hleft.conjunctionLeft fun c hc => by cases ex <;> simp_all [Exit.andThen]

theorem accounts_conjunction {l r : Expr} (hl : HasForm b left l) (hr : HasForm b right r)
    (h : Each (Part.Sound b body F) [.test left true, .test right c] tr ex) (use : Use) :
    Expr.Accounts F False use (.conjunction l r) (tr ++ ex.emits []) (ex.andThen (.done c)) := by
  rw [Exit.append_emits_nil]
  rcases h.cons with ⟨t₁, t₂, c₁, rfl, hleft, hright⟩ | ⟨hleft, hex⟩
  · obtain ⟨hl', hvalue⟩ := hleft.2 l hl .test
    obtain rfl := hvalue c₁ rfl
    exact hl'.conjunctionRight (hright.test_single fun tr ex hp => hp.2 r hr .test)
  · obtain ⟨hl', -⟩ := hleft.2 l hl .test
    obtain rfl : ex = .cut := hl'.exits.resolve_left (by simp [hex])
    exact hl'.conjunctionLeft fun c hc => by cases hc

/-- The left side of a disjunction decides it. -/
theorem accounts_disjunctionLeft {l r : Expr} (hl : HasForm b left l)
    (h : Each (Part.Sound b body F) [.test left true] tr ex) (use : Use) :
    Expr.Accounts F False use (.disjunction l r) (tr ++ ex.emits []) (ex.andThen (.done true)) := by
  have hleft : Expr.Accounts F False .test l tr (ex.andThen (.done true)) :=
    h.test_single fun tr ex hp => hp.2 l hl .test
  rw [Exit.append_emits_nil]
  exact hleft.disjunctionLeft fun c hc => by cases ex <;> simp_all [Exit.andThen]

theorem accounts_disjunction {l r : Expr} (hl : HasForm b left l) (hr : HasForm b right r)
    (h : Each (Part.Sound b body F) [.test left false, .test right c] tr ex) (use : Use) :
    Expr.Accounts F False use (.disjunction l r) (tr ++ ex.emits []) (ex.andThen (.done c)) := by
  rw [Exit.append_emits_nil]
  rcases h.cons with ⟨t₁, t₂, c₁, rfl, hleft, hright⟩ | ⟨hleft, hex⟩
  · obtain ⟨hl', hvalue⟩ := hleft.2 l hl .test
    obtain rfl := hvalue c₁ rfl
    exact hl'.disjunctionRight (hright.test_single fun tr ex hp => hp.2 r hr .test)
  · obtain ⟨hl', -⟩ := hleft.2 l hl .test
    obtain rfl : ex = .cut := hl'.exits.resolve_left (by simp [hex])
    exact hl'.disjunctionLeft fun c hc => by cases hc

/-! ### An operand that may be left out

Here too the right side may be left out, but which way was taken is not known behind the value. -/

theorem accounts_optionalLeftOut {l r : Expr} (hl : HasForm b left l)
    (h : Each (Part.Sound b body F) [.expr left] tr ex) (use : Use) :
    Expr.Accounts F False use (.optional l r) (tr ++ ex.emits []) (ex.andThen (.done c)) := by
  have hleft : Expr.Accounts F False .value l tr ex :=
    h.expr_single fun tr ex hp => hp.2 l hl .value
  have hoptional : Expr.Accounts F False .value (.optional l r) tr ex := hleft.optionalLeftOut
  exact (hoptional.toEnd c).ofValue (fun _ => rfl) fun _ => rfl

theorem accounts_optional {l r : Expr} (hl : HasForm b left l) (hr : HasForm b right r)
    (h : Each (Part.Sound b body F) [.expr left, .expr right] tr ex) (use : Use) :
    Expr.Accounts F False use (.optional l r) (tr ++ ex.emits []) (ex.andThen (.done c)) := by
  have hpair := h.expr_pair (fun tr ex hp => hp.2 l hl .value) fun tr ex hp => hp.2 r hr .value
  exact (hpair.optionalOfSeq.toEnd c).ofValue (fun _ => rfl) fun _ => rfl

/-- Any other operation of two sides evaluates both. -/
theorem accounts_binary {l r : Expr} (hl : HasForm b left l) (hr : HasForm b right r)
    {operator : String} (hoperator : operator ∉ ["&&", "||", "??"])
    (h : Each (Part.Sound b body F) [.expr left, .expr right] tr ex) (use : Use) :
    Expr.Accounts F False use (binaryOperation operator l r) (tr ++ ex.emits [])
      (ex.andThen (.done c)) := by
  have hform : binaryOperation operator l r = .seq l r := by
    simp only [List.mem_cons, List.not_mem_nil, or_false, not_or] at hoperator
    obtain ⟨hand, hor, hnull⟩ := hoperator
    unfold binaryOperation
    split <;> first | contradiction | rfl
  rw [hform]
  have hpair := h.expr_pair (fun tr ex hp => hp.2 l hl .value) fun tr ex hp => hp.2 r hr .value
  exact (hpair.toEnd c).ofValue (fun _ => rfl) fun _ => rfl

/-- The test of a conditional expression, and the side that it chooses. -/
theorem accounts_conditional (value : Bool) {test first second : NodeId}
    (hk : b.tree.kind n = .conditionalExpression)
    (hn : b.tree.childNodes n = test :: first :: second :: rest)
    (h : Each (Part.Sound b body F) [.test test value, .expr (if value then first else second)] tr
      ex) :
    (Part.expr n).Accounts b body F (tr ++ ex.emits []) (ex.andThen (.done c)) := by
  intro e he use
  obtain ⟨t, x, y, ht, hx, hy, rfl⟩ := he.conditional hk hn
  have hconditional : Expr.Accounts F False .value (.conditional t x y) tr ex := by
    rcases h.cons with ⟨t₁, t₂, c₁, rfl, htest, hside⟩ | ⟨htest, hex⟩
    · obtain ⟨ht', hvalue⟩ := htest.2 t ht .test
      obtain rfl := hvalue c₁ rfl
      cases c₁ with
      | true => exact ht'.conditionalTrue (hside.expr_single fun tr ex hp => hp.2 x hx .value)
      | false => exact ht'.conditionalFalse (hside.expr_single fun tr ex hp => hp.2 y hy .value)
    · exact (htest.2 t ht .test).1.conditionalStop hex
  exact (hconditional.toEnd c).ofValue (fun _ => rfl) fun _ => rfl

/-! ## Patterns

A pattern evaluates nothing but what it compares with, and declares variables when it matches. -/

/-- A pattern declares variables; the watched one is not among them. -/
theorem accounts_pattern (hF : F.Fits b body) (hn : Below b.tree body n)
    (hk : b.tree.kind n = .declarationPattern) (hevents : ¬ ReadsFirst F.v events) {m : Bool}
    (h : Each (Part.Sound b body F) [] tr ex) :
    (Part.pattern n m).Accounts b body F (tr ++ ex.emits events) (ex.andThen (.done c)) := by
  intro e he
  obtain rfl := he.pattern hk
  have hv : F.v ∉ designatedVariables b n := fun hv => hF.pattern ⟨n, hn, hk, hv⟩
  have hsilent : Expr.Accounts F (F.v ∈ designatedVariables b n) .value
      (.pattern (designatedVariables b n)) [] (.done true) := .declared fun _ _ => rfl
  exact h.leaf (hsilent.emit (fun hmem => absurd hmem hv) hevents c)

theorem accounts_isPattern (hk : b.tree.kind n = .isPatternExpression)
    (hn : b.tree.childNodes n = [left, right])
    (h : Each (Part.Sound b body F) [.expr left, .pattern right c] tr ex) :
    (Part.expr n).Accounts b body F (tr ++ ex.emits []) (ex.andThen (.done c)) := by
  intro e he use
  obtain ⟨l, r, hl, hr, rfl⟩ := he.isPattern hk hn
  have hpair : Expr.Accounts F False .value (.seq l r) tr ex :=
    h.expr_pair (fun tr ex hp => hp.2 l hl .value) fun tr ex hp => hp.2 r hr
  have hoperands : Expr.Accounts F False .value (.seq l (.seq r .constant)) tr ex :=
    hpair.carry (fun _ hk => hk) fun k => by
      simp [Expr.early]
  exact (hoperands.toEnd c).ofValue (fun _ => rfl) fun _ => rfl

theorem accounts_notPattern (hk : b.tree.kind n = .notPattern) (hn : b.tree.childNodes n = [left])
    {m : Bool} (h : Each (Part.Sound b body F) [.pattern left !m] tr ex) :
    (Part.pattern n m).Accounts b body F (tr ++ ex.emits []) (ex.andThen (.done c)) := by
  intro e he
  obtain ⟨i, hi, rfl⟩ := he.notPattern hk hn
  have hinner : Expr.Accounts F False .value i tr ex := h.expr_single fun tr ex hp => hp.2 i hi
  have hoperand : Expr.Accounts F False .value (.seq i .constant) tr ex :=
    hinner.carry (fun _ hk => by rwa [Expr.side_value] at hk ⊢) fun k => List.subset_append_left _ _
  exact hoperand.toEnd c

end CodeMend.Flow
