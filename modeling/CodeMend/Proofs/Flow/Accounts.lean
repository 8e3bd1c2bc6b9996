import CodeMend.Proofs.Flow.Knowledge

/-!
# CodeMend — forms that account for a trace

The analysis works on forms, an execution goes through nodes.  A form accounts for a trace when what
the analysis makes of the form is right about it: what it takes for written behind the form was
written, and a variable that the trace reads first is among its early reads.  Each constructor of a
form has a lemma that puts the traces of its operands together.

* **`Watch`** — the variable that is watched, and what is granted about it.
* **`Expr.Accounts`**, **`Stmt.Accounts`** — a form accounts for a trace and an exit.
* **`Expr.Accounts.seq`**, **`Stmt.Accounts.seq`** and so on — one lemma for each constructor.
-/

namespace CodeMend.Flow

/-- A variable that is watched along a trace. -/
structure Watch where
  v : VariableId
  /-- The analysis takes the variable for written by an assignment that asks whether it is null. -/
  byNull : Prop
  /-- No read of the variable is passed over. -/
  noticed : Prop

/-- The analysis may take the variable for written behind the trace.  An assignment that asks
whether the variable is null has read it at least. -/
def Watch.Credits (F : Watch) (tr : Trace) : Prop :=
  .write F.v ∈ tr ∨ F.byNull ∧ .read F.v ∈ tr

variable {F : Watch}

theorem Watch.credits_append {t₁ t₂ : Trace} :
    F.Credits (t₁ ++ t₂) ↔ F.Credits t₁ ∨ F.Credits t₂ := by
  simp only [Watch.Credits, List.mem_append]
  constructor
  · rintro ((h | h) | ⟨hnull, h | h⟩)
    · exact Or.inl (Or.inl h)
    · exact Or.inr (Or.inl h)
    · exact Or.inl (Or.inr ⟨hnull, h⟩)
    · exact Or.inr (Or.inr ⟨hnull, h⟩)
  · rintro ((h | ⟨hnull, h⟩) | (h | ⟨hnull, h⟩))
    · exact Or.inl (Or.inl h)
    · exact Or.inr ⟨hnull, Or.inl h⟩
    · exact Or.inl (Or.inr h)
    · exact Or.inr ⟨hnull, Or.inr h⟩

theorem Untouched.not_credits {tr : Trace} (h : Untouched F.v tr) : ¬ F.Credits tr := by
  rintro (hwrite | ⟨-, hread⟩)
  · exact h.2 hwrite
  · exact h.1 hread

/-- Nothing more happens at the end. -/
@[simp]
theorem Exit.append_emits_nil (tr : Trace) (ex : Exit) : tr ++ ex.emits [] = tr := by
  cases ex <;> exact List.append_nil tr

theorem Exit.andThen_cut {ex : Exit} (h : ex.isDone = true ∨ ex = .cut) :
    ex.andThen .cut = .cut := by
  rcases h with hdone | rfl
  · cases ex with
    | done c => rfl
    | _ => cases hdone
  · rfl

/-! ## Expressions

That a form accounts for a trace says two things at once: a variable that is read first is among the
reads that the form finds, and what the form knows behind the trace has been written in it.  The two
are proved together, since a read counts only where nothing is known. -/

namespace Expr

section EarlyReads

variable (use : Use) (k : Knowledge)

theorem early_name (u : VariableId) :
    (name (some u)).early use k = [u].filter fun v => !k.knows v := rfl

theorem early_holes (vs : List VariableId) :
    (holes vs).early use k = vs.filter fun v => !k.knows v := rfl

theorem early_conditional (e a b : Expr) : (conditional e a b).early use k =
    e.early .test k ++ a.early .value (e.tested k).whenTrue ++
      b.early .value (e.tested k).whenFalse := rfl

end EarlyReads

/-- The form of an expression accounts for a trace and an exit.  What is `owed` is taken for written
too early: it is written when the call or the assignment around is at its end. -/
structure Accounts (F : Watch) (owed : Prop) (use : Use) (e : Expr) (tr : Trace) (ex : Exit) :
    Prop where
  exits : ex.isDone ∨ ex = .cut
  known : ∀ {k w c}, k.Covers F.v w → ex = .done c →
    ((e.split use k).side c).Covers F.v (w ∨ F.Credits tr ∨ owed)
  early : F.noticed → ∀ {k w}, k.Covers F.v w → ¬ w → ReadsFirst F.v tr →
    F.v ∈ e.early use k

namespace Accounts

variable {owed owed' : Prop} {use use' use₁ use₂ : Use} {e a b : Expr} {tr t₁ t₂ : Trace}
  {ex : Exit} {c : Bool}

/-- An expression that is cut short before it begins. -/
theorem cut : Accounts F owed use e [] .cut where
  exits := Or.inr rfl
  known _ h := by cases h
  early _ _ _ _ _ h := absurd h not_readsFirst_nil

/-- An expression may be cut short behind its trace. -/
theorem toCut (h : Accounts F owed use e tr ex) : Accounts F owed' use e tr .cut where
  exits := Or.inr rfl
  known _ h := by cases h
  early := h.early

theorem mono (h : Accounts F owed use e tr ex) (ho : owed → owed') :
    Accounts F owed' use e tr ex where
  exits := h.exits
  known hk hex := (h.known hk hex).mono fun hw => hw.imp_right (Or.imp_right ho)
  early := h.early

/-- What is known behind the value of an expression. -/
theorem after (h : Accounts F owed .value e tr (.done c)) {k : Knowledge} {w : Prop}
    (hk : k.Covers F.v w) :
    (e.after k).Covers F.v (w ∨ F.Credits tr ∨ owed) := by
  rw [← e.side_value k c]
  exact h.known hk rfl

/-- An expression that is evaluated for its value may come out with any. -/
theorem anyValue (h : Accounts F owed .value e tr (.done c)) (c' : Bool) :
    Accounts F owed .value e tr (.done c') where
  exits := Or.inl rfl
  known hk hex := by
    rw [side_value]
    exact h.after hk
  early := h.early

/-- An expression that does the same for a condition as for its value. -/
theorem ofValue (h : Accounts F owed .value e tr ex)
    (hsplit : ∀ k, e.split use k = e.split .value k)
    (hearly : ∀ k, e.early use k = e.early .value k) : Accounts F owed use e tr ex where
  exits := h.exits
  known {k w c} hk hex := by
    rw [hsplit]
    exact h.known hk hex
  early hn {k w} hk hw hread := by
    rw [hearly]
    exact h.early hn hk hw hread

/-- Events that read nothing first, at the end of an expression: they give out what is owed. -/
theorem emit {events : Trace} (h : Accounts F owed .value e tr ex)
    (ho : owed → .write F.v ∈ events) (hread : ¬ ReadsFirst F.v events) (c : Bool) :
    Accounts F False .value e (tr ++ ex.emits events) (ex.andThen (.done c)) := by
  rcases h.exits with hdone | rfl
  · cases ex with
    | done c₀ =>
      refine ⟨Or.inl rfl, fun {k w c} hk _ => ?_, fun hn {k w} hk hw hfirst => ?_⟩
      · rw [side_value]
        refine (h.after hk).mono ?_
        rintro (hw | hc | hdue)
        · exact Or.inl hw
        · exact Or.inr (Or.inl (Watch.credits_append.mpr (Or.inl hc)))
        · exact Or.inr (Or.inl (Watch.credits_append.mpr (Or.inr (Or.inl (ho hdue)))))
      · rcases readsFirst_append hfirst with hfirst | ⟨-, hfirst⟩
        · exact h.early hn hk hw hfirst
        · exact absurd hfirst hread
    | _ => cases hdone
  · simpa [Exit.emits, Exit.andThen] using h.toCut

/-- Nothing more happens at the end of an expression. -/
theorem toEnd (h : Accounts F owed .value e tr ex) (c : Bool) :
    Accounts F owed .value e (tr ++ ex.emits []) (ex.andThen (.done c)) := by
  rw [Exit.append_emits_nil]
  rcases h.exits with hdone | rfl
  · cases ex with
    | done c' => exact h.anyValue c
    | _ => cases hdone
  · exact h.toCut

/-- Operands one after the other are evaluated the same way for a condition. -/
theorem ofList {es : List Expr} (h : Accounts F owed .value (.ofList es) tr ex) (use : Use) :
    Accounts F owed use (.ofList es) tr ex := by
  cases es with
  | nil => exact h.ofValue (fun _ => rfl) fun _ => rfl
  | cons e es => exact h.ofValue (fun _ => rfl) fun _ => rfl

/-- What is owed may be credited to the trace. -/
theorem credit (h : Accounts F owed use e tr ex) (ho : ∀ c, ex = .done c → owed → F.Credits tr) :
    Accounts F False use e tr ex where
  exits := h.exits
  known hk hex := (h.known hk hex).mono fun hw => hw.imp_right fun hw =>
    Or.inl (hw.elim id (ho _ hex))
  early := h.early

/-- A trace in front that the form does not know, and that reads nothing first. -/
theorem unseen (h : Accounts F owed use e t₂ ex) (hread : F.noticed → ¬ ReadsFirst F.v t₁) :
    Accounts F owed use e (t₁ ++ t₂) ex where
  exits := h.exits
  known hk hex := (h.known hk hex).mono fun hw => hw.imp_right (Or.imp_left fun hc =>
    Watch.credits_append.mpr (Or.inr hc))
  early hn {k _} hk hw hfirst := by
    rcases readsFirst_append hfirst with hfirst | ⟨-, hfirst⟩
    · exact absurd hfirst (hread hn)
    · exact h.early hn hk hw hfirst

/-! ### Leaves

What holds of the operands of an expression comes down to these in the end. -/

/-- An expression that does nothing, and behind which nothing more is known. -/
theorem silent (h : ∀ k, (e.split use k).side c = k) : Accounts F owed use e [] (.done c) where
  exits := Or.inl rfl
  known {k w c'} hk hex := by
    cases hex
    rw [h]
    exact hk.mono Or.inl
  early _ _ _ _ _ hread := absurd hread not_readsFirst_nil

theorem name (u : VariableId) : Accounts F owed use (.name (some u)) [.read u] (.done c) where
  exits := Or.inl rfl
  known hk _ := by
    rw [split, Split.side_same]
    exact hk.mono Or.inl
  early _ {k w} hk hw hread := by
    obtain rfl : F.v = u := by simpa using hread.mem
    simp [early_name, hk.not_knows hw]

theorem holes {vs : List VariableId}
    (h : F.noticed → .read F.v ∈ tr → F.v ∈ vs) :
    Accounts F owed use (.holes vs) tr (.done c) where
  exits := Or.inl rfl
  known hk _ := by
    rw [split, Split.side_same]
    exact hk.mono Or.inl
  early hn {k w} hk hw hread := by
    rw [early_holes, List.mem_filter]
    exact ⟨h hn hread.mem, by simp [hk.not_knows hw]⟩

/-- Variables that are taken for written where they are declared. -/
theorem declared {vs : List VariableId} (h : ∀ use k, e.split use k = .same (k.assignAll vs)) :
    Accounts F (F.v ∈ vs) use e [] (.done c) where
  exits := Or.inl rfl
  known {k w c'} hk _ := by
    rw [h, Split.side_same]
    exact (hk.assignAll vs).mono fun hw => hw.imp_right Or.inr
  early _ _ _ _ _ hread := absurd hread not_readsFirst_nil

/-! ### Forms of one and of two operands

A form gets its account from those of its operands, when it knows no more behind it than they do and
reads all that they read. -/

/-- A form that begins with an operand, when nothing else of it is evaluated. -/
theorem carry (h : Accounts F owed use a tr ex)
    (hknown : ∀ {k c w}, ex = .done c → ((a.split use k).side c).Covers F.v w →
      ((e.split use' k).side c).Covers F.v w)
    (hearly : ∀ k, a.early use k ⊆ e.early use' k) : Accounts F owed use' e tr ex where
  exits := h.exits
  known hk hex := hknown hex (h.known hk hex)
  early hn {k _} hk hw hread := hearly k (h.early hn hk hw hread)

/-- A form that begins with two operands.  What the first one owes must not be read first by the
second one. -/
theorem followOwed (ha : Accounts F owed use₁ a t₁ (.done c)) (hb : Accounts F owed' use₂ b t₂ ex)
    (ho : owed → F.noticed → Untouched F.v t₁ → ¬ ReadsFirst F.v t₂)
    (hknown : ∀ {k c' w}, ((b.split use₂ ((a.split use₁ k).side c)).side c').Covers F.v w →
      ((e.split use k).side c').Covers F.v w)
    (hearly₁ : ∀ k, a.early use₁ k ⊆ e.early use k)
    (hearly₂ : ∀ k, b.early use₂ ((a.split use₁ k).side c) ⊆ e.early use k) :
    Accounts F (owed ∨ owed') use e (t₁ ++ t₂) ex where
  exits := hb.exits
  known {k w c'} hk hex := by
    refine (hknown (hb.known (ha.known hk rfl) hex)).mono ?_
    rw [Watch.credits_append]
    rintro ((hw | hc | hdue) | hc | hdue)
    · exact Or.inl hw
    · exact Or.inr (Or.inl (Or.inl hc))
    · exact Or.inr (Or.inr (Or.inl hdue))
    · exact Or.inr (Or.inl (Or.inr hc))
    · exact Or.inr (Or.inr (Or.inr hdue))
  early hn {k w} hk hw hread := by
    rcases readsFirst_append hread with hread | ⟨huntouched, hread⟩
    · exact hearly₁ k (ha.early hn hk hw hread)
    · refine hearly₂ k (hb.early hn (ha.known hk rfl) ?_ hread)
      rintro (hw' | hc | hdue)
      · exact hw hw'
      · exact huntouched.not_credits hc
      · exact ho hdue hn huntouched hread

theorem follow (ha : Accounts F False use₁ a t₁ (.done c)) (hb : Accounts F owed use₂ b t₂ ex)
    (hknown : ∀ {k c' w}, ((b.split use₂ ((a.split use₁ k).side c)).side c').Covers F.v w →
      ((e.split use k).side c').Covers F.v w)
    (hearly₁ : ∀ k, a.early use₁ k ⊆ e.early use k)
    (hearly₂ : ∀ k, b.early use₂ ((a.split use₁ k).side c) ⊆ e.early use k) :
    Accounts F owed use e (t₁ ++ t₂) ex :=
  (ha.followOwed hb (fun h => h.elim) hknown hearly₁ hearly₂).mono fun h => h.resolve_left id

/-! ### Operands one after the other

Operands are gone through in order, and control may stop at each of them.  An operand may owe a
write, which is made good only behind the operands that follow it. -/

/-- The second operand is not begun. -/
theorem seqCut (h : Accounts F owed .value a tr ex) :
    Accounts F owed' .value (.seq a b) tr .cut := by
  have hcut : Accounts F owed' .value a tr .cut := h.toCut
  exact hcut.carry (fun hc => by cases hc) fun k => List.subset_append_left _ _

theorem seqStop (h : Accounts F owed .value a tr ex) (hex : ex.isDone = false) :
    Accounts F owed' .value (.seq a b) tr ex := by
  obtain rfl : ex = .cut := h.exits.resolve_left (by simp [hex])
  exact h.seqCut

theorem seqOwed (ha : Accounts F owed .value a t₁ (.done c)) (hb : Accounts F owed' .value b t₂ ex)
    (ho : owed → F.noticed → Untouched F.v t₁ → ¬ ReadsFirst F.v t₂) :
    Accounts F (owed ∨ owed') .value (.seq a b) (t₁ ++ t₂) ex := by
  refine ha.followOwed hb ho (fun {k c' w} h => ?_) (fun k => ?_) fun k => ?_
  · rw [side_value, side_value] at h
    rw [split, Split.side_same]
    exact h
  · exact List.subset_append_left _ _
  · rw [side_value]
    exact List.subset_append_right _ _

theorem seq (ha : Accounts F False .value a t₁ (.done c)) (hb : Accounts F owed .value b t₂ ex) :
    Accounts F owed .value (.seq a b) (t₁ ++ t₂) ex :=
  (ha.seqOwed hb fun h => h.elim).mono fun h => h.resolve_left id

/-- An operand that may be left out, and is not. -/
theorem optionalOfSeq (h : Accounts F owed .value (.seq a b) tr ex) :
    Accounts F owed .value (.optional a b) tr ex := by
  refine h.carry (fun _ hknown => ?_) fun k => List.Subset.refl _
  simp only [split, Split.side_same] at hknown ⊢
  exact hknown.join_right _

/-- An operand that may be left out, and is. -/
theorem optionalLeftOut (h : Accounts F owed .value a tr ex) :
    Accounts F owed .value (.optional a b) tr ex := by
  refine h.carry (fun _ hknown => ?_) fun k => List.subset_append_left _ _
  rw [side_value] at hknown
  rw [split, Split.side_same]
  exact hknown.join_left _

/-- A form that writes variables behind its operands: it owes them. -/
theorem writing {vs : List VariableId} (h : Accounts F owed .value a tr ex)
    (hsplit : ∀ k, e.split .value k = .same ((a.after k).assignAll vs))
    (hearly : ∀ k, e.early .value k = a.early .value k) :
    Accounts F (owed ∨ F.v ∈ vs) .value e tr ex where
  exits := h.exits
  known {k w c} hk hex := by
    have hknown := h.known hk hex
    rw [side_value] at hknown
    rw [hsplit, Split.side_same]
    refine (hknown.assignAll vs).mono ?_
    rintro ((hw | hc | hdue) | hv)
    · exact Or.inl hw
    · exact Or.inr (Or.inl hc)
    · exact Or.inr (Or.inr (Or.inl hdue))
    · exact Or.inr (Or.inr (Or.inr hv))
  early hn {k w} hk hw hread := by
    rw [hearly]
    exact h.early hn hk hw hread

/-- An argument that is only given out: its place is not looked at. -/
theorem passedOut (hex : ex.isDone ∨ ex = .cut)
    (hread : F.noticed → ¬ ReadsFirst F.v tr) :
    Accounts F (F.v ∈ e.targets) .value (.passed .out e) tr ex where
  exits := hex
  known {k w c} hk _ := by
    rw [split, Split.side_same]
    exact (hk.assignAll e.targets).mono fun hw => hw.imp_right Or.inr
  early hn _ _ _ _ h := absurd h (hread hn)

/-- Whatever is thrown, control does not get behind it. -/
theorem throwing (h : Accounts F owed .value e tr ex) :
    Accounts F owed' use (.throwing e) tr .cut where
  exits := Or.inr rfl
  known _ h := by cases h
  early := h.early

/-! ### Conditions

A condition has two ways behind it.  Each form of condition knows more on one of them than an
expression that is only asked for its value. -/

theorem literal (value : Bool) : Accounts F owed use (.literal value) [] (.done value) :=
  silent fun k => by cases use <;> cases value <;> rfl

theorem negation (h : Accounts F owed use e tr ex) (hc : ∀ c', ex = .done c' → c' = c) :
    Accounts F owed use (.negation e) tr (ex.andThen (.done !c)) := by
  rcases h.exits with hdone | rfl
  · cases ex with
    | done c' =>
      obtain rfl := hc c' rfl
      refine ⟨Or.inl rfl, fun {k w c} hk hex => ?_, h.early⟩
      cases hex
      have hknown := h.known hk rfl
      cases c' with
      | true => exact hknown
      | false => exact hknown
    | _ => cases hdone
  · exact ⟨Or.inr rfl, fun _ h => (by cases h), h.early⟩

/-- The left side of a conjunction does not hold, and the right side is left out. -/
theorem conjunctionLeft (h : Accounts F owed .test a tr ex) (hc : ∀ c, ex = .done c → c = false) :
    Accounts F owed use (.conjunction a b) tr ex := by
  refine h.carry (fun {k c w} hex hknown => ?_) fun k => List.subset_append_left _ _
  obtain rfl := hc c hex
  exact use.covers_settle (hknown.join_left _)

theorem conjunctionRight (ha : Accounts F False .test a t₁ (.done true))
    (hb : Accounts F owed .test b t₂ ex) :
    Accounts F owed use (.conjunction a b) (t₁ ++ t₂) ex := by
  refine ha.follow hb (fun {k c w} hknown => use.covers_settle ?_)
    (fun k => List.subset_append_left _ _) fun k => List.subset_append_right _ _
  cases c with
  | true => exact hknown
  | false => exact hknown.join_right _

/-- The left side of a disjunction holds, and the right side is left out. -/
theorem disjunctionLeft (h : Accounts F owed .test a tr ex) (hc : ∀ c, ex = .done c → c = true) :
    Accounts F owed use (.disjunction a b) tr ex := by
  refine h.carry (fun {k c w} hex hknown => ?_) fun k => List.subset_append_left _ _
  obtain rfl := hc c hex
  exact use.covers_settle (hknown.join_left _)

theorem disjunctionRight (ha : Accounts F False .test a t₁ (.done false))
    (hb : Accounts F owed .test b t₂ ex) :
    Accounts F owed use (.disjunction a b) (t₁ ++ t₂) ex := by
  refine ha.follow hb (fun {k c w} hknown => use.covers_settle ?_)
    (fun k => List.subset_append_left _ _) fun k => List.subset_append_right _ _
  cases c with
  | true => exact hknown.join_right _
  | false => exact hknown

/-- The test of a conditional expression is cut short. -/
theorem conditionalStop (h : Accounts F owed .test e tr ex) (hex : ex.isDone = false) :
    Accounts F owed' .value (.conditional e a b) tr ex := by
  obtain rfl : ex = .cut := h.exits.resolve_left (by simp [hex])
  refine toCut (h.carry (fun hc => by cases hc) fun k u hu => ?_)
  simp [early_conditional, hu]

theorem conditionalTrue (ht : Accounts F False .test e t₁ (.done true))
    (ha : Accounts F owed .value a t₂ ex) :
    Accounts F owed .value (.conditional e a b) (t₁ ++ t₂) ex := by
  refine ht.follow ha (fun {k c w} hknown => ?_) (fun k u hu => ?_) fun k u hu => ?_
  · rw [side_value] at hknown
    rw [split, Split.side_same]
    exact hknown.join_left _
  · simp [early_conditional, hu]
  · simp only [Split.side_true] at hu
    simp [early_conditional, tested, hu]

theorem conditionalFalse (ht : Accounts F False .test e t₁ (.done false))
    (hb : Accounts F owed .value b t₂ ex) :
    Accounts F owed .value (.conditional e a b) (t₁ ++ t₂) ex := by
  refine ht.follow hb (fun {k c w} hknown => ?_) (fun k u hu => ?_) fun k u hu => ?_
  · rw [side_value] at hknown
    rw [split, Split.side_same]
    exact hknown.join_right _
  · simp [early_conditional, hu]
  · simp only [Split.side_false] at hu
    simp [early_conditional, tested, hu]

end Accounts

end Expr

end CodeMend.Flow
