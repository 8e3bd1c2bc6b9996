import CodeMend.Patch.OfRule
import CodeMend.Proofs.Flow.Departures
import CodeMend.Proofs.Flow.WrittenInside
import CodeMend.Proofs.Patch.Spans

/-!
# CodeMend — the results of a patched method

A method that gives out a value returns it once it is patched: behind every return statement of its
own stands the value, and a return of the value at the end of its body if the end can be reached.
The value is taken where the patched statement stands; only the last block of a try statement around
it can still write the variable on the way out.

* **`mem_bareReturns`** — every return statement by which the method is left is patched.
* **`exists_writesAtEnd`** — the end of the body returns the value if it can be reached.
* **`exits_are_patched`** — on every way out of the method a patch returns the value.
-/

namespace CodeMend.Patch

open Flow Tree

variable {b : Binder} {t : Tree} {body n : NodeId} {tr : Trace} {ex : Exit} {d : Option Departure}

/-! ## The returns of a method

A return statement counts for the method only when it is not in a function inside of the body.  The
rewrite finds exactly these. -/

/-- A method without result: its own return statements have no value, and it is no iterator. -/
def ReturnsNothing (t : Tree) (body : NodeId) : Prop :=
  ∀ n, Own t body n → (t.kind n = .returnStatement → t.childNodes n = []) ∧
    t.kind n ≠ .yieldBreakStatement

theorem not_isInInnerFunction (hp : Parsed t) (h : Own t body n) (hne : n ≠ body) :
    isInInnerFunction t body n = false := by
  rw [isInInnerFunction, List.any_eq_false]
  intro a ha
  have hk := h.kind_of_ancestor hp hne _ a ha
  simpa [functionKinds, NodeKind.isLambda] using hk

/-- **The return statements of a body itself are found**, and none of a function inside of it. -/
theorem mem_bareReturns (hp : Parsed t) (h : Own t body n) (hbody : t.kind body = .block)
    (hk : t.kind n = .returnStatement) (hn : t.childNodes n = []) : n ∈ bareReturns t body := by
  have hne : n ≠ body := by
    rintro rfl
    rw [hk] at hbody
    cases hbody
  rw [bareReturns, List.mem_filter]
  refine ⟨h.toBelow.mem_descendants hp hne, ?_⟩
  simp [isBareReturn, hk, hn, not_isInInnerFunction hp h hne]

/-! ## The end of a body

A body that can be left at its end gets a statement there.  What is written depends on what stands
in the body: nothing, a statement that is not a return, or a return that ends it anyway. -/

/-- A patch writes a text between the last statement of a body and its closing brace, with nothing
but blanks behind the text. -/
structure WritesAtEnd (t : Tree) (body : NodeId) (text : String) (p : Patch) : Prop where
  inside : (t.token (t.firstToken body)).stop ≤ p.span.start ∧
    p.span.stop ≤ (t.token (t.lastToken body)).offset
  behind : ∀ last, (t.childNodes body).getLast? = some last →
    (t.token (t.lastToken last)).stop ≤ p.span.start
  text : ∃ front blank, p.text = front ++ text ++ blank ∧
    ∀ c ∈ blank.toList, c.isWhitespace = true

theorem isWhitespace_of_mem_lineEnding {source : String} {c : Char}
    (h : c ∈ (lineEnding source).toList) : c.isWhitespace = true := by
  unfold lineEnding at h
  split at h
  · rcases (by simpa using h : c = '\r' ∨ c = '\n') with rfl | rfl <;> rfl
  · rcases (by simpa using h : c = '\n') with rfl
    rfl

theorem exists_front_of_intercalate (sep : String) (xs : List String) (x : String) :
    ∃ front, String.intercalate sep (xs ++ [x]) = front ++ x := by
  induction xs with
  | nil => exact ⟨"", by simp⟩
  | cons y xs ih =>
    obtain ⟨front, hfront⟩ := ih
    cases xs with
    | nil => exact ⟨y ++ sep, by simp [String.intercalate_cons_cons]⟩
    | cons z xs =>
      refine ⟨y ++ sep ++ front, ?_⟩
      rw [List.cons_append, List.cons_append, String.intercalate_cons_cons, ← List.cons_append,
        hfront]
      simp only [String.append_assoc]

theorem fullStop_le_offset (h : InOrder t) {i j : TokenId} (hij : i < j) (hj : j < t.tokens.size) :
    (t.token i).fullStop ≤ (t.token j).offset :=
  Nat.le_trans (h.fullStop_le_fullStart hij hj) (Token.fullStart_le_offset _)

/-- A body without statements is filled up to its end. -/
theorem writesAtEnd_fillEmptyBody (h : InOrder t) (hk : t.kind body = .block)
    (hempty : t.childNodes body = []) (lines : List String) (text : String) :
    WritesAtEnd t body text (fillEmptyBody t body (lines ++ [text])) := by
  have hlt := h.firstToken_lt_lastToken_of_block hk
  have hsize := (h.firstToken_le_lastToken body).2
  have hlast : ∀ (p : Patch) last, (t.childNodes body).getLast? = some last →
      (t.token (t.lastToken last)).stop ≤ p.span.start := by
    intro p last h
    rw [hempty] at h
    cases h
  unfold fillEmptyBody
  by_cases hline : Trivia.hasEndOfLine (t.token (t.firstToken body)).trailing = true
  · simp only [hline, if_true]
    refine ⟨⟨?_, Token.fullStart_le_offset _⟩, hlast _, ?_⟩
    · exact Nat.le_trans (Token.stop_le_fullStop _) (h.fullStop_le_fullStart hlt hsize)
    · generalize Trivia.render (Trivia.splitIndentation _).2 ++ "    " = indent
      refine ⟨String.join (lines.map fun l => indent ++ l ++ lineEnding t.source) ++ indent,
        lineEnding t.source, ?_, fun c hc => isWhitespace_of_mem_lineEnding hc⟩
      simp [insert, String.append_assoc]
  · simp only [hline]
    refine ⟨⟨Nat.le_refl _, Nat.le_refl _⟩, hlast _, ?_⟩
    obtain ⟨front, hfront⟩ := exists_front_of_intercalate " " lines text
    exact ⟨" " ++ front, " ", by simp [hfront, String.append_assoc], by simp⟩

/-- Behind statements, the end of the body is written to unless a return statement stands there. -/
theorem exists_writesAtEnd_wrapStatements (h : InOrder t) (hk : t.kind body = .block)
    (first : NodeId) {last : NodeId} (hlast : (t.childNodes body).getLast? = some last)
    (hreturn : isBareReturn t last = false) (declarations : List String) (returning : String) :
    ∃ p ∈ wrapStatements t body first last declarations returning,
      WritesAtEnd t body returning p := by
  have hmem := List.mem_of_getLast? hlast
  obtain ⟨hfirst, hlt⟩ := h.between_braces hk hmem
  have hfirst' := Nat.lt_of_lt_of_le hfirst (h.firstToken_le_lastToken last).1
  have hsize := (h.firstToken_le_lastToken body).2
  have hopening : (t.token (t.firstToken body)).stop ≤ (t.token (t.lastToken last)).stop :=
    calc (t.token (t.firstToken body)).stop
      _ ≤ (t.token (t.firstToken body)).fullStop := Token.stop_le_fullStop _
      _ ≤ (t.token (t.lastToken last)).offset :=
        fullStop_le_offset h hfirst' (h.firstToken_le_lastToken last).2
      _ ≤ (t.token (t.lastToken last)).stop := Token.offset_le_stop _
  have hclose := fullStop_le_offset h hlt hsize
  have hstop := Token.stop_le_fullStop (t.token (t.lastToken last))
  have hbehind : ∀ {offset : Nat} {text : String} {last' : NodeId},
      (t.token (t.lastToken last)).stop ≤ offset → (t.childNodes body).getLast? = some last' →
        (t.token (t.lastToken last')).stop ≤ (insert offset text).span.start := by
    intro offset text last' hle hlast'
    obtain rfl := Option.some.inj (hlast.symm.trans hlast')
    exact hle
  unfold wrapStatements
  simp only [hreturn, Bool.false_eq_true, if_false]
  -- The patch behind the last statement is the one that returns.
  refine List.exists_mem_cons_of_exists ?_
  split
  · refine ⟨_, List.mem_cons_self, ⟨Nat.le_trans hopening hstop, hclose⟩,
      fun _ => hbehind hstop, _, lineEnding t.source, rfl, fun c hc => ?_⟩
    exact isWhitespace_of_mem_lineEnding hc
  · refine ⟨_, List.mem_cons_self, ⟨hopening, Nat.le_trans hstop hclose⟩,
      fun _ => hbehind (Nat.le_refl _), " ", "", ?_, ?_⟩
    · simp [insert]
    · simp

/-- **The end of a patched body returns the value** unless its last statement is a return. -/
theorem exists_writesAtEnd (h : InOrder t) (hk : t.kind body = .block)
    (hreturn : ∀ last, (t.childNodes body).getLast? = some last → isBareReturn t last = false)
    (declarations : List String) (value : String) :
    ∃ p ∈ bodyPatches t body declarations value,
      WritesAtEnd t body ("return " ++ value ++ ";") p := by
  unfold bodyPatches
  dsimp only
  split
  next first last hfirst hlast =>
    obtain ⟨p, hp, hwrites⟩ := exists_writesAtEnd_wrapStatements h hk first hlast
      (hreturn last hlast) declarations ("return " ++ value ++ ";")
    exact ⟨p, List.mem_append_right _ hp, hwrites⟩
  next hnone =>
    have hempty : t.childNodes body = [] := by
      cases hc : t.childNodes body with
      | nil => rfl
      | cons c cs =>
        have hback := List.getLast?_eq_some_getLast (List.cons_ne_nil c cs)
        exact (hnone c _ (by rw [hc]; rfl) (by rw [hc]; exact hback)).elim
    exact ⟨_, List.mem_append_right _ List.mem_cons_self,
      writesAtEnd_fillEmptyBody h hk hempty _ _⟩

/-! ## The result

Every execution of the body that is not ended by an exception ends at a return of the method or at
the end of the body, and both are patched. -/

/-- The text of the value that a method returns in the place of parameters. -/
def resultText (r : Rule) (outs : List OutParameter) : String :=
  if r = .outAsResult then String.join (outs.map OutParameter.name)
  else tupled (outs.map OutParameter.name)

theorem exists_bodyPatches {r : Rule} (hr : r = .outAsResult ∨ r = .outsAsTuple)
    {method : NodeId} {view : MethodView} (hview : MethodView.ofNode? t method = some view)
    (hbody : view.body = some body) {parameters : List Nat} {patches : List Patch}
    (h : r.declarationPatches? t method parameters = some patches) :
    ∃ outs, parameters.mapM (OutParameter.ofList? t (view.parameters t)) = some outs ∧
      bodyPatches t body (outs.map OutParameter.declaration) (resultText r outs) ⊆ patches := by
  have hpatches : ∃ type, returnOutParameters? t method parameters type (resultText r) =
      some patches := by
    rcases hr with rfl | rfl
    · simp only [Rule.declarationPatches?, returnOne?, Option.ite_none_left_eq_some] at h
      exact ⟨_, h.2⟩
    · simp only [Rule.declarationPatches?, returnTuple?, Option.ite_none_left_eq_some] at h
      exact ⟨_, h.2⟩
  obtain ⟨type, hpatches⟩ := hpatches
  simp only [returnOutParameters?, Option.bind_eq_bind, Option.bind_eq_some_iff,
    Option.pure_def] at hpatches
  obtain ⟨view', hview', outs, houts, body', hbody', hrest⟩ := hpatches
  obtain rfl := Option.some.inj (hview.symm.trans hview')
  obtain rfl := Option.some.inj (hbody.symm.trans hbody')
  split at hrest
  · simp at hrest
  simp only [Option.bind_eq_some_iff, Option.some.injEq] at hrest
  obtain ⟨removals, -, rfl⟩ := hrest
  exact ⟨outs, houts, List.subset_append_right _ _⟩

/-- **Every way out of the method is patched.**  However the body is left without an exception, the
value stands behind the return statement that is reached, or in a return behind the last statement.
What is written behind the return statement comes from the last blocks of try statements around
it. -/
theorem exits_are_patched {source : String} (hparse : parse source = .ok b.tree) {r : Rule}
    (hr : r = .outAsResult ∨ r = .outsAsTuple) {method : NodeId} {view : MethodView}
    (hview : MethodView.ofNode? b.tree method = some view) (hbody : view.body = some body)
    {parameters : List Nat} {patches : List Patch}
    (hpatches : r.declarationPatches? b.tree method parameters = some patches)
    (hvoid : ReturnsNothing b.tree body) (hrun : Departs b (.one (.statement body)) tr ex d)
    (hex : ex.IsNormal) :
    ∃ outs, parameters.mapM (OutParameter.ofList? b.tree (view.parameters b.tree)) = some outs ∧
      match d with
      | none => ∃ p ∈ patches,
          WritesAtEnd b.tree body ("return " ++ resultText r outs ++ ";") p
      | some departure => isBareReturn b.tree departure.statement = true ∧
          insert (b.tree.token (b.tree.firstToken departure.statement)).stop
            (" " ++ resultText r outs) ∈ patches ∧
          ∃ rest, tr = departure.before ++ rest ∧ ∀ v, .write v ∈ rest →
            WrittenOnExit b (Own b.tree body) departure.statement v := by
  have h := inOrder_of_parse hparse
  have hp := h.parsed
  have hk := (MethodView.kinds hview).2 body hbody
  obtain ⟨outs, houts, hsub⟩ := exists_bodyPatches hr hview hbody hpatches
  have hclosed : Closed b.tree functionKinds (Own b.tree body) := closed_own hp
  refine ⟨outs, houts, ?_⟩
  rcases hex with hdone | rfl
  -- The end of the body is reached.
  · cases ex with
    | done c =>
      obtain rfl := hrun.none_of_done
      obtain ⟨p, hmem, hwrites⟩ := exists_writesAtEnd h hk (fun last hlast => by
        simp [isBareReturn, hrun.kind_of_last hk hlast]) (outs.map OutParameter.declaration)
        (resultText r outs)
      exact ⟨p, hsub hmem, hwrites⟩
    | _ => cases hdone
  -- A return statement is reached.
  · obtain ⟨departure, rfl⟩ := Option.isSome_iff_exists.mp
      (hrun.departs_of_left hclosed .here fun n hn => (hvoid n hn).2)
    obtain ⟨hown, hreturn⟩ := hrun.statement_stays hclosed .here
    have hbare := (hvoid _ hown).1 hreturn
    refine ⟨by simp [isBareReturn, hreturn, hbare], hsub ?_, hrun.behind hclosed .here⟩
    exact List.mem_append_left _ (List.mem_map_of_mem (mem_bareReturns hp hown hk hreturn hbare))

end CodeMend.Patch
