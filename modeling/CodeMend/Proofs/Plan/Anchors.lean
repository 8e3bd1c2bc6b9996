import CodeMend.Check.DuplicateCall
import CodeMend.Plan.Anchor
import CodeMend.Proofs.Tree.Signatures
import CodeMend.Proofs.Tree.Lookup

/-!
# CodeMend — anchors lead back to their nodes

A check anchors what it reports at a token or at a small node, and a fix has to find the node again
from the span alone.

* **`Anchor.token?_span`** — a token is found by its span.
* **`Anchor.parameter?_of_modifier`** — a modifier leads to the method and the parameter.
* **`Anchor.method?_of_returnType`** — a return type leads to its method.
* **`Anchor.branching?_of_check`** — a keyword or question mark leads to what chooses between calls.
* **`Anchor.invocation?_of_callee`** — what is called leads to a call of it.
-/

namespace CodeMend

open Tree Production

variable {source : String} {t : Tree} {i : TokenId} {n : NodeId}

namespace Anchor

/-- **A token is found by its span.** -/
theorem token?_span (h : parse source = .ok t) (hi : i < t.tokens.size) :
    token? t (t.token i).span = some i := by
  have hat : t.tokenAt? (t.token i).span.start = some i := tokenAt?_offset h hi
  simp only [token?, hat, Option.bind_eq_bind, Option.bind_some, beq_self_eq_true, if_true]
  rfl

/-- The node that lists a token is found by the span of the token. -/
theorem tokenParent_of_token? (h : parse source = .ok t) (hi : .token i ∈ t.children n) :
    token? t (t.token i).span = some i ∧ t.tokenParent i = n := by
  obtain ⟨hlt, hparent⟩ := (parsed_of_parse h).wellFormed.tokenParent_eq hi
  exact ⟨token?_span h hlt, hparent⟩

/-- **A modifier leads to the method and the index of the parameter.** -/
theorem parameter?_of_modifier (h : parse source = .ok t) {v : ParameterView}
    (hv : ParameterView.ofNode? t n = some v) (hi : i ∈ v.modifiers) {list method : NodeId}
    (hn : n ∈ t.childNodes list) (hlist : list ∈ t.childNodes method)
    (hk : t.kind method = .methodDeclaration) :
    ∃ index, (t.childNodes list)[index]? = some n ∧
      parameter? t (t.token i).span = some (method, index) := by
  have ht := inOrder_of_parse h
  have hwf := ht.parsed.wellFormed
  obtain ⟨htoken, hparent⟩ := tokenParent_of_token? h (ParameterView.mem_children ht hv hi)
  have hparameter := ParameterView.kind_of_ofNode? hv
  obtain ⟨index, hindex⟩ : ∃ index, (t.childNodes list).idxOf? n = some index :=
    Option.isSome_iff_exists.mp (List.isSome_idxOf?.mpr hn)
  refine ⟨index, ?_, ?_⟩
  · obtain ⟨hlt, hsame, -⟩ := List.findIdx?_eq_some_iff_getElem.mp hindex
    rw [List.getElem?_eq_getElem hlt, beq_iff_eq.mp hsame]
  · simp [parameter?, htoken, hparent, hwf.parent?_eq hn, hwf.parent?_eq hlist, hparameter, hk,
      hindex]

/-- **A return type leads to its method.** -/
theorem method?_of_returnType (h : parse source = .ok t) {v : MethodView}
    (hv : MethodView.ofNode? t n = some v) : method? t (t.span v.returnType) = some v := by
  have ht := inOrder_of_parse h
  obtain ⟨-, hk, ⟨hmem, htype⟩, -⟩ := MethodView.mem_childNodes hv
  have hkind : t.kind v.returnType ≠ .compilationUnit := by
    intro heq
    rw [heq] at htype
    cases htype
  obtain ⟨ns, hrises⟩ := exists_rises_covering ht (lt_nodeCount_of_kind hkind) (span_lt h hkind)
    (by simp [Span.contains])
  -- what covers the span is a part of the return type, and no part of a type is a method
  have hplain : ∀ c ∈ t.covering (t.span v.returnType) :: ns, t.kind c ≠ .methodDeclaration := by
    intro c hc heq
    have hc := (MethodView.plain_returnType ht.parsed hv).of_rises hrises c hc
    have hplainKind := hc.kind_mem
    rw [heq] at hplainKind
    exact absurd hplainKind (by decide)
  obtain ⟨rest, hancestors⟩ :=
    (hrises.append (.up hmem (.here n))).ancestors_eq ht.parsed
  have hfind : (t.covering (t.span v.returnType) :: t.ancestors
      (t.covering (t.span v.returnType))).find? (fun a => t.kind a == .methodDeclaration) =
      some n := by
    rw [hancestors, List.append_assoc, ← List.cons_append, List.find?_append,
      List.find?_eq_none.mpr]
    · simp [hk]
    · intro c hc
      simpa using hplain c hc
  simp only [method?, hfind, hv, Option.bind_eq_bind, Option.bind_some, beq_self_eq_true, if_true]
  rfl

/-- What stands for a choice between two calls is the first token of an if statement, or the
question mark of a conditional. -/
theorem cases_of_branching? (h : InOrder t) {calls : NodeId × NodeId}
    (hn : Check.branching? t n = some (i, calls)) : .token i ∈ t.children n ∧
      (t.kind n = .ifStatement ∧ t.firstToken n = i ∨
        t.kind n = .conditionalExpression ∧ (t.token i).text = "?") := by
  unfold Check.branching? at hn
  split at hn
  next hk =>
    simp only [Option.bind_eq_bind, Option.bind_eq_some_iff, Option.pure_def,
      Option.some.injEq, Prod.mk.injEq] at hn
    obtain ⟨calls, -, v, hv, hi, -⟩ := hn
    -- The view takes the first token of the statement for its keyword.
    have hfirst : v.ifKeyword = t.firstToken n := by
      unfold IfView.ofNode? at hv
      simp only [hk, bne_self_eq_false, Bool.false_eq_true, if_false] at hv
      split at hv
      · simp only [Option.bind_eq_bind, Option.bind_eq_some_iff, Option.pure_def,
          Option.some.injEq] at hv
        obtain ⟨_, -, rfl⟩ := hv
        rfl
      · cases hv
    obtain ⟨cs, hword, hstands⟩ := h.parsed.exists_children hk (by decide)
    obtain ⟨_, ⟨j, -, -, rfl⟩, rest, -, rfl⟩ := mem_prod_cons.mp hword
    cases hstands with
    | node _ _ hchildren =>
      have hj : t.firstToken n = j := h.firstToken_eq hchildren
      obtain rfl : i = j := by rw [← hi, hfirst, hj]
      exact ⟨hchildren ▸ List.mem_cons_self, .inl ⟨hk, hj⟩⟩
  next hk =>
    simp only [Option.bind_eq_bind, Option.bind_eq_some_iff, Option.pure_def,
      Option.some.injEq, Prod.mk.injEq] at hn
    obtain ⟨calls, -, j, hj, rfl, -⟩ := hn
    have htext := List.find?_some hj
    exact ⟨mem_childTokens_iff.mp (List.mem_of_find?_eq_some hj), .inr ⟨hk, beq_iff_eq.mp htext⟩⟩
  next => cases hn

/-- **The keyword or question mark leads back to the choice between two calls.** -/
theorem branching?_of_check (h : parse source = .ok t) {calls : NodeId × NodeId}
    (hn : Check.branching? t n = some (i, calls)) :
    branching? t (t.token i).span = some n := by
  obtain ⟨hi, hcases⟩ := cases_of_branching? (inOrder_of_parse h) hn
  obtain ⟨htoken, hparent⟩ := tokenParent_of_token? h hi
  rcases hcases with ⟨hk, -⟩ | ⟨hk, -⟩ <;> simp [branching?, htoken, hparent, hk]

/-! ## Calls

A conversion is reported at what is called, and the fix looks for the call around it.  Several calls
may start at the same token, one of them calling the next; they are told apart by how far what they
call reaches. -/

/-- A call consists of what it calls and a list of arguments. -/
theorem children_of_view {v : InvocationView} (h : InOrder t)
    (hv : InvocationView.ofNode? t n = some v) : t.kind n = .invocationExpression ∧
      ∃ list, t.children n = [.node v.callee, .node list] := by
  unfold InvocationView.ofNode? at hv
  split at hv
  · cases hv
  next hk =>
  have hk : t.kind n = .invocationExpression := by simpa using hk
  simp only [Option.bind_eq_bind, Option.bind_eq_some_iff, Option.pure_def, Option.some.injEq] at hv
  obtain ⟨callee, hcallee, -, -, rfl⟩ := hv
  obtain ⟨cs, hword, hstands⟩ := h.parsed.exists_children hk (by decide)
  obtain ⟨_, ⟨_, ⟨⟨id, k, ds, rfl, -⟩, -⟩, rfl⟩, _, hrest, rfl⟩ :=
    mem_prod_cons.mp hword
  rw [List.prod_singleton] at hrest
  obtain ⟨_, ⟨list, k', es, rfl, -⟩, rfl⟩ := hrest
  cases hstands with
  | node _ _ hchildren =>
    refine ⟨hk, list, ?_⟩
    rw [childNodes, hchildren] at hcallee
    obtain rfl : id = callee := Option.some.inj hcallee
    exact hchildren

/-- A call reaches further than what it calls. -/
theorem lastToken_callee_lt (h : InOrder t) {v : InvocationView}
    (hv : InvocationView.ofNode? t n = some v) : t.lastToken v.callee < t.lastToken n := by
  obtain ⟨-, list, hn⟩ := children_of_view h hv
  have hpairs := h.children_pairwise n
  rw [hn] at hpairs
  calc t.lastToken v.callee
    _ < t.firstToken list := (List.pairwise_cons.mp hpairs).1 _ List.mem_cons_self
    _ ≤ t.lastToken list := (h.firstToken_le_lastToken list).1
    _ = t.lastToken n := (h.lastToken_eq (show t.children n = [.node v.callee] ++ [_] from hn)).symm

/-- What starts with a call and stands under it stands under what it calls. -/
theorem exists_rises_callee (h : InOrder t) {m : NodeId} {ns : List NodeId} {v : InvocationView}
    (hv : InvocationView.ofNode? t n = some v) (hrises : Rises t m ns n) (hne : m ≠ n)
    (hfirst : t.firstToken m = t.firstToken n) : ∃ ms, Rises t m ms v.callee := by
  obtain ⟨-, list, hn⟩ := children_of_view h hv
  obtain ⟨c, hc, ms, hrises⟩ := hrises.eq_or_child.resolve_left hne
  rw [childNodes, hn] at hc
  rcases List.mem_cons.mp hc with rfl | hc
  · exact ⟨ms, hrises⟩
  -- the arguments start too late for something that starts with the call
  obtain rfl := List.mem_singleton.mp hc
  have hpairs := h.children_pairwise n
  rw [hn] at hpairs
  have hlt : t.lastToken v.callee < t.firstToken c :=
    (List.pairwise_cons.mp hpairs).1 _ List.mem_cons_self
  have hle : t.firstToken c ≤ t.lastToken v.callee :=
    calc t.firstToken c
      _ ≤ t.firstToken m := (hrises.tokens_le h).1
      _ = t.firstToken v.callee := hfirst.trans (h.firstToken_eq hn)
      _ ≤ t.lastToken v.callee := (h.firstToken_le_lastToken v.callee).1
  exact absurd hlt (Nat.not_lt.mpr hle)

/-- Of two calls that start together, what the inner one calls ends before what the outer one
calls. -/
theorem callee_stop_lt (h : parse source = .ok t) {m : NodeId} {ns : List NodeId}
    {v w : InvocationView} (hv : InvocationView.ofNode? t n = some v)
    (hw : InvocationView.ofNode? t m = some w) (hrises : Rises t m ns n) (hne : m ≠ n)
    (hfirst : t.firstToken m = t.firstToken n) :
    (t.span w.callee).stop < (t.span v.callee).stop := by
  have ht := inOrder_of_parse h
  obtain ⟨ms, hrises⟩ := exists_rises_callee ht hv hrises hne hfirst
  have hlt : t.lastToken w.callee < t.lastToken v.callee :=
    Nat.lt_of_lt_of_le (lastToken_callee_lt ht hw) (hrises.tokens_le ht).2
  have hsize : t.lastToken v.callee + 1 < t.tokens.size :=
    Nat.lt_of_le_of_lt (lastToken_callee_lt ht hv) (ht.firstToken_le_lastToken n).2
  calc (t.span w.callee).stop
    _ ≤ (t.token (t.lastToken w.callee)).fullStop := Token.stop_le_fullStop _
    _ ≤ (t.token (t.lastToken v.callee)).fullStart :=
      ht.fullStop_le_fullStart hlt (Nat.lt_of_succ_lt hsize)
    _ ≤ (t.token (t.lastToken v.callee)).offset := Token.fullStart_le_offset _
    _ < (t.span v.callee).stop := offset_lt_stop (text_ne_empty_of_parse h hsize)

/-- **What is called leads back to its call.** -/
theorem invocation?_of_callee (h : parse source = .ok t) {v : InvocationView}
    (hv : InvocationView.ofNode? t n = some v) :
    invocation? t (t.span v.callee) = some n := by
  have ht := inOrder_of_parse h
  obtain ⟨hk, list, hn⟩ := children_of_view ht hv
  have hstart : (t.span v.callee).start = (t.span n).start := by
    show (t.token (t.firstToken v.callee)).offset = (t.token (t.firstToken n)).offset
    rw [ht.firstToken_eq hn]
    rfl
  have hmem : n ∈ t.startingAt .invocationExpression (t.span v.callee).start := by
    have hlt : n < t.nodeCount := lt_nodeCount_of_kind (by rw [hk]; decide)
    exact (mem_startingAt_iff h).mpr ⟨hlt, hk, hstart.symm⟩
  have hself : (InvocationView.ofNode? t n).any
      (fun w => t.span w.callee == t.span v.callee) = true := by
    rw [hv]
    exact beq_self_eq_true _
  cases hfind : invocation? t (t.span v.callee) with
  | none => exact absurd hself (by simpa using List.find?_eq_none.mp hfind n hmem)
  | some m =>
    -- another call that starts there does not call the same
    have hcallee := List.find?_some hfind
    obtain ⟨w, hw, hspan⟩ := (Option.any_eq_true _ _).mp hcallee
    obtain ⟨-, hfirst, hrises⟩ :=
      eq_firstToken_of_mem_startingAt ht (List.mem_of_find?_eq_some hfind) hmem
    by_cases hne : m = n
    · rw [hne]
    have hstop : (t.span w.callee).stop = (t.span v.callee).stop := by
      rw [beq_iff_eq.mp hspan]
    rcases hrises with ⟨ns, hrises⟩ | ⟨ns, hrises⟩
    · have hlt := callee_stop_lt h hv hw hrises hne hfirst
      omega
    · have hlt := callee_stop_lt h hw hv hrises (Ne.symm hne) hfirst.symm
      omega

end Anchor

end CodeMend
