import CodeMend.Command.Fix
import CodeMend.Proofs.Grammar.Total
import CodeMend.Proofs.Plan.Resolution
import CodeMend.Proofs.Text.Locations
import CodeMend.Proofs.Text.Sorting
import CodeMend.Proofs.Tree.Ends
import CodeMend.Proofs.Tree.Ancestry

/-!
# CodeMend — the place of a finding selects the finding

A finding is reported at the place where its anchor starts, and whoever asks for a fix names such a
place.  The first finding in order whose anchor covers the place is fixed.  Anchors are tokens,
return types and what calls call; only the last of these can hold the anchor of another finding.

* **`Check.Anchored`** — the tokens at both ends of the anchor of what is reported about a node.
* **`Check.Anchored.covered`** — the step: two findings, the anchor of one of which covers the start
  of that of the other.
* **`Check.pairwise_solution`** — of calls that start together, the one that reaches further is
  reported first.
* **`place_selects_finding`** — the place of a finding selects it, unless it lies in what another
  reported call calls.
* **`place_of_inner_call_selects_outer`** — where it does lie there, it selects the other call.
-/

namespace CodeMend

open Tree Production

variable {source : String} {t : Tree} {a b c d i : TokenId} {m n : NodeId}

/-! ## Anchors

Every rule anchors what it reports at certain tokens.  A token hangs under one node, and that
decides about what it can be the anchor of. -/

namespace Check

/-- `Marks t i p n rule`: the token, which hangs under the node `p`, is where `rule` anchors what it
reports about the node `n`. -/
inductive Marks (t : Tree) (i : TokenId) : NodeId → NodeId → Rule → Prop where
  /-- The modifier of a parameter. -/
  | reference {n list : NodeId} {rule : Rule} : t.kind n = .parameter →
      (t.token i).text = "ref" → n ∈ t.childNodes list → t.kind list = .parameterList →
      rule = .unneededRef ∨ rule = .refAsOut → Marks t i n n rule
  /-- The modifier of a parameter of the method. -/
  | output {n list parameter : NodeId} : t.kind parameter = .parameter →
      (t.token i).text = "out" → parameter ∈ t.childNodes list → list ∈ t.childNodes n →
      Marks t i parameter n .outAsResult
  /-- The first word of an if statement. -/
  | keyword {n : NodeId} : t.kind n = .ifStatement → Marks t i n n .duplicateCall
  /-- The question mark of a conditional. -/
  | question {n : NodeId} : t.kind n = .conditionalExpression → Marks t i n n .duplicateCall

/-- `Anchored t n rule first last`: what `rule` reports about the node is anchored from the first of
the two tokens to the last one. -/
inductive Anchored (t : Tree) (n : NodeId) : Rule → TokenId → TokenId → Prop where
  /-- A single token. -/
  | token {p : NodeId} {rule : Rule} {i : TokenId} : .token i ∈ t.children p →
      Marks t i p n rule → Anchored t n rule i i
  /-- The return type of the method. -/
  | result {v : MethodView} : MethodView.ofNode? t n = some v →
      Anchored t n .outsAsTuple (t.firstToken v.returnType) (t.lastToken v.returnType)
  /-- What the call calls. -/
  | callee {v : InvocationView} : InvocationView.ofNode? t n = some v →
      Anchored t n .redundantConversion (t.firstToken v.callee) (t.lastToken v.callee)

/-- The bytes from the start of a token to the end of another one. -/
def tokensSpan (t : Tree) (first last : TokenId) : Span :=
  ⟨(t.token first).offset, (t.token last).stop⟩

/-- **What is reported about a node is anchored.** -/
theorem anchored_of_node {b : Binder} (h : parse source = .ok b.tree) {rules : RuleSet}
    {f : Finding} (hf : node b rules n = .ok (some f)) :
    f.document = b.document.id ∧ ∃ first last, Anchored b.tree n f.rule first last ∧
      f.span = tokensSpan b.tree first last := by
  have ht := inOrder_of_parse h
  have hwf := ht.parsed.wellFormed
  obtain ⟨-, hf | hf | hf | hf⟩ := cases_of_node hf
  -- A parameter that need not be passed by reference, or could be a result.
  · obtain ⟨v, method, body, i, _, hv, hmethod, hi, htext, -, hdocument, hspan, hrule⟩ :=
      cases_of_refParameter hf
    obtain ⟨list, hlist, hnode, hview⟩ := method_of_changeableMethod? hmethod
    have hn := hwf.mem_childNodes_of_parent? hlist
    have hk := ParameterView.kind_of_ofNode? hv
    have hkind := ht.parsed.kind_of_parameter_child (MethodView.mem_childNodes hview).2.1
      (hwf.mem_childNodes_of_parent? hnode) hn hk
    have htoken := ParameterView.mem_children ht hv (hi ▸ List.mem_singleton_self i)
    exact ⟨hdocument, i, i, .token htoken (.reference hk htext hn hkind hrule), hspan⟩
  -- One parameter for a result is anchored at its modifier, and several at the result type.
  · obtain ⟨v, _, hv, -, hdocument, ⟨w, hw, i, hi, hrule, hspan⟩ | ⟨-, hrule, hspan⟩⟩ :=
      cases_of_outParameters hf
    · obtain ⟨hw, hout⟩ := List.mem_filter.mp hw
      obtain ⟨p, hp, hview⟩ := List.mem_filterMap.mp hw
      have htext : (b.tree.token i).text = "out" := by
        have hsingle := beq_iff_eq.mp hout
        unfold ParameterView.singleModifier? at hsingle
        split at hsingle
        next j hj =>
          rw [hj, List.mem_singleton] at hi
          rw [hi]
          exact Option.some.inj hsingle
        next => cases hsingle
      refine ⟨hdocument, i, i, hrule ▸ .token (ParameterView.mem_children ht hview hi) ?_, hspan⟩
      exact .output (ParameterView.kind_of_ofNode? hview) htext hp
        (MethodView.mem_childNodes hv).2.2.2
    · exact ⟨hdocument, _, _, hrule ▸ .result hv, hspan⟩
  · obtain ⟨v, hv, hdocument, hrule, hspan⟩ := cases_of_conversion? hf
    exact ⟨hdocument, _, _, hrule ▸ .callee hv, hspan⟩
  · obtain ⟨i, calls, hcalls, hdocument, hrule, hspan⟩ := cases_of_duplicateCall? hf
    obtain ⟨hi, ⟨hk, -⟩ | ⟨hk, -⟩⟩ := Anchor.cases_of_branching? ht hcalls
    · exact ⟨hdocument, i, i, hrule ▸ .token hi (.keyword hk), hspan⟩
    · exact ⟨hdocument, i, i, hrule ▸ .token hi (.question hk), hspan⟩

/-! ## What stands where an anchor starts

Two anchors may start at the same token, or one may cover the start of the other.  What can stand at
the start of an anchor rules out most of these cases. -/

section Fronts

variable (h : InOrder t)

include h

/-- A call starts with what it calls. -/
theorem firstToken_callee {v : InvocationView} (hv : InvocationView.ofNode? t n = some v) :
    t.firstToken v.callee = t.firstToken n := by
  obtain ⟨-, list, hn⟩ := Anchor.children_of_view h hv
  exact (h.firstToken_eq hn).symm

/-- Nothing but names and types stands in a return type. -/
theorem not_rises_returnType {v : MethodView} (hv : MethodView.ofNode? t n = some v)
    (hk : t.kind m ∉ plainKinds) : ¬ ∃ ns, Rises t m ns v.returnType := by
  rintro ⟨ns, hrises⟩
  have hplain := (MethodView.plain_returnType h.parsed hv).of_rises hrises m List.mem_cons_self
  exact hk hplain.kind_mem

/-- A node above a child of a node is that child, or the node or above it. -/
theorem eq_or_rises_of_child {ns : List NodeId} {p : NodeId} (hc : m ∈ t.childNodes p)
    (hrises : Rises t m ns n) : m = n ∨ ∃ ks, Rises t p ks n := by
  cases hrises with
  | here => exact .inl rfl
  | up hc' hrises =>
    obtain rfl := h.parsed.wellFormed.parent_unique hc hc'
    exact .inr ⟨_, hrises⟩

/-- A list of parameters starts in front of its parameters. -/
theorem firstToken_lt_of_parameterList {list : NodeId} (hk : t.kind list = .parameterList)
    (hm : m ∈ t.childNodes list) : t.firstToken list < t.firstToken m := by
  obtain ⟨cs, hword, hstands⟩ := h.parsed.exists_children hk (by decide)
  obtain ⟨_, ⟨i, -, -, rfl⟩, rest, -, rfl⟩ := mem_prod_cons.mp hword
  cases hstands with
  | node _ _ hchildren =>
    have hpairs := h.children_pairwise list
    rw [hchildren] at hpairs
    have hmem := mem_childNodes_iff.mp hm
    rw [hchildren, List.singleton_append, List.map_cons, List.mem_cons] at hmem
    rw [h.firstToken_eq hchildren]
    exact (List.pairwise_cons.mp hpairs).1 _ (hmem.resolve_left nofun)

/-- A conditional starts in front of its question mark. -/
theorem firstToken_lt_of_conditional (hk : t.kind n = .conditionalExpression)
    (hi : .token i ∈ t.children n) : t.firstToken n < i := by
  obtain ⟨cs, hword, hstands⟩ := h.parsed.exists_children hk (by decide)
  obtain ⟨_, ⟨s, ⟨⟨⟨id, k, ds, rfl, -⟩, -⟩, -⟩, rfl⟩, rest, -, rfl⟩ := mem_prod_cons.mp hword
  cases hstands with
  | node _ _ hchildren =>
    have hpairs := h.children_pairwise n
    rw [hchildren] at hpairs
    rw [hchildren, List.singleton_append, List.map_cons, List.mem_cons] at hi
    rw [h.firstToken_eq hchildren]
    exact Nat.lt_of_le_of_lt (h.firstToken_le_lastToken id).1
      ((List.pairwise_cons.mp hpairs).1 _ (hi.resolve_left nofun))

/-- The node that a call's first token hangs under: no if statement, conditional or parameter of a
list. -/
theorem not_front_of_call {v : InvocationView} (hv : InvocationView.ofNode? t n = some v)
    (hi : .token i ∈ t.children m) (hfirst : t.firstToken v.callee = i) :
    t.kind m ≠ .ifStatement ∧ t.kind m ≠ .conditionalExpression ∧
      ∀ list, t.kind list = .parameterList → t.kind m = .parameter → m ∉ t.childNodes list := by
  have hk := (Anchor.children_of_view h hv).1
  rw [firstToken_callee h hv] at hfirst
  have hn : n < t.nodeCount := lt_nodeCount_of_kind (by rw [hk]; decide)
  have hends := h.firstToken_le_lastToken n
  obtain ⟨ks, hrises⟩ := h.exists_rises_of_token hn hi (Nat.le_of_eq hfirst)
    (hfirst ▸ hends.1)
  have hm : t.firstToken m = t.firstToken n :=
    Nat.le_antisymm (hfirst ▸ (h.child_ends_le hi).1) (hrises.tokens_le h).1
  refine ⟨fun heq => ?_, fun heq => ?_, fun list hlist hparameter hmem => ?_⟩
  · have hinitial := h.kind_mem_initialKinds (by rw [hk]; decide) hrises hm
    rw [heq] at hinitial
    exact absurd hinitial (by decide)
  · have hlt := firstToken_lt_of_conditional h heq hi
    rw [hm, hfirst] at hlt
    exact Nat.lt_irrefl i hlt
  · rcases eq_or_rises_of_child h hmem hrises with rfl | ⟨ls, hrises⟩
    · rw [hk] at hparameter
      cases hparameter
    · have hlt := firstToken_lt_of_parameterList h hlist hmem
      rw [hm] at hlt
      exact absurd (hrises.tokens_le h).1 (Nat.not_le.mpr hlt)

end Fronts

/-! ## Two anchors

Of two anchors one of which covers the start of the other, little is possible: they are of the same
node, or one call is part of what the other one calls. -/

/-- How the anchors of two findings may lie when one covers the start of the other: both are of one
node; what a call calls covers the other anchor; what a call calls starts with what a call around it
calls; or the other anchor starts with the first and comes first by its rule. -/
inductive Covered (t : Tree) (m n : NodeId) (g f : Rule) (a b c d : TokenId) : Prop where
  | same : m = n → Covered t m n g f a b c d
  | outer : g = .redundantConversion → d ≤ b → Covered t m n g f a b c d
  | inner : g = .redundantConversion → f = .redundantConversion → a = c →
      t.firstToken m = t.firstToken n → t.lastToken m < t.lastToken n → Covered t m n g f a b c d
  | later : a = c → f.number < g.number → Covered t m n g f a b c d

section Covered

variable {g f : Rule} {p : NodeId}

/-- The node of a marked token is no name and no type. -/
theorem Marks.kind_notMem (hf : Marks t i p n f) : t.kind p ∉ plainKinds := by
  cases hf with
  | reference hk | output hk | keyword hk | question hk =>
    rw [hk]
    decide

/-- A token marks one node. -/
theorem Marks.unique (h : InOrder t) (hg : Marks t i p m g) (hf : Marks t i p n f) : m = n := by
  have hparent : ∀ {c p q : NodeId}, c ∈ t.childNodes p → c ∈ t.childNodes q → p = q :=
    h.parsed.wellFormed.parent_unique
  cases hg with
  | reference hk htext =>
    cases hf with
    | output _ htext' => exact absurd (htext.symm.trans htext') (by decide)
    | reference | keyword | question => rfl
  | output hk htext hlist hm =>
    cases hf with
    | reference _ htext' => exact absurd (htext.symm.trans htext') (by decide)
    | output _ _ hlist' hn =>
      obtain rfl := hparent hlist hlist'
      exact hparent hm hn
    | keyword hk' | question hk' => exact absurd (hk.symm.trans hk') (by decide)
  | keyword hk | question hk =>
    cases hf with
    | output hk' => exact absurd (hk.symm.trans hk') (by decide)
    | reference | keyword | question => rfl

/-- Only the modifier of a parameter that is given out could be the first token of a call; its rule
comes behind that of the call. -/
theorem Marks.number_lt (h : InOrder t) (hg : Marks t i p m g) (hi : .token i ∈ t.children p)
    {v : InvocationView} (hv : InvocationView.ofNode? t n = some v)
    (hfirst : t.firstToken v.callee = i) : Rule.redundantConversion.number < g.number := by
  obtain ⟨hkeyword, hquestion, hparameter⟩ := not_front_of_call h hv hi hfirst
  cases hg with
  | reference hk _ hn hlist => exact absurd hn (hparameter _ hlist hk)
  | output => decide
  | keyword hk => exact absurd hk hkeyword
  | question hk => exact absurd hk hquestion

/-- Two nodes with a common token are nested. -/
theorem nested_of_token (h : InOrder t) (hm : m < t.nodeCount) (hn : n < t.nodeCount)
    (hfirst : t.firstToken m ≤ t.firstToken n) (hlast : t.firstToken n ≤ t.lastToken m) :
    (∃ ks, Rises t m ks n) ∨ ∃ ks, Rises t n ks m := by
  obtain ⟨ks, hm⟩ := h.parsed.exists_rises_root hm
  obtain ⟨ls, hn⟩ := h.parsed.exists_rises_root hn
  rcases h.nested_or_apart hm hn with hnested | hnested | hlt | hlt
  · exact .inl hnested
  · exact .inr hnested
  · exact absurd hlast (Nat.not_le.mpr hlt)
  · have hle := (h.firstToken_le_lastToken n).1
    exact absurd (Nat.le_trans hfirst hle) (Nat.not_le.mpr hlt)

/-- What a call calls is no return type and no part of one. -/
theorem not_rises_of_callee (h : InOrder t) {v : InvocationView} {w : MethodView}
    (hv : InvocationView.ofNode? t m = some v) (hw : MethodView.ofNode? t n = some w) :
    ¬ ∃ ks, Rises t v.callee ks w.returnType := by
  rintro ⟨ks, hrises⟩
  obtain ⟨hk, list, hchildren⟩ := Anchor.children_of_view h hv
  obtain ⟨-, hk', ⟨hmem, -⟩, -⟩ := MethodView.mem_childNodes hw
  have hcallee : v.callee ∈ t.childNodes m := mem_childNodes_iff.mpr (by simp [hchildren])
  rcases eq_or_rises_of_child h hcallee hrises with heq | habove
  · rw [h.parsed.wellFormed.parent_unique hcallee (heq ▸ hmem), hk'] at hk
    cases hk
  · exact not_rises_returnType h hw (by rw [hk]; decide) habove

/-- **Two findings, the anchor of one of which covers the start of that of the other.** -/
theorem Anchored.covered (h : InOrder t) (hg : Anchored t m g a b) (hf : Anchored t n f c d)
    (hac : a ≤ c) (hcb : c ≤ b) : Covered t m n g f a b c d := by
  have hwf := h.parsed.wellFormed
  have htype : ∀ {k v}, MethodView.ofNode? t k = some v →
      v.returnType ∈ t.childNodes k ∧ v.returnType < t.nodeCount := fun hv =>
    have hmem := (MethodView.mem_childNodes hv).2.2.1.1
    ⟨hmem, (hwf.lt_of_mem hmem).2.1⟩
  have hcallee : ∀ {k v}, InvocationView.ofNode? t k = some v →
      v.callee ∈ t.childNodes k ∧ v.callee < t.nodeCount := fun hv => by
    obtain ⟨-, list, hchildren⟩ := Anchor.children_of_view h hv
    have hmem : Child.node _ ∈ t.children _ := hchildren ▸ List.mem_cons_self
    exact ⟨mem_childNodes_iff.mpr hmem, (hwf.lt_of_mem (mem_childNodes_iff.mpr hmem)).2.1⟩
  cases hg with
  | token hi hg =>
    obtain rfl := Nat.le_antisymm hcb hac
    cases hf with
    | token hi' hf =>
      obtain rfl := (hwf.tokenParent_eq hi).2.symm.trans (hwf.tokenParent_eq hi').2
      exact .same (hg.unique h hf)
    | @result v hv =>
      -- a marked token hangs under no name and no type
      exact absurd (h.exists_rises_of_token (htype hv).2 hi (Nat.le_refl _)
        (h.firstToken_le_lastToken v.returnType).1) (not_rises_returnType h hv hg.kind_notMem)
    | callee hv => exact .later rfl (hg.number_lt h hi hv rfl)
  | @result v hv =>
    cases hf with
    | token hi hf =>
      exact absurd (h.exists_rises_of_token (htype hv).2 hi hac hcb)
        (not_rises_returnType h hv hf.kind_notMem)
    | @result w hw =>
      have hmethod : ∀ {k u}, MethodView.ofNode? t k = some u → t.kind k ∉ plainKinds := by
        intro k u hu
        rw [(MethodView.mem_childNodes hu).2.1]
        decide
      -- nothing but names and types stands in a return type, so each is the other
      rcases nested_of_token h (htype hv).2 (htype hw).2 hac hcb with ⟨ks, hrises⟩ | ⟨ks, hrises⟩
      · rcases eq_or_rises_of_child h (htype hv).1 hrises with heq | habove
        · exact .same (hwf.parent_unique (htype hv).1 (heq ▸ (htype hw).1))
        · exact absurd habove (not_rises_returnType h hw (hmethod hv))
      · rcases eq_or_rises_of_child h (htype hw).1 hrises with heq | habove
        · exact .same (hwf.parent_unique (htype hv).1 (heq ▸ (htype hw).1))
        · exact absurd habove (not_rises_returnType h hv (hmethod hw))
    | @callee w hw =>
      rcases nested_of_token h (htype hv).2 (hcallee hw).2 hac hcb with ⟨ks, hrises⟩ | hrises
      · exact .later (Nat.le_antisymm hac (hrises.tokens_le h).1) (by decide)
      · exact absurd hrises (not_rises_of_callee h hw hv)
  | @callee v hv =>
    cases hf with
    | token => exact .outer rfl hcb
    | @result w hw =>
      rcases nested_of_token h (hcallee hv).2 (htype hw).2 hac hcb with hrises | ⟨ks, hrises⟩
      · exact absurd hrises (not_rises_of_callee h hv hw)
      · exact .outer rfl (hrises.tokens_le h).2
    | @callee w hw =>
      rcases nested_of_token h (hcallee hv).2 (hcallee hw).2 hac hcb with
        ⟨ks, hrises⟩ | ⟨ks, hrises⟩
      · rcases eq_or_rises_of_child h (hcallee hv).1 hrises with heq | ⟨ls, habove⟩
        · exact .outer rfl (Nat.le_of_eq (congrArg t.lastToken heq.symm))
        · have hsame := Nat.le_antisymm hac (hrises.tokens_le h).1
          have hfirst := hsame
          rw [firstToken_callee h hv, firstToken_callee h hw] at hfirst
          exact .inner rfl rfl hsame hfirst
            (Nat.lt_of_le_of_lt (habove.tokens_le h).2 (Anchor.lastToken_callee_lt h hw))
      · exact .outer rfl (hrises.tokens_le h).2

end Covered

/-! ## The bytes of an anchor

An offset in the text is compared with the bytes of an anchor.  As tokens do not overlap, this is a
comparison of tokens. -/

section Bytes

variable {f g : Rule}

/-- An anchor ends behind its start and in front of the end of the file. -/
theorem Anchored.ends (h : parse source = .ok t) (hf : Anchored t n f c d) :
    c ≤ d ∧ d + 1 < t.tokens.size := by
  have ht := inOrder_of_parse h
  cases hf with
  | @token p _ _ hi hf =>
    refine ⟨Nat.le_refl _, ?_⟩
    have hk : t.kind p ≠ .compilationUnit := by
      cases hf with
      | reference hk | output hk | keyword hk | question hk =>
        rw [hk]
        decide
    exact Nat.lt_of_le_of_lt (Nat.succ_le_succ (ht.child_ends_le hi).2) (lastToken_add_one_lt h hk)
  | @result v hv =>
    have hk : t.kind v.returnType ≠ .compilationUnit := fun heq => by
      have htype := (MethodView.mem_childNodes hv).2.2.1.2
      rw [heq] at htype
      cases htype
    exact ⟨(ht.firstToken_le_lastToken _).1, lastToken_add_one_lt h hk⟩
  | callee hv =>
    refine ⟨(ht.firstToken_le_lastToken _).1, ?_⟩
    exact Nat.lt_of_le_of_lt (Anchor.lastToken_callee_lt ht hv) (ht.firstToken_le_lastToken n).2

/-- An anchor covers the start of another one if its tokens do. -/
theorem le_of_containsOffset (h : parse source = .ok t) (hb : b + 1 < t.tokens.size)
    (hab : a ≤ b) (hc : c + 1 < t.tokens.size)
    (hcontains : (tokensSpan t a b).containsOffset (tokensSpan t c d).start = true) :
    a ≤ c ∧ c ≤ b := by
  have ht := inOrder_of_parse h
  have hlt := offset_lt_stop (text_ne_empty_of_parse h hc)
  simp only [Span.containsOffset, Bool.and_eq_true, decide_eq_true_eq] at hcontains
  obtain ⟨hstart, hstop⟩ : (t.token a).offset ≤ (t.token c).offset ∧
    (t.token c).offset < (t.token b).stop := hcontains
  constructor <;> by_contra hle
  · have hfull := ht.fullStop_le_fullStart (Nat.lt_of_not_le hle)
      (Nat.lt_of_le_of_lt hab (Nat.lt_of_succ_lt hb))
    have hc' := (t.token c).stop_le_fullStop
    have ha' := (t.token a).fullStart_le_offset
    omega
  · have hfull := ht.fullStop_le_fullStart (Nat.lt_of_not_le hle) (Nat.lt_of_succ_lt hc)
    have hb' := (t.token b).stop_le_fullStop
    have hc' := (t.token c).fullStart_le_offset
    omega

/-- An anchor covers its start. -/
theorem containsOffset_start (h : parse source = .ok t) (hends : c ≤ d ∧ d + 1 < t.tokens.size) :
    (tokensSpan t c d).containsOffset (tokensSpan t c d).start = true := by
  have ht := inOrder_of_parse h
  have hd := Nat.lt_of_succ_lt hends.2
  have hoffset := ht.offset_le_offset hends.1 hd
  have hlt := offset_lt_stop (text_ne_empty_of_parse h hends.2)
  simp only [Span.containsOffset, Bool.and_eq_true, decide_eq_true_eq]
  exact ⟨Nat.le_refl _, Nat.lt_of_le_of_lt hoffset hlt⟩

theorem contains_tokensSpan (h : InOrder t) (hb : b < t.tokens.size) (hac : a ≤ c) (hcb : c ≤ b)
    (hdb : d ≤ b) : (tokensSpan t a b).contains (tokensSpan t c d) = true := by
  simp only [Span.contains, Bool.and_eq_true, decide_eq_true_eq]
  exact ⟨h.offset_le_offset hac (Nat.lt_of_le_of_lt hcb hb), h.stop_le_stop hdb hb⟩

/-- **A token stands inside the text of the document, between two seams.** -/
theorem isBoundary_offset (h : parse source = .ok t) (hi : i + 1 < t.tokens.size) :
    isBoundary t.source.toList (t.token i).offset = true ∧
      (t.token i).offset < t.source.utf8ByteSize := by
  have htext := text_ne_empty_of_parse h hi
  obtain ⟨tokens, s, b, htokens, -, -, rfl, -⟩ := Grammar.exists_whole_of_parse h
  change i + 1 < tokens.toArray.size at hi
  rw [List.size_toArray] at hi
  have hlt := Nat.lt_of_succ_lt hi
  rw [token_eq_getElem rfl hlt] at htext ⊢
  obtain ⟨hstart, hstop⟩ := Grammar.isBoundary_of_mem htokens (List.getElem_mem hlt)
  exact ⟨hstart, Nat.lt_of_lt_of_le (offset_lt_stop htext) (Grammar.le_of_isBoundary hstop)⟩

end Bytes

/-! ## The order of findings

Findings are sorted by document, place and rule.  They were found in the order of the walk through
the documents, and the sort leaves what it takes for equal in that order. -/

end Check

namespace Finding

variable {f g : Finding}

instance : Std.TransCmp Finding.compare :=
  inferInstanceAs (Std.TransCmp (compareLex (compareOn document)
    (compareLex (compareOn fun f => f.span.start) (compareOn fun f => f.rule.number))))

theorem compare_eq_iff : f.compare g = .eq ↔ f.document = g.document ∧
    f.span.start = g.span.start ∧ f.rule.number = g.rule.number := by
  simp only [compare, Ordering.then_eq_eq, Nat.compare_eq_eq]

end Finding

namespace Check

variable {s : Solution} {rules : RuleSet} {fs : List Finding}

/-- Two findings of a document, in the order in which a walk through the document comes to their
nodes. -/
def FoundInOrder (b : Binder) (rules : RuleSet) (g f : Finding) : Prop :=
  ∃ m n, node b rules m = .ok (some g) ∧ node b rules n = .ok (some f) ∧ b.tree.Leads m n

theorem pairwise_document {p : Program} {doc : Document} (h : parse source = .ok doc.tree)
    (hfs : document p doc rules = .ok fs) :
    fs.Pairwise (FoundInOrder (.ofDocument p doc) rules) := by
  have ht := inOrder_of_parse h
  obtain ⟨found, hfound, hfs⟩ := exists_of_bind_eq_ok hfs
  cases hfs
  have hwalk := ht.descendants_pairwise (ht.parsed.wellFormed.root_lt)
  have hpairs : found.Pairwise fun x y =>
      ∀ g ∈ x, ∀ f ∈ y, FoundInOrder (.ofDocument p doc) rules g f := by
    refine pairwise_of_forall₂ (forall₂_of_mapM hfound) hwalk ?_
    rintro m n x y hleads hx hy g rfl f rfl
    exact ⟨m, n, hx, hy, hleads⟩
  refine List.Pairwise.filterMap id (fun x y hxy g hg f hf => hxy g hg f hf) hpairs

/-- Of two findings, the first one is not of a document in front, and of one document it is found
first. -/
def ReportedInOrder (s : Solution) (rules : RuleSet) (g f : Finding) : Prop :=
  g.document = f.document →
    ∃ d ∈ s.documents, FoundInOrder (.ofDocument (.ofSolution s) d) rules g f

/-- The findings of the documents, before they are sorted. -/
theorem pairwise_flatten (hs : s.Parsed) {found : List (List Finding)}
    (hfound : List.Forall₂ (fun d fs => document (.ofSolution s) d rules = .ok fs) s.documents
      found) :
    found.flatten.Pairwise (ReportedInOrder s rules) := by
  have hof : ∀ {d fs}, d ∈ s.documents → document (.ofSolution s) d rules = .ok fs →
      ∀ f ∈ fs, f.document = d.id := by
    intro d fs hd hfs f hf
    obtain ⟨source, h⟩ := hs.parses d hd
    obtain ⟨n, hn⟩ := exists_node_of_document hfs hf
    exact (anchored_of_node (b := .ofDocument (.ofSolution s) d) h hn).1
  refine List.pairwise_flatten.mpr ⟨fun fs hfs => ?_, ?_⟩
  · obtain ⟨d, hd, hdocument⟩ := exists_of_forall₂_right hfound hfs
    obtain ⟨source, h⟩ := hs.parses d hd
    exact (pairwise_document h hdocument).imp fun hin _ => ⟨d, hd, hin⟩
  · have hids : s.documents.Pairwise fun d e => d.id ≠ e.id := List.pairwise_map.mp hs.nodup
    refine pairwise_of_forall₂ hfound (List.Pairwise.and_mem.mp hids) ?_
    rintro d e fs gs ⟨hd, he, hne⟩ hfs hgs g hg f hf heq
    rw [hof hd hfs g hg, hof he hgs f hf] at heq
    exact absurd heq hne

/-- **Of two findings, the first one is not behind the second in the order of findings, and of two
findings with the same place and rule it is found first.** -/
theorem pairwise_solution (hs : s.Parsed) (hfs : solution (.ofSolution s) rules = .ok fs) :
    fs.Pairwise fun g f => g.compare f ≠ .gt ∧ (g.compare f = .eq →
      ∃ d ∈ s.documents, FoundInOrder (.ofDocument (.ofSolution s) d) rules g f) := by
  obtain ⟨found, hfound, hfs⟩ := exists_of_bind_eq_ok hfs
  cases hfs
  rw [Program.solution_ofSolution] at hfound
  have hsorted : (sortStable Finding.compare found.flatten).Pairwise fun g f =>
      g.compare f ≠ .gt := by
    refine pairwise_sortStable (fun a b c hab hbc => ?_) (fun a b => ?_) _
    · exact Ordering.isLE_iff_ne_gt.mp (Std.TransCmp.isLE_trans
        (Ordering.isLE_iff_ne_gt.mpr hab) (Ordering.isLE_iff_ne_gt.mpr hbc))
    · exact or_iff_not_imp_left.mpr fun h => Std.OrientedCmp.not_gt_of_gt (not_not.mp h)
  have hstable : (sortStable Finding.compare found.flatten).Pairwise fun g f =>
      g.compare f = .eq → ReportedInOrder s rules g f := by
    refine pairwise_sortStable_of_eq (fun a b heq hgt => ?_)
      (pairwise_flatten hs (forall₂_of_mapM hfound))
    rw [Std.OrientedCmp.eq_symm heq] at hgt
    cases hgt
  refine (hsorted.and hstable).imp fun ⟨hle, hin⟩ => ⟨hle, fun heq => ?_⟩
  exact hin heq (Finding.compare_eq_iff.mp heq).1

/-! ## The finding at a place

A search for the first finding that covers a place may come to another one than the finding that the
place was taken from.  By what is known of two anchors, that other one is a call around it. -/

section Places

variable {doc : Document} {f g : Finding}

/-- **The finding whose anchor covers the start of that of another one, and which comes in front of
it, is a call that calls what the other one is about.** -/
theorem eq_of_covers {b : Binder} (h : parse source = .ok b.tree)
    (hg : node b rules m = .ok (some g)) (hf : node b rules n = .ok (some f))
    (hcovers : g.span.containsOffset f.span.start = true) (hle : g.compare f ≠ .gt)
    (hwalk : g.compare f = .eq → b.tree.Leads m n)
    (hclear : g.rule = .redundantConversion → g.span.contains f.span = true → g = f) : g = f := by
  have ht := inOrder_of_parse h
  obtain ⟨hdocument, i, j, hanchor, hspan⟩ := anchored_of_node h hg
  obtain ⟨hdocument', k, l, hanchor', hspan'⟩ := anchored_of_node h hf
  have hends := hanchor.ends h
  have hends' := hanchor'.ends h
  rw [hspan, hspan'] at hcovers
  obtain ⟨hik, hkj⟩ := le_of_containsOffset h hends.2 hends.1
    (Nat.lt_of_le_of_lt (Nat.succ_le_succ hends'.1) hends'.2) hcovers
  have hsame : i = k → g.document = f.document ∧ g.span.start = f.span.start := fun heq =>
    ⟨hdocument.trans hdocument'.symm, by rw [hspan, hspan', heq]; rfl⟩
  -- One anchor begins in the other: they are the same, or the order of findings tells them apart.
  cases hanchor.covered ht hanchor' hik hkj with
  | same heq =>
    subst heq
    exact Option.some.inj (Except.ok.inj (hg.symm.trans hf))
  | outer hrule hlj =>
    refine hclear hrule ?_
    rw [hspan, hspan']
    exact contains_tokensSpan ht (Nat.lt_of_succ_lt hends.2) hik hkj hlj
  | inner hrule hrule' heq hfirst hlast =>
    have hcompare : g.compare f = .eq :=
      Finding.compare_eq_iff.mpr ⟨(hsame heq).1, (hsame heq).2, by rw [hrule, hrule']⟩
    exact absurd ((hwalk hcompare).2 hfirst) (Nat.not_le.mpr hlast)
  | later heq hlt =>
    obtain ⟨hdocuments, hstarts⟩ := hsame heq
    refine absurd (Ordering.then_eq_gt.mpr (.inr ⟨Nat.compare_eq_eq.mpr hdocuments, ?_⟩)) hle
    exact Ordering.then_eq_gt.mpr (.inr ⟨Nat.compare_eq_eq.mpr hstarts, Nat.compare_eq_gt.mpr hlt⟩)

end Places

end Check

/-! ## The document of a place

A place names its document by a path, and its offset by a line and a column.  Both lead back to
where they were taken from, and so the search decides. -/

/-- A path in the form that documents have stays as it is. -/
theorem Command.documentPath_eq {path : String} (hslashes : '\\' ∉ path.toList)
    (hfront : ¬ ['.', '/'] <+: path.toList) : documentPath path = path := by
  have hmap : (path.toList.map fun c => if c = '\\' then '/' else c) = path.toList :=
    calc path.toList.map (fun c => if c = '\\' then '/' else c)
      _ = path.toList.map id :=
        List.map_congr_left fun c hc => if_neg (ne_of_mem_of_not_mem hc hslashes)
      _ = path.toList := List.map_id _
  have hdrop : dropFront? ['.', '/'] path.toList = none :=
    Option.eq_none_iff_forall_ne_some.mpr fun rest hrest =>
      hfront ⟨rest, (dropFront?_eq_some_iff.mp hrest).symm⟩
  rw [documentPath, hmap, hdrop, Option.getD_none, String.ofList_toList]

/-- A document is found under its path. -/
theorem Solution.documentByPath?_eq {s : Solution} (hpaths : (s.documents.map Document.path).Nodup)
    {d : Document} (hd : d ∈ s.documents) : s.documentByPath? d.path = some d := by
  obtain ⟨e, he⟩ : ∃ e, s.documentByPath? d.path = some e :=
    Option.isSome_iff_exists.mp (List.find?_isSome.mpr ⟨d, hd, beq_self_eq_true _⟩)
  have hmem := List.mem_of_find?_eq_some he
  have hpath : e.path = d.path := by simpa using List.find?_some he
  rw [he, List.inj_on_of_nodup_map hpaths hmem hd hpath]

/-- The first finding whose anchor covers the start of that of a finding is this finding. -/
theorem first_covering_finding {s : Solution} (hs : s.Parsed) {rules : RuleSet} {fs : List Finding}
    {f : Finding} (hfs : Check.solution (.ofSolution s) rules = .ok fs) (hf : f ∈ fs)
    (hcovers : f.span.containsOffset f.span.start = true)
    (hclear : ∀ g ∈ fs, g.document = f.document → g.rule = .redundantConversion →
      g.span.contains f.span = true → g = f) :
    fs.find? (fun g => g.document == f.document && g.span.containsOffset f.span.start) =
      some f := by
  have hself : (f.document == f.document && f.span.containsOffset f.span.start) = true := by
    rw [hcovers, beq_self_eq_true, Bool.and_self]
  obtain ⟨g, hg⟩ : ∃ g, fs.find? (fun g => g.document == f.document &&
      g.span.containsOffset f.span.start) = some g :=
    Option.isSome_iff_exists.mp (List.find?_isSome.mpr ⟨f, hf, hself⟩)
  obtain ⟨hcovers, front, back, hsplit, hfront⟩ := List.find?_eq_some_iff_append.mp hg
  simp only [Bool.and_eq_true, beq_iff_eq] at hcovers
  suffices hgf : g = f from hgf ▸ hg
  -- the finding is the first one, or comes behind it
  have hmem : f ∈ g :: back := by
    rw [hsplit, List.mem_append] at hf
    refine hf.resolve_left fun hf => ?_
    have hnot := hfront f hf
    rw [hself] at hnot
    cases hnot
  rcases List.mem_cons.mp hmem with rfl | hback
  · rfl
  have hgs : g ∈ fs := hsplit ▸ List.mem_append_right _ List.mem_cons_self
  have hpairs := Check.pairwise_solution hs hfs
  rw [hsplit] at hpairs
  obtain ⟨hle, hfound⟩ := (List.pairwise_cons.mp (List.pairwise_append.mp hpairs).2.1).1 f hback
  by_cases heq : g.compare f = .eq
  · obtain ⟨d, hd, m, n, hm, hn, hleads⟩ := hfound heq
    obtain ⟨source, h⟩ := hs.parses d hd
    exact Check.eq_of_covers (b := .ofDocument (.ofSolution s) d) h hm hn hcovers.2 hle
      (fun _ => hleads) (hclear g hgs hcovers.1)
  · obtain ⟨d, hd, m, hm⟩ := Check.exists_node_of_solution hfs hgs
    obtain ⟨e, he, n, hn⟩ := Check.exists_node_of_solution hfs hf
    obtain ⟨source, h⟩ := hs.parses d hd
    obtain ⟨source', h'⟩ := hs.parses e he
    have hdocument := (Check.anchored_of_node (b := .ofDocument (.ofSolution s) d) h hm).1
    have hdocument' := (Check.anchored_of_node (b := .ofDocument (.ofSolution s) e) h' hn).1
    have hid : d.id = e.id := hdocument.symm.trans (hcovers.1.trans hdocument')
    obtain rfl := List.inj_on_of_nodup_map hs.nodup hd he hid
    exact Check.eq_of_covers (b := .ofDocument (.ofSolution s) d) h hm hn hcovers.2 hle
      (fun h => absurd h heq) (hclear g hgs hcovers.1)

/-- **The place of a finding selects the finding**, unless the anchor lies in what another call
calls whose conversion is reported too.  For all documents with paths of their own in the form that
paths have, and of less than 4 GiB: the place where a finding is reported is read again, it leads to
the document and to the start of the anchor, and the finding is the first one whose anchor covers
it. -/
theorem place_selects_finding {s : Solution} (hs : s.Parsed)
    (hpaths : (s.documents.map Document.path).Nodup)
    (hforms : ∀ d ∈ s.documents, '\\' ∉ d.path.toList ∧ ¬ ['.', '/'] <+: d.path.toList)
    (hsizes : ∀ d ∈ s.documents, d.text.utf8ByteSize < 2 ^ 32) {rules : RuleSet}
    {fs : List Finding} {f : Finding} (hfs : Check.solution (.ofSolution s) rules = .ok fs)
    (hf : f ∈ fs)
    (hclear : ∀ g ∈ fs, g.document = f.document → g.rule = .redundantConversion →
      g.span.contains f.span = true → g = f) :
    ∃ info place d, f.info s none = .ok info ∧
      FixTarget.ofText info.location.render = .ok (.place place) ∧
      s.documentByPath? (Command.documentPath place.file) = some d ∧
      d.id = f.document ∧
      Position.toOffset d.text ⟨place.line, place.column⟩ = f.span.start ∧
      Command.findingAt? fs d place.line place.column = some f := by
  obtain ⟨d, hd, n, hn⟩ := Check.exists_node_of_solution hfs hf
  obtain ⟨source, h⟩ := hs.parses d hd
  obtain ⟨hdocument, c, l, hanchor, hspan⟩ :=
    Check.anchored_of_node (b := .ofDocument (.ofSolution s) d) h hn
  have hdocument : f.document = d.id := hdocument
  have hends := hanchor.ends h
  have hc : c + 1 < d.tree.tokens.size :=
    Nat.lt_of_le_of_lt (Nat.succ_le_succ hends.1) hends.2
  have hstart : f.span.start = (d.tree.token c).offset := by rw [hspan]; rfl
  obtain ⟨hseam, hsize⟩ := Check.isBoundary_offset h hc
  rw [← hstart] at hseam hsize
  have hsize' : f.span.start + 1 < UInt32.size := Nat.lt_of_le_of_lt hsize (hsizes d hd)
  -- Its line and column lead back to where the finding starts.
  have hoffset : Position.toOffset d.text (Position.ofOffset d.text f.span.start) = f.span.start :=
    Position.toOffset_ofOffset hseam hsize'
  obtain ⟨info, hinfo, hlocation⟩ : ∃ info, f.info s none = .ok info ∧
      info.location = Location.ofSpan d.path d.text f.span := by
    refine ⟨_, by rw [Finding.info, hdocument, hs.document_eq hd]; rfl, rfl⟩
  refine ⟨info, ⟨d.path, _, _, none, none⟩, d, hinfo, ?_, ?_, hdocument.symm, hoffset, ?_⟩
  · rw [FixTarget.ofText, hlocation, Location.parse?_render]
    rfl
  · show s.documentByPath? (Command.documentPath d.path) = some d
    rw [Command.documentPath_eq (hforms d hd).1 (hforms d hd).2,
      Solution.documentByPath?_eq hpaths hd]
  · show fs.find? (fun g => g.document == d.id && g.span.containsOffset (Position.toOffset d.text
      (Position.ofOffset d.text f.span.start))) = some f
    rw [hoffset, ← hdocument]
    refine first_covering_finding hs hfs hf ?_ hclear
    rw [hspan]
    exact Check.containsOffset_start h hends

/-- A call whose receiver holds another call, each of which converts a number to a number. -/
def callInReceiver : String :=
  "namespace System{class Convert{Convert F(int x){F(ToA(1)).ToA(2);}int ToA(int v){}}}"

/-- What is reported about the call at the end of the chain, which calls all that is in front. -/
def outerCall : Finding := ⟨.redundantConversion, 0, ⟨48, 61⟩, ["ToA", "int"]⟩

/-- What is reported about the call in the receiver. -/
def innerCall : Finding := ⟨.redundantConversion, 0, ⟨50, 53⟩, ["ToA", "int"]⟩

theorem exists_callInReceiver : ∃ s tree, Solution.ofSources [("A.cs", callInReceiver)] = .ok s ∧
    s.documents = [⟨0, "A.cs", tree⟩] ∧ tree.source = callInReceiver ∧
    Check.solution (.ofSolution s) Rule.all = .ok [outerCall, innerCall] := by
  have hrun : ((Solution.ofSources [("A.cs", callInReceiver)]).toOption.any fun s =>
      (Check.solution (.ofSolution s) Rule.all).toOption ==
        some [outerCall, innerCall]) = true := by
    rw [Solution.toOption_ofSources (show callInReceiver.toList = _ from String.toList_ofList)]
    decide +kernel
  cases h : Solution.ofSources [("A.cs", callInReceiver)] with
  | error e =>
    rw [h] at hrun
    cases hrun
  | ok s =>
    rw [h] at hrun
    obtain ⟨ds, hds, hs⟩ := exists_of_bind_eq_ok h
    obtain ⟨d, hd, hds⟩ := exists_of_bind_eq_ok hds
    cases hds
    cases hs
    unfold Document.parse at hd
    split at hd
    next tree htree =>
      cases hd
      refine ⟨_, tree, rfl, rfl, source_of_parse htree, ?_⟩
      have hrun := beq_iff_eq.mp hrun
      cases hfs : Check.solution (.ofSolution ⟨[⟨0, "A.cs", tree⟩], []⟩) Rule.all with
      | error e =>
        rw [hfs] at hrun
        cases hrun
      | ok fs =>
        rw [hfs] at hrun
        exact congrArg _ (Option.some.inj hrun)
    next => cases hd

/-- The place of the call at the end of the chain selects it. -/
theorem place_selects_outer_call : ∃ s info place d,
    Solution.ofSources [("A.cs", callInReceiver)] = .ok s ∧
      Check.solution (.ofSolution s) Rule.all = .ok [outerCall, innerCall] ∧
      outerCall.info s none = .ok info ∧
      FixTarget.ofText info.location.render = .ok (.place place) ∧
      s.documentByPath? (Command.documentPath place.file) = some d ∧
      d.id = outerCall.document ∧
      Position.toOffset d.text ⟨place.line, place.column⟩ = outerCall.span.start ∧
      Command.findingAt? [outerCall, innerCall] d place.line place.column = some outerCall := by
  obtain ⟨s, tree, h, hdocuments, hsource, hfs⟩ := exists_callInReceiver
  obtain ⟨info, place, d, hplace⟩ := place_selects_finding (Solution.parsed_of_ofSources h)
    (by simp [hdocuments]) (by rw [hdocuments]; simp)
    (by rw [hdocuments]; simp [Document.text, hsource]; decide +kernel) hfs List.mem_cons_self
    (by decide)
  exact ⟨s, info, place, d, h, hfs, hplace⟩

/-- **The place of a call in what another call calls selects the other call.** -/
theorem place_of_inner_call_selects_outer : ∃ s info d,
    Solution.ofSources [("A.cs", callInReceiver)] = .ok s ∧
      Check.solution (.ofSolution s) Rule.all = .ok [outerCall, innerCall] ∧
      innerCall.info s none = .ok info ∧ info.location.render = "A.cs:1:51" ∧
      FixTarget.ofText "A.cs:1:51" = .ok (.place ⟨"A.cs", 1, 51, none, none⟩) ∧
      s.documentByPath? (Command.documentPath "A.cs") = some d ∧
      Command.findingAt? [outerCall, innerCall] d 1 51 = some outerCall := by
  obtain ⟨s, tree, h, hdocuments, hsource, hfs⟩ := exists_callInReceiver
  have hdocument : s.document innerCall.document = .ok ⟨0, "A.cs", tree⟩ := by
    rw [Solution.document, Solution.document?, hdocuments]
    rfl
  have hplace : Location.ofSpan "A.cs" tree.source innerCall.span =
      ⟨"A.cs", 1, 51, some 50, some 53⟩ := by
    rw [hsource]
    decide +kernel
  refine ⟨s, _, ⟨0, "A.cs", tree⟩, h, hfs, by rw [Finding.info, hdocument]; rfl, ?_, ?_, ?_, ?_⟩
  · show (Location.ofSpan "A.cs" tree.source innerCall.span).render = _
    rw [hplace]
    decide +kernel
  · have hparse : Location.parse? "A.cs:1:51" = some ⟨"A.cs", 1, 51, none, none⟩ := by
      decide +kernel
    rw [FixTarget.ofText, hparse]
  · have hpath : Command.documentPath "A.cs" = "A.cs" := by decide +kernel
    rw [Solution.documentByPath?, hdocuments, hpath]
    exact List.find?_cons_of_pos (beq_self_eq_true _)
  · have hoffset : Position.toOffset tree.source ⟨1, 51⟩ = 50 := by
      rw [hsource]
      decide +kernel
    show [outerCall, innerCall].find? (fun f => f.document == 0 &&
      f.span.containsOffset (Position.toOffset tree.source ⟨1, 51⟩)) = some outerCall
    rw [hoffset]
    rfl

end CodeMend
