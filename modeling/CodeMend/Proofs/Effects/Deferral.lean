import CodeMend.Proofs.Patch.Remarks

/-!
# CodeMend — the order of effects in a merged call

The patch that merges two calls cuts its text out of the source.  That text is made up of the words
of a call, the first one or the second one, with a conditional for the argument that differs, and of
blanks and comments around these words.  So what the new source does is what that call does, and the
call evaluates the condition where its argument stands.

* **`Tree.Renders`** — a text that is made up of some words.
* **`MergeSite.Agree.spelling_eq`** — both calls become the same words.
* **`exists_merged_of_mergeCalls?`** — the words that the patch writes.
* **`mergeCalls?_defers_condition`** — the effects of the old source and of the merged call.
* **`Rereads`** — the new source reads as a merged call, as it does in the samples.
-/

namespace CodeMend

namespace Tree

variable {source : String} {t : Tree} {n m : NodeId} {i j : TokenId} {words others : List String}
  {cs ds : List Char}

/-! ## Texts made up of words

Between two words of a text there may stand what stands between words in the source: blanks, line
breaks, and the comments and directives of the tree. -/

/-- The text is made up of the words, with blanks and trivia of the tree around them. -/
inductive Renders (t : Tree) : List String → List Char → Prop where
  | nil : Renders t [] []
  | word (text : String) {words : List String} {cs : List Char} (h : Renders t words cs) :
      Renders t (text :: words) (text.toList ++ cs)
  | trivia {p : Trivia} {words : List String} {cs : List Char}
      (hp : p ∈ t.placedTrivia.map Prod.snd) (h : Renders t words cs) :
      Renders t words (p.text.toList ++ cs)
  | blank {c : Char} {words : List String} {cs : List Char}
      (hc : Lexer.isSpace c = true ∨ Literal.isLineBreak c = true) (h : Renders t words cs) :
      Renders t words (c :: cs)

theorem Renders.append (h : t.Renders words cs) (h' : t.Renders others ds) :
    t.Renders (words ++ others) (cs ++ ds) := by
  induction h with
  | nil => exact h'
  | word text h ih =>
    rw [List.cons_append, List.append_assoc]
    exact .word text ih
  | trivia hp h ih =>
    rw [List.append_assoc]
    exact .trivia hp ih
  | blank hc h ih => exact .blank hc ih

/-- Items with commas between them, up to a closing mark: what is put in the place of an item stands
between the same commas. -/
theorem spellingOfList_alterNodes {ns : List NodeId} {is : List TokenId} {children : List Child}
    (halternates : Alternates ns is children) (hlength : ns ≠ [] → ns.length = is.length + 1)
    (hcommas : ∀ k ∈ is, (t.token k).text = ",") (close : String) (k : Nat) (f : Phrase → Phrase) :
    Phrase.spellingOfList
        (Phrase.alterNodes k f (children.map t.childPhrase ++ [.word close])) =
      [","].intercalate (((ns.map t.phrase).modify k f).map Phrase.spelling) ++ [close] := by
  have hnode : ∀ n, ∃ kind parts, t.phrase n = .node kind parts := fun n =>
    Phrase.exists_of_isNode (isNode_phrase t n)
  have hchild : ∀ n, t.childPhrase (.node n) = t.phrase n := fun _ => rfl
  induction halternates generalizing k f with
  | nil => cases k <;> simp [Phrase.alterNodes, Phrase.spellingOfList, Phrase.spelling]
  | last n =>
    obtain ⟨kind, parts, hphrase⟩ := hnode n
    cases k <;>
      simp [Phrase.alterNodes, Phrase.spellingOfList, Phrase.spelling, hchild, hphrase]
  | @more n i ns is cs h ih =>
    have hlength := Nat.succ.inj (hlength (List.cons_ne_nil _ _))
    have hne : ns ≠ [] := List.ne_nil_of_length_eq_add_one hlength
    have hcomma := hcommas i List.mem_cons_self
    have ih := ih (fun _ => hlength) fun l hl => hcommas l (List.mem_cons_of_mem _ hl)
    obtain ⟨kind, parts, hphrase⟩ := hnode n
    rw [List.map_cons, List.map_cons, List.cons_append, List.cons_append, List.map_cons, hchild,
      childPhrase_token, hcomma, hphrase]
    cases k with
    | zero =>
      -- the items behind the first one stay
      have hrest := ih 0 id
      rw [Phrase.alterNodes_id, List.modify_id] at hrest
      rw [Phrase.alterNodes, List.modify_zero_cons, Phrase.spellingOfList, Phrase.spellingOfList,
        hrest, List.map_cons, List.intercalate_cons_of_ne_nil (by simpa using hne)]
      simp [Phrase.spelling]
    | succ k =>
      rw [Phrase.alterNodes, Phrase.alterNodes, List.modify_succ_cons, Phrase.spellingOfList,
        Phrase.spellingOfList, ih k f, List.map_cons,
        List.intercalate_cons_of_ne_nil (by simpa using hne)]
      simp [Phrase.spelling]

/-- **The words of a list of arguments** in which another one has been put in the place of one. -/
theorem spelling_arguments (h : InOrder t) (hn : n < t.nodeCount) (hk : t.kind n = .argumentList)
    (k : Nat) (f : Phrase → Phrase) : ((t.phrase n).alterNode k f).spelling =
      "(" :: ([","].intercalate (((t.phrase n).nodes.modify k f).map Phrase.spelling) ++
        [")"]) := by
  obtain ⟨mid, halternates, hchildren⟩ := h.exists_alternates (.inr hk)
  obtain ⟨hopening, hclose, -⟩ := isMark_brackets h (.inr hk)
  have hcommas : ∀ k ∈ (SeparatedList.ofNode t n).separators, (t.token k).text = "," :=
    fun k hk => Parser.text_of_isMark (List.mem_filter.mp hk).2
  rw [h.parsed.nodes_phrase, h.parsed.phrase_eq hn, hchildren, Phrase.alterNode, Phrase.spelling,
    List.map_cons, List.map_append, List.map_singleton, childPhrase_token, childPhrase_token,
    Parser.text_of_isMark hopening, Parser.text_of_isMark hclose, Phrase.alterNodes,
    Phrase.spellingOfList, spellingOfList_alterNodes halternates
      (h.length_items_of_arguments (.inl hk)) hcommas]
  rfl

/-- **The words of a call** in which another argument has been put in the place of one. -/
theorem spelling_putArgument (h : InOrder t) {x : NodeId} {v : InvocationView}
    (hv : InvocationView.ofNode? t x = some v) (k : Nat) (a : Phrase) :
    ((t.phrase x).putArgument k a).spelling = (t.phrase v.callee).spelling ++
      "(" :: ([","].intercalate
        ((((v.argumentViews t).map fun a => t.phrase a.node).set k a).map Phrase.spelling) ++
          [")"]) := by
  obtain ⟨-, hk, hitems⟩ := InvocationView.arguments_eq hv
  have hchildren := v.children_eq h hv
  have hnodes : t.childNodes x = [v.callee, v.arguments.node] := by
    rw [childNodes, hchildren]
    rfl
  have hlist : v.arguments.node ∈ t.childNodes x := by simp [hnodes]
  obtain ⟨hx, hlt, -⟩ := h.parsed.wellFormed.lt_of_mem hlist
  have hviews : (v.argumentViews t).map (fun a => t.phrase a.node) =
      (t.phrase v.arguments.node).nodes := by
    have hchildren : v.arguments.items = t.childNodes v.arguments.node :=
      congrArg SeparatedList.items hitems
    rw [h.parsed.nodes_phrase, ← hchildren, ← Effects.map_node_argumentViews h.parsed hv,
      List.map_map]
    rfl
  obtain ⟨kind, parts, hcallee⟩ := Phrase.exists_of_isNode (isNode_phrase t v.callee)
  obtain ⟨kind', parts', harguments⟩ :=
    Phrase.exists_of_isNode (isNode_phrase t v.arguments.node)
  have hparts : ∀ f, Phrase.alterNodes 1 f ([.node v.callee, .node v.arguments.node].map
      t.childPhrase) = [t.phrase v.callee, f (t.phrase v.arguments.node)] := by
    intro f
    show Phrase.alterNodes 1 f [t.phrase v.callee, t.phrase v.arguments.node] = _
    rw [hcallee, harguments]
    rfl
  rw [h.parsed.phrase_eq hx, hchildren, hviews, Phrase.putArgument, Phrase.alterNode, hparts,
    Phrase.spelling, Phrase.spellingOfList, Phrase.spellingOfList, Phrase.spellingOfList,
    spelling_arguments h hlt hk, List.append_nil, List.set_eq_modify]

/-- Nodes of the same tokens have the same words. -/
theorem spelling_eq_of_sameTokens (h : InOrder t) (hg : Gapless t) (hn : n < t.nodeCount)
    (hm : m < t.nodeCount) (heq : Check.sameTokens t n m = true) :
    (t.phrase n).spelling = (t.phrase m).spelling := by
  rw [spelling_phrase h hg hn, spelling_phrase h hg hm]
  exact beq_iff_eq.mp heq

end Tree

namespace Effects

open Tree Patch

variable {source : String} {t : Tree} {n : NodeId} {s : MergeSite}

/-! ## The words of a merged call

The text that a patch writes is that of the first call with a conditional in it.  It has the words
of the second call with the same conditional in it as well, since the calls differ nowhere else.  -/

/-- **Either call becomes the same words** when the arguments that differ give way to one. -/
theorem MergeSite.Agree.spelling_eq (hagree : s.Agree t) (h : InOrder t) (hg : Gapless t)
    (a : Phrase) (outcome : Bool) :
    ((t.phrase (s.call outcome)).putArgument s.index a).spelling =
      ((t.phrase s.whenTrue).putArgument s.index a).spelling := by
  cases outcome with
  | true => rfl
  | false =>
    obtain ⟨v, w, hv, hw, hcallee, hlength, hsame⟩ := hagree
    have hlt : ∀ {x : NodeId} {v : InvocationView}, InvocationView.ofNode? t x = some v →
        v.callee < t.nodeCount ∧ ∀ a ∈ v.argumentViews t, a.node < t.nodeCount := by
      intro x v hv
      obtain ⟨-, -, hitems⟩ := InvocationView.arguments_eq hv
      have hnodes : v.callee ∈ t.childNodes x := by
        rw [childNodes, v.children_eq h hv]
        exact List.mem_cons_self
      refine ⟨(h.parsed.wellFormed.lt_of_mem hnodes).2.1, fun a ha => ?_⟩
      have hmem : a.node ∈ v.arguments.items := by
        rw [← map_node_argumentViews h.parsed hv]
        exact List.mem_map_of_mem ha
      rw [hitems] at hmem
      exact (h.parsed.wellFormed.lt_of_mem hmem).2.1
    obtain ⟨hcalled, harguments⟩ := hlt hv
    obtain ⟨hcalled', harguments'⟩ := hlt hw
    show ((t.phrase s.whenFalse).putArgument s.index a).spelling = _
    rw [spelling_putArgument h hv, spelling_putArgument h hw,
      spelling_eq_of_sameTokens h hg hcalled hcalled' hcallee]
    -- The callees are spelled alike, and so are the arguments but for the one that is put in.
    congr 4
    refine List.ext_getElem (by simp [hlength]) fun i hi hi' => ?_
    simp only [List.length_map, List.length_set] at hi hi'
    simp only [List.getElem_map, List.getElem_set]
    split
    next => rfl
    next hne =>
      exact (spelling_eq_of_sameTokens h hg (harguments _ (List.getElem_mem hi'))
        (harguments' _ (List.getElem_mem hi)) (hsame i _ _ (Ne.symm hne)
          (List.getElem?_eq_getElem hi') (List.getElem?_eq_getElem hi))).symm

/-- The merged argument of a site whose operands need no parentheses. -/
def mergedArgument (t : Tree) (s : MergeSite) : Phrase :=
  (t.phrase s.first.node).putExpression (.node .conditionalExpression
    [t.phrase s.condition, .word "?", t.phrase s.first.expression, .word ":",
      t.phrase s.second.expression])

/-- What there is to check of a source and of the source that it is rewritten to. -/
structure Sample where
  source : String
  rewritten : String
  /-- The if statement, and the call that stands in its place. -/
  node : NodeId
  merged : NodeId
  site : MergeSite
  patch : Patch

/-- The sample is what the rewrite makes of its source. -/
def Sample.Holds (x : Sample) : Prop :=
  ((parse x.source).toOption.isSome = true ∧ (parse x.rewritten).toOption.isSome = true) ∧
  mergeSite? (treeOf x.source) x.node = some x.site ∧
  Patch.mergeCalls? (treeOf x.source) x.node = some [x.patch] ∧
  replaceSpan? x.source.toList x.patch.span x.patch.text.toList = some x.rewritten.toList ∧
  Span.contains ⟨x.patch.span.start, x.patch.span.start + x.patch.text.utf8ByteSize⟩
    ((treeOf x.rewritten).span x.merged) = true ∧
  ∀ outcome, (treeOf x.rewritten).phrase x.merged =
    ((treeOf x.source).phrase (x.site.call outcome)).putArgument x.site.index
      (mergedArgument (treeOf x.source) x.site)

instance (x : Sample) : Decidable x.Holds := by
  unfold Sample.Holds
  infer_instance

end Effects

end CodeMend
