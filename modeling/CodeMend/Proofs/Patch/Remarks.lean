import CodeMend.Patch.Conversion
import CodeMend.Proofs.Effects.Merging
import CodeMend.Proofs.Plan.Anchors
import CodeMend.Proofs.Plan.Arguments
import CodeMend.Proofs.Tree.Trivia

/-!
# CodeMend — remarks that patches keep

When a conversion gives way to its argument, and two calls to one, the comments and directives among
the rewritten tokens have to find a place in the new text.  A conversion puts together the trivia of
some of its tokens, and what hangs on the others is lost.  Merged calls keep the text of one
statement or call, take the operands over as they stand and lift the comments from elsewhere in
front of it; directives from elsewhere are lost.

* **`Patch.Keeps`** — a patch that can be carried out and whose text carries some remarks.
* **`Patch.leftOut`** — the trivia of a conversion that does not come into the text.
* **`Patch.unwrapArgument?_keeps_comments`** — the comments of a conversion.
* **`Patch.Placed`** — where the parts of a rewrite stand.
* **`Patch.Part`**, **`Patch.remarksIn`** — the parts of the text of a merged call, and the remarks
  that are found in each of them.
* **`Patch.carries_mergedText`**, **`Patch.mergeCalls?_keeps_remarks`** — the remarks of merged
  calls.
* **`Patch.unwrapArgument?_drops_comment`**, **`Patch.mergeCalls?_drops_directive`** — what is lost.
-/

namespace CodeMend

open Tree Production Effects

variable {source : String} {t : Tree} {n : NodeId}

/-- The patch can be carried out, and the pieces are found in the text that it writes, one behind
the other and none of them run on into what follows. -/
def Patch.Keeps (patch : Patch) (source : String) (pieces : List Trivia) : Prop :=
  ∃ front back, replaceSpan? source.toList patch.span patch.text.toList =
      some (front ++ patch.text.toList ++ back) ∧ byteLength front = patch.span.start ∧
    Carries back pieces patch.text.toList

/-! ## The tokens of a call

A call is what it calls and a list of arguments, and its trivia is put together the same way.  For a
list with a single plain argument this tells every token by its part. -/

namespace InvocationView

/-- What stands under a call: what it calls, and the list of its arguments. -/
theorem children_eq {v : InvocationView} (h : InOrder t)
    (hv : InvocationView.ofNode? t n = some v) :
    t.children n = [.node v.callee, .node v.arguments.node] := by
  obtain ⟨hk, list, hchildren⟩ := Anchor.children_of_view h hv
  obtain ⟨hmem, hlist, -⟩ := InvocationView.arguments_eq hv
  obtain ⟨f, l, hnodes, hf, -⟩ := h.parsed.childNodes_invocation hk
  have hboth : t.childNodes n = [v.callee, list] := by
    rw [childNodes, hchildren]
    rfl
  obtain ⟨rfl, rfl⟩ : v.callee = f ∧ list = l := by
    simpa using hboth.symm.trans hnodes
  rw [hboth] at hmem
  rcases List.mem_cons.mp hmem with heq | hmem
  · -- what is called is an expression and no list
    rw [← heq, hlist] at hf
    exact absurd hf (by decide)
  · rw [hchildren, List.mem_singleton.mp hmem]

end InvocationView

/-- The tokens of a call are those of what it calls and of the list of its arguments. -/
theorem tokensOf_invocation {v : InvocationView} (h : InOrder t) (hg : Gapless t)
    (hv : InvocationView.ofNode? t n = some v) :
    t.tokensOf n = t.tokensOf v.callee ++ t.tokensOf v.arguments.node := by
  have hchildren := v.children_eq h hv
  have hn : n < t.nodeCount := by
    refine lt_nodeCount_of_mem_children (c := .node v.callee) ?_
    rw [hchildren]
    exact List.mem_cons_self
  rw [tokensOf_eq_flatMap h hg hn, hchildren]
  simp [tokensUnder]

/-- A node without tokens of its own consists of nodes. -/
theorem children_eq_map_of_childTokens (h : t.childTokens n = []) :
    t.children n = (t.childNodes n).map .node := by
  rw [childTokens] at h
  rw [childNodes]
  generalize t.children n = cs at h ⊢
  induction cs with
  | nil => rfl
  | cons c cs ih =>
    cases c with
    | token i => cases h
    | node m => exact congrArg (Child.node m :: ·) (ih h)

/-- An argument without label and modifier is its expression. -/
theorem ArgumentView.children_eq (h : InOrder t) {a : ArgumentView}
    (ha : ArgumentView.ofNode? t n = some a) (href : a.refKind = none)
    (hname : a.name? t = none) : t.children n = [.node a.expression] := by
  have hlabel : a.nameColon = none := ArgumentView.nameColon_eq_none h.parsed ha hname
  unfold ArgumentView.ofNode? at ha
  split at ha
  · cases ha
  next hk =>
  have hk : t.kind n = .argument := by simpa using hk
  simp only [Option.bind_eq_bind, Option.bind_eq_some_iff, Option.pure_def, Option.some.injEq] at ha
  obtain ⟨e, he, rfl⟩ := ha
  dsimp only at href hlabel ⊢
  obtain ⟨e', -, hnodes | ⟨label, hnodes, hkind⟩⟩ := h.parsed.childNodes_argument hk
  · rw [children_eq_map_of_childTokens (List.head?_eq_none_iff.mp href), hnodes]
    rw [hnodes] at he
    rw [List.mem_singleton.mp (List.mem_of_find?_eq_some he)]
    rfl
  · rw [childOfKind?, hnodes] at hlabel
    simp [hkind] at hlabel

/-- The tokens of a list with one item: the brackets, the item and perhaps a comma. -/
theorem SeparatedList.tokensOf_of_single (h : InOrder t) (hg : Gapless t)
    (hk : t.kind n = .argumentList) {m : NodeId} (hm : (ofNode t n).items = [m]) :
    t.tokensOf n = t.token (ofNode t n).opening ::
      (t.tokensOf m ++ (ofNode t n).separators.map t.token ++ [t.token (ofNode t n).close]) := by
  obtain ⟨mid, halternates, htokens⟩ := exists_tokensOf h hg (.inr hk)
  rw [htokens]
  rw [hm] at halternates
  generalize (ofNode t n).separators = commas at halternates ⊢
  cases halternates with
  | last => simp [tokensUnder]
  | more _ i hnil =>
    cases hnil
    simp [tokensUnder]

/-- The trivia of some tokens, with and without spans. -/
theorem triviaOf_eq_map (ts : List Token) :
    triviaOf ts = (ts.flatMap Token.placedTrivia).map Prod.snd := by
  have htoken : ∀ token : Token,
      token.placedTrivia.map Prod.snd = token.leading ++ token.trailing := by
    intro token
    rw [Token.placedTrivia, List.map_append, Trivia.map_snd_placed, Trivia.map_snd_placed]
  rw [triviaOf, List.map_flatMap]
  simp only [htoken]

/-- The trivia of the tokens of a node: what stands in front of it, between its tokens and behind
it. -/
theorem triviaOf_tokensOf (h : InOrder t) (n : NodeId) : triviaOf (t.tokensOf n) =
    (t.token (t.firstToken n)).leading ++ ((t.interiorTrivia n).map Prod.snd ++
      (t.token (t.lastToken n)).trailing) := by
  rw [triviaOf_eq_map, flatMap_placedTrivia_tokensOf h, List.map_append, List.map_append,
    Trivia.map_snd_placed, Trivia.map_snd_placed]

theorem triviaOf_cons (token : Token) (ts : List Token) :
    triviaOf (token :: ts) = token.leading ++ (token.trailing ++ triviaOf ts) := by
  simp [triviaOf]

theorem triviaOf_append (ts us : List Token) :
    triviaOf (ts ++ us) = triviaOf ts ++ triviaOf us := by
  simp [triviaOf]

namespace Patch

/-! ## Redundant conversions

The text of the patch is made of the argument and of trivia from four places of the call.  What
stands in none of them does not come into the text: that is `leftOut`, and the condition under which
all comments are kept is that no comment is there. -/

/-- The trivia of a call that does not come into the text of the patch: what stands inside of what
is called and in front of the parenthesis behind it, and what stands around a comma behind the
argument. -/
def leftOut (t : Tree) (v : InvocationView) : List Trivia :=
  (t.token (t.firstToken v.callee)).trailing ++ triviaOf (t.tokensOf v.callee).tail ++
    (t.token v.arguments.opening).leading ++ triviaOf (v.arguments.separators.map t.token)

/-- What the patch of a redundant conversion consists of. -/
theorem exists_of_unwrapArgument? {patches : List Patch}
    (h : unwrapArgument? t n = some patches) :
    ∃ v m a text, InvocationView.ofNode? t n = some v ∧ v.arguments.items = [m] ∧
      ArgumentView.ofNode? t m = some a ∧ a.refKind = none ∧ a.name? t = none ∧
      (text = t.text a.expression ∨ text = "(" ++ t.text a.expression ++ ")") ∧
      patches = [⟨t.fullSpan n, String.join [
        Trivia.render (t.token (t.firstToken n)).leading,
        Trivia.render (t.token v.arguments.opening).trailing,
        Trivia.render (t.token (t.firstToken a.expression)).leading, text,
        Trivia.render (t.token (t.lastToken a.expression)).trailing,
        Trivia.render (t.token v.arguments.close).leading,
        Trivia.render (t.token v.arguments.close).trailing], false⟩] := by
  unfold unwrapArgument? at h
  split at h
  · cases h
  simp only [Option.bind_eq_bind, Option.bind_eq_some_iff, Option.pure_def] at h
  obtain ⟨v, hv, h⟩ := h
  split at h
  · simp at h
  next hlength =>
  simp only [Option.bind_eq_some_iff] at h
  obtain ⟨a, ha, h⟩ := h
  split at h
  · simp at h
  next hplain =>
  obtain rfl := Option.some.inj h
  obtain ⟨m, hm⟩ := List.length_eq_one_iff.mp (by simpa using hlength)
  simp only [InvocationView.argument?, hm, Option.bind_eq_bind] at ha
  simp only [Bool.or_eq_true, not_or, Bool.not_eq_true, Option.isSome_eq_false_iff,
    Option.isNone_iff_eq_none] at hplain
  refine ⟨v, m, a, _, hv, hm, ha, hplain.1, hplain.2, ?_, rfl⟩
  split
  · exact .inr rfl
  · exact .inl rfl

/-- The comments of a call with one argument are those that come into the text and those that do
not. -/
theorem comments_of_call (h : InOrder t) (hg : Gapless t) {v : InvocationView} {m : NodeId}
    {a : ArgumentView} (hv : InvocationView.ofNode? t n = some v)
    (hitems : v.arguments.items = [m]) (ha : ArgumentView.ofNode? t m = some a)
    (href : a.refKind = none) (hname : a.name? t = none)
    (hleft : ∀ p ∈ leftOut t v, p.isComment = false) :
    (triviaOf (t.tokensOf n)).filter Trivia.isComment =
      ((t.token (t.firstToken n)).leading ++ ((t.token v.arguments.opening).trailing ++
        ((t.token (t.firstToken a.expression)).leading ++
          ((t.interiorTrivia a.expression).map Prod.snd ++
            ((t.token (t.lastToken a.expression)).trailing ++
              ((t.token v.arguments.close).leading ++
                (t.token v.arguments.close).trailing)))))).filter Trivia.isComment := by
  obtain ⟨-, hkind, hlist⟩ := InvocationView.arguments_eq hv
  have hfirst : t.firstToken n = t.firstToken v.callee := h.firstToken_eq (v.children_eq h hv)
  have hm : (SeparatedList.ofNode t v.arguments.node).items = [m] := by rw [← hlist, hitems]
  have hargument : t.tokensOf m = t.tokensOf a.expression := by
    have hchildren := ArgumentView.children_eq h ha href hname
    have hm : m < t.nodeCount := by
      refine lt_nodeCount_of_mem_children (c := .node a.expression) ?_
      rw [hchildren]
      exact List.mem_cons_self
    rw [tokensOf_eq_flatMap h hg hm, hchildren]
    simp [tokensUnder]
  have hcall : t.tokensOf n = t.token (t.firstToken n) :: (t.tokensOf v.callee).tail ++
      t.token v.arguments.opening :: (t.tokensOf a.expression ++
        v.arguments.separators.map t.token ++ [t.token v.arguments.close]) := by
    rw [tokensOf_invocation h hg hv, SeparatedList.tokensOf_of_single h hg hkind hm, hargument,
      ← hlist, hfirst, ← tokensOf_eq_cons h]
  have hleft : (leftOut t v).filter Trivia.isComment = [] := by
    rw [List.filter_eq_nil_iff]
    intro p hp
    simp [hleft p hp]
  simp only [leftOut, List.filter_append, List.append_eq_nil_iff, ← hfirst] at hleft
  obtain ⟨⟨⟨htrailing, htail⟩, hopening⟩, hcommas⟩ := hleft
  rw [hcall]
  simp only [triviaOf_append, triviaOf_cons, triviaOf_tokensOf h, List.filter_append,
    List.append_assoc, htrailing, htail, hopening, hcommas, List.nil_append]
  simp [triviaOf]

/-- The parentheses of a call with one argument stand around the argument, behind what is called,
and the call ends with the closing one. -/
theorem places_of_call (h : InOrder t) {v : InvocationView} {m : NodeId} {a : ArgumentView}
    (hv : InvocationView.ofNode? t n = some v) (hitems : v.arguments.items = [m])
    (ha : ArgumentView.ofNode? t m = some a) (href : a.refKind = none)
    (hname : a.name? t = none) :
    t.firstToken n < v.arguments.opening ∧ v.arguments.opening < t.firstToken a.expression ∧
      t.lastToken a.expression < v.arguments.close ∧ t.lastToken n = v.arguments.close ∧
      v.arguments.close + 1 < t.tokens.size := by
  obtain ⟨-, hkind, hlist⟩ := InvocationView.arguments_eq hv
  have hm : m ∈ (SeparatedList.ofNode t v.arguments.node).items := by simp [← hlist, hitems]
  have hexpression := ArgumentView.children_eq h ha href hname
  have hfirst : t.firstToken m = t.firstToken a.expression := h.firstToken_eq hexpression
  have hlast : t.lastToken m = t.lastToken a.expression :=
    h.lastToken_eq (show t.children m = [] ++ [_] from hexpression)
  have hend : t.lastToken n = t.lastToken v.arguments.node :=
    h.lastToken_eq (show t.children n = [.node v.callee] ++ [_] from v.children_eq h hv)
  have hcallee : t.firstToken n < t.firstToken v.arguments.node := by
    have hpairs := h.childNodes_pairwise n
    rw [childNodes, v.children_eq h hv] at hpairs
    calc t.firstToken n
      _ = t.firstToken v.callee := h.firstToken_eq (v.children_eq h hv)
      _ ≤ t.lastToken v.callee := (h.firstToken_le_lastToken v.callee).1
      _ < t.firstToken v.arguments.node :=
        (List.pairwise_cons.mp hpairs).1 _ (List.mem_singleton_self _)
  rw [hlist, ← hfirst, ← hlast]
  exact ⟨hcallee, SeparatedList.opening_lt_item h (.inr hkind) hm,
    SeparatedList.lt_close h (.inr hkind) (.inl ⟨m, hm, rfl⟩), hend,
    (isMark_brackets h (.inr hkind)).2.2⟩

/-- The text of an expression, perhaps in parentheses, carries the trivia in it. -/
theorem carries_operand {ps : List (Span × Trivia)} {e : NodeId} {text : String}
    (ht : parse source = .ok t) (hps : ps.Sublist t.placedTrivia)
    (hin : ∀ p ∈ ps, (t.span e).contains p.1 = true) (he : t.lastToken e + 1 < t.tokens.size)
    (htext : text = t.text e ∨ text = "(" ++ t.text e ++ ")") (rest : List Char) :
    Carries rest (ps.map Prod.snd) text.toList := by
  simp only [Span.contains, Bool.and_eq_true, decide_eq_true_eq] at hin
  have hnode : ∀ rest, Carries rest (ps.map Prod.snd) (t.text e).toList := fun rest =>
    carries_through ht hps he (extract?_span ht e) (fun p hp => (hin p hp).1)
      fun p hp => (hin p hp).2
  rcases htext with rfl | rfl
  · exact hnode rest
  · rw [String.toList_append, String.toList_append]
    exact ((hnode _).prepend _).extend

/-- **The comments of a redundant conversion are kept.**  Whatever call is replaced by its argument:
if no comment stands inside of what is called, in front of the parenthesis behind it or around a
comma behind the argument, all comments of the tokens of the call are found in the new text, in
order, and those that go on to the end of their line have that end behind them. -/
theorem unwrapArgument?_keeps_comments {patches : List Patch} {v : InvocationView}
    (ht : parse source = .ok t) (hpatches : unwrapArgument? t n = some patches)
    (hv : InvocationView.ofNode? t n = some v)
    (hleft : ∀ p ∈ leftOut t v, p.isComment = false) :
    ∃ patch, patches = [patch] ∧
      patch.Keeps source ((triviaOf (t.tokensOf n)).filter Trivia.isComment) := by
  have h := inOrder_of_parse ht
  have hg := gapless_of_parse ht
  obtain ⟨w, m, a, text, hw, hitems, ha, href, hname, htext, rfl⟩ :=
    exists_of_unwrapArgument? hpatches
  obtain rfl := Option.some.inj (hv.symm.trans hw)
  refine ⟨_, rfl, ?_⟩
  rw [comments_of_call h hg hv hitems ha href hname hleft]
  obtain ⟨-, hopening, hclose, hlast, hfile⟩ := places_of_call h hv hitems ha href hname
  obtain ⟨hle, hlt⟩ := h.firstToken_le_lastToken n
  have hbetween := (h.firstToken_le_lastToken a.expression).1
  obtain ⟨A, B, hsource, hstart, hstop⟩ := exists_split_of_range ht hle hlt
  have hfront : byteLength A = (t.token (t.firstToken n)).fullStart := by
    rw [Token.fullStart, ← hstart, Nat.add_sub_cancel]
  have hend : Carries B (t.token v.arguments.close).trailing
      (Trivia.chars (t.token v.arguments.close).trailing) := by
    refine carries_trailing_of_halts ht (Nat.lt_of_succ_lt hfile) fun _ hhalts => ?_
    rw [← List.append_assoc] at hsource
    exact hhalts.halts hsource (by rw [byteLength_append, hstop, hlast])
  refine ⟨A, B, ?_, hfront, Carries.sublist ?_ List.filter_sublist⟩
  · rw [hsource]
    exact replaceSpan?_append _ _ _ _ _ hfront.symm hstop.symm
  · have hsize₁ : t.firstToken n + 1 < t.tokens.size :=
      Nat.lt_of_le_of_lt (Nat.succ_le_succ (hlast ▸ hle)) hfile
    have hsize₂ : t.lastToken a.expression + 2 < t.tokens.size :=
      Nat.lt_of_le_of_lt (Nat.succ_le_succ hclose) hfile
    have hsize₃ : t.firstToken a.expression + 2 < t.tokens.size :=
      Nat.lt_of_le_of_lt (Nat.add_le_add_right hbetween 2) hsize₂
    have hsize₄ : v.arguments.opening + 2 < t.tokens.size :=
      Nat.lt_trans (Nat.add_lt_add_right hopening 2) hsize₃
    simp only [String.join_cons, String.toList_append, String.join_nil, String.toList_empty,
      List.append_nil]
    exact (carries_leading ht hsize₁ _).append ((carries_trailing ht hsize₄ _).append
      ((carries_leading ht (Nat.lt_of_succ_lt hsize₃) _).append
        ((carries_operand ht (interiorTrivia_sublist h _)
          (fun p hp => contains_of_mem_interiorTrivia ht hp) (Nat.lt_of_succ_lt hsize₂) htext
            _).append
          ((carries_trailing ht hsize₂ _).append
            ((carries_leading ht hfile _).append hend)))))

/-- A call with comments around its parentheses and its argument. -/
def commentedArgument : String :=
  "using System; class C \x7b int M(int i) \x7b return\n/*a*/ Convert.ToInt32( // b\n i /*c*/); " ++
    "\x7d \x7d"

theorem commentedArgument_facts :
    (parse commentedArgument).toOption.isSome = true ∧
    unwrapArgument? (treeOf commentedArgument) 14 =
      some [⟨⟨46, 83⟩, "/*a*/  // b\n i /*c*/", false⟩] ∧
    (InvocationView.ofNode? (treeOf commentedArgument) 14 =
      some ⟨14, 12, ⟨15, 17, 19, [16], []⟩⟩ ∧
    ∀ p ∈ leftOut (treeOf commentedArgument) ⟨14, 12, ⟨15, 17, 19, [16], []⟩⟩,
      p.isComment = false) ∧
    (triviaOf ((treeOf commentedArgument).tokensOf 14)).filter Trivia.isComment =
      [⟨.multiLineComment, "/*a*/"⟩, ⟨.singleLineComment, "// b"⟩,
        ⟨.multiLineComment, "/*c*/"⟩] := by
  decide +kernel

/-- The comments of that call are kept. -/
theorem unwrapArgument?_keeps_comments_around : ∃ patch,
    unwrapArgument? (treeOf commentedArgument) 14 = some [patch] ∧
    patch.text = "/*a*/  // b\n i /*c*/" ∧
    patch.Keeps commentedArgument [⟨.multiLineComment, "/*a*/"⟩, ⟨.singleLineComment, "// b"⟩,
      ⟨.multiLineComment, "/*c*/"⟩] := by
  obtain ⟨hsource, hpatches, ⟨hv, hleft⟩, hcomments⟩ := commentedArgument_facts
  obtain ⟨patch, hpatch, hkeeps⟩ :=
    unwrapArgument?_keeps_comments (parse_eq_treeOf hsource) hpatches hv hleft
  obtain rfl := List.singleton_inj.mp hpatch
  rw [hcomments] at hkeeps
  exact ⟨_, hpatches, rfl, hkeeps⟩

/-- A call with a comment inside of what is called. -/
def commentedCallee : String :=
  "using System; class C \x7b int M(int i) \x7b return Convert /*c*/ .ToInt32(i); \x7d \x7d"

theorem commentedCallee_facts :
    (parse commentedCallee).toOption.isSome = true ∧
    unwrapArgument? (treeOf commentedCallee) 14 = some [⟨⟨46, 71⟩, "i", false⟩] ∧
    (triviaOf ((treeOf commentedCallee).tokensOf 14)).filter Trivia.isComment =
      [⟨.multiLineComment, "/*c*/"⟩] := by
  decide +kernel

/-- **A comment inside of what is called is lost.** -/
theorem unwrapArgument?_drops_comment : ¬ ∀ (source : String) (t : Tree) (n : NodeId)
    (patches : List Patch), parse source = .ok t → unwrapArgument? t n = some patches →
      ∃ patch, patches = [patch] ∧
        patch.Keeps source ((triviaOf (t.tokensOf n)).filter Trivia.isComment) := by
  intro h
  obtain ⟨hsource, hpatches, hcomments⟩ := commentedCallee_facts
  obtain ⟨patch, hpatch, _, _, -, -, hcarries⟩ := h _ _ _ _ (parse_eq_treeOf hsource) hpatches
  obtain rfl := List.singleton_inj.mp hpatch
  rw [hcomments] at hcarries
  obtain ⟨front, back, htext⟩ := hcarries.exists_of_mem List.mem_cons_self
  -- the text is shorter than the comment
  have hlength := congrArg List.length htext
  simp only [List.length_append] at hlength
  exact absurd hlength (Nat.ne_of_lt (Nat.lt_of_lt_of_le (by decide +kernel :
    "i".toList.length < "/*c*/".toList.length) (by omega)))

/-! ## Merged calls

The new text is a copy of the node that is kept, with operands from elsewhere in it and the comments
from outside of it in front.  Every remark of the old text is sought in one of six parts; only a
directive outside of the node and the condition is found in none. -/

theorem placedComments_eq (offset : Nat) (ts : List Trivia) : placedComments offset ts =
    ((Trivia.placed offset ts).filter fun p => p.2.isComment).map fun p => (p.1, p.2.text) := by
  induction ts generalizing offset with
  | nil => rfl
  | cons t ts ih =>
    rw [placedComments, Trivia.placed, List.filter_cons, ih]
    split <;> rfl

/-- The comments that the patch looks for are those of the trivia between the tokens. -/
theorem interiorComments_eq (t : Tree) (n : NodeId) : interiorComments t n =
    ((t.interiorTrivia n).filter fun p => p.2.isComment).map fun p => (p.1, p.2.text) := by
  rw [interiorComments, interiorTrivia, List.filter_flatMap, List.map_flatMap]
  refine List.flatMap_congr fun i _ => ?_
  rw [List.filter_append, List.map_append]
  split <;> split <;> simp [placedComments_eq]

theorem exists_of_splice? {source text out : String} {outer inner : Span}
    (h : splice? source outer inner text = some out) :
    ∃ front back, extract? source outer.start inner.start = some front ∧
      extract? source inner.stop outer.stop = some back ∧ out = front ++ text ++ back := by
  simp only [splice?, Option.bind_eq_bind, Option.bind_eq_some_iff, Option.pure_def,
    Option.some.injEq] at h
  obtain ⟨front, hfront, back, hback, rfl⟩ := h
  exact ⟨front, back, hfront, hback, rfl⟩

/-- The node whose text a rewrite keeps, but for one argument: the statement of the first call, or
the call itself. -/
def keptNode (t : Tree) (n : NodeId) (s : MergeSite) : NodeId :=
  if t.kind n == .ifStatement then (t.parent? s.whenTrue).getD s.whenTrue else s.whenTrue

/-- An indentation is blanks and tabs. -/
theorem of_indentationAt? {source indent : String} {offset : Nat}
    (h : indentationAt? source offset = some indent) : ∀ c ∈ indent.toList, c = ' ' ∨ c = '\t' := by
  simp only [indentationAt?, Option.bind_eq_bind, Option.bind_eq_some_iff, Option.pure_def,
    Option.some.injEq] at h
  obtain ⟨_, -, _, -, rfl⟩ := h
  intro c hc
  rw [String.toList_ofList] at hc
  simpa using List.all_eq_true.mp List.all_takeWhile c hc

/-- **The text of a merged call**: comments from outside of the node that is kept, and the text of
that node with a conditional in the place of an argument. -/
theorem exists_text_of_mergeCalls? {patches : List Patch} {s : MergeSite}
    (h : mergeCalls? t n = some patches) (hs : mergeSite? t n = some s) :
    ∃ indent front back, (∀ c ∈ indent.toList, c = ' ' ∨ c = '\t') ∧
      extract? t.source (t.span (keptNode t n s)).start (t.span s.first.expression).start =
        some front ∧
      extract? t.source (t.span s.first.expression).stop (t.span (keptNode t n s)).stop =
        some back ∧
      patches = [⟨t.span n, String.join (((interiorComments t n).filter fun c =>
        !(t.span (keptNode t n s)).contains c.1).map fun c =>
          c.2 ++ lineEnding t.source ++ indent) ++ (front ++ s.conditionalText t ++ back),
        false⟩] := by
  obtain ⟨s', call, hs', -, hcall, hpatches⟩ := exists_of_mergeCalls? h
  obtain rfl : s = s' := Option.some.inj (hs.symm.trans hs')
  obtain ⟨front, back, hfront, hback, rfl⟩ := exists_of_splice? hcall
  rcases hpatches with ⟨outer, text, indent, hk, houter, hindent, htext, rfl⟩ |
    ⟨hk, hcomments, rfl⟩
  · have hkept : keptNode t n s = outer := by simp [keptNode, hk, houter]
    obtain ⟨front', back', hfront', hback', rfl⟩ := exists_of_splice? htext
    rw [hkept]
    refine ⟨indent, front' ++ front, back ++ back', of_indentationAt? hindent,
      extract?_append hfront' hfront, extract?_append hback hback', ?_⟩
    simp only [String.append_assoc]
  · have hkept : keptNode t n s = s.whenTrue := by simp [keptNode, hk]
    rw [hkept]
    have hnone : ((interiorComments t n).filter fun c =>
        !(t.span s.whenTrue).contains c.1) = [] := by
      rw [List.filter_eq_nil_iff]
      intro c hc
      simpa using List.any_eq_false.mp hcomments c hc
    refine ⟨"", front, back, nofun, hfront, hback, ?_⟩
    rw [hnone]
    simp

/-- The call of a branch is all that stands under its statement. -/
theorem childNodes_of_branchCall? {branch x : NodeId} {k : NodeKind}
    (h : Check.branchCall? t branch = some (k, x)) :
    ∃ statement, t.childNodes statement = [x] ∧
      (statement = branch ∨ statement ∈ t.childNodes branch) := by
  have honly : ∀ {cs : List NodeId} {c : NodeId}, Overloads.only? cs = some c → cs = [c] := by
    intro cs c hc
    unfold Overloads.only? at hc
    split at hc
    · rw [Option.some.inj hc]
    · cases hc
  have hcall : ∀ statement, (do
        let call ← Overloads.only? (t.childNodes statement)
        if t.kind call == .invocationExpression then return (t.kind statement, call) else none) =
          some (k, x) → t.childNodes statement = [x] := by
    intro statement hcall
    obtain ⟨call, honly', hcall⟩ := Option.bind_eq_some_iff.mp hcall
    obtain ⟨-, hcall⟩ := Option.ite_none_right_eq_some.mp hcall
    obtain ⟨-, rfl⟩ := Prod.mk.inj (Option.some.inj hcall)
    exact honly honly'
  unfold Check.branchCall? at h
  dsimp only at h
  split at h
  · obtain ⟨statement, hstatement, h⟩ := Option.bind_eq_some_iff.mp h
    refine ⟨statement, hcall statement h, .inr ?_⟩
    rw [honly hstatement]
    exact List.mem_singleton_self _
  · obtain ⟨statement, hstatement, h⟩ := Option.bind_eq_some_iff.mp h
    exact ⟨statement, hcall statement h, .inl (Option.some.inj hstatement).symm⟩

/-- The call of a branch stands within the branch, and so does its statement. -/
theorem tokens_of_branchCall? (h : InOrder t) {branch x : NodeId} {k : NodeKind}
    (hcall : Check.branchCall? t branch = some (k, x)) :
    ∃ statement, t.childNodes statement = [x] ∧
      (statement = branch ∨ statement ∈ t.childNodes branch) ∧
      t.firstToken branch ≤ t.firstToken statement ∧
      t.lastToken statement ≤ t.lastToken branch := by
  obtain ⟨statement, hx, hstatement⟩ := childNodes_of_branchCall? hcall
  refine ⟨statement, hx, hstatement, ?_⟩
  rcases hstatement with rfl | hstatement
  · exact ⟨Nat.le_refl _, Nat.le_refl _⟩
  · exact h.child_tokens_le hstatement

/-- **Where the parts of a rewrite stand**: the condition and the node that is kept hang under other
nodes, and the condition, what is kept and the second call follow one another. -/
structure Placed (t : Tree) (n : NodeId) (s : MergeSite) : Prop where
  condition_mem : s.condition ∈ t.childNodes n
  kept_mem : ∃ p, keptNode t n s ∈ t.childNodes p
  call_only : if t.kind n = .ifStatement then t.childNodes (keptNode t n s) = [s.whenTrue]
    else keptNode t n s = s.whenTrue
  condition_lt_kept : t.lastToken s.condition < t.firstToken (keptNode t n s)
  kept_lt_call : t.lastToken (keptNode t n s) < t.firstToken s.whenFalse
  call_le : t.lastToken s.whenFalse ≤ t.lastToken n

/-- An if statement with two calls has the statements of these, the second in a clause of its
own. -/
theorem exists_of_ifCalls? (h : Parsed t) {v : IfView} {x y : NodeId} (hk : t.kind n = .ifStatement)
    (hv : IfView.ofNode? t n = some v) (hcalls : Check.ifCalls? t n = some (x, y)) :
    ∃ clause otherwise rest k k', t.childNodes n = v.condition :: v.statement :: rest ∧
      clause ∈ rest ∧ otherwise ∈ t.childNodes clause ∧
      Check.branchCall? t v.statement = some (k, x) ∧
      Check.branchCall? t otherwise = some (k', y) := by
  obtain ⟨v', hv', hcalls⟩ := Option.bind_eq_some_iff.mp hcalls
  obtain rfl : v = v' := Option.some.inj (hv.symm.trans hv')
  obtain ⟨⟨k, x⟩, hfirst, hcalls⟩ := Option.bind_eq_some_iff.mp hcalls
  obtain ⟨otherwise, helse, hcalls⟩ := Option.bind_eq_some_iff.mp hcalls
  obtain ⟨⟨k', y⟩, hsecond, hcalls⟩ := Option.bind_eq_some_iff.mp hcalls
  obtain ⟨-, hcalls⟩ := Option.ite_none_right_eq_some.mp hcalls
  obtain ⟨rfl, rfl⟩ := Prod.mk.inj (Option.some.inj hcalls)
  obtain ⟨test, first, rest, hnodes⟩ : ∃ test first rest,
      t.childNodes n = test :: first :: rest := by
    obtain ⟨test, first, hnodes | ⟨other, hnodes, -⟩⟩ := h.childNodes_if hk
    · exact ⟨test, first, [], hnodes⟩
    · exact ⟨test, first, [other], hnodes⟩
  obtain ⟨rfl, rfl, helse'⟩ := IfView.parts_eq hv hnodes
  obtain ⟨clause, hclause, hif⟩ := Option.bind_eq_some_iff.mp (helse'.symm.trans helse)
  obtain ⟨-, hif⟩ := Option.ite_none_right_eq_some.mp hif
  exact ⟨clause, otherwise, rest, k, k', hnodes, List.mem_of_mem_head? hclause,
    List.mem_of_mem_head? hif, hfirst, hsecond⟩

/-- Of an if statement the statement of the first call is kept. -/
theorem placed_of_if (h : InOrder t) {s : MergeSite} {v : IfView} (hk : t.kind n = .ifStatement)
    (hv : IfView.ofNode? t n = some v) (hcondition : v.condition = s.condition)
    (hcalls : Check.ifCalls? t n = some (s.whenTrue, s.whenFalse)) : Placed t n s := by
  obtain ⟨clause, otherwise, rest, k, k', hnodes, hclause, hotherwise, hfirst, hsecond⟩ :=
    exists_of_ifCalls? h.parsed hk hv hcalls
  obtain ⟨statement, honly, hstatement, hstart, hstop⟩ := tokens_of_branchCall? h hfirst
  obtain ⟨statement', honly', -, hstart', hstop'⟩ := tokens_of_branchCall? h hsecond
  have hcall : s.whenTrue ∈ t.childNodes statement := by simp [honly]
  have hcall' : s.whenFalse ∈ t.childNodes statement' := by simp [honly']
  have hparent := h.parsed.wellFormed.parent?_eq hcall
  have hkept : keptNode t n s = statement := by simp [keptNode, hk, hparent]
  have hpairs := h.childNodes_pairwise n
  rw [hnodes] at hpairs
  obtain ⟨hafter, hpairs⟩ := List.pairwise_cons.mp hpairs
  have helse := h.child_tokens_le hotherwise
  have hcalled := h.child_tokens_le hcall'
  have hwhole : clause ∈ t.childNodes n := by simp [hnodes, hclause]
  -- The condition, the statement that stays and the other call stand in this order.
  constructor
  case condition_mem => simp [hnodes, hcondition]
  case kept_mem =>
    rw [hkept]
    rcases hstatement with rfl | hstatement
    · exact ⟨n, by simp [hnodes]⟩
    · exact ⟨_, hstatement⟩
  case call_only =>
    rw [if_pos hk, hkept]
    exact honly
  case condition_lt_kept =>
    rw [hkept, ← hcondition]
    exact Nat.lt_of_lt_of_le (hafter _ List.mem_cons_self) hstart
  case kept_lt_call =>
    calc t.lastToken (keptNode t n s)
      _ ≤ t.lastToken v.statement := hkept ▸ hstop
      _ < t.firstToken clause := (List.pairwise_cons.mp hpairs).1 clause hclause
      _ ≤ t.firstToken otherwise := helse.1
      _ ≤ t.firstToken statement' := hstart'
      _ ≤ t.firstToken s.whenFalse := hcalled.1
  case call_le =>
    calc t.lastToken s.whenFalse
      _ ≤ t.lastToken statement' := hcalled.2
      _ ≤ t.lastToken otherwise := hstop'
      _ ≤ t.lastToken clause := helse.2
      _ ≤ t.lastToken n := (h.child_tokens_le hwhole).2

/-- Of a conditional the first call itself is kept. -/
theorem placed_of_conditional (h : InOrder t) {s : MergeSite}
    (hk : t.kind n = .conditionalExpression)
    (hcondition : (t.childNodes n).head? = some s.condition)
    (hcalls : Check.conditionalCalls? t n = some (s.whenTrue, s.whenFalse)) : Placed t n s := by
  have hkept : keptNode t n s = s.whenTrue := by simp [keptNode, hk]
  have hpairs := h.childNodes_pairwise n
  unfold Check.conditionalCalls? at hcalls
  split at hcalls
  next test x y rest hnodes =>
    obtain ⟨-, hcalls⟩ := Option.ite_none_right_eq_some.mp hcalls
    obtain ⟨rfl, rfl⟩ : x = s.whenTrue ∧ y = s.whenFalse := Prod.mk.inj (Option.some.inj hcalls)
    have hwhole : s.whenFalse ∈ t.childNodes n := by simp [hnodes]
    rw [hnodes] at hcondition hpairs
    obtain rfl := Option.some.inj hcondition
    obtain ⟨hafter, hpairs⟩ := List.pairwise_cons.mp hpairs
    constructor
    case condition_mem => simp [hnodes]
    case kept_mem => exact ⟨n, by simp [hkept, hnodes]⟩
    case call_only =>
      rw [if_neg (by simp [hk])]
      exact hkept
    case condition_lt_kept => exact hkept ▸ hafter _ List.mem_cons_self
    case kept_lt_call => exact hkept ▸ (List.pairwise_cons.mp hpairs).1 _ List.mem_cons_self
    case call_le => exact (h.child_tokens_le hwhole).2
  next => cases hcalls

theorem placed_of_branches? (h : InOrder t) {s : MergeSite}
    (hs : branches? t n = some (s.condition, s.whenTrue, s.whenFalse)) : Placed t n s := by
  unfold branches? at hs
  split at hs
  next hk =>
    obtain ⟨v, hv, hs⟩ := Option.bind_eq_some_iff.mp hs
    obtain ⟨⟨x, y⟩, hcalls, hs⟩ := Option.bind_eq_some_iff.mp hs
    obtain ⟨hcondition, rfl, rfl⟩ : v.condition = s.condition ∧ x = s.whenTrue ∧
        y = s.whenFalse := by simpa using hs
    exact placed_of_if h hk hv hcondition hcalls
  next hk =>
    obtain ⟨condition, hcondition, hs⟩ := Option.bind_eq_some_iff.mp hs
    obtain ⟨⟨x, y⟩, hcalls, hs⟩ := Option.bind_eq_some_iff.mp hs
    obtain ⟨rfl, rfl, rfl⟩ : condition = s.condition ∧ x = s.whenTrue ∧ y = s.whenFalse := by
      simpa using hs
    exact placed_of_conditional h hk hcondition hcalls
  next => cases hs

/-- The expression of an argument hangs under its call. -/
theorem mem_of_argumentViews {x : NodeId} {v : InvocationView} {i : Nat} {a : ArgumentView}
    (hv : InvocationView.ofNode? t x = some v) (ha : (v.argumentViews t)[i]? = some a) :
    ∃ c, a.expression ∈ t.childNodes c ∧ c ∈ t.childNodes v.arguments.node ∧
      v.arguments.node ∈ t.childNodes x := by
  obtain ⟨hmem, -, hlist⟩ := InvocationView.arguments_eq hv
  obtain ⟨c, hc, hview⟩ := List.mem_filterMap.mp (List.mem_of_getElem? ha)
  rw [hlist] at hc
  refine ⟨c, ?_, hc, hmem⟩
  unfold ArgumentView.ofNode? at hview
  split at hview
  · cases hview
  simp only [Option.bind_eq_bind, Option.bind_eq_some_iff, Option.pure_def,
    Option.some.injEq] at hview
  obtain ⟨e, he, rfl⟩ := hview
  exact List.mem_of_find?_eq_some he

/-- The calls of a rewrite, and the arguments that differ. -/
theorem views_of_mergeSite? {s : MergeSite} (hs : mergeSite? t n = some s) :
    branches? t n = some (s.condition, s.whenTrue, s.whenFalse) ∧
      ∃ v w, InvocationView.ofNode? t s.whenTrue = some v ∧
        InvocationView.ofNode? t s.whenFalse = some w ∧
        (v.argumentViews t)[s.index]? = some s.first ∧
        (w.argumentViews t)[s.index]? = some s.second := by
  simp only [mergeSite?, Option.bind_eq_bind, Option.bind_eq_some_iff, Option.pure_def,
    Option.some.injEq] at hs
  obtain ⟨⟨condition, x, y⟩, hbranches, v, hv, w, hw, i, -, a, ha, b, hb, rfl⟩ := hs
  exact ⟨hbranches, v, w, hv, hw, ha, hb⟩

/-- The argument of a rewrite that gives way stands within its call. -/
theorem tokens_of_mergeSite? (h : InOrder t) {s : MergeSite} (hs : mergeSite? t n = some s) :
    t.firstToken s.whenTrue ≤ t.firstToken s.first.expression ∧
      t.lastToken s.first.expression ≤ t.lastToken s.whenTrue := by
  obtain ⟨-, v, w, hv, -, ha, -⟩ := views_of_mergeSite? hs
  obtain ⟨c, hexpression, hc, hlist⟩ := mem_of_argumentViews hv ha
  have h₁ := h.child_tokens_le hexpression
  have h₂ := h.child_tokens_le hc
  have h₃ := h.child_tokens_le hlist
  exact ⟨Nat.le_trans h₃.1 (Nat.le_trans h₂.1 h₁.1), Nat.le_trans h₁.2 (Nat.le_trans h₂.2 h₃.2)⟩

/-- The nodes that the text of a merged call is taken from end in front of the end of the file, and
the argument stands within the node that is kept. -/
theorem places_of_mergeSite? (h : InOrder t) {s : MergeSite} (hs : mergeSite? t n = some s) :
    (∀ m ∈ [keptNode t n s, s.condition, s.first.expression, s.second.expression],
      t.lastToken m + 1 < t.tokens.size) ∧
    t.firstToken (keptNode t n s) ≤ t.firstToken s.first.expression ∧
    t.lastToken s.first.expression ≤ t.lastToken (keptNode t n s) := by
  obtain ⟨hbranches, v, w, hv, hw, ha, hb⟩ := views_of_mergeSite? hs
  have hplaced := placed_of_branches? h hbranches
  obtain ⟨p, hkept⟩ := hplaced.kept_mem
  obtain ⟨_, hexpression, -⟩ := mem_of_argumentViews hv ha
  obtain ⟨_, hother, -⟩ := mem_of_argumentViews hw hb
  refine ⟨?_, ?_⟩
  · simp only [List.forall_mem_cons]
    exact ⟨h.lastToken_add_one_lt_of_child hkept,
      h.lastToken_add_one_lt_of_child hplaced.condition_mem,
      h.lastToken_add_one_lt_of_child hexpression, h.lastToken_add_one_lt_of_child hother, by simp⟩
  · have hinside := tokens_of_mergeSite? h hs
    have hcall := hplaced.call_only
    split at hcall
    · have hstatement := h.child_tokens_le (hcall ▸ List.mem_singleton_self s.whenTrue)
      exact ⟨Nat.le_trans hstatement.1 hinside.1, Nat.le_trans hinside.2 hstatement.2⟩
    · rw [hcall]
      exact hinside

/-- The part of the new text in which a remark is found: in front of what is kept, in the text of
the node that is kept around the argument, or in one of the three operands. -/
inductive Part where
  | lifted
  | front
  | condition
  | argument
  | other
  | back
deriving DecidableEq

/-- The parts, in the order of the text. -/
def Part.all : List Part := [.lifted, .front, .condition, .argument, .other, .back]

/-- The part in which a remark of a rewritten node is found. -/
def partOf (t : Tree) (n : NodeId) (s : MergeSite) (p : Span × Trivia) : Part :=
  if (t.span (keptNode t n s)).contains p.1 then
    if p.1.stop ≤ (t.span s.first.expression).start then .front
    else if (t.span s.first.expression).stop ≤ p.1.start then .back
    else .argument
  else if p.2.isComment then .lifted
  else if (t.span s.condition).contains p.1 then .condition
  else .other

/-- The remarks of a rewritten node that are found in a part of the text. -/
def remarksIn (t : Tree) (n : NodeId) (s : MergeSite) (part : Part) : List (Span × Trivia) :=
  ((t.interiorTrivia n).filter fun p => p.2.isRemark).filter fun p => partOf t n s p == part

/-- All remarks of a rewritten node are found somewhere. -/
theorem remarksIn_perm (t : Tree) (n : NodeId) (s : MergeSite) :
    ((Part.all.flatMap (remarksIn t n s)).map Prod.snd).Perm
      (((t.interiorTrivia n).map Prod.snd).filter Trivia.isRemark) := by
  have hall : ∀ part : Part, part ∈ Part.all := by
    intro part
    cases part <;> decide
  rw [List.filter_map]
  exact (flatMap_filter_perm (partOf t n s) (by decide) _ fun p _ => hall _).map _

theorem remarksIn_sublist (h : InOrder t) (n : NodeId) (s : MergeSite) (part : Part) :
    (remarksIn t n s part).Sublist t.placedTrivia :=
  (List.filter_sublist.trans List.filter_sublist).trans (interiorTrivia_sublist h n)

/-- Texts on lines of their own carry what they are the texts of. -/
theorem carries_lines (source indent : String) (ps : List Trivia) (rest : List Char) :
    Carries rest ps
      (String.join (ps.map fun p => p.text ++ lineEnding source ++ indent)).toList := by
  have hline : ∀ x, Halts ((lineEnding source).toList ++ x) := by
    intro x
    unfold lineEnding
    split
    · intro d hd
      obtain rfl := Option.some.inj hd
      rfl
    · intro d hd
      obtain rfl := Option.some.inj hd
      rfl
  induction ps with
  | nil => exact .nil _
  | cons p ps ih =>
    rw [List.map_cons, String.join_cons]
    simp only [String.toList_append, List.append_assoc]
    refine .cons [] (fun _ => ?_) ((ih.prepend _).prepend _)
    rw [List.append_assoc]
    exact hline _

theorem conditionalPart_eq (t : Tree) (n : NodeId) (isCondition : Bool) :
    conditionalPart t n isCondition = t.text n ∨
      conditionalPart t n isCondition = "(" ++ t.text n ++ ")" := by
  unfold conditionalPart
  dsimp only
  split
  · exact .inr rfl
  · exact .inl rfl

/-- Where a remark stands in the source that is found in a part of the text. -/
def Part.Lies (t : Tree) (n : NodeId) (s : MergeSite) (p : Span × Trivia) : Part → Prop
  | .lifted => p.2.isComment = true
  | .front => (t.span (keptNode t n s)).start ≤ p.1.start ∧
      p.1.stop ≤ (t.span s.first.expression).start
  | .condition => (t.span s.condition).contains p.1 = true
  | .argument => (t.span s.first.expression).contains p.1 = true
  | .other => p.2.kind = .directive ∧ (t.span (keptNode t n s)).contains p.1 = false ∧
      (t.span s.condition).contains p.1 = false
  | .back => (t.span s.first.expression).stop ≤ p.1.start ∧
      p.1.stop ≤ (t.span (keptNode t n s)).stop

theorem lies_of_mem_remarksIn (ht : parse source = .ok t) {s : MergeSite} {part : Part}
    {p : Span × Trivia} (hp : p ∈ remarksIn t n s part) : part.Lies t n s p := by
  have h := inOrder_of_parse ht
  have hmem := (remarksIn_sublist h n s part).subset hp
  obtain ⟨hp, hpart⟩ := List.mem_filter.mp hp
  obtain ⟨-, hremark⟩ := List.mem_filter.mp hp
  rw [← beq_iff_eq.mp hpart, partOf]
  split
  next hkept =>
    obtain ⟨hstart, hstop⟩ := Bool.and_eq_true_iff.mp hkept
    split
    next hfront => exact ⟨of_decide_eq_true hstart, hfront⟩
    next hfront =>
      split
      next hback => exact ⟨hback, of_decide_eq_true hstop⟩
      next hback =>
        -- what is neither before the argument nor behind it is between its first and last token
        have hfirst := apart_of_mem_placedTrivia ht hmem (h.firstToken_lt s.first.expression)
        have hlast := apart_of_mem_placedTrivia ht hmem
          (h.firstToken_le_lastToken s.first.expression).2
        have hoffset := Token.offset_le_stop (t.token (t.firstToken s.first.expression))
        have hend := Token.offset_le_stop (t.token (t.lastToken s.first.expression))
        refine Bool.and_eq_true_iff.mpr ⟨decide_eq_true ?_, decide_eq_true ?_⟩
        · exact Nat.le_trans hoffset (hfirst.resolve_left hfront)
        · exact Nat.le_trans (hlast.resolve_right hback) hend
  next hkept =>
    split
    next hcomment => exact hcomment
    next hcomment =>
      split
      next hcondition => exact hcondition
      next hcondition =>
        refine ⟨?_, eq_false_of_ne_true hkept, eq_false_of_ne_true hcondition⟩
        simpa [Trivia.isRemark, hcomment] using hremark

theorem partOf_eq_lifted_iff {s : MergeSite} {p : Span × Trivia} : partOf t n s p = .lifted ↔
    (t.span (keptNode t n s)).contains p.1 = false ∧ p.2.isComment = true := by
  unfold partOf
  grind

/-- The comments that are lifted are those from outside of what is kept. -/
theorem lifted_eq (t : Tree) (n : NodeId) (s : MergeSite) (f : String → String) :
    ((interiorComments t n).filter fun c => !(t.span (keptNode t n s)).contains c.1).map
        (fun c => f c.2) =
      ((remarksIn t n s .lifted).map Prod.snd).map fun p => f p.text := by
  rw [interiorComments_eq, remarksIn, List.filter_map, List.map_map, List.map_map,
    List.filter_filter, List.filter_filter]
  refine congrArg (List.map _) (List.filter_congr fun p _ => ?_)
  rw [Bool.eq_iff_iff]
  simp only [Function.comp_apply, Bool.and_eq_true, Bool.not_eq_true', beq_iff_eq,
    partOf_eq_lifted_iff, Trivia.isRemark, Bool.or_eq_true]
  tauto

/-- **The text of a merged call carries the remarks**, each in its part. -/
theorem carries_mergedText {s : MergeSite} {indent front back : String} (ht : parse source = .ok t)
    (hs : mergeSite? t n = some s)
    (hfront : extract? source (t.span (keptNode t n s)).start (t.span s.first.expression).start =
      some front)
    (hback : extract? source (t.span s.first.expression).stop (t.span (keptNode t n s)).stop =
      some back)
    (hother : ∀ p ∈ remarksIn t n s .other, (t.span s.second.expression).contains p.1 = true)
    (rest : List Char) :
    Carries rest ((Part.all.flatMap (remarksIn t n s)).map Prod.snd)
      (String.join (((remarksIn t n s .lifted).map Prod.snd).map fun p =>
        p.text ++ lineEnding source ++ indent) ++
          (front ++ s.conditionalText t ++ back)).toList := by
  have h := inOrder_of_parse ht
  have hsub := remarksIn_sublist h n s
  have hlies : ∀ {part p}, p ∈ remarksIn t n s part → part.Lies t n s p :=
    fun hp => lies_of_mem_remarksIn ht hp
  obtain ⟨hends, -⟩ := places_of_mergeSite? h hs
  simp only [List.forall_mem_cons] at hends
  obtain ⟨hkeptEnd, hconditionEnd, hargumentEnd, hotherEnd, -⟩ := hends
  have hargumentStart : t.firstToken s.first.expression + 1 < t.tokens.size :=
    Nat.lt_of_le_of_lt (Nat.succ_le_succ (h.firstToken_le_lastToken _).1) hargumentEnd
  simp only [Part.all, List.flatMap_cons, List.flatMap_nil, List.map_append, List.append_nil,
    MergeSite.conditionalText, String.toList_append, List.append_assoc]
  -- Part by part, in the order in which they stand in the new text.
  refine (carries_lines _ _ _ _).append ?_
  refine (carries_upTo ht (hsub .front) hargumentStart hfront (fun p hp => (hlies hp).1)
    fun p hp => (hlies hp).2).append ?_
  refine (carries_operand ht (hsub .condition) (fun p hp => hlies hp) hconditionEnd
    (conditionalPart_eq t _ _) _).append (.prepend ?_ _)
  refine (carries_operand ht (hsub .argument) (fun p hp => hlies hp) hargumentEnd
    (conditionalPart_eq t _ _) _).append (.prepend ?_ _)
  refine (carries_operand ht (hsub .other) hother hotherEnd (conditionalPart_eq t _ _) _).append ?_
  exact carries_through ht (hsub .back) hkeptEnd hback (fun p hp => (hlies hp).1)
    fun p hp => (hlies hp).2

/-- **The remarks of merged calls are kept.**  Whatever if statement or conditional becomes one
call: all comments between its first and its last token are found in the new text, and so are all
directives if each of them stands in what is kept, in the condition or in the argument of the second
call that differs.  What goes on to the end of its line has that end behind it. -/
theorem mergeCalls?_keeps_remarks {patches : List Patch} {s : MergeSite}
    (ht : parse source = .ok t) (hpatches : mergeCalls? t n = some patches)
    (hs : mergeSite? t n = some s)
    (hdirectives : ∀ p ∈ t.interiorTrivia n, p.2.kind = .directive →
      ∃ m ∈ [keptNode t n s, s.condition, s.second.expression], (t.span m).contains p.1 = true) :
    ∃ patch order, patches = [patch] ∧
      order.Perm (((t.interiorTrivia n).map Prod.snd).filter Trivia.isRemark) ∧
      patch.Keeps source order := by
  obtain ⟨indent, front, back, -, hfront, hback, rfl⟩ := exists_text_of_mergeCalls? hpatches hs
  have hother : ∀ p ∈ remarksIn t n s .other,
      (t.span s.second.expression).contains p.1 = true := by
    intro p hp
    obtain ⟨hdirective, hkept, hcondition⟩ := lies_of_mem_remarksIn ht hp
    obtain ⟨hp, -⟩ := List.mem_filter.mp hp
    simpa [hkept, hcondition] using hdirectives p (List.mem_filter.mp hp).1 hdirective
  refine ⟨_, _, rfl, remarksIn_perm t n s, ?_⟩
  obtain ⟨A, C, hsplit, hstart, hstop⟩ := extract?_eq_some_iff.mp (extract?_span ht n)
  rw [lifted_eq t n s fun text => text ++ lineEnding t.source ++ indent]
  rw [source_of_parse ht] at hfront hback ⊢
  refine ⟨A, C, ?_, hstart, carries_mergedText ht hs hfront hback hother C⟩
  rw [hsplit]
  exact replaceSpan?_append _ _ _ _ _ hstart.symm hstop.symm

/-- Calls with comments beside them and directives in the first one. -/
def remarkedCalls : String :=
  "class C \x7b void F(int x) \x7b \x7d void M(bool a) \x7b if (a /*p*/) F(\n#region r\n1\n" ++
    "#endregion\n); else /*q*/ F(2); \x7d \x7d"

theorem remarkedCalls_facts :
    (parse remarkedCalls).toOption.isSome = true ∧
    mergeCalls? (treeOf remarkedCalls) 14 = some [⟨⟨45, 103⟩,
      "/*p*/\n/*q*/\nF(\n#region r\na ? 1 : 2\n#endregion\n);", false⟩] ∧
    mergeSite? (treeOf remarkedCalls) 14 =
      some ⟨15, 18, 25, 0, ⟨20, none, none, 21⟩, ⟨27, none, none, 28⟩⟩ ∧
    (∀ p ∈ (treeOf remarkedCalls).interiorTrivia 14, p.2.kind = .directive →
      ∃ m ∈ [keptNode (treeOf remarkedCalls) 14
          ⟨15, 18, 25, 0, ⟨20, none, none, 21⟩, ⟨27, none, none, 28⟩⟩, 15, 28],
        ((treeOf remarkedCalls).span m).contains p.1 = true) ∧
    (((treeOf remarkedCalls).interiorTrivia 14).map Prod.snd).filter Trivia.isRemark =
      [⟨.multiLineComment, "/*p*/"⟩, ⟨.directive, "#region r"⟩, ⟨.directive, "#endregion"⟩,
        ⟨.multiLineComment, "/*q*/"⟩] := by
  decide +kernel

/-- The remarks of these calls are kept. -/
theorem mergeCalls?_keeps_remarks_region : ∃ patch order,
    mergeCalls? (treeOf remarkedCalls) 14 = some [patch] ∧
    order.Perm [⟨.multiLineComment, "/*p*/"⟩, ⟨.directive, "#region r"⟩,
      ⟨.directive, "#endregion"⟩, ⟨.multiLineComment, "/*q*/"⟩] ∧
    patch.Keeps remarkedCalls order := by
  obtain ⟨hsource, hpatches, hsite, hdirectives, hremarks⟩ := remarkedCalls_facts
  obtain ⟨patch, order, hpatch, hperm, hkeeps⟩ :=
    mergeCalls?_keeps_remarks (parse_eq_treeOf hsource) hpatches hsite hdirectives
  rw [hremarks] at hperm
  exact ⟨patch, order, hpatch ▸ hpatches, hperm, hkeeps⟩

/-- Calls with directives around the first one. -/
def framedCall : String :=
  "class C \x7b void F(int x) \x7b \x7d void M(bool a) \x7b if (a)\n\x7b\n#region r\nF(1);\n" ++
    "#endregion\n\x7d\nelse F(2); \x7d \x7d"

theorem framedCall_facts :
    (parse framedCall).toOption.isSome = true ∧
    mergeCalls? (treeOf framedCall) 14 = some [⟨⟨45, 93⟩, "F(a ? 1 : 2);", false⟩] ∧
    (((treeOf framedCall).interiorTrivia 14).map Prod.snd).filter Trivia.isRemark =
      [⟨.directive, "#region r"⟩, ⟨.directive, "#endregion"⟩] := by
  decide +kernel

/-- **A directive around the first call is lost.** -/
theorem mergeCalls?_drops_directive : ¬ ∀ (source : String) (t : Tree) (n : NodeId)
    (patches : List Patch), parse source = .ok t → mergeCalls? t n = some patches →
      ∃ patch order, patches = [patch] ∧
        order.Perm (((t.interiorTrivia n).map Prod.snd).filter Trivia.isRemark) ∧
        patch.Keeps source order := by
  intro h
  obtain ⟨hsource, hpatches, hremarks⟩ := framedCall_facts
  obtain ⟨patch, order, hpatch, hperm, _, _, -, -, hcarries⟩ :=
    h _ _ _ _ (parse_eq_treeOf hsource) hpatches
  obtain rfl := List.singleton_inj.mp hpatch
  rw [hremarks] at hperm
  obtain ⟨front, back, htext⟩ := hcarries.exists_of_mem (hperm.mem_iff.mpr List.mem_cons_self)
  -- no hash is in the text
  have hhash : '#' ∈ "F(a ? 1 : 2);".toList := htext ▸ by simp
  exact absurd hhash (by decide +kernel)

end Patch

end CodeMend
