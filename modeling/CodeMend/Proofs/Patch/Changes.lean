import CodeMend.Proofs.Binding.References
import CodeMend.Proofs.Patch.Remarks
import CodeMend.Proofs.Text.Batches

/-!
# CodeMend — rewrites that change the text

A conversion gives way to its argument, and two calls to one.  What comes to stand in the text is
never what stood there: the argument is shorter than the call, and of the two names of the method
only one is left.  Parentheses and blanks may be added on the way, so it is letters that are counted
for the calls.

* **`Patch.Alters`** — a patch that puts another text in the place of the one it finds.
* **`letters`**, **`lettersBefore`** — the letters of a text, and those of a source up to an offset.
* **`Patch.unwrapArgument?_alters`**, **`Patch.mergeCalls?_alters`** — the two rewrites.
-/

namespace CodeMend

open Tree Effects

variable {source : String} {t : Tree} {n : NodeId} {i : TokenId}

/-- The patch puts another text in the place of the one that it finds, and asks for no tidying. -/
structure Patch.Alters (patch : Patch) (source : String) : Prop where
  plain : patch.tidy = false
  text : ∃ old, extract? source patch.span.start patch.span.stop = some old ∧ patch.text ≠ old

/-- Such a patch changes the source. -/
theorem Patch.Alters.ne_of_replaceSpan? {patch : Patch} (h : patch.Alters source)
    {cs : List Char} (hcs : replaceSpan? source.toList patch.span patch.text.toList = some cs) :
    cs ≠ source.toList := by
  obtain ⟨old, hold, hne⟩ := h.text
  obtain ⟨a, c, hsource, hstart, hstop⟩ := extract?_eq_some_iff.mp hold
  rw [hsource, replaceSpan?_append _ _ _ _ _ hstart.symm hstop.symm] at hcs
  obtain rfl := Option.some.inj hcs
  rw [hsource, List.append_assoc]
  intro heq
  have htext := List.append_cancel_right (List.append_cancel_left heq)
  exact hne (String.toList_inj.mp htext)

/-! ## Letters

To see that a rewrite changes the text at all, it is enough to count something that becomes less.
The characters that can start a name are such a thing: parentheses and blanks, which a rewrite adds,
have none of them. -/

section Letters

variable {cs a b : List Char} {j k : Nat}

/-- How many characters of a text can start a name. -/
def letters (cs : List Char) : Nat := cs.countP Lexer.isNameStart

theorem letters_append (a b : List Char) : letters (a ++ b) = letters a + letters b :=
  List.countP_append

/-- How many letters of a text start in front of an offset. -/
def lettersBefore : List Char → Nat → Nat
  | [], _ => 0
  | c :: cs, k => if k = 0 then 0 else letters [c] + lettersBefore cs (k - c.utf8Size)

theorem lettersBefore_mono (cs : List Char) (h : j ≤ k) :
    lettersBefore cs j ≤ lettersBefore cs k := by
  induction cs generalizing j k with
  | nil => exact Nat.le_refl 0
  | cons c cs ih =>
    rw [lettersBefore, lettersBefore]
    split
    · exact Nat.zero_le _
    · rw [if_neg (by omega)]
      exact Nat.add_le_add_left (ih (Nat.sub_le_sub_right h _)) _

theorem lettersBefore_append (a b : List Char) :
    lettersBefore (a ++ b) (byteLength a) = letters a := by
  induction a with
  | nil => cases b <;> rfl
  | cons c a ih =>
    have hpos := c.utf8Size_pos
    rw [List.cons_append, byteLength_cons, lettersBefore, if_neg (by omega),
      Nat.add_sub_cancel_left, ih, ← letters_append, List.singleton_append]

/-- The letters of a part of a source are those that start within it. -/
theorem lettersBefore_add {text : String} (h : extract? source j k = some text) :
    lettersBefore source.toList j + letters text.toList = lettersBefore source.toList k := by
  obtain ⟨a, c, hsource, rfl, rfl⟩ := extract?_eq_some_iff.mp h
  rw [hsource, lettersBefore_append, ← byteLength_append, ← List.append_assoc,
    lettersBefore_append, letters_append]

end Letters

/-- A name has a letter. -/
theorem Word.letters_pos {b : Bool} {c : Char} {w rest : List Char}
    (h : Word b c w .identifier rest) : 0 < letters (c :: w) := by
  have hname := Lexer.name?_of_scanToken h.scan
  refine List.countP_pos_iff.mpr ?_
  unfold Lexer.name? at hname
  split at hname
  · -- the letter stands behind the mark for names that are spelled like keywords
    split at hname
    next d rest' heq =>
      obtain ⟨hd, hlength⟩ := Option.ite_none_right_eq_some.mp hname
      cases w with
      | nil => exact absurd (Option.some.inj hlength) (by rw [List.length_nil]; omega)
      | cons e w =>
        obtain ⟨rfl, -⟩ := List.cons.inj heq
        exact ⟨e, by simp, hd⟩
    next => cases hname
  · obtain ⟨hc, -⟩ := Option.ite_none_right_eq_some.mp hname
    exact ⟨c, List.mem_cons_self, hc⟩

/-- The letters of a name between two offsets. -/
theorem lettersBefore_lt_of_name (ht : parse source = .ok t) (hi : i + 1 < t.tokens.size)
    (hk : (t.token i).kind = .identifier) :
    lettersBefore source.toList (t.token i).offset <
      lettersBefore source.toList (t.token i).stop := by
  obtain ⟨A, b, c, w, back, -, -, htext, hword⟩ := exists_word_of_parse ht hi
  rw [hk] at hword
  have hpos := hword.letters_pos
  have hadd := lettersBefore_add (extract?_textRange ht (Nat.le_refl i) (Nat.lt_of_succ_lt hi))
  rw [textRange, if_pos (Nat.le_refl i), htext] at hadd
  omega

/-! ## The order of tokens

Tokens are ordered by their places, so the letters of one token are not among those of another. -/

namespace Tree.InOrder

variable {j : TokenId} {m : NodeId}

/-- A token ends before the ones behind it start. -/
theorem stop_le_offset (h : InOrder t) (hij : i < j) (hj : j < t.tokens.size) :
    (t.token i).stop ≤ (t.token j).offset :=
  calc (t.token i).stop
    _ ≤ (t.token i).fullStop := Token.stop_le_fullStop _
    _ ≤ (t.token j).fullStart := h.fullStop_le_fullStart hij hj
    _ ≤ (t.token j).offset := Token.fullStart_le_offset _

/-- The name of a call stands in front of what is passed to it. -/
theorem name_lt_argument (h : InOrder t) {v : InvocationView} {a : ArgumentView} {k : Nat}
    (hv : InvocationView.ofNode? t n = some v) (hi : References.nameToken? t n = some i)
    (ha : (v.argumentViews t)[k]? = some a) :
    (t.token i).kind = .identifier ∧ t.firstToken n ≤ i ∧ i < t.firstToken a.expression ∧
      t.lastToken a.expression ≤ t.lastToken n := by
  obtain ⟨hmem, hlist, -⟩ := InvocationView.arguments_eq hv
  have hnodes : t.childNodes n = [v.callee, v.arguments.node] := by
    rw [childNodes, v.children_eq h hv]
    rfl
  obtain ⟨x, rfl, hx, hunder⟩ := References.exists_simpleName hi
  have hplain : t.kind x ≠ .argumentList ∧ t.kind x ≠ .argument := by
    rcases hx with hx | hx <;> simp [hx]
  -- the name hangs under what is called
  have hname : t.firstToken v.callee ≤ t.firstToken x ∧ t.lastToken x ≤ t.lastToken v.callee := by
    rw [hnodes] at hunder
    rcases hunder with hunder | ⟨c, hc, hunder, -⟩
    · rcases List.mem_pair.mp hunder with rfl | rfl
      · exact ⟨Nat.le_refl _, Nat.le_refl _⟩
      · exact absurd hlist hplain.1
    · rcases List.mem_pair.mp hc with rfl | rfl
      · exact h.child_tokens_le hunder
      · exact absurd (h.parsed.kind_of_mem_arguments (by rw [hlist]; decide) x hunder) hplain.2
  obtain ⟨c, hexpression, hc, -⟩ := Patch.mem_of_argumentViews hv ha
  have hcallee : t.firstToken n ≤ t.firstToken v.callee :=
    (h.child_tokens_le (by rw [hnodes]; exact List.mem_cons_self)).1
  have hpairs := h.childNodes_pairwise n
  rw [hnodes] at hpairs
  have hgap := (List.pairwise_cons.mp hpairs).1 _ (List.mem_singleton_self _)
  have hunder := h.child_tokens_le hexpression
  have hunder' := h.child_tokens_le hc
  refine ⟨?_, Nat.le_trans hcallee hname.1, ?_, ?_⟩
  · obtain ⟨j, cs, hchildren, hidentifier⟩ := References.exists_identifier h hx
    rw [h.firstToken_eq hchildren]
    exact beq_iff_eq.mp hidentifier
  · calc t.firstToken x
      _ ≤ t.lastToken x := (h.firstToken_le_lastToken x).1
      _ ≤ t.lastToken v.callee := hname.2
      _ < t.firstToken v.arguments.node := hgap
      _ ≤ t.firstToken c := hunder'.1
      _ ≤ t.firstToken a.expression := hunder.1
  · calc t.lastToken a.expression
      _ ≤ t.lastToken c := hunder.2
      _ ≤ t.lastToken v.arguments.node := hunder'.2
      _ ≤ t.lastToken n := (h.child_tokens_le hmem).2

end Tree.InOrder

namespace Patch

variable {patches : List Patch}

/-! ## Conversions

The text that is put in consists of parts of the call, and it lacks the tokens around the argument.
-/

theorem add_utf8ByteSize_of_extract? {j k : Nat} {text : String}
    (h : extract? source j k = some text) : j + text.utf8ByteSize = k := by
  obtain ⟨a, c, -, rfl, hk⟩ := extract?_eq_some_iff.mp h
  rwa [byteLength_toList] at hk

/-- The text of a token is not empty, and its trivia fills the rest of its full span. -/
theorem extents_of_token (ht : parse source = .ok t) (hi : i + 1 < t.tokens.size) :
    (t.token i).offset < (t.token i).stop ∧
      (t.token i).fullStart + (Trivia.render (t.token i).leading).utf8ByteSize =
        (t.token i).offset ∧
      (t.token i).stop + (Trivia.render (t.token i).trailing).utf8ByteSize =
        (t.token i).fullStop := by
  have hsize := Nat.lt_of_succ_lt hi
  exact ⟨offset_lt_stop (text_ne_empty_of_parse ht hi),
    add_utf8ByteSize_of_extract? (extract?_leading ht hsize),
    add_utf8ByteSize_of_extract? (extract?_trailing ht hsize)⟩

/-- **A conversion is replaced by something shorter**: all that is put in place stands in the call,
and three tokens of the call are gone. -/
theorem unwrapArgument?_alters (ht : parse source = .ok t)
    (hpatches : unwrapArgument? t n = some patches) :
    ∃ patch, patches = [patch] ∧ patch.Alters source := by
  have h := inOrder_of_parse ht
  obtain ⟨v, m, a, text, hv, hitems, ha, href, hname, htext, rfl⟩ :=
    exists_of_unwrapArgument? hpatches
  obtain ⟨hcallee, hopening, hclose, hlast, hfile⟩ := places_of_call h hv hitems ha href hname
  obtain ⟨hle, hsize⟩ := h.firstToken_le_lastToken n
  obtain ⟨A, B, hsource, hstart, hstop⟩ := exists_split_of_range ht hle hsize
  have hfront : byteLength A = (t.fullSpan n).start := by
    rw [Tree.fullSpan, Token.fullStart, ← hstart, Nat.add_sub_cancel]
  have hold : extract? source (t.fullSpan n).start (t.fullSpan n).stop =
      some (t.renderRange (t.firstToken n) (t.lastToken n)) :=
    extract?_eq_some_iff.mpr ⟨A, B, hsource, hfront, hstop⟩
  refine ⟨_, rfl, rfl, _, hold, fun heq => ?_⟩
  -- the parentheses around the argument make up for those of the call
  have htextLength : text.utf8ByteSize ≤ (t.text a.expression).utf8ByteSize + 2 := by
    rcases htext with rfl | rfl
    · exact Nat.le_add_right _ _
    · rw [String.utf8ByteSize_append, String.utf8ByteSize_append]
      show 1 + _ + 1 ≤ _
      omega
  have hclose₁ := Nat.lt_of_le_of_lt (h.firstToken_le_lastToken a.expression).1 hclose
  have hopening₁ := Nat.lt_trans hopening hclose₁
  have hbehind : ∀ j, j < v.arguments.close → j + 1 < t.tokens.size := fun j hj =>
    Nat.lt_trans (Nat.succ_lt_succ hj) hfile
  have hfirst := extents_of_token ht (hbehind _ (Nat.lt_trans hcallee hopening₁))
  have ho := extents_of_token ht (hbehind _ hopening₁)
  have hp := extents_of_token ht (hbehind _ hclose₁)
  have hq := extents_of_token ht (hbehind _ hclose)
  have hc := extents_of_token ht hfile
  have hgap₁ := h.stop_le_offset hcallee (Nat.lt_of_succ_lt (hbehind _ hopening₁))
  have hgap₂ := h.fullStop_le_fullStart hopening (Nat.lt_of_succ_lt (hbehind _ hclose₁))
  have hgap₃ := h.fullStop_le_fullStart hclose (Nat.lt_of_succ_lt hfile)
  have hexpression := add_utf8ByteSize_of_extract? (extract?_span ht a.expression)
  have hcall := add_utf8ByteSize_of_extract? hold
  rw [← heq] at hcall
  simp only [Tree.fullSpan, Tree.span, hlast, String.join_cons, String.join_nil,
    String.utf8ByteSize_append, String.utf8ByteSize_empty] at hcall hexpression
  omega

/-! ## Merged calls

The second call goes, and with it its name, whose letters are in none of the parts that are put
together. -/

/-- Parentheses have no letters. -/
theorem letters_conditionalPart (t : Tree) (n : NodeId) (isCondition : Bool) :
    letters (conditionalPart t n isCondition).toList = letters (t.text n).toList := by
  rcases conditionalPart_eq t n isCondition with heq | heq
  · rw [heq]
  · rw [heq, String.toList_append, String.toList_append, letters_append, letters_append]
    exact Nat.zero_add _

/-- The letters of a conditional are those of its operands. -/
theorem letters_conditionalText (t : Tree) (s : MergeSite) :
    letters (s.conditionalText t).toList = letters (t.text s.condition).toList +
      letters (t.text s.first.expression).toList + letters (t.text s.second.expression).toList := by
  have hmark : letters " ? ".toList = 0 ∧ letters " : ".toList = 0 := by decide
  simp only [MergeSite.conditionalText, String.toList_append, letters_append,
    letters_conditionalPart, hmark]
  omega

/-- No comment starts where a node does. -/
theorem not_opensComment_text (ht : parse source = .ok t)
    (hn : t.firstToken n + 1 < t.tokens.size) : ¬ OpensComment (t.text n).toList := by
  intro hopens
  obtain ⟨A, b, c, w, back, hsource, hA, -, hword⟩ := exists_word_of_parse ht hn
  obtain ⟨A', C, hsource', hstart, -⟩ := extract?_eq_some_iff.mp (extract?_span ht n)
  obtain ⟨-, hback⟩ := append_inj_of_byteLength (hsource.symm.trans hsource')
    (hA.trans hstart.symm)
  exact hword.not_opensComment (hback ▸ hopens.append C)

/-- **The name of the second call is not among the parts of the new text**, which follow one another
in the source. -/
theorem letters_mergedText_lt {s : MergeSite} {front back : String} (ht : parse source = .ok t)
    (hs : mergeSite? t n = some s) (hi : References.nameToken? t s.whenFalse = some i)
    (hfront : extract? source (t.span (keptNode t n s)).start (t.span s.first.expression).start =
      some front)
    (hback : extract? source (t.span s.first.expression).stop (t.span (keptNode t n s)).stop =
      some back) :
    letters front.toList + letters (s.conditionalText t).toList + letters back.toList <
      letters (t.text n).toList := by
  have h := inOrder_of_parse ht
  obtain ⟨hbranches, -, w, -, hw, -, hb⟩ := views_of_mergeSite? hs
  have hplaced := placed_of_branches? h hbranches
  obtain ⟨hends, -⟩ := places_of_mergeSite? h hs
  simp only [List.forall_mem_cons] at hends
  obtain ⟨hkeptEnd, -, -, hotherEnd, -⟩ := hends
  obtain ⟨hidentifier, hname, hargument, hlist⟩ := h.name_lt_argument hw hi hb
  have hbetween : ∀ m, t.firstToken m ≤ t.lastToken m := fun m =>
    (h.firstToken_le_lastToken m).1
  have hsize : i + 1 < t.tokens.size :=
    Nat.lt_of_le_of_lt (Nat.succ_le_succ (hargument.le.trans (hbetween _))) hotherEnd
  have hstart := lettersBefore_mono source.toList
    (h.offset_le_offset (h.child_tokens_le hplaced.condition_mem).1 (h.firstToken_lt _))
  have hkept := lettersBefore_mono source.toList
    (h.stop_le_offset hplaced.condition_lt_kept
      (Nat.lt_of_le_of_lt (hbetween _) (Nat.lt_of_succ_lt hkeptEnd)))
  have hcalls := lettersBefore_mono source.toList
    (h.stop_le_offset (hplaced.kept_lt_call.trans_le hname) (Nat.lt_of_succ_lt hsize))
  -- All other parts are copied once at most, so one letter that is left out makes the text shorter.
  have hletter := lettersBefore_lt_of_name ht hsize hidentifier
  have hargument := lettersBefore_mono source.toList
    (h.stop_le_offset hargument (Nat.lt_of_le_of_lt (hbetween _) (Nat.lt_of_succ_lt hotherEnd)))
  have hstop := lettersBefore_mono source.toList
    (h.stop_le_stop (hlist.trans hplaced.call_le) (h.firstToken_le_lastToken n).2)
  have htext := fun m => lettersBefore_add (extract?_span ht m)
  have hwhole := htext n
  have hcondition := htext s.condition
  have hfirst := htext s.first.expression
  have hother := htext s.second.expression
  have hfront := lettersBefore_add hfront
  have hback := lettersBefore_add hback
  rw [letters_conditionalText]
  simp only [Tree.span] at *
  omega

/-- **Merged calls are replaced by something else**: a comment comes to stand in front, or the name
of the second call is gone. -/
theorem mergeCalls?_alters {s : MergeSite} (ht : parse source = .ok t)
    (hpatches : mergeCalls? t n = some patches) (hs : mergeSite? t n = some s)
    (hi : References.nameToken? t s.whenFalse = some i) :
    ∃ patch, patches = [patch] ∧ patch.Alters source := by
  have h := inOrder_of_parse ht
  obtain ⟨indent, front, back, -, hfront, hback, rfl⟩ := exists_text_of_mergeCalls? hpatches hs
  rw [lifted_eq t n s fun text => text ++ lineEnding t.source ++ indent]
  rw [source_of_parse ht] at hfront hback ⊢
  refine ⟨_, rfl, rfl, _, extract?_span ht n, fun heq => ?_⟩
  cases hlifted : remarksIn t n s .lifted with
  | cons p ps =>
    have hmem : p ∈ remarksIn t n s .lifted := hlifted ▸ List.mem_cons_self
    have hopens := (inPlace_of_mem_placedTrivia ht
      ((remarksIn_sublist h n s .lifted).subset hmem)).opens (lies_of_mem_remarksIn ht hmem)
    have hcondition := (placed_of_branches? h (views_of_mergeSite? hs).1).condition_mem
    have hfirst : t.firstToken n ≤ t.lastToken s.condition :=
      (h.child_tokens_le hcondition).1.trans (h.firstToken_le_lastToken _).1
    refine not_opensComment_text (n := n) ht (Nat.lt_of_le_of_lt (Nat.succ_le_succ hfirst)
      (h.lastToken_add_one_lt_of_child hcondition)) ?_
    rw [← heq, hlifted]
    simp only [List.map_cons, String.join_cons, String.toList_append, List.append_assoc]
    exact hopens.append _
  | nil =>
    have hletters := congrArg (fun text : String => letters text.toList) heq
    simp only [hlifted, List.map_nil, String.join_nil, String.empty_append, String.toList_append,
      letters_append] at hletters
    exact absurd hletters (Nat.ne_of_lt (letters_mergedText_lt ht hs hi hfront hback))

end Patch

end CodeMend
