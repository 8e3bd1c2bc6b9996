import CodeMend.Patch.OfRule
import CodeMend.Proofs.Lists
import CodeMend.Proofs.Text.Sorting
import CodeMend.Proofs.Tree.Views

/-!
# CodeMend — the spans of patches

The patches that a rule makes for a node of a parsed source never end before they start, whatever
the node is: the tokens that they run between stand in the order of the source.

* **`SeparatedList.forward_of_removeItems?`** — the deletions that take items out of a list.
* **`Patch.forward_of_returnOutParameters?`** — the patches of a declaration.
* **`Rule.forward_of_declarationPatches?`**, **`Rule.forward_of_callPatches?`** — all rules.
-/

namespace CodeMend

open Tree

variable {t : Tree} {n : NodeId}

/-- The span does not end before it starts. -/
def Span.Forward (s : Span) : Prop := s.start ≤ s.stop

/-- No patch of a list ends before it starts. -/
def Patch.Forward (patches : List Patch) : Prop := ∀ p ∈ patches, p.span.Forward

namespace Patch

theorem forward_nil : Forward [] := fun _ hp => nomatch hp

theorem forward_cons {p : Patch} {patches : List Patch} (hp : p.span.Forward)
    (h : Forward patches) : Forward (p :: patches) := by
  intro q hq
  rcases List.mem_cons.mp hq with rfl | hq
  · exact hp
  · exact h q hq

theorem forward_append {ps qs : List Patch} (hps : Forward ps) (hqs : Forward qs) :
    Forward (ps ++ qs) := by
  intro p hp
  rcases List.mem_append.mp hp with hp | hp
  · exact hps p hp
  · exact hqs p hp

theorem forward_singleton {p : Patch} (hp : p.span.Forward) : Forward [p] :=
  forward_cons hp forward_nil

theorem forward_insert (offset : Nat) (text : String) : (insert offset text).span.Forward :=
  Nat.le_refl offset

/-! ## Modifiers

A token is deleted with what stands behind it, and a word is replaced at its place. -/

theorem forward_of_deleteToken? (h : InOrder t) {i : TokenId} {p : Patch}
    (hp : deleteToken? t i = some p) : p.span.Forward := by
  simp only [deleteToken?, nextToken?, Option.bind_eq_bind, Option.bind_eq_some_iff,
    Option.pure_def, Option.some.injEq, Option.ite_none_right_eq_some] at hp
  obtain ⟨j, ⟨hj, rfl⟩, rfl⟩ := hp
  show (t.token i).fullStart ≤ (t.token (i + 1)).offset
  calc (t.token i).fullStart
    _ ≤ (t.token (i + 1)).fullStart := h.fullStart_le_fullStart (Nat.le_succ i) hj
    _ ≤ (t.token (i + 1)).offset := Token.fullStart_le_offset _

theorem forward_toOut (i : TokenId) : (toOut t i).span.Forward := Token.offset_le_stop _

end Patch

/-! ## Items of a list

The spans of items start where an item or a comma does and end where the next token does, and both
are in the order of the source. -/

namespace SeparatedList

/-- Spans that are joined because they touch do not end before they start. -/
theorem forward_joinTouching {spans : List Span} (h : ∀ s ∈ spans, s.Forward) :
    ∀ s ∈ joinTouching spans, s.Forward := by
  fun_induction joinTouching spans with
  | case1 a b rest htouch ih =>
    refine ih fun s hs => ?_
    rcases List.mem_cons.mp hs with rfl | hs
    · have ha : a.start ≤ a.stop := h a List.mem_cons_self
      have hb : b.start ≤ b.stop := h b (List.mem_cons_of_mem _ List.mem_cons_self)
      have heq : a.stop = b.start := by simpa using htouch
      show a.start ≤ b.stop
      omega
    · exact h s (List.mem_cons_of_mem _ (List.mem_cons_of_mem _ hs))
  | case2 a b rest htouch ih =>
    intro s hs
    rcases List.mem_cons.mp hs with rfl | hs
    · exact h s List.mem_cons_self
    · exact ih (fun s hs => h s (List.mem_cons_of_mem _ hs)) s hs
  | case3 spans hshort => exact h

/-- The last index that stays is below the bound. -/
theorem lt_of_lastKept? {remove : List Nat} {bound last : Nat}
    (h : lastKept? remove bound = some last) : last < bound := by
  induction bound with
  | zero => cases h
  | succ bound ih =>
    unfold lastKept? at h
    split at h
    · exact Nat.lt_succ_of_lt (ih h)
    · obtain rfl := Option.some.inj h
      exact Nat.lt_succ_self bound

variable (h : InOrder t) (hk : t.kind n = .parameterList ∨ t.kind n = .argumentList)

include h hk

/-- The closing bracket and the comma behind an item: what is deleted between them runs forward. -/
theorem forward_tailSpans {i : TokenId} (hi : i ∈ (ofNode t n).separators) :
    ∀ s ∈ tailSpans (t.token i) (t.token (ofNode t n).close), s.Forward := by
  have hlt : i < (ofNode t n).close := separator_lt_close h hk hi
  have hsize : (ofNode t n).close < t.tokens.size := close_lt_size h
  have hstops := h.fullStop_le_fullStart hlt hsize
  unfold tailSpans
  split
  · intro s hs
    obtain rfl := List.mem_singleton.mp hs
    exact h.fullStart_le_fullStart (Nat.le_of_lt hlt) hsize
  · intro s hs
    rcases List.mem_cons.mp hs with rfl | hs
    · exact Token.offset_le_stop _
    · obtain rfl := List.mem_singleton.mp hs
      exact Nat.le_trans hstops (Token.fullStart_le_offset _)

/-- An item with the comma behind it. -/
theorem forward_item_separator {k : Nat} {m : NodeId} {i : TokenId}
    (hm : (ofNode t n).items[k]? = some m) (hi : (ofNode t n).separators[k]? = some i) :
    (t.token (t.firstToken m)).fullStart ≤ (t.token i).fullStop := by
  have hlt : t.firstToken m < i := item_lt_separator h hk hm hi
  have hclose : i < (ofNode t n).close := separator_lt_close h hk (List.mem_of_getElem? hi)
  have hsize : i < t.tokens.size := Nat.lt_trans hclose (close_lt_size h)
  exact Nat.le_trans (h.fullStart_le_fullStart (Nat.le_of_lt hlt) hsize)
    (Token.fullStart_le_fullStop _)

/-- **The deletions that take items out of a list run forward.** -/
theorem forward_of_removeItems? {remove : List Nat} {patches : List Patch}
    (hpatches : (ofNode t n).removeItems? t remove = some patches) : Patch.Forward patches := by
  unfold removeItems? at hpatches
  simp only [Option.ite_none_left_eq_some, Option.some.injEq, Bool.or_eq_true, beq_iff_eq,
    bne_iff_ne, not_or, Decidable.not_not] at hpatches
  obtain ⟨⟨⟨hcount, hseparators⟩, -⟩, rfl⟩ := hpatches
  -- every index below the last one has an item and a comma
  have hitem : ∀ {k : Nat}, k < (ofNode t n).items.length →
      (ofNode t n).items[k]? = some ((ofNode t n).items.getD k 0) := by
    intro k hlt
    rw [List.getElem?_eq_getElem hlt, List.getD_eq_getElem?_getD, List.getElem?_eq_getElem hlt]
    rfl
  have hseparator : ∀ {k : Nat}, k + 1 < (ofNode t n).items.length →
      (ofNode t n).separators[k]? = some ((ofNode t n).separators.getD k 0) := by
    intro k hlt
    have hlt' : k < (ofNode t n).separators.length := by omega
    rw [List.getElem?_eq_getElem hlt', List.getD_eq_getElem?_getD, List.getElem?_eq_getElem hlt']
    rfl
  suffices hspans : ∀ s ∈ removedSpans t (ofNode t n) remove, s.Forward by
    intro p hp
    obtain ⟨s, hs, rfl⟩ := List.mem_map.mp hp
    exact hspans s hs
  unfold removedSpans
  split
  · intro s hs
    obtain rfl := List.mem_singleton.mp hs
    have hfirst := List.mem_of_getElem? (hitem (Nat.pos_of_ne_zero hcount))
    exact h.fullStart_le_fullStart (Nat.le_of_lt (item_lt_close h hk hfirst)) (close_lt_size h)
  · rename_i last hlast
    have hbound := lt_of_lastKept? hlast
    refine forward_joinTouching fun s hs => ?_
    rw [mem_sortStable] at hs
    rcases List.mem_append.mp hs with hs | hs
    · obtain ⟨k, hk', rfl⟩ := List.mem_map.mp hs
      have hlt : k < last := List.mem_range.mp (List.mem_filter.mp hk').1
      exact forward_item_separator h hk (hitem (by omega)) (hseparator (by omega))
    · split at hs
      · rename_i hmore
        exact forward_tailSpans h hk (List.mem_of_getElem? (hseparator hmore)) s hs
      · cases hs

end SeparatedList

/-! ## Bodies

Statements are put in at a place, so that their spans are empty, or they take the place of something
with a start and an end of its own. -/

namespace Patch

theorem forward_fillEmptyBody (h : InOrder t) {body : NodeId} (hk : t.kind body = .block)
    (lines : List String) : (fillEmptyBody t body lines).span.Forward := by
  have hlt := h.firstToken_lt_lastToken_of_block hk
  have hsize := (h.firstToken_le_lastToken body).2
  unfold fillEmptyBody
  by_cases hline : Trivia.hasEndOfLine (t.token (t.firstToken body)).trailing = true
  · simp only [hline, if_true]
    exact forward_insert _ _
  · simp only [hline]
    show (t.token (t.firstToken body)).stop ≤ (t.token (t.lastToken body)).offset
    calc (t.token (t.firstToken body)).stop
      _ ≤ (t.token (t.firstToken body)).fullStop := Token.stop_le_fullStop _
      _ ≤ (t.token (t.lastToken body)).fullStart := h.fullStop_le_fullStart hlt hsize
      _ ≤ (t.token (t.lastToken body)).offset := Token.fullStart_le_offset _

/-- Around the statements of a body there are insertions only. -/
theorem forward_wrapStatements (body first last : NodeId) (declarations : List String)
    (returning : String) : Forward (wrapStatements t body first last declarations returning) := by
  unfold wrapStatements
  refine forward_cons ?_ ?_
  · split <;> exact forward_insert _ _
  · split
    · exact forward_nil
    · split <;> exact forward_singleton (forward_insert _ _)

theorem forward_bodyPatches (h : InOrder t) {body : NodeId} (hk : t.kind body = .block)
    (declarations : List String) (value : String) :
    Forward (bodyPatches t body declarations value) := by
  unfold bodyPatches
  refine forward_append (fun p hp => ?_) ?_
  · obtain ⟨m, -, rfl⟩ := List.mem_map.mp hp
    exact forward_insert _ _
  · split
    · exact forward_wrapStatements _ _ _ _ _
    · exact forward_singleton (forward_fillEmptyBody h hk _)

/-- The patches of a declaration that returns its parameters. -/
theorem forward_of_returnOutParameters? (h : InOrder t) {indices : List Nat}
    {type value : List OutParameter → String} {patches : List Patch}
    (hpatches : returnOutParameters? t n indices type value = some patches) : Forward patches := by
  simp only [returnOutParameters?, Option.bind_eq_bind, Option.bind_eq_some_iff,
    Option.pure_def] at hpatches
  obtain ⟨v, hv, outs, -, body, hbody, hrest⟩ := hpatches
  obtain ⟨hlist, hblock⟩ := MethodView.kinds hv
  split at hrest
  · simp at hrest
  simp only [Option.bind_eq_some_iff, Option.some.injEq] at hrest
  obtain ⟨removals, hremovals, rfl⟩ := hrest
  have hforward := SeparatedList.forward_of_removeItems? h (.inl hlist) hremovals
  exact forward_append (forward_cons (h.span_le _) hforward)
    (forward_bodyPatches h (hblock body hbody) _ _)

/-- The patches of a call that assigns its result. -/
theorem forward_of_assignResult? (h : InOrder t) {positions : List Nat}
    {target : List String → String} {patches : List Patch}
    (hpatches : assignResult? t n positions target = some patches) : Forward patches := by
  simp only [assignResult?, Option.bind_eq_bind, Option.bind_eq_some_iff, Option.pure_def,
    Option.some.injEq] at hpatches
  obtain ⟨targets, -, v, hv, removals, hremovals, rfl⟩ := hpatches
  obtain ⟨-, hlist, harguments⟩ := InvocationView.arguments_eq hv
  rw [harguments] at hremovals
  have hforward := SeparatedList.forward_of_removeItems? h (.inr hlist) hremovals
  exact forward_append hforward (forward_singleton (forward_insert _ _))

/-! ## Patches of one expression or statement

A whole node gives way, and its span runs forward as that of every node does. -/

theorem forward_of_unwrapArgument? (h : InOrder t) {patches : List Patch}
    (hpatches : unwrapArgument? t n = some patches) : Forward patches := by
  unfold unwrapArgument? at hpatches
  split at hpatches
  · cases hpatches
  simp only [Option.bind_eq_bind, Option.bind_eq_some_iff, Option.pure_def] at hpatches
  obtain ⟨v, -, hpatches⟩ := hpatches
  split at hpatches
  · simp at hpatches
  simp only [Option.bind_eq_some_iff] at hpatches
  obtain ⟨a, -, hpatches⟩ := hpatches
  split at hpatches
  · simp at hpatches
  obtain rfl := Option.some.inj hpatches
  exact forward_singleton (h.fullSpan_le n)

theorem forward_of_mergeCalls? (h : InOrder t) {patches : List Patch}
    (hpatches : mergeCalls? t n = some patches) : Forward patches := by
  unfold mergeCalls? at hpatches
  split at hpatches
  · simp only [mergeIf?, Option.bind_eq_bind, Option.bind_eq_some_iff, Option.pure_def,
      Option.some.injEq] at hpatches
    obtain ⟨-, -, -, -, -, -, -, -, -, -, -, -, rfl⟩ := hpatches
    exact forward_singleton (h.span_le n)
  · simp only [mergeConditional?, Option.bind_eq_bind, Option.bind_eq_some_iff,
      Option.pure_def] at hpatches
    obtain ⟨_, -, _, -, hpatches⟩ := hpatches
    split at hpatches
    · simp at hpatches
    simp only [Option.bind_eq_some_iff, Option.some.injEq] at hpatches
    obtain ⟨_, -, rfl⟩ := hpatches
    exact forward_singleton (h.span_le n)
  · cases hpatches

end Patch

/-! ## All rules

The patches of every rule are made of the ones above. -/

namespace Rule

/-- **The patches of the node of a finding run forward.** -/
theorem forward_of_declarationPatches? (h : InOrder t) {r : Rule} {parameters : List Nat}
    {patches : List Patch} (hpatches : r.declarationPatches? t n parameters = some patches) :
    Patch.Forward patches := by
  cases r with
  | unneededRef =>
    simp only [declarationPatches?, Option.bind_eq_bind, Option.bind_eq_some_iff, Option.pure_def,
      Option.some.injEq] at hpatches
    obtain ⟨_, -, _, -, p, hp, rfl⟩ := hpatches
    exact Patch.forward_singleton (Patch.forward_of_deleteToken? h hp)
  | refAsOut =>
    simp only [declarationPatches?, Option.bind_eq_bind, Option.bind_eq_some_iff, Option.pure_def,
      Option.some.injEq] at hpatches
    obtain ⟨_, -, i, -, rfl⟩ := hpatches
    exact Patch.forward_singleton (Patch.forward_toOut i)
  | duplicateCall => exact Patch.forward_of_mergeCalls? h hpatches
  | redundantConversion => exact Patch.forward_of_unwrapArgument? h hpatches
  | outAsResult =>
    simp only [declarationPatches?, Patch.returnOne?, Option.ite_none_left_eq_some] at hpatches
    exact Patch.forward_of_returnOutParameters? h hpatches.2
  | outsAsTuple =>
    simp only [declarationPatches?, Patch.returnTuple?, Option.ite_none_left_eq_some] at hpatches
    exact Patch.forward_of_returnOutParameters? h hpatches.2

/-- **The patches of a call of the changed method run forward.** -/
theorem forward_of_callPatches? (h : InOrder t) {r : Rule} {positions : List Nat}
    {patches : List Patch} (hpatches : r.callPatches? t n positions = some patches) :
    Patch.Forward patches := by
  cases r with
  | unneededRef =>
    simp only [callPatches?, Option.bind_eq_bind, Option.bind_eq_some_iff, Option.pure_def,
      Option.some.injEq] at hpatches
    obtain ⟨_, -, _, -, p, hp, rfl⟩ := hpatches
    exact Patch.forward_singleton (Patch.forward_of_deleteToken? h hp)
  | refAsOut =>
    simp only [callPatches?, Option.bind_eq_bind, Option.bind_eq_some_iff, Option.pure_def,
      Option.some.injEq] at hpatches
    obtain ⟨_, -, i, -, rfl⟩ := hpatches
    exact Patch.forward_singleton (Patch.forward_toOut i)
  | duplicateCall => cases hpatches
  | redundantConversion => cases hpatches
  | outAsResult => exact Patch.forward_of_assignResult? h hpatches
  | outsAsTuple => exact Patch.forward_of_assignResult? h hpatches

end Rule

end CodeMend
