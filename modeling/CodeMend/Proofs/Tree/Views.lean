import CodeMend.Proofs.Tree.Order

/-!
# CodeMend — the parts that views pick out

* **`InvocationView.arguments_eq`**, **`IfView.parts_eq`**, **`MethodView.kinds`** — which nodes the
  parts of a call, of an if statement and of a method are.
* **`SeparatedList.item_lt_separator`** and so on — the order of the parts of a list.
-/

namespace CodeMend

open Tree

variable {t : Tree} {n : NodeId}

/-- The expression of an argument stands right under it. -/
theorem ArgumentView.mem_childNodes {view : ArgumentView}
    (h : ArgumentView.ofNode? t n = some view) : view.expression ∈ t.childNodes n := by
  unfold ArgumentView.ofNode? at h
  split at h
  · cases h
  simp only [Option.bind_eq_bind, Option.bind_eq_some_iff, Option.pure_def, Option.some.injEq] at h
  obtain ⟨c, hc, rfl⟩ := h
  exact List.mem_of_find?_eq_some hc

namespace InvocationView

/-- The arguments of a call are those of a list that stands under the call. -/
theorem arguments_eq {v : InvocationView} (h : InvocationView.ofNode? t n = some v) :
    v.arguments.node ∈ t.childNodes n ∧ t.kind v.arguments.node = .argumentList ∧
      v.arguments = .ofNode t v.arguments.node := by
  unfold InvocationView.ofNode? at h
  split at h
  · cases h
  simp only [Option.bind_eq_bind, Option.bind_eq_some_iff, Option.pure_def, Option.some.injEq] at h
  obtain ⟨callee, -, list, hlist, rfl⟩ := h
  have hkind : t.kind list = .argumentList := by simpa using List.find?_some hlist
  exact ⟨List.mem_of_find?_eq_some hlist, hkind, rfl⟩

/-- What is called stands right under the call. -/
theorem callee_mem {v : InvocationView} (h : InvocationView.ofNode? t n = some v) :
    v.callee ∈ t.childNodes n := by
  unfold InvocationView.ofNode? at h
  split at h
  · cases h
  simp only [Option.bind_eq_bind, Option.bind_eq_some_iff, Option.pure_def, Option.some.injEq] at h
  obtain ⟨callee, hcallee, list, -, rfl⟩ := h
  exact List.mem_of_head? hcallee

end InvocationView

namespace IfView

/-- The parts of an if statement are its first nodes. -/
theorem parts_eq {view : IfView} {test first : NodeId} {rest : List NodeId}
    (hview : IfView.ofNode? t n = some view) (hnodes : t.childNodes n = test :: first :: rest) :
    view.condition = test ∧ view.statement = first ∧ view.elseStatement = rest.head?.bind fun c =>
      if t.kind c == .elseClause then (t.childNodes c).head? else none := by
  unfold IfView.ofNode? at hview
  split at hview
  · cases hview
  simp only [hnodes, Option.bind_eq_bind, Option.bind_eq_some_iff, Option.pure_def,
    Option.some.injEq] at hview
  obtain ⟨paren, -, rfl⟩ := hview
  cases rest <;> exact ⟨rfl, rfl, rfl⟩

end IfView

namespace MethodView

/-- The parts that are told by their kinds are of these kinds. -/
def Parts.Sorted (t : Tree) (p : Parts) : Prop :=
  (∀ l, p.parameterList = some l → t.kind l = .parameterList) ∧
    ∀ b, p.body = some b → t.kind b = .block

theorem Parts.Sorted.add {p : Parts} (h : p.Sorted t) (c : Child) : (p.add t c).Sorted t := by
  obtain ⟨hlist, hbody⟩ := h
  cases c with
  | token i =>
    simp only [Parts.add]
    split
    · exact ⟨hlist, hbody⟩
    · split <;> exact ⟨hlist, hbody⟩
  | node m =>
    simp only [Parts.add]
    split
    next hk => exact ⟨hlist, hbody⟩
    next hk => exact ⟨hlist, hbody⟩
    next hk => exact ⟨hlist, hbody⟩
    next hk => exact ⟨fun l hl => Option.some.inj hl ▸ hk, hbody⟩
    next hk => exact ⟨hlist, fun b hb => Option.some.inj hb ▸ hk⟩
    next hk => exact ⟨hlist, hbody⟩
    next => split <;> exact ⟨hlist, hbody⟩

theorem Parts.Sorted.foldl {p : Parts} (h : p.Sorted t) (cs : List Child) :
    (cs.foldl (Parts.add t) p).Sorted t := by
  induction cs generalizing p with
  | nil => exact h
  | cons c cs ih => exact ih (h.add c)

/-- The parameters of a method are a list of parameters, and its body in braces is a block. -/
theorem kinds {v : MethodView} (h : MethodView.ofNode? t n = some v) :
    t.kind v.parameterList = .parameterList ∧ ∀ b, v.body = some b → t.kind b = .block := by
  have hempty : Parts.Sorted t {} := by
    constructor <;> intro m hm <;> cases hm
  obtain ⟨hlist, hbody⟩ := hempty.foldl (t.children n)
  unfold MethodView.ofNode? at h
  split at h
  · cases h
  simp only [Option.bind_eq_bind, Option.bind_eq_some_iff, Option.pure_def, Option.some.injEq] at h
  obtain ⟨type, -, name, -, list, hlist', rfl⟩ := h
  exact ⟨hlist list hlist', hbody⟩

end MethodView

namespace SeparatedList

variable (h : InOrder t) (hk : t.kind n = .parameterList ∨ t.kind n = .argumentList)

include h hk

/-- An item starts before the comma with its index. -/
theorem item_lt_separator {k : Nat} {m : NodeId} {i : TokenId}
    (hm : (ofNode t n).items[k]? = some m) (hi : (ofNode t n).separators[k]? = some i) :
    t.firstToken m < i := by
  obtain ⟨mid, halternates, hchildren⟩ := h.exists_alternates hk
  obtain ⟨front, back, rfl⟩ := halternates.exists_split hm hi
  have hpairs := h.children_pairwise n
  rw [hchildren] at hpairs
  have hmid := (List.pairwise_append.mp (List.pairwise_cons.mp hpairs).2).1
  have hboth := (List.pairwise_append.mp hmid).2.1
  have hlast : t.lastToken m < i := (List.pairwise_cons.mp hboth).1 _ List.mem_cons_self
  exact Nat.lt_of_le_of_lt (h.firstToken_le_lastToken m).1 hlast

/-- Everything between the brackets stands before the closing one. -/
theorem lt_close {c : Child}
    (hc : (∃ m ∈ (ofNode t n).items, c = .node m) ∨ ∃ i ∈ (ofNode t n).separators, c = .token i) :
    t.lastOf c < (ofNode t n).close := by
  obtain ⟨mid, halternates, hchildren⟩ := h.exists_alternates hk
  obtain ⟨hnodes, htokens⟩ := halternates.filterMap_eq
  have hmem : c ∈ mid := by
    rcases hc with ⟨m, hm, rfl⟩ | ⟨i, hi, rfl⟩
    · rw [← hnodes] at hm
      obtain ⟨d, hd, hnode⟩ := List.mem_filterMap.mp hm
      cases d with
      | token i => cases hnode
      | node m' => exact Option.some.inj hnode ▸ hd
    · rw [← htokens] at hi
      obtain ⟨d, hd, htoken⟩ := List.mem_filterMap.mp hi
      cases d with
      | token i' => exact Option.some.inj htoken ▸ hd
      | node m => cases htoken
  have hpairs := h.children_pairwise n
  rw [hchildren] at hpairs
  have hall := (List.pairwise_append.mp (List.pairwise_cons.mp hpairs).2).2.2
  exact hall c hmem _ List.mem_cons_self

/-- The opening bracket stands in front of all items. -/
theorem opening_lt_item {m : NodeId} (hm : m ∈ (ofNode t n).items) :
    (ofNode t n).opening < t.firstToken m := by
  obtain ⟨mid, halternates, hchildren⟩ := h.exists_alternates hk
  obtain ⟨hnodes, -⟩ := halternates.filterMap_eq
  rw [← hnodes] at hm
  obtain ⟨c, hc, hnode⟩ := List.mem_filterMap.mp hm
  have hpairs := h.children_pairwise n
  rw [hchildren] at hpairs
  have hlt := (List.pairwise_cons.mp hpairs).1 c (List.mem_append_left _ hc)
  cases c with
  | token i => cases hnode
  | node m' => exact Option.some.inj hnode ▸ hlt

theorem item_lt_close {m : NodeId} (hm : m ∈ (ofNode t n).items) :
    t.firstToken m < (ofNode t n).close :=
  Nat.lt_of_le_of_lt (h.firstToken_le_lastToken m).1 (lt_close h hk (.inl ⟨m, hm, rfl⟩))

theorem separator_lt_close {i : TokenId} (hi : i ∈ (ofNode t n).separators) :
    i < (ofNode t n).close :=
  lt_close h hk (.inr ⟨i, hi, rfl⟩)

omit hk in
theorem close_lt_size : (ofNode t n).close < t.tokens.size := (h.firstToken_le_lastToken n).2

end SeparatedList

end CodeMend
