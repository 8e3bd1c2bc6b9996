import CodeMend.Proofs.Flow.Paths
import CodeMend.Proofs.Tree.Children

/-!
# CodeMend — the parts of a for statement

The nodes under a for statement are sorted into parts by the semicolons and the parenthesis between
them.  In a parsed tree every node comes into a part, and none is lost because another one took its
place.

* **`ForParts.extend`** — nodes one after the other go to one part.
* **`foldl_add_inner`** — so do the nodes of children among which no part ends.
* **`forParts_eq`** — the parts are all the nodes.
-/

namespace CodeMend.Flow

open Tree Production

variable {n : NodeId}

/-- The shape is a node, or a token that does not end a part of the head of a for statement. -/
def IsInner (t : Tree) : Shape → Prop
  | .token i => (t.token i).isMark ";" = false ∧ (t.token i).isMark ")" = false
  | .node _ _ _ => True

/-- Nodes one after the other go to the part that is being read. -/
def ForParts.extend (p : ForParts) (ns : List NodeId) : ForParts :=
  match p.place with
  | 0 => { p with before := p.before ++ ns }
  | 1 => { p with test := p.test ++ ns }
  | 2 => { p with steps := p.steps ++ ns }
  | _ => { p with body := ns.getLast?.or p.body }

theorem ForParts.extend_nil (p : ForParts) : p.extend [] = p := by
  obtain ⟨before, test, steps, body, place⟩ := p
  rcases place with _ | _ | _ | place <;> simp [extend]

theorem ForParts.extend_append (p : ForParts) (ns ms : List NodeId) :
    (p.extend ns).extend ms = p.extend (ns ++ ms) := by
  obtain ⟨before, test, steps, body, place⟩ := p
  rcases place with _ | _ | _ | place <;> simp [extend, List.getLast?_append, Option.or_assoc]

theorem ForParts.add_node (t : Tree) (p : ForParts) (n : NodeId) :
    p.add t (.node n) = p.extend [n] := by
  obtain ⟨before, test, steps, body, place⟩ := p
  rcases place with _ | _ | _ | place <;> rfl

/-- Tokens that do not end a part are passed over. -/
theorem foldl_add_inner {t : Tree} {cs : List Shape} (h : cs ∈ each (IsInner t)) (p : ForParts) :
    (cs.map Shape.asChild).foldl (ForParts.add t) p =
      p.extend (cs.filterMap (·.asChild.node?)) := by
  induction cs generalizing p with
  | nil => exact p.extend_nil.symm
  | cons s cs ih =>
    obtain ⟨hs, hcs⟩ := List.forall_mem_cons.mp h
    rw [List.map_cons, List.foldl_cons, ih hcs]
    cases s with
    | token i =>
      have hadd : p.add t (.token i) = p := by simp [ForParts.add, hs.1, hs.2]
      rw [Shape.asChild, hadd]
      rfl
    | node id k ds =>
      rw [Shape.asChild, ForParts.add_node, ForParts.extend_append]
      rfl

section Inner

variable {t : Tree}

theorem word_le_each_isInner {sort : Token → Prop}
    (h : ∀ token, sort token → token.isMark ";" = false ∧ token.isMark ")" = false) :
    word t.tokens sort ≤ each (IsInner t) := by
  rintro _ ⟨i, hi, hsort, rfl⟩ s hs
  obtain rfl := List.mem_singleton.mp hs
  rw [← token_eq_tokenAt (Nat.lt_of_succ_lt hi)] at hsort
  exact h _ hsort

theorem part_le_each_isInner {q : NodeKind → Prop} : part (HasKind q) ≤ each (IsInner t) :=
  part_le_each fun _ ⟨_, _, _, hs, _⟩ => hs ▸ trivial

theorem isMark_unique {token : Token} {text other : String} (h : token.isMark text = true)
    (hne : text ≠ other) : token.isMark other = false := by
  simp only [Token.isMark, Bool.and_eq_true, beq_iff_eq] at h
  simp [Token.isMark, h.2, hne]

theorem mark_le_each_isInner {text : String} (hsemicolon : text ≠ ";") (hparen : text ≠ ")") :
    mark t.tokens text ≤ each (IsInner t) :=
  word_le_each_isInner fun _ h => ⟨isMark_unique h hsemicolon, isMark_unique h hparen⟩

theorem expr_le_each_isInner : expr t.tokens ≤ each (IsInner t) :=
  expr_le.trans part_le_each_isInner

theorem separated_le_each_isInner : opt (separated t.tokens (expr t.tokens)) ≤ each (IsInner t) :=
  opt_le_each <| mul_le_each expr_le_each_isInner <| kstar_le_each <|
    mul_le_each (mark_le_each_isInner (by decide) (by decide)) expr_le_each_isInner

end Inner

theorem exists_of_mem_mark {t : Tree} {x : List Shape} {text : String}
    (h : x ∈ mark t.tokens text) :
    ∃ i, x = [.token i] ∧ (t.token i).isMark text = true := by
  obtain ⟨i, hi, hmark, rfl⟩ := h
  rw [← token_eq_tokenAt (Nat.lt_of_succ_lt hi)] at hmark
  exact ⟨i, rfl, hmark⟩

/-- A semicolon and a closing parenthesis begin the next part. -/
theorem ForParts.add_semicolon {t : Tree} {i : TokenId} (h : (t.token i).isMark ";" = true)
    (p : ForParts) : p.add t (.token i) = { p with place := p.place + 1 } := by
  simp [ForParts.add, h]

theorem ForParts.add_paren {t : Tree} {i : TokenId} (h : (t.token i).isMark ")" = true)
    (p : ForParts) : p.add t (.token i) = { p with place := 3 } := by
  have hsemicolon : (t.token i).isMark ";" = false := isMark_unique h (by decide)
  simp [ForParts.add, h, hsemicolon]

/-- The children of a for statement, sorted into its parts. -/
theorem foldl_add_for {t : Tree} {cs : List Shape}
    (h : cs ∈ production t.tokens .forStatement) :
    ∃ before test steps body, (cs.map Shape.asChild).foldl (ForParts.add t) {} =
        ⟨before, test, steps, some body, 3⟩ ∧
      cs.filterMap (·.asChild.node?) = before ++ test ++ steps ++ [body] ∧
      (test = [] ∨ ∃ e, test = [e]) := by
  obtain ⟨keyword, hkeyword, _, h₁, rfl⟩ := mem_prod_cons.mp h
  obtain ⟨opening, hopening, _, h₂, rfl⟩ := mem_prod_cons.mp h₁
  obtain ⟨before, hbefore, _, h₃, rfl⟩ := mem_prod_cons.mp h₂
  obtain ⟨first, hfirst, _, h₄, rfl⟩ := mem_prod_cons.mp h₃
  obtain ⟨test, htest, _, h₅, rfl⟩ := mem_prod_cons.mp h₄
  obtain ⟨second, hsecond, _, h₆, rfl⟩ := mem_prod_cons.mp h₅
  obtain ⟨steps, hsteps, _, h₇, rfl⟩ := mem_prod_cons.mp h₆
  obtain ⟨close, hclose, _, h₈, rfl⟩ := mem_prod_cons.mp h₇
  obtain ⟨_, ⟨_, ⟨body, kind, ds, rfl, -⟩, rfl⟩, rest, hrest, rfl⟩ := mem_prod_cons.mp h₈
  obtain ⟨i, rfl, hi⟩ := exists_of_mem_mark hfirst
  obtain ⟨j, rfl, hj⟩ := exists_of_mem_mark hsecond
  obtain ⟨k, rfl, hk⟩ := exists_of_mem_mark hclose
  rw [List.prod_nil, Language.mem_one] at hrest
  subst hrest
  -- no token in front of the first part or in a part ends one
  have hkeyword' : word t.tokens (fun token => token.kind = .keyword) ≤ each (IsInner t) :=
    word_le_each_isInner fun token h => by simp [Token.isMark, h]
  have hopening' : mark t.tokens "(" ≤ each (IsInner t) :=
    mark_le_each_isInner (by decide) (by decide)
  have hbefore' : beforeLoop t.tokens ≤ each (IsInner t) :=
    add_le_each part_le_each_isInner separated_le_each_isInner
  have htest' : opt (expr t.tokens) ≤ each (IsInner t) := opt_le_each expr_le_each_isInner
  refine ⟨(keyword ++ opening ++ before).filterMap (·.asChild.node?),
    test.filterMap (·.asChild.node?), steps.filterMap (·.asChild.node?), body, ?_, ?_, ?_⟩
  · simp only [List.map_append, List.foldl_append, foldl_add_inner (hkeyword' hkeyword),
      foldl_add_inner (hopening' hopening), foldl_add_inner (hbefore' hbefore),
      foldl_add_inner (htest' htest), foldl_add_inner (separated_le_each_isInner hsteps)]
    simp [ForParts.extend_append, Shape.asChild, ForParts.add_semicolon hi,
      ForParts.add_semicolon hj, ForParts.add_paren hk, ForParts.add_node]
    simp [ForParts.extend]
  · simp [Shape.asChild, Child.node?]
  · rcases mem_opt_iff.mp htest with rfl | ⟨s, ⟨⟨id, k, ds, rfl, -⟩, -⟩, rfl⟩
    · exact .inl rfl
    · exact .inr ⟨id, rfl⟩

/-- **The parts of a for statement are all the nodes under it**, and its test is one node. -/
theorem forParts_eq {t : Tree} (hp : Parsed t) (hk : t.kind n = .forStatement) :
    ∃ before test steps body, forParts t n = ⟨before, test, steps, some body, 3⟩ ∧
      t.childNodes n = before ++ test ++ steps ++ [body] ∧ (test = [] ∨ ∃ e, test = [e]) := by
  obtain ⟨cs, hword, hcs⟩ := hp.exists_children hk (by decide)
  cases hcs with
  | node _ _ hchildren _ _ =>
    rw [forParts, childNodes, hchildren, List.filterMap_map]
    exact foldl_add_for hword

end CodeMend.Flow
