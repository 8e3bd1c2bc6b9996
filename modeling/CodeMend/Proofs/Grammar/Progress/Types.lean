import CodeMend.Proofs.Grammar.Progress

/-!
# CodeMend — the rules for types go on

Rules read their parts by other rules of a smaller depth, so a depth is enough at a place when it is
enough for all rules that are asked for from there.  Most rules take a token before they ask for
another rule; the few that begin with one ask for a rule that takes a token first.  Two steps of
depth for each token are enough.

* **`Ready`** — from which places on the rules go on.
* **`goes_type`** — the rule for types goes on, over rules that do.
-/

namespace CodeMend.Grammar

open CodeMend.Parser Production

/-! ## The contract of the rules

In front of one token at most two rules may be asked for, the second by the first.  Hence two steps
of depth for each token that is left are enough, and the contract counts them. -/

/-- How many rules may be asked for at the same place in front of a token: a rule of the first sort
begins with a rule of the other. -/
def rank : Nonterminal → Nat
  | .pattern | .statement | .member | .namespaceMember => 1
  | _ => 0

theorem rank_le_one (nt : Nonterminal) : rank nt ≤ 1 := by
  cases nt <;> simp [rank]

/-- How many tokens a rule takes at least.  Operators may be missing behind an operand. -/
def least : Nonterminal → Nat
  | .operators _ _ => 0
  | _ => 1

/-- The rules go on from the places on that have enough tokens in front of them, when each token
counts two. -/
def Ready (ts : Array Token) (level : Nat) (rules : Rules) : Prop :=
  ∀ nt n, level + rank nt ≤ 2 * n + 1 → Goes ts n anywhere (least nt) (rules nt)

section Rules

variable {ts : Array Token} {level n : Nat} {rules : Rules} {P : Cursor → Prop}
  (hr : Ready ts level rules)

include hr

theorem Ready.type (hn : level ≤ 2 * n + 1) (nullable : Bool) :
    Goes ts n P 1 (rules (.type nullable)) :=
  (hr (.type nullable) n hn).here

theorem Ready.expression (hn : level ≤ 2 * n + 1) : Goes ts n P 1 (rules .expression) :=
  (hr .expression n hn).here

theorem Ready.coalesce (hn : level ≤ 2 * n + 1) : Goes ts n P 1 (rules .coalesce) :=
  (hr .coalesce n hn).here

theorem Ready.unary (hn : level ≤ 2 * n + 1) : Goes ts n P 1 (rules .unary) :=
  (hr .unary n hn).here

theorem Ready.operators (hn : level ≤ 2 * n + 1) (cp : Checkpoint) (operand : Shape) :
    Goes ts n P 0 (rules (.operators cp operand)) :=
  (hr (.operators cp operand) n hn).here

theorem Ready.initializer (hn : level ≤ 2 * n + 1) : Goes ts n P 1 (rules .initializer) :=
  (hr .initializer n hn).here

theorem Ready.block (hn : level ≤ 2 * n + 1) : Goes ts n P 1 (rules .block) :=
  (hr .block n hn).here

theorem Ready.pattern (hn : level ≤ 2 * n) : Goes ts n P 1 (rules .pattern) :=
  (hr .pattern n (Nat.succ_le_succ hn)).here

theorem Ready.statement (hn : level ≤ 2 * n) : Goes ts n P 1 (rules .statement) :=
  (hr .statement n (Nat.succ_le_succ hn)).here

theorem Ready.member (hn : level ≤ 2 * n) : Goes ts n P 1 (rules .member) :=
  (hr .member n (Nat.succ_le_succ hn)).here

theorem Ready.namespaceMember (hn : level ≤ 2 * n) :
    Goes ts n P 1 (rules .namespaceMember) :=
  (hr .namespaceMember n (Nat.succ_le_succ hn)).here

end Rules

/-- A node read where no condition holds. -/
theorem goes_node {ts : Array Token} {n d : Nat} {P : Cursor → Prop} {since : Option Checkpoint}
    {body : Parser (List Shape)} {k : NodeKind} (h : Goes ts n anywhere d body) :
    Goes ts n P d (nodeSince since k body) :=
  Goes.here (h.node k fun _ _ h => h)

/-- A node that begins with the token ahead. -/
theorem goes_node_ahead {ts : Array Token} {n d : Nat} {since : Option Checkpoint}
    {body : Parser (List Shape)} {k : NodeKind} (h : Goes ts n Ahead d body) :
    Goes ts n Ahead d (nodeSince since k body) :=
  h.node k fun _ _ h => h

/-! ## Names and types

Types are nested behind a bracket or a parenthesis only. -/

section Types

variable {ts : Array Token} {level n : Nat} {rules : Rules} {P : Cursor → Prop}
  (hts : Ended ts) (hr : Ready ts level rules)

include hts hr

theorem goes_typeArgumentList (hn : level ≤ 2 * n + 2) :
    Goes ts n P 1 (typeArgumentList rules) :=
  goes_node <| .atLeast (
    (Goes.expect hts "<").seq_cons <|
      (Goes.commaSeparated hts (hr.type (by omega) true).one).seq_cons <|
      (Goes.expect hts ">").single) (by omega)

theorem goes_simpleTypeName (hn : level ≤ 2 * n + 2) : Goes ts n P 1 (simpleTypeName rules) := by
  refine Goes.choose fun c₀ _ _ _ => ?_
  split
  · exact .unexpected _
  next hid =>
  have hahead : Ahead c₀ := ahead_of_atIdentifier (by simpa using hid)
  split
  · exact Goes.at (goes_node_ahead <| .atLeast (
      (Goes.bump_ahead hts).seq_cons
        (goes_typeArgumentList hts hr (by omega)).one.single) (by omega)) hahead
  · exact (goes_node_ahead (Goes.bump_ahead hts)).at hahead

theorem goes_typeName (hn : level ≤ 2 * n + 2) : Goes ts n P 1 (typeName rules) := by
  refine Goes.checkpoint fun cp =>
    (goes_simpleTypeName hts hr hn).andThen fun first => Goes.grow ?_ first
  intro c₀ wrap s _ hstep
  split at hstep
  next =>
    obtain rfl := Option.some.inj hstep
    exact goes_node <| .seq_pure _ <| .atLeast (
      Goes.bump.seq_cons (goes_simpleTypeName hts hr (by omega)).one.single) (by omega)
  next => cases hstep

omit hts in
theorem goes_tupleTypeElement (hn : level ≤ 2 * n + 1) : Goes ts n P 1 (tupleTypeElement rules) :=
  goes_node <| .atLeast (
    (hr.type hn true).one.seq_cons (Goes.whenAt Goes.bump).single) (by omega)

theorem goes_tupleType (hn : level ≤ 2 * n + 2) : Goes ts n P 1 (tupleType rules) :=
  goes_node <| .atLeast (
    (Goes.expect hts "(").seq_cons <|
      (Goes.commaSeparated hts (goes_tupleTypeElement hr (by omega)).one).seq_cons <|
      (Goes.expect hts ")").single) (by omega)

omit hr in
theorem goes_emptyRank : Goes ts n P 1 emptyRank :=
  goes_node <| .atLeast (
    Goes.bump.seq_cons <|
      (Goes.manyWhile (Goes.bump_any hts fun _ => ahead_of_atMark)).seq_cons <|
      (Goes.expect hts "]").single) (by omega)

omit hr in
theorem goes_typeSuffixes (nullable : Bool) (cp : Checkpoint) (s : Shape) :
    Goes ts n P 0 (grow (typeSuffix? nullable cp) s) := by
  refine Goes.grow ?_ s
  intro c₀ wrap s _ hstep
  unfold typeSuffix? at hstep
  split at hstep
  next hat =>
    obtain rfl := Option.some.inj hstep
    have hahead : Ahead c₀ := ahead_of_atMark (Bool.and_eq_true _ _ ▸ hat).2
    exact (goes_node_ahead (.seq_pure _ (Goes.single (Goes.bump_ahead hts)))).at hahead
  next =>
  split at hstep
  next hat =>
    obtain rfl := Option.some.inj hstep
    have hranks : Goes ts n (fun c => atEmptyRank c = true) 1
        (seq [pure [s], manyWhile atEmptyRank (one emptyRank)]) :=
      .seq_pure _ (Goes.single (Goes.manyWhile_of_at (goes_emptyRank hts).one fun _ h => h))
    exact (hranks.node _ fun _ _ h => h).at hat
  next => cases hstep

/-- **The rule for types goes on.** -/
theorem goes_type (hn : level ≤ 2 * n + 2) (nullable : Bool) :
    Goes ts n P 1 (type rules nullable) := by
  refine Goes.checkpoint fun cp => ?_
  have hgrow : ∀ s, Goes ts (n + 1) anywhere 0 (grow (typeSuffix? nullable cp) s) :=
    goes_typeSuffixes hts nullable cp
  refine Goes.get fun c₀ _ _ _ => ?_
  dsimp only
  split
  · exact (goes_tupleType hts hr hn).andThen hgrow
  split
  next hpredefined =>
    have hahead : Ahead c₀ := by
      simp only [Token.isPredefinedType, Bool.and_eq_true, beq_iff_eq] at hpredefined
      simp [Ahead, hpredefined.1]
    exact ((goes_node_ahead (Goes.bump_ahead hts)).at hahead).andThen hgrow
  next => exact (goes_typeName hts hr hn).andThen hgrow

end Types

end CodeMend.Grammar
