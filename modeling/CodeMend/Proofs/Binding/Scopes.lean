import CodeMend.Proofs.Binding.Typing
import CodeMend.Proofs.Flow.Confined
import CodeMend.Proofs.Tree.Ancestry

/-!
# CodeMend — the scopes of variables

Where a variable is in scope follows from the place that declares it, without a word about searches.
A local variable is in scope in its block, or in all sections of its switch; the variable of a
statement in that statement; a parameter behind the list it stands in.  A variable that an argument
or a pattern declares is in scope in the nearest node that it does not leave: a block, but also a
loop, the statement that follows a condition, or a function.

* **`VariableSite.scope?`**, **`inScope`** — the scope of a variable.
* **`Holds`** — the node around a use that the search finds a variable at.
* **`mem_designationScope_iff`** — the nodes that are searched for designations.
* **`inScope_or_strays`** — what is held at a node around a use is in scope there, or strays.
-/

namespace CodeMend

open Binder Tree

namespace Tree

/-- The children of the node are statements that follow one another. -/
def listsStatements (t : Tree) (n : NodeId) : Bool :=
  t.kind n == .block || t.kind n == .switchSection

end Tree

/-! ## Scopes

Scopes are given by the language: by where a variable is declared and not by how it is found.  A
variable of an argument or a pattern is in scope in the statement around it, or in less. -/

/-- Where a variable is in scope: under one node but, there, not under another. -/
structure Scope where
  inside : NodeId
  outside : Option NodeId
deriving DecidableEq, Repr

namespace Scope

/-- All that is under a node. -/
def whole (n : NodeId) : Scope := ⟨n, none⟩

/-- The scope of what a statement of a list declares: the block, or all sections of the switch. -/
def ofList (t : Tree) (list : NodeId) : Scope :=
  match t.parent? list with
  | some switch =>
    if t.kind list == .switchSection && t.kind switch == .switchStatement then
      ⟨switch, (t.childNodes switch).find? fun c => t.kind c != .switchSection⟩
    else whole list
  | none => whole list

def covers (t : Tree) (s : Scope) (n : NodeId) : Bool :=
  t.under n s.inside && !s.outside.any (t.under n)

end Scope

namespace VariableSite

/-- A variable that an argument or a pattern declares does not leave the node. -/
def confines (t : Tree) (n : NodeId) : Bool :=
  match t.kind n with
  | .block | .switchSection | .whileStatement | .doStatement | .forStatement | .forEachStatement
  | .usingStatement | .lockStatement | .catchClause | .simpleLambdaExpression
  | .parenthesizedLambdaExpression | .localFunctionStatement | .methodDeclaration
  | .constructorDeclaration | .accessorDeclaration | .propertyDeclaration
  | .fieldDeclaration => true
  | k => k.isStatement && !(t.parent? n).any t.listsStatements

/-- The scope that the nearest of some nodes gives, of those that a variable does not leave; the
first node is the one below them. -/
def confinedIn (t : Tree) : NodeId → List NodeId → Option Scope
  | _, [] => none
  | c, n :: rest =>
    if confines t n then some (if (t.kind c).isStatement then .ofList t n else .whole n)
    else confinedIn t n rest

/-- Where a variable is in scope. -/
def scope? (t : Tree) : VariableSite → Option Scope
  | declarator declaration _ =>
    (t.parent? declaration).bind fun p =>
      if t.kind p == .localDeclarationStatement then (t.parent? p).map (.ofList t)
      else some (.whole p)
  | designation d => confinedIn t d (t.ancestors d)
  | forEach s => (t.childNodes s).getLast?.map .whole
  | catchDeclaration d => (t.parent? d).map .whole
  | parameter v =>
    (t.parent? v.node).bind fun p =>
      if t.kind p == .parameterList then (t.parent? p).map fun owner => ⟨owner, some p⟩
      else some ⟨p, some v.node⟩
  | accessorValue _ keyword => some (.whole (t.tokenParent keyword))

/-- A variable is in scope at a node. -/
def inScope (t : Tree) (site : VariableSite) (n : NodeId) : Bool :=
  (site.scope? t).any fun s => s.covers t n

/-- A variable that a node around a use holds may be out of scope at the use: an argument or a
pattern declares it in a part of a statement that the use is not in, or the use stands in the
collection of its loop, or in the list of parameters. -/
def strays (t : Tree) (holder n : NodeId) : VariableSite → Bool
  | designation d => ((designation d).scope? t).any fun s =>
      s.inside != holder && t.under s.inside holder && !s.covers t n
  | forEach s => (t.childNodes s).dropLast.any (t.under n)
  | parameter v => ((parameter v).scope? t).any fun s => s.outside.any (t.under n)
  | _ => false

end VariableSite

/-! ## Where variables are found

What a node holds is what the search can find there, read off the form of the node and of what
stands under it. -/

/-- Designations are looked for beyond a node of the kind. -/
def opens (k : NodeKind) : Bool := !(k == .block || k.isLambda || k == .localFunctionStatement)

/-- Designations under a node are looked for from another one above. -/
inductive Sees (t : Tree) : NodeId → NodeId → Prop
  | here (n : NodeId) : Sees t n n
  | down {n c d : NodeId} (hc : c ∈ t.childNodes n) (hopens : opens (t.kind c) = true)
    (h : Sees t c d) : Sees t n d

section

variable (t : Tree) (name : String) (offset : Nat)

/-- A declarator of a name in a declaration, ending at or before an offset. -/
def DeclaratorOf (declaration d : NodeId) : Prop :=
  d ∈ t.childrenOfKind declaration .variableDeclarator ∧ (t.span d).stop ≤ offset ∧
    (t.childTokens d).head?.any (fun i => (t.token i).valueText == name) = true

/-- A node holds a variable of a name that is declared before an offset: uses under the node find it
there, if they find none further in. -/
inductive Holds : NodeId → VariableSite → Prop
  | statement {list s declaration d : NodeId} (hlist : t.listsStatements list = true)
    (hs : s ∈ t.childNodes list) (hkind : t.kind s = .localDeclarationStatement)
    (hdeclaration : t.childOfKind? s .variableDeclaration = some declaration)
    (hd : DeclaratorOf t name offset declaration d) : Holds list (.declarator declaration d)
  | designation {list s d : NodeId} (hlist : t.listsStatements list = true)
    (hs : s ∈ t.childNodes list) (hblock : t.kind s ≠ .block) (hsees : Sees t s d)
    (hkind : t.kind d = .singleVariableDesignation) (hstop : (t.span d).stop ≤ offset)
    (hname : (t.token (t.firstToken d)).valueText = name) : Holds list (.designation d)
  | header {n declaration d : NodeId}
    (hkind : t.kind n = .forStatement ∨ t.kind n = .usingStatement)
    (hdeclaration : t.childOfKind? n .variableDeclaration = some declaration)
    (hd : DeclaratorOf t name offset declaration d) : Holds n (.declarator declaration d)
  | forEach {n : NodeId} {i : TokenId} (hkind : t.kind n = .forEachStatement)
    (hi : declaredIdentifier? t n = some i) (hname : (t.token i).valueText = name)
    (htype : t.childNodes n ≠ []) : Holds n (.forEach n)
  | catchClause {n d : NodeId} {i : TokenId} (hkind : t.kind n = .catchClause)
    (hd : t.childOfKind? n .catchDeclaration = some d) (hi : declaredIdentifier? t d = some i)
    (hname : (t.token i).valueText = name) : Holds n (.catchDeclaration d)
  | parameter {n : NodeId} {v : ParameterView}
    (hkind : t.kind n ∈ [NodeKind.simpleLambdaExpression, .parenthesizedLambdaExpression,
      .localFunctionStatement, .methodDeclaration, .constructorDeclaration])
    (hv : v ∈ parametersOf t n) (hname : v.nameText t = name) : Holds n (.parameter v)
  | accessor {n property : NodeId} {i : TokenId} (hkind : t.kind n = .accessorDeclaration)
    (hname : name = "value") (hi : i ∈ t.childTokens n)
    (hword : ((t.token i).isContextual "set" || (t.token i).isContextual "init") = true)
    (hproperty : t.ancestorOfKind? n .propertyDeclaration = some property) :
    Holds n (.accessorValue property i)

end

/-! ## The nodes that are searched for designations

The search for designations goes through a stack of nodes.  What it meets is described by the chain
of nodes between a designation and the statement. -/

section

open Tree

variable {t : Tree} {statement n d : NodeId} {ns : List NodeId} {fuel : Nat}

theorem Sees.rises (h : Sees t n d) : ∃ ns, Rises t d ns n ∧
    ∀ c ∈ d :: ns, c ≠ n → opens (t.kind c) = true := by
  induction h with
  | here n => exact ⟨[], .here n, fun c hc hne => absurd (List.mem_singleton.mp hc) hne⟩
  | @down n c d hc hopens _ ih =>
    obtain ⟨ns, hrises, hall⟩ := ih
    refine ⟨ns ++ [n], hrises.append (.up hc (.here n)), fun m hm hne => ?_⟩
    rw [← List.cons_append, List.mem_append, List.mem_singleton] at hm
    by_cases hmc : m = c
    · rw [hmc]
      exact hopens
    · exact hall m (hm.resolve_right hne) hmc

/-- The search takes only what is seen from a node that it starts at. -/
theorem sees_of_mem_designationScope (hp : Parsed t)
    (hns : ∀ n ∈ ns, ∃ ms, Rises t n ms statement)
    (hd : d ∈ designationScope t statement fuel ns) :
    ∃ n ∈ ns, (n = statement ∨ opens (t.kind n) = true) ∧ Sees t n d := by
  induction fuel generalizing ns with
  | zero => cases hd
  | succ fuel ih =>
    cases ns with
    | nil => cases hd
    | cons n rest =>
      have hrest : ∀ m ∈ rest, ∃ ms, Rises t m ms statement := fun m hm =>
        hns m (List.mem_cons_of_mem _ hm)
      rw [designationScope] at hd
      split at hd
      case isTrue =>
        obtain ⟨m, hm, hsees⟩ := ih hrest hd
        exact ⟨m, List.mem_cons_of_mem _ hm, hsees⟩
      case isFalse hopen =>
        have hn : n = statement ∨ opens (t.kind n) = true := by
          by_cases hn : n = statement
          · exact .inl hn
          · exact .inr (by simpa [opens, hn] using hopen)
        obtain ⟨ms, hrises⟩ := hns n List.mem_cons_self
        -- The node itself is taken, and its children are searched before the rest.
        rcases List.mem_cons.mp hd with rfl | hd
        · exact ⟨d, List.mem_cons_self, hn, .here d⟩
        have hchildren : ∀ m ∈ (t.childNodes n).reverse ++ rest, ∃ ms, Rises t m ms statement := by
          intro m hm
          rcases List.mem_append.mp hm with hm | hm
          · exact ⟨_, .up (List.mem_reverse.mp hm) hrises⟩
          · exact hrest m hm
        obtain ⟨m, hm, hopens, hsees⟩ := ih hchildren hd
        rcases List.mem_append.mp hm with hm | hm
        · have hm := List.mem_reverse.mp hm
          have hne : m ≠ statement := fun heq =>
            not_rises_child hp hm (heq ▸ hrises)
          exact ⟨n, List.mem_cons_self, hn, .down hm (hopens.resolve_left hne) hsees⟩
        · exact ⟨m, List.mem_cons_of_mem _ hm, hopens, hsees⟩

theorem length_idsOfList_reverse (ss : List Shape) :
    (Shape.idsOfList ss.reverse).length = (Shape.idsOfList ss).length := by
  induction ss with
  | nil => rfl
  | cons s ss ih =>
    rw [List.reverse_cons, Shape.idsOfList_append, List.length_append, ih, Shape.idsOfList_cons,
      Shape.idsOfList_cons, Shape.idsOfList_nil, List.append_nil, List.length_append, Nat.add_comm]

theorem exists_shape_of_mem {ss : List Shape}
    (hn : n ∈ (ss.map Shape.asChild).filterMap Child.node?) :
    ∃ k cs, Shape.node n k cs ∈ ss := by
  rw [List.filterMap_map] at hn
  obtain ⟨s, hs, hnode⟩ := List.mem_filterMap.mp hn
  cases s with
  | token i => cases hnode
  | node id k cs =>
    cases hnode
    exact ⟨k, cs, hs⟩

/-- With enough fuel the search takes all that is seen from the nodes that it starts at. -/
theorem mem_designationScope_of_sees {ss : List Shape} (hs : ∀ s ∈ ss, Stands t s)
    (hfuel : (Shape.idsOfList ss).length ≤ fuel)
    (hn : n ∈ (ss.map Shape.asChild).filterMap Child.node?)
    (hopens : n = statement ∨ opens (t.kind n) = true) (hsees : Sees t n d) :
    d ∈ designationScope t statement fuel ((ss.map Shape.asChild).filterMap Child.node?) := by
  -- One node uses one unit of fuel; tokens use none.
  induction fuel generalizing ss n with
  | zero =>
    obtain ⟨k, cs, hmem⟩ := exists_shape_of_mem hn
    have hid : n ∈ Shape.idsOfList ss := mem_idsOfList_iff.mpr ⟨_, hmem, by simp⟩
    rw [List.length_eq_zero_iff.mp (Nat.le_zero.mp hfuel)] at hid
    cases hid
  | succ fuel ih =>
    induction ss with
    | nil => cases hn
    | cons s ss ihs =>
      rw [Shape.idsOfList_cons] at hfuel
      obtain ⟨hs, hss⟩ := List.forall_mem_cons.mp hs
      cases hs with
      | token i =>
        rw [Shape.ids_token, List.nil_append] at hfuel
        exact ihs hss hfuel hn
      | @node id k cs _ hk hchildren _ hall =>
        rw [Shape.ids_node, List.cons_append, List.length_cons, Nat.add_le_add_iff_right,
          List.length_append] at hfuel
        have hnodes : t.childNodes id = (cs.map Shape.asChild).filterMap Child.node? := by
          rw [childNodes, hchildren]
        have hmore {m : NodeId} (hm : m ∈ (t.childNodes id).reverse ++
            (ss.map Shape.asChild).filterMap Child.node?)
            (hopens : m = statement ∨ opens (t.kind m) = true) (hsees : Sees t m d) :
            d ∈ designationScope t statement fuel ((t.childNodes id).reverse ++
              (ss.map Shape.asChild).filterMap Child.node?) := by
          have hlist : (t.childNodes id).reverse ++ (ss.map Shape.asChild).filterMap Child.node? =
              ((cs.reverse ++ ss).map Shape.asChild).filterMap Child.node? := by
            rw [hnodes, List.map_append, List.filterMap_append, List.map_reverse,
              List.filterMap_reverse]
          rw [hlist] at hm ⊢
          refine ih (fun s hs => ?_) ?_ hm hopens hsees
          · rcases List.mem_append.mp hs with hs | hs
            · exact hall s (List.mem_reverse.mp hs)
            · exact hss s hs
          · rw [Shape.idsOfList_append, List.length_append, length_idsOfList_reverse]
            exact hfuel
        change n ∈ id :: (ss.map Shape.asChild).filterMap Child.node? at hn
        change d ∈ designationScope t statement (fuel + 1)
          (id :: (ss.map Shape.asChild).filterMap Child.node?)
        rw [designationScope]
        split
        case isTrue hskip =>
          have hne : n ≠ id := by
            rintro rfl
            obtain ⟨hstatement, hclosed⟩ := (Bool.and_eq_true _ _).mp hskip
            rcases hopens with hn | hopens
            · exact bne_iff_ne.mp hstatement hn
            · rw [opens, hclosed] at hopens
              cases hopens
          exact ih hss (by omega) ((List.mem_cons.mp hn).resolve_left hne) hopens hsees
        case isFalse =>
          rcases List.mem_cons.mp hn with rfl | hn
          · cases hsees with
            | here => exact List.mem_cons_self
            | down hc hopens hsees =>
              exact List.mem_cons_of_mem _
                (hmore (List.mem_append_left _ (List.mem_reverse.mpr hc)) (.inr hopens) hsees)
          · exact List.mem_cons_of_mem _ (hmore (List.mem_append_right _ hn) hopens hsees)

/-- **The nodes that are searched for designations** are those seen from the statement. -/
theorem mem_designationScope_iff (hp : Parsed t) (hstatement : statement < t.nodeCount) :
    d ∈ designationScope t statement (t.nodeCount + 1) [statement] ↔ Sees t statement d := by
  constructor
  · intro hd
    obtain ⟨n, hn, -, hsees⟩ := sees_of_mem_designationScope hp
      (fun n hn => ⟨[], List.mem_singleton.mp hn ▸ .here n⟩) hd
    rwa [List.mem_singleton.mp hn] at hsees
  · intro hsees
    obtain ⟨cs, hs, hsize⟩ := hp.stands statement hstatement
    rw [Shape.size_eq_length_ids] at hsize
    have hall : ∀ s ∈ [Shape.node statement (t.kind statement) cs], Stands t s := fun s hmem =>
      List.mem_singleton.mp hmem ▸ hs
    refine mem_designationScope_of_sees hall ?_ (List.mem_singleton_self _) (.inl rfl) hsees
    rw [Shape.idsOfList_cons, Shape.idsOfList_nil, List.append_nil]
    omega

end

section

variable {t : Tree} {name : String} {offset : Nat}
  {holder child n d s declaration : NodeId} {site : VariableSite} {ns : List NodeId}

/-! ## The scope of what a node holds

The two descriptions are compared for each way in which a node holds a variable.  The scope of what
it holds is the node itself, or lies further in. -/

theorem scope_of_statement (hp : Parsed t) (hs : s ∈ t.childNodes holder)
    (hkind : t.kind s = .localDeclarationStatement)
    (hdeclaration : t.childOfKind? s .variableDeclaration = some declaration) :
    (VariableSite.declarator declaration d).scope? t = some (.ofList t holder) := by
  have hparent := hp.wellFormed.parent?_eq (mem_childNodes_of_childOfKind? hdeclaration)
  rw [VariableSite.scope?, hparent, Option.bind_some, if_pos (by simp [hkind]),
    hp.wellFormed.parent?_eq hs, Option.map_some]

theorem scope_of_header (hp : Parsed t)
    (hkind : t.kind holder = .forStatement ∨ t.kind holder = .usingStatement)
    (hdeclaration : t.childOfKind? holder .variableDeclaration = some declaration) :
    (VariableSite.declarator declaration d).scope? t = some (.whole holder) := by
  have hparent := hp.wellFormed.parent?_eq (mem_childNodes_of_childOfKind? hdeclaration)
  rw [VariableSite.scope?, hparent, Option.bind_some,
    if_neg (by rcases hkind with hkind | hkind <;> simp [hkind])]

theorem scope_of_catchClause (hp : Parsed t)
    (hd : t.childOfKind? holder .catchDeclaration = some d) :
    (VariableSite.catchDeclaration d).scope? t = some (.whole holder) := by
  have hparent := hp.wellFormed.parent?_eq (mem_childNodes_of_childOfKind? hd)
  rw [VariableSite.scope?, hparent, Option.map_some]

theorem scope_of_accessor (hp : Parsed t) {property : NodeId} {i : TokenId}
    (hi : i ∈ t.childTokens holder) :
    (VariableSite.accessorValue property i).scope? t = some (.whole holder) := by
  obtain ⟨-, hparent⟩ := hp.wellFormed.tokenParent_eq (mem_childTokens_iff.mp hi)
  rw [VariableSite.scope?, hparent]

/-- What a statement of a list declares is in scope in the list, or, if that is a section, in the
switch. -/
theorem cases_ofList (t : Tree) (list : NodeId) : Scope.ofList t list = .whole list ∨
    ∃ switch ∈ t.parent? list, t.kind list = .switchSection ∧ t.kind switch = .switchStatement ∧
      Scope.ofList t list =
        ⟨switch, (t.childNodes switch).find? fun c => t.kind c != .switchSection⟩ := by
  unfold Scope.ofList
  split
  case h_1 switch hparent =>
    split
    case isTrue hkind =>
      obtain ⟨hsection, hswitch⟩ := (Bool.and_eq_true _ _).mp hkind
      exact .inr ⟨switch, hparent, beq_iff_eq.mp hsection, beq_iff_eq.mp hswitch, rfl⟩
    case isFalse => exact .inl rfl
  case h_2 => exact .inl rfl

/-- The scope of the variable of an argument or a pattern is that of a list of statements around it,
or lies further in. -/
theorem exists_confinedIn {c : NodeId} {rest : List NodeId} (hrises : Rises t c ns holder)
    (hlist : t.listsStatements holder = true) (hne : c ≠ holder) :
    ∃ w ms s, Rises t w ms holder ∧ VariableSite.confinedIn t c (ns ++ rest) = some s ∧
      (s = .ofList t w ∨ s = .whole w) := by
  induction hrises with
  | here => exact absurd rfl hne
  | @up c p ns a hc hrises ih =>
    rw [List.cons_append, VariableSite.confinedIn]
    by_cases hconfines : VariableSite.confines t p = true
    · refine ⟨p, ns, _, hrises, if_pos hconfines, ?_⟩
      split
      · exact .inl rfl
      · exact .inr rfl
    · rw [if_neg hconfines]
      -- No such variable leaves the list, so the node is not yet the list.
      refine ih hlist ?_
      rintro rfl
      refine hconfines ?_
      rcases (Bool.or_eq_true _ _).mp hlist with hkind | hkind <;>
        simp [VariableSite.confines, beq_iff_eq.mp hkind]

/-- The scope that a node inside a list of statements gives lies in the list. -/
theorem inside_under (hp : Parsed t) {w : NodeId} {s : Scope} (hrises : Rises t w ns holder)
    (hlist : t.listsStatements holder = true) (hne : w ≠ holder)
    (hs : s = .ofList t w ∨ s = .whole w) :
    s.inside ≠ holder ∧ t.under s.inside holder = true := by
  have hwhole : w ≠ holder ∧ t.under w holder = true :=
    ⟨hne, (under_iff hp).mpr ⟨ns, hrises⟩⟩
  rcases hs with rfl | rfl
  · rcases cases_ofList t w with heq | ⟨switch, hparent, -, hswitch, heq⟩ <;> rw [heq]
    · exact hwhole
    -- A switch is no list of statements, so the list stands above it.
    refine ⟨?_, ?_⟩
    · rintro rfl
      simp [listsStatements, hswitch] at hlist
    · cases hrises with
      | here => exact absurd rfl hne
      | up hc hrises =>
        have hsame := hparent.symm.trans (hp.wellFormed.parent?_eq hc)
        exact (under_iff hp).mpr ⟨_, Option.some.inj hsame ▸ hrises⟩
  · exact hwhole

theorem exists_scope_of_designation (hp : Parsed t) (hlist : t.listsStatements holder = true)
    (hs : s ∈ t.childNodes holder) (hsees : Sees t s d) :
    ∃ scope, (VariableSite.designation d).scope? t = some scope ∧
      (scope = .ofList t holder ∨ scope = .whole holder ∨
        scope.inside ≠ holder ∧ t.under scope.inside holder = true) := by
  obtain ⟨ns, hrises, -⟩ := hsees.rises
  have hup := hrises.append (.up hs (.here holder))
  obtain ⟨rest, hrest⟩ := hup.ancestors_eq hp
  -- The search for the node that confines the variable starts below the list.
  have hne : d ≠ holder := fun heq => by
    have hnil := (heq ▸ hup : Rises t holder _ holder).eq_nil hp
    simp at hnil
  obtain ⟨w, ms, scope, hw, hfound, hform⟩ := exists_confinedIn hup hlist hne
  refine ⟨scope, by rw [VariableSite.scope?, hrest, hfound], ?_⟩
  by_cases heq : w = holder
  · rw [heq] at hform
    exact hform.imp_right .inl
  · exact .inr (.inr (inside_under hp hw hlist heq hform))

theorem node_of_ofNode? {v : ParameterView} (hv : ParameterView.ofNode? t n = some v) :
    v.node = n := by
  unfold ParameterView.ofNode? at hv
  split at hv
  case isTrue => cases hv
  case isFalse =>
    obtain ⟨name, -, hv⟩ := Option.bind_eq_some_iff.mp hv
    exact (Option.some.inj hv) ▸ rfl

/-- A parameter is in scope in its owner, behind the list. -/
theorem exists_scope_of_parameter (hp : Parsed t) {v : ParameterView}
    (hkind : t.kind holder ∈ [NodeKind.simpleLambdaExpression, .parenthesizedLambdaExpression,
      .localFunctionStatement, .methodDeclaration, .constructorDeclaration])
    (hv : v ∈ parametersOf t holder) :
    ∃ list, (VariableSite.parameter v).scope? t = some ⟨holder, some list⟩ := by
  have hkind : t.kind holder ≠ .parameterList := fun heq => by simp [heq] at hkind
  obtain ⟨m, hm, hview⟩ := List.mem_filterMap.mp hv
  obtain rfl := node_of_ofNode? hview
  have hparent := hp.wellFormed.parent?_eq (mem_childNodes_of_mem_childrenOfKind hm)
  cases hlist : t.childOfKind? holder .parameterList with
  | none =>
    rw [hlist, Option.getD_none] at hparent
    refine ⟨v.node, ?_⟩
    rw [VariableSite.scope?, hparent, Option.bind_some, if_neg (by simpa using hkind)]
  | some list =>
    rw [hlist, Option.getD_some] at hparent
    have howner := hp.wellFormed.parent?_eq (mem_childNodes_of_childOfKind? hlist)
    refine ⟨list, ?_⟩
    rw [VariableSite.scope?, hparent, Option.bind_some,
      if_pos (by simp [kind_of_childOfKind? hlist]), howner, Option.map_some]

/-! ## Scopes and uses

If the scope is the node, the use is inside of it.  If it lies further in, the use may be outside,
and then the variable strays. -/

section

variable (hp : Parsed t) (hchild : child ∈ t.childNodes holder) (hn : t.under n child = true)

include hp hchild hn

theorem covers_whole : (Scope.whole holder).covers t n = true := by
  simp [Scope.covers, Scope.whole, under_of_child hp hchild hn]

/-- What a statement of a list declares is in scope under every statement of the list. -/
theorem covers_ofList : (Scope.ofList t holder).covers t n = true := by
  rcases cases_ofList t holder with heq | ⟨switch, hparent, hsection, -, heq⟩ <;> rw [heq]
  · exact covers_whole hp hchild hn
  have hmem := hp.wellFormed.mem_childNodes_of_parent? hparent
  have hunder := under_of_child hp hchild hn
  rw [Scope.covers, under_of_child hp hmem hunder, Bool.true_and, Bool.not_eq_true',
    Option.any_eq_false]
  intro value hvalue
  -- The value that the switch looks at is another child of it.
  by_contra hin
  obtain rfl := child_unique hp (List.mem_of_find?_eq_some hvalue) hmem (by simpa using hin) hunder
  have hother := List.find?_some hvalue
  simp [hsection] at hother

end

theorem inScope_of_scope? {s : Scope} (hs : site.scope? t = some s) (h : s.covers t n = true) :
    site.inScope t n = true := by
  rw [VariableSite.inScope, hs]
  exact h

/-- **What a node around a use holds is in scope there, or strays.** -/
theorem inScope_or_strays (hp : Parsed t) (hchild : child ∈ t.childNodes holder)
    (hn : t.under n child = true) (hholds : Holds t name offset holder site) :
    site.inScope t n = true ∨ site.strays t holder n = true := by
  cases hholds with
  | statement hlist hs hkind hdeclaration hd =>
    exact .inl (inScope_of_scope? (scope_of_statement hp hs hkind hdeclaration)
      (covers_ofList hp hchild hn))
  | designation hlist hs hblock hsees hkind hstop hname =>
    obtain ⟨scope, hscope, hform⟩ := exists_scope_of_designation hp hlist hs hsees
    rcases hform with rfl | rfl | ⟨hinside, hunder⟩
    · exact .inl (inScope_of_scope? hscope (covers_ofList hp hchild hn))
    · exact .inl (inScope_of_scope? hscope (covers_whole hp hchild hn))
    cases hcovers : scope.covers t n with
    | true => exact .inl (inScope_of_scope? hscope hcovers)
    | false => exact .inr (by simp [VariableSite.strays, hscope, hinside, hunder, hcovers])
  | header hkind hdeclaration hd =>
    exact .inl (inScope_of_scope? (scope_of_header hp hkind hdeclaration)
      (covers_whole hp hchild hn))
  | forEach hkind hi hname htype =>
    have hnonempty := List.ne_nil_of_mem hchild
    have hsplit := List.dropLast_append_getLast hnonempty
    -- The body is the last child; all others belong to the header.
    rw [← hsplit, List.mem_append, List.mem_singleton] at hchild
    rcases hchild with hchild | hchild
    · exact .inr (List.any_eq_true.mpr ⟨child, hchild, hn⟩)
    · have hcovers : (Scope.whole child).covers t n = true := by
        simp [Scope.covers, Scope.whole, hn]
      refine .inl (inScope_of_scope? ?_ hcovers)
      rw [VariableSite.scope?, List.getLast?_eq_some_getLast hnonempty, hchild, Option.map_some]
  | catchClause hkind hd hi hname =>
    exact .inl (inScope_of_scope? (scope_of_catchClause hp hd) (covers_whole hp hchild hn))
  | parameter hkind hv hname =>
    obtain ⟨list, hscope⟩ := exists_scope_of_parameter hp hkind hv
    cases hin : t.under n list with
    | true => exact .inr (by simp [VariableSite.strays, hscope, hin])
    | false =>
      refine .inl (inScope_of_scope? hscope ?_)
      simp [Scope.covers, under_of_child hp hchild hn, hin]
  | accessor hkind hname hi hword hproperty =>
    exact .inl (inScope_of_scope? (scope_of_accessor hp hi) (covers_whole hp hchild hn))

end

end CodeMend
