import CodeMend.Binding.Binder
import CodeMend.Proofs.Tree.Lookup
import CodeMend.Proofs.Tree.Views
import Mathlib.Data.Finset.Card
import Mathlib.Data.Finset.Range
import Mathlib.Order.Monotone.Basic

/-!
# CodeMend — the search for types

The rules of a binder are stated over a function that types expressions, and the types of a document
are found by iterating them.  This module says what the iteration amounts to.

A rule only asks questions one after the other, so whatever relation holds between the answers to
these questions holds between its results (`typeStep_related`, for every relation that sequencing
keeps).  One instance gives that more steps only add types, and that the bound of
`Binder.ofDocument` adds all of them: a step that tells no new type is the last one that does, and
there are as many types to tell as there are nodes.  So a type that is not told within the bound is
told by no number of steps, and the search for it, which has no bound in a running program, never
ends.

Questions lead towards the front of a document or down its tree, but for one: a name may ask for a
value that it stands in.  Where every name stands behind the value that it asks for, all searches
end.

* **`Binder.typeOfFuel_eq_bound`** — more steps than the bound tell nothing new.
* **`Binder.typeOf_eq_typeStep`** — the types of a document obey the rules.
* **`Binder.endless_of_own_name`** — a name that is its own value has a type without end.
* **`Binder.typed_of_namesBehindValues`** — when all searches of a document end.
-/

namespace CodeMend

open Tree

namespace Binder

/-! ## What a rule asks for

The type of a node may be asked for by a node above it, by a binding for what stands in front of the
question mark, or by a name for the value that its variable takes its type from.  These are all the
questions that the rules for a node ask. -/

/-- The node is the value that the variable of a name takes its type from. -/
def TypesName (t : Tree) (n value : NodeId) : Prop :=
  ∃ site type, siteLookup? t (t.token (t.firstToken n)).valueText n = some site ∧
    site.typeNode? t = some type ∧ isVar t type = true ∧ site.typingNode? t = some value

/-- The rules for a node may ask for the type of another one. -/
inductive Asks (t : Tree) (n : NodeId) : NodeId → Prop
  | below {c m : NodeId} {ns : List NodeId} (hc : c ∈ t.childNodes n) (hm : Rises t m ns c) :
    Asks t n m
  | bound {binding m : NodeId} {ns : List NodeId} (hbinding : Rises t binding ns n)
    (hkind : t.kind binding = .memberBindingExpression)
    (hm : bindingReceiver? t binding = some m) : Asks t n m
  | named {name m : NodeId} {ns : List NodeId} (hname : Rises t name ns n)
    (hkind : t.kind name = .identifierName) (hm : TypesName t name m) : Asks t n m

/-- What a node below asks for, the node may ask for. -/
theorem Asks.of_child {t : Tree} {n c m : NodeId} (hc : c ∈ t.childNodes n) (h : Asks t c m) :
    Asks t n m := by
  cases h with
  | below hd hm => exact .below hc (hm.append (.up hd (.here c)))
  | bound hbinding hkind hm => exact .bound (hbinding.append (.up hc (.here n))) hkind hm
  | named hname hkind hm => exact .named (hname.append (.up hc (.here n))) hkind hm

/-- The first name of a chain of member accesses stands at its front. -/
theorem rises_of_dottedRoot? {t : Tree} {n root : NodeId} (h : dottedRoot? t n = some root) :
    t.kind root = .identifierName ∧ ∃ ns, Rises t root ns n := by
  unfold dottedRoot? at h
  generalize t.nodeCount + 1 = fuel at h
  induction fuel generalizing n with
  | zero => cases h
  | succ fuel ih =>
    unfold dottedRootFuel at h
    split at h
    case h_1 hkind =>
      obtain rfl := Option.some.inj h
      exact ⟨hkind, [], .here _⟩
    case h_2 =>
      obtain ⟨receiver, hreceiver, h⟩ := Option.bind_eq_some_iff.mp h
      obtain ⟨hkind, ns, hrises⟩ := ih h
      exact ⟨hkind, _, hrises.append (.up (List.mem_of_head? hreceiver) (.here n))⟩
    case h_3 => cases h

theorem mem_of_firstAndLast? {ns : List NodeId} {first last : NodeId}
    (h : firstAndLast? ns = some (first, last)) : first ∈ ns := by
  unfold firstAndLast? at h
  split at h
  next =>
    obtain ⟨_, -, heq⟩ := Option.map_eq_some_iff.mp h
    cases heq
    exact List.mem_cons_self
  next => cases h

/-! ## Rules and relations

The rules for types ask for the types of other nodes, and the search answers them until its fuel is
out.  To compare two searches, or to follow one, it is enough to know that the rules only sequence
such questions; this is proved once, for every relation that sequencing keeps. -/

/-- A relation between results that holds of equal results without questions, and that is kept by
asking one question after the other. -/
structure Sequential (R : {α : Type} → Analysis α → Analysis α → Prop) : Prop where
  pure {α : Type} (a : α) : R (Pure.pure a) (Pure.pure a)
  bind {α β : Type} {x y : Analysis α} {f g : α → Analysis β} (hxy : R x y)
    (hfg : ∀ a, R (f a) (g a)) : R (x >>= f) (y >>= g)

/-- A property of results that holds without questions, and that is kept by asking one question
after the other. -/
structure Closed (P : {α : Type} → Analysis α → Prop) : Prop where
  pure {α : Type} (a : α) : P (Pure.pure a)
  bind {α β : Type} {x : Analysis α} {f : α → Analysis β} (hx : P x) (hf : ∀ a, P (f a)) :
    P (x >>= f)

theorem Closed.sequential {P : {α : Type} → Analysis α → Prop} (hP : Closed P) :
    Sequential fun x _ => P x where
  pure a := hP.pure a
  bind hx hf := hP.bind hx hf

@[simp]
theorem tree_mk (p : Program) (d : Document) (f : NodeId → Analysis StaticType) :
    tree ⟨p, d, f⟩ = d.tree := rfl

@[simp]
theorem ofDocument_tree (p : Program) (d : Document) : (ofDocument p d).tree = d.tree := rfl

section Related

variable {R : {α : Type} → Analysis α → Analysis α → Prop} (hR : Sequential R)
  {p : Program} {d : Document} {f g : NodeId → Analysis StaticType} {n : NodeId}

include hR

theorem Sequential.map {α β : Type} {x y : Analysis α} (h : α → β) (hxy : R x y) :
    R (h <$> x) (h <$> y) := by
  rw [map_eq_pure_bind, map_eq_pure_bind]
  exact hR.bind hxy fun a => hR.pure (h a)

theorem Sequential.mapM {α β : Type} {f g : α → Analysis β} {xs : List α}
    (h : ∀ x ∈ xs, R (f x) (g x)) : R (xs.mapM f) (xs.mapM g) := by
  induction xs with
  | nil => exact hR.pure []
  | cons x xs ih =>
    obtain ⟨hx, hxs⟩ := List.forall_mem_cons.mp h
    rw [List.mapM_cons, List.mapM_cons]
    exact hR.bind hx fun y => hR.bind (ih hxs) fun ys => hR.pure (y :: ys)

theorem typeOfOptional_related {m? : Option NodeId} (h : ∀ m ∈ m?, R (f m) (g m)) :
    R (typeOfOptional ⟨p, d, f⟩ m?) (typeOfOptional ⟨p, d, g⟩ m?) := by
  cases m? with
  | none => exact hR.pure _
  | some m => exact h m rfl

theorem inferredType_related {site : VariableSite} {type : NodeId}
    (h : ∀ value, site.typingNode? d.tree = some value → R (f value) (g value)) :
    R (inferredType ⟨p, d, f⟩ site type) (inferredType ⟨p, d, g⟩ site type) := by
  unfold inferredType
  simp only [tree_mk]
  split
  case h_1 value hvalue =>
    refine hR.bind (h value hvalue) fun type => ?_
    split <;> exact hR.pure _
  case h_2 collection hcollection => exact hR.map _ (h collection hcollection)
  all_goals exact hR.pure _

theorem variableAt_related {site : VariableSite}
    (h : ∀ type value, site.typeNode? d.tree = some type → isVar d.tree type = true →
      site.typingNode? d.tree = some value → R (f value) (g value)) :
    R (variableAt ⟨p, d, f⟩ site) (variableAt ⟨p, d, g⟩ site) := by
  refine hR.bind ?_ fun type => hR.pure _
  unfold variableType
  simp only [tree_mk]
  cases htype : site.typeNode? d.tree with
  | none => exact hR.pure _
  | some type =>
    by_cases hvar : isVar d.tree type = true
    · simp only [hvar, if_true]
      exact inferredType_related hR fun value => h type value htype hvar
    · simp only [hvar]
      exact hR.pure _

theorem bindIdentifier?_related (h : ∀ m, TypesName d.tree n m → R (f m) (g m)) :
    R (bindIdentifier? ⟨p, d, f⟩ n) (bindIdentifier? ⟨p, d, g⟩ n) := by
  refine hR.bind ?_ fun v? => ?_
  · unfold lookupVariable?
    simp only [frontName, tree_mk]
    cases hsite : siteLookup? d.tree (d.tree.token (d.tree.firstToken n)).valueText n with
    | none => exact hR.pure _
    | some site =>
      exact hR.map _ (variableAt_related hR fun type value htype hvar hvalue =>
        h value ⟨site, type, hsite, htype, hvar, hvalue⟩)
  · cases v? <;> exact hR.pure _

theorem bindsAsValue_related (h : ∀ m, TypesName d.tree n m → R (f m) (g m)) :
    R (bindsAsValue ⟨p, d, f⟩ n) (bindsAsValue ⟨p, d, g⟩ n) := by
  refine hR.bind (bindIdentifier?_related hR h) fun symbol? => ?_
  split <;> exact hR.pure _

theorem startsAsValue_related (h : ∀ m, Asks d.tree n m → R (f m) (g m)) :
    R (startsAsValue ⟨p, d, f⟩ n) (startsAsValue ⟨p, d, g⟩ n) := by
  unfold startsAsValue
  simp only [tree_mk]
  cases hroot : dottedRoot? d.tree n with
  | none => exact hR.pure _
  | some root =>
    obtain ⟨hkind, ns, hrises⟩ := rises_of_dottedRoot? hroot
    exact bindsAsValue_related hR fun m hm => h m (.named hrises hkind hm)

/-- What stands in front of a point may be typed itself. -/
theorem receiver_related (hself : R (f n) (g n)) (h : ∀ m, Asks d.tree n m → R (f m) (g m)) :
    R (receiver ⟨p, d, f⟩ n) (receiver ⟨p, d, g⟩ n) := by
  unfold receiver
  simp only [tree_mk]
  split
  case h_1 => exact hR.pure _
  case h_2 => exact hR.pure _
  case h_3 hkind =>
    refine hR.bind (bindIdentifier?_related hR fun m hm => ?_) fun _ => hR.pure _
    exact h m (.named (.here n) hkind hm)
  case h_4 =>
    refine hR.bind (startsAsValue_related hR h) fun value => ?_
    split
    · exact hR.pure _
    · exact hR.bind hself fun _ => hR.pure _
  case h_5 => exact hR.bind hself fun _ => hR.pure _

theorem calleeCandidates_related (h : ∀ m, Asks d.tree n m → R (f m) (g m)) :
    R (calleeCandidates ⟨p, d, f⟩ n) (calleeCandidates ⟨p, d, g⟩ n) := by
  unfold calleeCandidates
  simp only [tree_mk]
  split
  case h_1 | h_2 => exact hR.pure _
  case h_3 =>
    split
    next => exact hR.pure _
    next r name hparts =>
      have hr := mem_of_firstAndLast? hparts
      by_cases hbase : (d.tree.kind r == .baseExpression) = true
      · simp only [hbase, if_true]
        exact hR.pure _
      · simp only [hbase]
        exact hR.bind (receiver_related hR (h r (.below hr (.here r))) fun m hm =>
          h m (.of_child hr hm)) fun _ => hR.pure _
  case h_4 hkind =>
    split
    next name r _ hr => exact hR.bind (h r (.bound (.here n) hkind hr)) fun _ => hR.pure _
    next => exact hR.pure _
  case h_5 => exact hR.pure _

theorem resolveInvocation?_related (h : ∀ m, Asks d.tree n m → R (f m) (g m)) :
    R (resolveInvocation? ⟨p, d, f⟩ n) (resolveInvocation? ⟨p, d, g⟩ n) := by
  unfold resolveInvocation?
  simp only [tree_mk]
  cases hv : InvocationView.ofNode? d.tree n with
  | none => exact hR.pure _
  | some v =>
    obtain ⟨hlist, -, hitems⟩ := InvocationView.arguments_eq hv
    refine hR.bind (calleeCandidates_related hR fun m hm =>
      h m (.of_child (InvocationView.callee_mem hv) hm)) fun candidates => ?_
    split
    · exact hR.pure _
    · refine hR.bind (hR.mapM fun a ha => ?_) fun _ => hR.pure _
      obtain ⟨c, hc, ha⟩ := List.mem_filterMap.mp ha
      rw [hitems] at hc
      have hrises := Rises.up (ArgumentView.mem_childNodes ha) (.up hc (.here _))
      exact hR.bind (h _ (.below hlist hrises)) fun _ => hR.pure _

/-- **The rules keep every relation that sequencing keeps.** -/
theorem typeStep_related (h : ∀ m, Asks d.tree n m → R (f m) (g m)) :
    R (typeStep ⟨p, d, f⟩ n) (typeStep ⟨p, d, g⟩ n) := by
  have hchild : ∀ {m}, m ∈ d.tree.childNodes n → R (f m) (g m) := fun hm =>
    h _ (.below hm (.here _))
  -- The rules branch on the tree alone, so both sides branch alike.
  unfold typeStep
  simp only [tree_mk]
  split
  case h_2 hkind =>
    refine hR.bind (bindIdentifier?_related hR fun m hm => ?_) fun _ => hR.pure _
    exact h m (.named (.here n) hkind hm)
  case h_3 | h_4 | h_5 =>
    exact typeOfOptional_related hR fun m hm => hchild (List.mem_of_head? hm)
  case h_6 =>
    split
    next r name hparts =>
      have hr := mem_of_firstAndLast? hparts
      exact hR.bind (receiver_related hR (hchild hr) fun m hm => h m (.of_child hr hm))
        fun _ => hR.pure _
    next => exact hR.pure _
  case h_7 hkind =>
    split
    next name r _ hr => exact hR.bind (h r (.bound (.here n) hkind hr)) fun _ => hR.pure _
    next => exact hR.pure _
  case h_8 => exact hR.bind (resolveInvocation?_related hR h) fun _ => hR.pure _
  case h_9 =>
    split
    next left right _ hchildren =>
      exact hR.bind (hchild (by simp [hchildren])) fun _ =>
        hR.bind (hchild (by simp [hchildren])) fun _ => hR.pure _
    next => exact hR.pure _
  case h_10 =>
    split
    next operand _ hchildren =>
      exact hR.bind (hchild (by simp [hchildren])) fun _ => hR.pure _
    next => exact hR.pure _
  case h_16 =>
    split
    next _ whenTrue whenFalse _ hchildren =>
      exact hR.bind (hchild (by simp [hchildren])) fun _ =>
        hR.bind (hchild (by simp [hchildren])) fun _ => hR.pure _
    next => exact hR.pure _
  case h_19 =>
    refine hR.bind (hR.mapM fun a ha => typeOfOptional_related hR fun m hm => ?_) fun _ => hR.pure _
    obtain ⟨v, hv, rfl⟩ := Option.map_eq_some_iff.mp hm
    exact h _ (.below (mem_childNodes_of_mem_childrenOfKind ha)
      (.up (ArgumentView.mem_childNodes hv) (.here a)))
  case h_20 =>
    exact hR.bind (typeOfOptional_related hR fun m hm => hchild (List.mem_of_head? hm))
      fun _ => hR.pure _
  case h_21 => split <;> exact hR.pure _
  -- The other rules ask nothing.
  all_goals exact hR.pure _

/-- **What an expression refers to keeps every relation that sequencing keeps.** -/
theorem referencedSymbol?_related (h : ∀ m, R (f m) (g m)) :
    R (referencedSymbol? ⟨p, d, f⟩ n) (referencedSymbol? ⟨p, d, g⟩ n) := by
  unfold referencedSymbol?
  have hcaller : invocationOfCallee? ⟨p, d, f⟩ n = invocationOfCallee? ⟨p, d, g⟩ n := rfl
  rw [hcaller]
  split
  next => exact hR.bind (resolveInvocation?_related hR fun m _ => h m) fun _ => hR.pure _
  next =>
    simp only [tree_mk]
    split
    case h_1 => exact hR.bind (resolveInvocation?_related hR fun m _ => h m) fun _ => hR.pure _
    case h_2 => exact bindIdentifier?_related hR fun m _ => h m
    case h_3 =>
      split
      next => exact hR.bind (receiver_related hR (h _) fun m _ => h m) fun _ => hR.pure _
      next => exact hR.pure _
    all_goals exact hR.pure _

end Related

/-! ## Steps and their bound

Results are compared by what is told: one refines another if it is the failure of a search that has
used up its steps, or is the other one.  A step more refines all types; and once a step adds no type
of a node of the tree, no further step adds any. -/

/-- The first search has used up its steps, or tells what the second one does. -/
def Refines {α : Type} (x y : Analysis α) : Prop := x = .error .endlessType ∨ x = y

theorem sequential_refines : Sequential Refines where
  pure _ := .inr rfl
  bind {_ _ x _ _ _} hxy hfg := by
    rcases hxy with rfl | rfl
    · exact .inl rfl
    · cases x with
      | error e => exact .inr rfl
      | ok a => exact hfg a

/-- The search does not use up its steps. -/
def ends {α : Type} : Analysis α → Bool
  | .error .endlessType => false
  | _ => true

theorem eq_endless_of_not_ends {α : Type} {x : Analysis α} (h : ends x = false) :
    x = .error .endlessType := by
  unfold ends at h
  split at h
  · rfl
  · cases h

theorem Refines.ends {α : Type} {x y : Analysis α} (h : Refines x y) (hx : ends x = true) :
    Binder.ends y = true := by
  rcases h with rfl | rfl
  · cases hx
  · exact hx

section Steps

variable {p : Program} {d : Document} {n : NodeId} {fuel fuel' : Nat} {T : StaticType}

/-- A search with steps left over tells what it has told. -/
theorem typeOfFuel_refines_succ (p : Program) (d : Document) (fuel : Nat) (n : NodeId) :
    Refines (typeOfFuel p d fuel n) (typeOfFuel p d (fuel + 1) n) := by
  induction fuel generalizing n with
  | zero => exact .inl rfl
  | succ fuel ih => exact typeStep_related sequential_refines fun m _ => ih m

theorem typeOfFuel_refines (hle : fuel ≤ fuel') :
    Refines (typeOfFuel p d fuel n) (typeOfFuel p d fuel' n) := by
  induction hle with
  | refl => exact .inr rfl
  | @step m _ ih =>
    rcases ih with ih | ih
    · exact .inl ih
    · exact ih ▸ typeOfFuel_refines_succ p d m n

/-- A number that is that of no node has no type. -/
theorem typeOfFuel_of_ge (hn : d.tree.nodeCount ≤ n) :
    typeOfFuel p d (fuel + 1) n = .ok .unknown := by
  have hkind : d.tree.kind n = .compilationUnit := by
    rw [Tree.kind, data_eq_default hn]
    rfl
  simp only [typeOfFuel, typeStep, tree_mk, hkind]
  rfl

/-- The nodes of a document that some steps tell the type of. -/
def told (p : Program) (d : Document) (fuel : Nat) : Finset NodeId :=
  (Finset.range d.tree.nodeCount).filter fun n => ends (typeOfFuel p d fuel n) = true

theorem told_subset (hle : fuel ≤ fuel') : told p d fuel ⊆ told p d fuel' := by
  intro n hn
  obtain ⟨hn, hends⟩ := Finset.mem_filter.mp hn
  exact Finset.mem_filter.mpr ⟨hn, (typeOfFuel_refines hle).ends hends⟩

/-- Steps that tell no new type tell nothing new at all. -/
theorem typeOfFuel_eq_of_card (hle : fuel ≤ fuel')
    (hcard : (told p d (fuel + 1)).card = (told p d (fuel' + 1)).card) (n : NodeId) :
    typeOfFuel p d (fuel + 1) n = typeOfFuel p d (fuel' + 1) n := by
  have hle : fuel + 1 ≤ fuel' + 1 := Nat.succ_le_succ hle
  have htold := Finset.eq_of_subset_of_card_le (told_subset hle) (Nat.le_of_eq hcard.symm)
  by_cases hn : n < d.tree.nodeCount
  · rcases typeOfFuel_refines (p := p) (d := d) (n := n) hle with hless | heq
    · have hnot : n ∉ told p d (fuel' + 1) := by
        rw [← htold]
        intro hmem
        have hends := (Finset.mem_filter.mp hmem).2
        rw [hless] at hends
        cases hends
      have hends : ends (typeOfFuel p d (fuel' + 1) n) = false := by
        by_contra hends
        exact hnot (Finset.mem_filter.mpr
          ⟨Finset.mem_range.mpr hn, Bool.eq_true_of_not_eq_false hends⟩)
      rw [hless, eq_endless_of_not_ends hends]
    · exact heq
  · rw [typeOfFuel_of_ge (Nat.le_of_not_lt hn), typeOfFuel_of_ge (Nat.le_of_not_lt hn)]

/-- **More steps than a document has nodes tell nothing new.** -/
theorem typeOfFuel_eq_bound (hfuel : d.tree.nodeCount < fuel) (n : NodeId) :
    typeOfFuel p d fuel n = (ofDocument p d).typeOf n := by
  obtain ⟨fuel, rfl⟩ : ∃ k, fuel = k + 1 := ⟨fuel - 1, by omega⟩
  have hmono : Monotone fun k => (told p d (k + 1)).card := fun k k' hle =>
    Finset.card_le_card (told_subset (Nat.succ_le_succ hle))
  have hbound : ∀ k, (told p d (k + 1)).card ≤ d.tree.nodeCount := fun k =>
    (Finset.card_filter_le _ _).trans_eq (Finset.card_range _)
  have hstable : ∀ k, (told p d (k + 1)).card = (told p d (k + 2)).card →
      (told p d (k + 2)).card = (told p d (k + 3)).card := by
    intro k hcard
    have htypes : typeOfFuel p d (k + 1) = typeOfFuel p d (k + 2) :=
      funext (typeOfFuel_eq_of_card (Nat.le_succ k) hcard)
    have hnext : typeOfFuel p d (k + 2) = typeOfFuel p d (k + 3) := by
      funext n
      change typeStep ⟨p, d, typeOfFuel p d (k + 1)⟩ n = typeStep ⟨p, d, typeOfFuel p d (k + 2)⟩ n
      rw [htypes]
    rw [told, told, hnext]
  have hcard := Nat.stabilises_of_monotone hmono hbound hstable (Nat.le_of_lt_succ hfuel)
  exact (typeOfFuel_eq_of_card (Nat.le_of_lt_succ hfuel) hcard.symm n).symm

/-- **The types of a document obey the rules.** -/
theorem typeOf_eq_typeStep (p : Program) (d : Document) (n : NodeId) :
    (ofDocument p d).typeOf n = (ofDocument p d).typeStep n := by
  have hnext : typeOfFuel p d (d.tree.nodeCount + 2) n = (ofDocument p d).typeOf n :=
    typeOfFuel_eq_bound (by omega) n
  rw [← hnext]
  rfl

/-- **A variable that takes its type from its own name has none.**  The search for it never ends: no
number of steps tells a type. -/
theorem endless_of_own_name (hkind : d.tree.kind n = .identifierName)
    (hown : TypesName d.tree n n) : typeOfFuel p d fuel n = .error .endlessType := by
  obtain ⟨site, type, hsite, htype, hvar, hvalue⟩ := hown
  induction fuel with
  | zero => rfl
  | succ fuel ih =>
    have hinferred : inferredType ⟨p, d, typeOfFuel p d fuel⟩ site type = .error .endlessType := by
      cases site with
      | declarator declaration declarator =>
        simp only [inferredType, tree_mk, hvalue, typeOfValue, ih]
        rfl
      | forEach s =>
        simp only [inferredType, tree_mk, hvalue, ih]
        rfl
      | _ => cases hvalue
    simp only [typeOfFuel, typeStep, tree_mk, hkind, bindIdentifier?, lookupVariable?, frontName,
      hsite, variableAt, variableType, htype, hvar, if_true, hinferred]
    rfl

end Steps

/-! ## Searches that end

A question that a rule asks goes to a node that ends further in front, or to a node under the one
that asks: a binding is asked about what stands in front of its question mark, and a name about a
value in front of it.  Such questions cannot go on for ever. -/

/-- The value that the variable of a name takes its type from. -/
def namedValue? (t : Tree) (n : NodeId) : Option NodeId := do
  let site ← siteLookup? t (t.token (t.firstToken n)).valueText n
  let type ← site.typeNode? t
  if isVar t type then site.typingNode? t else none

theorem namedValue?_eq_some_iff {t : Tree} {n value : NodeId} :
    namedValue? t n = some value ↔ TypesName t n value := by
  simp only [namedValue?, TypesName, Option.bind_eq_bind, Option.bind_eq_some_iff,
    Option.ite_none_right_eq_some, exists_and_left]

end Binder

namespace Document

open Binder

/-- Every name stands behind the value that its variable takes its type from. -/
def NamesBehindValues (d : Document) : Prop :=
  ∀ n < d.tree.nodeCount, d.tree.kind n = .identifierName →
    ∀ value ∈ namedValue? d.tree n, (d.tree.span value).stop ≤ (d.tree.span n).start

instance (d : Document) : Decidable d.NamesBehindValues :=
  inferInstanceAs (Decidable (∀ n < d.tree.nodeCount, d.tree.kind n = .identifierName →
    ∀ value ∈ namedValue? d.tree n, (d.tree.span value).stop ≤ (d.tree.span n).start))

/-- The search for the type of every node of the document ends. -/
def Typed (p : Program) (d : Document) : Prop := ∀ n, ∃ T, (ofDocument p d).typeOf n = .ok T

end Document

namespace Binder

section Endings

variable {p : Program} {d : Document} {source : String} {t : Tree} {m n : NodeId}

theorem closed_ok : Closed fun x => ∃ a, x = .ok a where
  pure a := ⟨a, rfl⟩
  bind hx hf := by
    obtain ⟨a, rfl⟩ := hx
    exact hf a

/-- What ends in front of a node has its tokens in front of it. -/
theorem lastToken_lt_of_stop_le (h : parse source = .ok t) (hn : t.kind n ≠ .compilationUnit)
    (hstop : (t.span m).stop ≤ (t.span n).start) : t.lastToken m < t.lastToken n := by
  have ht := inOrder_of_parse h
  by_contra hle
  have hstops := ht.stop_le_stop (Nat.le_of_not_lt hle) (ht.firstToken_le_lastToken m).2
  have hspan := span_lt h hn
  exact absurd (Nat.lt_of_lt_of_le hspan hstops) (Nat.not_lt.mpr hstop)

/-- What stands in front of a question mark ends in front of what is bound to it. -/
theorem lastToken_lt_of_bindingReceiver? (ht : InOrder t)
    (hm : bindingReceiver? t n = some m) : t.lastToken m < t.lastToken n := by
  obtain ⟨access, haccess, h⟩ := List.exists_of_findSome?_eq_some hm
  obtain ⟨r, hr, h⟩ := Option.bind_eq_some_iff.mp h
  split at h
  · cases h
  next hside =>
    obtain rfl := Option.some.inj h
    have habove : t.isAncestor access n = true :=
      List.contains_iff_mem.mpr (List.mem_filter.mp haccess).1
    obtain ⟨c, hc, hunder⟩ := exists_child_of_isAncestor ht.parsed habove
    obtain ⟨rest, hchildren⟩ : ∃ rest, t.childNodes access = r :: rest :=
      List.head?_eq_some_iff.mp hr
    -- the binding is not under the first child of the access
    have hne : c ≠ r := by
      rintro rfl
      rw [under, Bool.or_eq_true, beq_iff_eq] at hunder
      rw [Bool.or_eq_true, beq_iff_eq, eq_comm (a := c)] at hside
      exact hside hunder
    have hpairs := ht.childNodes_pairwise access
    rw [hchildren] at hc hpairs
    have hlt := (List.pairwise_cons.mp hpairs).1 c ((List.mem_cons.mp hc).resolve_left hne)
    obtain ⟨ns, hrises⟩ := (under_iff ht.parsed).mp hunder
    calc t.lastToken r
      _ < t.firstToken c := hlt
      _ ≤ t.firstToken n := (hrises.tokens_le ht).1
      _ ≤ t.lastToken n := (ht.firstToken_le_lastToken n).1

/-- A question goes to a node that ends further in front, or to one that ends with the node that
asks and stands under it. -/
theorem Asks.decreases (h : parse source = .ok d.tree) (hbehind : d.NamesBehindValues)
    (hm : Asks d.tree n m) : d.tree.lastToken m < d.tree.lastToken n ∨
      d.tree.lastToken m ≤ d.tree.lastToken n ∧ d.tree.isAncestor n m = true := by
  have ht := inOrder_of_parse h
  cases hm with
  | below hc hm =>
    have hrises := hm.append (.up hc (.here n))
    exact .inr ⟨(hrises.tokens_le ht).2, isAncestor_of_rises ht.parsed hrises⟩
  | bound hbinding _ hm =>
    exact .inl (Nat.lt_of_lt_of_le (lastToken_lt_of_bindingReceiver? ht hm)
      (hbinding.tokens_le ht).2)
  | @named name _ _ hname hkind hm =>
    have hunit : d.tree.kind name ≠ .compilationUnit := by simp [hkind]
    have hstop := hbehind _ (lt_nodeCount_of_kind hunit) hkind m
      (Option.mem_def.mpr (namedValue?_eq_some_iff.mpr hm))
    exact .inl (Nat.lt_of_lt_of_le (lastToken_lt_of_stop_le h hunit hstop) (hname.tokens_le ht).2)

/-- **Where every name stands behind its value, all searches for types end.** -/
theorem typed_of_namesBehindValues (h : parse source = .ok d.tree)
    (hbehind : d.NamesBehindValues) (n : NodeId) : ∃ T, (ofDocument p d).typeOf n = .ok T := by
  by_cases hn : n < d.tree.nodeCount
  · rw [typeOf_eq_typeStep]
    exact typeStep_related (p := p) (d := d) (g := (ofDocument p d).typeOf)
      closed_ok.sequential fun m hm => typed_of_namesBehindValues h hbehind m
  · exact ⟨_, typeOfFuel_of_ge (Nat.le_of_not_lt hn)⟩
termination_by (d.tree.lastToken n, d.tree.nodeCount - d.tree.depth n)
decreasing_by
  have hp := parsed_of_parse h
  obtain ⟨ns, hrises⟩ := hp.exists_rises_root hn
  have hdepth : d.tree.depth n < d.tree.nodeCount := by
    rw [depth, hrises.ancestors_eq_of_root hp]
    exact hrises.length_lt hp
  rcases hm.decreases h hbehind with hlt | ⟨hle, habove⟩
  · exact .left _ _ hlt
  · have hdeeper := depth_lt_of_isAncestor hp habove
    rcases Nat.lt_or_eq_of_le hle with hlt | heq
    · exact .left _ _ hlt
    · rw [heq]
      exact .right _ (by omega)

end Endings

section Kept

variable {P : {α : Type} → Analysis α → Prop} (hP : Closed P) {p : Program} {d : Document}
  (htypes : ∀ n, P ((ofDocument p d).typeOf n))

include hP htypes

/-- What holds of all types and is kept by asking questions holds of what calls call. -/
theorem resolveInvocation?_keeps (n : NodeId) : P ((ofDocument p d).resolveInvocation? n) :=
  resolveInvocation?_related (p := p) (d := d) (g := (ofDocument p d).typeOf) hP.sequential
    fun m _ => htypes m

theorem referencedSymbol?_keeps (n : NodeId) : P ((ofDocument p d).referencedSymbol? n) :=
  referencedSymbol?_related (p := p) (d := d) (g := (ofDocument p d).typeOf) hP.sequential htypes

end Kept

/-! ## Types of variables

A variable whose declaration writes a type asks no question, which is why its type is known whatever
the rest of the program is. -/

section Variables

variable {b : Binder} {site : VariableSite} {name : String} {n type : NodeId}

/-- A lookup finds the variable of the place that the search ends at. -/
theorem lookupVariable?_of_site (h : siteLookup? b.tree name n = some site) :
    b.lookupVariable? name n = some <$> b.variableAt site := by
  rw [lookupVariable?, h]

/-- **A variable whose declaration writes a type has that type**, whatever the types of expressions
are. -/
theorem variableAt_of_written (htype : site.typeNode? b.tree = some type)
    (hkind : b.tree.kind type ≠ .identifierName) :
    b.variableAt site =
      .ok (b.declare (site.identifier b.tree) (b.resolveType type) site.variableKind) := by
  have hvar : isVar b.tree type = false := by simp [isVar, hkind]
  simp only [variableAt, variableType, htype, hvar]
  rfl

end Variables

end Binder

end CodeMend
