import CodeMend.Proofs.Model.Index
import CodeMend.Proofs.Binding.Passing

/-!
# CodeMend — implicit conversion as an order

Between known types, implicit conversion follows a few rules, and two conversions one after the
other come to one, with one exception.  Nothing but `void` is kept from being an object, yet `void`
converts to a nullable around it, as every type does, and this one to an object.  No source gives a
parameter such a type: only numbers and truth values become nullable.  So overload resolution, which
compares methods by the types that the arguments convert to, does it by a transitive relation.

* **`StaticType.Converts`**, **`StaticType.convertsTo_iff`** — the rules of implicit conversion.
* **`StaticType.Converts.trans_or`**, **`StaticType.LosesVoid.not_converts`** — two conversions come
  to one, or lose `void`, and not both.
* **`StaticType.onlyValuesNullable_resolveType`**, **`Program.plainParameters_ofSolution`** — the
  types that a source writes and gives to parameters.
* **`Overloads.dominates_trans`** — methods are compared by a transitive relation.
* **`StaticType.conversion_is_preorder_but_for_void`** — the order of known types.
-/

namespace CodeMend

namespace StaticType

variable {a b c t : StaticType} {as bs cs ts : List StaticType} {p q r : Primitive} {n : Nat}

/-! ## The rules

The rules are stated as an inductive relation, apart from the function that decides them, so that
transitivity can be proved by cases on how a conversion came about. -/

/-- The rules of implicit conversion between known types. -/
inductive Converts : StaticType → StaticType → Prop where
  | refl (a : StaticType) : Converts a a
  | object {a : StaticType} (h : a ≠ .void) : Converts a (.primitive .object)
  | null {b : StaticType} (h : b.isReferenceLike = true) : Converts .null b
  | widens {p q : Primitive} (h : p.widensTo q = true) : Converts (.primitive p) (.primitive q)
  | nullable {a b : StaticType} (h : Converts a b) : Converts a (.nullable b)
  | tuple {as bs : List StaticType} (hlength : as.length = bs.length)
      (h : ∀ (i : Nat) (a b : StaticType), as[i]? = some a → bs[i]? = some b → Converts a b) :
      Converts (.tuple as) (.tuple bs)

namespace Converts

theorem nullable_iff : Converts a (.nullable t) ↔ a = .nullable t ∨ a = .null ∨ Converts a t := by
  constructor
  · intro h
    cases h with
    | refl => exact .inl rfl
    | null => exact .inr (.inl rfl)
    | nullable h => exact .inr (.inr h)
  · rintro (rfl | rfl | h)
    · exact .refl _
    · exact .null rfl
    · exact .nullable h

/-- The items of one list convert to those of another one. -/
def Items (as bs : List StaticType) : Prop :=
  as.length = bs.length ∧
    ∀ (i : Nat) (a b : StaticType), as[i]? = some a → bs[i]? = some b → Converts a b

theorem items_cons : Items (a :: as) (b :: bs) ↔ Converts a b ∧ Items as bs := by
  constructor
  · rintro ⟨hlength, h⟩
    exact ⟨h 0 a b rfl rfl, Nat.succ.inj hlength, fun i => h (i + 1)⟩
  · rintro ⟨hhead, hlength, h⟩
    refine ⟨congrArg Nat.succ hlength, fun i => ?_⟩
    cases i with
    | zero =>
      rintro _ _ ⟨⟩ ⟨⟩
      exact hhead
    | succ i => exact h i

theorem tuple_iff : Converts a (.tuple ts) ↔ ∃ ss, a = .tuple ss ∧ Items ss ts := by
  constructor
  · intro h
    cases h with
    | refl =>
      refine ⟨ts, rfl, rfl, fun i a b ha hb => ?_⟩
      obtain rfl := Option.some.inj (ha.symm.trans hb)
      exact .refl a
    | null h => cases h
    | tuple hlength h => exact ⟨_, rfl, hlength, h⟩
  · rintro ⟨ss, rfl, hlength, h⟩
    exact .tuple hlength h

theorem primitive_iff :
    Converts a (.primitive q) ↔
      a = .primitive q ∨ (q = .object ∧ a ≠ .void) ∨
        (a = .null ∧ (StaticType.primitive q).isReferenceLike = true) ∨
        ∃ p, a = .primitive p ∧ p.widensTo q = true := by
  constructor
  · intro h
    cases h with
    | refl => exact .inl rfl
    | object h => exact .inr (.inl ⟨rfl, h⟩)
    | null h => exact .inr (.inr (.inl ⟨rfl, h⟩))
    | widens h => exact .inr (.inr (.inr ⟨_, rfl, h⟩))
  · rintro (rfl | ⟨rfl, h⟩ | ⟨rfl, h⟩ | ⟨p, rfl, h⟩)
    · exact .refl _
    · exact .object h
    · exact .null h
    · exact .widens h

theorem other_iff (hprimitive : ∀ q, t ≠ .primitive q) (hnullable : ∀ u, t ≠ .nullable u)
    (htuple : ∀ ts, t ≠ .tuple ts) :
    Converts a t ↔ a = t ∨ (a = .null ∧ t.isReferenceLike = true) := by
  constructor
  · intro h
    cases h with
    | refl => exact .inl rfl
    | null h => exact .inr ⟨rfl, h⟩
    | object | widens => exact absurd rfl (hprimitive _)
    | nullable => exact absurd rfl (hnullable _)
    | tuple => exact absurd rfl (htuple _)
  · rintro (rfl | ⟨rfl, h⟩)
    · exact .refl _
    · exact .null h

end Converts

/-! ## Conversion by the rules

The function goes by the target and the relation by the rule.  Between known types they are the
same; a type that is not known converts to every other one and back, and no rule says so. -/

theorem convertsTo_self (a : StaticType) : a.convertsTo a = true := by
  unfold convertsTo
  simp

mutual

/-- **Between known types, implicit conversion follows the rules.** -/
theorem convertsTo_iff (a b : StaticType) (ha : a.isKnown = true) (hb : b.isKnown = true) :
    a.convertsTo b = true ↔ Converts a b := by
  by_cases hab : a = b
  · subst hab
    exact ⟨fun _ => .refl a, fun _ => convertsTo_self a⟩
  have hguard : ¬ (a == b || !a.isKnown || !b.isKnown) = true := by simp [hab, ha, hb]
  -- by the target, since a conversion goes on to parts of it only
  match b with
  | .nullable t =>
    rw [convertsTo, if_neg hguard, Converts.nullable_iff, ← convertsTo_iff a t ha hb]
    simp [hab]
  | .tuple ts =>
    rw [Converts.tuple_iff]
    cases a with
    | tuple ss =>
      rw [convertsTo, if_neg hguard, allConvert_iff ss ts ha hb]
      simp
    | _ => rw [convertsTo, if_neg hguard] <;> simp
  | .primitive q =>
    rw [Converts.primitive_iff]
    by_cases hq : q = .object
    · subst hq
      rw [convertsTo, if_neg hguard]
      cases a <;> simp_all
    · cases a <;> rw [convertsTo, if_neg hguard] <;> simp_all
  | .array _ | .named _ | .void | .null =>
    rw [convertsTo, if_neg hguard, Converts.other_iff] <;> simp [hab]
  | .unknown => cases hb

theorem allConvert_iff (as bs : List StaticType) (has : allKnown as = true)
    (hbs : allKnown bs = true) : allConvert as bs = true ↔ Converts.Items as bs := by
  match as, bs with
  | [], [] => simp [allConvert, Converts.Items]
  | [], _ :: _ => simp [allConvert, Converts.Items]
  | _ :: _, [] => simp [allConvert, Converts.Items]
  | a :: as, b :: bs =>
    rw [allKnown, Bool.and_eq_true] at has hbs
    rw [allConvert, Bool.and_eq_true, Converts.items_cons, convertsTo_iff a b has.1 hbs.1,
      allConvert_iff as bs has.2 hbs.2]

end

/-! ## One conversion after another

Two conversions are made into one by induction over the second.  The one case that fails is `void`
that becomes nullable and then an object, and this is carried along as the other outcome. -/

/-- What is wider than a wider type is wider. -/
theorem wider_subset (h : q ∈ p.wider) : q.wider ⊆ p.wider := by
  have hall : ∀ q ∈ p.wider, q.wider ⊆ p.wider := by cases p <;> decide
  exact hall q h

theorem widensTo_trans (hpq : p.widensTo q = true) (hqr : q.widensTo r = true) :
    p.widensTo r = true :=
  List.contains_iff_mem.mpr
    (wider_subset (List.contains_iff_mem.mp hpq) (List.contains_iff_mem.mp hqr))

/-- `void` made nullable, once and some times more. -/
def nullableVoid : Nat → StaticType
  | 0 => .nullable .void
  | n + 1 => .nullable (nullableVoid n)

/-- A conversion to the second type and one from there to the third type lose `void`, at the top or
at some place in tuples: it becomes nullable and from there an object. -/
inductive LosesVoid : StaticType → StaticType → StaticType → Prop where
  | object (n : Nat) : LosesVoid .void (nullableVoid n) (.primitive .object)
  | nullable {a b c : StaticType} (h : LosesVoid a b c) : LosesVoid a b (.nullable c)
  | tuple {as bs cs : List StaticType} {i : Nat} {a b c : StaticType} (ha : as[i]? = some a)
      (hb : bs[i]? = some b) (hc : cs[i]? = some c) (h : LosesVoid a b c) :
      LosesVoid (.tuple as) (.tuple bs) (.tuple cs)

/-- `void` converts to itself and to nullables around it. -/
theorem Converts.eq_of_void (h : Converts a b) (ha : a = .void) :
    b = .void ∨ ∃ n, b = nullableVoid n := by
  induction h with
  | refl => exact .inl ha
  | object hne => exact absurd ha hne
  | null | widens | tuple => cases ha
  | nullable _ ih =>
    rcases ih ha with rfl | ⟨n, rfl⟩
    · exact .inr ⟨0, rfl⟩
    · exact .inr ⟨n + 1, rfl⟩

/-- **Two conversions one after the other come to one, or they lose `void`.** -/
theorem Converts.trans_or (hab : Converts a b) (hbc : Converts b c) :
    Converts a c ∨ LosesVoid a b c := by
  -- on the second conversion, whose target tells what the first one may start from
  induction hbc generalizing a with
  | refl => exact .inl hab
  | object hb =>
    by_cases ha : a = .void
    · subst ha
      obtain ⟨n, rfl⟩ := (hab.eq_of_void rfl).resolve_left hb
      exact .inr (.object n)
    · exact .inl (.object ha)
  | null h =>
    rw [other_iff (by simp) (by simp) (by simp), or_iff_left fun hnull => by cases hnull.2] at hab
    exact .inl (hab ▸ .null h)
  | @widens p q h =>
    rcases primitive_iff.mp hab with rfl | ⟨rfl, -⟩ | ⟨rfl, hp⟩ | ⟨p', rfl, hp⟩
    · exact .inl (.widens h)
    · cases h
    · -- what null converts to has nothing wider
      cases p <;> simp_all [isReferenceLike, Primitive.widensTo, Primitive.wider]
    · exact .inl (.widens (widensTo_trans hp h))
  | nullable _ ih => exact (ih hab).imp .nullable .nullable
  | @tuple bs cs hlength h ih =>
    obtain ⟨as, rfl, hlength', h'⟩ := tuple_iff.mp hab
    -- one item that loses `void` is enough, and if none does, all items convert
    by_cases hloses : ∃ (i : Nat) (a b c : StaticType), as[i]? = some a ∧ bs[i]? = some b ∧
        cs[i]? = some c ∧ LosesVoid a b c
    · obtain ⟨i, a, b, c, ha, hb, hc, hloses⟩ := hloses
      exact .inr (.tuple ha hb hc hloses)
    · refine .inl (.tuple (hlength'.trans hlength) fun i a c ha hc => ?_)
      obtain ⟨hi, -⟩ := List.getElem?_eq_some_iff.mp ha
      obtain ⟨b, hb⟩ : ∃ b, bs[i]? = some b := ⟨_, List.getElem?_eq_getElem (hlength' ▸ hi)⟩
      exact (ih i b c hb hc (h' i a b ha hb)).resolve_right fun hlost =>
        hloses ⟨i, a, b, c, ha, hb, hc, hlost⟩

theorem LosesVoid.eq_void_or_tuple (h : LosesVoid a b c) : a = .void ∨ ∃ as, a = .tuple as := by
  induction h with
  | object => exact .inl rfl
  | nullable _ ih => exact ih
  | tuple => exact .inr ⟨_, rfl⟩

/-- **Where `void` is lost, there is no conversion.** -/
theorem LosesVoid.not_converts (h : LosesVoid a b c) : ¬ Converts a c := by
  induction h with
  | object n => simp [Converts.primitive_iff]
  | nullable h ih =>
    rw [Converts.nullable_iff]
    rcases h.eq_void_or_tuple with rfl | ⟨as, rfl⟩ <;> simpa using ih
  | tuple ha _ hc _ ih =>
    rw [Converts.tuple_iff]
    rintro ⟨_, ⟨⟩, -, hitems⟩
    exact ih (hitems _ _ _ ha hc)

/-! ## Types that a source writes

A source cannot write `void?`: a type that it writes is nullable only around a number or a truth
value.  So the failing case is out of reach for types that come from a source. -/

mutual

/-- What is nullable in the type are numbers and truth values. -/
def onlyValuesNullable : StaticType → Bool
  | .nullable t => t.primitive?.any fun q => q.isNumeric || q == .bool
  | .array t => onlyValuesNullable t
  | .tuple ts => allOnlyValuesNullable ts
  | _ => true

def allOnlyValuesNullable : List StaticType → Bool
  | [] => true
  | t :: ts => onlyValuesNullable t && allOnlyValuesNullable ts

end

theorem allOnlyValuesNullable_iff :
    allOnlyValuesNullable ts = true ↔ ∀ t ∈ ts, t.onlyValuesNullable = true := by
  induction ts with
  | nil => simp [allOnlyValuesNullable]
  | cons t ts ih => simp [allOnlyValuesNullable, ih]

theorem onlyValuesNullable_makeNullable (h : t.onlyValuesNullable = true) :
    (Program.makeNullable t).onlyValuesNullable = true := by
  unfold Program.makeNullable
  split
  next q =>
    split
    next hq => simpa [onlyValuesNullable, primitive?] using hq
    next => rfl
  next => exact h

theorem onlyValuesNullable_nestArrays (n : Nat) (h : t.onlyValuesNullable = true) :
    (Program.nestArrays n t).onlyValuesNullable = true := by
  induction n generalizing t with
  | zero => exact h
  | succ n ih => exact ih (by rwa [onlyValuesNullable])

/-- The type of a name is no nullable and no type with parts. -/
theorem onlyValuesNullable_resolveName (p : Program) (d : Document) (m : NodeId) :
    (p.resolveName d m).onlyValuesNullable = true := by
  unfold Program.resolveName
  dsimp only
  split
  · rfl
  cases p.lookupType? d m (Program.typeName d.tree m) with
  | some id => rfl
  | none =>
    cases Primitive.ofFrameworkName? (Program.typeName d.tree m) with
    | some q => rfl
    | none => dsimp only; split <;> rfl

/-- **In the types that a source writes, only numbers and truth values are nullable.** -/
theorem onlyValuesNullable_resolveType (p : Program) (d : Document) (m : NodeId) :
    (p.resolveType d m).onlyValuesNullable = true := by
  unfold Program.resolveType
  generalize d.tree.nodeCount + 1 = fuel
  induction fuel generalizing m with
  | zero => rfl
  | succ fuel ih =>
    rw [Program.resolveTypeFuel]
    dsimp only
    split
    next =>
      split
      · rfl
      · cases Primitive.ofKeyword? (d.tree.text m) <;> rfl
    next =>
      split
      · exact onlyValuesNullable_makeNullable (ih _)
      · rfl
    next =>
      split
      · exact onlyValuesNullable_nestArrays _ (ih _)
      · rfl
    next =>
      rw [onlyValuesNullable, allOnlyValuesNullable_iff]
      intro t ht
      obtain ⟨e, -, rfl⟩ := List.mem_map.mp ht
      split
      · exact ih _
      · rfl
    -- What is left are names of types, and nodes that write no type.
    all_goals first | exact onlyValuesNullable_resolveName p d m | rfl

/-- **Where only numbers and truth values are nullable, `void` is not lost.** -/
theorem LosesVoid.onlyValuesNullable_eq_false (h : LosesVoid a b c) :
    b.onlyValuesNullable = false := by
  induction h with
  | object n =>
    cases n with
    | zero => rfl
    | succ n => cases n <;> rfl
  | nullable _ ih => exact ih
  | tuple _ hb _ _ ih =>
    rw [onlyValuesNullable, Bool.eq_false_iff, ne_eq, allOnlyValuesNullable_iff]
    intro hall
    rw [hall _ (List.mem_of_getElem? hb)] at ih
    cases ih

end StaticType

/-! ## Types of parameters

The types of parameters are written in a source or belong to the library, and so are of this kind.
The property is kept by each symbol that is added to a program. -/

namespace Program

variable {p : Program} {d : Document}

/-- In the types of parameters, only numbers and truth values are nullable. -/
def PlainParameters (p : Program) : Prop :=
  ∀ m ∈ p.methods, ∀ q ∈ m.parameters, q.type.onlyValuesNullable = true

theorem onlyValuesNullable_resolveOptional (p : Program) (d : Document) (m : Option NodeId) :
    (p.resolveOptional d m).onlyValuesNullable = true := by
  cases m with
  | none => rfl
  | some m => exact StaticType.onlyValuesNullable_resolveType p d m

theorem PlainParameters.addMethod {m : MethodSymbol} (h : p.PlainParameters)
    (hm : ∀ q ∈ m.parameters, q.type.onlyValuesNullable = true) :
    (p.addMethod m).PlainParameters := by
  intro m' hm'
  rcases Array.mem_push.mp hm' with hm' | rfl
  · exact h m' hm'
  · exact hm

/-- A method of the library takes one parameter, which is of a primitive type. -/
theorem onlyValuesNullable_librarySymbol {l : LibraryType} (hl : l ∈ LibraryType.all)
    {m : LibraryMethod} (hm : m ∈ l.methods) (type : TypeId) :
    ∀ q ∈ (librarySymbol type m).parameters, q.type.onlyValuesNullable = true := by
  intro q hq
  obtain ⟨t, ht, rfl⟩ := List.mem_map.mp hq
  obtain rfl := List.mem_singleton.mp hl
  obtain ⟨_, -, hm⟩ := List.mem_flatMap.mp hm
  obtain ⟨source, -, rfl⟩ := List.mem_map.mp hm
  obtain rfl := List.mem_singleton.mp ht
  rfl

theorem onlyValuesNullable_of_methodSymbol? {type : TypeId} {kind : TypeKind} {n : NodeId}
    {m : MethodSymbol} (hm : p.methodSymbol? d type kind n = some m) :
    ∀ q ∈ m.parameters, q.type.onlyValuesNullable = true := by
  obtain ⟨v, -, -, -, hparameters⟩ := exists_of_methodSymbol? hm
  rw [hparameters]
  intro q hq
  obtain ⟨w, -, rfl⟩ := List.mem_map.mp hq
  exact onlyValuesNullable_resolveOptional p d w.typeNode

/-- **In the types of the parameters of a program, only numbers and truth values are nullable.** -/
theorem plainParameters_ofSolution (s : Solution) : (ofSolution s).PlainParameters := by
  have hregistered : (registered s).PlainParameters :=
    holds_registered (by simp [PlainParameters]) (fun _ _ _ _ hq => hq)
      (fun _ type _ hl _ hm hq => hq.addMethod (onlyValuesNullable_librarySymbol hl hm type))
      (fun _ _ _ hq => hq) fun _ _ hq => hq
  exact holds_ofSolution hregistered (fun _ _ _ _ hq => hq) fun hm _ hq =>
    hq.addMethod (onlyValuesNullable_of_methodSymbol? hm)

end Program

/-! ## Methods that are compared

Overload resolution compares methods by the types that the arguments convert to, which are types of
parameters.  That this comparison is transitive is what conversions have to be transitive for. -/

namespace Overloads

open StaticType

variable {ps : List ParameterSymbol} {p : ParameterSymbol} {position : Nat} {s s' : Progress}
  {as : List ArgumentInfo} {a t : StaticType} {m : MethodSymbol} {x y z : Applicable}

/-- What an argument converts to is the type of the parameter, or of the elements of its array. -/
theorem onlyValuesNullable_of_target? (h : target? p a = some t)
    (hp : p.type.onlyValuesNullable = true) : t.onlyValuesNullable = true := by
  unfold target? at h
  split at h
  · split at h <;> cases h
    exact hp
  · split at h <;> cases h
    exact hp
  · split at h
    · cases h
      exact hp
    · split at h
      next element _ htype _ =>
        split at h <;> cases h
        rwa [htype, onlyValuesNullable] at hp
      next => cases h

/-- Every argument that is passed adds a type. -/
theorem targets_of_passArguments? (h : passArguments? ps position s as = some s') :
    s'.targets.length = s.targets.length + as.length ∧
      ∀ t ∈ s'.targets, t ∈ s.targets ∨ ∃ p ∈ ps, ∃ a, target? p a = some t := by
  induction as generalizing position s with
  | nil =>
    obtain rfl : s = s' := Option.some.inj h
    exact ⟨rfl, fun _ => .inl⟩
  | cons a as ih =>
    obtain ⟨s₁, hstep, hrest⟩ := Option.bind_eq_some_iff.mp h
    obtain ⟨i, p, target, -, hparameter, -, -, htarget, rfl⟩ := passArgument?_eq_some_iff.mp hstep
    obtain ⟨hlength, hmem⟩ := ih hrest
    refine ⟨?_, fun t ht => ?_⟩
    · rw [hlength, List.length_append, List.length_singleton, List.length_cons]
      omega
    · rcases hmem t ht with ht | hother
      · rcases List.mem_append.mp ht with ht | ht
        · exact .inl ht
        · exact .inr ⟨p, List.mem_of_getElem? hparameter, a.type,
            List.mem_singleton.mp ht ▸ htarget⟩
      · exact .inr hother

theorem targets_of_applicable? (h : applicable? m as = some x) :
    x.targets.length = as.length ∧
      ∀ t ∈ x.targets, ∃ p ∈ m.parameters, ∃ a, target? p a = some t := by
  unfold applicable? at h
  obtain ⟨s, hwalk, h⟩ := Option.bind_eq_some_iff.mp h
  split at h
  next =>
    cases h
    obtain ⟨hlength, hmem⟩ := targets_of_passArguments? hwalk
    exact ⟨by simpa using hlength, fun t ht => (hmem t ht).resolve_left List.not_mem_nil⟩
  next => cases h

theorem dominates_iff :
    dominates x y = true ↔ ∀ (i : Nat) (a b : StaticType), x.targets[i]? = some a →
      y.targets[i]? = some b → a.isKnown = true ∧ b.isKnown = true ∧ Converts a b := by
  unfold dominates
  rw [List.all_eq_true]
  constructor
  · intro h i a b ha hb
    have hmem : (a, b) ∈ x.targets.zip y.targets :=
      List.mem_of_getElem? (List.getElem?_zip_eq_some.mpr ⟨ha, hb⟩)
    have hab := h _ hmem
    simp only [Bool.and_eq_true] at hab
    exact ⟨hab.1.1, hab.1.2, (convertsTo_iff a b hab.1.1 hab.1.2).mp hab.2⟩
  · rintro h ⟨a, b⟩ hmem
    obtain ⟨i, hi⟩ := List.mem_iff_getElem?.mp hmem
    obtain ⟨ha, hb⟩ := List.getElem?_zip_eq_some.mp hi
    obtain ⟨hka, hkb, hab⟩ := h i a b ha hb
    simp only [Bool.and_eq_true]
    exact ⟨⟨hka, hkb⟩, (convertsTo_iff a b hka hkb).mpr hab⟩

/-- **Methods that accept as many arguments are compared by a transitive relation**, where only
numbers and truth values are nullable. -/
theorem dominates_trans (hlength : x.targets.length = y.targets.length)
    (hy : ∀ t ∈ y.targets, t.onlyValuesNullable = true) (hxy : dominates x y = true)
    (hyz : dominates y z = true) : dominates x z = true := by
  rw [dominates_iff] at hxy hyz ⊢
  intro i a c ha hc
  obtain ⟨hi, -⟩ := List.getElem?_eq_some_iff.mp ha
  obtain ⟨b, hb⟩ : ∃ b, y.targets[i]? = some b := ⟨_, List.getElem?_eq_getElem (hlength ▸ hi)⟩
  obtain ⟨hka, -, hab⟩ := hxy i a b ha hb
  obtain ⟨-, hkc, hbc⟩ := hyz i b c hb hc
  refine ⟨hka, hkc, (hab.trans_or hbc).resolve_right fun hloses => ?_⟩
  have hplain := hy b (List.mem_of_getElem? hb)
  rw [hloses.onlyValuesNullable_eq_false] at hplain
  cases hplain

end Overloads

namespace StaticType

open Overloads

variable {a b c : StaticType}

/-! ## The order of known types

All of it is put together, with `void` for the one exception. -/

/-- **Implicit conversion is a preorder of the known types, but for `void` made nullable.**  Every
type converts to itself, and a conversion after another one comes to one, except just where `void`
becomes nullable, at the top or at some place in tuples, and from there an object.  No type that a
source writes stands between two types in this way, and so the methods of a program that accept the
arguments of a call are compared by a transitive relation. -/
theorem conversion_is_preorder_but_for_void (ha : a.isKnown = true) (hb : b.isKnown = true)
    (hc : c.isKnown = true) :
    a.convertsTo a = true ∧
    (a.convertsTo b = true → b.convertsTo c = true →
      (a.convertsTo c = true ↔ ¬ LosesVoid a b c)) ∧
    (∀ p d m, b = Program.resolveType p d m → ¬ LosesVoid a b c) ∧
    ∀ s arguments, ∀ l ∈ (Program.ofSolution s).methods, ∀ m ∈ (Program.ofSolution s).methods,
      ∀ n ∈ (Program.ofSolution s).methods, ∀ x y z, applicable? l arguments = some x →
      applicable? m arguments = some y → applicable? n arguments = some z →
      dominates x y = true → dominates y z = true → dominates x z = true := by
  refine ⟨convertsTo_self a, fun hab hbc => ?_, ?_, ?_⟩
  · rw [convertsTo_iff a b ha hb] at hab
    rw [convertsTo_iff b c hb hc] at hbc
    rw [convertsTo_iff a c ha hc]
    exact ⟨fun hac hloses => hloses.not_converts hac, (hab.trans_or hbc).resolve_right⟩
  · rintro p d m rfl hloses
    have hwritten := onlyValuesNullable_resolveType p d m
    rw [hloses.onlyValuesNullable_eq_false] at hwritten
    cases hwritten
  · intro s arguments l _ m hm n _ x y z hx hy _ hxy hyz
    obtain ⟨hlengthx, -⟩ := targets_of_applicable? hx
    obtain ⟨hlengthy, htargets⟩ := targets_of_applicable? hy
    refine dominates_trans (hlengthx.trans hlengthy.symm) (fun t ht => ?_) hxy hyz
    obtain ⟨q, hq, argument, htarget⟩ := htargets t ht
    exact onlyValuesNullable_of_target? htarget (Program.plainParameters_ofSolution s m hm q hq)

/-- Numbers widen, null becomes a string and an array an object, each at its place. -/
theorem conversion_is_preorder_but_for_void_items :
    let a : StaticType := .tuple [.primitive .byte, .tuple [.null, .array (.named "C")]]
    let b : StaticType := .tuple [.primitive .int, .tuple [.primitive .string, .array (.named "C")]]
    let c : StaticType := .tuple [.nullable (.primitive .double),
      .tuple [.primitive .object, .primitive .object]]
    a.isKnown = true ∧ b.isKnown = true ∧ c.isKnown = true ∧ a.convertsTo b = true ∧
      b.convertsTo c = true ∧ a.convertsTo c = true ∧ c.convertsTo b = false ∧
      ¬ LosesVoid a b c := by
  intro a b c
  have h := conversion_is_preorder_but_for_void (a := a) (b := b) (c := c) rfl rfl rfl
  exact ⟨rfl, rfl, rfl, by decide, by decide, by decide, by decide,
    (h.2.1 (by decide) (by decide)).mp (by decide)⟩

/-- **Conversion is not transitive at `void`.** -/
theorem void_is_lost_when_nullable :
    StaticType.void.isKnown = true ∧ (StaticType.nullable .void).isKnown = true ∧
      (StaticType.primitive .object).isKnown = true ∧
      StaticType.void.convertsTo (.nullable .void) = true ∧
      (StaticType.nullable .void).convertsTo (.primitive .object) = true ∧
      StaticType.void.convertsTo (.primitive .object) = false := by
  decide

end StaticType

end CodeMend
