import CodeMend.Model.Program
import CodeMend.Proofs.Lists
import CodeMend.Proofs.Tree.Signatures

/-!
# CodeMend — what the index of a program holds

The index is built by steps that add a type, a declaration of a type or a method, and none takes
anything back.  So whatever a step adds is there in the end, and whatever is there some step added.

* **`Program.Grows`** — one program comes from another one by such steps.
* **`Program.grows_ofSolution`** — so does the index of a solution from an empty one.
* **`Program.Grows.declares`**, **`Program.Grows.hasMethod`** — nothing is taken back.
* **`Program.Grows.numbered`**, **`Program.Grows.sourced`** — every method bears its number and has
  the parameters of its declaration.
* **`Program.holds_registered`**, **`Program.holds_ofSolution`** — what the passes keep holds of the
  index.
* **`Program.declares_registered`** — every type declaration is known before members are indexed.
* **`Program.hasMethod_ofSolution`** — every method that stands in the declaration of a type is
  indexed.
* **`Program.declaredMethod?_ofSolution`** — what the symbol of a declaration says.
-/

namespace CodeMend

open Tree Production

/-- If the method has a declaration, it stands in one of some documents and has the parameters of
the method. -/
def MethodSymbol.IsFrom (documents : List Document) (m : MethodSymbol) : Prop :=
  ∀ declaration, m.declaration = some declaration →
    ∃ d ∈ documents, d.id = declaration.document ∧
      ∃ v, MethodView.ofNode? d.tree declaration.node = some v ∧
        m.parameters.map ParameterSymbol.name =
          ((v.parameters d.tree).items.filterMap (ParameterView.ofNode? d.tree)).map
            fun w => w.nameText d.tree

namespace Program

variable {documents : List Document} {p q r : Program} {d : Document} {document : DocumentId}
  {n c : NodeId}

/-- A program comes from another one by steps that add types, declarations and methods; the methods
with a declaration are those of some documents. -/
inductive Grows (documents : List Document) (p : Program) : Program → Prop where
  | refl : Grows documents p p
  | addType {q : Program} (h : Grows documents p q) (name qualifiedName : String) (kind : TypeKind) :
      Grows documents p (q.addType name qualifiedName kind).1
  | changeType {q : Program} (h : Grows documents p q) (id : TypeId) (f : TypeSymbol → TypeSymbol)
      (hf : ∀ t, t.declarations ⊆ (f t).declarations) :
      Grows documents p { q with types := q.types.modify id f }
  | addImports {q : Program} (h : Grows documents p q) (usings : List (DocumentId × List String)) :
      Grows documents p { q with usings := usings }
  | addMethod {q : Program} (h : Grows documents p q) (m : MethodSymbol) (hm : m.IsFrom documents) :
      Grows documents p (q.addMethod m)

theorem Grows.trans (h : Grows documents p q) (h' : Grows documents q r) :
    Grows documents p r := by
  induction h' with
  | refl => exact h
  | addType _ name qualifiedName kind ih => exact .addType ih name qualifiedName kind
  | changeType _ id f hf ih => exact .changeType ih id f hf
  | addImports _ usings ih => exact .addImports ih usings
  | addMethod _ m hm ih => exact .addMethod ih m hm

theorem Grows.foldl {α : Type} {f : Program → α → Program} {xs : List α}
    (hf : ∀ x ∈ xs, ∀ p, Grows documents p (f p x)) (p : Program) :
    Grows documents p (xs.foldl f p) :=
  List.foldlRecOn xs f .refl fun q hq x hx => hq.trans (hf x hx q)

/-! ## What the steps keep

The index is built in many small steps, and each of them only adds.  What a step keeps is listed
once, and then all of it goes by induction over the steps. -/

/-- A declaration of a type is known. -/
def Declares (p : Program) (document : DocumentId) (n : NodeId) : Prop :=
  ∃ (i : TypeId) (t : TypeSymbol), p.types[i]? = some t ∧ (document, n) ∈ t.declarations

/-- A declaration of a method is known. -/
def HasMethod (p : Program) (document : DocumentId) (n : NodeId) : Prop :=
  ∃ m ∈ p.methods, ∃ declaration, m.declaration = some declaration ∧
    declaration.document = document ∧ declaration.node = n

/-- Every method bears its number. -/
def Numbered (p : Program) : Prop := ∀ (i : MethodId) (m : MethodSymbol), p.methods[i]? = some m → m.id = i

/-- What stands in an array of which one item was changed. -/
theorem exists_of_getElem?_modify {α : Type} {f : α → α} {xs : Array α} {i j : Nat} {x : α}
    (hx : (xs.modify i f)[j]? = some x) : ∃ y, xs[j]? = some y ∧ (x = y ∨ i = j ∧ x = f y) := by
  rw [Array.getElem?_modify] at hx
  split at hx
  next hij =>
    obtain ⟨y, hy, rfl⟩ := Option.map_eq_some_iff.mp hx
    exact ⟨y, hy, .inr ⟨hij, rfl⟩⟩
  next => exact ⟨x, hx, .inl rfl⟩

theorem declares_modify {id : TypeId} {f : TypeSymbol → TypeSymbol}
    (hf : ∀ t, t.declarations ⊆ (f t).declarations) (h : p.Declares document n) :
    Declares { p with types := p.types.modify id f } document n := by
  obtain ⟨i, t, ht, hmem⟩ := h
  by_cases hid : id = i
  · exact ⟨i, f t, by simp [Array.getElem?_modify, hid, ht], hf t hmem⟩
  · exact ⟨i, t, by simp [Array.getElem?_modify, hid, ht], hmem⟩

namespace Grows

variable (h : Grows documents p q)

include h

theorem solution_eq : q.solution = p.solution := by
  induction h with
  | refl => rfl
  | addType _ _ _ _ ih => exact ih
  | changeType _ _ _ _ ih => exact ih
  | addImports _ _ ih => exact ih
  | addMethod _ _ _ ih => exact ih

/-- **No declaration of a type is taken back.** -/
theorem declares (hp : p.Declares document n) : q.Declares document n := by
  induction h with
  | refl => exact hp
  | @addType q _ name qualifiedName kind ih =>
    obtain ⟨i, t, ht, hmem⟩ := ih
    obtain ⟨hi, rfl⟩ := Array.getElem?_eq_some_iff.mp ht
    refine ⟨i, q.types[i], ?_, hmem⟩
    simp [Program.addType, Array.getElem?_push, Nat.ne_of_lt hi, hi]
  | changeType _ id f hf ih => exact declares_modify hf ih
  | addImports _ usings ih => exact ih
  | addMethod _ m hm ih => exact declares_modify (fun _ => List.Subset.refl _) ih

/-- **No declaration of a method is taken back.** -/
theorem hasMethod (hp : p.HasMethod document n) : q.HasMethod document n := by
  induction h with
  | refl => exact hp
  | addType _ _ _ _ ih => exact ih
  | changeType _ _ _ _ ih => exact ih
  | addImports _ _ ih => exact ih
  | addMethod _ m _ ih =>
    obtain ⟨m', hm', hdeclaration⟩ := ih
    exact ⟨m', Array.mem_push_of_mem _ hm', hdeclaration⟩

/-- **Methods bear the numbers of the order in which they were added.** -/
theorem numbered (hp : p.Numbered) : q.Numbered := by
  induction h with
  | refl => exact hp
  | addType _ _ _ _ ih => exact ih
  | changeType _ _ _ _ ih => exact ih
  | addImports _ _ ih => exact ih
  | addMethod _ m _ ih =>
    intro i m' hm'
    simp only [Program.addMethod, Array.getElem?_push] at hm'
    split at hm'
    next hi =>
      obtain rfl := Option.some.inj hm'
      exact hi.symm
    next => exact ih i m' hm'

/-- **Every method with a declaration is one that stands in a document.** -/
theorem sourced (hp : ∀ m ∈ p.methods, m.IsFrom documents) :
    ∀ m ∈ q.methods, m.IsFrom documents := by
  induction h with
  | refl => exact hp
  | addType _ _ _ _ ih => exact ih
  | changeType _ _ _ _ ih => exact ih
  | addImports _ _ ih => exact ih
  | addMethod _ m hm ih =>
    intro m' hm'
    rcases Array.mem_push.mp hm' with hm' | rfl
    · exact ih m' hm'
    · exact hm

end Grows

/-! ## The steps of the build

There are a handful of kinds of steps: types and declarations of types in the first pass, members
and methods in the second. -/

theorem grows_foldl_addMethod {ms : List MethodSymbol} (hms : ∀ m ∈ ms, m.IsFrom documents)
    (p : Program) : Grows documents p (ms.foldl addMethod p) :=
  Grows.foldl (fun m hm _ => .addMethod .refl m (hms m hm)) p

theorem grows_addLibraryType (p : Program) (l : LibraryType) :
    Grows documents p (p.addLibraryType l) := by
  refine (Grows.addType .refl _ _ _).trans (Grows.foldl (fun m _ q => ?_) _)
  refine .addMethod .refl _ fun declaration hdeclaration => ?_
  cases hdeclaration

/-- **Registering a node** adds a type at most, and a declaration to a type. -/
theorem holds_registerType {P : Program → Prop} (h : P p)
    (htype : ∀ q name qualifiedName kind, P q → P (addType q name qualifiedName kind).1)
    (hplace : ∀ (q : Program) (id : TypeId) (place : DocumentId × NodeId), P q →
      P { q with types := q.types.modify id fun t =>
        { t with declarations := t.declarations ++ [place] } }) :
    P (registerType d p n) := by
  simp only [registerType]
  split
  · exact h
  split
  · exact h
  split
  · exact hplace _ _ _ h
  · exact hplace _ _ _ (htype _ _ _ _ h)

theorem grows_registerType (p : Program) (d : Document) (n : NodeId) :
    Grows documents p (registerType d p n) :=
  holds_registerType .refl (fun _ _ _ _ hq => .addType hq _ _ _) fun _ _ _ hq =>
    .changeType hq _ _ fun _ => List.subset_append_left _ _

theorem grows_registerDocument (p : Program) (d : Document) :
    Grows documents p (p.registerDocument d) :=
  (Grows.addImports .refl _).trans (Grows.foldl (fun n _ q => grows_registerType q d n) _)

/-- The symbol of a method has the type that it was made for, and what its declaration tells. -/
theorem exists_of_methodSymbol? {type : TypeId} {kind : TypeKind} {m : MethodSymbol}
    (hm : p.methodSymbol? d type kind n = some m) :
    ∃ v, MethodView.ofNode? d.tree n = some v ∧ m.containingType = type ∧
      m.declaration = some ⟨d.id, n, d.tree.span n⟩ ∧
      m.parameters = ((v.parameters d.tree).items.filterMap (ParameterView.ofNode? d.tree)).map
        (p.parameterSymbol d) := by
  simp only [methodSymbol?, Option.bind_eq_bind, Option.bind_eq_some_iff, Option.pure_def,
    Option.some.injEq] at hm
  obtain ⟨v, hv, rfl⟩ := hm
  exact ⟨v, hv, rfl, rfl, rfl⟩

theorem isFrom_of_methodSymbol? (hd : d ∈ documents) {type : TypeId} {kind : TypeKind}
    {m : MethodSymbol} (hm : p.methodSymbol? d type kind n = some m) :
    m.IsFrom documents ∧ ∃ declaration, m.declaration = some declaration ∧
      declaration.document = d.id ∧ declaration.node = n := by
  obtain ⟨v, hv, -, hdeclaration, hparameters⟩ := exists_of_methodSymbol? hm
  refine ⟨fun declaration hsome => ?_, _, hdeclaration, rfl, rfl⟩
  obtain rfl := Option.some.inj (hdeclaration.symm.trans hsome)
  refine ⟨d, hd, rfl, v, hv, ?_⟩
  simp [hparameters, List.map_map, Function.comp_def, parameterSymbol]

theorem grows_indexDeclaration (hd : d ∈ documents) (p : Program) (declaration : NodeId × TypeId) :
    Grows documents p (indexDeclaration d p declaration) := by
  simp only [indexDeclaration]
  refine Grows.trans (Grows.changeType .refl _ _ ?_) (grows_foldl_addMethod (fun m hm => ?_) _)
  · exact fun _ => List.Subset.refl _
  obtain ⟨c, -, hm⟩ := List.mem_filterMap.mp hm
  exact (isFrom_of_methodSymbol? hd hm).1

theorem grows_indexDocument (hd : d ∈ documents) (p : Program) :
    Grows documents p (p.indexDocument d) :=
  Grows.foldl (fun declaration _ q => grows_indexDeclaration hd q declaration) p

/-- **The index of a solution comes from an empty one by steps that take nothing back.** -/
theorem grows_ofSolution (s : Solution) :
    Grows s.documents ⟨s, #[], #[], []⟩ (ofSolution s) :=
  ((Grows.foldl (fun l _ p => grows_addLibraryType p l) _).trans
    (Grows.foldl (fun d _ p => grows_registerDocument p d) _)).trans
    (Grows.foldl (fun _ hd p => grows_indexDocument hd p) _)

theorem solution_ofSolution (s : Solution) : (ofSolution s).solution = s :=
  (grows_ofSolution s).solution_eq

/-! ## Types that are registered

The first pass comes to every declaration of a type, and every one has a name behind its keyword, so
all are registered. -/

theorem exists_declaredType? (h : p.Declares document n) :
    ∃ id, p.declaredType? document n = some id := by
  obtain ⟨i, t, ht, hmem⟩ := h
  refine Option.isSome_iff_exists.mp ?_
  rw [declaredType?, Array.findIdx?_isSome, Array.any_eq_true]
  obtain ⟨hi, rfl⟩ := Array.getElem?_eq_some_iff.mp ht
  exact ⟨i, hi, by simpa using hmem⟩

/-- Behind the keyword of a type declaration stands its name. -/
theorem nameAfterKeyword_of_seen {t : Tree} {is : List TokenId} {i : TokenId} (hi : i ∈ is)
    (hname : (t.token i).isIdentifier = true) : (nameAfterKeyword t true is).isSome = true := by
  induction is with
  | nil => cases hi
  | cons j is ih =>
    rw [nameAfterKeyword]
    split
    next => rfl
    next hj =>
      rcases List.mem_cons.mp hi with rfl | hi
      · simp [hname] at hj
      · simpa using ih hi

theorem nameAfterKeyword_append {t : Tree} {front back : List TokenId} {k i : TokenId} (seen : Bool)
    (hk : IsTypeKeyword (t.token k)) (hi : i ∈ back) (hname : (t.token i).isIdentifier = true) :
    (nameAfterKeyword t seen (front ++ k :: back)).isSome = true := by
  induction front generalizing seen with
  | nil =>
    rw [List.nil_append, nameAfterKeyword]
    split
    next => rfl
    next =>
      have hseen : (seen || (t.token k).isKeyword "class" || (t.token k).isKeyword "struct" ||
          (t.token k).isKeyword "interface" || (t.token k).isContextual "record") = true := by
        rcases hk with hk | hk | hk | hk <;> simp [hk]
      rw [hseen]
      exact nameAfterKeyword_of_seen hi hname
  | cons j front ih =>
    rw [List.cons_append, nameAfterKeyword]
    split
    next => rfl
    next => exact ih _

/-- **Every declaration of a type tells a name.** -/
theorem exists_nameAfterKeyword {t : Tree} (hp : Parsed t)
    (hk : (t.kind n).isTypeDeclaration = true) :
    ∃ name, nameAfterKeyword t false (t.childTokens n) = some name := by
  have hword : ∃ cs ∈ typeDeclaration t.tokens, t.children n = cs.map Shape.asChild := by
    have hstands : ∀ {k}, t.kind n = k → k ≠ .compilationUnit →
        ∃ cs ∈ production t.tokens k, t.children n = cs.map Shape.asChild := by
      intro k hk hne
      obtain ⟨cs, hcs, hs⟩ := hp.exists_children hk hne
      cases hs with
      | node _ _ hchildren => exact ⟨cs, hcs, hchildren⟩
    cases hkind : t.kind n <;> rw [hkind] at hk <;> first
      | exact hstands hkind (by decide)
      | cases hk
  obtain ⟨cs, hcs, hchildren⟩ := hword
  -- Modifiers, the keyword, perhaps a second word, and the name.
  obtain ⟨front, -, _, hrest₁, rfl⟩ := mem_prod_cons.mp hcs
  obtain ⟨_, ⟨k, hlt, hkeyword, rfl⟩, _, hrest₂, rfl⟩ := mem_prod_cons.mp hrest₁
  obtain ⟨between, -, _, hrest₃, rfl⟩ := mem_prod_cons.mp hrest₂
  obtain ⟨_, ⟨i, hi, hname, rfl⟩, back, -, rfl⟩ := mem_prod_cons.mp hrest₃
  rw [← token_eq_tokenAt (Nat.lt_of_succ_lt hlt)] at hkeyword
  rw [← token_eq_tokenAt (Nat.lt_of_succ_lt hi)] at hname
  have hsplit : t.childTokens n = front.filterMap (·.asChild.token?) ++
      k :: (between ++ Shape.token i :: back).filterMap (·.asChild.token?) := by
    rw [childTokens, hchildren]
    simp [Shape.asChild, Child.token?, Function.comp_def]
  have hmem : i ∈ (between ++ Shape.token i :: back).filterMap (·.asChild.token?) :=
    List.mem_filterMap.mpr ⟨.token i, by simp, rfl⟩
  rw [hsplit]
  exact Option.isSome_iff_exists.mp (nameAfterKeyword_append false hkeyword hmem hname)

theorem declares_addDeclaration {id : TypeId} (hid : id < p.types.size) :
    Declares { p with types := p.types.modify id fun s =>
      { s with declarations := s.declarations ++ [(document, n)] } } document n :=
  ⟨id, { p.types[id] with declarations := p.types[id].declarations ++ [(document, n)] },
    by simp only [Array.getElem?_modify, if_true, Array.getElem?_eq_getElem hid, Option.map_some],
    by simp⟩

theorem declares_registerType (hp : Parsed d.tree)
    (hk : (d.tree.kind n).isTypeDeclaration = true) (p : Program) :
    (registerType d p n).Declares d.id n := by
  obtain ⟨name, hname⟩ := exists_nameAfterKeyword hp hk
  simp only [registerType, hk, Bool.not_true, Bool.false_eq_true, if_false, hname]
  split
  next found id hid =>
    exact declares_addDeclaration (Array.findIdx?_eq_some_iff_getElem.mp hid).1
  next => exact declares_addDeclaration (by simp [addType])

/-- **The types that are declared by the nodes of a walk are registered in it.** -/
theorem declares_foldl_registerType (hp : Parsed d.tree) {ns : List NodeId} (hn : n ∈ ns)
    (hk : (d.tree.kind n).isTypeDeclaration = true) (p : Program) :
    (ns.foldl (registerType d) p).Declares d.id n :=
  holds_of_mem_foldl (P := fun _ => True) hn (fun _ _ _ _ => trivial)
    (fun m _ q hq => (@grows_registerType [] q d m).declares hq)
    (fun q _ => declares_registerType hp hk q) trivial

/-- **Every declaration of a type in a document is registered.** -/
theorem declares_registerDocument {source : String} (h : parse source = .ok d.tree)
    (hk : (d.tree.kind n).isTypeDeclaration = true) (p : Program) :
    (p.registerDocument d).Declares d.id n := by
  have hmem : n ∈ d.tree.descendants root := by
    refine mem_descendants_root h fun hroot => ?_
    rw [hroot] at hk
    cases hk
  exact declares_foldl_registerType (parsed_of_parse h) hmem hk _

/-- The index of a solution before bases and members are indexed. -/
def registered (s : Solution) : Program :=
  s.documents.foldl registerDocument (LibraryType.all.foldl addLibraryType ⟨s, #[], #[], []⟩)

/-- **What the steps of the first pass keep** holds of the index before bases and members are
indexed. -/
theorem holds_registered {P : Program → Prop} {s : Solution} (hempty : P ⟨s, #[], #[], []⟩)
    (htype : ∀ q name qualifiedName kind, P q → P (addType q name qualifiedName kind).1)
    (hmethod : ∀ q type, ∀ l ∈ LibraryType.all, ∀ m ∈ l.methods, P q →
      P (addMethod q (librarySymbol type m)))
    (hplace : ∀ (q : Program) (id : TypeId) (place : DocumentId × NodeId), P q →
      P { q with types := q.types.modify id fun t =>
        { t with declarations := t.declarations ++ [place] } })
    (husings : ∀ (q : Program) (usings : List (DocumentId × List String)), P q →
      P { q with usings := usings }) : P (registered s) := by
  have hlibrary : P (LibraryType.all.foldl addLibraryType ⟨s, #[], #[], []⟩) :=
    List.foldlRecOn _ addLibraryType hempty fun q hq l hl =>
      List.foldlRecOn l.methods _ (htype q _ _ _ hq) fun q hq m hm => hmethod q _ l hl m hm hq
  exact List.foldlRecOn s.documents registerDocument hlibrary fun q hq d _ =>
    List.foldlRecOn _ (registerType d) (husings q _ hq) fun q hq n _ =>
      holds_registerType hq htype hplace

/-- **What the steps of both passes keep** holds of the index of a solution. -/
theorem holds_ofSolution {P : Program → Prop} {s : Solution} (hregistered : P (registered s))
    (hparts : ∀ (q : Program) (id : TypeId) (bases : List TypeId) (members : List MemberSymbol),
      P q → P { q with types := q.types.modify id fun t =>
        { t with bases := bases.foldl (addBase id) t.bases, members := t.members ++ members } })
    (hmethod : ∀ {r d type kind n m}, methodSymbol? r d type kind n = some m → ∀ q, P q →
      P (addMethod q m)) : P (ofSolution s) :=
  List.foldlRecOn s.documents indexDocument hregistered fun _ hq d _ =>
    List.foldlRecOn _ (indexDeclaration d) hq fun q hq ⟨n, id⟩ _ =>
      List.foldlRecOn _ addMethod (hparts q id _ _ hq) fun q hq _ hm => by
        obtain ⟨c, -, hm⟩ := List.mem_filterMap.mp hm
        exact hmethod hm q hq

/-- All type declarations are known before bases and members are indexed. -/
theorem declares_registered {s : Solution} (hd : d ∈ s.documents) {source : String}
    (h : parse source = .ok d.tree) (hk : (d.tree.kind n).isTypeDeclaration = true) :
    (registered s).Declares d.id n :=
  holds_of_mem_foldl (P := fun _ => True) hd (fun _ _ _ _ => trivial)
    (fun e _ q hq => (@grows_registerDocument [] q e).declares hq)
    (fun q _ => declares_registerDocument h hk q) trivial

/-! ## Methods that are indexed

The second pass goes through the declarations of the registered types and adds their methods.  A
method that stands in no type is on none of these lists. -/

theorem hasMethod_foldl_addMethod {ms : List MethodSymbol} {m : MethodSymbol} (hm : m ∈ ms)
    {declaration : Declaration} (hdeclaration : m.declaration = some declaration) (p : Program) :
    (ms.foldl addMethod p).HasMethod declaration.document declaration.node := by
  refine holds_of_mem_foldl (P := fun _ => True)
    (Q := fun q : Program => q.HasMethod declaration.document declaration.node) hm
    (fun _ _ _ _ => trivial) ?_ ?_ trivial
  · rintro m' - q ⟨m'', hm'', hrest⟩
    exact ⟨m'', Array.mem_push_of_mem _ hm'', hrest⟩
  · exact fun q _ => ⟨_, Array.mem_push_self, declaration, hdeclaration, rfl, rfl⟩

/-- The methods that a declaration of a type lists are indexed with it. -/
theorem hasMethod_indexDeclaration (hc : c ∈ d.tree.childNodes n) {v : MethodView}
    (hv : MethodView.ofNode? d.tree c = some v) (p : Program) (id : TypeId) :
    (indexDeclaration d p (n, id)).HasMethod d.id c := by
  simp only [indexDeclaration]
  have hsymbol : ∃ m, p.methodSymbol? d id (((p.type? id).map TypeSymbol.kind).getD .classType) c =
      some m := by
    simp only [methodSymbol?, hv, Option.bind_eq_bind, Option.bind_some]
    exact ⟨_, rfl⟩
  obtain ⟨m, hm⟩ := hsymbol
  obtain ⟨-, declaration, hdeclaration, hdocument, hnode⟩ :=
    isFrom_of_methodSymbol? (List.mem_singleton_self d) hm
  rw [← hdocument, ← hnode]
  refine hasMethod_foldl_addMethod (List.mem_filterMap.mpr ⟨c, ?_, hm⟩) hdeclaration _
  exact List.mem_filter.mpr ⟨hc, by simp [(MethodView.mem_childNodes hv).2.1]⟩

/-- The methods that a registered declaration of a type lists are indexed with its document. -/
theorem hasMethod_indexDocument {source : String} (h : parse source = .ok d.tree)
    (hp : p.Declares d.id n) (hc : c ∈ d.tree.childNodes n) {v : MethodView}
    (hv : MethodView.ofNode? d.tree c = some v) (hk : d.tree.kind n ≠ .compilationUnit) :
    (p.indexDocument d).HasMethod d.id c := by
  obtain ⟨id, hid⟩ := exists_declaredType? hp
  have hmem : (n, id) ∈ (d.tree.descendants root).filterMap fun n =>
      (p.declaredType? d.id n).map fun id => (n, id) :=
    List.mem_filterMap.mpr ⟨n, mem_descendants_root h hk, by rw [hid]; rfl⟩
  exact holds_of_mem_foldl (P := fun _ => True) hmem (fun _ _ _ _ => trivial)
    (fun x _ q hq => (grows_indexDeclaration (List.mem_singleton_self d) q x).hasMethod hq)
    (fun q _ => hasMethod_indexDeclaration hc hv q id) trivial

/-- **Every method that stands in the declaration of a type is indexed.** -/
theorem hasMethod_ofSolution {s : Solution} (hd : d ∈ s.documents) {source : String}
    (h : parse source = .ok d.tree) (hk : (d.tree.kind n).isTypeDeclaration = true)
    (hc : c ∈ d.tree.childNodes n) {v : MethodView}
    (hv : MethodView.ofNode? d.tree c = some v) : (ofSolution s).HasMethod d.id c := by
  have hne : d.tree.kind n ≠ .compilationUnit := by
    intro hroot
    rw [hroot] at hk
    cases hk
  exact holds_of_mem_foldl hd (fun e he q hq => (grows_indexDocument he q).declares hq)
    (fun e he q hq => (grows_indexDocument he q).hasMethod hq)
    (fun q hq => hasMethod_indexDocument h hq hc hv hne) (declares_registered hd h hk)

/-- The symbol of a method that is indexed. -/
theorem exists_declaredMethod? (h : p.HasMethod document n) :
    ∃ m, p.declaredMethod? document n = some m := by
  obtain ⟨m, hm, declaration, hdeclaration, hdocument, hnode⟩ := h
  refine Option.isSome_iff_exists.mp ?_
  rw [declaredMethod?, Array.find?_isSome]
  exact ⟨m, hm, by simp [hdeclaration, hdocument, hnode]⟩

/-- **The symbol of a declaration has the number under which it is found, and the parameters of the
declaration.** -/
theorem declaredMethod?_ofSolution {s : Solution} (hids : (s.documents.map Document.id).Nodup)
    (hd : d ∈ s.documents) {m : MethodSymbol}
    (hm : (ofSolution s).declaredMethod? d.id n = some m) :
    (ofSolution s).method? m.id = some m ∧ ∃ v, MethodView.ofNode? d.tree n = some v ∧
      m.parameters.map ParameterSymbol.name =
        ((v.parameters d.tree).items.filterMap (ParameterView.ofNode? d.tree)).map
          fun w => w.nameText d.tree := by
  have hgrows := grows_ofSolution s
  have hmem : m ∈ (ofSolution s).methods := Array.mem_of_find?_eq_some hm
  constructor
  · have hnumbered : (ofSolution s).Numbered := hgrows.numbered (by simp [Numbered])
    obtain ⟨i, hi⟩ := Array.mem_iff_getElem?.mp hmem
    rw [method?, hnumbered i m hi, hi]
  · have hfound := Array.find?_some hm
    cases hdeclaration : m.declaration with
    | none => simp [hdeclaration] at hfound
    | some declaration =>
      simp only [hdeclaration, Option.any_some, Bool.and_eq_true, beq_iff_eq] at hfound
      obtain ⟨hdocument, hnode⟩ := hfound
      obtain ⟨d', hd', hid, hview⟩ := hgrows.sourced (by simp) m hmem declaration hdeclaration
      have hsame : d' = d := List.inj_on_of_nodup_map hids hd' hd (hid.trans hdocument)
      rwa [hsame, hnode] at hview

end Program

end CodeMend
