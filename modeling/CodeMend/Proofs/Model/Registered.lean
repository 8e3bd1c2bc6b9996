import CodeMend.Proofs.Model.TypeNames
import CodeMend.Proofs.Plan.Resolution

/-!
# CodeMend — types are registered by their names

The first pass over a solution goes through its type declarations.  Each one is added to the type of
its dotted name, which is made when there is none yet.  The name is put together from that of the
type around the declaration, which the pass has been at before.  So behind the pass there is one
type for each name, and it holds the declarations of the name.

* **`Program.Registers`** — every name has one type, and every type the declarations of its name.
* **`Program.Registers.registerType_cases`** — what registering a declaration comes to.
* **`Program.declares_enclosing`** — the types around a declaration are registered before it.
* **`Program.registers_registered`** — the invariant holds behind the pass.
* **`Program.SameNames`**, **`Program.Registers.of_sameNames`** — and as long as names and
  declarations stay.
* **`Program.Registers.declaredType?_eq_iff`** — two declarations have one type just when they have
  one name.
-/

namespace CodeMend.Program

open Tree

variable {s : Solution} {p q r : Program} {d e : Document} {n m a : NodeId} {i j : TypeId}
  {name qualifiedName : String} {document : DocumentId}

/-! ## One type for each name

A declaration belongs to the type of its name.  The invariant says that there is one such type and
that the declarations it lists do bear the name. -/

/-- Every name has one type, and the declarations of a type are declarations of its name in some
documents. -/
structure Registers (documents : List Document) (p : Program) : Prop where
  once : ∀ {i j : TypeId} {t u : TypeSymbol}, p.types[i]? = some t → p.types[j]? = some u →
    t.qualifiedName = u.qualifiedName → i = j
  named : ∀ {i : TypeId} {t : TypeSymbol} {document n}, p.types[i]? = some t →
    (document, n) ∈ t.declarations → ∃ d ∈ documents, d.id = document ∧
      (d.tree.kind n).isTypeDeclaration = true ∧ t.qualifiedName = dottedName d.tree n

/-- The declaration belongs to the type. -/
def DeclaresAs (p : Program) (document : DocumentId) (n : NodeId) (i : TypeId) : Prop :=
  ∃ t : TypeSymbol, p.types[i]? = some t ∧ (document, n) ∈ t.declarations

theorem declaresAs_of_declaredType? (h : p.declaredType? document n = some i) :
    p.DeclaresAs document n i := by
  obtain ⟨hi, hmem, -⟩ := Array.findIdx?_eq_some_iff_getElem.mp h
  exact ⟨p.types[i], Array.getElem?_eq_getElem hi, by simpa using hmem⟩

theorem exists_of_typeNamed? (h : p.typeNamed? qualifiedName = some i) :
    ∃ t, p.types[i]? = some t ∧ t.qualifiedName = qualifiedName := by
  obtain ⟨hi, hname, -⟩ := Array.findIdx?_eq_some_iff_getElem.mp h
  exact ⟨p.types[i], Array.getElem?_eq_getElem hi, by simpa using hname⟩

namespace Registers

variable (h : p.Registers s.documents) (hs : s.Parsed) (hd : d ∈ s.documents)

include h hs hd

/-- The type that is found for a declaration has its name. -/
theorem qualifiedName_eq (hi : p.declaredType? d.id n = some i) :
    p.qualifiedName i = dottedName d.tree n := by
  obtain ⟨t, ht, hmem⟩ := declaresAs_of_declaredType? hi
  obtain ⟨d', hd', hid, -, hname⟩ := h.named ht hmem
  obtain rfl := List.inj_on_of_nodup_map hs.nodup hd' hd hid
  rw [qualifiedName, type?, ht]
  exact hname

theorem isTypeDeclaration (hi : p.declaredType? d.id n = some i) :
    (d.tree.kind n).isTypeDeclaration = true := by
  obtain ⟨t, ht, hmem⟩ := declaresAs_of_declaredType? hi
  obtain ⟨d', hd', hid, hk, -⟩ := h.named ht hmem
  obtain rfl := List.inj_on_of_nodup_map hs.nodup hd' hd hid
  exact hk

/-- The name that a declaration is registered under is its dotted name, when the types around it are
registered. -/
theorem outerName_eq (hk : (d.tree.kind n).isTypeDeclaration = true)
    (habove : ∀ a ∈ d.tree.ancestors n, (d.tree.kind a).isTypeDeclaration = true →
      p.Declares d.id a) :
    qualify (((d.tree.ancestors n).findSome? (p.declaredType? d.id)).elim (namespaceOf d.tree n)
      p.qualifiedName) (declaredName d.tree n) = dottedName d.tree n := by
  obtain ⟨source, hparse⟩ := hs.parses d hd
  -- nothing but a type declaration is found, so that the search ends at the nearest type around
  have hunknown : ∀ b, (d.tree.kind b).isTypeDeclaration = false →
      p.declaredType? d.id b = none := by
    intro b hb
    cases hfound : p.declaredType? d.id b with
    | none => rfl
    | some i =>
      have hk := h.isTypeDeclaration hs hd hfound
      rw [hb] at hk
      cases hk
  rcases first_or_nearest d.tree n with hfirst | ⟨pre, a, post, hsplit, hnone, ha⟩
  · have hfind : (d.tree.ancestors n).findSome? (p.declaredType? d.id) = none :=
      List.findSome?_eq_none_iff.mpr fun b hb => hunknown b (hfirst b hb)
    rw [hfind, dottedName_of_first hk hfirst]
    rfl
  · obtain ⟨i, hi⟩ := exists_declaredType? (habove a (by rw [hsplit]; simp) ha)
    have hpre : pre.findSome? (p.declaredType? d.id) = none :=
      List.findSome?_eq_none_iff.mpr fun b hb => hunknown b (hnone b hb)
    have hfind : (d.tree.ancestors n).findSome? (p.declaredType? d.id) = some i := by
      rw [hsplit, List.findSome?_append, hpre, Option.none_or, List.findSome?_cons, hi]
    rw [hfind, dottedName_of_nearest (parsed_of_parse hparse) hk hsplit hnone ha, Option.elim_some,
      h.qualifiedName_eq hs hd hi]

end Registers

/-! ## Registering a declaration

A declaration is added to a type that is there already, or a new type is added with it. -/

/-- The program with one more declaration of a type. -/
def addPlace (p : Program) (id : TypeId) (place : DocumentId × NodeId) : Program :=
  { p with types := p.types.modify id fun t =>
      { t with declarations := t.declarations ++ [place] } }

/-- Registering a declaration under a name. -/
theorem registerType_eq (hk : (d.tree.kind n).isTypeDeclaration = true)
    (hname : nameAfterKeyword d.tree false (d.tree.childTokens n) = some name) :
    registerType d p n =
      match p.typeNamed? (qualify (((d.tree.ancestors n).findSome? (p.declaredType? d.id)).elim
        (namespaceOf d.tree n) p.qualifiedName) name) with
      | some id => p.addPlace id (d.id, n)
      | none => (p.addType name
          (qualify (((d.tree.ancestors n).findSome? (p.declaredType? d.id)).elim
            (namespaceOf d.tree n) p.qualifiedName) name)
          (kindOfDeclaration (d.tree.kind n))).1.addPlace p.types.size (d.id, n) := by
  simp only [registerType, hk, Bool.not_true, Bool.false_eq_true, if_false, hname]
  cases (d.tree.ancestors n).findSome? (p.declaredType? d.id) with
  | none =>
    rw [Option.elim_none]
    cases p.typeNamed? (qualify (namespaceOf d.tree n) name) <;> rfl
  | some id =>
    rw [Option.elim_some]
    cases p.typeNamed? (qualify (p.qualifiedName id) name) <;> rfl

/-- **A declaration is added to the type of its name, or to a new one.** -/
theorem Registers.registerType_cases (h : p.Registers s.documents) (hs : s.Parsed)
    (hd : d ∈ s.documents) (hk : (d.tree.kind n).isTypeDeclaration = true)
    (habove : ∀ a ∈ d.tree.ancestors n, (d.tree.kind a).isTypeDeclaration = true →
      p.Declares d.id a) :
    (∃ id, p.typeNamed? (dottedName d.tree n) = some id ∧
        registerType d p n = p.addPlace id (d.id, n)) ∨
      p.typeNamed? (dottedName d.tree n) = none ∧ ∃ name kind,
        registerType d p n =
          (p.addType name (dottedName d.tree n) kind).1.addPlace p.types.size (d.id, n) := by
  obtain ⟨source, hparse⟩ := hs.parses d hd
  obtain ⟨name, hname⟩ := exists_nameAfterKeyword (parsed_of_parse hparse) hk
  have hdeclared : declaredName d.tree n = name := by rw [declaredName, hname]; rfl
  have houter := h.outerName_eq hs hd hk habove
  rw [hdeclared] at houter
  rw [registerType_eq hk hname, houter]
  cases htype : p.typeNamed? (dottedName d.tree n) with
  | some id => exact .inl ⟨id, rfl, rfl⟩
  | none => exact .inr ⟨rfl, name, kindOfDeclaration (d.tree.kind n), rfl⟩

namespace Registers

variable {documents : List Document}

theorem addType (h : p.Registers documents) (hnew : p.typeNamed? qualifiedName = none)
    (kind : TypeKind) : (p.addType name qualifiedName kind).1.Registers documents := by
  have hother : ∀ {i : TypeId} {t : TypeSymbol}, p.types[i]? = some t →
      t.qualifiedName ≠ qualifiedName := by
    intro i t ht
    have hall := Array.findIdx?_eq_none_iff.mp hnew t (Array.mem_of_getElem? ht)
    simpa using hall
  constructor
  · intro i j t u ht hu hsame
    simp only [Program.addType, Array.getElem?_push] at ht hu
    split at ht <;> split at hu
    next hi hj => exact hi.trans hj.symm
    next =>
      obtain rfl := Option.some.inj ht
      exact absurd hsame.symm (hother hu)
    next =>
      obtain rfl := Option.some.inj hu
      exact absurd hsame (hother ht)
    next => exact h.once ht hu hsame
  · intro i t document n ht hmem
    simp only [Program.addType, Array.getElem?_push] at ht
    split at ht
    next =>
      obtain rfl := Option.some.inj ht
      cases hmem
    next => exact h.named ht hmem

theorem addPlace (h : p.Registers documents) {t : TypeSymbol} (ht : p.types[i]? = some t)
    (hd : d ∈ documents) (hk : (d.tree.kind n).isTypeDeclaration = true)
    (hname : t.qualifiedName = dottedName d.tree n) :
    (p.addPlace i (d.id, n)).Registers documents := by
  -- a type has the name that it had, and besides its declarations at most the new one
  have hold : ∀ {j u}, (p.addPlace i (d.id, n)).types[j]? = some u → ∃ u', p.types[j]? = some u' ∧
      u'.qualifiedName = u.qualifiedName ∧ ∀ place ∈ u.declarations, place ∈ u'.declarations ∨
        i = j ∧ place = (d.id, n) := by
    intro j u hu
    obtain ⟨u', hu', rfl | ⟨hij, rfl⟩⟩ := exists_of_getElem?_modify hu
    · exact ⟨u, hu', rfl, fun place hplace => .inl hplace⟩
    · refine ⟨u', hu', rfl, fun place hplace => ?_⟩
      rcases List.mem_append.mp hplace with hplace | hplace
      · exact .inl hplace
      · exact .inr ⟨hij, List.mem_singleton.mp hplace⟩
  constructor
  · intro j k u v hu hv hsame
    obtain ⟨u', hu', hnameu, -⟩ := hold hu
    obtain ⟨v', hv', hnamev, -⟩ := hold hv
    exact h.once hu' hv' (hnameu.trans (hsame.trans hnamev.symm))
  · intro j u document m hu hmem
    obtain ⟨u', hu', hnameu, hplaces⟩ := hold hu
    rcases hplaces _ hmem with hmem | ⟨rfl, hplace⟩
    · exact hnameu ▸ h.named hu' hmem
    · obtain ⟨rfl, rfl⟩ := Prod.mk.inj hplace
      obtain rfl := Option.some.inj (hu'.symm.trans ht)
      exact ⟨d, hd, rfl, hk, hnameu ▸ hname⟩

/-- **Registering a declaration keeps one type for each name.** -/
theorem registerType (h : p.Registers s.documents) (hs : s.Parsed) (hd : d ∈ s.documents)
    (habove : ∀ a ∈ d.tree.ancestors n, (d.tree.kind a).isTypeDeclaration = true →
      p.Declares d.id a) : (registerType d p n).Registers s.documents := by
  cases hk : (d.tree.kind n).isTypeDeclaration with
  | false => simpa [Program.registerType, hk] using h
  | true =>
    rcases h.registerType_cases hs hd hk habove with ⟨id, hid, heq⟩ | ⟨hnew, name, kind, heq⟩
    · obtain ⟨t, ht, hname⟩ := exists_of_typeNamed? hid
      exact heq ▸ h.addPlace ht hd hk hname
    · have hlast : (p.addType name (dottedName d.tree n) kind).1.types[p.types.size]? =
          some ⟨p.types.size, name, dottedName d.tree n, kind, [], [], [], []⟩ := by
        simp [Program.addType]
      exact heq ▸ (h.addType hnew kind).addPlace hlast hd hk rfl

end Registers

/-! ## The first pass

The name of an inner type starts with that of the type around it, so the one around it has to be
registered before.  The walk comes to it first. -/

/-- What holds before the first item, and is kept by each step in view of the items that were taken
before, holds behind the last one. -/
theorem holds_of_foldl {α σ : Type} {f : σ → α → σ} {P : List α → σ → Prop} {xs : List α} {x : σ}
    (hx : P [] x) (hstep : ∀ front y back x, xs = front ++ y :: back → P front x →
      P (front ++ [y]) (f x y)) : P xs (xs.foldl f x) := by
  have hall : ∀ front back x, xs = front ++ back → P front x → P xs (back.foldl f x) := by
    intro front back
    induction back generalizing front with
    | nil =>
      rintro x rfl hfront
      rwa [List.append_nil]
    | cons y back ih =>
      intro x heq hfront
      exact ih (front ++ [y]) (f x y) (by rw [heq, List.append_assoc]; rfl)
        (hstep front y back x heq hfront)
  exact hall [] xs x rfl hx

/-- **When the first pass comes to a node, the declarations of types around it are registered.** -/
theorem declares_enclosing {front back : List NodeId} {source : String}
    (h : parse source = .ok d.tree) (hwalk : d.tree.descendants root = front ++ n :: back)
    (ha : a ∈ d.tree.ancestors n) (hk : (d.tree.kind a).isTypeDeclaration = true) (p : Program) :
    (front.foldl (registerType d) p).Declares d.id a := by
  have hmem : a ∈ front := mem_front_of_ancestor h hwalk ha fun hroot => by
    rw [hroot] at hk
    cases hk
  exact declares_foldl_registerType (parsed_of_parse h) hmem hk p

/-- The walk through a document registers a type before those inside it. -/
theorem Registers.registerDocument (h : p.Registers s.documents) (hs : s.Parsed)
    (hd : d ∈ s.documents) : (p.registerDocument d).Registers s.documents := by
  obtain ⟨source, hparse⟩ := hs.parses d hd
  -- the program is what the nodes in front have made of it
  refine And.left (holds_of_foldl (P := fun front q => Registers s.documents q ∧
    q = front.foldl (Program.registerType d)
      { p with usings := p.usings ++ [(d.id, importedNamespaces d.tree)] })
    ⟨⟨h.once, h.named⟩, rfl⟩ ?_)
  rintro front n back _ hwalk ⟨hq, rfl⟩
  refine ⟨hq.registerType hs hd fun a ha hk => declares_enclosing hparse hwalk ha hk _, ?_⟩
  rw [List.foldl_append, List.foldl_cons, List.foldl_nil]

/-! ## Names that stay

Indexing members changes types, but neither their names nor their declarations. -/

/-- Two programs have the same types with the same names and declarations, and the same imports. -/
structure SameNames (p q : Program) : Prop where
  types : (p.types.map fun t => (t.qualifiedName, t.declarations)) =
    q.types.map fun t => (t.qualifiedName, t.declarations)
  usings : p.usings = q.usings

theorem SameNames.refl (p : Program) : SameNames p p := ⟨rfl, rfl⟩

theorem SameNames.trans (h : SameNames p q) (h' : SameNames q r) : SameNames p r :=
  ⟨h.types.trans h'.types, h.usings.trans h'.usings⟩

theorem SameNames.exists_of_getElem? (h : SameNames p q) {t : TypeSymbol}
    (ht : q.types[i]? = some t) : ∃ u, p.types[i]? = some u ∧
      u.qualifiedName = t.qualifiedName ∧ u.declarations = t.declarations := by
  have hi := congrArg (fun ts => ts[i]?) h.types
  simp only [Array.getElem?_map, ht, Option.map_some] at hi
  obtain ⟨u, hu, heq⟩ := Option.map_eq_some_iff.mp hi
  obtain ⟨hname, hplaces⟩ := Prod.mk.inj heq
  exact ⟨u, hu, hname, hplaces⟩

theorem sameNames_changeTypes {change : TypeSymbol → TypeSymbol}
    (hname : ∀ t, (change t).qualifiedName = t.qualifiedName)
    (hplaces : ∀ t, (change t).declarations = t.declarations) :
    SameNames p { p with types := p.types.modify i change } := by
  refine ⟨Array.ext_getElem? fun j => ?_, rfl⟩
  simp only [Array.getElem?_map, Array.getElem?_modify]
  split
  · cases p.types[j]? with
    | none => rfl
    | some t => simp [hname t, hplaces t]
  · rfl

theorem sameNames_addMethod (p : Program) (m : MethodSymbol) : SameNames p (p.addMethod m) := by
  have h : SameNames p { p with types := p.types.modify m.containingType fun t =>
      { t with methods := t.methods ++ [p.methods.size] } } :=
    sameNames_changeTypes (fun _ => rfl) fun _ => rfl
  exact ⟨h.types, h.usings⟩

theorem sameNames_foldl {α : Type} {f : Program → α → Program} {xs : List α}
    (hf : ∀ x ∈ xs, ∀ p, SameNames p (f p x)) (p : Program) : SameNames p (xs.foldl f p) :=
  List.foldlRecOn xs f (.refl p) fun q hq x hx => hq.trans (hf x hx q)

/-- **As long as names and declarations stay, every name has one type.** -/
theorem Registers.of_sameNames {documents : List Document} (h : p.Registers documents)
    (hpq : SameNames p q) : q.Registers documents := by
  constructor
  · intro i j t u ht hu hsame
    obtain ⟨t', ht', hname, -⟩ := hpq.exists_of_getElem? ht
    obtain ⟨u', hu', hname', -⟩ := hpq.exists_of_getElem? hu
    exact h.once ht' hu' (hname.trans (hsame.trans hname'.symm))
  · intro i t document n ht hmem
    obtain ⟨t', ht', hname, hplaces⟩ := hpq.exists_of_getElem? ht
    exact hname ▸ h.named ht' (hplaces ▸ hmem)

theorem registers_addLibraryType {documents : List Document} {l : LibraryType}
    (h : p.Registers documents) (hnew : p.typeNamed? (l.namespaceName ++ "." ++ l.name) = none) :
    (p.addLibraryType l).Registers documents :=
  (h.addType hnew .classType).of_sameNames
    (sameNames_foldl (fun _ _ q => sameNames_addMethod q _) _)

/-- **Behind the first pass every name has one type.** -/
theorem registers_registered (hs : s.Parsed) : (registered s).Registers s.documents := by
  have hempty : Registers s.documents ⟨s, #[], #[], []⟩ := by constructor <;> simp
  have hlibrary :
      Registers s.documents (LibraryType.all.foldl addLibraryType ⟨s, #[], #[], []⟩) := by
    rw [LibraryType.all, List.foldl_cons, List.foldl_nil]
    exact registers_addLibraryType hempty (by simp [typeNamed?])
  unfold registered
  exact List.foldlRecOn s.documents registerDocument hlibrary fun q hq d hd =>
    hq.registerDocument hs hd

/-! ## Declarations of one type

The consequence for two declarations: they have one type exactly when their names are the same. -/

/-- **Two declarations have one type just when they have one name.** -/
theorem Registers.declaredType?_eq_iff (h : p.Registers s.documents) (hs : s.Parsed)
    (hd : d ∈ s.documents) (he : e ∈ s.documents) (hn : p.Declares d.id n)
    (hm : p.Declares e.id m) :
    p.declaredType? d.id n = p.declaredType? e.id m ↔
      dottedName d.tree n = dottedName e.tree m := by
  obtain ⟨i, hi⟩ := exists_declaredType? hn
  obtain ⟨j, hj⟩ := exists_declaredType? hm
  rw [hi, hj, Option.some.injEq]
  constructor
  · rintro rfl
    rw [← h.qualifiedName_eq hs hd hi, h.qualifiedName_eq hs he hj]
  · intro hname
    obtain ⟨t, ht, hmem⟩ := declaresAs_of_declaredType? hi
    obtain ⟨u, hu, hmem'⟩ := declaresAs_of_declaredType? hj
    have hti : p.qualifiedName i = t.qualifiedName := by rw [qualifiedName, type?, ht]; rfl
    have huj : p.qualifiedName j = u.qualifiedName := by rw [qualifiedName, type?, hu]; rfl
    refine h.once ht hu ?_
    rw [← hti, ← huj, h.qualifiedName_eq hs hd hi, h.qualifiedName_eq hs he hj, hname]

end CodeMend.Program
