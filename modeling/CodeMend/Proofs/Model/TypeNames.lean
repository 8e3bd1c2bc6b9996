import CodeMend.Proofs.Model.Index
import CodeMend.Proofs.Tree.Ancestry
import CodeMend.Proofs.Token.Neighbours

/-!
# CodeMend — names of type declarations

A type is known by its dotted name: the names of the namespaces and types around it and its own,
with points between them.  What a declaration stands for is more than that, the namespace, the types
around it and the number of type parameters of each.  As long as the names of namespaces are spelled
plainly, the two come to the same just when declarations of one name stand in as many types and list
as many type parameters.

* **`Program.typePath`**, **`Program.dottedName`** — the types around a declaration, and its name;
  **`Program.dottedName_of_first`**, **`Program.dottedName_of_nearest`** — the step from a namespace
  or a type to a type inside it.
* **`Program.typeIdentity`** — what a declaration stands for.
* **`Program.namespaceOf_eq`** — a namespace by the identifiers in its name.
* **`Program.qualify_inj`** — a dotted name tells its last part, which has no points.
* **`Program.NamesApart`**, **`Program.namesApart_iff`** — where names tell what declarations stand
  for.
-/

namespace CodeMend.Program

open Tree Lexer Literal

variable {t u : Tree} {n m a : NodeId} {outer outer' name name' : String}

/-! ## What a declaration stands for

A declaration of a type stands for a type by the declarations around it and their names and type
parameters.  The index knows it by a dotted name only. -/

/-- The type declarations around a node, the outermost first, and the node if it is one. -/
def typePath (t : Tree) (n : NodeId) : List NodeId :=
  ((n :: t.ancestors n).filter fun a => (t.kind a).isTypeDeclaration).reverse

def declaredName (t : Tree) (n : NodeId) : String :=
  (nameAfterKeyword t false (t.childTokens n)).getD ""

/-- The namespace around the outermost type, as its declaration spells it. -/
def typeNamespace (t : Tree) (n : NodeId) : String :=
  ((typePath t n).head?.map (namespaceOf t)).getD ""

/-- The names of a namespace and of some types inside each other. -/
def joinNames (namespaceName : String) (names : List String) : String :=
  names.foldl qualify namespaceName

/-- The name of a type declaration with the names around it. -/
def dottedName (t : Tree) (n : NodeId) : String :=
  joinNames (typeNamespace t n) ((typePath t n).map (declaredName t))

/-- The identifiers in the name of a namespace declaration. -/
def nameParts (t : Tree) (n : NodeId) : List String :=
  ((t.childNodes n).head?.map fun c =>
    ((List.range' (t.firstToken c) (t.lastToken c + 1 - t.firstToken c)).filter fun i =>
      (t.token i).isIdentifier).map fun i => (t.token i).valueText).getD []

/-- The namespace around a node: the identifiers in the names of the namespace declarations around
it, the outermost first, with points between them. -/
def namespaceName (t : Tree) (n : NodeId) : String :=
  let namespaces := (t.ancestors n).filter fun a =>
    t.kind a == .namespaceDeclaration || t.kind a == .fileScopedNamespaceDeclaration
  String.intercalate "." (namespaces.reverse.flatMap (nameParts t))

/-- The number of identifiers outside of square brackets, of which `depth` are open. -/
def countOutside (t : Tree) : Nat → List TokenId → Nat
  | _, [] => 0
  | depth, i :: is =>
    let token := t.token i
    if token.isMark "[" then countOutside t (depth + 1) is
    else if token.isMark "]" then countOutside t (depth - 1) is
    else (if depth == 0 && token.isIdentifier then 1 else 0) + countOutside t depth is

/-- The number of type parameters that a declaration lists; a parameter may have attributes in
square brackets in front. -/
def typeParameterCount (t : Tree) (n : NodeId) : Nat :=
  ((t.childOfKind? n .typeParameterList).map fun list =>
    countOutside t 0 (t.childTokens list)).getD 0

/-- A type by its namespace and, from the outermost type on, the names and numbers of type
parameters of the types around it and of itself. -/
structure TypeIdentity where
  namespaceName : String
  path : List (String × Nat)
deriving DecidableEq, Repr

def typeIdentity (t : Tree) (n : NodeId) : TypeIdentity :=
  ⟨((typePath t n).head?.map (namespaceName t)).getD "",
    (typePath t n).map fun a => (declaredName t a, typeParameterCount t a)⟩

/-! ## From a type to one inside it

Both notions go from the type around a declaration to the declaration, and the induction is on how
many types stand around it. -/

theorem typePath_eq (hk : (t.kind n).isTypeDeclaration = true) :
    typePath t n =
      ((t.ancestors n).filter fun a => (t.kind a).isTypeDeclaration).reverse ++ [n] := by
  rw [typePath, List.filter_cons, if_pos hk, List.reverse_cons]

theorem filter_isTypeDeclaration_eq_nil {pre : List NodeId}
    (hnone : ∀ b ∈ pre, (t.kind b).isTypeDeclaration = false) :
    pre.filter (fun b => (t.kind b).isTypeDeclaration) = [] := by
  refine List.filter_eq_nil_iff.mpr fun b hb => ?_
  rw [hnone b hb]
  exact Bool.false_ne_true

theorem typePath_of_first (hk : (t.kind n).isTypeDeclaration = true)
    (hnone : ∀ b ∈ t.ancestors n, (t.kind b).isTypeDeclaration = false) : typePath t n = [n] := by
  rw [typePath_eq hk, filter_isTypeDeclaration_eq_nil hnone]
  rfl

theorem typePath_of_nearest (hp : Parsed t) (hk : (t.kind n).isTypeDeclaration = true)
    {pre post : List NodeId} (hancestors : t.ancestors n = pre ++ a :: post)
    (hnone : ∀ b ∈ pre, (t.kind b).isTypeDeclaration = false) :
    typePath t n = typePath t a ++ [n] := by
  obtain ⟨top, hrises⟩ := exists_rises_ancestors hp n
  rw [hancestors] at hrises
  have habove := hrises.split.1.ancestors_append hp
  rw [typePath_eq hk, habove, List.append_assoc, List.filter_append,
    filter_isTypeDeclaration_eq_nil hnone]
  rfl

/-- A type declaration stands in no other, or some other one is the nearest. -/
theorem first_or_nearest (t : Tree) (n : NodeId) :
    (∀ b ∈ t.ancestors n, (t.kind b).isTypeDeclaration = false) ∨
      ∃ pre a post, t.ancestors n = pre ++ a :: post ∧
        (∀ b ∈ pre, (t.kind b).isTypeDeclaration = false) ∧
        (t.kind a).isTypeDeclaration = true := by
  cases hfind : (t.ancestors n).find? fun b => (t.kind b).isTypeDeclaration with
  | none => exact .inl fun b hb => by simpa using List.find?_eq_none.mp hfind b hb
  | some a =>
    obtain ⟨ha, pre, post, hsplit, hnone⟩ := List.find?_eq_some_iff_append.mp hfind
    exact .inr ⟨pre, a, post, hsplit, fun b hb => by simpa using hnone b hb, ha⟩

/-- **The name of a type that stands in no other** is qualified by its namespace. -/
theorem dottedName_of_first (hk : (t.kind n).isTypeDeclaration = true)
    (hnone : ∀ b ∈ t.ancestors n, (t.kind b).isTypeDeclaration = false) :
    dottedName t n = qualify (namespaceOf t n) (declaredName t n) := by
  rw [dottedName, typeNamespace, typePath_of_first hk hnone]
  rfl

/-- **The name of a type that stands in another** is qualified by the name of that one. -/
theorem dottedName_of_nearest (hp : Parsed t) (hk : (t.kind n).isTypeDeclaration = true)
    {pre post : List NodeId} (hancestors : t.ancestors n = pre ++ a :: post)
    (hnone : ∀ b ∈ pre, (t.kind b).isTypeDeclaration = false)
    (ha : (t.kind a).isTypeDeclaration = true) :
    dottedName t n = qualify (dottedName t a) (declaredName t n) := by
  have hpath := typePath_of_nearest hp hk hancestors hnone
  have hne : typePath t a ≠ [] := by
    rw [typePath_eq ha]
    simp
  rw [dottedName, dottedName, joinNames, joinNames, typeNamespace, typeNamespace, hpath,
    List.head?_append_of_ne_nil _ hne, List.map_append, List.foldl_append]
  rfl

/-! ## Dotted names

Names have no points, so a dotted name can be cut at its last one. -/

/-- A name has no points. -/
theorem notMem_point_of_name? {c : Char} {w x : List Char}
    (h : name? c (w ++ x) = some w.length) : '.' ∉ c :: w := by
  have hpoint : isNamePart '.' = false := by decide +kernel
  obtain ⟨hc, hw, -⟩ := isNamePart_of_name? h
  intro hmem
  rcases List.mem_cons.mp hmem with rfl | hmem
  · rcases hc with hc | hc
    · cases hc
    · rw [isNamePart_of_isNameStart hc] at hpoint
      cases hpoint
  · rw [hw '.' hmem] at hpoint
    cases hpoint

theorem valueText_subset (token : Token) : token.valueText.toList ⊆ token.text.toList := by
  unfold Token.valueText
  split
  next rest _ htext =>
    rw [htext, String.toList_ofList]
    exact List.subset_cons_self _ _
  next => exact List.Subset.refl _

/-- An identifier has no points. -/
theorem notMem_point_valueText {source : String} (h : parse source = .ok t) {i : TokenId}
    (hi : (t.token i).isIdentifier = true) : '.' ∉ (t.token i).valueText.toList := by
  obtain ⟨tokens, htokens, harray⟩ := exists_tokens_of_parse h
  have hkind : (t.token i).kind = .identifier := beq_iff_eq.mp hi
  have hmem : t.token i ∈ tokens := by
    have hget : t.token i = tokens[i]?.getD noToken := by
      rw [token, harray, Array.getD_eq_getD_getElem?, List.getElem?_toArray]
    cases htoken : tokens[i]? with
    | none =>
      rw [hget, htoken] at hkind
      cases hkind
    | some token =>
      rw [hget, htoken]
      exact List.mem_of_getElem? htoken
  obtain ⟨c, w, rest, htext, hscan⟩ :=
    (lexed_of_tokenize htokens).exists_scan_of_mem hmem (by rw [hkind]; decide)
  rw [hkind] at hscan
  intro hpoint
  have hname := valueText_subset _ hpoint
  rw [htext, String.toList_ofList] at hname
  exact notMem_point_of_name? (name?_of_scanToken hscan) hname

theorem notMem_point_nameAfterKeyword {source : String} (h : parse source = .ok t) {seen : Bool}
    {is : List TokenId} (hname : nameAfterKeyword t seen is = some name) : '.' ∉ name.toList := by
  induction is generalizing seen with
  | nil => cases hname
  | cons i is ih =>
    rw [nameAfterKeyword] at hname
    split at hname
    next hi =>
      obtain rfl := Option.some.inj hname
      exact notMem_point_valueText h (Bool.and_eq_true_iff.mp hi).2
    next => exact ih hname

/-- **The name that a declaration gives has no points.** -/
theorem notMem_point_declaredName {source : String} (h : parse source = .ok t) (n : NodeId) :
    '.' ∉ (declaredName t n).toList := by
  unfold declaredName
  cases hname : nameAfterKeyword t false (t.childTokens n) with
  | none => exact List.not_mem_nil
  | some name => exact notMem_point_nameAfterKeyword h hname

/-- What stands around the last one of some separators. -/
theorem eq_of_append_cons_eq {α : Type} {c : α} {a b a' b' : List α} (hb : c ∉ b) (hb' : c ∉ b')
    (h : a ++ c :: b = a' ++ c :: b') : a = a' ∧ b = b' := by
  have hfirst : ∀ {more b b' : List α}, c ∉ b → c :: b = more ++ c :: b' → more = [] := by
    intro more b b' hb heq
    cases more with
    | nil => rfl
    | cons d more =>
      obtain ⟨-, rfl⟩ := List.cons.inj heq
      exact absurd (List.mem_append_right more List.mem_cons_self) hb
  rcases List.append_eq_append_iff.mp h with ⟨more, rfl, heq⟩ | ⟨more, rfl, heq⟩
  · obtain rfl := hfirst hb heq
    exact ⟨(List.append_nil a).symm, (List.cons.inj heq).2⟩
  · obtain rfl := hfirst hb' heq
    exact ⟨List.append_nil a', (List.cons.inj heq).2.symm⟩

/-- **A dotted name tells its last part**, which has no points. -/
theorem qualify_inj (hname : '.' ∉ name.toList) (hname' : '.' ∉ name'.toList)
    (h : qualify outer name = qualify outer' name') : outer = outer' ∧ name = name' := by
  have hpoint : ∀ outer name : String, '.' ∈ (outer ++ "." ++ name).toList := by
    intro outer name
    simp
  unfold qualify at h
  split at h <;> split at h
  next hnone hnone' => exact ⟨by rw [String.isEmpty_iff.mp hnone, String.isEmpty_iff.mp hnone'], h⟩
  next => exact absurd (h ▸ hpoint outer' name') hname
  next => exact absurd (h ▸ hpoint outer name) hname'
  next =>
    have hlist := congrArg String.toList h
    simp only [String.toList_append, List.append_assoc] at hlist
    obtain ⟨houter, hlast⟩ := eq_of_append_cons_eq hname hname' hlist
    exact ⟨String.toList_inj.mp houter, String.toList_inj.mp hlast⟩

/-! ## Names of namespaces

Namespaces are a difficulty.  Their names are written with points already, and one namespace can be
written in several ways, which is why plain spellings are asked for. -/

/-- The name of a namespace declaration is nothing but identifiers, spelled as they are, with points
between them. -/
def WritesPlainName (t : Tree) (n : NodeId) : Prop :=
  nameParts t n ≠ [] ∧ (t.childNodes n).head?.map (fun c => Unicode.compact (t.text c)) =
    some (String.intercalate "." (nameParts t n))

instance (t : Tree) (n : NodeId) : Decidable (WritesPlainName t n) :=
  inferInstanceAs (Decidable (_ ∧ _))

theorem intercalate_flatten {sep : String} {ls : List (List String)} (h : ∀ l ∈ ls, l ≠ []) :
    sep.intercalate (ls.map sep.intercalate) = sep.intercalate ls.flatten := by
  induction ls with
  | nil => rfl
  | cons l ls ih =>
    obtain ⟨hl, hls⟩ := List.forall_mem_cons.mp h
    cases ls with
    | nil => simp
    | cons l' ls =>
      have hrest : (l' :: ls).flatten ≠ [] := by
        rw [List.flatten_cons]
        exact List.append_ne_nil_of_left_ne_nil (hls l' List.mem_cons_self) _
      rw [List.map_cons, String.intercalate_cons_of_ne_nil (by simp), ih hls,
        ← String.intercalate_append_of_ne_nil hl hrest, ← List.flatten_cons]

/-- **Where names are plain, the namespace around a node is told by its identifiers.** -/
theorem namespaceOf_eq (hplain : ∀ a, t.kind a = .namespaceDeclaration ∨
    t.kind a = .fileScopedNamespaceDeclaration → WritesPlainName t a) (n : NodeId) :
    namespaceOf t n = namespaceName t n := by
  have hnames : ∀ as : List NodeId, (∀ a ∈ as, WritesPlainName t a) →
      (as.filterMap fun a => (t.childNodes a).head?.map fun c => Unicode.compact (t.text c)) =
        as.map fun a => String.intercalate "." (nameParts t a) := by
    intro as has
    induction as with
    | nil => rfl
    | cons a as ih =>
      obtain ⟨ha, has⟩ := List.forall_mem_cons.mp has
      rw [List.filterMap_cons, ha.2, ih has, List.map_cons]
  have hall : ∀ a ∈ (t.ancestors n).filter (fun a => t.kind a == .namespaceDeclaration ||
      t.kind a == .fileScopedNamespaceDeclaration), WritesPlainName t a := by
    intro a ha
    exact hplain a (by simpa using (List.mem_filter.mp ha).2)
  rw [namespaceOf, hnames _ hall, namespaceName, List.flatMap_def, ← intercalate_flatten,
    ← List.map_reverse, List.map_map]
  · rfl
  · intro l hl
    obtain ⟨a, ha, rfl⟩ := List.mem_map.mp hl
    exact (hall a (List.mem_reverse.mp ha)).1

/-! ## Names that tell types apart

Where the names of the index are apart, a dotted name tells what its declarations stand for. -/

theorem typeIdentity_of_first (hk : (t.kind n).isTypeDeclaration = true)
    (hnone : ∀ b ∈ t.ancestors n, (t.kind b).isTypeDeclaration = false) :
    typeIdentity t n = ⟨namespaceName t n, [(declaredName t n, typeParameterCount t n)]⟩ := by
  rw [typeIdentity, typePath_of_first hk hnone]
  rfl

theorem typeIdentity_of_nearest (hp : Parsed t) (hk : (t.kind n).isTypeDeclaration = true)
    {pre post : List NodeId} (hancestors : t.ancestors n = pre ++ a :: post)
    (hnone : ∀ b ∈ pre, (t.kind b).isTypeDeclaration = false)
    (ha : (t.kind a).isTypeDeclaration = true) :
    typeIdentity t n = ⟨(typeIdentity t a).namespaceName,
      (typeIdentity t a).path ++ [(declaredName t n, typeParameterCount t n)]⟩ := by
  have hpath := typePath_of_nearest hp hk hancestors hnone
  have hne : typePath t a ≠ [] := by
    rw [typePath_eq ha]
    simp
  rw [typeIdentity, typeIdentity, hpath, List.head?_append_of_ne_nil _ hne, List.map_append]
  rfl

/-- A node of a document declares a type. -/
def DeclaresType (s : Solution) (d : Document) (n : NodeId) : Prop :=
  d ∈ s.documents ∧ (d.tree.kind n).isTypeDeclaration = true

/-- The names of namespaces are plain. -/
def PlainNamespaces (s : Solution) : Prop :=
  ∀ d ∈ s.documents, ∀ a, d.tree.kind a = .namespaceDeclaration ∨
    d.tree.kind a = .fileScopedNamespaceDeclaration → WritesPlainName d.tree a

/-- Declarations of one name stand in as many types and list as many type parameters. -/
structure NamesApart (s : Solution) : Prop where
  depths : ∀ {d e n m}, DeclaresType s d n → DeclaresType s e m →
    dottedName d.tree n = dottedName e.tree m →
    (typePath d.tree n).length = (typePath e.tree m).length
  counts : ∀ {d e n m}, DeclaresType s d n → DeclaresType s e m →
    dottedName d.tree n = dottedName e.tree m →
    typeParameterCount d.tree n = typeParameterCount e.tree m

variable {s : Solution} {d e : Document}

/-- What two declarations stand for tells their names. -/
theorem dottedName_eq_of_typeIdentity_eq (hplain : PlainNamespaces s) (hd : d ∈ s.documents)
    (he : e ∈ s.documents) (h : typeIdentity d.tree n = typeIdentity e.tree m) :
    dottedName d.tree n = dottedName e.tree m := by
  have hspace := congrArg TypeIdentity.namespaceName h
  have hnames := congrArg (fun i => i.path.map Prod.fst) h
  simp only [typeIdentity, List.map_map, Function.comp_def] at hnames hspace
  rw [← funext (namespaceOf_eq (hplain d hd)), ← funext (namespaceOf_eq (hplain e he))] at hspace
  rw [dottedName, dottedName, typeNamespace, hspace]
  exact congrArg _ hnames

/-- **Where names are told apart, declarations of one name stand for one type**; by induction on the
types around the first one. -/
theorem NamesApart.typeIdentity_eq (h : NamesApart s) (hplain : PlainNamespaces s)
    (hparses : ∀ d ∈ s.documents, ∃ source, parse source = .ok d.tree)
    (hn : DeclaresType s d n) (hm : DeclaresType s e m)
    (hname : dottedName d.tree n = dottedName e.tree m) :
    typeIdentity d.tree n = typeIdentity e.tree m := by
  obtain ⟨source, hd⟩ := hparses d hn.1
  obtain ⟨source', he⟩ := hparses e hm.1
  have hpd := parsed_of_parse hd
  have hpe := parsed_of_parse he
  have hdepth := h.depths hn hm hname
  have hcount := h.counts hn hm hname
  induction hlength : (typePath d.tree n).length generalizing n m with
  | zero =>
    rw [typePath_eq hn.2, List.length_append] at hlength
    cases hlength
  | succ k ih =>
    have hpoint := notMem_point_declaredName hd n
    have hpoint' := notMem_point_declaredName he m
    rcases first_or_nearest d.tree n with hfirst | ⟨pre, a, post, hsplit, hnone, ha⟩ <;>
      rcases first_or_nearest e.tree m with hfirst' | ⟨pre', a', post', hsplit', hnone', ha'⟩
    · rw [dottedName_of_first hn.2 hfirst, dottedName_of_first hm.2 hfirst'] at hname
      obtain ⟨hspace, hlast⟩ := qualify_inj hpoint hpoint' hname
      rw [namespaceOf_eq (hplain d hn.1), namespaceOf_eq (hplain e hm.1)] at hspace
      rw [typeIdentity_of_first hn.2 hfirst, typeIdentity_of_first hm.2 hfirst', hspace, hlast,
        hcount]
    · -- one stands in no type and the other one in some
      rw [typePath_of_first hn.2 hfirst, typePath_of_nearest hpe hm.2 hsplit' hnone',
        typePath_eq ha'] at hdepth
      simp at hdepth
    · rw [typePath_of_first hm.2 hfirst', typePath_of_nearest hpd hn.2 hsplit hnone,
        typePath_eq ha] at hdepth
      simp at hdepth
    · -- the types around them have one dotted name as well, and stand in one type less
      rw [dottedName_of_nearest hpd hn.2 hsplit hnone ha,
        dottedName_of_nearest hpe hm.2 hsplit' hnone' ha'] at hname
      obtain ⟨houter, hlast⟩ := qualify_inj hpoint hpoint' hname
      have hk : (typePath d.tree a).length = k := by
        rw [typePath_of_nearest hpd hn.2 hsplit hnone, List.length_append] at hlength
        exact Nat.succ.inj hlength
      have hna : DeclaresType s d a := ⟨hn.1, ha⟩
      have hma : DeclaresType s e a' := ⟨hm.1, ha'⟩
      have hsame := ih hna hma houter (h.depths hna hma houter) (h.counts hna hma houter) hk
      rw [typeIdentity_of_nearest hpd hn.2 hsplit hnone ha,
        typeIdentity_of_nearest hpe hm.2 hsplit' hnone' ha', hsame, hlast, hcount]

/-- What a declaration stands for tells how many type parameters it lists itself. -/
theorem typeParameterCount_eq_of_typeIdentity_eq (hn : (t.kind n).isTypeDeclaration = true)
    (hm : (u.kind m).isTypeDeclaration = true) (h : typeIdentity t n = typeIdentity u m) :
    typeParameterCount t n = typeParameterCount u m := by
  have hlast := congrArg (fun i => i.path.getLast?) h
  simp only [typeIdentity, typePath_eq hn, typePath_eq hm, List.map_append, List.map_singleton,
    List.getLast?_concat, Option.some.injEq, Prod.mk.injEq] at hlast
  exact hlast.2

/-- **Names tell types apart just when declarations of one name stand for one type.** -/
theorem namesApart_iff (hplain : PlainNamespaces s)
    (hparses : ∀ d ∈ s.documents, ∃ source, parse source = .ok d.tree) :
    NamesApart s ↔ ∀ d e n m, DeclaresType s d n → DeclaresType s e m →
      (dottedName d.tree n = dottedName e.tree m ↔
        typeIdentity d.tree n = typeIdentity e.tree m) := by
  constructor
  · exact fun h d e n m hn hm =>
      ⟨h.typeIdentity_eq hplain hparses hn hm, dottedName_eq_of_typeIdentity_eq hplain hn.1 hm.1⟩
  · intro h
    constructor
    · intro d e n m hn hm hname
      have hpath := congrArg (fun i => i.path.length) ((h d e n m hn hm).mp hname)
      simpa [typeIdentity] using hpath
    · intro d e n m hn hm hname
      exact typeParameterCount_eq_of_typeIdentity_eq hn.2 hm.2 ((h d e n m hn hm).mp hname)

end CodeMend.Program
