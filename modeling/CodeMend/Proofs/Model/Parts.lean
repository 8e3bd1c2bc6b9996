import CodeMend.Proofs.Model.Hiding
import CodeMend.Proofs.Model.Registered

/-!
# CodeMend — what declarations give to their types

The second pass over a solution goes through the type declarations again and gives the bases,
members and methods of each one to its type.  Names and declarations are settled by then and mean
the same throughout the pass.  So whatever a type has comes from a declaration of its own.

* **`Program.SameNames.lookupType?_eq`**, **`Program.SameNames.listedBases_eq`**,
  **`Program.SameNames.declaredMembers_eq`** — what a source writes is read with names only.
* **`Program.OwnParts`** — every type has its bases, members and methods from its own declarations.
* **`Program.OwnParts.indexDeclaration`** — indexing a declaration keeps this.
* **`Program.ownParts_ofSolution`** — it holds of the index of a solution.
-/

namespace CodeMend.Program

open Tree

variable {documents : List Document} {s : Solution} {p q r : Program} {d : Document}
  {n context : NodeId} {i j : TypeId} {document : DocumentId}

/-! ## Reading with names

What a declaration lists is found with the names of the program.  Programs with the same names read
a declaration alike. -/

/-- The members that a declaration makes. -/
def declaredMembers (p : Program) (d : Document) (n : NodeId) : List MemberSymbol :=
  p.parameterMembers d n ++ (d.tree.childNodes n).flatMap (p.membersOf d)

namespace SameNames

variable (h : SameNames p q)

include h

theorem typeNamed?_eq : p.typeNamed? = q.typeNamed? := by
  funext name
  have hfound := congrArg (Array.findIdx? fun x => x.1 == name) h.types
  rwa [Array.findIdx?_map, Array.findIdx?_map] at hfound

theorem declaredType?_eq : p.declaredType? = q.declaredType? := by
  funext document n
  have hfound := congrArg (Array.findIdx? fun x => x.2.contains (document, n)) h.types
  rwa [Array.findIdx?_map, Array.findIdx?_map] at hfound

theorem qualifiedName_eq : p.qualifiedName = q.qualifiedName := by
  funext i
  have hi := congrArg (fun ts => (ts[i]?.map Prod.fst).getD "") h.types
  simp only [Array.getElem?_map, Option.map_map] at hi
  exact hi

/-- **A type name means the same.** -/
theorem lookupType?_eq : p.lookupType? = q.lookupType? := by
  funext d context name
  simp only [lookupType?, h.typeNamed?_eq, h.declaredType?_eq, h.qualifiedName_eq, h.usings]

theorem resolveTypeFuel_eq (fuel : Nat) (n : NodeId) :
    p.resolveTypeFuel d fuel n = q.resolveTypeFuel d fuel n := by
  induction fuel generalizing n with
  | zero => rfl
  | succ fuel ih =>
    simp only [resolveTypeFuel, resolveName, ih, h.lookupType?_eq, h.qualifiedName_eq]

theorem resolveType_eq : p.resolveType = q.resolveType := by
  funext d n
  exact h.resolveTypeFuel_eq _ n

theorem resolveOptional_eq : p.resolveOptional = q.resolveOptional := by
  funext d n
  simp only [resolveOptional, h.resolveType_eq]

/-- **A declaration lists the same bases.** -/
theorem listedBases_eq : p.listedBases = q.listedBases := by
  funext d n
  simp only [listedBases, h.lookupType?_eq]

/-- **A declaration makes the same members.** -/
theorem declaredMembers_eq : p.declaredMembers = q.declaredMembers := by
  funext d n
  have hmembers : p.membersOf d = q.membersOf d := by
    funext c
    simp only [membersOf, fieldMembers, propertyMember?, h.resolveOptional_eq, h.resolveType_eq]
  simp only [declaredMembers, parameterMembers, h.resolveOptional_eq, hmembers]

end SameNames

/-! ## The second pass keeps names

The second pass adds members and methods and leaves all names alone.  So the names in the index are
those of the first pass. -/

theorem sameNames_indexDeclaration (p : Program) (declaration : NodeId × TypeId) :
    SameNames p (indexDeclaration d p declaration) := by
  refine SameNames.trans ?_ (sameNames_foldl (fun m _ q => sameNames_addMethod q m) _)
  exact sameNames_changeTypes (fun _ => rfl) fun _ => rfl

theorem sameNames_indexDocument (p : Program) (d : Document) : SameNames p (p.indexDocument d) :=
  sameNames_foldl (fun declaration _ q => sameNames_indexDeclaration q declaration) p

theorem sameNames_ofSolution (s : Solution) : SameNames (registered s) (ofSolution s) :=
  sameNames_foldl (fun d _ q => sameNames_indexDocument q d) _

/-- **Every name has one type in the index of a solution.** -/
theorem registers_ofSolution (hs : s.Parsed) : (ofSolution s).Registers s.documents :=
  (registers_registered hs).of_sameNames (sameNames_ofSolution s)

/-! ## What a type has

The parts of a type are traced back to declarations.  The invariant has the declarations that were
indexed so far, which the steps of the second pass add to. -/

/-- In a program, `r` telling which declaration is whose, every type has its bases, members and
methods from its own declarations, and lists no base twice. -/
structure OwnParts (documents : List Document) (r q : Program) : Prop where
  methods : ∀ m ∈ q.methods, ∀ declaration, m.declaration = some declaration →
    ∃ d ∈ documents, d.id = declaration.document ∧ ∃ n,
      r.declaredType? d.id n = some m.containingType ∧ declaration.node ∈ d.tree.childNodes n
  members : ∀ {i : TypeId} {t : TypeSymbol}, q.types[i]? = some t → ∀ m ∈ t.members,
    ∃ d ∈ documents, ∃ n, r.declaredType? d.id n = some i ∧ m ∈ r.declaredMembers d n
  bases : ∀ {i : TypeId} {t : TypeSymbol}, q.types[i]? = some t → ∀ base ∈ t.bases,
    ∃ d ∈ documents, ∃ n, r.declaredType? d.id n = some i ∧ base ∈ r.listedBases d n
  nodup : ∀ {i : TypeId} {t : TypeSymbol}, q.types[i]? = some t → t.bases.Nodup

theorem OwnParts.of_sameNames (h : OwnParts documents p q) (hpr : SameNames p r) :
    OwnParts documents r q := by
  obtain ⟨hmethods, hmembers, hbases, hnodup⟩ := h
  rw [hpr.declaredType?_eq] at hmethods hmembers hbases
  rw [hpr.declaredMembers_eq] at hmembers
  rw [hpr.listedBases_eq] at hbases
  exact ⟨hmethods, hmembers, hbases, hnodup⟩

/-! ## Before the second pass

Behind the first pass no type has parts, so that the invariant holds of the index at that point. -/

/-- No type has bases or members, and no method a declaration. -/
structure Bare (p : Program) : Prop where
  methods : ∀ m ∈ p.methods, m.declaration = none
  types : ∀ t ∈ p.types, t.members = [] ∧ t.bases = []

namespace Bare

theorem changeTypes (h : p.Bare) {change : TypeSymbol → TypeSymbol}
    (hmembers : ∀ t, (change t).members = t.members) (hbases : ∀ t, (change t).bases = t.bases) :
    Bare { p with types := p.types.modify i change } := by
  refine ⟨h.methods, fun t ht => ?_⟩
  obtain ⟨j, hj⟩ := Array.mem_iff_getElem?.mp ht
  obtain ⟨u, hu, rfl | ⟨-, rfl⟩⟩ := exists_of_getElem?_modify hj
  · exact h.types t (Array.mem_of_getElem? hu)
  · rw [hmembers, hbases]
    exact h.types u (Array.mem_of_getElem? hu)

theorem addType (h : p.Bare) (name qualifiedName : String) (kind : TypeKind) :
    (p.addType name qualifiedName kind).1.Bare := by
  refine ⟨h.methods, fun t ht => ?_⟩
  rcases Array.mem_push.mp ht with ht | rfl
  · exact h.types t ht
  · exact ⟨rfl, rfl⟩

theorem addMethod (h : p.Bare) {m : MethodSymbol} (hm : m.declaration = none) :
    (p.addMethod m).Bare := by
  have htypes : Bare { p with types := p.types.modify m.containingType fun t =>
      { t with methods := t.methods ++ [p.methods.size] } } :=
    h.changeTypes (fun _ => rfl) fun _ => rfl
  refine ⟨fun m' hm' => ?_, htypes.types⟩
  rcases Array.mem_push.mp hm' with hm' | rfl
  · exact h.methods m' hm'
  · exact hm

end Bare

theorem bare_registered (s : Solution) : (registered s).Bare :=
  holds_registered (by constructor <;> simp) (fun _ _ _ _ hq => hq.addType _ _ _)
    (fun _ _ _ _ _ _ hq => hq.addMethod rfl)
    (fun _ _ _ hq => hq.changeTypes (fun _ => rfl) fun _ => rfl)
    fun _ _ hq => ⟨hq.methods, hq.types⟩

theorem Bare.ownParts (h : p.Bare) (documents : List Document) (r : Program) :
    OwnParts documents r p := by
  constructor
  · intro m hm declaration hdeclaration
    rw [h.methods m hm] at hdeclaration
    cases hdeclaration
  · intro i t ht m hm
    rw [(h.types t (Array.mem_of_getElem? ht)).1] at hm
    cases hm
  · intro i t ht base hbase
    rw [(h.types t (Array.mem_of_getElem? ht)).2] at hbase
    cases hbase
  · intro i t ht
    rw [(h.types t (Array.mem_of_getElem? ht)).2]
    exact List.nodup_nil

/-! ## Indexing a declaration

The bases, members and methods of one declaration are added to one type, the one that the
declaration was registered for. -/

theorem mem_foldl_addBase {bases listed : List TypeId} {base : TypeId}
    (h : base ∈ listed.foldl (addBase i) bases) : base ∈ bases ∨ base ∈ listed := by
  refine List.foldlRecOn listed (addBase i) (motive := fun found => base ∈ found →
    base ∈ bases ∨ base ∈ listed) .inl (fun found hfound b hb hbase => ?_) h
  unfold addBase at hbase
  split at hbase
  · rcases List.mem_append.mp hbase with hbase | hbase
    · exact hfound hbase
    · exact .inr (List.mem_singleton.mp hbase ▸ hb)
  · exact hfound hbase

theorem nodup_foldl_addBase {bases : List TypeId} (h : bases.Nodup) (listed : List TypeId) :
    (listed.foldl (addBase i) bases).Nodup := by
  refine List.foldlRecOn listed (addBase i) h fun found hfound base _ => ?_
  unfold addBase
  split
  next hnew =>
    have hnotMem : base ∉ found := by simpa using (Bool.and_eq_true_iff.mp hnew).2
    exact List.nodup_append.mpr ⟨hfound, List.nodup_singleton base, fun b hb c hc => by
      obtain rfl := List.mem_singleton.mp hc
      exact fun hbc => hnotMem (hbc ▸ hb)⟩
  next => exact hfound

namespace OwnParts

theorem addMethod (h : OwnParts documents r q) {m : MethodSymbol}
    (hm : ∀ declaration, m.declaration = some declaration → ∃ d ∈ documents,
      d.id = declaration.document ∧ ∃ n, r.declaredType? d.id n = some m.containingType ∧
        declaration.node ∈ d.tree.childNodes n) : OwnParts documents r (q.addMethod m) := by
  -- the bases and members of a type are what they were
  have hold : ∀ {i : TypeId} {t : TypeSymbol}, (q.addMethod m).types[i]? = some t →
      ∃ u, q.types[i]? = some u ∧ t.members = u.members ∧ t.bases = u.bases := by
    intro i t ht
    obtain ⟨u, hu, rfl | ⟨-, rfl⟩⟩ := exists_of_getElem?_modify ht
    · exact ⟨t, hu, rfl, rfl⟩
    · exact ⟨u, hu, rfl, rfl⟩
  constructor
  · intro m' hm' declaration hdeclaration
    rcases Array.mem_push.mp hm' with hm' | rfl
    · exact h.methods m' hm' declaration hdeclaration
    · exact hm declaration hdeclaration
  · intro i t ht
    obtain ⟨u, hu, hmembers, -⟩ := hold ht
    exact hmembers ▸ h.members hu
  · intro i t ht
    obtain ⟨u, hu, -, hbases⟩ := hold ht
    exact hbases ▸ h.bases hu
  · intro i t ht
    obtain ⟨u, hu, -, hbases⟩ := hold ht
    exact hbases ▸ h.nodup hu

/-- A type takes over the bases and members of a declaration of its own. -/
theorem takeOver (h : OwnParts documents r q) (hd : d ∈ documents)
    (hi : r.declaredType? d.id n = some i) :
    OwnParts documents r { q with types := q.types.modify i fun t =>
      { t with bases := (r.listedBases d n).foldl (addBase i) t.bases,
               members := t.members ++ r.declaredMembers d n } } := by
  constructor
  · exact h.methods
  · intro j t ht m hm
    obtain ⟨u, hu, rfl | ⟨rfl, rfl⟩⟩ := exists_of_getElem?_modify ht
    · exact h.members hu m hm
    · rcases List.mem_append.mp hm with hm | hm
      · exact h.members hu m hm
      · exact ⟨d, hd, n, hi, hm⟩
  · intro j t ht base hbase
    obtain ⟨u, hu, rfl | ⟨rfl, rfl⟩⟩ := exists_of_getElem?_modify ht
    · exact h.bases hu base hbase
    · rcases mem_foldl_addBase hbase with hbase | hbase
      · exact h.bases hu base hbase
      · exact ⟨d, hd, n, hi, hbase⟩
  · intro j t ht
    obtain ⟨u, hu, rfl | ⟨rfl, rfl⟩⟩ := exists_of_getElem?_modify ht
    · exact h.nodup hu
    · exact nodup_foldl_addBase (h.nodup hu) _

/-- **Indexing a declaration gives its bases, members and methods to its own type.** -/
theorem indexDeclaration (h : OwnParts documents r q) (hrq : SameNames r q) (hd : d ∈ documents)
    (hi : r.declaredType? d.id n = some i) :
    OwnParts documents r (indexDeclaration d q (n, i)) := by
  simp only [Program.indexDeclaration]
  rw [← hrq.listedBases_eq]
  have htypes := h.takeOver hd hi
  rw [hrq.declaredMembers_eq] at htypes
  refine List.foldlRecOn _ Program.addMethod htypes fun q' hq' m hm => hq'.addMethod ?_
  intro declaration hdeclaration
  obtain ⟨c, hc, hm⟩ := List.mem_filterMap.mp hm
  obtain ⟨hchild, -⟩ := List.mem_filter.mp hc
  obtain ⟨-, declaration', hdeclaration', hdocument, hnode⟩ := isFrom_of_methodSymbol? hd hm
  obtain rfl := Option.some.inj (hdeclaration'.symm.trans hdeclaration)
  obtain ⟨_, -, htype, -, -⟩ := exists_of_methodSymbol? hm
  exact ⟨d, hd, hdocument.symm, n, htype ▸ hi, hnode ▸ hchild⟩

theorem indexDocument (h : OwnParts documents r q) (hrq : SameNames r q) (hd : d ∈ documents) :
    OwnParts documents r (q.indexDocument d) := by
  refine And.right (List.foldlRecOn _ (Program.indexDeclaration d)
    (motive := fun q' => SameNames r q' ∧ OwnParts documents r q') ⟨hrq, h⟩ ?_)
  rintro q' ⟨hrq', hq'⟩ ⟨n, i⟩ hmem
  obtain ⟨n', -, heq⟩ := List.mem_filterMap.mp hmem
  obtain ⟨i', hi, heq⟩ := Option.map_eq_some_iff.mp heq
  obtain ⟨rfl, rfl⟩ := Prod.mk.inj heq
  rw [← hrq.declaredType?_eq] at hi
  exact ⟨hrq'.trans (sameNames_indexDeclaration q' _), hq'.indexDeclaration hrq' hd hi⟩

end OwnParts

/-- **Whatever a type of a solution has comes from its own declarations.** -/
theorem ownParts_ofSolution (s : Solution) :
    OwnParts s.documents (ofSolution s) (ofSolution s) := by
  have hpass : SameNames (registered s) (ofSolution s) ∧
      OwnParts s.documents (registered s) (ofSolution s) := by
    refine List.foldlRecOn s.documents Program.indexDocument
      (motive := fun q => SameNames (registered s) q ∧ OwnParts s.documents (registered s) q)
      ⟨.refl _, (bare_registered s).ownParts _ _⟩ ?_
    exact fun q ⟨hrq, hq⟩ d hd =>
      ⟨hrq.trans (sameNames_indexDocument q d), hq.indexDocument hrq hd⟩
  exact hpass.2.of_sameNames hpass.1

end CodeMend.Program
