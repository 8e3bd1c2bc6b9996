import CodeMend.Proofs.Binding.Scopes
import CodeMend.Proofs.Plan.Resolution

/-!
# CodeMend — lookups and scopes

What a lookup of a variable finds against the scopes of variables.  The search asks the nodes around
a use from the inside to the outside, and each finds what it holds; so it finds something at the
innermost node that holds a variable of the name.  What it finds is in scope at the use, or it is
one of three: the variable of an argument or a pattern whose scope is a part of a statement, that of
a loop over a collection that the use stands in, or a parameter in whose list the use stands.

* **`holds_of_scopeSite?`**, **`isSome_scopeSite?`** — a node around a use finds what it holds.
* **`siteLookup?_of_innermost`** — a lookup ends at the innermost node that holds a variable.
* **`Binder.lookup_finds_earlier_loop`** — a lookup of a name that strays.
-/

namespace CodeMend

open Binder Tree

/-- A lookup at a node gets to another one around it if it finds nothing further in: variables are
seen across all nodes between. -/
def Reaches (t : Tree) (n holder : NodeId) : Prop :=
  t.isAncestor holder n = true ∧ ∀ m, t.isAncestor m n = true → t.isAncestor holder m = true →
    closesScope (t.kind m) = false

section

variable {source : String} {t : Tree} {name : String} {offset : Nat}
  {holder child n d s declaration : NodeId} {site : VariableSite} {ns : List NodeId}

/-! ## What a node finds

A lookup asks the nodes above a use one after the other.  What one node answers is compared with
what it holds: it answers with something it holds, and it answers whenever it holds anything. -/

theorem mem_of_mem_throughStatement {last : NodeId} (h : s ∈ throughStatement last ns) :
    s ∈ ns := by
  induction ns with
  | nil => cases h
  | cons m rest ih =>
    rw [throughStatement] at h
    split at h
    · exact List.mem_singleton.mp h ▸ List.mem_cons_self
    · rcases List.mem_cons.mp h with rfl | h
      · exact List.mem_cons_self
      · exact List.mem_cons_of_mem _ (ih h)

theorem declaratorOf_of_declaratorSite?
    (h : declaratorSite? t declaration name offset = some site) :
    ∃ d, site = .declarator declaration d ∧ DeclaratorOf t name offset declaration d := by
  obtain ⟨d, hd, rfl⟩ := Option.map_eq_some_iff.mp h
  have hfound := List.find?_some hd
  rw [Bool.and_eq_true, decide_eq_true_eq] at hfound
  exact ⟨d, rfl, List.mem_of_find?_eq_some hd, hfound⟩

theorem isSome_declaratorSite? (h : DeclaratorOf t name offset declaration d) :
    (declaratorSite? t declaration name offset).isSome = true := by
  obtain ⟨hmem, hstop, hname⟩ := h
  rw [declaratorSite?, Option.isSome_map, List.find?_isSome]
  exact ⟨d, hmem, by simp [hstop, hname]⟩

theorem holds_of_statementSite? (hp : Parsed t) (hlist : t.listsStatements holder = true)
    (hs : s ∈ t.childNodes holder) (h : statementSite? t s name offset = some site) :
    Holds t name offset holder site := by
  rcases Option.or_eq_some_iff.mp h with h | ⟨-, h⟩
  · split at h
    case isTrue hkind =>
      obtain ⟨declaration, hdeclaration, h⟩ := Option.bind_eq_some_iff.mp h
      obtain ⟨d, rfl, hd⟩ := declaratorOf_of_declaratorSite? h
      exact .statement hlist hs (beq_iff_eq.mp hkind) hdeclaration hd
    case isFalse => cases h
  · unfold designationSite? at h
    split at h
    case isTrue => cases h
    case isFalse hblock =>
      obtain ⟨d, hd, rfl⟩ := Option.map_eq_some_iff.mp h
      have hsees := (mem_designationScope_iff hp (hp.wellFormed.lt_of_mem hs).2.1).mp
        (List.mem_of_find?_eq_some hd)
      have hfound := List.find?_some hd
      simp only [Bool.and_eq_true, beq_iff_eq, decide_eq_true_eq] at hfound
      obtain ⟨⟨hkind, hstop⟩, hname⟩ := hfound
      exact .designation hlist hs (by simpa using hblock) hsees hkind hstop hname

theorem isSome_statementSite? (hp : Parsed t) (hs : s ∈ t.childNodes holder)
    (h : (t.kind s = .localDeclarationStatement ∧ ∃ declaration d,
        t.childOfKind? s .variableDeclaration = some declaration ∧
          DeclaratorOf t name offset declaration d) ∨
      t.kind s ≠ .block ∧ ∃ d, Sees t s d ∧ t.kind d = .singleVariableDesignation ∧
        (t.span d).stop ≤ offset ∧ (t.token (t.firstToken d)).valueText = name) :
    (statementSite? t s name offset).isSome = true := by
  rw [statementSite?, Option.isSome_or, Bool.or_eq_true]
  rcases h with ⟨hkind, declaration, d, hdeclaration, hd⟩ | ⟨hblock, d, hsees, hkind, hstop, hname⟩
  · left
    simp only [hkind, beq_self_eq_true, if_true, hdeclaration, Option.bind_some]
    exact isSome_declaratorSite? hd
  · right
    have hmem := (mem_designationScope_iff hp (hp.wellFormed.lt_of_mem hs).2.1).mpr hsees
    simp only [designationSite?, beq_iff_eq, hblock, if_false, Option.isSome_map,
      List.find?_isSome]
    exact ⟨d, hmem, by simp [hkind, hstop, hname]⟩

/-- **What a node around a use finds, it holds.** -/
theorem holds_of_scopeSite? (hp : Parsed t)
    (h : scopeSite? t holder child name offset = some site) :
    Holds t name offset holder site := by
  unfold scopeSite? at h
  split at h
  -- Blocks and sections of a switch.
  case h_1 hkind | h_2 hkind =>
    have hlist : t.listsStatements holder = true := by simp [listsStatements, hkind]
    obtain ⟨s, hs, hsite⟩ := List.exists_of_findSome?_eq_some h
    exact holds_of_statementSite? hp hlist (mem_of_mem_throughStatement hs) hsite
  case h_3 hkind | h_4 hkind =>
    obtain ⟨declaration, hdeclaration, h⟩ := Option.bind_eq_some_iff.mp h
    obtain ⟨d, rfl, hd⟩ := declaratorOf_of_declaratorSite? h
    exact .header (by simp [hkind]) hdeclaration hd
  case h_5 hkind =>
    obtain ⟨i, hi, h⟩ := Option.bind_eq_some_iff.mp h
    split at h
    case isTrue => cases h
    case isFalse hname =>
      obtain ⟨type, htype, rfl⟩ := Option.map_eq_some_iff.mp h
      refine .forEach hkind hi (by simpa using hname) fun hnil => ?_
      rw [hnil] at htype
      cases htype
  case h_6 hkind =>
    obtain ⟨d, hd, h⟩ := Option.bind_eq_some_iff.mp h
    obtain ⟨i, hi, h⟩ := Option.bind_eq_some_iff.mp h
    split at h
    case isTrue => cases h
    case isFalse hname =>
      cases h
      exact .catchClause hkind hd hi (by simpa using hname)
  -- Methods, constructors, local functions and lambdas: their parameters.
  case h_7 hkind | h_8 hkind | h_9 hkind | h_10 hkind | h_11 hkind =>
    obtain ⟨v, hv, rfl⟩ := Option.map_eq_some_iff.mp h
    exact .parameter (by simp [hkind]) (List.mem_of_find?_eq_some hv)
      (by simpa using List.find?_some hv)
  case h_12 hkind =>
    split at h
    case isTrue => cases h
    case isFalse hname =>
      obtain ⟨i, hi, h⟩ := Option.bind_eq_some_iff.mp h
      obtain ⟨property, hproperty, rfl⟩ := Option.map_eq_some_iff.mp h
      have hword := List.find?_some hi
      exact .accessor hkind (by simpa using hname) (List.mem_of_find?_eq_some hi)
        hword hproperty
  case h_13 => cases h

/-- What ends before a use does not stand behind the node that the use stands in. -/
theorem not_behind (h : parse source = .ok t) (hn : t.under n child = true)
    (hd : t.under d s = true) (hstop : (t.span d).stop ≤ (t.span n).start) :
    ¬ t.lastToken child < t.firstToken s := by
  intro hlt
  have ht := inOrder_of_parse h
  obtain ⟨ns, hn⟩ := (under_iff ht.parsed).mp hn
  obtain ⟨ms, hd⟩ := (under_iff ht.parsed).mp hd
  -- The last token of what is declared would stand behind the first one of the use.
  have hle : t.firstToken n < t.lastToken d :=
    calc t.firstToken n
      _ ≤ t.lastToken n := (ht.firstToken_le_lastToken n).1
      _ ≤ t.lastToken child := (hn.tokens_le ht).2
      _ < t.firstToken s := hlt
      _ ≤ t.firstToken d := (hd.tokens_le ht).1
      _ ≤ t.lastToken d := (ht.firstToken_le_lastToken d).1
  have hsize := (ht.firstToken_le_lastToken d).2
  have hnext : t.firstToken n + 1 < t.tokens.size := Nat.lt_of_le_of_lt hle hsize
  have hbefore := offset_lt_stop (text_ne_empty_of_parse h hnext)
  have hstops := ht.stop_le_stop (Nat.le_of_lt hle) hsize
  have hspan : (t.token (t.lastToken d)).stop ≤ (t.token (t.firstToken n)).offset := hstop
  omega

/-- A statement that declares something before a use stands in front of it, or around it. -/
theorem mem_throughStatement (h : parse source = .ok t) (hs : s ∈ t.childNodes holder)
    (hchild : child ∈ t.childNodes holder) (hn : t.under n child = true)
    (hd : t.under d s = true) (hstop : (t.span d).stop ≤ (t.span n).start) :
    s ∈ throughStatement child (t.childNodes holder) := by
  have hpairs := (inOrder_of_parse h).childNodes_pairwise holder
  have hbehind := not_behind h hn hd hstop
  generalize t.childNodes holder = ns at hs hchild hpairs ⊢
  induction ns with
  | nil => cases hs
  | cons m rest ih =>
    obtain ⟨hrest, hpairs⟩ := List.pairwise_cons.mp hpairs
    rw [throughStatement]
    split
    case isTrue hm =>
      -- The scan ends here: what follows stands behind the use.
      rcases List.mem_cons.mp hs with rfl | hs
      · exact List.mem_cons_self
      · exact absurd (beq_iff_eq.mp hm ▸ hrest s hs) hbehind
    case isFalse hm =>
      have hne : child ≠ m := fun heq => hm (by simp [heq])
      rcases List.mem_cons.mp hs with rfl | hs
      · exact List.mem_cons_self
      · exact List.mem_cons_of_mem _ (ih hs ((List.mem_cons.mp hchild).resolve_left hne) hpairs)

/-- A declarator stands under its statement. -/
theorem DeclaratorOf.under (hp : Parsed t) (hd : DeclaratorOf t name offset declaration d)
    (hdeclaration : t.childOfKind? s .variableDeclaration = some declaration) :
    t.under d s = true :=
  (under_iff hp).mpr ⟨_, .up (mem_childNodes_of_mem_childrenOfKind hd.1)
    (.up (mem_childNodes_of_childOfKind? hdeclaration) (.here s))⟩

/-- A list of statements finds something if one of them, up to that of the use, declares it. -/
theorem isSome_scopeSite?_of_list (hlist : t.listsStatements holder = true)
    (hs : s ∈ throughStatement child (t.childNodes holder))
    (h : (statementSite? t s name offset).isSome = true) :
    (scopeSite? t holder child name offset).isSome = true := by
  have hfound : ((throughStatement child (t.childNodes holder)).findSome? fun s =>
      statementSite? t s name offset).isSome = true := List.findSome?_isSome_iff.mpr ⟨s, hs, h⟩
  rcases (Bool.or_eq_true _ _).mp hlist with hkind | hkind <;>
    rw [scopeSite?, beq_iff_eq.mp hkind] <;> exact hfound

/-- **What a node around a use holds, it finds**, or something else of the name. -/
theorem isSome_scopeSite? (h : parse source = .ok t) (hchild : child ∈ t.childNodes holder)
    (hn : t.under n child = true) (hholds : Holds t name (t.span n).start holder site) :
    (scopeSite? t holder child name (t.span n).start).isSome = true := by
  have hp := parsed_of_parse h
  -- What is held is found, although the search may come to something else of the name first.
  cases hholds with
  | @statement s declaration d hlist hs hkind hdeclaration hd =>
    have hthrough := mem_throughStatement h hs hchild hn (hd.under hp hdeclaration) hd.2.1
    exact isSome_scopeSite?_of_list hlist hthrough
      (isSome_statementSite? hp hs (.inl ⟨hkind, declaration, d, hdeclaration, hd⟩))
  | @designation s d hlist hs hblock hsees hkind hstop hname =>
    obtain ⟨ns, hrises, -⟩ := hsees.rises
    have hthrough := mem_throughStatement h hs hchild hn ((under_iff hp).mpr ⟨ns, hrises⟩) hstop
    exact isSome_scopeSite?_of_list hlist hthrough
      (isSome_statementSite? hp hs (.inr ⟨hblock, d, hsees, hkind, hstop, hname⟩))
  | header hkind hdeclaration hd =>
    rcases hkind with hkind | hkind <;>
      simp only [scopeSite?, hkind, hdeclaration, Option.bind_some] <;>
      exact isSome_declaratorSite? hd
  | forEach hkind hi hname htype =>
    simp [scopeSite?, hkind, hi, hname, htype]
  | catchClause hkind hd hi hname => simp [scopeSite?, hkind, hd, hi, hname]
  | @parameter v hkind hv hname =>
    have hfound : ((parametersOf t holder).find? fun v => v.nameText t == name).isSome = true :=
      List.find?_isSome.mpr ⟨v, hv, by simp [hname]⟩
    simp only [List.mem_cons, List.not_mem_nil, or_false] at hkind
    rcases hkind with hkind | hkind | hkind | hkind | hkind <;>
      simp only [scopeSite?, hkind, Option.isSome_map] <;> exact hfound
  | @accessor property i hkind hname hi hword hproperty =>
    have hfound : ((t.childTokens holder).find? fun i => (t.token i).isContextual "set" ||
        (t.token i).isContextual "init").isSome = true := List.find?_isSome.mpr ⟨i, hi, hword⟩
    obtain ⟨j, hj⟩ := Option.isSome_iff_exists.mp hfound
    simp [scopeSite?, hkind, hname, hj, hproperty]

/-! ## The search

The nodes form a chain from the use upwards, and the search ends at the first that answers or that
closes the scope. -/

/-- A lookup reaches the nodes above a node up to the first that closes its scope. -/
theorem reaches_iff (hp : Parsed t) {pre post : List NodeId}
    (hancestors : t.ancestors n = pre ++ holder :: post) :
    Reaches t n holder ↔ ∀ m ∈ pre, closesScope (t.kind m) = false := by
  obtain ⟨top, hrises⟩ := exists_rises_ancestors hp n
  rw [hancestors] at hrises
  constructor
  · rintro ⟨-, hopen⟩ m hm
    obtain ⟨front, back, rfl⟩ := List.append_of_mem hm
    rw [List.append_assoc, List.cons_append] at hrises
    obtain ⟨hm, hup⟩ := hrises.split
    exact hopen m (isAncestor_of_rises hp hm) (isAncestor_of_rises hp hup.split.1)
  · intro hopen
    obtain ⟨hholder, hpost⟩ := hrises.split
    refine ⟨isAncestor_of_rises hp hholder, fun m hm habove => hopen m ?_⟩
    rw [isAncestor, List.contains_iff_mem, hancestors] at hm
    refine (List.mem_append.mp hm).resolve_right fun hm => ?_
    -- A node behind the holder is not under it.
    rcases List.mem_cons.mp hm with rfl | hm
    · exact absurd habove (by simp [not_isAncestor_self hp])
    · obtain ⟨front, back, rfl⟩ := List.append_of_mem hm
      have hloop := isAncestor_trans hp (isAncestor_of_rises hp hpost.split.1) habove
      exact absurd hloop (by simp [not_isAncestor_self hp])

section

variable {last top : NodeId} (hp : Parsed t) (hrises : Rises t last ns top)
  (hn : t.under n last = true)

include hp hrises hn

/-- What a search finds is found at a node; the nodes further in find nothing and let it pass. -/
theorem exists_of_siteLookupFrom? (h : siteLookupFrom? t name offset last ns = some site) :
    ∃ pre holder post child, ns = pre ++ holder :: post ∧ child ∈ t.childNodes holder ∧
      t.under n child = true ∧ scopeSite? t holder child name offset = some site ∧
      ∀ m ∈ pre, closesScope (t.kind m) = false ∧
        ∀ c ∈ t.childNodes m, t.under n c = true → scopeSite? t m c name offset = none := by
  induction hrises with
  | here => cases h
  | @up c p ns top hc _ ih =>
    rw [siteLookupFrom?] at h
    split at h
    case h_1 found hfound =>
      cases h
      exact ⟨[], p, ns, c, rfl, hc, hn, hfound, by simp⟩
    case h_2 hnone =>
      split at h
      case isTrue => cases h
      case isFalse hopen =>
        obtain ⟨pre, holder, post, child, rfl, hchild, hunder, hfound, hpassed⟩ :=
          ih (under_of_child hp hc hn) h
        refine ⟨p :: pre, holder, post, child, rfl, hchild, hunder, hfound, fun m hm => ?_⟩
        -- The use is under one child of the node only, the one that the search comes from.
        rcases List.mem_cons.mp hm with rfl | hm
        · exact ⟨by simpa using hopen, fun d hd hnd => child_unique hp hc hd hn hnd ▸ hnone⟩
        · exact hpassed m hm

/-- If a search finds nothing, no node that it gets to finds anything. -/
theorem scopeSite?_eq_none (h : siteLookupFrom? t name offset last ns = none)
    {pre post : List NodeId} (hns : ns = pre ++ holder :: post)
    (hopen : ∀ m ∈ pre, closesScope (t.kind m) = false) (hchild : child ∈ t.childNodes holder)
    (hunder : t.under n child = true) : scopeSite? t holder child name offset = none := by
  induction hrises generalizing pre with
  | here => simp at hns
  | @up c p ns top hc _ ih =>
    rw [siteLookupFrom?] at h
    split at h
    case h_1 => cases h
    case h_2 hnone =>
      cases pre with
      | nil =>
        obtain ⟨rfl, rfl⟩ := List.cons_eq_cons.mp hns
        exact child_unique hp hc hchild hn hunder ▸ hnone
      | cons m pre =>
        obtain ⟨rfl, rfl⟩ := List.cons_eq_cons.mp hns
        obtain ⟨hp', hopen⟩ := List.forall_mem_cons.mp hopen
        rw [if_neg (by simp [hp'])] at h
        exact ih (under_of_child hp hc hn) h rfl hopen

end

/-! ## A lookup

A variable that is found is held by the innermost node that holds any, and is in scope there unless
it strays.  The second of two loops shows a variable that strays. -/

/-- **A lookup finds what the innermost node around the use holds.**  If nothing that is held there
under the name strays, then what is found is in scope at the use. -/
theorem siteLookup?_of_innermost (h : parse source = .ok t) (name : String) (n : NodeId)
    (hregular : ∀ holder site, Reaches t n holder → Holds t name (t.span n).start holder site →
      site.strays t holder n = false) :
    (∀ site, siteLookup? t name n = some site → ∃ holder, Reaches t n holder ∧
      Holds t name (t.span n).start holder site ∧ site.inScope t n = true ∧
      ∀ outer other, Reaches t n outer → Holds t name (t.span n).start outer other →
        t.under holder outer = true) ∧
    (siteLookup? t name n = none → ∀ holder site, Reaches t n holder →
      ¬ Holds t name (t.span n).start holder site) := by
  have hp := parsed_of_parse h
  obtain ⟨top, hrises⟩ := exists_rises_ancestors hp n
  have hself : t.under n n = true := by simp [under]
  -- A node that the lookup gets to is one of those above the use, and finds what it holds.
  have hfinds {holder : NodeId} {site : VariableSite} (hreaches : Reaches t n holder)
      (hholds : Holds t name (t.span n).start holder site) :
      ∃ pre post child, t.ancestors n = pre ++ holder :: post ∧
        (∀ m ∈ pre, closesScope (t.kind m) = false) ∧ child ∈ t.childNodes holder ∧
        t.under n child = true ∧
        (scopeSite? t holder child name (t.span n).start).isSome = true := by
    obtain ⟨pre, post, hsplit⟩ := List.append_of_mem (List.contains_iff_mem.mp hreaches.1)
    obtain ⟨child, hchild, hunder⟩ := exists_child_of_isAncestor hp hreaches.1
    exact ⟨pre, post, child, hsplit, (reaches_iff hp hsplit).mp hreaches, hchild, hunder,
      isSome_scopeSite? h hchild hunder hholds⟩
  constructor
  · intro site hsite
    obtain ⟨pre, holder, post, child, hsplit, hchild, hunder, hfound, hpassed⟩ :=
      exists_of_siteLookupFrom? hp hrises hself hsite
    have hreaches := (reaches_iff hp hsplit).mpr fun m hm => (hpassed m hm).1
    have hholds := holds_of_scopeSite? hp hfound
    refine ⟨holder, hreaches, hholds,
      (inScope_or_strays hp hchild hunder hholds).resolve_right
        (by simp [hregular holder site hreaches hholds]),
      fun outer other houter hother => ?_⟩
    obtain ⟨-, -, c, -, -, hc, hnc, hsome⟩ := hfinds houter hother
    have hmem : outer ∈ t.ancestors n := List.contains_iff_mem.mp houter.1
    rw [hsplit] at hmem hrises
    have habove : outer ∈ holder :: post := by
      refine (List.mem_append.mp hmem).resolve_left fun hm => ?_
      rw [(hpassed outer hm).2 c hc hnc] at hsome
      cases hsome
    obtain ⟨ms, hup⟩ := Rises.exists_prefix hrises.split.2 habove
    exact (under_iff hp).mpr ⟨ms, hup⟩
  · intro hnone holder site hreaches hholds
    obtain ⟨pre, post, child, hsplit, hopen, hchild, hunder, hsome⟩ := hfinds hreaches hholds
    rw [scopeSite?_eq_none hp hrises hself hnone hsplit hopen hchild hunder] at hsome
    cases hsome

end

namespace Binder

theorem chars_append {x y : String} {cs ds : List Char} (hx : x.toList = cs) (hy : y.toList = ds) :
    (x ++ y).toList = cs ++ ds := by
  rw [String.toList_append, hx, hy]

/-- Two loops that each declare a variable of the same name; the second uses it. -/
def usedInSecond : String :=
  "class C \x7b bool F(out int x) { x = 1; return false; } " ++
    "bool F(out long x) { x = 1; return false; } void G(int x) { } void G(long x) { } " ++
    "void M() { while (F(out int x)) { } while (F(out long x)) { G(x); } } \x7d"

/-- **A use in the second loop is one of the variable of the first**, which is out of scope, while
another of the name is in scope: a call is bound to the overload for the type of the first. -/
theorem lookup_finds_earlier_loop : ∃ s d v w m,
    Solution.ofSources [("A.cs", usedInSecond)] = .ok s ∧ s.documents.head? = some d ∧
      siteLookup? d.tree "x" 65 = some (.designation 49) ∧
      (ofDocument (.ofSolution s) d).variableAt (.designation 49) = .ok v ∧
      v.type = .primitive .int ∧ (VariableSite.designation 49).inScope d.tree 65 = false ∧
      (ofDocument (.ofSolution s) d).variableAt (.designation 58) = .ok w ∧
      w.name = "x" ∧ w.type = .primitive .long ∧
      (VariableSite.designation 58).inScope d.tree 65 = true ∧
      (ofDocument (.ofSolution s) d).resolveInvocation? 62 = .ok (some m) ∧
      ((Program.ofSolution s).method? m).map (fun m => m.parameters.map (·.type)) =
        some [.primitive .int] := by
  have hrun : ((Solution.ofSources [("A.cs", usedInSecond)]).toOption.any fun s =>
      s.documents.head?.any fun d =>
        siteLookup? d.tree "x" 65 == some (.designation 49) &&
        (((ofDocument (.ofSolution s) d).variableAt (.designation 49)).toOption.any fun v =>
          v.type == .primitive .int) &&
        !(VariableSite.designation 49).inScope d.tree 65 &&
        (((ofDocument (.ofSolution s) d).variableAt (.designation 58)).toOption.any fun w =>
          w.name == "x" && w.type == .primitive .long) &&
        (VariableSite.designation 58).inScope d.tree 65 &&
        (((ofDocument (.ofSolution s) d).resolveInvocation? 62).toOption.join.any fun m =>
          ((Program.ofSolution s).method? m).map (fun m => m.parameters.map (·.type)) ==
            some [.primitive .int])) = true := by
    have hchars : usedInSecond.toList = _ :=
      chars_append (chars_append String.toList_ofList String.toList_ofList) String.toList_ofList
    rw [Solution.toOption_ofSources hchars]
    decide +kernel
  cases h : Solution.ofSources [("A.cs", usedInSecond)] with
  | error e =>
    rw [h] at hrun
    cases hrun
  | ok s =>
    rw [h] at hrun
    simp only [Option.any_some, Except.toOption, Bool.and_eq_true, Option.any_eq_true,
      Option.join_eq_some_iff, Bool.not_eq_true', beq_iff_eq] at hrun
    obtain ⟨d, hd, ⟨⟨⟨⟨hfound, v, hv, hint⟩, hstrays⟩, w, hw, hname, hlong⟩, hscope⟩, m, hm,
      hcall⟩ := hrun
    exact ⟨s, d, v, w, m, rfl, hd, hfound, toOption_eq_some_iff.mp hv, hint, hstrays,
      toOption_eq_some_iff.mp hw, hname, hlong, hscope, toOption_eq_some_iff.mp hm, hcall⟩

end Binder

end CodeMend
