import CodeMend.Proofs.Plan.Resolution
import CodeMend.Proofs.Text.Cuts
import CodeMend.Proofs.Token.Neighbours

/-!
# CodeMend — methods that files without a tree mention

A file that does not parse may still call a method.  Its text is searched for the name, and a method
that it mentions is not rewritten.

* **`HoldsWord`** — a name stands somewhere in a text between characters that are no parts of words.
* **`mentions_iff`** — the search finds a name exactly if it stands somewhere so.
* **`delimited_identifier`** — an identifier of the text stands so, unless it is right behind a
  number.
* **`named_methods_stay`** — a method that an identifier of a skipped file names has no plan.
* **`number_hides_identifier`** — behind a number, an identifier is overlooked.
-/

namespace CodeMend

open Lexer

namespace SkippedDocument

variable {name front back cs : List Char} {before : Option Char} {skip : Nat} {c : Char}

/-- What stands at a place is delimited: the characters next to it are no parts of a word. -/
structure Delimited (front back : List Char) : Prop where
  before : ∀ c ∈ front.getLast?, isWordPart c = false
  behind : ∀ c ∈ back.head?, isWordPart c = false

/-- The name stands somewhere in the text as a whole word.  `before` is the character in front of
the text. -/
def HoldsWord (before : Option Char) (name cs : List Char) : Prop :=
  ∃ front back, cs = front ++ (name ++ back) ∧ Delimited (before.toList ++ front) back

/-- Whether a name at the front of the text is delimited. -/
theorem delimited_nil_iff : Delimited (before.toList ++ []) back ↔
    before.any isWordPart = false ∧ back.head?.any isWordPart = false := by
  have hany : ∀ o : Option Char, o.any isWordPart = false ↔ ∀ c ∈ o, isWordPart c = false := by
    intro o
    cases o <;> simp
  have hlast : (before.toList ++ []).getLast? = before := by cases before <;> rfl
  rw [hany, hany]
  exact ⟨fun ⟨hbefore, hbehind⟩ => ⟨hlast ▸ hbefore, hbehind⟩,
    fun ⟨hbefore, hbehind⟩ => ⟨hlast.symm ▸ hbefore, hbehind⟩⟩

/-- What stands in front of a character does not matter behind it. -/
theorem delimited_cons_iff :
    Delimited (before.toList ++ c :: front) back ↔ Delimited ((some c).toList ++ front) back := by
  have hlast : (before.toList ++ c :: front).getLast? = ((some c).toList ++ front).getLast? :=
    List.getLast?_append_of_ne_nil _ (List.cons_ne_nil c front)
  constructor
  · rintro ⟨hbefore, hbehind⟩
    exact ⟨hlast ▸ hbefore, hbehind⟩
  · rintro ⟨hbefore, hbehind⟩
    exact ⟨hlast.symm ▸ hbefore, hbehind⟩

theorem HoldsWord.cons (h : HoldsWord (some c) name cs) : HoldsWord before name (c :: cs) := by
  obtain ⟨front, back, rfl, hdelimited⟩ := h
  exact ⟨c :: front, back, rfl, delimited_cons_iff.mpr hdelimited⟩

/-- A place that is not the first one lies behind the first character. -/
theorem HoldsWord.of_cons (h : c :: cs = front ++ (name ++ back)) (hfront : front ≠ [])
    (hdelimited : Delimited (before.toList ++ front) back) : HoldsWord (some c) name cs := by
  cases front with
  | nil => exact absurd rfl hfront
  | cons d front =>
    obtain ⟨rfl, rfl⟩ := List.cons.inj h
    exact ⟨front, back, rfl, delimited_cons_iff.mp hdelimited⟩

/-- **What the search reports stands in the text as a whole word.** -/
theorem holdsWord_of_mentionsFrom (h : mentionsFrom name before skip cs = true) :
    HoldsWord before name cs := by
  fun_induction mentionsFrom name before skip cs with
  | case1 before skip =>
    simp only [Bool.and_eq_true, List.isEmpty_iff, Bool.not_eq_true'] at h
    obtain ⟨⟨-, rfl⟩, hbefore⟩ := h
    exact ⟨[], [], rfl, delimited_nil_iff.mpr ⟨hbefore, rfl⟩⟩
  | case2 before c cs k ih => exact (ih h).cons
  | case3 before c cs rest hrest ih =>
    rcases Bool.or_eq_true _ _ ▸ h with hhere | h
    · simp only [Bool.and_eq_true, Bool.not_eq_true'] at hhere
      rw [dropFront?_eq_some_iff.mp hrest]
      exact ⟨[], rest, rfl, delimited_nil_iff.mpr hhere⟩
    · exact (ih h).cons
  | case4 before c cs hnone ih => exact (ih h).cons

/-- **A whole word is found.**  No occurrence that the search takes before can overlap it: the
character in front of it would be part of a word.  So all that is still skipped are parts of a word
behind another one. -/
theorem mentionsFrom_of_holdsWord (hname : ∀ c ∈ name, isWordPart c = true)
    (hskip : skip ≤ cs.length) (hinside : ∀ c ∈ cs.take skip, isWordPart c = true)
    (hbefore : skip ≠ 0 → ∃ c ∈ before, isWordPart c = true) (h : HoldsWord before name cs) :
    mentionsFrom name before skip cs = true := by
  fun_induction mentionsFrom name before skip cs with
  | case1 before skip =>
    obtain ⟨front, back, hcs, hdelimited⟩ := h
    obtain ⟨rfl, hrest⟩ := List.append_eq_nil_iff.mp hcs.symm
    obtain ⟨rfl, rfl⟩ := List.append_eq_nil_iff.mp hrest
    obtain rfl : skip = 0 := Nat.le_zero.mp hskip
    simp [delimited_nil_iff.mp hdelimited]
  | case2 before c cs k ih =>
    obtain ⟨front, back, hcs, hdelimited⟩ := h
    have hc : isWordPart c = true := hinside c (by simp)
    have hfront : front ≠ [] := by
      rintro rfl
      obtain ⟨d, rfl, hd⟩ := hbefore (Nat.succ_ne_zero k)
      have hno := hdelimited.before d (by simp)
      rw [hd] at hno
      cases hno
    exact ih (Nat.le_of_succ_le_succ hskip)
      (fun d hd => hinside d (by rw [List.take_succ_cons]; exact List.mem_cons_of_mem c hd))
      (fun _ => ⟨c, rfl, hc⟩) (.of_cons hcs hfront hdelimited)
  | case3 before c cs rest hrest ih =>
    obtain ⟨front, back, hcs, hdelimited⟩ := h
    have hmatch := dropFront?_eq_some_iff.mp hrest
    rw [Bool.or_eq_true]
    by_cases hfront : front = []
    · subst hfront
      obtain rfl : back = rest := List.append_cancel_left (hcs.symm.trans hmatch)
      exact .inl (by simpa using delimited_nil_iff.mp hdelimited)
    · -- the rest of the name is skipped
      have hrest : cs.take (name.length - 1) = name.tail ∧ name.length - 1 ≤ cs.length ∧
          (name.length - 1 ≠ 0 → c ∈ name) := by
        cases name with
        | nil => simp
        | cons e name =>
          obtain ⟨rfl, rfl⟩ := List.cons.inj hmatch
          simp
      obtain ⟨htake, hlength, hmem⟩ := hrest
      refine .inr (ih hlength ?_ ?_ (.of_cons hcs hfront hdelimited))
      · intro d hd
        rw [htake] at hd
        exact hname d (List.mem_of_mem_tail hd)
      · exact fun hlong => ⟨c, rfl, hname c (hmem hlong)⟩
  | case4 before c cs hnone ih =>
    obtain ⟨front, back, hcs, hdelimited⟩ := h
    have hfront : front ≠ [] := by
      rintro rfl
      rw [hcs, List.nil_append, dropFront?_eq_some_iff.mpr rfl] at hnone
      cases hnone
    exact ih (Nat.zero_le _) (by simp) (by simp) (.of_cons hcs hfront hdelimited)

/-- **A file mentions a name of word characters exactly if it holds it as a whole word.** -/
theorem mentions_iff {d : SkippedDocument} {name : String}
    (hname : ∀ c ∈ name.toList, isWordPart c = true) :
    d.mentions name = true ↔ HoldsWord none name.toList d.text.toList :=
  ⟨holdsWord_of_mentionsFrom,
    mentionsFrom_of_holdsWord hname (Nat.zero_le _) (by simp) (fun h => absurd rfl h)⟩

/-- The search and the scanner of tokens have one notion of a word. -/
theorem isWordPart_eq_isNamePart (c : Char) : isWordPart c = isNamePart c :=
  Bool.or_comm _ _

/-- **An identifier stands as a whole word, unless it is right behind a number.** -/
theorem delimited_identifier {source : String} {front back : List Token} {t : Token}
    (h : tokenize source = .ok (front ++ t :: back)) (hkind : t.kind = .identifier) :
    (∀ c ∈ t.valueText.toList, isWordPart c = true) ∧
      ∃ before behind, source.toList = before ++ (t.valueText.toList ++ behind) ∧
        byteLength before + t.valueText.utf8ByteSize = t.stop ∧
        (Delimited before behind ↔ ¬ BehindNumber front t) := by
  obtain ⟨before, behind, hsource, hstop, hname, hbehind, hbefore⟩ :=
    (lexed_of_tokenize h).exists_name hkind
  simp only [← isWordPart_eq_isNamePart] at hname hbehind hbefore
  refine ⟨hname, before, behind, hsource, by omega, ?_⟩
  exact Iff.trans ⟨Delimited.before, fun hword => ⟨hword, hbehind⟩⟩ hbefore

end SkippedDocument

namespace Resolve

/-- A skipped file that mentions a method leaves its calls unknown. -/
theorem ensureComplete_ne_ok {s : Solution} {skipped : SkippedDocument} {name : String}
    (hskipped : skipped ∈ s.skipped) (hmentions : skipped.mentions name = true)
    (references : List MethodReference) : ensureComplete s name references ≠ .ok () := by
  unfold ensureComplete
  split
  next r hr =>
    intro h
    obtain ⟨d, -, h⟩ := exists_of_bind_eq_ok h
    cases h
  next =>
    obtain ⟨d, hd⟩ : ∃ d, (s.skipped.find? fun d => d.mentions name) = some d :=
      Option.isSome_iff_exists.mp (List.find?_isSome.mpr ⟨skipped, hskipped, hmentions⟩)
    rw [hd]
    nofun

/-- **A method that a skipped file mentions is not rewritten.** -/
theorem signaturePlan_of_mentions {s : Solution} (hs : s.Parsed) {skipped : SkippedDocument}
    (hskipped : skipped ∈ s.skipped) {d : Document} (hd : d ∈ s.documents) {n : NodeId}
    {m : MethodSymbol} (hm : (Program.ofSolution s).declaredMethod? d.id n = some m)
    (hmentions : skipped.mentions m.name = true) (rule : Rule) (indices : List Nat) :
    (∀ cancelled plan, signaturePlan (.ofSolution s) rule d n indices cancelled ≠ .ok plan) ∧
      ((∀ d ∈ s.documents, d.Typed (.ofSolution s)) →
        (∀ i ∈ indices, i < m.parameters.length) →
        ∃ path reason, signaturePlan (.ofSolution s) rule d n indices false =
          .error (.unboundCallSite m.name path reason)) := by
  have hnone : ∀ cancelled plan,
      signaturePlan (.ofSolution s) rule d n indices cancelled ≠ .ok plan := by
    intro cancelled plan hplan
    obtain ⟨m', names, references, sites, hm', -, -, hcomplete, -⟩ := exists_of_signaturePlan hplan
    obtain rfl := Option.some.inj (hm.symm.trans hm')
    rw [Program.solution_ofSolution] at hcomplete
    exact ensureComplete_ne_ok hskipped hmentions references hcomplete
  refine ⟨hnone, fun htyped hindices => ?_⟩
  have hid := (Program.declaredMethod?_ofSolution hs.nodup hd hm).1
  rcases signaturePlan_cases hs htyped rule hm hid hindices with ⟨plan, hplan⟩ | hunbound
  · exact absurd hplan (hnone false plan)
  · exact hunbound

end Resolve

open SkippedDocument Resolve

/-- **A method that a skipped file names stays as it is.**  For every skipped file whose text has
tokens and every identifier among them: where it stands, its value is a whole word exactly if it
is not right behind a number; if it is not, the file mentions the name, no method of this name has
a plan, and a plan for parameters that it has fails at a call that could not be bound, where the
search for the type of every node ends.  A name of word characters is mentioned exactly if it stands
somewhere as a whole word. -/
theorem named_methods_stay {s : Solution} (hs : s.Parsed) {skipped : SkippedDocument}
    (hskipped : skipped ∈ s.skipped) :
    (∀ front t back, tokenize skipped.text = .ok (front ++ t :: back) → t.kind = .identifier →
      (∃ before behind, skipped.text.toList = before ++ (t.valueText.toList ++ behind) ∧
        byteLength before + t.valueText.utf8ByteSize = t.stop ∧
        (Delimited before behind ↔ ¬ BehindNumber front t)) ∧
      (¬ BehindNumber front t →
        skipped.mentions t.valueText = true ∧
        ∀ rule indices, ∀ d ∈ s.documents, ∀ n m,
          (Program.ofSolution s).declaredMethod? d.id n = some m → m.name = t.valueText →
          (∀ cancelled plan,
            signaturePlan (.ofSolution s) rule d n indices cancelled ≠ .ok plan) ∧
          ((∀ d ∈ s.documents, d.Typed (.ofSolution s)) →
            (∀ i ∈ indices, i < m.parameters.length) →
            ∃ path reason, signaturePlan (.ofSolution s) rule d n indices false =
              .error (.unboundCallSite m.name path reason)))) ∧
    (∀ name : String, (∀ c ∈ name.toList, isWordPart c = true) →
      (skipped.mentions name = true ↔ HoldsWord none name.toList skipped.text.toList)) := by
  refine ⟨fun front t back htokens hkind => ?_, fun name hname => mentions_iff hname⟩
  obtain ⟨hname, before, behind, htext, hstop, hdelimited⟩ := delimited_identifier htokens hkind
  refine ⟨⟨before, behind, htext, hstop, hdelimited⟩, fun hfree => ?_⟩
  have hmentions : skipped.mentions t.valueText = true :=
    (mentions_iff hname).mpr ⟨before, behind, htext, hdelimited.mpr hfree⟩
  refine ⟨hmentions, fun rule indices d hd n m hm hmname => ?_⟩
  exact signaturePlan_of_mentions hs hskipped hd hm (hmname ▸ hmentions) rule indices

/-- One file declares a method, and the other one breaks off in a call of it. -/
theorem named_methods_stay_unfinished : ∃ s : Solution,
    s = .ofFiles [("A.cs", "class C{void M(ref int a){}}"), ("B.cs", "@M(")] ∧ s.Parsed ∧
    ∃ skipped ∈ s.skipped, ∃ t back,
      tokenize skipped.text = .ok ([] ++ t :: back) ∧ t.kind = .identifier ∧
      t.valueText = "M" ∧ ¬ BehindNumber [] t ∧ skipped.mentions t.valueText = true ∧
      ∃ d ∈ s.documents, ∃ n m, (Program.ofSolution s).declaredMethod? d.id n = some m ∧
        m.name = t.valueText ∧ (∀ d ∈ s.documents, d.Typed (.ofSolution s)) ∧
        (∀ i ∈ [0], i < m.parameters.length) ∧
        (∀ cancelled plan,
          signaturePlan (.ofSolution s) .unneededRef d n [0] cancelled ≠ .ok plan) ∧
        ∃ path reason, signaturePlan (.ofSolution s) .unneededRef d n [0] false =
          .error (.unboundCallSite m.name path reason) := by
  have hunfinished : ((Solution.ofFiles
      [("A.cs", "class C{void M(ref int a){}}"), ("B.cs", "@M(")]).skipped.any fun k =>
        k.text == "@M(") = true := by
    decide +kernel
  have hdeclared : ((Solution.ofFiles
      [("A.cs", "class C{void M(ref int a){}}"), ("B.cs", "@M(")]).documents.any fun d =>
        ((Program.ofSolution (Solution.ofFiles
          [("A.cs", "class C{void M(ref int a){}}"), ("B.cs", "@M(")])).declaredMethod? d.id 3).any
            fun m => m.name == "M" && m.parameters.length == 1) = true := by
    decide +kernel
  have hbehind : ∀ d ∈ (Solution.ofFiles
      [("A.cs", "class C{void M(ref int a){}}"), ("B.cs", "@M(")]).documents,
        d.NamesBehindValues := by
    decide +kernel
  have htokens : tokenize "@M(" = .ok ([] ++ ⟨.identifier, "@M", 0, [], []⟩ ::
      [⟨.punctuation, "(", 2, [], []⟩, ⟨.endOfFile, "", 3, [], []⟩]) := by
    decide +kernel
  have hs := Solution.parsed_ofFiles [("A.cs", "class C{void M(ref int a){}}"), ("B.cs", "@M(")]
  generalize Solution.ofFiles
    [("A.cs", "class C{void M(ref int a){}}"), ("B.cs", "@M(")] = s at hunfinished hdeclared hbehind hs
  have htyped : ∀ d ∈ s.documents, d.Typed (.ofSolution s) := by
    intro d hd
    obtain ⟨source, hparse⟩ := hs.parses d hd
    exact Binder.typed_of_namesBehindValues hparse (hbehind d hd)
  obtain ⟨skipped, hskipped, htext⟩ := List.any_eq_true.mp hunfinished
  obtain ⟨d, hd, hdeclared⟩ := List.any_eq_true.mp hdeclared
  obtain ⟨m, hm, hmethod⟩ := (Option.any_eq_true _ _).mp hdeclared
  obtain ⟨hname, hparameters⟩ := (Bool.and_eq_true _ _).mp hmethod
  have hname := beq_iff_eq.mp hname
  have hindices : ∀ i ∈ [0], i < m.parameters.length := by simp [beq_iff_eq.mp hparameters]
  rw [← beq_iff_eq.mp htext] at htokens
  have hfree : ¬ BehindNumber [] ⟨.identifier, "@M", 0, [], []⟩ := by
    rintro ⟨p, hp, -⟩
    cases hp
  obtain ⟨-, hplans⟩ := (named_methods_stay hs hskipped).1 _ _ _ htokens rfl
  obtain ⟨hmentions, hplans⟩ := hplans hfree
  obtain ⟨hnone, hunbound⟩ := hplans .unneededRef [0] d hd 3 m hm hname
  exact ⟨s, rfl, hs, skipped, hskipped, _, _, htokens, rfl, rfl, hfree, hmentions, d, hd, 3,
    m, hm, hname, htyped, hindices, hnone, hunbound htyped hindices⟩

/-- Behind a number, an identifier of a skipped file is overlooked. -/
theorem number_hides_identifier :
    ¬ ∀ (files : List (String × String)) (skipped : SkippedDocument) (tokens : List Token)
        (t : Token), skipped ∈ (Solution.ofFiles files).skipped →
      tokenize skipped.text = .ok tokens → t ∈ tokens → t.kind = .identifier →
      skipped.mentions t.valueText = true := by
  intro hall
  have hrun : (Solution.ofFiles
      [("B.cs", "class B { void N(C c) { int y = 0Get(ref x); } }")]).skipped.any (fun k =>
        (tokenize k.text).toOption.any fun ts => ts.any fun t =>
          t.kind == .identifier && !k.mentions t.valueText) = true := by
    decide +kernel
  obtain ⟨skipped, hskipped, htokens⟩ := List.any_eq_true.mp hrun
  cases h : tokenize skipped.text with
  | error e =>
    rw [h] at htokens
    cases htokens
  | ok tokens =>
    rw [h] at htokens
    obtain ⟨t, ht, hhidden⟩ := List.any_eq_true.mp htokens
    obtain ⟨hkind, hhidden⟩ := (Bool.and_eq_true _ _).mp hhidden
    rw [hall _ skipped tokens t hskipped h ht (beq_iff_eq.mp hkind)] at hhidden
    cases hhidden

end CodeMend
