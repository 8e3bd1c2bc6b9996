import Mathlib
import CodeMend.Check.Run
import CodeMend.Proofs.Fix.Modifiers
import CodeMend.Proofs.Model.Index

/-!
# CodeMend — fixing modifiers comes to an end

Every fix of a modifier takes at least one `ref` of the program away and adds none, so there are at
most as many of them, one after the other, as the program has such words.  Fixes of other rules have
no such measure: a text that is spliced in can open or close a comment with the text in front of it.
A batch is no run of such steps, since each of its fixes is worked out on the program in front of
the batch.

* **`Solution.countWords`** — how many words of some sort a program has.
* **`Solution.FixStep`** — a program as the fix of one of its findings leaves it.
* **`Solution.FixStep.refs_lt`** — the step: a fixed modifier is a `ref` less.
* **`modifier_fixes_terminate`** — the run: the fixes of modifiers come to an end.
-/

namespace CodeMend

open Tree

/-! ## Words of a program

A program is measured by the words in its documents.  Only the sort of the words matters, not their
places. -/

/-- The words of a text; none when it has no tokens. -/
def wordsIn (text : String) : List (TokenKind × String) :=
  match tokenize text with
  | .ok tokens => wordsOf tokens
  | .error _ => []

namespace Solution

/-- How many words of a sort are in the document with a number. -/
def countWordsAt (sort : TokenKind × String → Bool) (s : Solution) (id : DocumentId) : Nat :=
  match s.document? id with
  | some d => (wordsIn d.text).countP sort
  | none => 0

/-- How many words of a sort the documents of a solution have. -/
def countWords (sort : TokenKind × String → Bool) (s : Solution) : Nat :=
  ((s.documents.map Document.id).map (s.countWordsAt sort)).sum

/-- The number of `ref`s. -/
def refs (s : Solution) : Nat := s.countWords (· == (.keyword, "ref"))

/-- The number of `out`s. -/
def outs (s : Solution) : Nat := s.countWords (· == (.keyword, "out"))

/-- The number of names. -/
def names (s : Solution) : Nat := s.countWords (·.1 == .identifier)

/-! ## Fixes one after the other

One step is a check, a finding and its fix, and it counts when some document changed.  Nothing is
said about which rules the check was made for. -/

/-- A solution is what the fix of a finding of a rule leaves, and some document changed. -/
def FixStep (r : Rule) (s s' : Solution) : Prop :=
  ∃ rules found f cancelled o, Check.solution (.ofSolution s) rules = .ok found ∧ f ∈ found ∧
    f.rule = r ∧ f.applyFix (.ofSolution s) cancelled = .ok (some o) ∧ o.documents ≠ [] ∧
    o.solution = s'

/-- The solution that the fix of the first finding of a rule leaves, if it changes anything. -/
def fixFirst? (s : Solution) (r : Rule) : Option Solution :=
  match Check.solution (.ofSolution s) [r] with
  | .ok (f :: _) =>
    match f.applyFix (.ofSolution s) false with
    | .ok (some o) => if f.rule = r ∧ o.isEmpty = false then some o.solution else none
    | _ => none
  | _ => none

variable {s s' : Solution} {r : Rule}

theorem fixStep_of_fixFirst? (h : s.fixFirst? r = some s') : s.FixStep r s' := by
  unfold fixFirst? at h
  split at h
  next f fs hfound =>
    split at h
    next o ho =>
      obtain ⟨⟨hrule, hdocuments⟩, h⟩ := Option.ite_none_right_eq_some.mp h
      exact ⟨[r], f :: fs, f, false, o, hfound, List.mem_cons_self, hrule, ho,
        List.isEmpty_eq_false_iff.mp hdocuments, Option.some.inj h⟩
    next => cases h
  next => cases h

/-! ## The numbers of the documents

Fixes change the texts of documents and no numbers, so that the sums over both programs have the
same terms. -/

/-- A new text leaves the numbers of the documents as they are. -/
theorem ids_withText {id : DocumentId} {text : String} (h : s.withText id text = .ok s') :
    s'.documents.map Document.id = s.documents.map Document.id := by
  obtain ⟨old, -, hrest⟩ := exists_of_bind_eq_ok h
  obtain ⟨new, hnew, hrest⟩ := exists_of_bind_eq_ok hrest
  cases hrest
  have hid : new.id = id := by
    unfold Document.parse at hnew
    split at hnew
    · cases hnew
      rfl
    · cases hnew
  rw [List.map_map]
  refine List.map_congr_left fun d _ => ?_
  by_cases hd : d.id = id
  · simp [hd, hid]
  · simp [hd]

theorem ids_withChanges {changes : List DocumentChange} (h : s.withChanges changes = .ok s') :
    s'.documents.map Document.id = s.documents.map Document.id :=
  invariant_of_foldlM (P := fun r => r.documents.map Document.id = s.documents.map Document.id)
    (fun _ _ _ _ hr hstep => (ids_withText hstep).trans hr) rfl h

theorem id_mem_of_document? {id : DocumentId} {d : Document} (h : s.document? id = some d) :
    id ∈ s.documents.map Document.id :=
  List.mem_map.mpr ⟨d, List.mem_of_find?_eq_some h, id_of_document? h⟩

/-- Fewer words in one document, and nowhere more of them, are fewer words. -/
theorem countWords_lt {sort : TokenKind × String → Bool}
    (hids : s'.documents.map Document.id = s.documents.map Document.id)
    (hle : ∀ id, s'.countWordsAt sort id ≤ s.countWordsAt sort id) {id : DocumentId} {d : Document}
    (hd : s.document? id = some d) (hlt : s'.countWordsAt sort id < s.countWordsAt sort id) :
    s'.countWords sort < s.countWords sort := by
  unfold countWords
  rw [hids]
  exact List.sum_lt_sum _ _ (fun id _ => hle id) ⟨id, id_mem_of_document? hd, hlt⟩

end Solution

/-! ## Words that are taken

Words at some places are lost, and the others stay.  A sort that some of the lost words are of has
become less. -/

section Taken

variable {α : Type} {q : α → Bool} {g : Nat → α → Option α} {xs : List α} {x : α} {i j : Nat}

/-- Altering a list makes no more of a sort, when it only leaves what is of that sort. -/
theorem countP_alter_le (h : ∀ i x y, g i x = some y → q y = true → q x = true) (j : Nat)
    (xs : List α) : (alter g j xs).countP q ≤ xs.countP q := by
  induction xs generalizing j with
  | nil => exact Nat.le_refl 0
  | cons x xs ih =>
    have hhead : (g j x).toList.countP q ≤ [x].countP q := by
      cases hx : g j x with
      | none => exact Nat.zero_le _
      | some y =>
        cases hy : q y with
        | false => simp [hy]
        | true => simp [hy, h j x y hx hy]
    rw [alter_cons, List.countP_append, ← List.singleton_append, List.countP_append]
    exact Nat.add_le_add hhead (ih (j + 1))

/-- It makes less, when something of that sort is lost. -/
theorem countP_alter_lt (h : ∀ i x y, g i x = some y → q y = true → q x = true)
    (hi : xs[i]? = some x) (hx : q x = true) (hlost : ∀ y ∈ g (j + i) x, q y = false) :
    (alter g j xs).countP q < xs.countP q := by
  obtain ⟨hlt, rfl⟩ := List.getElem?_eq_some_iff.mp hi
  have hsplit : xs = xs.take i ++ xs[i] :: xs.drop (i + 1) := by
    rw [List.getElem_cons_drop, List.take_append_drop]
  have hlength : (xs.take i).length = i := List.length_take_of_le (Nat.le_of_lt hlt)
  have hnone : (g (j + i) xs[i]).toList.countP q = 0 := by
    rw [List.countP_eq_zero]
    intro y hy
    simp [hlost y (Option.mem_toList.mp hy)]
  have hfront := countP_alter_le h j (xs.take i)
  have hback := countP_alter_le h (j + i + 1) (xs.drop (i + 1))
  have hafter : (alter g j xs).countP q =
      (alter g j (xs.take i)).countP q + (alter g (j + i + 1) (xs.drop (i + 1))).countP q := by
    conv_lhs => rw [hsplit]
    rw [alter_append, alter_cons, hlength, List.countP_append, List.countP_append, hnone,
      Nat.zero_add]
  have hbefore : xs.countP q =
      (xs.take i).countP q + ((xs.drop (i + 1)).countP q + 1) := by
    conv_lhs => rw [hsplit]
    rw [List.countP_append, List.countP_cons_of_pos hx]
  omega

end Taken

/-- Taking some `ref` leaves fewer of them. -/
theorem count_ref_reworded_lt {new : Option (TokenKind × String)}
    {ws : List (TokenKind × String)} {taken : List Nat} {k : Nat}
    (hnew : new ≠ some (.keyword, "ref")) (hk : k ∈ taken)
    (hword : ws[k]? = some (.keyword, "ref")) :
    (reworded new taken ws).countP (· == (.keyword, "ref")) <
      ws.countP (· == (.keyword, "ref")) := by
  have hlost : ∀ y ∈ new, (y == (TokenKind.keyword, "ref")) = false := by
    intro y hy
    rw [Option.mem_def] at hy
    exact beq_eq_false_iff_ne.mpr fun heq => hnew (heq ▸ hy)
  refine countP_alter_lt (fun i x y hxy hy => ?_) hword (beq_self_eq_true _) fun y hy => ?_
  · split at hxy
    · exact absurd hy (by simp [hlost y hxy])
    · cases hxy
      exact hy
  · rw [Nat.zero_add, if_pos hk] at hy
    exact hlost y hy

/-! ## A changed document has lost a word

The sites of a document that changed cannot all have left it alone, and a site that does something
takes a `ref`. -/

variable {plan : Plan} {new : Option (TokenKind × String)} {ws : List (TokenKind × String)}
  {text : String} {taken taken' : List Nat} {sites : List Site}

/-- Places that are taken stay so. -/
theorem Rewrites.subset (h : Rewrites plan new ws text taken sites taken') : taken ⊆ taken' := by
  induction h with
  | nil => exact List.Subset.refl _
  | left t htree hwords hmodifier hrest ih => exact ih
  | changed t htree hwords i hmodifier patch hpatch htext k hword hk hrank hrest ih =>
    exact fun j hj => ih (List.mem_cons_of_mem _ hj)

/-- Sites that take no place have no modifier in the text. -/
theorem Rewrites.left_of_nil (h : Rewrites plan new ws text taken sites taken')
    (hnil : taken' = []) :
    ∀ site ∈ sites, ∃ t, parse text = .ok t ∧ siteModifier? plan t site = none := by
  induction h with
  | nil =>
    intro site hsite
    cases hsite
  | left t htree hwords hmodifier hrest ih =>
    intro site hsite
    rcases List.mem_cons.mp hsite with rfl | hsite
    · exact ⟨t, htree, hmodifier⟩
    · exact ih hnil site hsite
  | changed t htree hwords i hmodifier patch hpatch htext k hword hk hrank hrest ih =>
    have hmem := hrest.subset List.mem_cons_self
    rw [hnil] at hmem
    cases hmem

namespace Execution

variable {s s' : Progress} {path : String} {cancelled : Bool} {site : Site}

/-- A site without a modifier leaves the log and the regions as they are. -/
theorem untouched_of_changeSite (hrule : plan.rule.Rewords new) {t : Tree}
    (ht : parse s.log.current = .ok t) (hsite : siteModifier? plan t site = none)
    (h : changeSite plan path cancelled s site = .ok s') :
    s'.log = s.log ∧ s'.regions = s.regions := by
  unfold changeSite at h
  split at h
  · cases h
  obtain ⟨t', ht', hrest⟩ := exists_of_bind_eq_ok h
  obtain rfl := Except.ok.inj (ht.symm.trans (parse_of_reparse ht'))
  rw [sitePatches?_eq hrule, hsite, Option.bind_none] at hrest
  cases hrest
  exact ⟨rfl, rfl⟩

theorem untouched_of_foldlM (hrule : plan.rule.Rewords new)
    (hleft : ∀ site ∈ sites, ∃ t, parse s.log.current = .ok t ∧ siteModifier? plan t site = none)
    (h : sites.foldlM (changeSite plan path cancelled) s = .ok s') :
    s'.log = s.log ∧ s'.regions = s.regions := by
  refine invariant_of_foldlM (P := fun r => r.log = s.log ∧ r.regions = s.regions)
    (fun site hsite r r' hr hstep => ?_) ⟨rfl, rfl⟩ h
  obtain ⟨t, ht, hnone⟩ := hleft site hsite
  obtain ⟨hlog, hregions⟩ := untouched_of_changeSite hrule (hr.1 ▸ ht) hnone hstep
  exact ⟨hlog.trans hr.1, hregions.trans hr.2⟩

/-- **A document that changed has lost a modifier.** -/
theorem taken_ne_nil_of_changeDocument (hrule : plan.rule.Rewords new) {d : Document}
    {c : DocumentChange} {skipped : Nat}
    (h : changeDocument plan d sites cancelled = .ok (some c, skipped))
    (hrewrites : Rewrites plan new ws d.text [] (orderedSites sites) taken) : taken ≠ [] := by
  intro hnil
  obtain ⟨s, hs, -⟩ := exists_of_bind_eq_ok h
  exact touched_of_changeDocument h hs (untouched_of_foldlM hrule (hrewrites.left_of_nil hnil) hs)

end Execution

/-! ## Fixes of modifiers

Each step takes a `ref` from some document and gives none to another.  The measure goes down with
every step, so it bounds the length of a run. -/

/-- A fix that is carried out is on offer. -/
theorem Finding.runFix_of_applyFix {f : Finding} {p : Program} {cancelled : Bool} {o : PlanOutcome}
    (h : f.applyFix p cancelled = .ok (some o)) : f.runFix p cancelled = .ok o := by
  obtain ⟨offered, -, hrest⟩ := exists_of_bind_eq_ok h
  split at hrest
  · obtain ⟨o', ho, hrest⟩ := exists_of_bind_eq_ok hrest
    cases hrest
    exact ho
  · cases hrest

namespace Solution

variable {s s' : Solution} {r : Rule}

/-- A changed document has fewer `ref`s. -/
theorem countP_lt_of_changesModifiersOnly {sites : List Site} {before after : String}
    (hrule : r.Rewords new) (h : ChangesModifiersOnly plan new sites before after)
    (hne : ∀ us taken, Rewrites plan new us before [] sites taken → taken ≠ []) :
    (wordsIn after).countP (· == (.keyword, "ref")) <
      (wordsIn before).countP (· == (.keyword, "ref")) := by
  obtain ⟨us, vs, taken, hus, hvs, hrewrites, -, href, hwords, -⟩ := h
  obtain ⟨k, hk⟩ := List.exists_mem_of_ne_nil _ (hne _ _ hrewrites)
  simp only [wordsIn, hus, hvs, hwords]
  exact count_ref_reworded_lt hrule.ne_ref hk (href k hk)

/-- **A fixed modifier is a `ref` less.** -/
theorem FixStep.refs_lt (h : s.FixStep r s') (hrule : r.Rewords new) : s'.refs < s.refs := by
  obtain ⟨rules, found, f, cancelled, o, -, -, rfl, hfix, hne, rfl⟩ := h
  have hrun : f.runFix (.ofSolution s) cancelled = .ok o := Finding.runFix_of_applyFix hfix
  have hsound := Finding.sound_of_runFix hrun
  rw [Program.solution_ofSolution] at hsound
  obtain ⟨plan, hplan, hexecute⟩ := exists_of_bind_eq_ok hrun
  rw [Program.solution_ofSolution] at hexecute
  have hrule' : plan.rule.Rewords new := (Plan.rule_of_resolve hplan).symm ▸ hrule
  -- In a document that is changed a word goes, and no other document is changed.
  have hlt : ∀ c ∈ o.documents, o.solution.countWordsAt (· == (.keyword, "ref")) c.document <
      s.countWordsAt (· == (.keyword, "ref")) c.document := by
    intro c hc
    obtain ⟨d, sites, skipped, hd, -, hchange⟩ := Plan.exists_sites_of_execute hexecute hc
    obtain ⟨d₁, d', hd₁, hd', -, htext⟩ :=
      document?_withChanges_of_mem hsound.distinct hc hsound.solution
    obtain rfl := Option.some.inj (hd.symm.trans hd₁)
    have honly := Execution.changesModifiersOnly_of_changeDocument hrule' hchange
    simp only [countWordsAt, hd, hd', htext]
    exact countP_lt_of_changesModifiersOnly hrule' honly fun us taken hrewrites =>
      Execution.taken_ne_nil_of_changeDocument hrule' hchange hrewrites
  obtain ⟨c, hc⟩ := List.exists_mem_of_ne_nil _ hne
  obtain ⟨d, -, -, hd, -, -⟩ := Plan.exists_sites_of_execute hexecute hc
  refine countWords_lt (ids_withChanges hsound.solution) (fun id => ?_) hd (hlt c hc)
  by_cases hid : ∃ c ∈ o.documents, c.document = id
  · obtain ⟨c, hc, rfl⟩ := hid
    exact Nat.le_of_lt (hlt c hc)
  · have hsame := document?_withChanges_of_forall_ne
      (fun c hc heq => hid ⟨c, hc, heq⟩) hsound.solution
    simp only [countWordsAt, hsame]
    exact Nat.le_refl _

/-- A program as the fix of one of its modifiers leaves it. -/
def ModifierStep (s s' : Solution) : Prop := s.FixStep .unneededRef s' ∨ s.FixStep .refAsOut s'

theorem ModifierStep.refs_lt (h : s.ModifierStep s') : s'.refs < s.refs := by
  rcases h with h | h
  · exact h.refs_lt (.inl ⟨rfl, rfl⟩)
  · exact h.refs_lt (.inr ⟨rfl, rfl⟩)

/-- **A run takes a `ref` with every fix.** -/
theorem refs_add_le {run : Nat → Solution} (h : ∀ k, (run k).ModifierStep (run (k + 1)))
    (n : Nat) : (run n).refs + n ≤ (run 0).refs := by
  induction n with
  | zero => exact Nat.le_refl _
  | succ n ih =>
    have hlt := (h n).refs_lt
    omega

end Solution

/-- **The fixes of modifiers come to an end.**  Whatever rules the findings were found under, a fix
that makes a reference a value or an output and changes some document leaves fewer `ref`s, so no run
of such fixes goes on forever. -/
theorem modifier_fixes_terminate (s : Solution) :
    (∀ s', s.ModifierStep s' → s'.refs < s.refs) ∧
      ¬∃ run : Nat → Solution, run 0 = s ∧ ∀ k, (run k).ModifierStep (run (k + 1)) := by
  refine ⟨fun s' h => h.refs_lt, ?_⟩
  rintro ⟨run, rfl, h⟩
  have hle := Solution.refs_add_le h ((run 0).refs + 1)
  omega

/-- A method that never writes its parameter. -/
def reader : Solution := .ofFiles [("A.cs", "class C{void M(ref int a){}}")]

/-- Its fix takes the one `ref` that there is. -/
theorem modifier_fixes_terminate_reader : ∃ s,
    reader.ModifierStep s ∧ s.refs < reader.refs ∧ s.refs = 0 := by
  have hrun : (reader.fixFirst? .unneededRef).map Solution.refs = some 0 := by
    decide +kernel
  obtain ⟨s, hs, hrefs⟩ := Option.map_eq_some_iff.mp hrun
  have hstep : reader.ModifierStep s := .inl (Solution.fixStep_of_fixFirst? hs)
  exact ⟨s, hstep, (modifier_fixes_terminate reader).1 s hstep, hrefs⟩

/-! ### A fix that brings names back

The measure does not serve the other rules, and neither does any other count of words of a sort that
a comment may hide. -/

/-- A division by a conversion, with a comment behind it that has a sum in a later line. -/
def divider : Solution := .ofFiles [("A.cs", String.intercalate "\n"
  ["class C\x7bvoid M(int y)\x7by=y/System.Convert.ToInt32(/**/4);/*", "/*/", "//*/+y+y+y+y;",
    "\x7d\x7d"])]

/-- **Other fixes can have more names in the end than at the start**, and as many `ref`s and `out`s.
When the conversion is gone, the operator of the division and the comment in front of the argument
are the start of another comment, which ends with the line, so that the sum is read. -/
theorem conversion_fix_brings_names_back : ∃ s, divider.FixStep .redundantConversion s ∧
    divider.names < s.names ∧ s.refs = divider.refs ∧ s.outs = divider.outs := by
  have hrun : (divider.fixFirst? .redundantConversion).any (fun s =>
      decide (divider.names < s.names ∧ s.refs = divider.refs ∧ s.outs = divider.outs)) = true := by
    decide +kernel
  obtain ⟨s, hs, hcounts⟩ := Option.any_eq_true _ _ |>.mp hrun
  exact ⟨s, Solution.fixStep_of_fixFirst? hs, of_decide_eq_true hcounts⟩

end CodeMend
