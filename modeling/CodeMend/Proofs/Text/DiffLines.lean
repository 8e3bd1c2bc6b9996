import CodeMend.Proofs.Text.Locations
import CodeMend.Proofs.Text.Patches
import CodeMend.Text.Alignment
import Mathlib.Data.List.Basic
import Mathlib.Data.List.TakeDrop
import Mathlib.Data.List.TakeWhile

/-!
# CodeMend — the lines of a diff

A lawful aligner takes every piece of both texts once.  Its pieces become lines that say how the old
text turns into the new one, also where the empty piece behind a final line feed of one text meets
an empty line of the other.  Nothing else is asked of the aligner, and the one that the commands use
is lawful.

* **`Aligner.LaysOut`** — the kept and removed pieces are those of the old text, and the kept and
  added ones those of the new text.
* **`Script`** — lines that turn the lines of one text into those of another and count both.
* **`DiffSide.linesAt_of_piecesOf`** — the pieces that are lines of a text.
* **`Diff.script_lines`** — the lines of a diff turn the old text into the new one.
* **`Alignment.walkBack_sublist`** — the common pieces stand in both texts, in that order.
* **`align_laysOut`** — what the aligner of the commands lays out.
-/

namespace CodeMend

/-! ## Lawful alignments

The pieces of a text are counted so that they fit between its line feeds: a text that ends in a line
feed has an empty last piece.  A text without characters has a single empty piece; an aligner may
also take it for a text without pieces. -/

/-- Pieces that a text consists of. -/
def PiecesOf (ps : List (List Char)) (text : String) : Prop :=
  ps = pieces '\n' text.toList ∨ text = "" ∧ ps = []

/-- The pieces of some chunks that a side has, which has all but those with one fate. -/
def Chunk.side (without : Change) (chunks : List Chunk) : List (List Char) :=
  (chunks.filter fun c => c.change ≠ without).flatMap fun c => pieces '\n' c.text.toList

/-- **The aligner lays out both texts**: what it keeps or removes are the pieces of the old one, and
what it keeps or adds those of the new one. -/
structure Aligner.LaysOut (align : Aligner) (old new : String) : Prop where
  oldSide : PiecesOf (Chunk.side .added (align old new)) old
  newSide : PiecesOf (Chunk.side .removed (align old new)) new

/-! ## Scripts

A script is a list of diff lines together with what it does to the lines of a text.  Every line
counts those of both sides in front of it, so that a script can be cut anywhere and its parts still
say where they stand. -/

/-- `Script a b ls old new`: behind `a` lines of the old side and `b` lines of the new one, the
lines `ls` turn `old` into `new`.  A kept line stands in both, with or without a line feed in
both. -/
inductive Script : Nat → Nat → List DiffLine → List TextLine → List TextLine → Prop where
  | nil (a b : Nat) : Script a b [] [] []
  | kept {a b : Nat} {ls : List DiffLine} {old new : List TextLine} (text : List Char)
      (unterminated : Bool) (h : Script (a + 1) (b + 1) ls old new) :
      Script a b (⟨.kept, text, a, b, unterminated⟩ :: ls) (⟨text, !unterminated⟩ :: old)
        (⟨text, !unterminated⟩ :: new)
  | removed {a b : Nat} {ls : List DiffLine} {old new : List TextLine} (text : List Char)
      (unterminated : Bool) (h : Script (a + 1) b ls old new) :
      Script a b (⟨.removed, text, a, b, unterminated⟩ :: ls) (⟨text, !unterminated⟩ :: old) new
  | added {a b : Nat} {ls : List DiffLine} {old new : List TextLine} (text : List Char)
      (unterminated : Bool) (h : Script a (b + 1) ls old new) :
      Script a b (⟨.added, text, a, b, unterminated⟩ :: ls) old (⟨text, !unterminated⟩ :: new)

/-- A script can be cut anywhere. -/
theorem Script.append_inv {a b : Nat} {xs ys : List DiffLine} {old new : List TextLine}
    (h : Script a b (xs ++ ys) old new) : ∃ o₁ o₂ n₁ n₂, old = o₁ ++ o₂ ∧ new = n₁ ++ n₂ ∧
      Script a b xs o₁ n₁ ∧ Script (a + o₁.length) (b + n₁.length) ys o₂ n₂ := by
  induction xs generalizing a b old new with
  | nil => exact ⟨[], old, [], new, rfl, rfl, .nil a b, h⟩
  | cons x xs ih =>
    cases h with
    | kept text unterminated h =>
      obtain ⟨o₁, o₂, n₁, n₂, rfl, rfl, h₁, h₂⟩ := ih h
      refine ⟨_ :: o₁, o₂, _ :: n₁, n₂, rfl, rfl, .kept text unterminated h₁, ?_⟩
      rw [Nat.add_right_comm, Nat.add_right_comm b] at h₂
      exact h₂
    | removed text unterminated h =>
      obtain ⟨o₁, o₂, n₁, n₂, rfl, rfl, h₁, h₂⟩ := ih h
      refine ⟨_ :: o₁, o₂, n₁, n₂, rfl, rfl, .removed text unterminated h₁, ?_⟩
      rw [Nat.add_right_comm] at h₂
      exact h₂
    | added text unterminated h =>
      obtain ⟨o₁, o₂, n₁, n₂, rfl, rfl, h₁, h₂⟩ := ih h
      refine ⟨o₁, o₂, _ :: n₁, n₂, rfl, rfl, .added text unterminated h₁, ?_⟩
      rw [Nat.add_right_comm b] at h₂
      exact h₂

/-- Lines that are all kept change nothing. -/
theorem Script.eq_of_kept {a b : Nat} {ls : List DiffLine} {old new : List TextLine}
    (h : Script a b ls old new) (hkept : ∀ l ∈ ls, l.change = .kept) :
    old = new ∧ old.length = ls.length := by
  induction h with
  | nil => exact ⟨rfl, rfl⟩
  | kept text unterminated h ih =>
    obtain ⟨rfl, hlength⟩ := ih fun l hl => hkept l (List.mem_cons_of_mem _ hl)
    exact ⟨rfl, by simp [hlength]⟩
  | removed text unterminated h ih => cases hkept _ List.mem_cons_self
  | added text unterminated h ih => cases hkept _ List.mem_cons_self

/-- A script counts the lines of both sides. -/
theorem Script.lengths {a b : Nat} {ls : List DiffLine} {old new : List TextLine}
    (h : Script a b ls old new) : ls.countP (·.change ≠ .added) = old.length ∧
      ls.countP (·.change ≠ .removed) = new.length := by
  induction h with
  | nil => exact ⟨rfl, rfl⟩
  | kept text unterminated h ih => simpa using ih
  | removed text unterminated h ih =>
    simpa using ih
  | added text unterminated h ih =>
    simpa using ih

/-- The first line of a script stands where the script starts. -/
theorem Script.head {a b : Nat} {l : DiffLine} {ls : List DiffLine} {old new : List TextLine}
    (h : Script a b (l :: ls) old new) : l.oldBefore = a ∧ l.newBefore = b := by
  cases h <;> exact ⟨rfl, rfl⟩

/-! ## Pieces that are lines

A text is cut at its line feeds.  The last piece is a line only when it is not empty, and this is
where the count of lines and the count of pieces differ. -/

theorem length_pieces (sep : Char) (cs : List Char) :
    (pieces sep cs).length = cs.count sep + 1 := by
  induction cs with
  | nil => rfl
  | cons c cs ih =>
    unfold pieces
    split
    · rename_i hc
      rw [List.length_cons, ih, hc, List.count_cons_self]
    · rename_i hc
      split
      · rename_i hnil
        exact absurd hnil (TextLine.pieces_ne_nil sep cs)
      · rename_i p ps hps
        rw [hps] at ih
        rw [List.count_cons_of_ne hc]
        exact ih

theorem eq_nil_of_pieces {sep : Char} {cs : List Char} (h : pieces sep cs = [[]]) : cs = [] := by
  cases cs with
  | nil => rfl
  | cons c cs =>
    unfold pieces at h
    split at h
    · simp [TextLine.pieces_ne_nil] at h
    · split at h <;> simp at h

/-- The last piece is empty where the text ends in a separator, or is empty itself. -/
theorem getLast?_pieces_eq_nil_iff {sep : Char} {cs : List Char} :
    (pieces sep cs).getLast? = some [] ↔ cs = [] ∨ cs.getLast? = some sep := by
  induction cs with
  | nil => simp [pieces]
  | cons c cs ih =>
    have hne := TextLine.pieces_ne_nil sep cs
    have hpieces : (pieces sep cs).getLast? = some [] →
        pieces sep cs = [[]] ∨ cs.getLast? = some sep := by
      intro h
      rcases ih.mp h with rfl | h
      · exact .inl rfl
      · exact .inr h
    unfold pieces
    cases hps : pieces sep cs with
    | nil => exact absurd hps hne
    | cons p ps =>
      rw [hps] at ih
      by_cases hnil : cs = []
      · subst hnil
        obtain ⟨rfl, rfl⟩ : [] = p ∧ [] = ps := by simpa [pieces] using hps
        by_cases hc : c = sep <;> simp [hc]
      · have hlast : (c :: cs).getLast? = cs.getLast? := List.getLast?_cons_of_ne_nil hnil
        simp only [hlast, hnil, false_or, reduceCtorEq] at ih ⊢
        rw [← ih]
        by_cases hc : c = sep
        · simp [hc]
        · cases ps with
          | cons q ps => simp [hc]
          | nil =>
            -- a single piece is empty only when the text is
            have hp : p ≠ [] := by
              rintro rfl
              exact hnil (eq_nil_of_pieces hps)
            simp [hc, hp]

namespace DiffSide

/-- The lines that a side has among pieces, the first of which has number `i`. -/
def linesAt (side : DiffSide) : Nat → List (List Char) → List TextLine
  | _, [] => []
  | i, p :: ps =>
    (if i < side.lines then [⟨p, !side.endsOpen i⟩] else []) ++ linesAt side (i + 1) ps

/-- A side that counts the lines of some pieces has these lines. -/
theorem linesAt_eq_ofPieces {side : DiffSide} {ps : List (List Char)} {i : Nat} (hps : ps ≠ [])
    (hlines : side.lines + (if ps.getLast? = some [] then 1 else 0) = i + ps.length)
    (hopen : side.unterminated = true ↔ ps.getLast? ≠ some []) :
    side.linesAt i ps = TextLine.ofPieces ps := by
  induction ps generalizing i with
  | nil => exact absurd rfl hps
  | cons p ps ih =>
    cases ps with
    | nil =>
      by_cases hp : p = []
      · subst hp
        have hlt : ¬ i < side.lines := by
          simp at hlines
          omega
        simp [linesAt, TextLine.ofPieces, hlt]
      · have hlast : side.unterminated = true := hopen.mpr (by simpa using hp)
        have hcount : side.lines = i + 1 := by simpa [hp] using hlines
        simp [linesAt, TextLine.ofPieces, hp, endsOpen, hlast, hcount]
    | cons q ps =>
      rw [List.getLast?_cons_cons] at hlines hopen
      have hmore : i + 1 < side.lines + (if (q :: ps).getLast? = some [] then 1 else 0) := by
        rw [hlines]
        simp
      have hlt : i < side.lines := by
        split at hmore <;> omega
      have hclosed : side.endsOpen i = false := by
        -- only the last line can lack its line feed
        cases hu : side.unterminated with
        | false => simp [endsOpen, hu]
        | true =>
          rw [if_neg (hopen.mp hu)] at hmore
          simp [endsOpen, hu]
          omega
      rw [linesAt, if_pos hlt, hclosed, TextLine.ofPieces]
      rw [ih (List.cons_ne_nil q ps) (by rw [hlines]; simp only [List.length_cons]; omega) hopen]
      rfl

/-- **The pieces that are lines of a text.** -/
theorem linesAt_of_piecesOf {text : String} {ps : List (List Char)} (h : PiecesOf ps text) :
    (ofText text).linesAt 0 ps = TextLine.ofText text.toList := by
  rcases h with rfl | ⟨rfl, rfl⟩
  case inr => rfl
  by_cases hnil : text.toList = []
  · obtain rfl : text = "" := String.toList_inj.mp hnil
    rfl
  have hempty : text.isEmpty = false := by
    simpa using hnil
  have hlast : (pieces '\n' text.toList).getLast? = some [] ↔
      text.toList.getLast? = some '\n' := by
    rw [getLast?_pieces_eq_nil_iff]
    simp [hnil]
  refine linesAt_eq_ofPieces (TextLine.pieces_ne_nil _ _) ?_ ?_
  · rw [length_pieces]
    by_cases hfeed : text.toList.getLast? = some '\n'
    · rw [if_pos (hlast.mpr hfeed)]
      simp [ofText, lineCount, hnil, hfeed]
    · rw [if_neg (fun h => hfeed (hlast.mp h))]
      simp [ofText, lineCount, hnil, hfeed]
  · rw [ne_eq, hlast]
    simp [ofText, hempty]

end DiffSide

/-! ## The lines of a diff

Pieces with their fates become the lines of a diff.  What has to be kept in view is how far both
sides were read, for the last line of either side may lack its line feed. -/

namespace Diff

/-- The pieces that a side has among pieces with their fates. -/
def sideOf (without : Change) (entries : List (Change × List Char)) : List (List Char) :=
  (entries.filter fun e => e.1 ≠ without).map Prod.snd

/-- How far both sides were read: as many lines as pieces, up to the last line. -/
structure Progress.Counts (old new : DiffSide) (p : Progress) : Prop where
  old : p.oldLines = min p.oldPieces old.lines
  new : p.newLines = min p.newPieces new.lines

/-- **The lines of pieces turn the old lines among them into the new ones.** -/
theorem script_linesFrom {old new : DiffSide} {p : Progress} (hp : p.Counts old new)
    (entries : List (Change × List Char)) :
    Script p.oldLines p.newLines (linesFrom old new p entries)
      (old.linesAt p.oldPieces (sideOf .added entries))
      (new.linesAt p.newPieces (sideOf .removed entries)) := by
  induction entries generalizing p with
  | nil => exact .nil _ _
  | cons entry entries ih =>
    obtain ⟨change, text⟩ := entry
    obtain ⟨op, np, ol, nl⟩ := p
    obtain ⟨hol, hnl⟩ := hp
    dsimp only at hol hnl
    show Script ol nl ((step old new ⟨op, np, ol, nl⟩ change text).1 ++
      linesFrom old new (step old new ⟨op, np, ol, nl⟩ change text).2 entries) _ _
    cases change with
    | added =>
      have hside : sideOf .added ((.added, text) :: entries) = sideOf .added entries := rfl
      have hside' : sideOf .removed ((.added, text) :: entries) = text :: sideOf .removed entries :=
        rfl
      rw [hside, hside', DiffSide.linesAt]
      by_cases hnew : np < new.lines
      · have hstep : step old new ⟨op, np, ol, nl⟩ .added text =
            ([⟨.added, text, ol, nl, new.endsOpen nl⟩], ⟨op, np + 1, ol, nl + 1⟩) := by
          simp [step, hnew, lineAt]
        have hrest := ih (p := ⟨op, np + 1, ol, nl + 1⟩) ⟨hol, by dsimp only; omega⟩
        obtain rfl : nl = np := by omega
        rw [hstep, if_pos hnew]
        exact .added text _ hrest
      · have hstep : step old new ⟨op, np, ol, nl⟩ .added text = ([], ⟨op, np + 1, ol, nl⟩) := by
          simp [step, hnew]
        have hrest := ih (p := ⟨op, np + 1, ol, nl⟩) ⟨hol, by dsimp only; omega⟩
        rw [hstep, if_neg hnew]
        exact hrest
    | removed =>
      have hside : sideOf .added ((.removed, text) :: entries) = text :: sideOf .added entries := rfl
      have hside' : sideOf .removed ((.removed, text) :: entries) = sideOf .removed entries := rfl
      rw [hside, hside', DiffSide.linesAt]
      by_cases hold : op < old.lines
      · have hstep : step old new ⟨op, np, ol, nl⟩ .removed text =
            ([⟨.removed, text, ol, nl, old.endsOpen ol⟩], ⟨op + 1, np, ol + 1, nl⟩) := by
          simp [step, hold, lineAt]
        have hrest := ih (p := ⟨op + 1, np, ol + 1, nl⟩) ⟨by dsimp only; omega, hnl⟩
        obtain rfl : ol = op := by omega
        rw [hstep, if_pos hold]
        exact .removed text _ hrest
      · have hstep : step old new ⟨op, np, ol, nl⟩ .removed text =
            ([], ⟨op + 1, np, ol, nl⟩) := by
          simp [step, hold]
        have hrest := ih (p := ⟨op + 1, np, ol, nl⟩) ⟨by dsimp only; omega, hnl⟩
        rw [hstep, if_neg hold]
        exact hrest
    | kept =>
      have hside : sideOf .added ((.kept, text) :: entries) = text :: sideOf .added entries := rfl
      have hside' : sideOf .removed ((.kept, text) :: entries) = text :: sideOf .removed entries :=
        rfl
      rw [hside, hside', DiffSide.linesAt, DiffSide.linesAt]
      by_cases hold : op < old.lines <;> by_cases hnew : np < new.lines
      · have hrest := ih (p := ⟨op + 1, np + 1, ol + 1, nl + 1⟩)
          ⟨by dsimp only; omega, by dsimp only; omega⟩
        obtain rfl : ol = op := by omega
        obtain rfl : nl = np := by omega
        rw [if_pos hold, if_pos hnew]
        by_cases hends : old.endsOpen ol = new.endsOpen nl
        · have hstep : step old new ⟨ol, nl, ol, nl⟩ .kept text =
              ([⟨.kept, text, ol, nl, old.endsOpen ol⟩], ⟨ol + 1, nl + 1, ol + 1, nl + 1⟩) := by
            simp [step, hold, hnew, hends, lineAt]
          rw [hstep, ← hends]
          exact .kept text _ hrest
        · -- only one of the two ends in a line feed
          have hstep : step old new ⟨ol, nl, ol, nl⟩ .kept text =
              ([⟨.removed, text, ol, nl, old.endsOpen ol⟩,
                ⟨.added, text, ol + 1, nl, new.endsOpen nl⟩],
                ⟨ol + 1, nl + 1, ol + 1, nl + 1⟩) := by
            simp [step, hold, hnew, hends, lineAt]
          rw [hstep]
          exact .removed text _ (.added text _ hrest)
      · have hstep : step old new ⟨op, np, ol, nl⟩ .kept text =
            ([⟨.removed, text, ol, nl, old.endsOpen ol⟩], ⟨op + 1, np + 1, ol + 1, nl⟩) := by
          simp [step, hold, hnew, lineAt]
        have hrest := ih (p := ⟨op + 1, np + 1, ol + 1, nl⟩)
          ⟨by dsimp only; omega, by dsimp only; omega⟩
        obtain rfl : ol = op := by omega
        rw [hstep, if_pos hold, if_neg hnew]
        exact .removed text _ hrest
      · have hstep : step old new ⟨op, np, ol, nl⟩ .kept text =
            ([⟨.added, text, ol, nl, new.endsOpen nl⟩], ⟨op + 1, np + 1, ol, nl + 1⟩) := by
          simp [step, hold, hnew, lineAt]
        have hrest := ih (p := ⟨op + 1, np + 1, ol, nl + 1⟩)
          ⟨by dsimp only; omega, by dsimp only; omega⟩
        obtain rfl : nl = np := by omega
        rw [hstep, if_neg hold, if_pos hnew]
        exact .added text _ hrest
      · have hstep : step old new ⟨op, np, ol, nl⟩ .kept text =
            ([], ⟨op + 1, np + 1, ol, nl⟩) := by
          simp [step, hold, hnew]
        have hrest := ih (p := ⟨op + 1, np + 1, ol, nl⟩)
          ⟨by dsimp only; omega, by dsimp only; omega⟩
        rw [hstep, if_neg hold, if_neg hnew]
        exact hrest

/-- The pieces of chunks with their fates have the sides of the chunks. -/
theorem sideOf_flatMap (without : Change) (chunks : List Chunk) :
    sideOf without (chunks.flatMap Chunk.entries) = Chunk.side without chunks := by
  induction chunks with
  | nil => rfl
  | cons c chunks ih =>
    unfold sideOf Chunk.side at ih ⊢
    rw [List.flatMap_cons, List.filter_append, List.map_append, ih, List.filter_cons]
    by_cases hc : c.change = without
    · simp [Chunk.entries, hc, List.filter_map, Function.comp_def]
    · simp [Chunk.entries, hc, List.filter_map, Function.comp_def]

/-- **The lines of a diff turn the old text into the new one**, whatever the aligner takes for the
same. -/
theorem script_lines {align : Aligner} {old new : String} (h : align.LaysOut old new) :
    Script 0 0 (lines align old new) (TextLine.ofText old.toList) (TextLine.ofText new.toList) := by
  have hcounts : ({} : Progress).Counts (.ofText old) (.ofText new) :=
    ⟨(Nat.zero_min _).symm, (Nat.zero_min _).symm⟩
  have hscript := script_linesFrom hcounts ((align old new).flatMap Chunk.entries)
  rw [sideOf_flatMap, sideOf_flatMap, DiffSide.linesAt_of_piecesOf h.oldSide,
    DiffSide.linesAt_of_piecesOf h.newSide] at hscript
  exact hscript

end Diff

end CodeMend

namespace CodeMend.Alignment

variable {old new common : List (List Char)}

/-! ## The aligner of the commands

Its common pieces stand in both texts in order, and every round of the merge takes the next run of
each fate off the front, so that nothing is lost and nothing comes twice.  That the common pieces
are as many as can be is not needed for that. -/

/-- Pieces that are found on the way back stand in both lists in front of those found before. -/
theorem walkBack_sublist (old new : Array (List Char)) (table : Array Nat) (n m : Nat)
    (hn : n ≤ old.size) (hm : m ≤ new.size) (found : List (List Char)) :
    ∃ r, walkBack old new table n m found = r ++ found ∧
      r.Sublist (old.toList.take n) ∧ r.Sublist (new.toList.take m) := by
  fun_induction walkBack old new table n m found with
  | case1 m found => exact ⟨[], rfl, List.nil_sublist _, List.nil_sublist _⟩
  | case2 i found => exact ⟨[], rfl, List.nil_sublist _, List.nil_sublist _⟩
  -- Both texts have this line, and the table leads on in front of it.
  | case3 i j found hsame ih =>
    obtain ⟨r, hr, hold, hnew⟩ := ih (by omega) (by omega)
    have hi : i < old.toList.length := by rwa [Array.length_toList]
    have hj : j < new.toList.length := by rwa [Array.length_toList]
    have hlast : old.toList.take (i + 1) = old.toList.take i ++ [old.getD i []] := by
      rw [List.take_succ_eq_append_getElem hi]
      simp [Array.getD_eq_getD_getElem?, Array.getElem?_eq_getElem hn]
    have hlast' : new.toList.take (j + 1) = new.toList.take j ++ [old.getD i []] := by
      rw [List.take_succ_eq_append_getElem hj, hsame]
      simp [Array.getD_eq_getD_getElem?, Array.getElem?_eq_getElem hm]
    refine ⟨r ++ [old.getD i []], by rw [hr, List.append_assoc]; rfl, ?_, ?_⟩
    · rw [hlast]
      exact hold.append (List.Sublist.refl _)
    · rw [hlast']
      exact hnew.append (List.Sublist.refl _)
  | case4 i j found hne hstop => exact ⟨[], rfl, List.nil_sublist _, List.nil_sublist _⟩
  | case5 i j found hne hgo hleft ih =>
    obtain ⟨r, hr, hold, hnew⟩ := ih hn (by omega)
    exact ⟨r, hr, hold, hnew.trans (List.take_sublist_take_left (Nat.le_succ j))⟩
  | case6 i j found hne hgo hleft ih =>
    obtain ⟨r, hr, hold, hnew⟩ := ih (by omega) hm
    exact ⟨r, hr, hold.trans (List.take_sublist_take_left (Nat.le_succ i)), hnew⟩

/-- **The common pieces of two texts stand in both of them.** -/
theorem commonPieces_sublist (old new : List (List Char)) :
    (commonPieces old new).Sublist old ∧ (commonPieces old new).Sublist new := by
  obtain ⟨r, hr, hold, hnew⟩ := walkBack_sublist old.toArray new.toArray (lengths old new)
    old.length new.length (Nat.le_refl _) (Nat.le_refl _) []
  have hcommon : commonPieces old new = r := hr.trans (List.append_nil r)
  rw [hcommon]
  exact ⟨by simpa using hold, by simpa using hnew⟩

/-- A single empty piece counts as none in the text and in what it has in common. -/
theorem settle_sublist (h : common.Sublist old) : (settle common).Sublist (settle old) := by
  unfold settle
  by_cases hcommon : common = [[]]
  · rw [if_pos hcommon]
    exact List.nil_sublist _
  · rw [if_neg hcommon]
    by_cases hold : old = [[]]
    · subst hold
      rcases List.sublist_singleton.mp h with rfl | rfl
      · exact List.nil_sublist _
      · exact absurd rfl hcommon
    · rwa [if_neg hold]

/-- The chunks lay out an old and a new list of pieces. -/
def Lays (chunks : List Chunk) (old new : List (List Char)) : Prop :=
  Chunk.side .added chunks = old ∧ Chunk.side .removed chunks = new

theorem side_append (without : Change) (xs ys : List Chunk) :
    Chunk.side without (xs ++ ys) = Chunk.side without xs ++ Chunk.side without ys := by
  simp [Chunk.side]

/-- Pieces without a line feed are those of the text that they make with line feeds between them. -/
theorem pieces_intercalate {ps : List (List Char)} (hne : ps ≠ []) (hps : ∀ p ∈ ps, '\n' ∉ p) :
    pieces '\n' (['\n'].intercalate ps) = ps := by
  induction ps with
  | nil => exact absurd rfl hne
  | cons p ps ih =>
    have hp := pieces_of_notMem (hps p List.mem_cons_self)
    by_cases hnil : ps = []
    · subst hnil
      simpa using hp
    · rw [List.intercalate_cons_of_ne_nil hnil, List.append_assoc, List.singleton_append,
        pieces_append_cons, hp, ih hnil fun q hq => hps q (List.mem_cons_of_mem _ hq)]
      rfl

theorem side_chunk (without change : Change) {ps : List (List Char)} (hps : ∀ p ∈ ps, '\n' ∉ p) :
    Chunk.side without (chunk change ps) = if change = without then [] else ps := by
  cases ps with
  | nil => cases change <;> cases without <;> rfl
  | cons p ps =>
    have hpieces := pieces_intercalate (List.cons_ne_nil p ps) hps
    cases change <;> cases without <;> simp [Chunk.side, chunk, hpieces]

/-- What is the same is taken off the front of all three lists. -/
theorem takeSame_eq (old new common : List (List Char)) :
    let (run, o, n, c) := takeSame old new common
    old = run ++ o ∧ new = run ++ n ∧ common = run ++ c := by
  fun_induction takeSame old new common with
  | case1 l ls r rs c cs heq run rest hrest ih =>
    obtain ⟨rfl, rfl⟩ := heq
    rw [hrest] at ih
    obtain ⟨hl, hr, hc⟩ := ih
    exact ⟨by rw [hl]; rfl, by rw [hr]; rfl, by rw [hc]; rfl⟩
  | case2 => exact ⟨rfl, rfl, rfl⟩
  | case3 => exact ⟨rfl, rfl, rfl⟩

/-- What comes before the next common piece is no part of what is common. -/
theorem takeDifferent_eq {ps : List (List Char)} (h : common.Sublist ps) :
    ps = (takeDifferent common ps).1 ++ (takeDifferent common ps).2 ∧
      common.Sublist (takeDifferent common ps).2 := by
  have hsplit : ps = (takeDifferent common ps).1 ++ (takeDifferent common ps).2 := by
    unfold takeDifferent
    rw [List.span_eq_takeWhile_dropWhile, List.takeWhile_append_dropWhile]
  refine ⟨hsplit, ?_⟩
  cases common with
  | nil => exact List.nil_sublist _
  | cons c cs =>
    clear hsplit
    unfold takeDifferent
    rw [List.span_eq_takeWhile_dropWhile]
    induction ps with
    | nil => cases h
    | cons p ps ih =>
      by_cases hp : p = c
      · rw [hp] at h
        simpa [hp] using h
      · have hps : (c :: cs).Sublist ps := by
          cases h with
          | cons _ h => exact h
          | cons_cons _ h => exact absurd rfl hp
        simpa [hp] using ih hps

/-- A round that takes nothing comes to lists without pieces only. -/
theorem eq_nil_of_nothing_taken (hold : common.Sublist old) (hnew : common.Sublist new)
    (hsame : (takeSame old new common).1 = []) (hgone : (takeDifferent common old).1 = [])
    (hfresh : (takeDifferent common new).1 = []) : old = [] ∧ new = [] := by
  cases common with
  | nil =>
    have hall : ∀ ps : List (List Char), (takeDifferent [] ps).1 = ps := by
      intro ps
      simp [takeDifferent, List.span_eq_takeWhile_dropWhile, List.takeWhile_eq_self_iff]
    rw [hall] at hgone hfresh
    exact ⟨hgone, hfresh⟩
  | cons c cs =>
    have hfront : ∀ ps : List (List Char), (c :: cs).Sublist ps →
        (takeDifferent (c :: cs) ps).1 = [] → ∃ rest, ps = c :: rest := by
      intro ps hps hnone
      cases ps with
      | nil => cases hps
      | cons p ps =>
        by_cases hp : p = c
        · exact ⟨ps, by rw [hp]⟩
        · simp [takeDifferent, List.span_eq_takeWhile_dropWhile, hp] at hnone
    obtain ⟨os, rfl⟩ := hfront old hold hgone
    obtain ⟨ns, rfl⟩ := hfront new hnew hfresh
    simp [takeSame] at hsame

/-- **Merging lays out both lists**, as long as there is a round for every piece. -/
theorem merge_lays {fuel : Nat} (hold : common.Sublist old) (hnew : common.Sublist new)
    (holdFeeds : ∀ p ∈ old, '\n' ∉ p) (hnewFeeds : ∀ p ∈ new, '\n' ∉ p)
    (hfuel : old.length + new.length < fuel) : Lays (merge fuel old new common) old new := by
  induction fuel generalizing old new common with
  | zero => omega
  | succ fuel ih =>
    unfold merge
    by_cases hempty : old = [] ∧ new = []
    · obtain ⟨rfl, rfl⟩ := hempty
      exact ⟨rfl, rfl⟩
    have hsame := takeSame_eq old new common
    have hprogress := eq_nil_of_nothing_taken hold hnew
    rw [if_neg (by simpa using hempty)]
    generalize takeSame old new common = taken at hsame hprogress
    obtain ⟨run, o, n, c⟩ := taken
    obtain ⟨rfl, rfl, rfl⟩ := hsame
    have ho : c.Sublist o := (List.append_sublist_append_left run).mp hold
    have hn : c.Sublist n := (List.append_sublist_append_left run).mp hnew
    obtain ⟨hgone, ho'⟩ := takeDifferent_eq ho
    obtain ⟨hfresh, hn'⟩ := takeDifferent_eq hn
    dsimp only at hprogress ⊢
    generalize hd : takeDifferent c o = dropped at hgone ho'
    generalize ha : takeDifferent c n = new' at hfresh hn'
    obtain ⟨gone, o'⟩ := dropped
    obtain ⟨fresh, n'⟩ := new'
    dsimp only at hgone hfresh ho' hn' ⊢
    obtain rfl := hgone
    obtain rfl := hfresh
    have hshorter : o'.length + n'.length < fuel := by
      -- some piece was taken, or both lists are empty
      by_contra hlong
      have hnothing : run = [] ∧ gone = [] ∧ fresh = [] := by
        simp only [List.length_append] at hfuel
        refine ⟨?_, ?_, ?_⟩ <;> apply List.eq_nil_of_length_eq_zero <;> omega
      obtain ⟨rfl, rfl, rfl⟩ := hnothing
      simp only [List.nil_append] at hd ha hprogress hempty
      exact hempty (hprogress trivial (by rw [hd]) (by rw [ha]))
    simp only [List.forall_mem_append] at holdFeeds hnewFeeds
    obtain ⟨hrunFeeds, hgoneFeeds, ho'Feeds⟩ := holdFeeds
    obtain ⟨-, hfreshFeeds, hn'Feeds⟩ := hnewFeeds
    obtain ⟨hside, hside'⟩ := ih ho' hn' ho'Feeds hn'Feeds hshorter
    constructor
    · simp [side_append, side_chunk _ _ hrunFeeds, side_chunk _ _ hgoneFeeds,
        side_chunk _ _ hfreshFeeds, hside]
    · simp [side_append, side_chunk _ _ hrunFeeds, side_chunk _ _ hgoneFeeds,
        side_chunk _ _ hfreshFeeds, hside']

end CodeMend.Alignment

namespace CodeMend

open Alignment

/-- **The aligner of the commands lays out any two texts.** -/
theorem align_laysOut (old new : String) : align.LaysOut old new := by
  obtain ⟨hold, hnew⟩ := commonPieces_sublist (pieces '\n' old.toList) (pieces '\n' new.toList)
  have hsettled : ∀ ps : List (List Char), (settle ps).length ≤ ps.length ∧
      ∀ p ∈ settle ps, p ∈ ps := by
    intro ps
    unfold settle
    split
    · exact ⟨Nat.zero_le _, fun p hp => (List.not_mem_nil hp).elim⟩
    · exact ⟨Nat.le_refl _, fun p hp => hp⟩
  have hpieces : ∀ text : String, PiecesOf (settle (pieces '\n' text.toList)) text := by
    intro text
    unfold settle
    split
    next h => exact .inr ⟨String.toList_inj.mp (eq_nil_of_pieces h), rfl⟩
    next => exact .inl rfl
  have hold' := hsettled (pieces '\n' old.toList)
  have hnew' := hsettled (pieces '\n' new.toList)
  have hlays : Lays (align old new) (settle (pieces '\n' old.toList))
      (settle (pieces '\n' new.toList)) :=
    merge_lays (settle_sublist hold) (settle_sublist hnew)
      (fun p hp => TextLine.not_mem_of_mem_pieces (hold'.2 p hp))
      (fun p hp => TextLine.not_mem_of_mem_pieces (hnew'.2 p hp)) (by omega)
  exact ⟨hlays.1 ▸ hpieces old, hlays.2 ▸ hpieces new⟩

end CodeMend
