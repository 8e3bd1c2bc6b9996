import CodeMend.Proofs.Text.DiffHunks

/-!
# CodeMend — a diff is a correct patch

The text of a diff is read again as the hunks that it was written from, and these turn the old text
into the new one.

* **`Hunk.header?_of`**, **`Hunk.lines?_of`** — the header and the lines of a hunk are read as they
  were written.
* **`FilePatch.read?_of_hunks`** — so is the diff of a file.
* **`unifiedDiff_is_patch`** — the diff of two texts is a patch from the one to the other.
-/

namespace CodeMend

open Diff

/-! ## Headers

The reader stops at the first character that is no digit, so the numbers of a header are read back
whatever follows. -/

namespace Hunk

/-- The decimal digits of a number are read as the number. -/
theorem number?_toDigits (n : Nat) {c : Char} (hc : c.isDigit = false) (rest : List Char) :
    number? (Nat.toDigits 10 n ++ c :: rest) = some (n, c :: rest) := by
  have hall : ∀ d ∈ Nat.toDigits 10 n, d.isDigit = true := fun d hd =>
    Nat.isDigit_of_mem_toDigits (by decide) (by decide) hd
  have htake : (Nat.toDigits 10 n ++ c :: rest).takeWhile Char.isDigit = Nat.toDigits 10 n := by
    rw [List.takeWhile_append_of_pos hall, List.takeWhile_cons_of_neg (by simp [hc]),
      List.append_nil]
  have hdrop : (Nat.toDigits 10 n ++ c :: rest).dropWhile Char.isDigit = c :: rest := by
    rw [List.dropWhile_append_of_pos hall, List.dropWhile_cons_of_neg (by simp [hc])]
  have hne : (Nat.toDigits 10 n).isEmpty = false := by
    simp
  have hvalue : Nat.ofDigitChars 10 (Nat.toDigits 10 n) 0 = n :=
    Nat.ofDigitChars_toDigits (by decide) (by decide)
  simp only [number?, htake, hdrop, hne, hvalue]
  rfl

/-- The characters of one side of a header. -/
def rangeText (before count : Nat) : List Char :=
  Nat.toDigits 10 (startOf before count) ++ ',' :: Nat.toDigits 10 count

theorem range?_rangeText (before count : Nat) {c : Char} (hc : c.isDigit = false)
    (rest : List Char) : range? (rangeText before count ++ c :: rest) =
      some ((startOf before count, count), c :: rest) := by
  rw [rangeText, range?, List.append_assoc, List.cons_append, number?_toDigits _ (by decide)]
  simp only [dropFront?, Option.bind_eq_bind, Option.bind_some, if_true, number?_toDigits _ hc]
  rfl

/-- The characters of the header that a hunk is written with. -/
def headerText (ls : List DiffLine) : List Char :=
  '@' :: '@' :: ' ' :: '-' :: (rangeText ((ls.head?.map DiffLine.oldBefore).getD 0)
      (ls.countP (·.change ≠ .added)) ++
    ' ' :: '+' :: (rangeText ((ls.head?.map DiffLine.newBefore).getD 0)
      (ls.countP (·.change ≠ .removed)) ++ [' ', '@', '@']))

/-- **A header is read as it was written.** -/
theorem header?_headerText (ls : List DiffLine) : header? (headerText ls) =
    some (((hunkOf ls).oldStart, (hunkOf ls).oldCount),
      ((hunkOf ls).newStart, (hunkOf ls).newCount)) := by
  unfold headerText header?
  simp only [dropFront?, Option.bind_eq_bind, Option.bind_some, if_true,
    range?_rangeText _ _ (show ' '.isDigit = false by decide)]
  rfl

/-! ## Lines

The first character of a line says what becomes of it.  The reader counts lines down from the
numbers in the header, and a marker that a line lacks its line feed belongs to the line in front. -/

/-- The character that says what becomes of a line. -/
def signOf : Change → Char
  | .kept => ' '
  | .removed => '-'
  | .added => '+'

/-- The line of a diff that a line of a hunk is written as. -/
def writtenLine (l : DiffLine) : TextLine := ⟨signOf l.change :: l.text, !l.unterminated⟩

theorem line?_writtenLine (l : DiffLine) : line? (writtenLine l) = some (patchLine l) := by
  obtain ⟨change, text, a, b, unterminated⟩ := l
  cases change <;> rfl

@[simp] theorem countDown_true (n : Nat) : countDown true (n + 1) = some n := rfl

@[simp] theorem countDown_false (n : Nat) : countDown false n = some n := by
  cases n <;> rfl

/-- **The lines of a hunk are read as they were written**, by the numbers that the header gives. -/
theorem lines?_writtenLine (ls : List DiffLine) (rest : List TextLine) :
    lines? (ls.countP (·.change ≠ .added)) (ls.countP (·.change ≠ .removed))
      (ls.map writtenLine ++ rest) = some (ls.map patchLine, rest) := by
  induction ls with
  | nil =>
    rw [List.countP_nil, List.countP_nil, lines?]
    rfl
  | cons l ls ih =>
    have hline := line?_writtenLine l
    generalize ho : ls.countP (·.change ≠ .added) = old at ih
    generalize hn : ls.countP (·.change ≠ .removed) = new at ih
    obtain ⟨change, text, a, b, unterminated⟩ := l
    rw [List.map_cons, List.cons_append]
    -- A line counts for the old side, for the new side, or for both.
    cases change with
    | kept =>
      have hold : (Change.kept != .added) = true := rfl
      have hnew : (Change.kept != .removed) = true := rfl
      rw [List.countP_cons_of_pos (by simp), List.countP_cons_of_pos (by simp), ho, hn]
      rw [lines?, hline]
      · simp [patchLine, hold, hnew, ih]
      · simp
    | removed =>
      have hold : (Change.removed != .added) = true := rfl
      have hnew : (Change.removed != .removed) = false := rfl
      rw [List.countP_cons_of_pos (by simp), List.countP_cons_of_neg (by simp), ho, hn]
      rw [lines?, hline]
      · simp [patchLine, hold, ih]
      · simp
    | added =>
      have hold : (Change.added != .added) = false := rfl
      have hnew : (Change.added != .removed) = true := rfl
      rw [List.countP_cons_of_neg (by simp), List.countP_cons_of_pos (by simp), ho, hn]
      rw [lines?, hline]
      · simp [patchLine, hnew, ih]
      · simp

/-- The lines of a diff that a hunk is written as. -/
def writtenHunk (ls : List DiffLine) : List TextLine :=
  ⟨headerText ls, true⟩ :: ls.map writtenLine

/-- **All hunks are read as they were written.** -/
theorem all?_writtenHunk (hunks : List (List DiffLine)) {fuel : Nat} (hfuel : hunks.length ≤ fuel) :
    all? fuel (hunks.flatMap writtenHunk) = some (hunks.map hunkOf) := by
  induction hunks generalizing fuel with
  | nil => cases fuel <;> rfl
  | cons ls hunks ih =>
    cases fuel with
    | zero => simp at hfuel
    | succ fuel =>
      have hrest := ih (Nat.le_of_succ_le_succ hfuel)
      have hlines := lines?_writtenLine ls (hunks.flatMap writtenHunk)
      rw [List.flatMap_cons, writtenHunk, List.cons_append, all?, header?_headerText]
      simp only [Option.bind_eq_bind, Option.bind_some]
      rw [show (hunkOf ls).oldCount = ls.countP (·.change ≠ .added) from rfl,
        show (hunkOf ls).newCount = ls.countP (·.change ≠ .removed) from rfl, hlines]
      simp only [Option.bind_some, hrest]
      rfl

end Hunk

/-! ## Diffs

A diff is the two lines with the name of the file, and its hunks.  Written out and read again it is
the same. -/

namespace FilePatch

open Hunk

/-- The lines of the diff of a file. -/
def writtenLines (path : List Char) (hunks : List (List DiffLine)) : List TextLine :=
  ⟨"--- a/".toList ++ path, true⟩ :: ⟨"+++ b/".toList ++ path, true⟩ :: hunks.flatMap writtenHunk

/-- No line of a diff holds a line feed, or starts with the sign of a marker. -/
theorem mem_writtenLines {path : List Char} {hunks : List (List DiffLine)} (hpath : '\n' ∉ path)
    (hhunks : ∀ ls ∈ hunks, ∀ l ∈ ls, '\n' ∉ l.text) :
    ∀ l ∈ writtenLines path hunks, '\n' ∉ l.text ∧ l.text.head? ≠ some '\\' := by
  have hdigits : ∀ n, '\n' ∉ Nat.toDigits 10 n := by
    intro n hn
    have hdigit := Nat.isDigit_of_mem_toDigits (by decide) (by decide) hn
    revert hdigit
    decide
  have hrange : ∀ before count, '\n' ∉ rangeText before count := by
    intro before count hmem
    rcases List.mem_append.mp hmem with hmem | hmem
    · exact hdigits _ hmem
    · rcases List.mem_cons.mp hmem with heq | hmem
      · revert heq
        decide
      · exact hdigits _ hmem
  intro l hl
  simp only [writtenLines, List.mem_cons, List.mem_flatMap] at hl
  rcases hl with rfl | rfl | ⟨ls, hls, hl⟩
  · exact ⟨by simpa using hpath, by simp⟩
  · exact ⟨by simpa using hpath, by simp⟩
  · rcases List.mem_cons.mp hl with rfl | hl
    · exact ⟨by simp [headerText, hrange], by simp [headerText]⟩
    · obtain ⟨d, hd, rfl⟩ := List.mem_map.mp hl
      have htext := hhunks ls hls d hd
      cases hchange : d.change <;> simp [writtenLine, signOf, hchange, htext]

/-- **The diff of a file is read as it was written.** -/
theorem read?_writtenLines {path : List Char} {hunks : List (List DiffLine)}
    (hpath : '\n' ∉ path) (hhunks : ∀ ls ∈ hunks, ∀ l ∈ ls, '\n' ∉ l.text) :
    read? (((writtenLines path hunks).flatMap TextLine.marked).flatMap fun l => l ++ ['\n']) =
      some ⟨"a/".toList ++ path, "b/".toList ++ path, hunks.map hunkOf⟩ := by
  have hlines := mem_writtenLines hpath hhunks
  have hphysical : ∀ l ∈ (writtenLines path hunks).flatMap TextLine.marked, '\n' ∉ l := by
    intro l hl
    obtain ⟨line, hline, hl⟩ := List.mem_flatMap.mp hl
    rcases List.mem_cons.mp hl with rfl | hl
    · exact (hlines line hline).1
    · split at hl
      · cases hl
      · obtain rfl := List.mem_singleton.mp hl
        decide
  have hfuel : hunks.length ≤ (hunks.flatMap writtenHunk).length := by
    clear hlines hphysical hhunks
    induction hunks with
    | nil => exact Nat.le_refl 0
    | cons ls hunks ih =>
      rw [List.flatMap_cons, List.length_append, List.length_cons, writtenHunk, List.length_cons]
      omega
  have hall := all?_writtenHunk hunks hfuel
  unfold read?
  rw [TextLine.ofText_flatMap hphysical, markedLines_flatMap fun l hl => (hlines l hl).2]
  simp only [writtenLines, hall]
  simp [dropFront?]

theorem toList_renderLine (l : DiffLine) : (renderLine l).toList =
    (TextLine.marked (writtenLine l)).flatMap fun m => m ++ ['\n'] := by
  obtain ⟨change, text, a, b, unterminated⟩ := l
  cases change <;> cases unterminated <;>
    simp [renderLine, TextLine.marked, writtenLine, signOf]

theorem toList_renderHunk (ls : List DiffLine) : (renderHunk ls).toList =
    ((writtenHunk ls).flatMap TextLine.marked).flatMap fun m => m ++ ['\n'] := by
  have hlines : (String.join (ls.map renderLine)).toList =
      ((ls.map writtenLine).flatMap TextLine.marked).flatMap fun m => m ++ ['\n'] := by
    rw [String.toList_join, List.flatMap_map, List.flatMap_map, List.flatMap_assoc]
    exact congrArg List.flatten (List.map_congr_left fun l _ => toList_renderLine l)
  have hrange : ∀ before count, (Diff.range before count).toList = rangeText before count := by
    intro before count
    simp [Diff.range, rangeText, startOf]
  rw [writtenHunk, List.flatMap_cons, List.flatMap_append, ← hlines]
  simp [renderHunk, headerText, TextLine.marked, hrange]

/-- **A diff is written line by line.** -/
theorem toList_unifiedDiff (path : String) (hunks : List (List DiffLine)) :
    ("--- a/" ++ path ++ "\n+++ b/" ++ path ++ "\n" ++
      String.join (hunks.map renderHunk)).toList =
      ((writtenLines path.toList hunks).flatMap TextLine.marked).flatMap fun l => l ++ ['\n'] := by
  have hhunks : (String.join (hunks.map renderHunk)).toList =
      ((hunks.flatMap writtenHunk).flatMap TextLine.marked).flatMap fun m => m ++ ['\n'] := by
    rw [String.toList_join, List.flatMap_map, List.flatMap_assoc, List.flatMap_assoc]
    refine congrArg List.flatten (List.map_congr_left fun ls _ => ?_)
    rw [toList_renderHunk, List.flatMap_assoc]
  rw [writtenLines, List.flatMap_cons, List.flatMap_cons, List.flatMap_append,
    List.flatMap_append, ← hhunks]
  simp [TextLine.marked]

end FilePatch

/-! ## The diff of two texts

What was read is applied to the old text.  The hunks cut the lines of the diff, and these lead from
the old text to the new one, whichever way the aligner lays the two out. -/

/-- The lines of a script hold no line feed when those of both sides hold none. -/
theorem Script.not_mem {a b : Nat} {ls : List DiffLine} {old new : List TextLine}
    (h : Script a b ls old new) (hold : ∀ l ∈ old, '\n' ∉ l.text)
    (hnew : ∀ l ∈ new, '\n' ∉ l.text) : ∀ l ∈ ls, '\n' ∉ l.text := by
  induction h with
  | nil => exact fun l hl => (List.not_mem_nil hl).elim
  | kept text unterminated h ih =>
    intro l hl
    rcases List.mem_cons.mp hl with rfl | hl
    · exact hold _ List.mem_cons_self
    · exact ih (fun l hl => hold l (List.mem_cons_of_mem _ hl))
        (fun l hl => hnew l (List.mem_cons_of_mem _ hl)) l hl
  | removed text unterminated h ih =>
    intro l hl
    rcases List.mem_cons.mp hl with rfl | hl
    · exact hold _ List.mem_cons_self
    · exact ih (fun l hl => hold l (List.mem_cons_of_mem _ hl)) hnew l hl
  | added text unterminated h ih =>
    intro l hl
    rcases List.mem_cons.mp hl with rfl | hl
    · exact hnew _ List.mem_cons_self
    · exact ih hold (fun l hl => hnew l (List.mem_cons_of_mem _ hl)) l hl

/-- The lines of a text hold no line feed. -/
theorem TextLine.not_mem_text {cs : List Char} : ∀ l ∈ ofText cs, '\n' ∉ l.text := by
  have hpieces : ∀ ps : List (List Char), (∀ p ∈ ps, '\n' ∉ p) →
      ∀ l ∈ ofPieces ps, '\n' ∉ l.text := by
    intro ps hps
    induction ps with
    | nil => exact fun l hl => (List.not_mem_nil hl).elim
    | cons p ps ih =>
      have hp : '\n' ∉ p := hps p List.mem_cons_self
      have ih := ih fun q hq => hps q (List.mem_cons_of_mem _ hq)
      intro l hl
      cases ps with
      | nil =>
        unfold ofPieces at hl
        split at hl
        · cases hl
        · obtain rfl := List.mem_singleton.mp hl
          exact hp
      | cons q ps =>
        rcases List.mem_cons.mp hl with rfl | hl
        · exact hp
        · exact ih l hl
  exact hpieces _ fun p hp => not_mem_of_mem_pieces hp

/-- The lines of a hunk are lines of what was cut. -/
theorem Diff.Cuts.mem {ls : List DiffLine} {hunks : List (List DiffLine)} (h : Cuts ls hunks) :
    ∀ hunk ∈ hunks, Framed hunk ∧ ∀ l ∈ hunk, l ∈ ls := by
  induction h with
  | nil => exact fun hunk hh => (List.not_mem_nil hh).elim
  | cons hkept hframed h ih =>
    intro hunk' hmem
    rcases List.mem_cons.mp hmem with rfl | hmem
    · exact ⟨hframed, fun l hl => List.mem_append_right _ (List.mem_append_left _ hl)⟩
    · obtain ⟨hframed', hsub⟩ := ih hunk' hmem
      exact ⟨hframed', fun l hl =>
        List.mem_append_right _ (List.mem_append_right _ (hsub l hl))⟩

/-- The line of a patch is kept. -/
def PatchLine.isKept (p : PatchLine) : Bool := p.change = .kept

/-- A hunk as it is read has its changes framed in the same way. -/
theorem Diff.Framed.hunkOf {ls : List DiffLine} (h : Framed ls) :
    (∃ p ∈ (hunkOf ls).lines, p.isKept = false) ∧
      ((hunkOf ls).lines.takeWhile PatchLine.isKept).length ≤ 3 ∧
      ((hunkOf ls).lines.reverse.takeWhile PatchLine.isKept).length ≤ 3 := by
  have hkept : PatchLine.isKept ∘ patchLine = Diff.isKept := rfl
  obtain ⟨⟨l, hl, hchanged⟩, hfront, hback⟩ := h
  refine ⟨⟨patchLine l, List.mem_map_of_mem hl, hchanged⟩, ?_, ?_⟩
  · show ((ls.map patchLine).takeWhile _).length ≤ 3
    rw [List.takeWhile_map, List.length_map, hkept]
    exact hfront
  · show ((ls.map patchLine).reverse.takeWhile _).length ≤ 3
    rw [← List.map_reverse, List.takeWhile_map, List.length_map, hkept]
    exact hback

/-- Where the texts differ, the diff is that of its hunks, of which there are some. -/
theorem exists_cuts_of_ne {align : Aligner} (path : String) {old new : String}
    (halign : align.LaysOut old new) (hne : old ≠ new) :
    ∃ hunks, hunks ≠ [] ∧ Cuts (Diff.lines align old new) hunks ∧
      unifiedDiff align path old new = "--- a/" ++ path ++ "\n+++ b/" ++ path ++ "\n" ++
        String.join (hunks.map renderHunk) := by
  have hscript := script_lines halign
  have hcuts := cuts_group (Diff.lines align old new)
  have hchanged : (changedFrom 0 (Diff.lines align old new)).isEmpty = false := by
    -- without a change both texts have the same lines
    by_contra hempty
    have hnil : changedFrom 0 (Diff.lines align old new) = [] := by simpa using hempty
    rw [hnil] at hcuts
    have hkept := hcuts.kept_of_nil
    obtain ⟨hlines, -⟩ := hscript.eq_of_kept fun l hl => by simpa [Diff.isKept] using hkept l hl
    exact hne (String.toList_inj.mp (TextLine.ofText_injective hlines))
  refine ⟨_, ?_, hcuts, ?_⟩
  · intro hnil
    rw [hnil] at hcuts
    have hkept := hcuts.kept_of_nil
    cases hfirst : changedFrom 0 (Diff.lines align old new) with
    | nil =>
      rw [hfirst] at hchanged
      cases hchanged
    | cons i rest =>
      have hi : i ∈ changedFrom 0 (Diff.lines align old new) := hfirst ▸ List.mem_cons_self
      obtain ⟨j, l, -, hl, hchange⟩ := mem_changedFrom.mp hi
      rw [hkept l (List.mem_of_getElem? hl)] at hchange
      cases hchange
  · unfold unifiedDiff
    rw [if_neg hne]
    dsimp only
    rw [hchanged, List.map_map]
    rfl

/-- **The diff of two texts is a correct patch**, whichever way the aligner lays them out.

It is empty exactly when the texts are the same.  Else it is read as hunks that turn the old text
into the new one; the hunks ascend and are disjoint, and each has a change and at most three kept
lines before its first and after its last one. -/
theorem unifiedDiff_is_patch {align : Aligner} (path old new : String) (hpath : '\n' ∉ path.toList)
    (halign : align.LaysOut old new) :
    (unifiedDiff align path old new = "" ↔ old = new) ∧
    (old ≠ new → ∃ patch, FilePatch.read? (unifiedDiff align path old new).toList = some patch ∧
      patch.oldName = "a/".toList ++ path.toList ∧ patch.newName = "b/".toList ++ path.toList ∧
      patch.patched? old.toList = some new.toList ∧
      patch.hunks.Pairwise Hunk.Precedes ∧
      ∀ h ∈ patch.hunks, (∃ p ∈ h.lines, p.isKept = false) ∧
        (h.lines.takeWhile PatchLine.isKept).length ≤ 3 ∧
        (h.lines.reverse.takeWhile PatchLine.isKept).length ≤ 3) := by
  refine ⟨⟨fun hempty => ?_, fun heq => if_pos heq⟩, fun hne => ?_⟩
  · by_contra hne
    obtain ⟨hunks, -, -, hdiff⟩ := exists_cuts_of_ne path halign hne
    rw [hempty] at hdiff
    have hlength := congrArg (fun s : String => s.toList.length) hdiff
    simp at hlength
  · have hscript := script_lines halign
    obtain ⟨hunks, -, hcuts, hdiff⟩ := exists_cuts_of_ne path halign hne
    have hhunks : ∀ ls ∈ hunks, ∀ l ∈ ls, '\n' ∉ l.text := fun ls hls l hl =>
      hscript.not_mem TextLine.not_mem_text TextLine.not_mem_text l ((hcuts.mem ls hls).2 l hl)
    have hread := FilePatch.read?_writtenLines hpath hhunks
    rw [← FilePatch.toList_unifiedDiff, ← hdiff] at hread
    refine ⟨_, hread, rfl, rfl, ?_, (hcuts.pairwise hscript).1, fun h hh => ?_⟩
    · rw [FilePatch.patched?, hcuts.applyAll? hscript]
      exact TextLine.join?_ofText new.toList
    · obtain ⟨ls, hls, rfl⟩ := List.mem_map.mp hh
      exact (hcuts.mem ls hls).1.hunkOf

/-- The empty piece behind the last line feed of the old text meets an empty line of the new one,
which goes on and ends without a line feed. -/
theorem unifiedDiff_is_patch_open : '\n' ∉ "a.cs".toList ∧ align.LaysOut "x\ny\n" "x\n\nz" ∧
    ∃ patch, FilePatch.read? (unifiedDiff align "a.cs" "x\ny\n" "x\n\nz").toList = some patch ∧
      patch.patched? "x\ny\n".toList = some "x\n\nz".toList := by
  have hpath : '\n' ∉ "a.cs".toList := by decide
  have hne : "x\ny\n" ≠ "x\n\nz" := by decide
  have halign := align_laysOut "x\ny\n" "x\n\nz"
  obtain ⟨-, hpatch⟩ := unifiedDiff_is_patch "a.cs" "x\ny\n" "x\n\nz" hpath halign
  obtain ⟨patch, hread, -, -, happly, -⟩ := hpatch hne
  exact ⟨hpath, halign, patch, hread, happly⟩

end CodeMend
