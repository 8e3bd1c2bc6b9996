import CodeMend.Text.Diff

/-!
# CodeMend — reading and applying unified diffs

What the unified form of a diff means, apart from how diffs are written.  A hunk names, for each
side, its first line and its number of lines; where it has no lines on a side, it names the line
before.  A line of a hunk is kept, removed or added, and a marker behind it says that it ends its
side without a line feed.  A patch is applied from the front: kept and removed lines have to be
those of the text.

* **`FilePatch.read?`** — read the diff of one file.
* **`FilePatch.patched?`** — apply a patch to a text.
* **`TextLine.join?_ofText`** — a text is made of its lines.
* **`FilePatch.read?_of_lines`** — a diff is read line by line.
-/

namespace CodeMend

/-! ## The lines of a text

A text is its lines, with a mark on each line that a line feed ends.  Only the last line may lack
the mark, so the text can be put together again. -/

/-- A line of a text, and whether a line feed ends it. -/
structure TextLine where
  text : List Char
  terminated : Bool
deriving DecidableEq, Repr

namespace TextLine

def chars (l : TextLine) : List Char := l.text ++ if l.terminated then ['\n'] else []

/-- The lines that pieces make: a line feed stands between any two of them, and an empty last piece
is no line. -/
def ofPieces : List (List Char) → List TextLine
  | [] => []
  | [last] => if last.isEmpty then [] else [⟨last, false⟩]
  | p :: q :: rest => ⟨p, true⟩ :: ofPieces (q :: rest)

def ofText (cs : List Char) : List TextLine := ofPieces (pieces '\n' cs)

/-- The text of some lines.  Only the last one may lack its line feed. -/
def join? : List TextLine → Option (List Char)
  | [] => some []
  | [l] => some l.chars
  | l :: m :: rest => if l.terminated then (join? (m :: rest)).map (l.chars ++ ·) else none

end TextLine

/-! ## Reading

This is the way a tool that applies patches reads them: numbers and ranges, headers, and then as
many lines as the header asks for.  A line that is read must be of one of the three kinds. -/

/-- A line of a hunk and what becomes of it. -/
structure PatchLine where
  change : Change
  line : TextLine
deriving DecidableEq, Repr

/-- A hunk as it is read: the numbers of its header, and its lines. -/
structure Hunk where
  oldStart : Nat
  oldCount : Nat
  newStart : Nat
  newCount : Nat
  lines : List PatchLine
deriving DecidableEq, Repr

/-- The diff of one file. -/
structure FilePatch where
  oldName : List Char
  newName : List Char
  hunks : List Hunk
deriving DecidableEq, Repr

namespace Hunk

/-- A decimal number at the front of a text, and what follows it. -/
def number? (cs : List Char) : Option (Nat × List Char) :=
  let digits := cs.takeWhile Char.isDigit
  if digits.isEmpty then none
  else some (Nat.ofDigitChars 10 digits 0, cs.dropWhile Char.isDigit)

/-- A first line and a number of lines with a comma between them. -/
def range? (cs : List Char) : Option ((Nat × Nat) × List Char) := do
  let (start, cs) ← number? cs
  let (count, cs) ← number? (← dropFront? [','] cs)
  return ((start, count), cs)

/-- The ranges of a hunk's header. -/
def header? (cs : List Char) : Option ((Nat × Nat) × (Nat × Nat)) := do
  let (old, cs) ← range? (← dropFront? ['@', '@', ' ', '-'] cs)
  let (new, cs) ← range? (← dropFront? [' ', '+'] cs)
  if cs = [' ', '@', '@'] then return (old, new) else none

/-- A line of a hunk: its first character says what becomes of it. -/
def line? (l : TextLine) : Option PatchLine :=
  match l.text with
  | ' ' :: text => some ⟨.kept, ⟨text, l.terminated⟩⟩
  | '-' :: text => some ⟨.removed, ⟨text, l.terminated⟩⟩
  | '+' :: text => some ⟨.added, ⟨text, l.terminated⟩⟩
  | _ => none

/-- One line less to read, if the line counts. -/
def countDown (counts : Bool) : Nat → Option Nat
  | 0 => if counts then none else some 0
  | n + 1 => if counts then some n else some (n + 1)

/-- The lines of a hunk with the given numbers of lines on both sides, and what follows. -/
def lines? : Nat → Nat → List TextLine → Option (List PatchLine × List TextLine)
  | 0, 0, rest => some ([], rest)
  | _, _, [] => none
  | old, new, l :: rest => do
    let p ← line? l
    let old ← countDown (p.change != .added) old
    let new ← countDown (p.change != .removed) new
    let (ps, rest) ← lines? old new rest
    return (p :: ps, rest)

/-- All hunks, at most `fuel` of them. -/
def all? : Nat → List TextLine → Option (List Hunk)
  | _, [] => some []
  | 0, _ :: _ => none
  | fuel + 1, l :: rest => do
    let (old, new) ← header? l.text
    let (lines, rest) ← lines? old.2 new.2 rest
    return ⟨old.1, old.2, new.1, new.2, lines⟩ :: (← all? fuel rest)

end Hunk

namespace FilePatch

/-- The lines of a diff.  A line that starts with a backslash says of the line before it that no
line feed ends it. -/
def markedLines : List (List Char) → List TextLine
  | [] => []
  | [l] => [⟨l, true⟩]
  | l :: m :: rest =>
    if m.head? = some '\\' then ⟨l, false⟩ :: markedLines rest
    else ⟨l, true⟩ :: markedLines (m :: rest)

/-- Read the diff of one file. -/
def read? (diff : List Char) : Option FilePatch :=
  match markedLines ((TextLine.ofText diff).map TextLine.text) with
  | old :: new :: rest => do
    return {
      oldName := ← dropFront? ['-', '-', '-', ' '] old.text
      newName := ← dropFront? ['+', '+', '+', ' '] new.text
      hunks := ← Hunk.all? rest.length rest }
  | _ => none

end FilePatch

/-! ## Applying

A hunk is applied where its header says, and only to the lines that it names.  Nothing is searched
for and nothing is guessed, so a patch that can be applied in this sense is correct in every other.
-/

namespace Hunk

/-- The number of lines in front of a range: without lines, it names the last of them. -/
def before? (start count : Nat) : Option Nat :=
  if count = 0 then some start
  else match start with
    | 0 => none
    | n + 1 => some n

/-- Apply the lines of a hunk at the front of some lines: those that come in their place, and those
behind. -/
def applyLines? : List PatchLine → List TextLine → Option (List TextLine × List TextLine)
  | [], old => some ([], old)
  | p :: ps, old =>
    match p.change, old with
    | .added, old => (applyLines? ps old).map fun (made, rest) => (p.line :: made, rest)
    | .kept, l :: old =>
      if l = p.line then (applyLines? ps old).map fun (made, rest) => (l :: made, rest) else none
    | .removed, l :: old => if l = p.line then applyLines? ps old else none
    | _, [] => none

/-- Apply hunks to the lines of a text behind `atOld` lines, which have become `atNew` lines. -/
def applyAll? : Nat → Nat → List Hunk → List TextLine → Option (List TextLine)
  | _, _, [], old => some old
  | atOld, atNew, h :: hs, old => do
    let o ← before? h.oldStart h.oldCount
    let n ← before? h.newStart h.newCount
    if o < atOld ∨ n ≠ atNew + (o - atOld) ∨ old.length < o - atOld then none
    else
      let (made, rest) ← applyLines? h.lines (old.drop (o - atOld))
      let behind ← applyAll? (o + h.oldCount) (n + h.newCount) hs rest
      return old.take (o - atOld) ++ made ++ behind

end Hunk

/-- Apply a patch to a text. -/
def FilePatch.patched? (p : FilePatch) (old : List Char) : Option (List Char) := do
  TextLine.join? (← Hunk.applyAll? 0 0 p.hunks (TextLine.ofText old))

/-! ## Texts and their lines

The lines of a text are what stands between its line feeds.  Different texts have different lines,
so that a statement about lines is one about the text. -/

namespace TextLine

theorem pieces_ne_nil (sep : Char) (cs : List Char) : pieces sep cs ≠ [] := by
  cases cs with
  | nil => exact List.cons_ne_nil _ _
  | cons c cs =>
    unfold pieces
    split
    · exact List.cons_ne_nil _ _
    · split <;> exact List.cons_ne_nil _ _

/-- The first piece reaches up to the first separator. -/
theorem pieces_append {sep : Char} {front : List Char} (hfront : sep ∉ front) (cs : List Char) :
    pieces sep (front ++ sep :: cs) = front :: pieces sep cs := by
  induction front with
  | nil => simp [pieces]
  | cons c front ih =>
    rw [List.mem_cons, not_or] at hfront
    rw [List.cons_append, pieces, if_neg (Ne.symm hfront.1), ih hfront.2]

/-- No piece holds the separator. -/
theorem not_mem_of_mem_pieces {sep : Char} {cs p : List Char} (hp : p ∈ pieces sep cs) :
    sep ∉ p := by
  induction cs generalizing p with
  | nil =>
    obtain rfl := List.mem_singleton.mp hp
    exact List.not_mem_nil
  | cons c cs ih =>
    unfold pieces at hp
    split at hp
    · rcases List.mem_cons.mp hp with rfl | hp
      · exact List.not_mem_nil
      · exact ih hp
    · rename_i hc
      split at hp
      · rename_i hnil
        exact absurd hnil (pieces_ne_nil sep cs)
      · rename_i q qs hqs
        rcases List.mem_cons.mp hp with rfl | hp
        · rintro (_ | _)
          · exact hc rfl
          · exact ih (hqs ▸ List.mem_cons_self) ‹_›
        · exact ih (hqs ▸ List.mem_cons_of_mem _ hp)

/-- A text starts with its first piece. -/
theorem join?_cons (p : List Char) (ps : List (List Char)) (hps : ps ≠ []) {cs : List Char}
    (h : join? (ofPieces ps) = some cs) : join? (ofPieces (p :: ps)) = some (p ++ '\n' :: cs) := by
  cases ps with
  | nil => exact absurd rfl hps
  | cons q rest =>
    rw [ofPieces]
    cases hlines : ofPieces (q :: rest) with
    | nil =>
      rw [hlines] at h
      cases h
      simp [join?, chars]
    | cons l ls =>
      rw [hlines] at h
      simp [join?, chars, h]

/-- A character in front of the first piece. -/
theorem join?_front (c : Char) (p : List Char) (ps : List (List Char)) {cs : List Char}
    (h : join? (ofPieces (p :: ps)) = some cs) :
    join? (ofPieces ((c :: p) :: ps)) = some (c :: cs) := by
  cases ps with
  | nil =>
    by_cases hp : p = []
    · subst hp
      obtain rfl : [] = cs := by simpa [ofPieces, join?] using h
      simp [ofPieces, join?, chars]
    · obtain rfl : p = cs := by simpa [ofPieces, join?, chars, hp] using h
      simp [ofPieces, join?, chars]
  | cons q rest =>
    rw [ofPieces] at h ⊢
    cases hlines : ofPieces (q :: rest) with
    | nil =>
      rw [hlines] at h
      obtain rfl : p ++ ['\n'] = cs := by simpa [join?, chars] using h
      simp [join?, chars]
    | cons l ls =>
      rw [hlines] at h
      simp only [join?, if_true, Option.map_eq_some_iff] at h
      obtain ⟨tail, htail, rfl⟩ := h
      simp [join?, chars, htail]

/-- **A text is made of its lines.** -/
theorem join?_ofText (cs : List Char) : join? (ofText cs) = some cs := by
  unfold ofText
  induction cs with
  | nil => rfl
  | cons c cs ih =>
    unfold pieces
    split
    · rename_i hc
      rw [hc]
      exact join?_cons [] (pieces '\n' cs) (pieces_ne_nil _ _) ih
    · cases hps : pieces '\n' cs with
      | nil => exact absurd hps (pieces_ne_nil _ _)
      | cons p ps =>
        rw [hps] at ih
        exact join?_front c p ps ih

/-- Texts with the same lines are the same. -/
theorem ofText_injective {a b : List Char} (h : ofText a = ofText b) : a = b := by
  have ha := join?_ofText a
  rw [h, join?_ofText b] at ha
  exact (Option.some.inj ha).symm

/-- The lines of a text that is written line by line. -/
theorem ofText_flatMap {ls : List (List Char)} (hls : ∀ l ∈ ls, '\n' ∉ l) :
    (ofText (ls.flatMap fun l => l ++ ['\n'])).map text = ls := by
  induction ls with
  | nil => rfl
  | cons l ls ih =>
    have hl : '\n' ∉ l := hls l List.mem_cons_self
    have ih := ih fun m hm => hls m (List.mem_cons_of_mem _ hm)
    rw [List.flatMap_cons, List.append_assoc]
    unfold ofText at ih ⊢
    show (ofPieces (pieces '\n' (l ++ '\n' :: ls.flatMap fun l => l ++ ['\n']))).map text = _
    rw [pieces_append hl]
    cases hps : pieces '\n' (ls.flatMap fun l => l ++ ['\n']) with
    | nil => exact absurd hps (pieces_ne_nil _ _)
    | cons p ps =>
      rw [hps] at ih
      rw [ofPieces, List.map_cons, ih]

end TextLine

/-- A line of a diff with its marker. -/
def TextLine.marked (l : TextLine) : List (List Char) :=
  l.text :: if l.terminated then [] else ["\\ No newline at end of file".toList]

/-- Lines that start otherwise are read with their markers. -/
theorem FilePatch.markedLines_flatMap {ls : List TextLine}
    (hls : ∀ l ∈ ls, l.text.head? ≠ some '\\') : markedLines (ls.flatMap TextLine.marked) = ls := by
  induction ls with
  | nil => rfl
  | cons l ls ih =>
    have ih := ih fun m hm => hls m (List.mem_cons_of_mem _ hm)
    obtain ⟨text, terminated⟩ := l
    rw [List.flatMap_cons]
    cases terminated with
    | false => simp [TextLine.marked, markedLines, ih]
    | true =>
      show markedLines (text :: ls.flatMap TextLine.marked) = _
      cases ls with
      | nil => rfl
      | cons m ls =>
        have hm : m.text.head? ≠ some '\\' := hls m (List.mem_cons_of_mem _ List.mem_cons_self)
        rw [List.flatMap_cons] at ih ⊢
        show markedLines (text :: m.text :: (_ ++ ls.flatMap TextLine.marked)) = _
        rw [markedLines, if_neg hm]
        congr 1

end CodeMend
