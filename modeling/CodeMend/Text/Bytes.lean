/-!
# CodeMend — text measured in bytes

Offsets into a document count the bytes of its UTF-8 form.  This module measures character lists
that way and cuts them at byte offsets.

* **`byteLength`** — the number of bytes a list of characters takes.
* **`cut?`** — the two halves around a byte offset; there are none when the offset lies past the
  end or inside a character.
* **`slice?`**, **`extract?`** — the characters between two offsets.

`append_of_cut?` and `byteLength_of_cut?` say that a cut loses nothing and happens where it was
asked for; `cut?_append` says that every seam of a text can be cut.
-/

namespace CodeMend

/-- The number of bytes that characters take in UTF-8. -/
def byteLength : List Char → Nat
  | [] => 0
  | c :: cs => c.utf8Size + byteLength cs

/-- Cut a text at a byte offset.  An offset past the end or inside a character has no cut. -/
def cut? : Nat → List Char → Option (List Char × List Char)
  | 0, cs => some ([], cs)
  | _ + 1, [] => none
  | n + 1, c :: cs =>
    if c.utf8Size ≤ n + 1 then
      (cut? (n + 1 - c.utf8Size) cs).map fun (front, rest) => (c :: front, rest)
    else none

/-- The characters of the byte range from `start` to `stop`, when both ends are cuts. -/
def slice? (cs : List Char) (start stop : Nat) : Option (List Char) := do
  let (_, rest) ← cut? start cs
  if start ≤ stop then
    let (middle, _) ← cut? (stop - start) rest
    return middle
  else none

/-- The text of the byte range from `start` to `stop`, when both ends fall on characters. -/
def extract? (s : String) (start stop : Nat) : Option String :=
  (slice? s.toList start stop).map String.ofList

/-- An offset is a boundary when it neither splits a character nor lies past the end. -/
def isBoundary (cs : List Char) (offset : Nat) : Bool :=
  (cut? offset cs).isSome

/-- Whether a text occurs at the front of another; the rest after it when it does. -/
def dropFront? : List Char → List Char → Option (List Char)
  | [], cs => some cs
  | _ :: _, [] => none
  | p :: ps, c :: cs => if p = c then dropFront? ps cs else none

/-- Whether a text occurs somewhere in another. -/
def occursIn (needle : List Char) : List Char → Bool
  | [] => needle.isEmpty
  | c :: cs => (dropFront? needle (c :: cs)).isSome || occursIn needle cs

/-- Split at every occurrence of a separator.  There is always at least one piece. -/
def pieces (sep : Char) : List Char → List (List Char)
  | [] => [[]]
  | c :: cs =>
    if c = sep then [] :: pieces sep cs
    else
      match pieces sep cs with
      | [] => [[c]]
      | p :: ps => (c :: p) :: ps

/-! ## What a cut keeps

A cut splits a list of characters and counts bytes. -/

theorem byteLength_append (a b : List Char) :
    byteLength (a ++ b) = byteLength a + byteLength b := by
  induction a with
  | nil => simp [byteLength]
  | cons c cs ih => simp [byteLength, ih, Nat.add_assoc]

/-- The halves of a cut make up the text. -/
theorem append_of_cut? {n : Nat} {cs front rest : List Char} (h : cut? n cs = some (front, rest)) :
    front ++ rest = cs := by
  induction cs generalizing n front rest with
  | nil =>
    cases n with
    | zero => cases h; rfl
    | succ n => cases h
  | cons c cs ih =>
    cases n with
    | zero => cases h; rfl
    | succ n =>
      simp only [cut?] at h
      split at h
      · obtain ⟨⟨f, r⟩, hcut, heq⟩ := Option.map_eq_some_iff.1 h
        cases heq
        simp [ih hcut]
      · cases h

/-- The front half of a cut has the asked length. -/
theorem byteLength_of_cut? {n : Nat} {cs front rest : List Char}
    (h : cut? n cs = some (front, rest)) : byteLength front = n := by
  induction cs generalizing n front rest with
  | nil =>
    cases n with
    | zero => cases h; rfl
    | succ n => cases h
  | cons c cs ih =>
    cases n with
    | zero => cases h; rfl
    | succ n =>
      simp only [cut?] at h
      split at h
      next hle =>
        obtain ⟨⟨f, r⟩, hcut, heq⟩ := Option.map_eq_some_iff.1 h
        cases heq
        simp only [byteLength, ih hcut]
        omega
      · cases h

/-- Every seam of a text can be cut. -/
theorem cut?_append (a b : List Char) : cut? (byteLength a) (a ++ b) = some (a, b) := by
  induction a with
  | nil => cases b <;> simp [cut?, byteLength]
  | cons c cs ih =>
    have hpos : 0 < c.utf8Size := Char.utf8Size_pos c
    obtain ⟨m, hm⟩ : ∃ m, byteLength (c :: cs) = m + 1 :=
      ⟨byteLength (c :: cs) - 1, by simp only [byteLength]; omega⟩
    rw [hm]
    simp only [List.cons_append, cut?]
    have hlen : m + 1 - c.utf8Size = byteLength cs := by
      simp only [byteLength] at hm; omega
    have hle : c.utf8Size ≤ m + 1 := by simp only [byteLength] at hm; omega
    simp [hle, hlen, ih]

end CodeMend
