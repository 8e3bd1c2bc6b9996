import CodeMend.Proofs.Text.Cuts
import CodeMend.Proofs.Text.Patches
import CodeMend.Text.Location

/-!
# CodeMend — positions, offsets and locations lead to each other

A place in a text is reported as a path, a line and a column.  Read again, these are the same three,
and the line and the column lead back to the byte offset they were worked out from.

A walk over the characters turns an offset into a line and a column; a search for line feeds and a
count of characters turn these back.  Both see a text as the lines between its line feeds, whatever
else the lines hold: a carriage return is a character of its line, and behind a final line feed
there is one more line, which is empty.

Lines and columns are counted in 32 bits.  Every count in front of an offset is at most the offset,
so that nothing wraps around in a text that is shorter than 4 GiB by two bytes; one byte more, and
the position behind a text of line feeds alone is that of its front.

* **`Position.toOffset_ofOffset`** — from a seam of a text to a line and a column and back.
* **`Location.parse?_render`** — a location is read as it was written.
* **`Position.Precedes`** — the order of positions; **`Position.precedes_of_lt`** — a later seam has
  a later one.
* **`Position.exists_line`**, **`Position.afterLineFeeds_eq_none`** — where a line stands in a text,
  and that nothing is found behind the last one.
* **`Position.toOffset_of_line`**, **`Position.toOffset_of_no_line`** — the offset of any line and
  column.
* **`Position.offsets_and_positions_correspond`** — the two conversions against each other;
  **`Position.position_behind_last_line_wraps`** — where they part.
-/

namespace CodeMend

variable {front rest cs : List Char} {p : Position}

/-! ## Lines and columns

The position of a seam is what the characters in front of it add up to.  What stands in front is
some whole lines and the front of another line: the lines give the one count, and the characters of
that front give the other. -/

namespace Position

/-- The position of a seam is reached by a step for each character in front of it. -/
theorem walk_append (p : Position) (front rest : List Char) :
    p.walk (byteLength front) (front ++ rest) = front.foldl advance p := by
  induction front generalizing p with
  | nil => cases rest <;> rfl
  | cons c front ih =>
    obtain ⟨n, hn⟩ : ∃ n, byteLength (c :: front) = n + 1 :=
      ⟨byteLength (c :: front) - 1, by have := Char.utf8Size_pos c; simp; omega⟩
    have hrest : n + 1 - c.utf8Size = byteLength front := by
      rw [byteLength_cons] at hn
      omega
    rw [hn, List.cons_append, walk, hrest, ih, List.foldl_cons]

/-- What stands in front of a seam is whole lines and the front of another one. -/
theorem exists_lastLine (front : List Char) :
    ∃ lines line, front = lines ++ line ∧ '\n' ∉ line ∧
      (lines = [] ∨ lines.getLast? = some '\n') := by
  rcases List.eq_nil_or_concat front with rfl | ⟨front, c, rfl⟩
  · exact ⟨[], [], rfl, List.not_mem_nil, .inl rfl⟩
  · by_cases hc : c = '\n'
    · subst hc
      exact ⟨front ++ ['\n'], [], by simp, List.not_mem_nil, .inr (by simp)⟩
    · obtain ⟨lines, line, rfl, hline, hlines⟩ := exists_lastLine front
      refine ⟨lines, line ++ [c], by simp, ?_, hlines⟩
      rw [List.mem_append, List.mem_singleton]
      exact not_or.mpr ⟨hline, Ne.symm hc⟩
termination_by front.length
decreasing_by simp [*]

/-- Within a line, each character takes a column. -/
theorem foldl_advance_of_notMem (h : '\n' ∉ cs) :
    cs.foldl advance p = ⟨p.line, p.column + .ofNat cs.length⟩ := by
  induction cs generalizing p with
  | nil => simp
  | cons c cs ih =>
    rw [List.mem_cons, not_or] at h
    rw [List.foldl_cons, ih h.2, advance, if_neg (Ne.symm h.1), List.length_cons, Nat.add_comm,
      UInt32.ofNat_add, ← UInt32.add_assoc]
    rfl

/-- Each line feed takes a line. -/
theorem line_foldl_advance (cs : List Char) (p : Position) :
    (cs.foldl advance p).line = p.line + .ofNat (cs.count '\n') := by
  induction cs generalizing p with
  | nil => simp
  | cons c cs ih =>
    rw [List.foldl_cons, ih]
    by_cases hc : c = '\n'
    · rw [hc, List.count_cons_self, Nat.add_comm, UInt32.ofNat_add, ← UInt32.add_assoc]
      rfl
    · rw [List.count_cons_of_ne hc, advance, if_neg hc]

/-- Behind whole lines a new one begins. -/
theorem foldl_advance_lines (h : cs = [] ∨ cs.getLast? = some '\n') (hp : p.column = 1) :
    cs.foldl advance p = ⟨p.line + .ofNat (cs.count '\n'), 1⟩ := by
  rcases h with rfl | h
  · rw [List.foldl_nil, ← hp]
    simp
  · obtain ⟨lines, rfl⟩ := List.getLast?_eq_some_iff.mp h
    have hline := line_foldl_advance lines p
    rw [List.foldl_append, List.foldl_cons, List.foldl_nil, advance, if_pos rfl, hline]
    simp [UInt32.ofNat_add, UInt32.add_assoc]

/-- The line behind whole lines starts where they end. -/
theorem afterLineFeeds_append (h : cs = [] ∨ cs.getLast? = some '\n') (offset : Nat) :
    afterLineFeeds (cs.count '\n') offset (cs ++ rest) = some (offset + byteLength cs, rest) := by
  induction cs generalizing offset with
  | nil => rw [List.count_nil, afterLineFeeds, byteLength_nil, Nat.add_zero, List.nil_append]
  | cons c cs ih =>
    replace h : (c :: cs).getLast? = some '\n' := h.resolve_left (List.cons_ne_nil _ _)
    have hend : cs = [] ∧ c = '\n' ∨ cs.getLast? = some '\n' := by
      by_cases hcs : cs = []
      · exact .inl ⟨hcs, by simpa [hcs] using h⟩
      · exact .inr (List.getLast?_cons_of_ne_nil hcs ▸ h)
    have hrest := ih (hend.imp_left And.left) (offset + c.utf8Size)
    rw [List.cons_append, byteLength_cons, ← Nat.add_assoc, ← hrest]
    by_cases hc : c = '\n'
    · subst hc
      rw [List.count_cons_self, afterLineFeeds, if_pos rfl]
    · -- without a line feed at its front, the rest of the lines has one
      have hpos : 0 < cs.count '\n' := by
        rw [List.count_pos_iff]
        exact List.mem_of_getLast? (hend.resolve_left fun h => hc h.2)
      obtain ⟨n, hn⟩ : ∃ n, cs.count '\n' = n + 1 := ⟨cs.count '\n' - 1, by omega⟩
      rw [List.count_cons_of_ne hc, hn, afterLineFeeds, if_neg hc]

/-- The columns of the front of a line. -/
theorem columnOffset_append (h : '\n' ∉ cs) :
    columnOffset cs.length (cs ++ rest) = byteLength cs := by
  induction cs with
  | nil => rfl
  | cons c cs ih =>
    rw [List.mem_cons, not_or] at h
    rw [List.length_cons, List.cons_append, columnOffset, if_neg (Ne.symm h.1), ih h.2,
      byteLength_cons]

/-- The position of a seam, by the lines in front of it. -/
theorem ofOffset_append {content : String} {lines line : List Char}
    (hcontent : content.toList = lines ++ (line ++ rest)) (hline : '\n' ∉ line)
    (hlines : lines = [] ∨ lines.getLast? = some '\n') :
    ofOffset content (byteLength (lines ++ line)) =
      ⟨.ofNat (1 + lines.count '\n'), .ofNat (1 + line.length)⟩ := by
  rw [ofOffset, hcontent, ← List.append_assoc, walk_append, List.foldl_append,
    foldl_advance_lines hlines rfl, foldl_advance_of_notMem hline, UInt32.ofNat_add,
    UInt32.ofNat_add]
  rfl

theorem length_le_byteLength (cs : List Char) : cs.length ≤ byteLength cs := by
  induction cs with
  | nil => exact Nat.le_refl 0
  | cons c cs ih =>
    have hpos := Char.utf8Size_pos c
    rw [List.length_cons, byteLength_cons]
    omega

/-- Neither the lines nor the columns in front of a seam are more than its bytes. -/
theorem counts_le_byteLength (lines line : List Char) :
    lines.count '\n' ≤ byteLength (lines ++ line) ∧ line.length ≤ byteLength (lines ++ line) := by
  have hfeeds : lines.count '\n' ≤ lines.length := List.count_le_length
  have hlength := length_le_byteLength lines
  have hlength' := length_le_byteLength line
  rw [byteLength_append]
  omega

/-- **From a seam of a text to a line and a column and back**, as long as 32 bits are enough for
both. -/
theorem toOffset_ofOffset {content : String} {offset : Nat}
    (h : isBoundary content.toList offset = true) (hsize : offset + 1 < UInt32.size) :
    toOffset content (ofOffset content offset) = offset := by
  obtain ⟨front, rest, hcontent, rfl⟩ := exists_split_of_isBoundary h
  obtain ⟨lines, line, rfl, hline, hlines⟩ := exists_lastLine front
  rw [List.append_assoc] at hcontent
  obtain ⟨hfeeds, hcolumns⟩ := counts_le_byteLength lines line
  rw [ofOffset_append hcontent hline hlines, toOffset, hcontent]
  simp only [UInt32.toNat_ofNat_of_lt' (show 1 + lines.count '\n' < UInt32.size by omega),
    UInt32.toNat_ofNat_of_lt' (show 1 + line.length < UInt32.size by omega),
    Nat.add_sub_cancel_left, afterLineFeeds_append hlines, Nat.zero_add,
    columnOffset_append hline, byteLength_append]

end Position

/-! ## Locations

A location is written with colons and read from its end, because a path may hold colons of its own
and numbers do not. -/

/-- Digits are read as a number. -/
theorem parseUInt32?_of_isDigit (hne : cs ≠ []) (hall : ∀ c ∈ cs, c.isDigit = true)
    (hvalue : Nat.ofDigitChars 10 cs 0 < UInt32.size) :
    parseUInt32? cs = some (.ofNat (Nat.ofDigitChars 10 cs 0)) := by
  have hfold : ∀ n, cs.foldl (fun n c => n * 10 + (c.toNat - '0'.toNat)) n =
      Nat.ofDigitChars 10 cs n := by
    simp [Nat.ofDigitChars, Nat.mul_comm]
  unfold parseUInt32?
  split
  next rest =>
    have hplus := hall '+' List.mem_cons_self
    cases hplus
  next =>
    simp only [hfold, hvalue, List.all_eq_true.mpr hall]
    simp [hne]

/-- **A number of 32 bits is read as it was written.** -/
theorem parseUInt32?_toString (n : UInt32) : parseUInt32? (toString n).toList = some n := by
  have htext : (toString n).toList = Nat.toDigits 10 n.toNat := by
    show (String.ofList (Nat.toDigits 10 n.toNat)).toList = _
    rw [String.toList_ofList]
  have hvalue : Nat.ofDigitChars 10 (Nat.toDigits 10 n.toNat) 0 = n.toNat :=
    Nat.ofDigitChars_toDigits (by decide) (by decide)
  rw [htext, parseUInt32?_of_isDigit (by simp) ?_ (by rw [hvalue]; exact n.toNat_lt_size), hvalue,
    UInt32.ofNat_toNat]
  exact fun d hd => Nat.isDigit_of_mem_toDigits (by decide) (by decide) hd

/-- The pieces of two texts with a separator between them. -/
theorem pieces_append_cons (sep : Char) (cs ds : List Char) :
    pieces sep (cs ++ sep :: ds) = pieces sep cs ++ pieces sep ds := by
  induction cs with
  | nil => simp [pieces]
  | cons c cs ih =>
    rw [List.cons_append, pieces, pieces]
    by_cases hc : c = sep
    · rw [if_pos hc, if_pos hc, ih, List.cons_append]
    · rw [if_neg hc, if_neg hc, ih]
      cases hpieces : pieces sep cs with
      | nil => exact absurd hpieces (TextLine.pieces_ne_nil sep cs)
      | cons q qs => rfl

/-- A text without the separator is one piece. -/
theorem pieces_of_notMem {sep : Char} (h : sep ∉ cs) : pieces sep cs = [cs] := by
  induction cs with
  | nil => rfl
  | cons c cs ih =>
    rw [List.mem_cons, not_or] at h
    rw [pieces, if_neg (Ne.symm h.1), ih h.2]

/-- The pieces of a text with the separator between them are the text. -/
theorem intercalate_pieces (sep : Char) (cs : List Char) :
    [sep].intercalate (pieces sep cs) = cs := by
  induction cs with
  | nil => rfl
  | cons c cs ih =>
    have hne := TextLine.pieces_ne_nil sep cs
    unfold pieces
    split
    next hc =>
      rw [List.intercalate_cons_of_ne_nil hne, ih, hc]
      rfl
    next hc =>
      cases hpieces : pieces sep cs with
      | nil => exact absurd hpieces hne
      | cons q qs =>
        rw [hpieces] at ih
        cases qs with
        | nil => simpa using ih
        | cons r rs => simpa using ih

/-- Texts put together from the last one on. -/
theorem foldl_of_reverse {sep : Char} {part : List Char} {parts ps : List (List Char)}
    (h : ps.reverse = part :: parts) :
    parts.foldl (fun text q => q ++ sep :: text) part = [sep].intercalate ps := by
  induction ps generalizing part parts with
  | nil => cases h
  | cons p ps ih =>
    rw [List.reverse_cons] at h
    cases hps : ps.reverse with
    | nil =>
      obtain rfl := List.reverse_eq_nil_iff.mp hps
      obtain ⟨rfl, rfl⟩ : p = part ∧ [] = parts := by simpa using h
      simp
    | cons q qs =>
      rw [hps, List.cons_append] at h
      obtain ⟨rfl, rfl⟩ := List.cons.inj h
      have hne : ps ≠ [] := fun hnil => by simp [hnil] at hps
      rw [List.foldl_append, ih hps, List.intercalate_cons_of_ne_nil hne]
      simp

/-- **A location is read as it was written.**  The path may hold colons. -/
theorem Location.parse?_render (l : Location) :
    Location.parse? l.render = some ⟨l.file, l.line, l.column, none, none⟩ := by
  -- Numbers have no colon, so the last two parts are the line and the column.
  have hnumber : ∀ n : UInt32, ':' ∉ (toString n).toList := by
    intro n hn
    replace hn : ':' ∈ (toString n.toNat).toList := hn
    have hdigit : ':'.isDigit = true :=
      Nat.isDigit_of_mem_toDigits (b := 10) (n := n.toNat) (by decide) (by decide)
        (by simpa using hn)
    cases hdigit
  have hpieces : pieces ':' l.render.toList =
      pieces ':' l.file.toList ++ [(toString l.line).toList, (toString l.column).toList] := by
    have htext : l.render.toList = l.file.toList ++ ':' ::
        ((toString l.line).toList ++ ':' :: (toString l.column).toList) := by
      simp [Location.render]
    rw [htext, pieces_append_cons, pieces_append_cons, pieces_of_notMem (hnumber _),
      pieces_of_notMem (hnumber _)]
    rfl
  have hreverse : (pieces ':' l.render.toList).reverse = (toString l.column).toList ::
      (toString l.line).toList :: (pieces ':' l.file.toList).reverse := by
    rw [hpieces]
    simp
  unfold Location.parse?
  rw [hreverse]
  cases hfile : (pieces ':' l.file.toList).reverse with
  | nil => exact absurd (List.reverse_eq_nil_iff.mp hfile) (TextLine.pieces_ne_nil _ _)
  | cons part parts =>
    simp only [parseUInt32?_toString, foldl_of_reverse hfile, intercalate_pieces,
      String.ofList_toList]
    rfl

end CodeMend

namespace CodeMend.Position

variable {content : String} {front rest line cs : List Char} {p q r : Position} {n offset : Nat}

/-! ## The order of positions

Positions are ordered by line and then by column.  A character never leads back, but either count
wraps around at the end of 32 bits, which is why the bound stands in the statements. -/

/-- On an earlier line, or in an earlier column of the same one. -/
def Precedes (p q : Position) : Prop :=
  p.line < q.line ∨ p.line = q.line ∧ p.column < q.column

theorem Precedes.trans (hpq : p.Precedes q) (hqr : q.Precedes r) : p.Precedes r := by
  simp only [Precedes, UInt32.lt_iff_toNat_lt, ← UInt32.toNat_inj] at *
  omega

/-- Behind a character the position is later, unless a count wraps around, and each count has grown
by one at most. -/
theorem precedes_advance (c : Char) (hline : p.line.toNat + 1 < UInt32.size)
    (hcolumn : p.column.toNat + 1 < UInt32.size) :
    p.Precedes (p.advance c) ∧ (p.advance c).line.toNat ≤ p.line.toNat + 1 ∧
      (p.advance c).column.toNat ≤ p.column.toNat + 1 := by
  have hone : ∀ n : UInt32, n.toNat + 1 < UInt32.size → (n + 1).toNat = n.toNat + 1 :=
    fun n hn => by
      rw [UInt32.toNat_add]
      exact Nat.mod_eq_of_lt hn
  unfold advance Precedes
  split
  · have hfirst : (1 : UInt32).toNat = 1 := rfl
    simp only [UInt32.lt_iff_toNat_lt, hone _ hline, hfirst]
    exact ⟨.inl (Nat.lt_succ_self _), Nat.le_refl _, Nat.le_add_left _ _⟩
  · simp only [UInt32.lt_iff_toNat_lt, hone _ hcolumn]
    exact ⟨.inr ⟨trivial, Nat.lt_succ_self _⟩, Nat.le_succ _, Nat.le_refl _⟩

/-- Characters lead to a later position, if neither count can wrap around on the way. -/
theorem precedes_foldl_advance (h : cs ≠ []) (hline : p.line.toNat + cs.length < UInt32.size)
    (hcolumn : p.column.toNat + cs.length < UInt32.size) : p.Precedes (cs.foldl advance p) := by
  induction cs generalizing p with
  | nil => exact absurd rfl h
  | cons c cs ih =>
    rw [List.length_cons] at hline hcolumn
    obtain ⟨hfirst, hlines, hcolumns⟩ :=
      precedes_advance (p := p) c (by omega) (by omega)
    rw [List.foldl_cons]
    by_cases hcs : cs = []
    · rw [hcs]
      exact hfirst
    · exact hfirst.trans (ih hcs (by omega) (by omega))

theorem ofOffset_byteLength (hcontent : content.toList = front ++ rest) :
    ofOffset content (byteLength front) = front.foldl advance first := by
  rw [ofOffset, hcontent, walk_append]

/-- Neither the line nor the column of a seam is greater than its offset by more than one. -/
theorem toNat_ofOffset_le (h : isBoundary content.toList offset = true) :
    (ofOffset content offset).line.toNat ≤ offset + 1 ∧
      (ofOffset content offset).column.toNat ≤ offset + 1 := by
  obtain ⟨front, rest, hcontent, rfl⟩ := exists_split_of_isBoundary h
  obtain ⟨lines, line, rfl, hline, hlines⟩ := exists_lastLine front
  rw [List.append_assoc] at hcontent
  obtain ⟨hfeeds, hcolumns⟩ := counts_le_byteLength lines line
  rw [ofOffset_append hcontent hline hlines, UInt32.toNat_ofNat', UInt32.toNat_ofNat']
  exact ⟨Nat.le_trans (Nat.mod_le _ _) (by omega), Nat.le_trans (Nat.mod_le _ _) (by omega)⟩

/-- **A later boundary has a later position**, as long as 32 bits are enough for both. -/
theorem precedes_of_lt {offset offset' : Nat} (h : isBoundary content.toList offset = true)
    (h' : isBoundary content.toList offset' = true) (hlt : offset < offset')
    (hsize : offset' + 1 < UInt32.size) :
    (ofOffset content offset).Precedes (ofOffset content offset') := by
  obtain ⟨hline, hcolumn⟩ := toNat_ofOffset_le h
  obtain ⟨front, rest, hcontent, rfl⟩ := exists_split_of_isBoundary h
  obtain ⟨front', rest', hcontent', rfl⟩ := exists_split_of_isBoundary h'
  obtain ⟨between, rfl, -⟩ :=
    exists_append_of_byteLength_le (hcontent.symm.trans hcontent') (Nat.le_of_lt hlt)
  have hbetween : between ≠ [] := by
    rintro rfl
    simp at hlt
  have hlength := length_le_byteLength between
  rw [byteLength_append] at hsize
  have hlater : ofOffset content (byteLength (front ++ between)) =
      between.foldl advance (ofOffset content (byteLength front)) := by
    rw [ofOffset_byteLength hcontent, ofOffset_byteLength hcontent', List.foldl_append]
  rw [hlater]
  exact precedes_foldl_advance hbetween (by omega) (by omega)

/-! ## The lines of a text

A line of a text is found by counting line feeds.  A count beyond the last line feed finds nothing.
-/

/-- A line stands behind as many line feeds as there are lines in front of it, and a line feed or
nothing stands behind it. -/
theorem exists_line (h : (pieces '\n' cs)[n]? = some line) :
    ∃ lines rest, cs = lines ++ (line ++ rest) ∧ lines.count '\n' = n ∧
      (lines = [] ∨ lines.getLast? = some '\n') ∧ '\n' ∉ line ∧
      (rest = [] ∨ rest.head? = some '\n') := by
  induction cs generalizing n line with
  | nil =>
    cases n with
    | zero =>
      obtain rfl : [] = line := Option.some.inj h
      exact ⟨[], [], rfl, rfl, .inl rfl, List.not_mem_nil, .inl rfl⟩
    | succ n => cases h
  | cons c cs ih =>
    rw [pieces] at h
    split at h
    next hc =>
      subst hc
      cases n with
      | zero =>
        obtain rfl : [] = line := Option.some.inj h
        exact ⟨[], '\n' :: cs, rfl, rfl, .inl rfl, List.not_mem_nil, .inr rfl⟩
      | succ n =>
        -- the line feed ends the first line, and the line looked for is one of the others
        obtain ⟨lines, rest, rfl, hcount, hlines, hline, hrest⟩ := ih h
        refine ⟨'\n' :: lines, rest, rfl, by simp [hcount], .inr ?_, hline, hrest⟩
        rcases hlines with rfl | hlines
        · rfl
        · rw [List.getLast?_cons, hlines, Option.getD_some]
    next hc =>
      cases hpieces : pieces '\n' cs with
      | nil => exact absurd hpieces (TextLine.pieces_ne_nil _ _)
      | cons head tail =>
        rw [hpieces] at h ih
        cases n with
        | zero =>
          -- the character is the first one of the line that follows it
          obtain rfl : c :: head = line := Option.some.inj h
          obtain ⟨lines, rest, rfl, hcount, hlines, hhead, hrest⟩ := @ih head 0 rfl
          obtain rfl : lines = [] := by
            refine hlines.resolve_right fun hlast => ?_
            have hmem := List.mem_of_getLast? hlast
            exact absurd (List.count_pos_iff.mpr hmem) (by omega)
          refine ⟨[], rest, rfl, rfl, .inl rfl, ?_, hrest⟩
          rw [List.mem_cons, not_or]
          exact ⟨Ne.symm hc, hhead⟩
        | succ n =>
          obtain ⟨lines, rest, rfl, hcount, hlines, hline, hrest⟩ := @ih line (n + 1) h
          have hlast : lines.getLast? = some '\n' := by
            refine hlines.resolve_left fun hnil => ?_
            rw [hnil] at hcount
            cases hcount
          refine ⟨c :: lines, rest, rfl, ?_, .inr ?_, hline, hrest⟩
          · rw [List.count_cons_of_ne hc, hcount]
          · rw [List.getLast?_cons, hlast, Option.getD_some]

/-- A text has no more line feeds than lines in front of the last one. -/
theorem afterLineFeeds_eq_none (h : (pieces '\n' cs)[n]? = none) (offset : Nat) :
    afterLineFeeds n offset cs = none := by
  induction cs generalizing n offset with
  | nil =>
    cases n with
    | zero => cases h
    | succ n => rfl
  | cons c cs ih =>
    rw [pieces] at h
    split at h
    next hc =>
      cases n with
      | zero => cases h
      | succ n =>
        rw [afterLineFeeds, if_pos hc]
        exact ih h _
    next hc =>
      cases hpieces : pieces '\n' cs with
      | nil => exact absurd hpieces (TextLine.pieces_ne_nil _ _)
      | cons head tail =>
        rw [hpieces] at h ih
        cases n with
        | zero => cases h
        | succ n =>
          rw [afterLineFeeds, if_neg hc]
          exact ih h _

/-- Columns are counted up to the end of the line. -/
theorem columnOffset_line (hline : '\n' ∉ line) (hrest : rest = [] ∨ rest.head? = some '\n')
    (n : Nat) : columnOffset n (line ++ rest) = byteLength (line.take n) := by
  induction line generalizing n with
  | nil =>
    rw [List.nil_append, List.take_nil, byteLength_nil]
    cases n with
    | zero => rfl
    | succ n =>
      rcases hrest with rfl | hrest
      · rfl
      · obtain ⟨rest, rfl⟩ := List.head?_eq_some_iff.mp hrest
        rfl
  | cons c line ih =>
    rw [List.mem_cons, not_or] at hline
    cases n with
    | zero => rfl
    | succ n =>
      rw [List.cons_append, columnOffset, if_neg (Ne.symm hline.1), ih hline.2, List.take_succ_cons,
        byteLength_cons]

/-! ## The offset of a line and a column

The way from a line and a column to an offset is defined for all numbers: a column behind the end of
its line stands for that end, and a line behind the last one stands for the end of the text. -/

/-- **On a line of the text**, the offset is that of a seam of the line: of the one in the column,
or of the last one. -/
theorem toOffset_of_line (h : (pieces '\n' content.toList)[p.line.toNat - 1]? = some line) :
    isBoundary content.toList (toOffset content p) = true ∧
      (ofOffset content (toOffset content p)).line.toNat = max p.line.toNat 1 ∧
      (ofOffset content (toOffset content p)).column.toNat =
        min (max p.column.toNat 1) (line.length + 1) := by
  obtain ⟨lines, rest, hcontent, hcount, hlines, hline, hrest⟩ := exists_line h
  have hoffset : toOffset content p = byteLength (lines ++ line.take (p.column.toNat - 1)) := by
    rw [toOffset, hcontent, ← hcount, afterLineFeeds_append hlines]
    simp only [columnOffset_line hline hrest, byteLength_append, Nat.zero_add]
  have hseam : content.toList =
      lines ++ (line.take (p.column.toNat - 1) ++ (line.drop (p.column.toNat - 1) ++ rest)) := by
    rw [hcontent, ← List.append_assoc (line.take _), List.take_append_drop]
  have hfront : '\n' ∉ line.take (p.column.toNat - 1) := fun hmem =>
    hline (List.mem_of_mem_take hmem)
  have hline32 := p.line.toNat_lt_size
  have hcolumn32 := p.column.toNat_lt_size
  have hone : 1 < UInt32.size := by decide
  rw [hoffset]
  refine ⟨?_, ?_⟩
  · rw [hseam, ← List.append_assoc]
    exact isBoundary_append _ _
  · -- the counts are those of a position, which 32 bits hold
    rw [ofOffset_append hseam hfront hlines, List.length_take, hcount,
      UInt32.toNat_ofNat_of_lt' (by omega), UInt32.toNat_ofNat_of_lt' (by omega)]
    omega

/-- **Behind the last line**, the offset is the end of the text. -/
theorem toOffset_of_no_line (h : (pieces '\n' content.toList)[p.line.toNat - 1]? = none) :
    isBoundary content.toList (toOffset content p) = true ∧
      toOffset content p = content.utf8ByteSize := by
  have hoffset : toOffset content p = byteLength content.toList := by
    rw [toOffset, afterLineFeeds_eq_none h, byteLength_toList]
  rw [hoffset]
  have hend := isBoundary_append content.toList []
  rw [List.append_nil] at hend
  exact ⟨hend, byteLength_toList content⟩

/-- **The conversions between offsets and positions correspond.**  At every boundary at which 32
bits are enough for the line and the column, the way to the position and back leads to the same
boundary, and positions ascend with the offset.  Every position, in range or not, leads to a
boundary of the text: on a line that the text has, to the one in the column or to the end of the
line, and else to the end of the text. -/
theorem offsets_and_positions_correspond (content : String) :
    (∀ offset, isBoundary content.toList offset = true → offset + 1 < UInt32.size →
      toOffset content (ofOffset content offset) = offset) ∧
    (∀ offset offset', isBoundary content.toList offset = true →
      isBoundary content.toList offset' = true → offset < offset' → offset' + 1 < UInt32.size →
        (ofOffset content offset).Precedes (ofOffset content offset')) ∧
    ∀ p : Position, isBoundary content.toList (toOffset content p) = true ∧
      toOffset content p ≤ content.utf8ByteSize ∧
      (∀ line, (pieces '\n' content.toList)[p.line.toNat - 1]? = some line →
        (ofOffset content (toOffset content p)).line.toNat = max p.line.toNat 1 ∧
        (ofOffset content (toOffset content p)).column.toNat =
          min (max p.column.toNat 1) (line.length + 1)) ∧
      ((pieces '\n' content.toList)[p.line.toNat - 1]? = none →
        toOffset content p = content.utf8ByteSize) := by
  refine ⟨fun offset h hsize => toOffset_ofOffset h hsize,
    fun _ _ h h' hlt hsize => precedes_of_lt h h' hlt hsize, fun p => ?_⟩
  have hboundary : isBoundary content.toList (toOffset content p) = true := by
    cases hline : (pieces '\n' content.toList)[p.line.toNat - 1]? with
    | some line => exact (toOffset_of_line hline).1
    | none => exact (toOffset_of_no_line hline).1
  refine ⟨hboundary, ?_, fun line h => (toOffset_of_line h).2, fun h => (toOffset_of_no_line h).2⟩
  obtain ⟨front, rest, hcontent, hlength⟩ := exists_split_of_isBoundary hboundary
  rw [← hlength, ← byteLength_toList, hcontent, byteLength_append]
  exact Nat.le_add_right _ _

/-- A character of two bytes, a carriage return, and a line behind the last line feed. -/
theorem offsets_and_positions_correspond_lines :
    isBoundary "é\r\nb\n".toList 3 = true ∧ isBoundary "é\r\nb\n".toList 6 = true ∧
      6 + 1 < UInt32.size ∧ ofOffset "é\r\nb\n" 3 = ⟨1, 3⟩ ∧
      toOffset "é\r\nb\n" (ofOffset "é\r\nb\n" 3) = 3 ∧
      (ofOffset "é\r\nb\n" 3).Precedes (ofOffset "é\r\nb\n" 6) ∧
      (pieces '\n' "é\r\nb\n".toList)[1 - 1]? = some ['é', '\r'] ∧
      (ofOffset "é\r\nb\n" (toOffset "é\r\nb\n" ⟨1, 50⟩)).column.toNat = 3 ∧
      (pieces '\n' "é\r\nb\n".toList)[9 - 1]? = none ∧ toOffset "é\r\nb\n" ⟨9, 1⟩ = 6 := by
  obtain ⟨hback, hascending, hany⟩ := offsets_and_positions_correspond "é\r\nb\n"
  have hline : (pieces '\n' "é\r\nb\n".toList)[1 - 1]? = some ['é', '\r'] := by decide
  have hnone : (pieces '\n' "é\r\nb\n".toList)[9 - 1]? = none := by decide
  have h3 : isBoundary "é\r\nb\n".toList 3 = true := by decide
  have h6 : isBoundary "é\r\nb\n".toList 6 = true := by decide
  exact ⟨h3, h6, by decide, by decide, hback 3 h3 (by decide),
    hascending 3 6 h3 h6 (by decide) (by decide), hline, ((hany ⟨1, 50⟩).2.2.1 _ hline).2, hnone,
    (hany ⟨9, 1⟩).2.2.2 hnone⟩

/-! ## Where 32 bits are not enough

A text of line feeds alone has one line more than bytes.  With the greatest number of bytes that 32
bits hold, the line behind all of them is no longer counted: its number is zero, which stands for
the first line. -/

theorem count_replicate_lineFeed (n : Nat) :
    (String.ofList (List.replicate n '\n')).utf8ByteSize = n ∧
      isBoundary (String.ofList (List.replicate n '\n')).toList n = true ∧
      ofOffset (String.ofList (List.replicate n '\n')) n = ⟨.ofNat (1 + n), 1⟩ := by
  have hbytes : byteLength (List.replicate n '\n') = n := by
    induction n with
    | zero => rfl
    | succ n ih =>
      rw [List.replicate_succ, byteLength_cons, ih, Nat.add_comm]
      rfl
  have htext : (String.ofList (List.replicate n '\n')).toList =
      List.replicate n '\n' ++ ([] ++ []) := by
    rw [String.toList_ofList, List.append_nil, List.append_nil]
  have hlines : List.replicate n '\n' = [] ∨ (List.replicate n '\n').getLast? = some '\n' := by
    cases n with
    | zero => exact .inl rfl
    | succ n => exact .inr (by simp [List.getLast?_replicate])
  refine ⟨by rw [← byteLength_toList, String.toList_ofList, hbytes], ?_, ?_⟩
  · have hend := isBoundary_append (List.replicate n '\n') []
    rwa [hbytes, List.append_nil, ← String.toList_ofList (l := List.replicate n '\n')] at hend
  · have hoffset := ofOffset_append htext List.not_mem_nil hlines
    rwa [List.append_nil, hbytes, List.count_replicate_self] at hoffset

/-- **Behind the last of as many line feeds as 32 bits hold, the line wraps around.**  The position
of the end of the text leads back to its front. -/
theorem position_behind_last_line_wraps :
    (String.ofList (List.replicate (UInt32.size - 1) '\n')).utf8ByteSize < UInt32.size ∧
      isBoundary (String.ofList (List.replicate (UInt32.size - 1) '\n')).toList
        (UInt32.size - 1) = true ∧
      ofOffset (String.ofList (List.replicate (UInt32.size - 1) '\n')) (UInt32.size - 1) = ⟨0, 1⟩ ∧
      toOffset (String.ofList (List.replicate (UInt32.size - 1) '\n'))
        (ofOffset (String.ofList (List.replicate (UInt32.size - 1) '\n')) (UInt32.size - 1)) = 0 := by
  obtain ⟨hbytes, hseam, hend⟩ := count_replicate_lineFeed (UInt32.size - 1)
  have hwrap : UInt32.ofNat (1 + (UInt32.size - 1)) = 0 := by decide
  have hback (content : String) : toOffset content ⟨0, 1⟩ = 0 := by
    simp [toOffset, afterLineFeeds, columnOffset]
  rw [hwrap] at hend
  rw [hend, hbytes, hback]
  exact ⟨by decide, hseam, rfl, rfl⟩

end CodeMend.Position
