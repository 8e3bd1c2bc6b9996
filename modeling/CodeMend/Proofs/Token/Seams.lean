import CodeMend.Proofs.Token.Literals

/-!
# CodeMend — seams

Blanks, line breaks, the marks around the items of a list and the slash that starts a comment carry
no token on.  Where such a character follows a token, or the end of the text, the token has been
read without what comes behind that seam, and it stays as it is when another text takes its place;
only behind a lone slash no other slash may come.

* **`Seam`**, **`Cut`** — texts that begin at a seam, and two such texts that may take each other's
  place.
* **`Seam.decimal_append`** and so on — a number or a name ends at a seam as at the end of the text.
* **`Cut.scanToken_append`** — a token in front of a seam stays as it is.
* **`Agree`** — two texts that are the same up to a seam.
-/

namespace CodeMend

open Lexer Literal

variable {u x y cs : List Char} {c : Char} {n : Nat} {p : Char → Bool}

/-! ## Seams

A seam is a place in a text where any token ends.  There are few characters that such a place may
begin with, and they are checked against each scanner. -/

/-- The characters that carry no token on: blanks, line breaks, marks around items of a list, and
what starts a comment. -/
def seamChars : List Char :=
  [' ', '\t', '\x0b', '\x0c', '\u00a0', '\ufeff', '\n', '\r', '(', ')', ',', ':', ']', '/']

/-- The text is at its end or starts with a character that carries no token on. -/
def Seam (cs : List Char) : Prop := ∀ c ∈ cs.head?, c ∈ seamChars

theorem mem_seamChars_of_isSpace {c : Char} (h : isSpace c = true) : c ∈ seamChars := by
  have hofNat : ∀ m : Char, c.toNat = m.toNat → c = m := fun m hm => Char.toNat_inj.mp hm
  simp only [isSpace, Bool.or_eq_true, decide_eq_true_eq] at h
  rcases h with ((((rfl | rfl) | h) | h) | h) | h
  · decide
  · decide
  · rw [hofNat '\x0b' h]; decide
  · rw [hofNat '\x0c' h]; decide
  · rw [hofNat '\ufeff' h]; decide
  · rw [hofNat '\u00a0' h]; decide

theorem mem_seamChars_of_isLineBreak {c : Char} (h : isLineBreak c = true) : c ∈ seamChars := by
  simp only [isLineBreak, Bool.or_eq_true, decide_eq_true_eq] at h
  rcases h with rfl | rfl <;> decide

/-- A condition that every item of a list passes, item by item. -/
theorem forall_mem_of_all {α : Type} {l : List α} {q : α → Prop} [DecidablePred q]
    (h : (l.all fun a => decide (q a)) = true) : ∀ a ∈ l, q a :=
  fun a ha => of_decide_eq_true (List.all_eq_true.mp h a ha)

/-- No character of a seam satisfies the condition. -/
def EndsAtSeams (p : Char → Bool) : Prop := ∀ c ∈ seamChars, p c = false

-- Only the characters of the list are tried; there are instances that would try all there are.
instance : Decidable (EndsAtSeams p) := List.decidableBAll (fun c => p c = false) seamChars

theorem endsAtSeams_isDigit : EndsAtSeams Char.isDigit := by decide

theorem endsAtSeams_isDigitOrBar : EndsAtSeams isDigitOrBar := by decide

/-- The first character behind a text is no other than a seam allows. -/
theorem Seam.head?_ne (hx : Seam x) (hc : c ∉ seamChars) : x.head? ≠ some c :=
  fun h => hc (hx c h)

theorem Seam.head?_append_iff (hx : Seam x) (hc : c ∉ seamChars) :
    (u ++ x).head? = some c ↔ u.head? = some c := by
  cases u with
  | nil => simpa using hx.head?_ne hc
  | cons d u => rfl

theorem Seam.countWhile_append (hx : Seam x) (hp : EndsAtSeams p) :
    countWhile p (u ++ x) = countWhile p u := by
  induction u with
  | nil =>
    cases x with
    | nil => rfl
    | cons d x => simp [countWhile, hp d (hx d rfl)]
  | cons d u ih => simp only [List.cons_append, countWhile, ih]

theorem countWhile_le (p : Char → Bool) (cs : List Char) : countWhile p cs ≤ cs.length := by
  induction cs with
  | nil => exact Nat.le_refl 0
  | cons c cs ih =>
    unfold countWhile
    split
    · exact Nat.succ_le_succ ih
    · exact Nat.zero_le _

theorem Seam.take (hx : Seam x) (n : Nat) : Seam (x.take n) := by
  intro c hc
  cases n with
  | zero => simp at hc
  | succ n =>
    cases x with
    | nil => simp at hc
    | cons d x => exact hx c (by simpa using hc)

theorem Seam.suffix_append (hx : Seam x) (hp : EndsAtSeams p) (limit : Nat) :
    suffix limit p (u ++ x) = suffix limit p u := by
  unfold suffix
  rw [List.take_append, (hx.take _).countWhile_append hp]

/-- What the first character behind the front is asked for. -/
theorem Seam.any_head?_append (hx : Seam x) (hp : EndsAtSeams p) :
    (u ++ x).head?.any p = u.head?.any p := by
  cases u with
  | cons d u => rfl
  | nil =>
    cases x with
    | nil => rfl
    | cons d x => simpa using hp d (hx d rfl)

/-! ## Numbers and names

These scanners take characters of a sort, none of which begins a seam. -/

theorem fraction_of_head?_ne (h : cs.head? ≠ some '.') : fraction cs = 0 := by
  unfold fraction
  split
  · exact absurd rfl h
  · rfl

theorem Seam.fraction_append (hx : Seam x) : fraction (u ++ x) = fraction u := by
  by_cases hu : u.head? = some '.'
  · obtain ⟨v, rfl⟩ := List.head?_eq_some_iff.mp hu
    simp only [fraction, List.cons_append, hx.countWhile_append endsAtSeams_isDigitOrBar]
  · have hux : (u ++ x).head? ≠ some '.' := by rwa [ne_eq, hx.head?_append_iff (by decide)]
    rw [fraction_of_head?_ne hu, fraction_of_head?_ne hux]

theorem fraction_le (cs : List Char) : fraction cs ≤ cs.length := by
  unfold fraction
  split
  next rest =>
    have := countWhile_le isDigitOrBar rest
    simp only [List.length_cons]
    split <;> omega
  next => exact Nat.zero_le _

/-- A power of ten after its letter and its sign. -/
theorem exponent_cons_cons (e s : Char) (cs : List Char) :
    exponent (e :: s :: cs) =
      if e = 'e' || e = 'E' then
        let sign := if s = '+' || s = '-' then 1 else 0
        let n := countWhile isDigitOrBar ((s :: cs).drop sign)
        if n = 0 then 0 else 1 + sign + n
      else 0 := by
  simp [exponent]

theorem Seam.exponent_append (hx : Seam x) : exponent (u ++ x) = exponent u := by
  have hne : ∀ {d : Char} {x'}, x = d :: x' → ∀ m ∉ seamChars, d ≠ m := by
    rintro d x' rfl m hm heq
    exact hx.head?_ne hm (congrArg some heq)
  match u with
  | [] =>
    cases hx' : x with
    | nil => rfl
    | cons d x' => simp [exponent, hne hx' 'e' (by decide), hne hx' 'E' (by decide)]
  | [e] =>
    cases hx' : x with
    | nil => rfl
    | cons d x' =>
      have hd : isDigitOrBar d = false := endsAtSeams_isDigitOrBar d (hx d (by rw [hx']; rfl))
      simp [exponent, hne hx' '+' (by decide), hne hx' '-' (by decide), countWhile, hd]
  | e :: s :: v =>
    have hdrop : ∀ sign ≤ 1, (s :: (v ++ x)).drop sign = (s :: v).drop sign ++ x := by
      intro sign hsign
      have hle : sign ≤ (s :: v).length := Nat.le_trans hsign (Nat.le_add_left 1 _)
      exact List.drop_append_of_le_length hle
    simp only [List.cons_append, exponent_cons_cons]
    rw [hdrop _ (by split <;> omega), hx.countWhile_append endsAtSeams_isDigitOrBar]

theorem exponent_le (cs : List Char) : exponent cs ≤ cs.length := by
  match cs with
  | [] => exact Nat.le_refl 0
  | [e] => simp [exponent, countWhile]
  | e :: s :: v =>
    have hle := countWhile_le isDigitOrBar ((s :: v).drop (if s = '+' || s = '-' then 1 else 0))
    rw [List.length_drop] at hle
    rw [exponent_cons_cons]
    grind

theorem Seam.decimal_append (hx : Seam x) : decimal (u ++ x) = decimal u := by
  have hsuffix : EndsAtSeams fun c => isIntegerSuffix c || isRealSuffix c := by decide
  -- each part is scanned behind the parts before it, which lie within the front
  unfold decimal
  dsimp only
  rw [hx.countWhile_append endsAtSeams_isDigitOrBar]
  have hwhole := countWhile_le isDigitOrBar u
  generalize countWhile isDigitOrBar u = whole at hwhole ⊢
  rw [List.drop_append_of_le_length hwhole, hx.fraction_append]
  have hpart := fraction_le (u.drop whole)
  rw [List.length_drop] at hpart
  generalize fraction (u.drop whole) = part at hpart ⊢
  have hfront : whole + part ≤ u.length := by omega
  rw [List.drop_append_of_le_length hfront, hx.exponent_append]
  have hpower := exponent_le (u.drop (whole + part))
  rw [List.length_drop] at hpower
  generalize exponent (u.drop (whole + part)) = power at hpower ⊢
  have hall : whole + part + power ≤ u.length := by omega
  rw [List.drop_append_of_le_length hall, hx.suffix_append hsuffix]

theorem Seam.pointDecimal_append (hx : Seam x) : pointDecimal (u ++ x) = pointDecimal u := by
  have hsuffix : EndsAtSeams isRealSuffix := by decide
  unfold pointDecimal
  dsimp only
  rw [hx.countWhile_append endsAtSeams_isDigitOrBar]
  have hpart := countWhile_le isDigitOrBar u
  generalize countWhile isDigitOrBar u = part at hpart ⊢
  rw [List.drop_append_of_le_length hpart, hx.exponent_append]
  have hpower := exponent_le (u.drop part)
  rw [List.length_drop] at hpower
  generalize exponent (u.drop part) = power at hpower ⊢
  have hall : part + power ≤ u.length := by omega
  rw [List.drop_append_of_le_length hall, hx.suffix_append hsuffix]

theorem prefixed?_cons (c : Char) (cs : List Char) :
    prefixed? (c :: cs) =
      let n :=
        if c = 'x' || c = 'X' then countWhile isHexOrBar cs
        else if c = 'b' || c = 'B' then countWhile isBinaryOrBar cs
        else 0
      if n = 0 then none else some (1 + n + suffix 2 isIntegerSuffix (cs.drop n)) := rfl

theorem Seam.prefixed?_append (hx : Seam x) : prefixed? (u ++ x) = prefixed? u := by
  have hhex : EndsAtSeams isHexOrBar := by decide
  have hbinary : EndsAtSeams isBinaryOrBar := by decide
  have hsuffix : EndsAtSeams isIntegerSuffix := by decide
  cases u with
  | nil =>
    cases x with
    | nil => rfl
    | cons d x =>
      have hd : ∀ m ∉ seamChars, d ≠ m := fun m hm heq => hx.head?_ne hm (congrArg some heq)
      simp [prefixed?, hd 'x' (by decide), hd 'X' (by decide), hd 'b' (by decide),
        hd 'B' (by decide)]
  | cons d u =>
    rw [List.cons_append, prefixed?_cons, prefixed?_cons, hx.countWhile_append hhex,
      hx.countWhile_append hbinary]
    have hle : (if (d = 'x' || d = 'X') = true then countWhile isHexOrBar u
        else if (d = 'b' || d = 'B') = true then countWhile isBinaryOrBar u
        else 0) ≤ u.length := by
      split
      · exact countWhile_le _ _
      · split
        · exact countWhile_le _ _
        · exact Nat.zero_le _
    dsimp only
    rw [List.drop_append_of_le_length hle, hx.suffix_append hsuffix]

theorem Seam.name?_append (hx : Seam x) : name? c (u ++ x) = name? c u := by
  have hpart : EndsAtSeams isNamePart := by decide +kernel
  have hstart : EndsAtSeams isNameStart := by decide +kernel
  cases u with
  | nil =>
    have hcount := hx.countWhile_append (u := []) hpart
    cases x with
    | nil => rfl
    | cons d x =>
      simp only [List.nil_append] at hcount
      simp [name?, hstart d (hx d rfl), hcount]
  | cons d u =>
    have hcount := hx.countWhile_append (u := d :: u) hpart
    rw [List.cons_append] at hcount ⊢
    simp only [name?, hx.countWhile_append hpart, hcount]

theorem suffix_le (limit : Nat) (p : Char → Bool) (cs : List Char) :
    suffix limit p cs ≤ cs.length := by
  have hle := countWhile_le p (cs.take limit)
  rw [List.length_take] at hle
  exact Nat.le_trans hle (Nat.min_le_right _ _)

theorem decimal_le (cs : List Char) : decimal cs ≤ cs.length := by
  unfold decimal
  dsimp only
  have hwhole := countWhile_le isDigitOrBar cs
  generalize countWhile isDigitOrBar cs = whole at hwhole ⊢
  have hpart := fraction_le (cs.drop whole)
  rw [List.length_drop] at hpart
  generalize fraction (cs.drop whole) = part at hpart ⊢
  have hpower := exponent_le (cs.drop (whole + part))
  rw [List.length_drop] at hpower
  generalize exponent (cs.drop (whole + part)) = power at hpower ⊢
  have hlast := suffix_le 2 (fun c => isIntegerSuffix c || isRealSuffix c)
    (cs.drop (whole + part + power))
  rw [List.length_drop] at hlast
  omega

theorem pointDecimal_le (cs : List Char) : pointDecimal cs ≤ cs.length := by
  unfold pointDecimal
  dsimp only
  have hpart := countWhile_le isDigitOrBar cs
  generalize countWhile isDigitOrBar cs = part at hpart ⊢
  have hpower := exponent_le (cs.drop part)
  rw [List.length_drop] at hpower
  generalize exponent (cs.drop part) = power at hpower ⊢
  have hlast := suffix_le 1 isRealSuffix (cs.drop (part + power))
  rw [List.length_drop] at hlast
  omega

theorem prefixed?_le (h : prefixed? cs = some n) : n ≤ cs.length := by
  cases cs with
  | nil => cases h
  | cons d cs =>
    have hhex := countWhile_le isHexOrBar cs
    have hbinary := countWhile_le isBinaryOrBar cs
    have hlast := fun m => suffix_le 2 isIntegerSuffix (cs.drop m)
    simp only [List.length_drop] at hlast
    rw [prefixed?_cons] at h
    grind

theorem name?_le (h : name? c cs = some n) : n ≤ cs.length := by
  have hcount := countWhile_le isNamePart
  unfold name? at h
  grind

/-! ## Cuts

The colon begins a seam, but two of them are one mark.  So a cut asks for a little more than two
seams. -/

/-- Two texts that begin at seams and may take each other's place.  A colon goes on with a colon, so
either both start with one or neither does. -/
structure Cut (x y : List Char) : Prop where
  left : Seam x
  right : Seam y
  colon : x.head? = some ':' ↔ y.head? = some ':'

theorem Cut.head?_append_iff (h : Cut x y) (hc : c ∉ seamChars ∨ c = ':') :
    (u ++ x).head? = some c ↔ (u ++ y).head? = some c := by
  cases u with
  | cons d u => rfl
  | nil =>
    rcases hc with hc | rfl
    · simp [h.left.head?_ne hc, h.right.head?_ne hc]
    · exact h.colon

/-- A text without the characters of seams does not reach behind one. -/
theorem Seam.isPrefixOf_append (hx : Seam x) (hy : Seam y) {m : List Char}
    (hm : ∀ d ∈ m, d ∉ seamChars) : m.isPrefixOf (u ++ x) = m.isPrefixOf (u ++ y) := by
  have hnot : ∀ {d m z}, d ∉ seamChars → Seam z → (d :: m).isPrefixOf z = false := by
    intro d m z hd hz
    cases z with
    | nil => rfl
    | cons e z =>
      have hne : d ≠ e := fun heq => hd (heq ▸ hz e rfl)
      simp [List.isPrefixOf, hne]
  induction m generalizing u with
  | nil => rfl
  | cons d m ih =>
    cases u with
    | nil =>
      have hd := hm d List.mem_cons_self
      rw [List.nil_append, List.nil_append, hnot hd hx, hnot hd hy]
    | cons e u =>
      have hrest : m.isPrefixOf (u ++ x) = m.isPrefixOf (u ++ y) :=
        ih fun d hd => hm d (List.mem_cons_of_mem _ hd)
      simp only [List.cons_append, List.isPrefixOf, hrest]

/-- Behind its first character, a compound mark has no seam but for a colon at its end. -/
theorem tail_of_mem_compoundMarks : ∀ m ∈ compoundMarks,
    (∀ d ∈ m.tail, d ∉ seamChars) ∨ m.tail = [':'] := by
  have hall : ∀ m ∈ compoundMarks,
      (m.tail.all fun d => decide (d ∉ seamChars)) = true ∨ m.tail = [':'] := by decide
  exact fun m hm => (hall m hm).imp_left forall_mem_of_all

theorem Cut.isPrefixOf_append (h : Cut x y) {m : List Char} (hm : m ∈ compoundMarks) :
    m.isPrefixOf (c :: (u ++ x)) = m.isPrefixOf (c :: (u ++ y)) := by
  cases m with
  | nil => rfl
  | cons d m =>
    have htail : m.isPrefixOf (u ++ x) = m.isPrefixOf (u ++ y) := by
      rcases tail_of_mem_compoundMarks _ hm with hseam | hcolon
      · exact h.left.isPrefixOf_append h.right hseam
      · obtain rfl : m = [':'] := hcolon
        have hhead : ∀ cs : List Char, [':'].isPrefixOf cs = decide (cs.head? = some ':') := by
          intro cs
          cases cs with
          | nil => rfl
          | cons e cs => simp [List.isPrefixOf, Bool.beq_eq_decide_eq, eq_comm]
        rw [hhead, hhead, decide_eq_decide]
        exact h.head?_append_iff (.inr rfl)
    simp only [List.isPrefixOf, htail]

theorem find?_congr_of_mem {α : Type} {l : List α} {p q : α → Bool} (h : ∀ a ∈ l, p a = q a) :
    l.find? p = l.find? q := by
  induction l with
  | nil => rfl
  | cons a l ih =>
    have hrest : l.find? p = l.find? q := ih fun b hb => h b (List.mem_cons_of_mem _ hb)
    rw [List.find?_cons, List.find?_cons, h a List.mem_cons_self, hrest]

/-! ## Marks, strings and tokens

Marks are found by comparison with a list, and strings end with their quote. -/

/-- A question mark takes a point along that no digit follows. -/
theorem mark?_eq (c : Char) (cs : List Char) :
    mark? c cs =
      if c = '?' ∧ cs.head? = some '.' ∧ cs.tail.head?.any Char.isDigit = false then some 1
      else
        match compoundMarks.find? fun m => m.isPrefixOf (c :: cs) with
        | some m => some (m.length - 1)
        | none => if singleMarks.contains c then some 0 else none := by
  unfold mark?
  match cs with
  | [] => simp <;> rfl
  | [d] => simp <;> rfl
  | d :: e :: cs =>
    by_cases hd : d = '.'
    · subst hd
      simp <;> rfl
    · simp [hd] <;> rfl

theorem mark?_le (h : mark? c cs = some n) : n ≤ cs.length := by
  rw [mark?_eq] at h
  split at h
  next hpoint =>
    obtain ⟨v, rfl⟩ := List.head?_eq_some_iff.mp hpoint.2.1
    grind
  split at h
  next m hm =>
    have hprefix : m.isPrefixOf (c :: cs) = true := by simpa using List.find?_some hm
    have hle := (List.isPrefixOf_iff_prefix.mp hprefix).length_le
    grind
  next => grind

theorem Cut.mark?_append (h : Cut x y) : mark? c (u ++ x) = mark? c (u ++ y) := by
  have hfind : (compoundMarks.find? fun m => m.isPrefixOf (c :: (u ++ x))) =
      compoundMarks.find? fun m => m.isPrefixOf (c :: (u ++ y)) :=
    find?_congr_of_mem fun m hm => h.isPrefixOf_append hm
  rw [mark?_eq, mark?_eq, hfind]
  cases u with
  | nil =>
    have hx := h.left.head?_ne (c := '.') (by decide)
    have hy := h.right.head?_ne (c := '.') (by decide)
    simp only [List.nil_append, hx, hy, false_and, and_false]
  | cons d u =>
    have hdigit : (u ++ x).head?.any Char.isDigit = (u ++ y).head?.any Char.isDigit := by
      rw [h.left.any_head?_append endsAtSeams_isDigit, h.right.any_head?_append endsAtSeams_isDigit]
    simp only [List.cons_append, List.head?_cons, List.tail_cons, hdigit] <;> rfl

/-- Where the opening of a string lies within the front, so it does with another text behind. -/
theorem opening?_append {k : Nat} {v i : Bool} {body : List Char}
    (h : opening? c (u ++ x) = some (k, v, i, body)) (hk : k ≤ u.length) :
    body = u.drop k ++ x ∧ ∀ y, opening? c (u ++ y) = some (k, v, i, u.drop k ++ y) := by
  have hu : ∀ front : List Char, front.length = k → ∀ {rest}, u ++ x = front ++ rest →
      ∃ v, u = front ++ v ∧ rest = v ++ x := by
    intro front hlength rest heq
    obtain ⟨m, rfl, hrest⟩ | ⟨m, rfl, hrest⟩ := List.append_eq_append_iff.mp heq
    · rw [List.length_append] at hlength
      have hm : m = [] := List.eq_nil_of_length_eq_zero (by omega)
      subst hm
      exact ⟨[], by simp, by simpa using hrest.symm⟩
    · exact ⟨m, rfl, hrest⟩
  unfold opening? at h
  split at h
  next b heq =>
    cases h
    obtain ⟨v, rfl, rfl⟩ := hu ['@', '"'] rfl heq
    exact ⟨rfl, fun y => rfl⟩
  next b heq =>
    cases h
    obtain ⟨v, rfl, rfl⟩ := hu ['$', '"'] rfl heq
    exact ⟨rfl, fun y => rfl⟩
  next b heq =>
    cases h
    obtain ⟨v, rfl, rfl⟩ := hu ['"'] rfl heq
    exact ⟨rfl, fun y => rfl⟩
  next b heq =>
    cases h
    obtain ⟨v, rfl, rfl⟩ := hu ['"'] rfl heq
    exact ⟨rfl, fun y => rfl⟩
  next b heq =>
    cases h
    exact ⟨rfl, fun y => rfl⟩
  next => cases h

theorem Cut.string_append (h : Cut x y) (hstring : Literal.string c (u ++ x) = some n)
    (hn : n ≤ u.length) : Literal.string c (u ++ y) = some n := by
  have hquote := h.right.head?_ne (c := '"') (by decide)
  rw [string_eq] at hstring ⊢
  obtain ⟨⟨k, v, i, body⟩, hopening, hbody⟩ := Option.bind_eq_some_iff.mp hstring
  obtain ⟨m, hm, rfl⟩ := Option.map_eq_some_iff.mp hbody
  have hk : k ≤ u.length := Nat.le_trans (Nat.le_add_left k m) hn
  obtain ⟨rfl, hopening'⟩ := opening?_append hopening hk
  have hdrop : m ≤ (u.drop k).length := by
    rw [List.length_drop]
    omega
  have hbody' := settled_quotedBody v i (u.drop k) x y m hm hdrop hquote
  rw [hopening' y, Option.bind_some]
  show (quotedBody v i (u.drop k ++ y)).map (· + k) = some (m + k)
  rw [hbody']
  rfl

theorem string_le (h : Literal.string c cs = some n) : n ≤ cs.length := by
  have hmap : ∀ {o : Option Nat} {k l : Nat}, (∀ m, o = some m → m ≤ l) →
      o.map (· + k) = some n → n ≤ l + k := by
    intro o k l hle h
    obtain ⟨m, hm, rfl⟩ := Option.map_eq_some_iff.mp h
    exact Nat.add_le_add_right (hle m hm) k
  unfold Literal.string at h
  split at h
  · exact hmap (k := 2) (fun _ => interpolatedBody_le) h
  · exact hmap (k := 2) (fun _ => interpolatedBody_le) h
  · exact hmap (fun _ => interpolatedBody_le) h
  · exact hmap (fun _ => verbatimBody_le) h
  · exact plainBody_le h
  · cases h

/-- A token takes no more characters than there are. -/
theorem length_le_of_scanToken {kind : TokenKind} (h : scanToken c cs = .ok (kind, n)) :
    n ≤ cs.length := by
  unfold scanToken at h
  split at h
  · split at h
    next m hm =>
      obtain ⟨-, rfl⟩ := Prod.mk.inj (Except.ok.inj h)
      exact string_le hm
    next => cases h
  split at h
  · split at h
    next m hm =>
      obtain ⟨-, rfl⟩ := Prod.mk.inj (Except.ok.inj h)
      exact characterBody_le hm
    next => cases h
  split at h
  · split at h
    next m hm =>
      obtain ⟨-, rfl⟩ := Prod.mk.inj (Except.ok.inj h)
      split at hm
      · exact prefixed?_le hm
      · cases hm
    next =>
      obtain ⟨-, rfl⟩ := Prod.mk.inj (Except.ok.inj h)
      exact decimal_le cs
  split at h
  · obtain ⟨-, rfl⟩ := Prod.mk.inj (Except.ok.inj h)
    exact pointDecimal_le cs
  split at h
  next m hm =>
    obtain ⟨-, rfl⟩ := Prod.mk.inj (Except.ok.inj h)
    exact name?_le hm
  next =>
    split at h
    next m hm =>
      obtain ⟨-, rfl⟩ := Prod.mk.inj (Except.ok.inj h)
      exact mark?_le hm
    next => cases h

/-- **A token that ends before a cut stays as it is.** -/
theorem Cut.scanToken_append {kind : TokenKind} (h : Cut x y)
    (hscan : scanToken c (u ++ x) = .ok (kind, n)) (hn : n ≤ u.length) :
    scanToken c (u ++ y) = .ok (kind, n) := by
  have hhead : ∀ d ∉ seamChars, (u ++ x).head? = some d ↔ (u ++ y).head? = some d :=
    fun d hd => h.head?_append_iff (.inl hd)
  have htake : ∀ z : List Char, (u ++ z).take n = u.take n :=
    fun z => List.take_append_of_le_length hn
  have hquote := h.right.head?_ne (c := '"') (by decide)
  have hdigit : (u ++ x).head?.any Char.isDigit = (u ++ y).head?.any Char.isDigit := by
    rw [h.left.any_head?_append endsAtSeams_isDigit, h.right.any_head?_append endsAtSeams_isDigit]
  unfold scanToken at hscan ⊢
  -- every test of the scanner gives the same in front of either rest
  simp only [hhead '"' (by decide), hhead '$' (by decide)] at hscan
  split at hscan
  next hc =>
    rw [if_pos hc]
    split at hscan
    next m hm =>
      obtain ⟨rfl, rfl⟩ := Prod.mk.inj (Except.ok.inj hscan)
      rw [h.string_append hm hn]
    next => cases hscan
  next hc =>
  rw [if_neg hc]
  split at hscan
  next hc =>
    rw [if_pos hc]
    split at hscan
    next m hm =>
      obtain ⟨rfl, rfl⟩ := Prod.mk.inj (Except.ok.inj hscan)
      rw [settled_characterBody true u x y m hm hn hquote]
    next => cases hscan
  next hc =>
  rw [if_neg hc]
  rw [h.left.prefixed?_append, h.left.decimal_append, h.left.pointDecimal_append,
    h.left.name?_append, h.mark?_append, hdigit] at hscan
  rw [h.right.prefixed?_append, h.right.decimal_append, h.right.pointDecimal_append,
    h.right.name?_append]
  split at hscan
  next hc =>
    rw [if_pos hc]
    split at hscan
    next => exact hscan
    next =>
      obtain ⟨rfl, rfl⟩ := Prod.mk.inj (Except.ok.inj hscan)
      simp only [htake]
  next hc =>
  rw [if_neg hc]
  split at hscan
  next hc => rw [if_pos hc]; exact hscan
  next hc =>
  rw [if_neg hc]
  split at hscan
  next =>
    obtain ⟨rfl, rfl⟩ := Prod.mk.inj (Except.ok.inj hscan)
    simp only [textOf, htake]
  next => exact hscan

/-! ## Texts that agree up to a seam

A slash is the other case in which what follows matters, since it may begin a comment. -/

/-- The texts are the same, or they are the same up to a cut and start with a slash both or
neither. -/
def Agree (x y : List Char) : Prop :=
  x = y ∨ (x.head? = some '/' ↔ y.head? = some '/') ∧
    ∃ v x' y', x = v ++ x' ∧ y = v ++ y' ∧ Cut x' y'

namespace Agree

theorem refl (x : List Char) : Agree x x := .inl rfl

theorem of_cut (h : Cut x y) (hslash : x.head? = some '/' ↔ y.head? = some '/') : Agree x y :=
  .inr ⟨hslash, [], x, y, rfl, rfl, h⟩

/-- Behind a first character that is the same, any cut will do. -/
theorem of_cut_cons (h : Cut x y) (c : Char) (u : List Char) :
    Agree (c :: (u ++ x)) (c :: (u ++ y)) :=
  .inr ⟨Iff.rfl, c :: u, x, y, rfl, rfl, h⟩

theorem append (h : Agree x y) (u : List Char) : Agree (u ++ x) (u ++ y) := by
  rcases h with rfl | ⟨hslash, v, x', y', rfl, rfl, hcut⟩
  · exact refl _
  · refine .inr ⟨?_, u ++ v, x', y', ?_, ?_, hcut⟩
    · cases u with
      | nil => exact hslash
      | cons c u => exact Iff.rfl
    · rw [List.append_assoc]
    · rw [List.append_assoc]

/-- No seam is asked for: the first character is the same, or the texts begin at seams. -/
theorem head?_append_iff (h : Agree x y) (hc : c ∉ seamChars ∨ c = '/') :
    (u ++ x).head? = some c ↔ (u ++ y).head? = some c := by
  rcases h with rfl | ⟨hslash, v, x', y', rfl, rfl, hcut⟩
  · exact Iff.rfl
  · rcases hc with hc | rfl
    · rw [← List.append_assoc, ← List.append_assoc]
      exact hcut.head?_append_iff (.inl hc)
    · cases u with
      | nil => exact hslash
      | cons d u => exact Iff.rfl

/-- **A token stays as it is when the text behind it changes behind a seam.** -/
theorem scanToken_append (h : Agree x y) {kind : TokenKind}
    (hscan : scanToken c (u ++ x) = .ok (kind, u.length)) :
    scanToken c (u ++ y) = .ok (kind, u.length) := by
  rcases h with rfl | ⟨-, v, x', y', rfl, rfl, hcut⟩
  · exact hscan
  · rw [← List.append_assoc] at hscan ⊢
    refine hcut.scanToken_append hscan ?_
    rw [List.length_append]
    exact Nat.le_add_right _ _

end Agree

end CodeMend
