import CodeMend.Proofs.Token.HolePieces
import CodeMend.Proofs.Token.Reading
import Mathlib.Data.List.TakeDrop

/-!
# CodeMend — the holes of an interpolated string

The scanner of tokens recognises the holes of an interpolated string on its way to the closing
quote and forgets them; they are found a second time in the text of the token.  Here the scanner
keeps them, and the two lists are compared.

* **`Hole`**, **`recognised`** — the holes that the scanner of tokens goes through.
* **`holesFrom_of_recognised`** — the second search finds the same, where it keeps step in each.
* **`onBoundaries_of_mem_holes`** — whatever it finds starts and ends between two characters.
* **`holes_of_token`** — both, for the string literals of a source.
* **`hidden_quote_loses_holes`** — a backslash in a verbatim string makes it lose holes.
-/

namespace CodeMend.Interpolation

open Literal Lexer

/-- A hole: the byte offset behind its opening brace and the pieces in front of its closing one. -/
structure Hole where
  start : Nat
  pieces : List Piece
deriving DecidableEq, Repr

namespace Hole

/-- The text of the expression, without alignment and format. -/
def expression (h : Hole) : List Char := textOf (Interpolation.expression 0 h.pieces)

/-- The byte range of the expression. -/
def range (h : Hole) : Nat × Nat := (h.start, h.start + byteLength h.expression)

/-- The brackets of the hole are balanced, and its literals hide no quote. -/
def isRegular (h : Hole) : Bool := balanced 0 h.pieces && h.pieces.all Piece.isRegular

end Hole

/-- The scan of the rest of an interpolated string that starts at byte `pos`: the number of
characters through its closing quote, and its holes. -/
def recognised (verbatim : Bool) (pos : Nat) : List Char → Option (Nat × List Hole)
  | [] => none
  | c :: cs =>
    if c = '\\' && !verbatim then
      (recognised verbatim (pos + 1 + byteLength (cs.take 1)) cs.tail).map (Prod.map (· + 2) id)
    else if c = '"' then
      if verbatim && cs.head? = some '"' then
        (recognised verbatim (pos + 2) cs.tail).map (Prod.map (· + 2) id)
      else some (1, [])
    else if isLineBreak c && !verbatim then none
    else if c = '\x7b' then
      if cs.head? = some '\x7b' then
        (recognised verbatim (pos + 2) cs.tail).map (Prod.map (· + 2) id)
      else do
        let ps ← holePieces 0 cs
        let (m, holes) ← recognised verbatim (pos + 1 + byteLength (cs.take (reach ps)))
          (cs.drop (reach ps))
        return (1 + reach ps + m, ⟨pos + 1, ps⟩ :: holes)
    else (recognised verbatim (pos + c.utf8Size) cs).map (Prod.map (· + 1) id)
termination_by cs => cs.length
decreasing_by all_goals (simp only [List.length_drop, List.length_tail, List.length_cons]; omega)

variable {verbatim : Bool} {c : Char} {a cs : List Char} {pos n depth : Nat} {hs : List Hole}
  {h : Hole} {r : Nat × Nat} {ps : List Piece}

theorem recognised_cons (verbatim : Bool) (pos : Nat) (c : Char) (cs : List Char) :
    recognised verbatim pos (c :: cs) =
      if c = '\\' && !verbatim then
        (recognised verbatim (pos + 1 + byteLength (cs.take 1)) cs.tail).map (Prod.map (· + 2) id)
      else if c = '"' then
        if verbatim && cs.head? = some '"' then
          (recognised verbatim (pos + 2) cs.tail).map (Prod.map (· + 2) id)
        else some (1, [])
      else if isLineBreak c && !verbatim then none
      else if c = '\x7b' then
        if cs.head? = some '\x7b' then
          (recognised verbatim (pos + 2) cs.tail).map (Prod.map (· + 2) id)
        else
          (holePieces 0 cs).bind fun ps =>
            (recognised verbatim (pos + 1 + byteLength (cs.take (reach ps)))
              (cs.drop (reach ps))).bind fun (m, hs) =>
                some (1 + reach ps + m, ⟨pos + 1, ps⟩ :: hs)
      else (recognised verbatim (pos + c.utf8Size) cs).map (Prod.map (· + 1) id) := by
  rw [recognised.eq_def]
  rfl

theorem holesFrom_cons (verbatim : Bool) (pos : Nat) (c : Char) (cs : List Char) :
    holesFrom verbatim pos (c :: cs) =
      if c = '\\' && !verbatim then
        holesFrom verbatim (pos + 1 + byteLength (cs.take 1)) cs.tail
      else if c = '"' then
        if verbatim && cs.head? = some '"' then holesFrom verbatim (pos + 2) cs.tail else []
      else if c = '\x7b' then
        if cs.head? = some '\x7b' then holesFrom verbatim (pos + 2) cs.tail
        else
          let found := holeEnd 0 none (pos + 1) cs
          let later := holesFrom verbatim (pos + 1 + byteLength (cs.take found.2)) (cs.drop found.2)
          if found.1 > pos + 1 then (pos + 1, found.1) :: later else later
      else holesFrom verbatim (pos + c.utf8Size) cs := by
  rw [holesFrom.eq_def]

/-- **It is the scan of the tokens.** -/
theorem map_fst_recognised (verbatim : Bool) (pos : Nat) (cs : List Char) :
    (recognised verbatim pos cs).map Prod.fst = interpolatedBody verbatim cs := by
  have hmap : ∀ (k : Nat) (o : Option (Nat × List Hole)),
      (o.map (Prod.map (· + k) id)).map Prod.fst = (o.map Prod.fst).map (· + k) := by
    intro k o
    cases o <;> rfl
  induction hlength : cs.length using Nat.strongRecOn generalizing cs pos with
  | ind l ih =>
  subst hlength
  cases cs with
  | nil => unfold recognised interpolatedBody; rfl
  | cons c cs =>
    have hlater : ∀ (v : List Char) (pos : Nat), v.length ≤ cs.length →
        (recognised verbatim pos v).map Prod.fst = interpolatedBody verbatim v :=
      fun v pos hv => ih _ (Nat.lt_succ_of_le hv) pos v rfl
    have htwo : ∀ k, ((recognised verbatim k cs.tail).map (Prod.map (· + 2) id)).map Prod.fst =
        (interpolatedBody verbatim cs.tail).map (· + 2) := by
      intro k
      rw [hmap, hlater _ _ (by simp)]
    -- Both scanners ask the same questions in the same order.
    rw [recognised_cons, interpolatedBody_cons]
    split
    · exact htwo _
    split
    · split
      · exact htwo _
      · rfl
    split
    · rfl
    split
    · split
      · exact htwo _
      · rw [hole_eq_map_holePieces]
        cases holePieces 0 cs with
        | none => rfl
        | some ps =>
          have hrest := hlater (cs.drop (reach ps)) (pos + 1 + byteLength (cs.take (reach ps)))
            (by simp)
          rw [Option.bind_some, Option.map_some, Option.bind_some, ← hrest]
          cases recognised verbatim _ (cs.drop (reach ps)) <;> rfl
    · rw [hmap, hlater _ _ (Nat.le_refl _)]

/-! ## One step of the scan

Both searches are followed through the body of a string side by side: at each step they take the
same characters, or both come to a hole. -/

/-- A step of the scan of the tokens from byte `pos` on, beside that of the second search: the
string is closed, or both pass over the same characters, or a hole is recognised. -/
inductive Step (verbatim : Bool) (pos : Nat) : List Char → List Hole → Prop where
  | closed (cs : List Char) (hclosed : holesFrom verbatim pos cs = []) : Step verbatim pos cs []
  | pass (a cs : List Char) (n : Nat) (hs : List Hole) (hne : a ≠ [])
      (hscan : recognised verbatim (pos + byteLength a) cs = some (n, hs))
      (hpass : holesFrom verbatim pos (a ++ cs) = holesFrom verbatim (pos + byteLength a) cs) :
      Step verbatim pos (a ++ cs) hs
  | hole (ps : List Piece) (cs : List Char) (n : Nat) (hs : List Hole)
      (hpieces : ∀ p ∈ ps, p.Closed) (hhead : (textOf ps ++ '\x7d' :: cs).head? ≠ some '\x7b')
      (hscan : recognised verbatim (pos + byteLength ('\x7b' :: (textOf ps ++ ['\x7d']))) cs =
        some (n, hs)) :
      Step verbatim pos ('\x7b' :: (textOf ps ++ '\x7d' :: cs)) (⟨pos + 1, ps⟩ :: hs)

theorem cons_eq_append (c : Char) (cs : List Char) : c :: cs = (c :: cs.take 1) ++ cs.tail := by
  cases cs <;> rfl

/-- **Every step of the scan is one of these.** -/
theorem step_of_recognised (h : recognised verbatim pos cs = some (n, hs)) :
    Step verbatim pos cs hs := by
  have hsearch := holesFrom_cons verbatim pos
  cases cs with
  | nil =>
    unfold recognised at h
    cases h
  | cons c cs =>
    -- what takes two characters along does so in both
    have hpair : ∀ {k}, k = pos + byteLength (c :: cs.take 1) →
        (recognised verbatim k cs.tail).map (Prod.map (· + 2) id) = some (n, hs) →
        holesFrom verbatim pos (c :: cs) = holesFrom verbatim k cs.tail →
        Step verbatim pos (c :: cs) hs := by
      rintro k rfl h hpass
      obtain ⟨⟨m, hs⟩, hscan, heq⟩ := Option.map_eq_some_iff.mp h
      cases heq
      rw [cons_eq_append c cs] at hpass ⊢
      exact .pass _ _ m _ (List.cons_ne_nil _ _) hscan hpass
    have hmarks : ∀ {d e : Char}, c = d → d.utf8Size = 1 → cs.head? = some e → e.utf8Size = 1 →
        pos + 2 = pos + byteLength (c :: cs.take 1) := by
      rintro d e rfl hd he hsize
      obtain ⟨rest, rfl⟩ := List.head?_eq_some_iff.mp he
      simp [byteLength, hd, hsize]
    rw [recognised_cons] at h
    have hsearch := holesFrom_cons verbatim pos c cs
    split at h
    next hslash =>
      obtain ⟨rfl, -⟩ : c = '\\' ∧ verbatim = false := by simpa using hslash
      rw [if_pos hslash] at hsearch
      exact hpair (Nat.add_assoc ..) h hsearch
    next hslash =>
    rw [if_neg hslash] at hsearch
    split at h
    next hquote =>
      rw [if_pos hquote] at hsearch
      split at h
      next hdouble =>
        rw [if_pos hdouble] at hsearch
        obtain ⟨-, hhead⟩ : verbatim = true ∧ cs.head? = some '"' := by simpa using hdouble
        exact hpair (hmarks hquote rfl hhead rfl) h hsearch
      next hdouble =>
        rw [if_neg hdouble] at hsearch
        cases h
        exact .closed _ hsearch
    next hquote =>
    rw [if_neg hquote] at hsearch
    split at h
    · cases h
    split at h
    next hbrace =>
      rw [if_pos hbrace] at hsearch
      split at h
      next hdouble =>
        rw [if_pos hdouble] at hsearch
        exact hpair (hmarks hbrace rfl hdouble rfl) h hsearch
      next hdouble =>
        obtain ⟨ps, hps, h⟩ := Option.bind_eq_some_iff.mp h
        obtain ⟨⟨m, later⟩, hscan, h⟩ := Option.bind_eq_some_iff.mp h
        cases h
        obtain ⟨⟨rest, rfl⟩, hclosed⟩ := made_of_holePieces hps
        subst hbrace
        have hreach : reach ps = (textOf ps ++ ['\x7d']).length := by simp [reach]
        have hsplit : textOf ps ++ '\x7d' :: rest = (textOf ps ++ ['\x7d']) ++ rest := by simp
        rw [hreach, hsplit, List.take_left, List.drop_left, Nat.add_assoc pos] at hscan
        exact .hole ps rest m later hclosed hdouble hscan
    next hbrace =>
      rw [if_neg hbrace] at hsearch
      obtain ⟨⟨m, hs⟩, hscan, heq⟩ := Option.map_eq_some_iff.mp h
      cases heq
      exact .pass [c] cs m _ (List.cons_ne_nil _ _) hscan hsearch

/-! ## Where a hole stands

A hole is told by its offset and its pieces, and its text is found there. -/

/-- The hole with its braces stands in a text that starts at byte `pos`. -/
def Stands (pos : Nat) (cs : List Char) (h : Hole) : Prop :=
  ∃ front rest, cs = front ++ '\x7b' :: (textOf h.pieces ++ '\x7d' :: rest) ∧
    h.start = pos + byteLength front + 1

theorem Stands.append (hstands : Stands (pos + byteLength a) cs h) : Stands pos (a ++ cs) h := by
  obtain ⟨front, rest, rfl, hstart⟩ := hstands
  refine ⟨a ++ front, rest, by rw [List.append_assoc], ?_⟩
  rw [hstart, byteLength_append, Nat.add_assoc pos]

/-- **Every hole that the scanner recognises stands in the text.** -/
theorem stands_of_recognised (hscan : recognised verbatim pos cs = some (n, hs)) (hh : h ∈ hs) :
    Stands pos cs h := by
  induction hlength : cs.length using Nat.strongRecOn generalizing cs pos n hs with
  | ind l ih =>
  subst hlength
  cases step_of_recognised hscan with
  | closed => cases hh
  | pass a cs m hs hne hlater =>
    have hlt := List.length_pos_of_ne_nil hne
    exact (ih cs.length (by rw [List.length_append]; omega) hlater hh rfl).append
  | hole ps cs m hs _ _ hlater =>
    rcases List.mem_cons.mp hh with rfl | hh
    · exact ⟨[], cs, rfl, rfl⟩
    · have hstands := (ih cs.length (by simp; omega) hlater hh rfl).append
      simpa using hstands

/-! ## The second search

If all holes are regular, the two searches never part. -/

theorem forall_isRegular_cons (h : ∀ hole ∈ ⟨pos, ps⟩ :: hs, Hole.isRegular hole = true) :
    (balanced 0 ps = true ∧ ∀ p ∈ ps, p.isRegular = true) ∧
      ∀ hole ∈ hs, Hole.isRegular hole = true := by
  obtain ⟨hps, hhs⟩ := List.forall_mem_cons.mp h
  simp only [Hole.isRegular, Bool.and_eq_true, List.all_eq_true] at hps
  exact ⟨hps, hhs⟩

/-- **The second search finds the expressions of the holes that the scanner recognises**, those
that are empty left out. -/
theorem holesFrom_of_recognised (hscan : recognised verbatim pos cs = some (n, hs))
    (hregular : ∀ h ∈ hs, h.isRegular = true) :
    holesFrom verbatim pos cs = (hs.filter (·.expression ≠ [])).map Hole.range := by
  induction hlength : cs.length using Nat.strongRecOn generalizing cs pos n hs with
  | ind l ih =>
  subst hlength
  cases step_of_recognised hscan with
  | closed _ hclosed => exact hclosed
  | pass a cs m hs hne hlater hpass =>
    have hlt := List.length_pos_of_ne_nil hne
    exact hpass.trans (ih cs.length (by rw [List.length_append]; omega) hlater hregular rfl)
  | hole ps cs m hs hclosed hhead hlater =>
    obtain ⟨⟨hbalanced, hps⟩, hregular⟩ := forall_isRegular_cons hregular
    have hwalk := holeEnd_pieces (pos + 1) cs
      (fun p hp => ⟨hclosed p hp, hps p hp⟩) hbalanced
    have hrest := ih cs.length (by simp; omega) hlater hregular rfl
    have hsplit : textOf ps ++ '\x7d' :: cs = (textOf ps ++ ['\x7d']) ++ cs := by simp
    have hreach : reach ps = (textOf ps ++ ['\x7d']).length := by simp [reach]
    have hrest' : holesFrom verbatim (pos + 1 + byteLength ((textOf ps ++ '\x7d' :: cs).take (reach ps)))
        ((textOf ps ++ '\x7d' :: cs).drop (reach ps)) =
          (hs.filter (·.expression ≠ [])).map Hole.range := by
      rw [hreach, hsplit, List.take_left, List.drop_left, Nat.add_assoc pos]
      exact hrest
    have hempty : pos + 1 + byteLength (textOf (expression 0 ps)) > pos + 1 ↔
        Hole.expression ⟨pos + 1, ps⟩ ≠ [] := by
      have hzero : byteLength (textOf (expression 0 ps)) = 0 ↔ textOf (expression 0 ps) = [] :=
        byteLength_eq_zero_iff
      show _ ↔ textOf (expression 0 ps) ≠ []
      rw [ne_eq, ← hzero]
      omega
    rw [holesFrom_cons, if_neg (by simp), if_neg (by decide), if_pos rfl, if_neg hhead]
    simp only [hwalk, hrest', hempty]
    split
    next hne => rw [List.filter_cons_of_pos (by simpa using hne)]; rfl
    next hne => rw [List.filter_cons_of_neg (by simpa using hne)]

/-! ## Boundaries of characters

Whether or not it finds the right ones, the second search cuts no character. -/

/-- The range starts and ends between two characters of a text that starts at byte `pos`. -/
def OnBoundaries (pos : Nat) (cs : List Char) (r : Nat × Nat) : Prop :=
  ∃ front middle rest, cs = front ++ (middle ++ rest) ∧
    r = (pos + byteLength front, pos + byteLength front + byteLength middle)

theorem OnBoundaries.append (h : OnBoundaries (pos + byteLength a) cs r) :
    OnBoundaries pos (a ++ cs) r := by
  obtain ⟨front, middle, rest, rfl, rfl⟩ := h
  refine ⟨a ++ front, middle, rest, by rw [List.append_assoc], ?_⟩
  rw [byteLength_append, Nat.add_assoc pos]

/-- The offset is the one told before, or else one between two characters. -/
def StopsAt (stop : Option Nat) (pos : Nat) (cs : List Char) (last : Nat) : Prop :=
  ∃ front rest, cs = front ++ rest ∧ last = stop.getD (pos + byteLength front)

theorem StopsAt.append {stop : Option Nat} {last : Nat}
    (h : StopsAt stop (pos + byteLength a) cs last) : StopsAt stop pos (a ++ cs) last := by
  obtain ⟨front, rest, rfl, rfl⟩ := h
  refine ⟨a ++ front, rest, by rw [List.append_assoc], ?_⟩
  rw [byteLength_append, Nat.add_assoc]

/-- The walk ends the expression in front of a character. -/
theorem stopsAt_holeEnd (depth : Nat) (stop : Option Nat) (pos : Nat) (cs : List Char) :
    StopsAt stop pos cs (holeEnd depth stop pos cs).1 := by
  induction hlength : cs.length using Nat.strongRecOn generalizing depth stop pos cs with
  | ind l ih =>
  subst hlength
  cases cs with
  | nil => exact ⟨[], [], rfl, by unfold holeEnd; rfl⟩
  | cons c cs =>
    -- Behind some characters, with the same offset told before.
    have hlater : ∀ (a v : List Char) depth, c :: cs = a ++ v → a ≠ [] →
        StopsAt stop pos (c :: cs) (holeEnd depth stop (pos + byteLength a) v).1 := by
      intro a v depth hsplit hne
      have hlt := List.length_pos_of_ne_nil hne
      rw [hsplit]
      exact (ih v.length (by rw [hsplit, List.length_append]; omega) depth stop _ v rfl).append
    have hone : ∀ depth, c.utf8Size = 1 →
        StopsAt stop pos (c :: cs) (holeEnd depth stop (pos + 1) cs).1 :=
      fun depth hsize => hsize ▸ hlater [c] cs depth rfl (List.cons_ne_nil _ _)
    rw [holeEnd_cons]
    split
    next hopen => exact hone _ (by rcases hopen with rfl | rfl | rfl <;> rfl)
    split
    next hclose => exact hone _ (by rcases hclose with rfl | rfl <;> rfl)
    split
    next hend =>
      cases depth with
      | zero => exact ⟨[], c :: cs, rfl, rfl⟩
      | succ d => exact hone d (by rw [hend]; rfl)
    split
    next hmark =>
      obtain ⟨hmark, -, rfl⟩ := hmark
      split
      next hpair =>
        obtain ⟨rfl, hhead⟩ := hpair
        obtain ⟨rest, rfl⟩ := List.head?_eq_some_iff.mp hhead
        exact hlater [':', ':'] rest depth rfl (List.cons_ne_nil _ _)
      next =>
        -- From here on this place is the offset that was told before.
        obtain ⟨front, rest, -, hlast⟩ := ih cs.length (Nat.lt_succ_self _) depth (some pos)
          (pos + 1) cs rfl
        exact ⟨[], c :: cs, rfl, hlast⟩
    split
    next hquote =>
      have hsize : c.utf8Size = 1 := by rcases hquote with rfl | rfl <;> rfl
      have hskip := hlater (c :: cs.take (quotedLength c cs)) (cs.drop (quotedLength c cs)) depth
        (by rw [List.cons_append, List.take_append_drop]) (List.cons_ne_nil _ _)
      rwa [byteLength, hsize, ← Nat.add_assoc] at hskip
    next => exact hlater [c] cs depth rfl (List.cons_ne_nil _ _)

/-- **Every range lies on boundaries of characters.** -/
theorem onBoundaries_of_mem_holesFrom (hr : r ∈ holesFrom verbatim pos cs) :
    OnBoundaries pos cs r := by
  induction hlength : cs.length using Nat.strongRecOn generalizing pos cs with
  | ind l ih =>
  subst hlength
  cases cs with
  | nil =>
    unfold holesFrom at hr
    cases hr
  | cons c cs =>
    -- Whatever the search takes is some characters, and the range lies behind them or is the hole.
    have hlater : ∀ a v : List Char, c :: cs = a ++ v → a ≠ [] →
        r ∈ holesFrom verbatim (pos + byteLength a) v → OnBoundaries pos (c :: cs) r := by
      intro a v hsplit hne hr
      have hlt := List.length_pos_of_ne_nil hne
      rw [hsplit]
      exact (ih v.length (by rw [hsplit, List.length_append]; omega) hr rfl).append
    have htwo : ∀ {d e : Char}, c = d → d.utf8Size = 1 → cs.head? = some e → e.utf8Size = 1 →
        r ∈ holesFrom verbatim (pos + 2) cs.tail → OnBoundaries pos (c :: cs) r := by
      rintro d e rfl hd he hsize hr
      obtain ⟨rest, rfl⟩ := List.head?_eq_some_iff.mp he
      refine hlater [c, e] rest rfl (List.cons_ne_nil _ _) ?_
      simpa [byteLength, hd, hsize] using hr
    rw [holesFrom_cons] at hr
    split at hr
    next hslash =>
      obtain ⟨rfl, -⟩ : c = '\\' ∧ verbatim = false := by simpa using hslash
      exact hlater _ _ (cons_eq_append '\\' cs) (List.cons_ne_nil _ _) (Nat.add_assoc pos .. ▸ hr)
    split at hr
    next hquote =>
      split at hr
      next hdouble =>
        obtain ⟨-, hhead⟩ : verbatim = true ∧ cs.head? = some '"' := by simpa using hdouble
        exact htwo hquote rfl hhead rfl hr
      next => cases hr
    split at hr
    next hbrace =>
      split at hr
      next hdouble => exact htwo hbrace rfl hdouble rfl hr
      next =>
        obtain rfl := hbrace
        obtain ⟨front, rest, hsplit, hlast⟩ := stopsAt_holeEnd 0 none (pos + 1) cs
        -- The expression of a hole starts behind the brace and stops where the walk does.
        have hrange : OnBoundaries pos ('\x7b' :: cs) (pos + 1, (holeEnd 0 none (pos + 1) cs).1) :=
          ⟨['\x7b'], front, rest, by rw [hsplit]; rfl, by rw [hlast]; rfl⟩
        generalize holeEnd 0 none (pos + 1) cs = found at hr hrange
        have hrest := hlater ('\x7b' :: cs.take found.2) (cs.drop found.2)
          (by rw [List.cons_append, List.take_append_drop]) (List.cons_ne_nil _ _)
        rw [byteLength, ← Nat.add_assoc] at hrest
        dsimp only at hr
        split at hr
        · rcases List.mem_cons.mp hr with rfl | hr
          · exact hrange
          · exact hrest hr
        · exact hrest hr
    next => exact hlater [c] cs rfl (List.cons_ne_nil _ _) hr

/-! ## Holes of a token

The result is brought from the body of a string to the token, and a string that hides a quote shows
the condition to be needed. -/

/-- The holes of a literal that the scanner of tokens recognises; none when it is not one
interpolated string from its first character to its last. -/
def recognisedHoles (literal : List Char) : Option (List Hole) :=
  match literal with
  | [] => none
  | c :: cs =>
    match opening? c cs with
    | some (k, verbatim, true, body) =>
      match recognised verbatim (k + 1) body with
      | some (n, hs) => if n = body.length then some hs else none
      | none => none
    | _ => none

theorem eq_true_of_isInterpolated {k : Nat} {v i : Bool} {body : List Char}
    (h : opening? c cs = some (k, v, i, body)) (hi : isInterpolated (c :: cs) = true) : i = true := by
  unfold opening? at h
  split at h <;> cases h <;> first | rfl | cases hi

/-- The second search looks at the body. -/
theorem holes_of_opening? {k : Nat} {body : List Char}
    (h : opening? c cs = some (k, verbatim, true, body)) :
    holes (String.ofList (c :: cs)) = holesFrom verbatim (k + 1) body := by
  unfold opening? at h
  split at h <;> cases h <;>
    simp [holes, isInterpolated, isVerbatim, List.span_eq_takeWhile_dropWhile, byteLength] <;> rfl

/-- The body stands behind the opening. -/
theorem exists_of_opening? {k : Nat} {i : Bool} {body : List Char}
    (h : opening? c cs = some (k, verbatim, i, body)) :
    ∃ front, c :: cs = front ++ body ∧ byteLength front = k + 1 := by
  unfold opening? at h
  split at h <;> cases h
  · exact ⟨['$', '@', '"'], rfl, rfl⟩
  · exact ⟨['@', '$', '"'], rfl, rfl⟩
  · exact ⟨['$', '"'], rfl, rfl⟩
  · exact ⟨['@', '"'], rfl, rfl⟩
  · exact ⟨['"'], rfl, rfl⟩

theorem string_of_scanToken (h : scanToken c cs = .ok (.stringLiteral, n)) :
    Literal.string c cs = some n := by
  unfold scanToken at h
  grind

/-- The text of a string literal is scanned for itself as it is in front of other text. -/
theorem exists_body_of_string {w rest : List Char}
    (h : Literal.string c (w ++ rest) = some w.length) :
    ∃ k v i body, opening? c w = some (k, v, i, body) ∧
      quotedBody v i body = some body.length := by
  rw [string_eq] at h
  obtain ⟨⟨k, v, i, body⟩, hopening, hbody⟩ := Option.bind_eq_some_iff.mp h
  obtain ⟨m, hm, hlength⟩ := Option.map_eq_some_iff.mp hbody
  have hk : k ≤ w.length := by omega
  have hdrop : (w.drop k).length = m := by rw [List.length_drop]; omega
  obtain ⟨rfl, hfront⟩ := opening?_append hopening hk
  have halone := hfront []
  have hscan := settled_quotedBody v i (w.drop k) rest [] m hm (Nat.le_of_eq hdrop.symm) (by simp)
  rw [List.append_nil] at hscan
  rw [List.append_nil, List.append_nil] at halone
  exact ⟨k, v, i, w.drop k, halone, by rw [hscan, hdrop]⟩

/-- **The two searches agree.**  In an interpolated string of a source the scanner of tokens
recognises holes that stand in its text; where they are regular, the second search answers the
ranges of their expressions, those that are empty left out; and it always answers ranges between
characters. -/
theorem holes_of_token {source : String} {tokens : List Token} {t : Token}
    (h : tokenize source = .ok tokens) (ht : t ∈ tokens) (hkind : t.kind = .stringLiteral)
    (hinterpolated : isInterpolated t.text.toList = true) :
    ∃ hs, recognisedHoles t.text.toList = some hs ∧
      (∀ hole ∈ hs, Stands 0 t.text.toList hole) ∧
      ((∀ hole ∈ hs, hole.isRegular = true) →
        holes t.text = (hs.filter (·.expression ≠ [])).map Hole.range) ∧
      ∀ r ∈ holes t.text, OnBoundaries 0 t.text.toList r := by
  obtain ⟨c, w, rest, htext, hscan⟩ :=
    (lexed_of_tokenize h).exists_scan_of_mem ht (by rw [hkind]; decide)
  rw [hkind] at hscan
  obtain ⟨k, v, i, body, hopening, hbody⟩ := exists_body_of_string (string_of_scanToken hscan)
  have hlist : t.text.toList = c :: w := by rw [htext, String.toList_ofList]
  rw [hlist] at hinterpolated ⊢
  obtain rfl := eq_true_of_isInterpolated hopening hinterpolated
  have hmap := map_fst_recognised v (k + 1) body
  obtain ⟨⟨n, hs⟩, hrecognised, hn⟩ := Option.map_eq_some_iff.mp (hmap.trans hbody)
  obtain rfl : n = body.length := hn
  obtain ⟨front, hfront, hlength⟩ := exists_of_opening? hopening
  have hholes : holes t.text = holesFrom v (k + 1) body := by
    rw [htext, holes_of_opening? hopening]
  have hpos : k + 1 = 0 + byteLength front := by rw [hlength, Nat.zero_add]
  refine ⟨hs, ?_, fun hole hhole => ?_, fun hregular => ?_, fun r hr => ?_⟩
  · simp [recognisedHoles, hopening, hrecognised]
  · rw [hfront]
    rw [hpos] at hrecognised
    exact (stands_of_recognised hrecognised hhole).append
  · rw [hholes]
    exact holesFrom_of_recognised hrecognised hregular
  · rw [hfront]
    rw [hholes, hpos] at hr
    exact (onBoundaries_of_mem_holesFrom hr).append

theorem exists_token_of_run {source : String} {found : Token → Bool}
    (hrun : ((tokenize source).toOption.any fun tokens => tokens.any found) = true) :
    ∃ tokens t, tokenize source = .ok tokens ∧ t ∈ tokens ∧ found t = true := by
  cases htokens : tokenize source with
  | error e => rw [htokens] at hrun; cases hrun
  | ok tokens =>
    rw [htokens] at hrun
    obtain ⟨t, ht, hfound⟩ := List.any_eq_true.mp hrun
    exact ⟨tokens, t, rfl, ht, hfound⟩

/-- A hole with a call, an alignment and a format, one with a verbatim string and a qualified name,
one that is empty and one with a brace as a character, behind braces that are text. -/
theorem holes_of_token_nested :
    ∃ tokens t, tokenize ("x = $\"a\x7bF(\"\x7d,\\\"\", d[1, (2)]),5:F2\x7d\x7b\x7b" ++
        "\x7b@\"v\"\"\x7d\" + b::c\x7d\x7b\x7d\x7b'\x7d':X\x7d\";") = .ok tokens ∧
      t ∈ tokens ∧ holes t.text = [(4, 24), (33, 47), (51, 54)] := by
  have hrun : ((tokenize ("x = $\"a\x7bF(\"\x7d,\\\"\", d[1, (2)]),5:F2\x7d\x7b\x7b" ++
      "\x7b@\"v\"\"\x7d\" + b::c\x7d\x7b\x7d\x7b'\x7d':X\x7d\";")).toOption.any fun tokens =>
        tokens.any fun t => t.kind = .stringLiteral && isInterpolated t.text.toList &&
          (recognisedHoles t.text.toList).any fun hs => hs.all Hole.isRegular &&
            (hs.filter (·.expression ≠ [])).map Hole.range = [(4, 24), (33, 47), (51, 54)]) =
      true := by
    decide +kernel
  obtain ⟨tokens, t, htokens, ht, hfound⟩ := exists_token_of_run hrun
  simp only [Bool.and_eq_true, decide_eq_true_eq, Option.any_eq_true, List.all_eq_true] at hfound
  obtain ⟨⟨hkind, hinterpolated⟩, hs, hrecognised, hregular, hranges⟩ := hfound
  obtain ⟨hs', hrecognised', -, hholes, -⟩ := holes_of_token htokens ht hkind hinterpolated
  obtain rfl := Option.some.inj (hrecognised'.symm.trans hrecognised)
  exact ⟨tokens, t, htokens, ht, (hholes hregular).trans hranges⟩

/-- **A backslash in a verbatim string makes the search lose holes**: the string ends at the quote
behind it, and the search goes on to the next one. -/
theorem hidden_quote_loses_holes :
    ∃ tokens t hs, tokenize "$\"\x7bF(@\"\\\")\x7d \x7bx\x7d\"" = .ok tokens ∧ t ∈ tokens ∧
      t.kind = .stringLiteral ∧ isInterpolated t.text.toList = true ∧
      recognisedHoles t.text.toList = some hs ∧
      (hs.filter (·.expression ≠ [])).map Hole.range = [(3, 10), (13, 14)] ∧
      holes t.text = [(3, 16)] := by
  have hrun : ((tokenize "$\"\x7bF(@\"\\\")\x7d \x7bx\x7d\"").toOption.any fun tokens =>
      tokens.any fun t => t.kind = .stringLiteral && isInterpolated t.text.toList &&
        (recognisedHoles t.text.toList).any fun hs =>
          (hs.filter (·.expression ≠ [])).map Hole.range = [(3, 10), (13, 14)] &&
            holes t.text = [(3, 16)]) = true := by
    decide +kernel
  obtain ⟨tokens, t, htokens, ht, hfound⟩ := exists_token_of_run hrun
  simp only [Bool.and_eq_true, decide_eq_true_eq, Option.any_eq_true] at hfound
  obtain ⟨⟨hkind, hinterpolated⟩, hs, hrecognised, hranges, hholes⟩ := hfound
  exact ⟨tokens, t, hs, htokens, ht, hkind, hinterpolated, hrecognised, hranges, hholes⟩

end CodeMend.Interpolation
