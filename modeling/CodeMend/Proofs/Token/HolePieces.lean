import CodeMend.Proofs.Token.Literals
import CodeMend.Token.Interpolation

/-!
# CodeMend — the pieces of an interpolation hole

The scanner of tokens passes over a hole piece by piece: a string or a character literal is one
piece, every other character is one for itself.  This module writes that scan with its pieces, and
lets the walk that looks for the end of the expression go along them.  The walk knows neither
verbatim strings nor braces for themselves, so it keeps step under a condition.

* **`Piece`**, **`holePieces`** — the pieces of a hole; `hole_eq_map_holePieces` says that they are
  those of the scanner.
* **`expression`** — the pieces in front of the first comma or single colon outside of brackets.
* **`Piece.isRegular`**, **`balanced`** — the pieces that the walk reads as the scanner does.
* **`holeEnd_pieces`** — the walk ends where the scanner does and finds the end of the expression.
-/

namespace CodeMend.Interpolation

open Literal

/-! ## Pieces

The text of a hole is cut into pieces: literals, and single characters between them.  On these
pieces it can be said what both scanners see. -/

/-- A stretch of a hole.  The body of a literal reaches through its closing quote. -/
inductive Piece where
  | bare (c : Char)
  | string (body : List Char)
  | verbatimString (body : List Char)
  | character (body : List Char)
deriving DecidableEq, Repr

def Piece.text : Piece → List Char
  | bare c => [c]
  | string body => '"' :: body
  | verbatimString body => '@' :: '"' :: body
  | character body => '\'' :: body

/-- The text of some pieces. -/
def textOf (ps : List Piece) : List Char := ps.flatMap Piece.text

/-- The pieces of a hole in front of its closing brace, at a depth of nested braces. -/
def holePieces (depth : Nat) : List Char → Option (List Piece)
  | [] => none
  | c :: cs =>
    if c = '\x7b' then (holePieces (depth + 1) cs).map (.bare c :: ·)
    else if c = '\x7d' then
      match depth with
      | 0 => some []
      | d + 1 => (holePieces d cs).map (.bare c :: ·)
    else if c = '"' then do
      let n ← plainBody cs
      let ps ← holePieces depth (cs.drop n)
      return .string (cs.take n) :: ps
    else if c = '@' ∧ cs.head? = some '"' then do
      let n ← verbatimBody cs.tail
      let ps ← holePieces depth (cs.tail.drop n)
      return .verbatimString (cs.tail.take n) :: ps
    else if c = '\'' then do
      let n ← characterBody true cs
      let ps ← holePieces depth (cs.drop n)
      return .character (cs.take n) :: ps
    else if isLineBreak c then none
    else (holePieces depth cs).map (.bare c :: ·)
termination_by cs => cs.length
decreasing_by all_goals (simp only [List.length_drop, List.length_tail, List.length_cons]; omega)

/-- The depth of brackets behind a piece; a bracket too many closes nothing. -/
def Piece.depth (p : Piece) (depth : Nat) : Nat :=
  if p ∈ [.bare '(', .bare '[', .bare '\x7b'] then depth + 1
  else if p ∈ [.bare ')', .bare ']', .bare '\x7d'] then depth - 1
  else depth

/-- The pieces in front of the first comma or single colon outside of brackets, where a hole is
aligned or formatted. -/
def expression (depth : Nat) : List Piece → List Piece
  | [] => []
  | p :: ps =>
    match ps with
    | q :: rest =>
      if depth = 0 ∧ p = .bare ':' ∧ q = .bare ':' then p :: q :: expression depth rest
      else if depth = 0 ∧ (p = .bare ',' ∨ p = .bare ':') then []
      else p :: expression (p.depth depth) (q :: rest)
    | [] => if depth = 0 ∧ (p = .bare ',' ∨ p = .bare ':') then [] else [p]

/-! ## The pieces that the walk reads as the scanner does

The walk of the second search does not know verbatim strings, and skips them as if they were plain
ones.  The condition says when that makes no difference. -/

/-- No quote stands behind an odd number of backslashes. -/
def escapesNoQuote : List Char → Bool
  | [] => true
  | c :: cs =>
    if c = '\\' then
      match cs with
      | [] => true
      | d :: rest => d != '"' && escapesNoQuote rest
    else escapesNoQuote cs

/-- A backslash of a verbatim string does not hide a quote of it, and a character literal does not
start with a quote. -/
def Piece.isRegular : Piece → Bool
  | bare _ => true
  | string _ => true
  | verbatimString body => escapesNoQuote body
  | character body => body.head? != some '\''

/-- Every bracket is closed, and every closing brace closes one. -/
def balanced : Nat → List Piece → Bool
  | depth, [] => depth = 0
  | depth, p :: ps => (p != .bare '\x7d' || depth != 0) && balanced (p.depth depth) ps

variable {c : Char} {cs rest body : List Char} {p : Piece} {ps : List Piece}
  {depth pos n : Nat} {stop : Option Nat}

@[simp] theorem textOf_nil : textOf [] = [] := rfl

@[simp] theorem textOf_cons (p : Piece) (ps : List Piece) : textOf (p :: ps) = p.text ++ textOf ps :=
  rfl

/-! ## The pieces are those of the scanner

The scanner of tokens is the one that decides where a hole ends, so the pieces are shown to be those
that it passes over. -/

/-- How far a hole with these pieces reaches, its closing brace included. -/
def reach (ps : List Piece) : Nat := (textOf ps).length + 1

theorem map_reach_bare (c : Char) (o : Option (List Piece)) :
    (o.map (Piece.bare c :: ·)).map reach = (o.map reach).map (· + 1) := by
  cases o <;> simp [reach, Piece.text]

/-- A literal in front of other pieces reaches as far as the scanner of such literals says. -/
theorem map_reach_literal {count : List Char → Option Nat} {piece : List Char → Piece} {k : Nat}
    (hcount : ∀ {n}, count cs = some n → n ≤ cs.length)
    (hpiece : ∀ body, (piece body).text.length = k + body.length)
    (hrest : ∀ n, hole depth (cs.drop n) = (holePieces depth (cs.drop n)).map reach) :
    ((count cs).bind fun n => (hole depth (cs.drop n)).bind fun m => some (k + n + m)) =
      ((count cs).bind fun n => (holePieces depth (cs.drop n)).bind fun ps =>
        some (piece (cs.take n) :: ps)).map reach := by
  cases hn : count cs with
  | none => rfl
  | some n =>
    have htake : (cs.take n).length = n := List.length_take_of_le (hcount hn)
    rw [Option.bind_some, Option.bind_some, hrest n]
    cases holePieces depth (cs.drop n) with
    | none => rfl
    | some ps => simp [reach, hpiece, htake, Nat.add_assoc]

/-- **The scanner of holes passes over these pieces and the closing brace.** -/
theorem hole_eq_map_holePieces (depth : Nat) (cs : List Char) :
    hole depth cs = (holePieces depth cs).map reach := by
  fun_induction holePieces depth cs with
  | case1 => unfold hole; rfl
  | case2 depth cs ih => rw [hole_cons, if_pos rfl, ih, map_reach_bare]
  | case3 cs hopen => rw [hole_cons, if_neg hopen, if_pos rfl]; rfl
  | case4 cs d hopen ih => rw [hole_cons, if_neg hopen, if_pos rfl, map_reach_bare, ← ih]
  | case5 depth cs hopen hclose ih =>
    rw [hole_cons, if_neg hopen, if_neg hclose, if_pos rfl]
    exact map_reach_literal plainBody_le (fun body => Nat.add_comm _ 1) ih
  | case6 depth c cs hopen hclose hquote hat ih =>
    rw [hole_cons, if_neg hopen, if_neg hclose, if_neg hquote, if_pos hat]
    exact map_reach_literal verbatimBody_le (fun body => Nat.add_comm _ 2) ih
  | case7 depth cs hopen hclose hquote hat ih =>
    rw [hole_cons, if_neg hopen, if_neg hclose, if_neg hquote, if_neg hat, if_pos rfl]
    exact map_reach_literal characterBody_le (fun body => Nat.add_comm _ 1) ih
  | case8 depth c cs hopen hclose hquote hat hsingle hbreak =>
    rw [hole_cons, if_neg hopen, if_neg hclose, if_neg hquote, if_neg hat, if_neg hsingle,
      if_pos hbreak]
    rfl
  | case9 depth c cs hopen hclose hquote hat hsingle hbreak ih =>
    rw [hole_cons, if_neg hopen, if_neg hclose, if_neg hquote, if_neg hat, if_neg hsingle,
      if_neg hbreak, map_reach_bare, ih]

/-- The piece is a character for itself, or its body is one that its own scanner closes. -/
def Piece.Closed : Piece → Prop
  | bare c => c ≠ '"' ∧ c ≠ '\''
  | string body => plainBody body = some body.length
  | verbatimString body => verbatimBody body = some body.length
  | character body => characterBody true body = some body.length

/-- A hole is these pieces and the closing brace, and its literals are closed. -/
def Made (cs : List Char) (ps : List Piece) : Prop :=
  (∃ rest, cs = textOf ps ++ '\x7d' :: rest) ∧ ∀ p ∈ ps, p.Closed

theorem Made.cons (hp : p.Closed) (h : Made cs ps) : Made (p.text ++ cs) (p :: ps) := by
  obtain ⟨⟨rest, rfl⟩, hps⟩ := h
  exact ⟨⟨rest, by rw [textOf_cons, List.append_assoc]⟩, List.forall_mem_cons.mpr ⟨hp, hps⟩⟩

/-- A scanner that stops within a text takes all of what it takes. -/
theorem count_take {count : List Char → Option Nat} (hcount : Settled count)
    (hle : ∀ {n}, count cs = some n → n ≤ cs.length) (h : count cs = some n) :
    count (cs.take n) = some (cs.take n).length := by
  have htake : (cs.take n).length = n := List.length_take_of_le (hle h)
  have hsome := hcount (cs.take n) (cs.drop n) [] n (by rwa [List.take_append_drop])
    (Nat.le_of_eq htake.symm) (by simp)
  rw [List.append_nil] at hsome
  rw [hsome, htake]

theorem made_literal (front : List Char) {count : List Char → Option Nat}
    {piece : List Char → Piece} (hcount : Settled count)
    (hle : ∀ {n}, count cs = some n → n ≤ cs.length)
    (hpiece : ∀ body, (piece body).text = front ++ body)
    (hclosed : ∀ body, count body = some body.length → (piece body).Closed)
    (hrest : ∀ n ps, holePieces depth (cs.drop n) = some ps → Made (cs.drop n) ps)
    (h : ((count cs).bind fun n => (holePieces depth (cs.drop n)).bind fun ps =>
      some (piece (cs.take n) :: ps)) = some ps) :
    Made (front ++ cs) ps := by
  obtain ⟨n, hn, h⟩ := Option.bind_eq_some_iff.mp h
  obtain ⟨qs, hqs, h⟩ := Option.bind_eq_some_iff.mp h
  obtain rfl := Option.some.inj h
  have htext : front ++ cs = (piece (cs.take n)).text ++ cs.drop n := by
    rw [hpiece, List.append_assoc, List.take_append_drop]
  rw [htext]
  exact .cons (hclosed _ (count_take hcount hle hn)) (hrest n qs hqs)

theorem made_bare {o : Option (List Piece)} (hc : (Piece.bare c).Closed)
    (ho : ∀ qs, o = some qs → Made cs qs) (h : o.map (Piece.bare c :: ·) = some ps) :
    Made (c :: cs) ps := by
  obtain ⟨qs, hqs, rfl⟩ := Option.map_eq_some_iff.mp h
  exact .cons hc (ho qs hqs)

/-- **A hole is its pieces and the closing brace, and its literals are closed.** -/
theorem made_of_holePieces (h : holePieces depth cs = some ps) : Made cs ps := by
  fun_induction holePieces depth cs generalizing ps with
  | case1 => cases h
  | case2 depth cs ih => exact made_bare ⟨by decide, by decide⟩ (fun _ => ih) h
  | case3 cs =>
    obtain rfl := Option.some.inj h
    exact ⟨⟨cs, rfl⟩, fun p hp => nomatch hp⟩
  | case4 cs d _ ih => exact made_bare ⟨by decide, by decide⟩ (fun _ => ih) h
  | case5 depth cs _ _ ih =>
    exact made_literal ['"'] settled_plainBody plainBody_le (fun _ => rfl)
      (fun _ => id) (fun n _ => ih n) h
  | case6 depth c cs _ _ _ hat ih =>
    obtain ⟨rfl, hhead⟩ := hat
    obtain ⟨cs, rfl⟩ := List.head?_eq_some_iff.mp hhead
    exact made_literal ['@', '"'] settled_verbatimBody verbatimBody_le (fun _ => rfl)
      (fun _ => id) (fun n _ => ih n) h
  | case7 depth cs _ _ _ _ ih =>
    exact made_literal ['\''] (settled_characterBody true) characterBody_le
      (fun _ => rfl) (fun _ => id) (fun n _ => ih n) h
  | case8 => cases h
  | case9 depth c cs _ _ hquote _ hsingle _ ih =>
    exact made_bare ⟨hquote, hsingle⟩ (fun _ => ih) h

/-! ## The walk over one piece

The walk takes each regular piece as a whole.  A verbatim string is skipped in stretches between its
quotes. -/

/-- Go on from what a walk over the rest of a hole found, `n` characters further back. -/
def further (n : Nat) (found : Nat × Nat) : Nat × Nat := (found.1, found.2 + n)

theorem holeEnd_cons (depth : Nat) (stop : Option Nat) (pos : Nat) (c : Char) (cs : List Char) :
    holeEnd depth stop pos (c :: cs) =
      if c = '(' ∨ c = '[' ∨ c = '\x7b' then further 1 (holeEnd (depth + 1) stop (pos + 1) cs)
      else if c = ')' ∨ c = ']' then further 1 (holeEnd (depth - 1) stop (pos + 1) cs)
      else if c = '\x7d' then
        match depth with
        | 0 => (stop.getD pos, 1)
        | d + 1 => further 1 (holeEnd d stop (pos + 1) cs)
      else if (c = ',' ∨ c = ':') ∧ depth = 0 ∧ stop = none then
        if c = ':' ∧ cs.head? = some ':' then further 2 (holeEnd depth stop (pos + 2) cs.tail)
        else further 1 (holeEnd depth (some pos) (pos + 1) cs)
      else if c = '"' ∨ c = '\'' then
        further (quotedLength c cs + 1)
          (holeEnd depth stop (pos + 1 + byteLength (cs.take (quotedLength c cs)))
            (cs.drop (quotedLength c cs)))
      else further 1 (holeEnd depth stop (pos + c.utf8Size) cs) := by
  rw [holeEnd.eq_def]
  rfl

@[simp] theorem further_further (m n : Nat) (found : Nat × Nat) :
    further m (further n found) = further (n + m) found := by
  simp [further, Nat.add_assoc]

theorem quotedLength_cons (quote c : Char) (cs : List Char) :
    quotedLength quote (c :: cs) =
      if c = '\\' then if cs = [] then 1 else quotedLength quote cs.tail + 2
      else if c = quote then 1
      else quotedLength quote cs + 1 := by
  cases cs <;> simp [quotedLength]

theorem escapesNoQuote_cons (c : Char) (cs : List Char) :
    escapesNoQuote (c :: cs) =
      if c = '\\' then cs.head? != some '"' && escapesNoQuote cs.tail
      else escapesNoQuote cs := by
  cases cs <;> simp [escapesNoQuote, bne]

theorem quotedLength_of_plainBody (h : plainBody body = some body.length) (cs : List Char) :
    quotedLength '"' (body ++ cs) = body.length := by
  fun_induction plainBody body with
  | case1 => cases h
  | case2 => cases h
  | case3 d rest ih => simpa [quotedLength_cons] using ih (by simpa using h)
  | case4 rest => simpa [quotedLength_cons, eq_comm] using h
  | case5 => cases h
  | case6 c rest hslash hquote _ ih => 
    simpa [quotedLength_cons, hslash, hquote] using ih (by simpa using h)

theorem quotedLength_of_characterBody {first : Bool}
    (h : characterBody first body = some body.length)
    (hfirst : first = true → body.head? ≠ some '\'') (cs : List Char) :
    quotedLength '\'' (body ++ cs) = body.length := by
  fun_induction characterBody first body with
  | case1 => cases h
  | case2 => cases h
  | case3 first d rest ih => simpa [quotedLength_cons] using ih (by simpa using h) (by simp)
  | case4 first c rest hslash hquote =>
    obtain ⟨rfl, -⟩ : c = '\'' ∧ first = false := by simpa using hquote
    simpa [quotedLength_cons] using h
  | case5 => cases h
  | case6 first c rest hslash hquote _ ih =>
    have hc : c ≠ '\'' := by
      rintro rfl
      cases first with
      | false => exact hquote rfl
      | true => exact hfirst rfl rfl
    simpa [quotedLength_cons, hslash, hc] using ih (by simpa using h) (by simp)

/-- The part of a verbatim string in front of its first quote. -/
theorem exists_of_verbatimBody (h : verbatimBody body = some body.length) :
    ∃ front more, (∀ c ∈ front, c ≠ '"') ∧ body = front ++ '"' :: more ∧
      (more = [] ∨ ∃ next, more = '"' :: next ∧ verbatimBody next = some next.length) := by
  fun_induction verbatimBody body with
  | case1 => cases h
  | case2 => exact ⟨[], [], by simp, rfl, .inl rfl⟩
  | case3 next => exact ⟨[], '"' :: next, by simp, rfl, .inr ⟨next, rfl, by simpa using h⟩⟩
  | case4 => simp at h
  | case5 c cs hc ih =>
    obtain ⟨front, more, hfront, rfl, hmore⟩ := ih (by simpa using h)
    exact ⟨c :: front, more, List.forall_mem_cons.mpr ⟨hc, hfront⟩, rfl, hmore⟩

theorem quotedLength_of_escapesNoQuote {front more : List Char} (hfront : ∀ c ∈ front, c ≠ '"')
    (h : escapesNoQuote (front ++ '"' :: more) = true) :
    (∀ cs, quotedLength '"' (front ++ '"' :: cs) = front.length + 1) ∧
      escapesNoQuote more = true := by
  fun_induction escapesNoQuote front with
  | case1 => exact ⟨fun cs => by simp [quotedLength_cons], by simpa [escapesNoQuote_cons] using h⟩
  | case2 => simp [escapesNoQuote_cons] at h
  | case3 d rest ih =>
    simp only [List.cons_append, escapesNoQuote_cons, if_true, Bool.and_eq_true] at h
    obtain ⟨hlen, hmore⟩ := ih (fun c hc => hfront c (by simp [hc])) h.2
    exact ⟨fun cs => by simp [quotedLength_cons, hlen], hmore⟩
  | case4 c rest hslash ih =>
    simp only [List.cons_append, escapesNoQuote_cons, if_neg hslash] at h
    obtain ⟨hlen, hmore⟩ := ih (fun c hc => hfront c (by simp [hc])) h
    refine ⟨fun cs => ?_, hmore⟩
    simp [quotedLength_cons, hslash, hfront c (by simp), hlen]

/-- The walk skips a literal whose closing quote it finds where the literal ends. -/
theorem holeEnd_quoted (depth : Nat) (stop : Option Nat) (pos : Nat) {quote : Char}
    (hquote : quote = '"' ∨ quote = '\'') (h : quotedLength quote (body ++ cs) = body.length) :
    holeEnd depth stop pos (quote :: (body ++ cs)) =
      further (body.length + 1) (holeEnd depth stop (pos + byteLength (quote :: body)) cs) := by
  rw [holeEnd_cons]
  rcases hquote with rfl | rfl <;> simp [h, byteLength, Nat.add_assoc] <;> rfl

/-- **The walk skips a verbatim string whose quotes no backslash hides**, one stretch between two
quotes after the other. -/
theorem holeEnd_verbatim (pos : Nat) (h : verbatimBody body = some body.length)
    (hregular : escapesNoQuote body = true) :
    holeEnd depth stop pos ('"' :: (body ++ cs)) =
      further (body.length + 1) (holeEnd depth stop (pos + byteLength ('"' :: body)) cs) := by
  induction hlength : body.length using Nat.strongRecOn generalizing body pos with
  | ind l ih =>
  subst hlength
  obtain ⟨front, more, hfront, rfl, hmore⟩ := exists_of_verbatimBody h
  obtain ⟨hlen, hregular⟩ := quotedLength_of_escapesNoQuote hfront hregular
  have hskip : ∀ x, holeEnd depth stop pos ('"' :: (front ++ '"' :: x)) =
      further (front.length + 2)
        (holeEnd depth stop (pos + byteLength ('"' :: (front ++ ['"']))) x) := by
    intro x
    have hquoted : quotedLength '"' ((front ++ ['"']) ++ x) = (front ++ ['"']).length := by
      simpa using hlen x
    have hstretch := holeEnd_quoted depth stop pos (.inl rfl) hquoted
    simpa using hstretch
  rcases hmore with rfl | ⟨next, rfl, hnext⟩
  · simpa using hskip cs
  · rw [escapesNoQuote_cons, if_neg (by decide)] at hregular
    have hrest := ih next.length (by simp; omega) (pos + byteLength ('"' :: (front ++ ['"']))) hnext
      hregular rfl
    have hpos : pos + byteLength ('"' :: (front ++ ['"'])) + byteLength ('"' :: next) =
        pos + byteLength ('"' :: (front ++ '"' :: '"' :: next)) := by
      rw [Nat.add_assoc, ← byteLength_append]
      simp
    have hall := hskip ('"' :: (next ++ cs))
    rw [hrest, further_further, hpos] at hall
    simpa [Nat.add_comm, Nat.add_left_comm, Nat.add_assoc] using hall

/-! ## The walk over a hole

Along the pieces, the walk keeps the depth of brackets and stops at the first comma or colon outside
of them. -/

/-- The walk passes a bracket or another character that stands for itself. -/
theorem holeEnd_bare (pos : Nat) (cs : List Char) (hc : (Piece.bare c).Closed) (hbrace : c = '\x7d' → depth ≠ 0)
    (hstop : depth = 0 → stop = none → c ≠ ',' ∧ c ≠ ':') :
    holeEnd depth stop pos (c :: cs) =
      further 1 (holeEnd ((Piece.bare c).depth depth) stop (pos + byteLength [c]) cs) := by
  obtain ⟨hquote, hsingle⟩ := hc
  have hno : ¬ ((c = ',' ∨ c = ':') ∧ depth = 0 ∧ stop = none) := fun ⟨hc, hdepth, hnone⟩ =>
    hc.elim (hstop hdepth hnone).1 (hstop hdepth hnone).2
  rw [holeEnd_cons, if_neg hno]
  by_cases hopen : c = '(' ∨ c = '[' ∨ c = '\x7b'
  · rcases hopen with rfl | rfl | rfl <;> rfl
  by_cases hclose : c = ')' ∨ c = ']'
  · rcases hclose with rfl | rfl <;> rfl
  by_cases hend : c = '\x7d'
  · obtain ⟨d, rfl⟩ := Nat.exists_eq_succ_of_ne_zero (hbrace hend)
    obtain rfl := hend
    rfl
  have hdepth : (Piece.bare c).depth depth = depth := by
    simp only [not_or] at hopen hclose
    simp [Piece.depth, hopen, hclose, hend]
  simp [hopen, hclose, hend, hquote, hsingle, hdepth, byteLength]

/-- The walk passes a piece, unless the expression ends there or the hole is closed. -/
theorem holeEnd_piece (hclosed : p.Closed) (hregular : p.isRegular = true)
    (hbrace : p = .bare '\x7d' → depth ≠ 0)
    (hstop : depth = 0 → stop = none → p ≠ .bare ',' ∧ p ≠ .bare ':') :
    holeEnd depth stop pos (p.text ++ cs) =
      further p.text.length (holeEnd (p.depth depth) stop (pos + byteLength p.text) cs) := by
  cases p with
  | bare c => exact holeEnd_bare pos cs hclosed (by simpa using hbrace) (by simpa using hstop)
  | string body => exact holeEnd_quoted depth stop pos (.inl rfl) (quotedLength_of_plainBody hclosed cs)
  | verbatimString body =>
    have hat : holeEnd depth stop pos ('@' :: '"' :: (body ++ cs)) = _ :=
      holeEnd_bare pos _ ⟨by decide, by decide⟩ (by simp) (by simp)
    have hdepth : (Piece.bare '@').depth depth = depth := rfl
    rw [hdepth, holeEnd_verbatim _ hclosed hregular, further_further, Nat.add_assoc pos,
      ← byteLength_append] at hat
    exact hat
  | character body =>
    have hfirst : body.head? ≠ some '\'' := by simpa [Piece.isRegular] using hregular
    exact holeEnd_quoted depth stop pos (.inr rfl) (quotedLength_of_characterBody hclosed (fun _ => hfirst) cs)

/-- Two colons qualify a name. -/
theorem holeEnd_pair (pos : Nat) (cs : List Char) :
    holeEnd 0 none pos (':' :: ':' :: cs) = further 2 (holeEnd 0 none (pos + 2) cs) :=
  holeEnd_cons ..

/-- A comma, or a colon alone, ends the expression. -/
theorem holeEnd_stop (hc : c = ',' ∨ c = ':') (hhead : c = ':' → cs.head? ≠ some ':') :
    holeEnd 0 none pos (c :: cs) = further 1 (holeEnd 0 (some pos) (pos + 1) cs) := by
  rw [holeEnd_cons]
  rcases hc with rfl | rfl
  · simp
  · have hone : ¬ (':' = ':' ∧ cs.head? = some ':') := fun h => hhead rfl h.2
    rw [if_neg hone]
    simp

/-- What every piece of a hole has. -/
def Walkable (ps : List Piece) : Prop := ∀ p ∈ ps, p.Closed ∧ p.isRegular = true

theorem balanced_cons (h : balanced depth (p :: ps) = true) :
    (p = .bare '\x7d' → depth ≠ 0) ∧ balanced (p.depth depth) ps = true := by
  simp only [balanced, Bool.and_eq_true, Bool.or_eq_true, bne_iff_ne] at h
  exact ⟨fun hp => h.1.resolve_left fun hne => hne hp, h.2⟩

theorem reach_cons (p : Piece) (ps : List Piece) : reach (p :: ps) = reach ps + p.text.length := by
  rw [reach, reach, textOf_cons, List.length_append]
  omega

theorem expression_cons (depth : Nat) (p : Piece) (ps : List Piece) :
    expression depth (p :: ps) =
      if depth = 0 ∧ p = .bare ':' ∧ ps.head? = some (.bare ':') then
        p :: .bare ':' :: expression depth ps.tail
      else if depth = 0 ∧ (p = .bare ',' ∨ p = .bare ':') then []
      else p :: expression (p.depth depth) ps := by
  cases ps with
  | nil => simp [expression]
  | cons q ps =>
    simp only [expression, List.head?_cons, Option.some.injEq, List.tail_cons]
    split
    next h => rw [h.2.2]
    next => rfl

/-- A colon stands in front of the closing brace where one is the first piece. -/
theorem head?_textOf (ps : List Piece) (rest : List Char) :
    (textOf ps ++ '\x7d' :: rest).head? = some ':' ↔ ps.head? = some (.bare ':') := by
  cases ps with
  | nil => simp
  | cons p ps => cases p <;> simp [Piece.text]

/-- Once the end of the expression is known, the walk only looks for the closing brace. -/
theorem holeEnd_stopped (pos last : Nat) (rest : List Char) (hps : Walkable ps) (hbalanced : balanced depth ps = true) :
    holeEnd depth (some last) pos (textOf ps ++ '\x7d' :: rest) = (last, reach ps) := by
  induction ps generalizing depth pos with
  | nil =>
    obtain rfl : depth = 0 := by simpa [balanced] using hbalanced
    rw [textOf_nil, List.nil_append, holeEnd_cons]
    rfl
  | cons p ps ih =>
    obtain ⟨hp, hps⟩ := List.forall_mem_cons.mp hps
    obtain ⟨hbrace, hbalanced⟩ := balanced_cons hbalanced
    rw [textOf_cons, List.append_assoc, holeEnd_piece hp.1 hp.2 hbrace (by simp), ih _ hps hbalanced,
      reach_cons]
    rfl

/-- **The walk finds the end of the expression, and the closing brace.** -/
theorem holeEnd_pieces (pos : Nat) (rest : List Char) (hps : Walkable ps) (hbalanced : balanced depth ps = true) :
    holeEnd depth none pos (textOf ps ++ '\x7d' :: rest) =
      (pos + byteLength (textOf (expression depth ps)), reach ps) := by
  induction hlength : ps.length using Nat.strongRecOn generalizing ps depth pos with
  | ind l ih =>
  subst hlength
  cases ps with
  | nil =>
    obtain rfl : depth = 0 := by simpa [balanced] using hbalanced
    rw [textOf_nil, List.nil_append, holeEnd_cons]
    rfl
  | cons p ps =>
    obtain ⟨hp, hps'⟩ := List.forall_mem_cons.mp hps
    obtain ⟨hbrace, hbalanced'⟩ := balanced_cons hbalanced
    rw [expression_cons]
    split
    -- Two colons are taken together, so the induction skips a piece here.
    next hpair =>
      obtain ⟨rfl, rfl, hhead⟩ := hpair
      obtain ⟨qs, rfl⟩ := List.head?_eq_some_iff.mp hhead
      have hlt : qs.length < (Piece.bare ':' :: Piece.bare ':' :: qs).length :=
        Nat.lt_succ_of_lt (Nat.lt_succ_self _)
      have hrest := ih qs.length hlt (pos + 2)
        (List.forall_mem_cons.mp hps').2 (balanced_cons hbalanced').2 rfl
      have hlast : pos + byteLength (textOf (.bare ':' :: .bare ':' :: expression 0 qs)) =
          pos + 2 + byteLength (textOf (expression 0 qs)) := by
        rw [textOf_cons, textOf_cons, byteLength_append, byteLength_append, Nat.add_assoc pos,
          ← Nat.add_assoc (byteLength _)]
        rfl
      rw [List.tail_cons, hlast, reach_cons, reach_cons]
      exact (holeEnd_pair pos _).trans (congrArg (further 2) hrest)
    next hpair =>
    split
    -- The expression ends here, but the walk goes on to the closing brace.
    next hstop =>
      obtain ⟨rfl, hmark⟩ := hstop
      have hhead : p = .bare ':' → (textOf ps ++ '\x7d' :: rest).head? ≠ some ':' :=
        fun hp hhead => hpair ⟨rfl, hp, (head?_textOf ps rest).mp hhead⟩
      have hdepth : p.depth 0 = 0 := by rcases hmark with rfl | rfl <;> rfl
      have hstopped := holeEnd_stopped (pos + 1) pos rest hps'
        (hdepth ▸ hbalanced')
      rw [reach_cons, textOf_nil, byteLength, Nat.add_zero]
      rcases hmark with rfl | rfl
      · exact (holeEnd_stop (.inl rfl) (by simp)).trans (congrArg (further 1) hstopped)
      · exact (holeEnd_stop (.inr rfl) fun _ => hhead rfl).trans (congrArg (further 1) hstopped)
    next hstop =>
      have hrest := ih ps.length (Nat.lt_succ_self _) (pos + byteLength p.text) hps'
        hbalanced' rfl
      rw [textOf_cons, List.append_assoc, holeEnd_piece hp.1 hp.2 hbrace (by grind), hrest,
        reach_cons, textOf_cons, byteLength_append, Nat.add_assoc pos]
      rfl

end CodeMend.Interpolation
