import CodeMend.Proofs.Grammar.Parse
import CodeMend.Proofs.Grammar.Scans
import CodeMend.Proofs.Grammar.Progress.Declarations

/-!
# CodeMend — parsing is total

The rules over rules that go on go on from one place earlier, so with each step of depth they go on
from further in front.  The depth that a source gets is enough from its first token on, and so are
the counts of the loops: what is left of faults are those of a source that does not parse.

* **`ready_rulesOfDepth`** — by induction on the depth; each nonterminal has its lemma.
* **`countedTokens_eq`**, **`countedClosing_eq`** — where brackets are counted, none is closed that
  is not open.
* **`GoesOn`** — what the tokens of a source give every rule and every scan.
* **`parse_total`** — every source has a tree or an error that lies at a seam of it.
-/

namespace CodeMend

namespace Grammar

open CodeMend.Parser Production

/-! ## Rules of any depth

One step of all rules serves one place more, so by induction a depth of twice the number of tokens
serves the first place. -/

section Depth

variable {ts : Array Token} {level : Nat} {rules : Rules}

/-- **One step of the rules goes on from one place earlier.** -/
theorem ready_rule (hts : Ended ts) (hr : Ready ts level rules) :
    Ready ts (level - 1) (rule rules) := by
  intro nt n hn
  cases nt with
  | type nullable => exact goes_type hts hr (by simp only [rank] at hn; omega) nullable
  | expression => exact goes_expression hts hr (by simp only [rank] at hn; omega)
  | coalesce => exact goes_coalesce hts hr (by simp only [rank] at hn; omega)
  | unary => exact goes_unary hts hr (by simp only [rank] at hn; omega)
  | operators cp operand =>
    exact goes_operators hts hr (by simp only [rank] at hn; omega) cp operand
  | initializer => exact goes_initializer hts hr (by simp only [rank] at hn; omega)
  | pattern => exact goes_pattern hts hr (by simp only [rank] at hn; omega)
  | statement => exact goes_statement hts hr (by simp only [rank] at hn; omega)
  | block => exact goes_block hts hr (by simp only [rank] at hn; omega)
  | member => exact goes_member hts hr (by simp only [rank] at hn; omega)
  | namespaceMember => exact goes_namespaceMember hts hr (by simp only [rank] at hn; omega)

/-- **Two steps of depth for each token are enough.** -/
theorem ready_rulesOfDepth (hts : Ended ts) (depth : Nat) :
    Ready ts (2 * ts.size + 2 - depth) (rulesOfDepth depth) := by
  induction depth with
  | zero =>
    -- no place is that far behind
    intro nt n hn c hc hpos _
    have hlt := hc.pos_lt
    omega
  | succ depth ih =>
    have hstep := ready_rule hts ih
    rwa [Nat.sub_sub] at hstep

end Depth

/-! ## Brackets that are counted

A loop that counts brackets subtracts from a count of natural numbers.  It is compared with one that
fails instead of going below nothing, and they agree. -/

/-- The tokens of an unknown member, where a bracket that closes takes one away from those that are
open and no bracket can be taken away from none. -/
def countedTokens : Nat → Nat → Bool → Parser (List Shape)
  | 0, _, _ => tooDeep
  | fuel + 1, depth, valued => do
    let t := (← get).current
    let closes := t.isMark ")" || t.isMark "]" || t.isMark "\x7d"
    if t.kind == .endOfFile then unexpected "';' or '\x7d'"
    else if depth == 0 && closes then unexpected "member declaration"
    else
      let opens := t.isMark "(" || t.isMark "[" || t.isMark "\x7b"
      let valued := valued || (depth == 0 && (t.isMark "=>" || t.isMark "="))
      let depth ←
        if opens then pure (depth + 1)
        else if closes then (match depth with
          | 0 => tooDeep
          | depth + 1 => pure depth)
        else pure depth
      let token ← bump
      if depth == 0 && t.isMark ";" then return token
      else if depth == 0 && t.isMark "\x7d" && !valued then
        return token ++ (← whenAt (·.atMark ";") bump)
      else return token ++ (← countedTokens fuel depth valued)

/-- **An unknown member never closes a bracket that is not open.** -/
theorem countedTokens_eq (fuel depth : Nat) (valued : Bool) :
    countedTokens fuel depth valued = unknownTokens fuel depth valued := by
  induction fuel generalizing depth valued with
  | zero => rfl
  | succ fuel ih =>
    unfold countedTokens unknownTokens
    simp only [ih]
    refine bind_congr fun c => ?_
    split
    · rfl
    split
    · rfl
    next hclosed =>
    split
    · simp only [pure_bind]
    split
    next hcloses =>
      cases depth with
      | zero => exact absurd (by simpa using hcloses) hclosed
      | succ depth => simp only [pure_bind, Nat.add_sub_cancel]
    · simp only [pure_bind]

end Grammar

namespace Scan

open Production

/-- Walk through a group and count the brackets that are open.  There is no answer to a bracket that
closes none, nor when `fuel` tokens are not enough. -/
def countedClosing (ts : Array Token) (opening close : String) :
    Nat → Nat → Nat → Option (Option Nat)
  | 0, _, _ => none
  | fuel + 1, depth, i =>
    let t := tokenAt ts i
    if t.kind == .endOfFile then some none
    else if t.isMark opening then countedClosing ts opening close fuel (depth + 1) (i + 1)
    else if t.isMark close then
      if depth = 0 then none
      else if depth = 1 then some (some (i + 1))
      else countedClosing ts opening close fuel (depth - 1) (i + 1)
    else countedClosing ts opening close fuel depth (i + 1)

/-- A walk inside a group never closes a bracket that is not open, and it ends with the tokens. -/
theorem countedClosing_eq {ts : Array Token} (hts : Ended ts) {opening close : String}
    {fuel more depth i : Nat} (hfuel : ts.size ≤ i + 1 + fuel) (hmore : ts.size ≤ i + 1 + more) :
    countedClosing ts opening close (fuel + 1) (depth + 1) i =
      some (closing ts opening close (more + 1) depth i) := by
  induction fuel generalizing more depth i with
  | zero =>
    have hend : (tokenAt ts i).kind = .endOfFile := (hts.kind_eq_iff i).mpr (by omega)
    simp [countedClosing, closing, hend]
  | succ fuel ih =>
    unfold countedClosing closing
    dsimp only
    split
    · rfl
    next hkind =>
    -- a token that does not end the file leaves one more to walk over
    have hlt : i + 1 < ts.size := lt_of_kind_ne hts (by simpa using hkind)
    obtain ⟨more, rfl⟩ : ∃ k, more = k + 1 := ⟨more - 1, by omega⟩
    split
    · exact ih (by omega) (by omega)
    split
    · cases depth with
      | zero => rfl
      | succ depth =>
        rw [if_neg (Nat.succ_ne_zero _), if_neg (by omega), Nat.add_sub_cancel]
        exact ih (by omega) (by omega)
    · exact ih (by omega) (by omega)

/-- The marks that open a group, each with the one that closes it. -/
def groups : List (String × String) :=
  [("(", ")"), ("[", "]"), ("\x7b", "\x7d"), ("<", ">")]

/-- **A group is walked through without closing a bracket that is not open**, from the mark that
opens it on, by as many steps as there are tokens. -/
theorem countedClosing_eq_balanced {ts : Array Token} (hts : Ended ts) {opening close : String}
    (hgroup : (opening, close) ∈ groups) {fuel i : Nat} (hfuel : ts.size ≤ fuel)
    (hat : (tokenAt ts i).isMark opening = true) :
    countedClosing ts opening close (fuel + 1) 0 i = some (balanced ts i) := by
  have hlt := lt_of_isMark hts hat
  obtain ⟨fuel, rfl⟩ : ∃ k, fuel = k + 1 := ⟨fuel - 1, by omega⟩
  have htext : (tokenAt ts i).text = opening := by
    simp only [Token.isMark, Bool.and_eq_true, beq_iff_eq] at hat
    exact hat.2
  have hbalanced : balanced ts i = closing ts opening close (ts.size + 1) 0 (i + 1) := by
    simp only [groups, List.mem_cons, Prod.mk.injEq, List.not_mem_nil, or_false] at hgroup
    rcases hgroup with ⟨rfl, rfl⟩ | ⟨rfl, rfl⟩ | ⟨rfl, rfl⟩ | ⟨rfl, rfl⟩ <;>
      simp [balanced, htext]
  have hkind : ((tokenAt ts i).kind == .endOfFile) = false := by
    simp [Parser.kind_of_isMark hat]
  rw [countedClosing, hbalanced,
    ← countedClosing_eq hts (show ts.size ≤ i + 1 + 1 + fuel by omega) (by omega)]
  simp [hkind, hat]

end Scan

namespace Grammar

open CodeMend.Parser Production

/-! ## Sources

Put together for the tokens of a source, the rules either make a tree or fail at a token, and every
token begins between two characters. -/

/-- What the tokens of a source give the rules and the scans. -/
structure GoesOn (ts : Array Token) : Prop where
  /-- Whatever index is asked for, a token stands there. -/
  present : ∀ i, tokenAt ts i ∈ ts
  /-- Two steps of depth for each token that is left are enough for every rule.  Neither a depth nor
  the count of a loop runs out: a rule takes its tokens and stops before the end of them, or its
  fault is placed. -/
  rules : ∀ nt n depth, 2 * (ts.size - n) + rank nt < depth →
    Goes ts n anywhere (least nt) (rulesOfDepth depth nt)
  /-- The scans ahead need no more steps than they have. -/
  scans : ∀ fuel, Scan.allowance ts ≤ fuel →
    (∀ i nullable, Scan.typeFuel ts fuel i nullable = Scan.type? ts i nullable) ∧
      (∀ i, Scan.nameFuel ts fuel i = Scan.name? ts i) ∧
      ∀ i, Scan.argumentsFuel ts fuel i = Scan.typeArguments? ts i
  /-- No scan ahead ends behind the tokens. -/
  ahead : ∀ i j, (∃ nullable, Scan.type? ts i nullable = some j) ∨ Scan.name? ts i = some j ∨
    Scan.typeArguments? ts i = some j ∨ Scan.balanced ts i = some j → i < j ∧ j < ts.size
  /-- A walk over a group never closes a bracket that is not open. -/
  groups : ∀ opening close, (opening, close) ∈ Scan.groups → ∀ fuel i, ts.size ≤ fuel →
    (tokenAt ts i).isMark opening = true →
    Scan.countedClosing ts opening close (fuel + 1) 0 i = some (Scan.balanced ts i)

theorem tokenAt_mem {ts : Array Token} (hts : Ended ts) (i : Nat) : tokenAt ts i ∈ ts := by
  have hlt : min i (ts.size - 1) < ts.size := by
    have hpos := hts.size_pos
    omega
  rw [tokenAt, Array.getD_eq_getD_getElem?, Array.getElem?_eq_getElem hlt]
  exact Array.getElem_mem hlt

theorem goesOn_of_ended {ts : Array Token} (hts : Ended ts) : GoesOn ts where
  present := tokenAt_mem hts
  rules nt n depth hdepth := by
    intro c hc hn hany
    have hlt := hc.pos_lt
    have hrank := rank_le_one nt
    exact ready_rulesOfDepth hts depth nt n (by omega) hc hn hany
  scans _ hfuel := Scan.steady_allowance hts hfuel
  ahead i j h := by
    rcases h with ⟨nullable, h⟩ | h | h | h
    · exact Scan.lt_of_type? hts h
    · exact Scan.lt_of_name? hts h
    · exact Scan.lt_of_typeArguments? hts h
    · exact Scan.lt_of_balanced hts h
  groups _ _ hgroup _ _ hfuel hat := Scan.countedClosing_eq_balanced hts hgroup hfuel hat

/-- **A list of tokens has a tree or a fault at one of them**, and the depth was enough. -/
theorem placed_of_parseTokens {ts : Array Token} (hts : Ended ts) {e : ParseFault × Nat}
    (h : parseTokens ts = .error e) : Placed ts e := by
  have hr : Ready ts 0 (rulesOfDepth (depthFor ts.size)) := by
    have hready := ready_rulesOfDepth hts (depthFor ts.size)
    rwa [depthFor, Nat.sub_eq_zero_of_le (by omega)] at hready
  have hrun := goes_compilationUnit (P := anywhere) hts hr (n := 0) (Nat.zero_le _)
    (c := atStart ts) ⟨rfl, hts.size_pos⟩ (Nat.le_refl 0) trivial
  have hunit : compilationUnit (rulesOfDepth (depthFor ts.size)) (atStart ts) = .error e := h
  rw [hunit] at hrun
  exact hrun

/-- A token of a source begins and ends at seams. -/
theorem isBoundary_of_mem {source : String} {tokens : List Token}
    (h : tokenize source = .ok tokens) {t : Token} (ht : t ∈ tokens) :
    isBoundary source.toList t.offset = true ∧ isBoundary source.toList t.stop = true := by
  obtain ⟨a, c, hsource, hoffset, hstop⟩ :=
    extract?_eq_some_iff.mp ((lossless_of_tokenize h).texts t ht)
  rw [hsource, ← hstop, ← hoffset]
  refine ⟨isBoundary_append a _, ?_⟩
  rw [← byteLength_append, ← List.append_assoc]
  exact isBoundary_append _ c

theorem le_of_isBoundary {source : String} {offset : Nat}
    (h : isBoundary source.toList offset = true) : offset ≤ source.utf8ByteSize := by
  obtain ⟨a, b, hsource, rfl⟩ := exists_split_of_isBoundary h
  rw [← byteLength_toList, hsource, byteLength_append]
  omega

/-- **Parsing is total.**  Every source has a tree or an error, which lies inside the source at a
seam between two characters and is never for want of depth or rounds.  Over its tokens every rule
takes tokens or fails, and never leaves the end of the file behind; a bracket is counted down only
where one is open; and no literal is cut inside a character. -/
theorem parse_total (source : String) :
    ((∃ t, parse source = .ok t) ∨
      ∃ e, parse source = .error e ∧ e.fault ≠ .tooDeep ∧ e.offset ≤ source.utf8ByteSize ∧
        isBoundary source.toList e.offset = true) ∧
    (∀ tokens, tokenize source = .ok tokens → GoesOn tokens.toArray ∧
      ∀ t ∈ tokens,
        isBoundary source.toList t.offset = true ∧ isBoundary source.toList t.stop = true) ∧
    (∀ fuel depth valued, countedTokens fuel depth valued = unknownTokens fuel depth valued) ∧
    (∀ (body : List Char) (verbatim interpolated first : Bool) (depth : Nat),
      ByteScan.quoted verbatim interpolated (bytes body) ≠ .split ∧
        ByteScan.hole depth (bytes body) ≠ .split ∧
        ByteScan.character first (bytes body) ≠ .split) := by
  -- A fault lies where the lexer stopped, or at a token.
  have hseam : ∀ e, parse source = .error e →
      e.fault ≠ .tooDeep ∧ isBoundary source.toList e.offset = true := by
    intro e he
    unfold parse at he
    split at he
    next e' hlex =>
      obtain rfl := Except.error.inj he
      obtain ⟨front, rest, hsource, hoffset⟩ := Lexer.exists_split_of_tokensFrom hlex
      refine ⟨by simp [ParseError.ofFault], ?_⟩
      show isBoundary source.toList e'.offset = true
      rw [hsource, hoffset, Nat.zero_add]
      exact isBoundary_append front rest
    next tokens htokens =>
      split at he
      next fault offset hfault =>
        obtain rfl := Except.error.inj he
        obtain ⟨⟨expected, found, rfl⟩, i, hi, rfl⟩ :=
          placed_of_parseTokens (ended_of_tokenize htokens) hfault
        have hmem := tokenAt_mem (ended_of_tokenize htokens) i
        exact ⟨by simp [ParseError.ofFault], (isBoundary_of_mem htokens (by simpa using hmem)).1⟩
      next => cases he
  refine ⟨?_, ?_, countedTokens_eq, ?_⟩
  · cases h : parse source with
    | ok t => exact .inl ⟨t, rfl⟩
    | error e =>
      obtain ⟨hfault, hboundary⟩ := hseam e h
      exact .inr ⟨e, rfl, hfault, le_of_isBoundary hboundary, hboundary⟩
  · intro tokens htokens
    exact ⟨goesOn_of_ended (ended_of_tokenize htokens), fun t ht => isBoundary_of_mem htokens ht⟩
  · intro body verbatim interpolated first depth
    rw [ByteScan.quoted_bytes, ByteScan.hole_bytes, ByteScan.character_bytes]
    exact ⟨Extent.ofCount_ne_split _ _, Extent.ofCount_ne_split _ _, Extent.ofCount_ne_split _ _⟩

end Grammar

end CodeMend
