import CodeMend.Proofs.Fix.Execution
import CodeMend.Proofs.Token.Rewording
import CodeMend.Proofs.Tree.Modifiers

/-!
# CodeMend — fixes of modifiers change nothing but modifiers

The fixes for references that are not needed and for references that only give values out take
the modifiers of a parameter and of its arguments out, or put another one in their place.  What the
changed documents say is what they said before, but for these words.

* **`reworded`** — words in which those at some places are taken out or replaced.
* **`Rewrites`** — what the sites of a document do to its words, one after the other.
* **`Says`** — the text of a log says what was said before, but for the places taken so far;
  `Says.changeSite` is the step of one site, and `exists_rewrites_of_foldlM` the run over all sites.
* **`runFix_changes_only_modifiers`** — the documents before and after a fix.
-/

namespace CodeMend

open Tree

/-! ## Words and remarks

A source says words and remarks.  The words at some places are left out or exchanged, and it is by
these places that one rewording is compared with another. -/

/-- The words of some tokens. -/
def wordsOf (ts : List Token) : List (TokenKind × String) := ts.map fun t => (t.kind, t.text)

/-- The comments and directives of some tokens. -/
def remarksOf (ts : List Token) : List Trivia :=
  (ts.flatMap fun t => t.leading ++ t.trailing).filter Trivia.isRemark

/-- Words in which those at some places are taken out, or give way to another one. -/
def reworded (new : Option (TokenKind × String)) (taken : List Nat)
    (ws : List (TokenKind × String)) : List (TokenKind × String) :=
  alter (fun k w => if k ∈ taken then new else some w) 0 ws

/-- What a rule about modifiers puts in the place of one. -/
def Rule.Rewords (r : Rule) (new : Option (TokenKind × String)) : Prop :=
  (r = .unneededRef ∧ new = none) ∨ (r = .refAsOut ∧ new = some (.keyword, "out"))

section Words

variable {new : Option (TokenKind × String)} {taken : List Nat} {ws : List (TokenKind × String)}

theorem reworded_nil : reworded new [] ws = ws := by
  simp [reworded, alter_some]

/-- **One more place of some reworded words**: the word there was not taken before, and with it the
words are reworded at one more place. -/
theorem exists_taken_of_append {w : TokenKind × String} {xs ys : List (TokenKind × String)}
    (h : xs ++ w :: ys = reworded new taken ws) (hw : new ≠ some w) :
    ∃ k, ws[k]? = some w ∧ k ∉ taken ∧ (reworded new taken (ws.take k)).length = xs.length ∧
      xs ++ (new.toList ++ ys) = reworded new (k :: taken) ws := by
  have hat : (reworded new taken ws)[xs.length]? = some w := by
    rw [← h, List.getElem?_append_right (Nat.le_refl _), Nat.sub_self]
    rfl
  obtain ⟨k, x, hx, hkept, hlength⟩ := exists_of_getElem?_alter hat
  rw [Nat.zero_add] at hkept
  have hk : k ∉ taken := by
    intro hk
    rw [if_pos hk] at hkept
    exact hw hkept
  rw [if_neg hk] at hkept
  obtain rfl := Option.some.inj hkept
  obtain ⟨hlt, rfl⟩ := List.getElem?_eq_some_iff.mp hx
  refine ⟨k, hx, hk, hlength, ?_⟩
  have htake : (ws.take k).length = k := List.length_take_of_le (Nat.le_of_lt hlt)
  have hsplit : ws = ws.take k ++ ws[k] :: ws.drop (k + 1) := by
    rw [List.getElem_cons_drop, List.take_append_drop]
  have hreworded : ∀ taken', reworded new taken' ws =
      reworded new taken' (ws.take k) ++ ((if k ∈ taken' then new else some ws[k]).toList ++
        alter (fun j w => if j ∈ taken' then new else some w) (k + 1) (ws.drop (k + 1))) := by
    intro taken'
    have halter : reworded new taken' ws =
        alter (fun j w => if j ∈ taken' then new else some w) 0
          (ws.take k ++ ws[k] :: ws.drop (k + 1)) := by rw [← hsplit]; rfl
    rw [halter, alter_append, alter_cons, htake, Nat.zero_add]
    rfl
  rw [hreworded, if_neg hk] at h
  obtain ⟨hxs, hrest⟩ := List.append_inj h hlength.symm
  obtain ⟨-, hys⟩ := List.cons.inj hrest
  -- the other places are those of before
  have hfront : reworded new (k :: taken) (ws.take k) = reworded new taken (ws.take k) := by
    refine alter_congr fun i x hi => ?_
    have hik : i < k := by
      have := (List.getElem?_eq_some_iff.mp hi).1
      omega
    simp [Nat.ne_of_lt hik]
  have hback : alter (fun j w => if j ∈ k :: taken then new else some w) (k + 1)
      (ws.drop (k + 1)) = ys := by
    rw [hys]
    refine alter_congr fun i x _ => ?_
    have hne : k + 1 + i ≠ k := by omega
    simp [hne]
  rw [hreworded (k :: taken), if_pos List.mem_cons_self, hfront, hback, hxs]

end Words

/-! ## The tokens of a tree

A modifier stands between two marks or words, which do not run together when it is gone. -/

variable {t : Tree} {source : String} {i : TokenId}

/-- A word between two marks stands between two tokens. -/
theorem Tree.Unjoined.exists_split {tokens : List Token} (h : Unjoined t i)
    (ht : t.tokens = tokens.toArray) :
    ∃ front p next back, tokens = front ++ p :: t.token i :: next :: back ∧ front.length + 1 = i ∧
      t.nextToken? i = some (i + 1) ∧ t.token (i + 1) = next ∧ p.text ∈ openMarks ∧
      (p.text = ":" → next.isIdentifier = true) := by
  obtain ⟨⟨j, rfl, hmark⟩, hlt⟩ := h
  have hsize : j + 1 + 1 < tokens.length := by simpa [ht] using hlt
  have hsize₁ : j + 1 < tokens.length := Nat.lt_of_succ_lt hsize
  have hsize₀ : j < tokens.length := Nat.lt_of_succ_lt hsize₁
  have htoken : ∀ (k : Nat) (hk : k < tokens.length), t.token k = tokens[k] := by
    intro k hk
    rw [token, ht, Array.getD_eq_getD_getElem?, List.getElem?_toArray, List.getElem?_eq_getElem hk]
    rfl
  rw [htoken j hsize₀, htoken (j + 1 + 1) hsize] at hmark
  have htext : ∀ {text}, tokens[j].isMark text = true → tokens[j].text = text :=
    fun hmark => beq_iff_eq.mp (Bool.and_eq_true_iff.mp hmark).2
  refine ⟨tokens.take j, tokens[j], tokens[j + 1 + 1], tokens.drop (j + 1 + 1 + 1), ?_, ?_, ?_,
    htoken _ hsize, ?_, ?_⟩
  · rw [htoken (j + 1) hsize₁, List.getElem_cons_drop, List.getElem_cons_drop,
      List.getElem_cons_drop, List.take_append_drop]
  · rw [List.length_take_of_le (Nat.le_of_lt hsize₀)]
  · exact if_pos hlt
  -- A bracket or a comma stands in front, or the colon of a label with a name behind the word.
  · rcases hmark with ⟨text, hmem, hmark⟩ | ⟨hmark, -⟩
    · have hall : ∀ text ∈ ["(", ",", "]"], text ∈ openMarks := by decide
      rw [htext hmark]
      exact hall text hmem
    · rw [htext hmark]
      decide
  · intro hcolon
    rcases hmark with ⟨text, hmem, hmark⟩ | ⟨-, hname⟩
    · rw [← htext hmark, hcolon] at hmem
      exact absurd hmem (by decide)
    · exact hname

/-! ## One patch

A deleted or replaced token leaves a text that says the same but for one word.  This is told of the
text alone, without the tree, for the tree has to be parsed anew. -/

/-- A text says what a source says, but for the `ref` that is its word with a number; another word
stands there, or none. -/
def Revises (new : Option (TokenKind × String)) (i : Nat) (cs cs' : List Char) : Prop :=
  ∃ xs ys, reading true cs = some (xs ++ .word .keyword "ref" :: ys) ∧
    reading true cs' = some (xs ++ (new.toList.map (fun w => .word w.1 w.2) ++ ys)) ∧
    (xs.filterMap Lexeme.word?).length = i

/-- What a source says is what stands in front of a `ref`, the word, and what stands behind it. -/
theorem Lexed.reading_at_ref {pos : Nat} {b : Bool} {cs : List Char} {front back : List Token}
    {p r : Token} (h : Lexed pos b [] cs (front ++ p :: r :: back)) (htext : r.text = "ref") :
    reading b cs = some ((lexemes [] (front ++ [p]) ++ remarks (p.trailing ++ r.leading)) ++
      .word .keyword "ref" :: lexemes r.trailing back) := by
  have hkind := h.kind_of_ref (by simp) htext
  have hall := h.reading_eq
  rw [List.append_cons, lexemes_append, List.getLast?_concat, Option.elim_some, lexemes, hkind,
    htext] at hall
  simpa using hall

theorem length_words_before (front : List Token) (p : Token) (us : List Trivia) :
    ((lexemes [] (front ++ [p]) ++ remarks us).filterMap Lexeme.word?).length =
      front.length + 1 := by
  rw [List.filterMap_append, filterMap_word?_lexemes]
  simp [remarks, List.filterMap_map, Function.comp_def, Lexeme.word?]

namespace Patch

variable {patch : Patch} {cs : List Char}

/-- **Taking a modifier out leaves everything else that is said.** -/
theorem revises_of_deleteToken? (ht : parse source = .ok t) (hi : Unjoined t i)
    (htext : (t.token i).text = "ref") (hpatch : deleteToken? t i = some patch)
    (hcs : replaceSpan? source.toList patch.span patch.text.toList = some cs) :
    Revises none i source.toList cs := by
  obtain ⟨tokens, htokens, htree⟩ := exists_tokens_of_parse ht
  obtain ⟨front, p, next, back, hsplit, hlength, hnext, htoken, hp, hname⟩ := hi.exists_split htree
  have hlexed := lexed_of_tokenize htokens
  rw [hsplit] at hlexed
  obtain ⟨A, B, G, hsource, hstart, hstop, hread⟩ := hlexed.reading_without hp hname
  rw [Nat.zero_add] at hstart
  simp only [deleteToken?, hnext, htoken, Option.bind_eq_bind, Option.bind_some, Option.pure_def,
    Option.some.injEq] at hpatch
  subst hpatch
  -- the patch is between the two tokens
  have hout := replaceSpan?_append A B G (Trivia.chars (Trivia.afterRemoval (t.token i).leading
    (t.token i).trailing next.leading)) ⟨(t.token i).fullStart, next.offset⟩ hstart.symm
    (by rw [hstart]; exact hstop.symm)
  rw [← hsource] at hout
  obtain rfl := Option.some.inj (hout.symm.trans hcs)
  refine ⟨_, _, hlexed.reading_at_ref htext, ?_, (length_words_before _ _ _).trans hlength⟩
  simpa using hread

/-- **Replacing a modifier leaves everything else that is said.** -/
theorem revises_of_toOut (ht : parse source = .ok t) (hi : Unjoined t i)
    (htext : (t.token i).text = "ref")
    (hcs : replaceSpan? source.toList (toOut t i).span (toOut t i).text.toList = some cs) :
    Revises (some (.keyword, "out")) i source.toList cs := by
  obtain ⟨tokens, htokens, htree⟩ := exists_tokens_of_parse ht
  obtain ⟨front, p, next, back, hsplit, hlength, -, -, hp, -⟩ := hi.exists_split htree
  have hlexed := lexed_of_tokenize htokens
  rw [hsplit] at hlexed
  obtain ⟨A, G, hsource, hstart, hread⟩ := hlexed.reading_reworded hp htext
  rw [Nat.zero_add] at hstart
  have hstop : (t.token i).stop = byteLength A + byteLength ['r', 'e', 'f'] := by
    rw [Token.stop, htext, hstart]
    rfl
  have hout := replaceSpan?_append A ['r', 'e', 'f'] G ['o', 'u', 't'] (toOut t i).span
    hstart.symm hstop
  have hletters : (toOut t i).text.toList = ['o', 'u', 't'] := by simp [toOut]
  rw [← hsource, ← hletters] at hout
  obtain rfl := Option.some.inj (hout.symm.trans hcs)
  refine ⟨_, _, hlexed.reading_at_ref htext, ?_, (length_words_before _ _ _).trans hlength⟩
  simpa [hletters] using hread

end Patch

/-! ## One site

At a site there is at most one modifier to change, which is found in the tree of the current text.
-/

/-- The modifier of a site, if its node is there and has one. -/
def siteModifier? (plan : Plan) (t : Tree) (site : Site) : Option TokenId := do
  let n ← site.relocate? t
  match site.role with
  | .declaration => Patch.parameterModifier? t n (← plan.parameters.head?)
  | .call positions => Patch.argumentModifier? t n (← positions.head?)

variable {plan : Plan} {new : Option (TokenKind × String)} {site : Site}

theorem unjoined_of_siteModifier? (ht : parse source = .ok t)
    (hi : siteModifier? plan t site = some i) : Unjoined t i ∧ (t.token i).text = "ref" := by
  simp only [siteModifier?, Option.bind_eq_bind, Option.bind_eq_some_iff] at hi
  obtain ⟨n, -, hi⟩ := hi
  split at hi
  · obtain ⟨index, -, hi⟩ := Option.bind_eq_some_iff.mp hi
    exact unjoined_of_parameterModifier? (inOrder_of_parse ht) (gapless_of_parse ht) hi
  · obtain ⟨index, -, hi⟩ := Option.bind_eq_some_iff.mp hi
    exact unjoined_of_argumentModifier? (inOrder_of_parse ht) (gapless_of_parse ht) hi

/-- The patches of a site change its modifier, if it has one. -/
theorem sitePatches?_eq (hrule : plan.rule.Rewords new) (t : Tree) (site : Site) :
    Execution.sitePatches? plan t site = (siteModifier? plan t site).bind fun i =>
      match new with
      | none => (Patch.deleteToken? t i).map ([·])
      | some _ => some [Patch.toOut t i] := by
  unfold Execution.sitePatches? siteModifier?
  simp only [Option.bind_eq_bind, Option.bind_assoc]
  congr 1
  funext n
  rcases hrule with ⟨hrule, rfl⟩ | ⟨hrule, rfl⟩
  · cases site.role <;>
      simp [hrule, Rule.declarationPatches?, Rule.callPatches?, Option.bind_assoc,
        Option.map_eq_bind]
  · cases site.role <;>
      simp [hrule, Rule.declarationPatches?, Rule.callPatches?, Option.bind_assoc]

/-! ## All sites

After some sites, the text says what it said in the beginning but for the places taken so far.  The
next site takes one more place or none. -/

/-- What sites do to a document whose words are `ws`, one after the other.  Before a site, the words
at the places `taken` are reworded already, and the site looks at a parse of the text as it stands:
its patch changes the modifier that its node has there, which is one place more, or there is none
and the text stays. -/
inductive Rewrites (plan : Plan) (new : Option (TokenKind × String))
    (ws : List (TokenKind × String)) : String → List Nat → List Site → List Nat → Prop where
  | nil (text : String) (taken : List Nat) : Rewrites plan new ws text taken [] taken
  | left {text : String} {taken taken' : List Nat} {site : Site} {sites : List Site} (t : Tree)
      (htree : parse text = .ok t) (hwords : wordsOf t.tokens.toList = reworded new taken ws)
      (hmodifier : siteModifier? plan t site = none)
      (hrest : Rewrites plan new ws text taken sites taken') :
      Rewrites plan new ws text taken (site :: sites) taken'
  | changed {text text' : String} {taken taken' : List Nat} {site : Site} {sites : List Site}
      (t : Tree) (htree : parse text = .ok t)
      (hwords : wordsOf t.tokens.toList = reworded new taken ws) (i : TokenId)
      (hmodifier : siteModifier? plan t site = some i) (patch : Patch)
      (hpatch : Execution.sitePatches? plan t site = some [patch])
      (htext : replaceSpan? text.toList patch.span patch.text.toList = some text'.toList) (k : Nat)
      (hword : ws[k]? = some (.keyword, "ref")) (hk : k ∉ taken)
      (hrank : (reworded new taken (ws.take k)).length = i)
      (hrest : Rewrites plan new ws text' (k :: taken) sites taken') :
      Rewrites plan new ws text taken (site :: sites) taken'

/-- A text says what was said before, but for the places taken so far. -/
def Says (new : Option (TokenKind × String)) (ws : List (TokenKind × String)) (rs : List Trivia)
    (taken : List Nat) (text : String) : Prop :=
  ∃ out, reading true text.toList = some out ∧
    out.filterMap Lexeme.word? = reworded new taken ws ∧ out.filterMap Lexeme.remark? = rs

variable {ws : List (TokenKind × String)} {rs : List Trivia} {taken : List Nat}
  {text text' : String}

theorem Rule.Rewords.ne_ref {r : Rule} (h : r.Rewords new) : new ≠ some (.keyword, "ref") := by
  rcases h with ⟨-, rfl⟩ | ⟨-, rfl⟩ <;> decide

/-- **One modifier less is one place more.** -/
theorem Says.revise (h : Says new ws rs taken text) (hnew : new ≠ some (.keyword, "ref"))
    (hrevises : Revises new i text.toList text'.toList) :
    ∃ k, ws[k]? = some (.keyword, "ref") ∧ k ∉ taken ∧
      (reworded new taken (ws.take k)).length = i ∧ Says new ws rs (k :: taken) text' := by
  obtain ⟨out, hout, hwords, hremarks⟩ := h
  obtain ⟨xs, ys, hbefore, hafter, hlength⟩ := hrevises
  obtain rfl := Option.some.inj (hout.symm.trans hbefore)
  have hcons : (Lexeme.word .keyword "ref" :: ys).filterMap Lexeme.word? =
      (.keyword, "ref") :: ys.filterMap Lexeme.word? := rfl
  rw [List.filterMap_append, hcons] at hwords
  obtain ⟨k, hword, hk, hrank, htaken⟩ := exists_taken_of_append hwords hnew
  refine ⟨k, hword, hk, hrank.trans hlength, _, hafter, ?_, ?_⟩
  · rw [← htaken, List.filterMap_append, List.filterMap_append]
    simp [List.filterMap_map, Function.comp_def, Lexeme.word?]
  · have hskip : (Lexeme.word .keyword "ref" :: ys).filterMap Lexeme.remark? =
        ys.filterMap Lexeme.remark? := rfl
    rw [← hremarks, List.filterMap_append, List.filterMap_append, List.filterMap_append, hskip]
    simp [List.filterMap_map, Function.comp_def, Lexeme.remark?]

/-- The tokens of a text have the words and remarks that it says. -/
theorem Says.tokens (h : Says new ws rs taken text) {tokens : List Token}
    (htokens : tokenize text = .ok tokens) :
    wordsOf tokens = reworded new taken ws ∧ remarksOf tokens = rs := by
  obtain ⟨out, hout, hwords, hremarks⟩ := h
  obtain rfl := Option.some.inj (hout.symm.trans (reading_of_tokenize htokens))
  rw [filterMap_word?_lexemes] at hwords
  rw [(lexed_of_tokenize htokens).filterMap_remark?_lexemes] at hremarks
  exact ⟨hwords, hremarks⟩

theorem says_of_tokenize {tokens : List Token} (htokens : tokenize text = .ok tokens) :
    Says new (wordsOf tokens) (remarksOf tokens) [] text := by
  refine ⟨_, reading_of_tokenize htokens, ?_, ?_⟩
  · rw [reworded_nil]
    exact filterMap_word?_lexemes [] tokens
  · exact (lexed_of_tokenize htokens).filterMap_remark?_lexemes

/-- A replacement that goes in gives the text with the span replaced. -/
theorem EditLog.replaceSpan?_of_replace {log log' : EditLog} {span : Span} {text : String}
    (h : log.replace span text = .ok log') :
    replaceSpan? log.current.toList span text.toList = some log'.current.toList := by
  obtain ⟨_, -, hrest⟩ := exists_of_bind_eq_ok h
  split at hrest
  next pieces current hpieces hcurrent =>
    cases hrest
    rw [hcurrent, String.toList_ofList]
  next => cases hrest

namespace Execution

variable {s s' : Progress} {path : String} {cancelled : Bool}

theorem replace_of_applyPatches {patch : Patch} (h : applyPatches t s [patch] = .ok s') :
    s.log.replace patch.span patch.text = .ok s'.log := by
  have hfold : [patch].foldlM applyPatch s = .ok s' := eq_ok_of_mapError h
  obtain ⟨s'', hstep, hrest⟩ := exists_of_bind_eq_ok hfold
  cases hrest
  obtain ⟨log, hlog, hrest⟩ := exists_of_bind_eq_ok hstep
  cases hrest
  exact hlog

/-- **One site changes its modifier and nothing else**, or leaves the text as it is. -/
theorem cases_of_changeSite (hrule : plan.rule.Rewords new)
    (h : changeSite plan path cancelled s site = .ok s') :
    ∃ t, parse s.log.current = .ok t ∧
      ((siteModifier? plan t site = none ∧ s'.log = s.log) ∨
        ∃ i patch, siteModifier? plan t site = some i ∧ sitePatches? plan t site = some [patch] ∧
          replaceSpan? s.log.current.toList patch.span patch.text.toList =
            some s'.log.current.toList ∧
          Revises new i s.log.current.toList s'.log.current.toList) := by
  unfold changeSite at h
  split at h
  · cases h
  obtain ⟨t, ht, hrest⟩ := exists_of_bind_eq_ok h
  have ht := parse_of_reparse ht
  refine ⟨t, ht, ?_⟩
  have heq := sitePatches?_eq hrule t site
  cases hi : siteModifier? plan t site with
  | none =>
    rw [heq, hi, Option.bind_none] at hrest
    cases hrest
    exact .inl ⟨rfl, rfl⟩
  | some i =>
    obtain ⟨hunjoined, htext⟩ := unjoined_of_siteModifier? ht hi
    rw [hi, Option.bind_some] at heq
    rcases hrule with ⟨-, rfl⟩ | ⟨-, rfl⟩
    · obtain ⟨patch, hpatch⟩ : ∃ patch, Patch.deleteToken? t i = some patch := by
        have hnext : t.nextToken? i = some (i + 1) := if_pos hunjoined.lt
        simp [Patch.deleteToken?, hnext]
      rw [hpatch] at heq
      rw [heq] at hrest
      have hreplace := EditLog.replaceSpan?_of_replace (replace_of_applyPatches hrest)
      exact .inr ⟨i, patch, rfl, heq, hreplace,
        Patch.revises_of_deleteToken? ht hunjoined htext hpatch hreplace⟩
    · rw [heq] at hrest
      have hreplace := EditLog.replaceSpan?_of_replace (replace_of_applyPatches hrest)
      exact .inr ⟨i, _, rfl, heq, hreplace, Patch.revises_of_toOut ht hunjoined htext hreplace⟩

/-- **The sites of a document, one after the other, change modifiers and nothing else.** -/
theorem exists_rewrites_of_foldlM (hrule : plan.rule.Rewords new) {sites : List Site}
    (hs : Says new ws rs taken s.log.current)
    (h : sites.foldlM (changeSite plan path cancelled) s = .ok s') :
    ∃ taken', Rewrites plan new ws s.log.current taken sites taken' ∧
      Says new ws rs taken' s'.log.current := by
  induction sites generalizing s taken with
  | nil =>
    cases h
    exact ⟨taken, .nil _ taken, hs⟩
  | cons site sites ih =>
    rw [List.foldlM_cons] at h
    obtain ⟨s₁, hsite, hrest⟩ := exists_of_bind_eq_ok h
    obtain ⟨t, ht, hcases⟩ := cases_of_changeSite hrule hsite
    obtain ⟨tokens, htokens, htree⟩ := exists_tokens_of_parse ht
    have hwords : wordsOf t.tokens.toList = reworded new taken ws := by
      rw [htree]
      exact (hs.tokens htokens).1
    rcases hcases with ⟨hnone, hlog⟩ | ⟨i, patch, hi, hpatch, htext, hrevises⟩
    · obtain ⟨taken', hrewrites, hsays⟩ := ih (hlog ▸ hs) hrest
      exact ⟨taken', .left t ht hwords hnone (hlog ▸ hrewrites), hsays⟩
    · obtain ⟨k, hword, hk, hrank, hs₁⟩ := hs.revise hrule.ne_ref hrevises
      obtain ⟨taken', hrewrites, hsays⟩ := ih hs₁ hrest
      exact ⟨taken', .changed t ht hwords i hi patch hpatch htext k hword hk hrank hrewrites, hsays⟩

/-- Edits that go into a log one after the other give the text that they give. -/
theorem foldlM_applyEdit_of_replace {edits : List TextEdit} {log log' : EditLog}
    (h : edits.foldlM (fun (log : EditLog) e => log.replace e.span e.newText) log = .ok log') :
    edits.foldlM applyEdit log.current.toList = .ok log'.current.toList := by
  induction edits generalizing log with
  | nil =>
    cases h
    rfl
  | cons e edits ih =>
    rw [List.foldlM_cons] at h ⊢
    obtain ⟨log₁, hstep, hrest⟩ := exists_of_bind_eq_ok h
    have happly : applyEdit log.current.toList e = .ok log₁.current.toList := by
      unfold applyEdit
      rw [EditLog.replaceSpan?_of_replace hstep]
    rw [happly]
    exact ih hrest

/-- Tidying keeps what is said. -/
theorem says_of_tidyRegions {log : EditLog} (hs : Says new ws rs taken s.log.current)
    (h : tidyRegions s = .ok log) : Says new ws rs taken log.current := by
  obtain ⟨edits, hedits, hrest⟩ := exists_of_bind_eq_ok h
  obtain ⟨out, hsplices, hread, -⟩ := exists_splices_layoutEdits (eq_ok_of_mapError hedits)
  have hfold := foldlM_applyEdit_of_replace (eq_ok_of_mapError hrest)
  have hout := foldlM_applyEdit_of_splices hsplices [] rfl
  rw [List.nil_append, List.nil_append, hfold] at hout
  obtain rfl := Except.ok.inj hout
  obtain ⟨lexemes, hlexemes, hwords, hremarks⟩ := hs
  exact ⟨lexemes, hread.trans hlexemes, hwords, hremarks⟩

end Execution

/-! ## Documents

The places that are taken hold a `ref` each.  A document whose sites take no place does not change.
-/

/-- The places that sites take hold a `ref` each, and no place is taken twice. -/
theorem Rewrites.taken_ref {taken' : List Nat} {sites : List Site}
    (h : Rewrites plan new ws text taken sites taken')
    (hnodup : taken.Nodup) (href : ∀ k ∈ taken, ws[k]? = some (.keyword, "ref")) :
    taken'.Nodup ∧ ∀ k ∈ taken', ws[k]? = some (.keyword, "ref") := by
  induction h with
  | nil => exact ⟨hnodup, href⟩
  | left t htree hwords hmodifier hrest ih => exact ih hnodup href
  | changed t htree hwords i hmodifier patch hpatch htext k hword hk hrank hrest ih =>
    refine ih (List.nodup_cons.mpr ⟨hk, hnodup⟩) fun j hj => ?_
    rcases List.mem_cons.mp hj with rfl | hj
    · exact hword
    · exact href j hj

/-- Between two texts, sites change modifiers and nothing else.  At the places that they take, each
of which holds a `ref`, words are taken out or replaced; all other words, the comments and the
directives stay. -/
def ChangesModifiersOnly (plan : Plan) (new : Option (TokenKind × String)) (sites : List Site)
    (before after : String) : Prop :=
  ∃ us vs taken, tokenize before = .ok us ∧ tokenize after = .ok vs ∧
    Rewrites plan new (wordsOf us) before [] sites taken ∧ taken.Nodup ∧
    (∀ k ∈ taken, (wordsOf us)[k]? = some (.keyword, "ref")) ∧
    wordsOf vs = reworded new taken (wordsOf us) ∧ remarksOf vs = remarksOf us

namespace Execution

/-- A document does not change when its sites leave the log and the regions as they were. -/
theorem touched_of_changeDocument {d : Document} {sites : List Site} {cancelled : Bool}
    {c : DocumentChange} {skipped : Nat} {s : Progress}
    (h : changeDocument plan d sites cancelled = .ok (some c, skipped))
    (hs : (orderedSites sites).foldlM (changeSite plan d.path cancelled) ⟨.ofText d.text, [], 0⟩ =
      .ok s) : ¬(s.log = .ofText d.text ∧ s.regions = []) := by
  rintro ⟨hlog, hregions⟩
  unfold changeDocument at h
  rw [hs, ok_bind] at h
  have htidy : tidyRegions s = .ok (.ofText d.text) := by
    unfold tidyRegions
    rw [hlog, hregions]
    rfl
  have hunchanged : (EditLog.ofText d.text).isUnchanged = true := beq_self_eq_true d.text
  obtain ⟨log, hlog, hrest⟩ := exists_of_bind_eq_ok h
  obtain rfl := Except.ok.inj (htidy.symm.trans hlog)
  obtain ⟨t, -, hrest⟩ := exists_of_bind_eq_ok hrest
  rw [if_pos hunchanged] at hrest
  cases hrest

/-- A document without sites does not change. -/
theorem ne_nil_of_changeDocument {d : Document} {sites : List Site} {cancelled : Bool}
    {c : DocumentChange} {skipped : Nat}
    (h : changeDocument plan d sites cancelled = .ok (some c, skipped)) :
    orderedSites sites ≠ [] := by
  intro hnil
  refine touched_of_changeDocument h (s := ⟨.ofText d.text, [], 0⟩) ?_ ⟨rfl, rfl⟩
  rw [hnil]
  rfl

/-- **A document changes in its modifiers only.** -/
theorem changesModifiersOnly_of_changeDocument (hrule : plan.rule.Rewords new) {d : Document}
    {sites : List Site} {cancelled : Bool} {c : DocumentChange} {skipped : Nat}
    (h : changeDocument plan d sites cancelled = .ok (some c, skipped)) :
    ChangesModifiersOnly plan new (orderedSites sites) d.text c.after := by
  have hne := ne_nil_of_changeDocument h
  have hsound := sound_of_changeDocument h
  obtain ⟨s, hs, hrest⟩ := exists_of_bind_eq_ok h
  obtain ⟨log, hlog, hrest⟩ := exists_of_bind_eq_ok hrest
  -- the first site was found in a parse of the text of the document
  obtain ⟨us, hus⟩ : ∃ us, tokenize d.text = .ok us := by
    obtain ⟨site, rest, hcons⟩ := List.exists_cons_of_ne_nil hne
    rw [hcons, List.foldlM_cons] at hs
    obtain ⟨s₁, hsite, -⟩ := exists_of_bind_eq_ok hs
    obtain ⟨t, ht, -⟩ := cases_of_changeSite hrule hsite
    obtain ⟨us, hus, -⟩ := exists_tokens_of_parse ht
    exact ⟨us, hus⟩
  obtain ⟨taken, hrewrites, hsays⟩ :=
    exists_rewrites_of_foldlM hrule (says_of_tokenize hus) hs
  have hsays := says_of_tidyRegions hsays hlog
  have hafter : log.current = c.after := by
    obtain ⟨_, -, hrest⟩ := exists_of_bind_eq_ok hrest
    split at hrest
    · cases hrest
    · split at hrest
      · cases hrest
        rfl
      · cases hrest
  rw [hafter] at hsays
  obtain ⟨t, ht⟩ := hsound.parses
  obtain ⟨vs, hvs, -⟩ := exists_tokens_of_parse ht
  obtain ⟨hnodup, href⟩ := hrewrites.taken_ref .nil (by simp)
  obtain ⟨hwords, hremarks⟩ := hsays.tokens hvs
  exact ⟨us, vs, taken, hus, hvs, hrewrites, hnodup, href, hwords, hremarks⟩

end Execution

/-- Every change that a plan leads to is that of a document of the plan, at its sites. -/
theorem Plan.exists_sites_of_execute {s : Solution} {cancelled : Bool} {o : PlanOutcome}
    (h : plan.execute s cancelled = .ok o) {c : DocumentChange} (hc : c ∈ o.documents) :
    ∃ d sites skipped, s.document? c.document = some d ∧ (c.document, sites) ∈ plan.sites ∧
      Execution.changeDocument plan d sites cancelled = .ok (some c, skipped) := by
  obtain ⟨results, hresults, hrest⟩ := exists_of_bind_eq_ok h
  split at hrest
  · cases hrest
  obtain ⟨solution, -, hrest⟩ := exists_of_bind_eq_ok hrest
  cases hrest
  obtain ⟨⟨change, skipped⟩, hresult, hchange⟩ := List.mem_filterMap.mp hc
  obtain ⟨⟨id, sites⟩, hentry, hrun⟩ := exists_of_forall₂_right (forall₂_of_mapM hresults) hresult
  obtain ⟨d, hd, hrun⟩ := exists_of_bind_eq_ok hrun
  obtain rfl : change = some c := hchange
  have hd := Solution.document?_of_document hd
  have hid : c.document = id :=
    (Execution.sound_of_changeDocument hrun).document.trans (Solution.id_of_document? hd)
  exact ⟨d, sites, skipped, hid ▸ hd, hid ▸ hentry, hrun⟩

/-- The plan for a finding is one of its rule. -/
theorem Plan.rule_of_resolve {p : Program} {f : Finding} {cancelled : Bool}
    (h : Plan.resolve p f cancelled = .ok plan) : plan.rule = f.rule := by
  obtain ⟨d, -, hplan⟩ := Plan.cases_of_resolve h
  rcases hplan with ⟨n, i, -, -, hplan⟩ | ⟨v, -, -, hplan⟩ | ⟨n, -, rfl⟩
  · obtain ⟨_, _, _, _, -, -, -, -, -, rfl⟩ := Resolve.exists_of_signaturePlan hplan
    rfl
  · obtain ⟨_, _, _, _, -, -, -, -, -, rfl⟩ := Resolve.exists_of_signaturePlan hplan
    rfl
  · rfl

/-- **The fixes of modifiers change nothing but modifiers.**

When a reference that is not needed is made a value, or one that only gives a value out is made such
an output, then in every changed document the words are those of before without the `ref` of the
rewritten sites, or with `out` in its place, and the comments and directives are the same.  Every
other document stays as it is. -/
theorem runFix_changes_modifiers_only {p : Program} {f : Finding}
    {new : Option (TokenKind × String)} (hrule : f.rule.Rewords new) {cancelled : Bool}
    {o : PlanOutcome} (h : f.runFix p cancelled = .ok o) :
    ∃ plan, Plan.resolve p f cancelled = .ok plan ∧
      (∀ c ∈ o.documents, ∃ d d' sites, p.solution.document? c.document = some d ∧
        o.solution.document? c.document = some d' ∧ d'.path = d.path ∧ d.text = c.before ∧
        d'.text = c.after ∧ (c.document, sites) ∈ plan.sites ∧
        ChangesModifiersOnly plan new (Execution.orderedSites sites) d.text d'.text) ∧
      ∀ id, (∀ c ∈ o.documents, c.document ≠ id) →
        o.solution.document? id = p.solution.document? id := by
  have hsound := Finding.sound_of_runFix h
  obtain ⟨plan, hplan, hexecute⟩ := exists_of_bind_eq_ok h
  have hrule' : plan.rule.Rewords new := (Plan.rule_of_resolve hplan).symm ▸ hrule
  refine ⟨plan, hplan, fun c hc => ?_, fun id hid => ?_⟩
  · obtain ⟨d, sites, skipped, hd, hsites, hchange⟩ := Plan.exists_sites_of_execute hexecute hc
    obtain ⟨d₁, d', hd₁, hd', hpath, htext⟩ :=
      Solution.document?_withChanges_of_mem hsound.distinct hc hsound.solution
    obtain rfl := Option.some.inj (hd.symm.trans hd₁)
    have hbefore := (Execution.sound_of_changeDocument hchange).before
    have honly := Execution.changesModifiersOnly_of_changeDocument hrule' hchange
    exact ⟨d, d', sites, hd, hd', hpath, hbefore.symm, htext, hsites, htext.symm ▸ honly⟩
  · exact Solution.document?_withChanges_of_forall_ne hid hsound.solution

/-! ### A parameter and its argument

A method and a call of it lose their modifier together, and the comment beside one of them stays. -/

/-- A method that does not need to be passed a reference, and a call of it. -/
def borrower : Program :=
  .ofSolution (.ofFiles [("A.cs", "class C{void M(ref int a){}void N(int x){M(ref/**/x);}}")])

/-- The finding about the parameter of the method. -/
def borrowerFinding : Finding := ⟨.unneededRef, 0, ⟨15, 18⟩, ["a"]⟩

/-- Both lose the modifier, and the comment behind one of them stays. -/
theorem runFix_changes_modifiers_only_both : borrowerFinding.rule.Rewords none ∧
    ∃ o plan, borrowerFinding.runFix borrower false = .ok o ∧
      (o.solution.document? 0).map Document.text =
        some "class C{void M(int a){}void N(int x){M(/**/x);}}" ∧
      Plan.resolve borrower borrowerFinding false = .ok plan ∧
      ∀ c ∈ o.documents, ∃ d d' sites, borrower.solution.document? c.document = some d ∧
        o.solution.document? c.document = some d' ∧ (c.document, sites) ∈ plan.sites ∧
        ChangesModifiersOnly plan none (Execution.orderedSites sites) d.text d'.text := by
  have hrule : borrowerFinding.rule.Rewords none := .inl ⟨rfl, rfl⟩
  have hrun : (borrowerFinding.runFix borrower false).toOption.map
      (fun o => (o.solution.document? 0).map Document.text) =
        some (some "class C{void M(int a){}void N(int x){M(/**/x);}}") := by
    decide +kernel
  refine ⟨hrule, ?_⟩
  cases ho : borrowerFinding.runFix borrower false with
  | error e =>
    rw [ho] at hrun
    cases hrun
  | ok o =>
    rw [ho] at hrun
    obtain ⟨plan, hplan, hchanges, -⟩ := runFix_changes_modifiers_only hrule ho
    refine ⟨o, plan, rfl, Option.some.inj hrun, hplan, fun c hc => ?_⟩
    obtain ⟨d, d', sites, hd, hd', -, -, -, hsites, honly⟩ := hchanges c hc
    exact ⟨d, d', sites, hd, hd', hsites, honly⟩

end CodeMend
