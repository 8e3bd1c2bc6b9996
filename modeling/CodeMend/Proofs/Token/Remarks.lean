import CodeMend.Proofs.Token.Tidying

/-!
# CodeMend — remarks in place

A rewrite puts a text together from parts of the source and from trivia of its tokens.  What it
keeps of the comments and directives is found in that text again, one behind the other, and none of
them may run on into what comes to stand behind it.

* **`Carries`** — a text in which pieces of trivia occur in order, each as far as it goes.
* **`InPlace`** — a piece of trivia stands in the source at its span.
* **`carries_of_extract?`** — a part of the source carries the pieces that stand in it.
* **`inPlace_of_lexed`** — so all trivia of the tokens of a source does.
* **`Spells.offset_eq`**, **`Spells.fullStop_eq`** — where a token stands, measured by the tokens
  before it.
-/

namespace CodeMend

open Lexer

variable {rest rest' x y : List Char} {ps qs : List Trivia} {source text : String}
  {start stop : Nat}

/-! ## Texts that carry pieces

To keep comments, it is enough that they occur in the new text in their order.  A comment up to the
end of its line must also still end there. -/

/-- The piece goes on up to the end of its line, whatever comes to stand behind it there. -/
def Trivia.fillsLine (t : Trivia) : Bool := t.kind == .singleLineComment || t.kind == .directive

/-- The pieces occur in the text one behind the other, and none of them runs on into what comes
behind it.  `rest` is what follows the text. -/
inductive Carries (rest : List Char) : List Trivia → List Char → Prop where
  | nil (text : List Char) : Carries rest [] text
  | cons (front : List Char) {p : Trivia} {ps : List Trivia} {back : List Char}
      (hline : p.fillsLine = true → Halts (back ++ rest)) (hback : Carries rest ps back) :
      Carries rest (p :: ps) (front ++ (p.text.toList ++ back))

namespace Carries

theorem prepend (h : Carries rest ps x) (front : List Char) : Carries rest ps (front ++ x) := by
  cases h with
  | nil => exact .nil _
  | cons front' hline hback =>
    rw [← List.append_assoc]
    exact .cons _ hline hback

/-- One text behind another carries the pieces of both. -/
theorem append (h : Carries (y ++ rest) ps x) (hy : Carries rest qs y) :
    Carries rest (ps ++ qs) (x ++ y) := by
  induction h with
  | nil x => exact hy.prepend x
  | cons front hline _ ih =>
    rw [List.cons_append, List.append_assoc, List.append_assoc]
    exact .cons front (by rwa [List.append_assoc]) ih

/-- What carries some pieces carries part of them. -/
theorem sublist (h : Carries rest ps x) (hqs : qs.Sublist ps) : Carries rest qs x := by
  induction h generalizing qs with
  | nil x =>
    rw [List.sublist_nil.mp hqs]
    exact .nil x
  | cons front hline _ ih =>
    cases hqs with
    | cons _ hqs => exact ((ih hqs).prepend _).prepend front
    | cons_cons _ hqs => exact .cons front hline (ih hqs)

/-- Behind the pieces the text may go on. -/
theorem extend (h : Carries (y ++ rest) ps x) : Carries rest ps (x ++ y) := by
  have happend := h.append (.nil y)
  rwa [List.append_nil] at happend

/-- A text that carries some pieces has each of them in it. -/
theorem exists_of_mem (h : Carries rest ps x) {p : Trivia} (hp : p ∈ ps) :
    ∃ front back, x = front ++ (p.text.toList ++ back) := by
  induction h with
  | nil => cases hp
  | @cons front q _ back _ _ ih =>
    rcases List.mem_cons.mp hp with rfl | hp
    · exact ⟨front, back, rfl⟩
    · obtain ⟨front', back', rfl⟩ := ih hp
      exact ⟨front ++ (q.text.toList ++ front'), back', by simp⟩

end Carries

/-! ## Parts of a source

An edit copies parts of the source.  Pieces that stand inside of such a part come along. -/

/-- A part within a part. -/
theorem exists_append_of_extract? {s t u : String} {lo hi : Nat}
    (ht : extract? s start stop = some t) (hu : extract? s lo hi = some u) (hlo : start ≤ lo)
    (hhi : hi ≤ stop) : ∃ front back : String,
      t.toList = front.toList ++ (u.toList ++ back.toList) ∧
        extract? s start lo = some front ∧ extract? s hi stop = some back := by
  obtain ⟨a, c, hs, ha, hstop⟩ := extract?_eq_some_iff.mp ht
  obtain ⟨a', c', hs', ha', hhi'⟩ := extract?_eq_some_iff.mp hu
  obtain ⟨m, rfl, hm⟩ := exists_append_of_byteLength_le (hs.symm.trans hs') (by omega)
  rw [byteLength_append] at ha' hhi'
  obtain ⟨back, htext, hc'⟩ := exists_append_of_byteLength_le
    (a := m ++ u.toList) (b := c') (c := t.toList) (d := c) (by rw [hm, List.append_assoc])
    (by rw [byteLength_append]; omega)
  rw [List.append_assoc] at htext
  have hlength : byteLength t.toList =
      byteLength m + (byteLength u.toList + byteLength back) := by
    rw [htext, byteLength_append, byteLength_append]
  refine ⟨String.ofList m, String.ofList back, ?_, extract?_eq_some_iff.mpr
    ⟨a, u.toList ++ c', ?_, ha, ?_⟩, extract?_eq_some_iff.mpr ⟨a ++ (m ++ u.toList), c, ?_, ?_, ?_⟩⟩
  · simpa using htext
  · rw [hs', String.toList_ofList, List.append_assoc]
  · rw [String.toList_ofList]
    omega
  · rw [hs, htext, String.toList_ofList]
    simp
  · rw [byteLength_append, byteLength_append]
    omega
  · rw [byteLength_append, byteLength_append, String.toList_ofList]
    omega

/-- Two parts of which one follows the other are one part. -/
theorem extract?_append {s t u : String} {mid : Nat} (ht : extract? s start mid = some t)
    (hu : extract? s mid stop = some u) : extract? s start stop = some (t ++ u) := by
  obtain ⟨a, c, hs, ha, hmid⟩ := extract?_eq_some_iff.mp ht
  obtain ⟨a', c', hs', ha', hstop⟩ := extract?_eq_some_iff.mp hu
  rw [← List.append_assoc] at hs
  obtain ⟨m, rfl, rfl⟩ := exists_append_of_byteLength_le (hs.symm.trans hs')
    (by rw [byteLength_append]; omega)
  rw [byteLength_append, byteLength_append] at ha' hstop
  have hm : m = [] := byteLength_eq_zero_iff.mp (by omega)
  subst hm
  refine extract?_eq_some_iff.mpr ⟨a, c', ?_, ha, ?_⟩
  · rw [hs', String.toList_append]
    simp
  · rw [String.toList_append, byteLength_append]
    omega

/-- A line ends at an offset of the source. -/
def HaltsAt (source : String) (offset : Nat) : Prop :=
  ∃ front back, source.toList = front ++ back ∧ byteLength front = offset ∧ Halts back

theorem HaltsAt.halts {offset : Nat} {front back : List Char} (h : HaltsAt source offset)
    (hsource : source.toList = front ++ back) (hfront : byteLength front = offset) :
    Halts back := by
  obtain ⟨front', back', hsource', hfront', hhalts⟩ := h
  obtain ⟨m, hm, rfl⟩ := exists_append_of_byteLength_le (hsource'.symm.trans hsource) (by omega)
  rw [hm, byteLength_append] at hfront
  have hnil : m = [] := byteLength_eq_zero_iff.mp (by omega)
  rwa [hnil] at hhalts

/-- A comment starts in front of the text. -/
def OpensComment (cs : List Char) : Prop := ∃ d x, cs = '/' :: d :: x ∧ (d = '/' ∨ d = '*')

theorem OpensComment.append (h : OpensComment x) (y : List Char) : OpensComment (x ++ y) := by
  obtain ⟨d, z, rfl, hd⟩ := h
  exact ⟨d, z ++ y, rfl, hd⟩

/-- No comment starts where a token does. -/
theorem Word.not_opensComment {b : Bool} {c : Char} {w : List Char} {kind : TokenKind}
    (h : Word b c w kind rest) : ¬ OpensComment (c :: (w ++ rest)) := by
  rintro ⟨d, z, heq, hd⟩
  obtain ⟨hc, hbehind⟩ := List.cons.inj heq
  obtain ⟨hslash, hstar⟩ := h.comment hc
  rw [hbehind] at hslash hstar
  rcases hd with rfl | rfl
  · exact hslash rfl
  · exact hstar rfl

/-- The piece stands in the source at its span, and goes no further. -/
structure InPlace (source : String) (p : Span × Trivia) : Prop where
  nonempty : p.1.start < p.1.stop
  text : extract? source p.1.start p.1.stop = some p.2.text
  line : p.2.fillsLine = true → HaltsAt source p.1.stop
  opens : p.2.isComment = true → OpensComment p.2.text.toList

/-- The first piece ends before the second one starts. -/
def Before (p q : Span × Trivia) : Prop := p.1.stop ≤ q.1.start

/-- **A part of the source carries the pieces that stand in it.**  When one that goes on to the end
of its line reaches the end of the part, a line has to end also in front of what comes behind it. -/
theorem carries_of_extract? {ps : List (Span × Trivia)}
    (htext : extract? source start stop = some text) (hps : ps.Pairwise Before)
    (hplace : ∀ p ∈ ps, InPlace source p) (hstart : ∀ p ∈ ps, start ≤ p.1.start)
    (hstop : ∀ p ∈ ps, p.1.stop ≤ stop)
    (hrest : (∃ p ∈ ps, p.2.fillsLine = true ∧ p.1.stop = stop) → HaltsAt source stop →
      Halts rest) :
    Carries rest (ps.map Prod.snd) text.toList := by
  induction ps generalizing start text with
  | nil => exact .nil _
  | cons p ps ih =>
    obtain ⟨hbefore, hps⟩ := List.pairwise_cons.mp hps
    obtain ⟨hp, hplace⟩ := List.forall_mem_cons.mp hplace
    obtain ⟨hpstart, -⟩ := List.forall_mem_cons.mp hstart
    obtain ⟨hpstop, hstop⟩ := List.forall_mem_cons.mp hstop
    obtain ⟨front, back, hsplit, -, hback⟩ :=
      exists_append_of_extract? htext hp.text hpstart hpstop
    have htail := ih hback hps hplace hbefore hstop
      fun ⟨q, hq, heq⟩ => hrest ⟨q, List.mem_cons_of_mem _ hq, heq⟩
    rw [hsplit, List.map_cons]
    refine .cons _ (fun hline => ?_) htail
    obtain ⟨a, c, hsource, ha, hac⟩ := extract?_eq_some_iff.mp hback
    have hhalts := (hp.line hline).halts hsource ha
    cases hchars : back.toList with
    | cons d ds =>
      rw [hchars] at hhalts
      exact hhalts
    | nil =>
      -- the piece reaches the end of the part
      rw [hchars, byteLength_nil] at hac
      refine hrest ⟨p, List.mem_cons_self, hline, by omega⟩ ?_
      have hend := hp.line hline
      rwa [show p.1.stop = stop by omega] at hend

/-! ## Trivia of tokens

The pieces of a source stand in order and do not overlap. -/

namespace Trivia

theorem map_snd_placed (offset : Nat) (ts : List Trivia) :
    (placed offset ts).map Prod.snd = ts := by
  induction ts generalizing offset with
  | nil => rfl
  | cons t ts ih => rw [placed, List.map_cons, ih]

/-- Placed pieces lie where they are placed. -/
theorem bounds_of_mem_placed {offset : Nat} {ts : List Trivia} {p : Span × Trivia}
    (hp : p ∈ placed offset ts) :
    offset ≤ p.1.start ∧ p.1.start ≤ p.1.stop ∧ p.1.stop ≤ offset + width ts := by
  induction ts generalizing offset with
  | nil => cases hp
  | cons t ts ih =>
    have hwidth : width (t :: ts) = t.text.utf8ByteSize + width ts := rfl
    rcases List.mem_cons.mp hp with rfl | hp
    · exact ⟨Nat.le_refl _, Nat.le_add_right _ _, by rw [hwidth]; dsimp only; omega⟩
    · have hrest := ih hp
      rw [hwidth]
      omega

theorem pairwise_placed (offset : Nat) (ts : List Trivia) :
    (placed offset ts).Pairwise Before := by
  induction ts generalizing offset with
  | nil => exact .nil
  | cons t ts ih => exact .cons (fun p hp => (bounds_of_mem_placed hp).1) (ih _)

end Trivia

/-- What goes on to the end of its line ends where the line does. -/
theorem halts_of_scanLeading {b : Bool} {c : Char} {w : List Char} {t : Trivia}
    (h : scanLeading b c (w ++ x) = some (t.kind, w.length)) (hline : t.fillsLine = true) :
    Halts x := by
  rw [← countWhile_eq_zero_iff_halts]
  rcases cases_of_scanLeading h with ⟨-, -, hn⟩ | ⟨hk, -⟩ | ⟨hk, -⟩ |
    ⟨-, -, rest, heq, hn⟩ | ⟨hk, -⟩
  · exact (countWhile_append_eq_length_iff.mp hn.symm).2
  · rw [Trivia.fillsLine, hk] at hline
    cases hline
  · rw [Trivia.fillsLine, hk] at hline
    cases hline
  · cases w with
    | nil => exact absurd hn (by rw [List.length_nil]; omega)
    | cons d v =>
      obtain ⟨-, rfl⟩ := List.cons.inj heq
      rw [List.length_cons, Nat.add_comm] at hn
      exact (countWhile_append_eq_length_iff.mp (Nat.add_left_cancel hn).symm).2
  · rw [Trivia.fillsLine, hk] at hline
    cases hline

/-- What is scanned as a comment starts as one. -/
theorem opensComment_of_scanLeading {b : Bool} {c : Char} {w : List Char} {t : Trivia}
    (h : scanLeading b c (w ++ x) = some (t.kind, w.length)) (hcomment : t.isComment = true) :
    OpensComment (c :: w) := by
  -- the second character is one of those scanned
  have hsecond : ∀ {d rest}, w ++ x = d :: rest → 1 ≤ w.length → ∃ v, w = d :: v := by
    intro d rest heq hlength
    cases w with
    | nil => cases hlength
    | cons e v => exact ⟨v, by rw [(List.cons.inj heq).1]⟩
  rcases cases_of_scanLeading h with ⟨hk, -⟩ | ⟨hk, -⟩ | ⟨hk, -⟩ |
    ⟨-, rfl, rest, heq, hn⟩ | ⟨-, rfl, rest, m, heq, -, hn⟩
  · simp [Trivia.isComment, hk] at hcomment
  · simp [Trivia.isComment, hk] at hcomment
  · simp [Trivia.isComment, hk] at hcomment
  · obtain ⟨v, rfl⟩ := hsecond heq (by omega)
    exact ⟨'/', v, rfl, .inl rfl⟩
  · obtain ⟨v, rfl⟩ := hsecond heq (by omega)
    exact ⟨'*', v, rfl, .inr rfl⟩

/-- The pieces of a gap are in place. -/
theorem inPlace_of_gap {b : Bool} {ts : List Trivia} {front : List Char} (h : Gap b ts x)
    (hsource : source.toList = front ++ (Trivia.chars ts ++ x)) :
    ∀ p ∈ Trivia.placed (byteLength front) ts, InPlace source p := by
  induction ts generalizing b front with
  | nil => simp [Trivia.placed]
  | cons t ts ih =>
    obtain ⟨⟨c, w, htext, hscan⟩, hts⟩ := h
    have hlength : byteLength (front ++ t.text.toList) =
        byteLength front + t.text.utf8ByteSize := by
      rw [byteLength_append, byteLength_toList]
    have hsplit : source.toList = (front ++ t.text.toList) ++ (Trivia.chars ts ++ x) := by
      rw [hsource, Trivia.chars_cons]
      simp
    have hpos : 0 < t.text.utf8ByteSize := by
      rw [← byteLength_toList, htext]
      exact byteLength_pos_iff.mpr (List.cons_ne_nil _ _)
    intro p hp
    rcases List.mem_cons.mp hp with rfl | hp
    · refine ⟨Nat.lt_add_of_pos_right hpos, extract?_eq_some_iff.mpr
        ⟨front, Trivia.chars ts ++ x, ?_, rfl, ?_⟩, fun hline =>
        ⟨_, _, hsplit, hlength, halts_of_scanLeading hscan hline⟩, fun hcomment =>
        htext ▸ opensComment_of_scanLeading hscan hcomment⟩
      · rw [hsplit, List.append_assoc]
      · rw [byteLength_toList]
    · refine ih hts hsplit p ?_
      rwa [hlength]

/-- The trivia between two tokens: what stands behind the first one, and what in front of the
second one. -/
theorem mem_gap_or {pos : Nat} {behind : List Trivia} {t : Token} {ts : List Token}
    (hoffset : t.offset = pos + Trivia.width (behind ++ t.leading)) {p : Span × Trivia}
    (hp : p ∈ Trivia.placed pos behind ++ (t :: ts).flatMap Token.placedTrivia) :
    p ∈ Trivia.placed pos (behind ++ t.leading) ∨
      p ∈ Trivia.placed t.stop t.trailing ++ ts.flatMap Token.placedTrivia := by
  have hstart : t.fullStart = pos + Trivia.width behind := by
    rw [Token.fullStart, hoffset, Trivia.width_append]
    omega
  rw [Trivia.placed_append, ← hstart]
  simp only [List.flatMap_cons, Token.placedTrivia, List.mem_append] at hp ⊢
  tauto

/-- **The trivia of the tokens of a text is in place.** -/
theorem inPlace_of_lexed {pos : Nat} {b : Bool} {behind : List Trivia} {cs front : List Char}
    {tokens : List Token} (h : Lexed pos b behind cs tokens)
    (hsource : source.toList = front ++ cs) (hfront : byteLength front = pos) :
    ∀ p ∈ Trivia.placed pos behind ++ tokens.flatMap Token.placedTrivia, InPlace source p := by
  induction h generalizing front with
  | last pos b behind before hgap =>
    subst hfront
    intro p hp
    rcases mem_gap_or rfl hp with hp | hp
    · exact inPlace_of_gap hgap (by simpa using hsource) p hp
    · simp [Trivia.placed] at hp
  | more pos b behind before after c w kind rest tokens hgap hword htail ih =>
    subst hfront
    have hstop : byteLength (front ++ (Trivia.chars (behind ++ before) ++ (c :: w))) =
        byteLength front + Trivia.width (behind ++ before) + byteLength (c :: w) := by
      rw [byteLength_append, byteLength_append, Trivia.byteLength_chars, Nat.add_assoc]
    intro p hp
    rcases mem_gap_or rfl hp with hp | hp
    · exact inPlace_of_gap hgap hsource p hp
    · refine ih (by simpa using hsource) hstop p ?_
      rwa [Token.stop, utf8ByteSize_ofList] at hp

/-! ## Where tokens stand

Offsets of tokens are sums of what stands in front of them. -/

theorem Trivia.utf8ByteSize_render (ts : List Trivia) :
    (Trivia.render ts).utf8ByteSize = Trivia.width ts := by
  rw [← byteLength_toList, ← Trivia.byteLength_chars]
  rfl

namespace Spells

variable {pos : Nat} {cs : List Char} {front back : List Token} {t : Token}

/-- The trivia in front of a token starts behind the tokens before it. -/
theorem offset_eq (h : Spells pos cs (front ++ t :: back)) :
    t.offset = pos + (Token.renderAll front).utf8ByteSize + Trivia.width t.leading := by
  induction front generalizing pos cs with
  | nil =>
    generalize hall : [] ++ t :: back = ts at h
    cases h <;> (obtain ⟨rfl, rfl⟩ := List.cons.inj hall; rfl)
  | cons u front ih =>
    generalize hall : u :: front ++ t :: back = ts at h
    cases h with
    | last =>
      rw [List.cons_append] at hall
      exact absurd (List.cons.inj hall).2 (by simp)
    | more _ kind text before after rest tokens hkind htext htail =>
      obtain ⟨rfl, rfl⟩ := List.cons.inj hall
      rw [ih htail]
      simp only [Token.renderAll, List.map_cons, String.join_cons, Token.render,
        String.utf8ByteSize_append, Trivia.utf8ByteSize_render]
      omega

/-- The trivia behind a token ends with the token. -/
theorem fullStop_eq (h : Spells pos cs (front ++ t :: back)) :
    t.fullStop = pos + (Token.renderAll (front ++ [t])).utf8ByteSize := by
  rw [Token.fullStop, Token.stop, h.offset_eq]
  simp only [Token.renderAll, List.map_append, String.join_append, List.map_cons, List.map_nil,
    String.join_cons, String.join_nil, Token.render, String.utf8ByteSize_append,
    Trivia.utf8ByteSize_render, String.utf8ByteSize_empty]
  omega

end Spells

end CodeMend
