import CodeMend.Proofs.Token.Regular
import CodeMend.Proofs.Token.Removal

/-!
# CodeMend — what stands next to a name

A name goes on for as long as there are parts of a name, so none stands behind it.  In front of it
stands the last character of the token or of the trivia before, and that is a part of a name only
when it belongs to a number: `0Get` is a number and a name.

* **`EndsIn`**, **`ClosesWith`** — with what a scan ends; numbers end with a digit, a letter or a
  bar, strings and characters with their quote, comments with a slash.
* **`isNamePart_getLast?_of_scanToken`** — the last character of a token in front of a name.
* **`Gap.exists_getLast?`** — the last character of trivia in front of a token.
* **`BehindNumber`**, **`Lexed.exists_name`** — the names that are cut off on both sides.
-/

namespace CodeMend

open Lexer Literal

namespace Literal

variable {p q : Char → Bool} {cs rest : List Char} {c d : Char} {k l n : Nat}

/-! ## The last character of a scan

How a token ends decides what may follow it without being taken in, and is told by its last
character. -/

/-- The last of the first `n` characters, if there is one, satisfies the condition. -/
def EndsIn (p : Char → Bool) (cs : List Char) (n : Nat) : Prop :=
  ∀ m, n = m + 1 → ∃ d, cs[m]? = some d ∧ p d = true

theorem EndsIn.zero : EndsIn p cs 0 := fun _ h => absurd h (Nat.succ_ne_zero _).symm

theorem EndsIn.one (h : p c = true) : EndsIn p (c :: cs) 1 := by
  intro m hm
  obtain rfl : 0 = m := Nat.succ.inj hm
  exact ⟨c, rfl, h⟩

theorem EndsIn.mono (h : EndsIn p cs n) (hpq : ∀ d, p d = true → q d = true) : EndsIn q cs n := by
  intro m hm
  obtain ⟨d, hd, hp⟩ := h m hm
  exact ⟨d, hd, hpq d hp⟩

/-- A scan that takes something, behind characters that are taken with it. -/
theorem EndsIn.after (h : EndsIn p (cs.drop k) n) (hn : n ≠ 0) : EndsIn p cs (k + n) := by
  obtain ⟨l, rfl⟩ := Nat.exists_eq_succ_of_ne_zero hn
  intro m hm
  obtain ⟨d, hd, hp⟩ := h l rfl
  obtain rfl : m = k + l := by omega
  exact ⟨d, by rwa [List.getElem?_drop] at hd, hp⟩

/-- One scan behind another. -/
theorem EndsIn.add (hk : EndsIn p cs k) (hl : EndsIn p (cs.drop k) l) : EndsIn p cs (k + l) := by
  cases l with
  | zero => exact hk
  | succ l => exact hl.after (Nat.succ_ne_zero l)

theorem endsIn_countWhile (p : Char → Bool) (cs : List Char) : EndsIn p cs (countWhile p cs) := by
  induction cs with
  | nil => exact .zero
  | cons c cs ih =>
    rw [countWhile]
    split
    next hc =>
      rw [Nat.add_comm]
      exact EndsIn.add (.one hc) ih
    next => exact .zero

theorem endsIn_suffix (limit : Nat) (p : Char → Bool) (cs : List Char) :
    EndsIn p cs (suffix limit p cs) := by
  intro m hm
  obtain ⟨d, hd, hp⟩ := endsIn_countWhile p (cs.take limit) m hm
  rw [List.getElem?_take] at hd
  exact ⟨d, (Option.ite_none_right_eq_some.mp hd).2, hp⟩

/-! ## Numbers

A number ends with a letter, a digit or a bar. -/

/-- The letters and digits of ASCII, by the ranges they stand in. -/
theorem isAlphanum_iff : c.isAlphanum = true ↔
    (('A' ≤ c ∧ c ≤ 'Z') ∨ ('a' ≤ c ∧ c ≤ 'z')) ∨ ('0' ≤ c ∧ c ≤ '9') := by
  have heq : c.isAlphanum = (decide ('A' ≤ c ∧ c ≤ 'Z') || ('a' ≤ c && c ≤ 'z') ||
      ('0' ≤ c && c ≤ '9')) := rfl
  simp only [heq, Bool.or_eq_true, Bool.and_eq_true, decide_eq_true_eq]

/-- Letters and digits of ASCII are parts of names. -/
theorem isNamePart_of_isAlphanum (h : c.isAlphanum = true) : isNamePart c = true := by
  have hascii : c.toNat < 128 := by
    rcases isAlphanum_iff.mp h with (⟨-, h⟩ | ⟨-, h⟩) | ⟨-, h⟩ <;>
      exact Nat.lt_of_le_of_lt (Char.le_def.mp h) (by decide)
  simp [isNamePart, Unicode.isAlphanumeric, hascii, h]

theorem isNamePart_of_isDigitOrBar (h : isDigitOrBar c = true) : isNamePart c = true := by
  simp only [isDigitOrBar, Bool.or_eq_true, decide_eq_true_eq] at h
  rcases h with h | rfl
  · exact isNamePart_of_isAlphanum (by simp [Char.isAlphanum, h])
  · decide

theorem isNamePart_of_isHexOrBar (h : isHexOrBar c = true) : isNamePart c = true := by
  simp only [isHexOrBar, Bool.or_eq_true, Bool.and_eq_true, decide_eq_true_eq] at h
  rcases h with ((h | ⟨hlo, hhi⟩) | ⟨hlo, hhi⟩) | rfl
  · exact isNamePart_of_isAlphanum (by simp [Char.isAlphanum, h])
  · have hz : c ≤ 'z' := Char.le_trans hhi (by decide)
    exact isNamePart_of_isAlphanum (isAlphanum_iff.mpr (.inl (.inr ⟨hlo, hz⟩)))
  · have hz : c ≤ 'Z' := Char.le_trans hhi (by decide)
    exact isNamePart_of_isAlphanum (isAlphanum_iff.mpr (.inl (.inl ⟨hlo, hz⟩)))
  · decide

theorem isNamePart_of_isBinaryOrBar (h : isBinaryOrBar c = true) : isNamePart c = true := by
  simp only [isBinaryOrBar, Bool.or_eq_true, decide_eq_true_eq] at h
  rcases h with (rfl | rfl) | rfl <;> decide

theorem isNamePart_of_suffix (h : (isIntegerSuffix c || isRealSuffix c) = true) :
    isNamePart c = true := by
  simp only [isIntegerSuffix, isRealSuffix, Bool.or_eq_true, decide_eq_true_eq] at h
  rcases h with (((rfl | rfl) | rfl) | rfl) | ((((rfl | rfl) | rfl) | rfl) | rfl) | rfl <;> decide

theorem endsIn_fraction (cs : List Char) : EndsIn isNamePart cs (fraction cs) := by
  unfold fraction
  split
  next rest =>
    dsimp only
    split
    next => exact .zero
    next hn =>
      exact .after ((endsIn_countWhile _ rest).mono fun _ => isNamePart_of_isDigitOrBar) hn
  next => exact .zero

theorem endsIn_exponent (cs : List Char) : EndsIn isNamePart cs (exponent cs) := by
  match cs with
  | [] => exact .zero
  | [e] =>
    have hzero : exponent [e] = 0 := by simp [exponent, countWhile]
    rw [hzero]
    exact .zero
  | e :: s :: cs =>
    rw [exponent_cons_cons]
    split
    next =>
      dsimp only
      generalize (if s = '+' || s = '-' then 1 else 0) = sign
      split
      next => exact .zero
      next hn =>
        refine .after ?_ hn
        rw [Nat.add_comm, List.drop_succ_cons]
        exact (endsIn_countWhile _ _).mono fun _ => isNamePart_of_isDigitOrBar
    next => exact .zero

theorem endsIn_decimal (cs : List Char) : EndsIn isNamePart cs (decimal cs) := by
  have hwhole : EndsIn isNamePart cs (countWhile isDigitOrBar cs) :=
    (endsIn_countWhile _ cs).mono fun _ => isNamePart_of_isDigitOrBar
  exact ((hwhole.add (endsIn_fraction _)).add (endsIn_exponent _)).add
    ((endsIn_suffix 2 _ _).mono fun _ => isNamePart_of_suffix)

theorem endsIn_pointDecimal (cs : List Char) : EndsIn isNamePart cs (pointDecimal cs) := by
  have hpart : EndsIn isNamePart cs (countWhile isDigitOrBar cs) :=
    (endsIn_countWhile _ cs).mono fun _ => isNamePart_of_isDigitOrBar
  exact (hpart.add (endsIn_exponent _)).add
    ((endsIn_suffix 1 _ _).mono fun _ h => isNamePart_of_suffix (by simp [h]))

theorem endsIn_prefixed? (h : prefixed? cs = some n) : EndsIn isNamePart cs n := by
  cases cs with
  | nil => cases h
  | cons x cs =>
    rw [prefixed?_cons] at h
    generalize hk : (if x = 'x' || x = 'X' then countWhile isHexOrBar cs
      else if x = 'b' || x = 'B' then countWhile isBinaryOrBar cs else 0) = k at h
    obtain ⟨hne, h⟩ := Option.ite_none_left_eq_some.mp h
    obtain rfl := Option.some.inj h
    have hdigits : EndsIn isNamePart cs k := by
      rw [← hk]
      split
      · exact (endsIn_countWhile _ cs).mono fun _ => isNamePart_of_isHexOrBar
      split
      · exact (endsIn_countWhile _ cs).mono fun _ => isNamePart_of_isBinaryOrBar
      · exact .zero
    refine EndsIn.add (.after hdigits hne) ?_
    rw [Nat.add_comm, List.drop_succ_cons]
    exact (endsIn_suffix 2 _ _).mono fun _ h => isNamePart_of_suffix (by simp [h])

/-! ## Strings, characters and comments

These end with the mark that closes them. -/

/-- The last of the first `n` characters is the given one. -/
def ClosesWith (quote : Char) (cs : List Char) (n : Nat) : Prop :=
  ∃ m, n = m + 1 ∧ cs[m]? = some quote

variable {quote : Char}

theorem ClosesWith.after (h : ClosesWith quote (cs.drop k) n) : ClosesWith quote cs (n + k) := by
  obtain ⟨m, rfl, hm⟩ := h
  refine ⟨m + k, by omega, ?_⟩
  rwa [List.getElem?_drop, Nat.add_comm] at hm

/-- The rest of a scan, behind what one step takes. -/
theorem ClosesWith.of_map {o : Option Nat} (h : o.map (· + k) = some n)
    (ho : ∀ m, o = some m → ClosesWith quote (cs.drop k) m) : ClosesWith quote cs n := by
  obtain ⟨m, hm, rfl⟩ := Option.map_eq_some_iff.mp h
  exact (ho m hm).after

theorem closesWith_regularBody {first : Bool} (h : regularBody quote first cs = some n) :
    ClosesWith quote cs n := by
  fun_induction regularBody quote first cs generalizing n with
  | case1 => cases h
  | case2 => cases h
  | case3 first d rest ih => exact .of_map h fun m hm => ih hm
  | case4 first c cs hslash hquote =>
    obtain rfl := Option.some.inj h
    exact ⟨0, rfl, by simp_all⟩
  | case5 => cases h
  | case6 first c cs hslash hquote hbreak ih => exact .of_map h fun m hm => ih hm

theorem closesWith_verbatimBody (h : verbatimBody cs = some n) : ClosesWith '"' cs n := by
  fun_induction verbatimBody cs generalizing n with
  | case1 => cases h
  | case2 => exact ⟨0, (Option.some.inj h).symm, rfl⟩
  | case3 rest ih => exact .of_map h fun m hm => ih hm
  | case4 d rest hd => exact ⟨0, (Option.some.inj h).symm, rfl⟩
  | case5 c cs hc ih => exact .of_map h fun m hm => ih hm

theorem closesWith_commentBody (h : commentBody cs = some n) : ClosesWith '/' cs n := by
  fun_induction commentBody cs generalizing n with
  | case1 => cases h
  | case2 c cs hc =>
    obtain ⟨rest, rfl⟩ := List.head?_eq_some_iff.mp hc.2
    exact ⟨1, (Option.some.inj h).symm, rfl⟩
  | case3 c cs hc ih => exact .of_map h fun m hm => ih hm

theorem closesWith_interpolatedBody {verbatim : Bool} (h : interpolatedBody verbatim cs = some n) :
    ClosesWith '"' cs n := by
  fun_induction interpolatedBody verbatim cs generalizing n with
  | case1 => cases h
  | case2 c cs hslash ih => exact .of_map h fun m hm => by simpa using ih hm
  | case3 cs hslash hpair ih => exact .of_map h fun m hm => by simpa using ih hm
  | case4 => exact ⟨0, (Option.some.inj h).symm, rfl⟩
  | case5 => cases h
  | case6 cs hpair hslash hquote hbreak ih => exact .of_map h fun m hm => by simpa using ih hm
  | case7 cs hbrace hslash hquote hbreak ih =>
    obtain ⟨a, -, h⟩ := Option.bind_eq_some_iff.mp h
    obtain ⟨m, hm, h⟩ := Option.bind_eq_some_iff.mp h
    obtain rfl := Option.some.inj h
    rw [Nat.add_comm]
    refine ClosesWith.after ?_
    rw [Nat.add_comm, List.drop_succ_cons]
    exact ih a hm
  | case8 c cs hslash hquote hbreak hbrace ih => exact .of_map h fun m hm => ih hm

/-- A string ends with a quote. -/
theorem closesWith_string (h : Literal.string c cs = some n) : ClosesWith '"' cs n := by
  unfold Literal.string at h
  split at h
  · exact .of_map h fun _ => closesWith_interpolatedBody
  · exact .of_map h fun _ => closesWith_interpolatedBody
  · exact .of_map h fun _ => closesWith_interpolatedBody
  · exact .of_map h fun _ => closesWith_verbatimBody
  · rw [plainBody_eq_regularBody] at h
    exact closesWith_regularBody h
  · cases h

end Literal

namespace Lexer

variable {b : Bool} {c d : Char} {w x cs : List Char} {kind : TokenKind} {p : Char → Bool}

/-! ## The last character of a token

All sorts of tokens are gone through once. -/

theorem getLast?_cons_of_closesWith {quote : Char} (h : ClosesWith quote (w ++ x) w.length) :
    (c :: w).getLast? = some quote := by
  obtain ⟨m, hm, hquote⟩ := h
  rw [List.getElem?_append_left (by omega)] at hquote
  rw [List.getLast?_eq_getElem?, List.length_cons, hm]
  simpa using hquote

theorem getLast?_cons_of_endsIn (hc : w = [] → p c = true) (h : EndsIn p (w ++ x) w.length) :
    ∀ d ∈ (c :: w).getLast?, p d = true := by
  rw [List.getLast?_eq_getElem?, List.length_cons]
  cases hw : w.length with
  | zero => simp [hc (List.eq_nil_of_length_eq_zero hw)]
  | succ m =>
    obtain ⟨e, he, hp⟩ := h m hw
    rw [List.getElem?_append_left (by omega)] at he
    simp [he, hp]

theorem isNamePart_of_isNameStart (h : isNameStart c = true) : isNamePart c = true := by
  simp only [isNameStart, Unicode.isAlphabetic, Bool.or_eq_true, decide_eq_true_eq] at h
  simp only [isNamePart, Unicode.isAlphanumeric, Bool.or_eq_true, decide_eq_true_eq]
  refine h.imp_right fun h => ?_
  split at h <;> simp_all [Char.isAlphanum]

/-- A name goes on for as long as there are parts of a name. -/
theorem isNamePart_of_name? (h : name? c (w ++ x) = some w.length) :
    (c = '@' ∨ isNameStart c = true) ∧ (∀ d ∈ w, isNamePart d = true) ∧
      ∀ d ∈ x.head?, isNamePart d = false := by
  have hcount : ∀ {v : List Char}, countWhile isNamePart (v ++ x) = v.length →
      (∀ d ∈ v, isNamePart d = true) ∧ ∀ d ∈ x.head?, isNamePart d = false := by
    intro v hv
    obtain ⟨hparts, hend⟩ := countWhile_append_eq_length_iff.mp hv
    refine ⟨hparts, ?_⟩
    cases x with
    | nil => simp
    | cons d x => simpa [countWhile] using hend
  unfold name? at h
  split at h
  next hc =>
    split at h
    next d rest heq =>
      obtain ⟨hd, hlength⟩ := Option.ite_none_right_eq_some.mp h
      cases w with
      | nil => exact absurd (Option.some.inj hlength) (by rw [List.length_nil]; omega)
      | cons e v =>
        obtain ⟨rfl, rfl⟩ := List.cons.inj heq
        have hlength : 1 + countWhile isNamePart (v ++ x) = 1 + v.length :=
          (Option.some.inj hlength).trans (Nat.add_comm _ _)
        obtain ⟨hparts, hend⟩ := hcount (Nat.add_left_cancel hlength)
        exact ⟨.inl hc, List.forall_mem_cons.mpr ⟨isNamePart_of_isNameStart hd, hparts⟩, hend⟩
    next => cases h
  next =>
    obtain ⟨hc, hlength⟩ := Option.ite_none_right_eq_some.mp h
    exact ⟨.inr hc, hcount (Option.some.inj hlength)⟩

/-- A mark has no parts of a name. -/
theorem isNamePart_of_mark? (h : mark? c (w ++ x) = some w.length) :
    ∀ d ∈ c :: w, isNamePart d = false := by
  have hcompound : ∀ m ∈ compoundMarks, (m.all fun d => decide (isNamePart d = false)) = true :=
    forall_mem_of_all (by decide +kernel)
  have hsingle : ∀ d ∈ singleMarks, isNamePart d = false := forall_mem_of_all (by decide +kernel)
  rw [mark?_eq] at h
  split at h
  next hpoint =>
    obtain ⟨rfl, hhead, -⟩ := hpoint
    have hlength : w.length = 1 := (Option.some.inj h).symm
    obtain ⟨e, rfl⟩ := List.length_eq_one_iff.mp hlength
    obtain rfl : e = '.' := by simpa using hhead
    exact forall_mem_of_all (by decide)
  split at h
  next m hm =>
    have hprefix : m <+: c :: (w ++ x) := by simpa using List.find?_some hm
    have hlength : m.length - 1 = w.length := Option.some.inj h
    have hmem := List.mem_of_find?_eq_some hm
    have hne : m ≠ [] := by
      rintro rfl
      have hnil : [] ∉ compoundMarks := by decide
      exact hnil hmem
    have hpos := List.length_pos_iff.mpr hne
    -- The mark was found at the front and has this length, so it is what was taken.
    have hall : m = c :: w := by
      refine List.IsPrefix.eq_of_length (List.prefix_of_prefix_length_le hprefix
        (List.prefix_append (c :: w) x) ?_) ?_ <;> rw [List.length_cons] <;> omega
    rw [← hall]
    exact forall_mem_of_all (hcompound m hmem)
  next =>
    obtain ⟨hc, hlength⟩ := Option.ite_none_right_eq_some.mp h
    have hnil : w = [] := List.eq_nil_of_length_eq_zero (Option.some.inj hlength).symm
    subst hnil
    simpa using hsingle c (by simpa using hc)

/-- **Numbers, and no other tokens, end with a part of a name when another one follows.** -/
theorem isNamePart_getLast?_of_scanToken (h : scanToken c (w ++ d :: x) = .ok (kind, w.length))
    (hd : isNamePart d = true) :
    ∀ e ∈ (c :: w).getLast?,
      isNamePart e = (kind == .integerLiteral || kind == .realLiteral) := by
  unfold scanToken at h
  split at h
  · split at h
    next m hm =>
      obtain ⟨rfl, rfl⟩ := Prod.mk.inj (Except.ok.inj h)
      rw [getLast?_cons_of_closesWith (closesWith_string hm)]
      intro e he
      obtain rfl := Option.mem_some_iff.mp he
      decide
    next => cases h
  split at h
  · split at h
    next m hm =>
      obtain ⟨rfl, rfl⟩ := Prod.mk.inj (Except.ok.inj h)
      rw [characterBody_eq_regularBody] at hm
      rw [getLast?_cons_of_closesWith (closesWith_regularBody hm)]
      intro e he
      obtain rfl := Option.mem_some_iff.mp he
      decide
    next => cases h
  split at h
  next hdigit =>
    have hc : isNamePart c = true := isNamePart_of_isAlphanum (by simp [Char.isAlphanum, hdigit])
    split at h
    next m hm =>
      obtain ⟨rfl, rfl⟩ := Prod.mk.inj (Except.ok.inj h)
      have hprefixed := (Option.ite_none_right_eq_some.mp hm).2
      exact getLast?_cons_of_endsIn (fun _ => hc) (endsIn_prefixed? hprefixed)
    next =>
      obtain ⟨hkind, hlength⟩ := Prod.mk.inj (Except.ok.inj h)
      have hends := endsIn_decimal (w ++ d :: x)
      rw [hlength] at hends
      have hnumber : (kind == .integerLiteral || kind == .realLiteral) = true := by
        rw [← hkind]
        split <;> rfl
      rw [hnumber]
      exact getLast?_cons_of_endsIn (fun _ => hc) hends
  split at h
  next hpoint =>
    obtain ⟨rfl, hlength⟩ := Prod.mk.inj (Except.ok.inj h)
    have hends := endsIn_pointDecimal (w ++ d :: x)
    rw [hlength] at hends
    refine getLast?_cons_of_endsIn (fun hw => ?_) hends
    -- the digit behind the point belongs to the number
    subst hw
    simp only [List.nil_append, List.head?_cons, Option.any_some, Bool.and_eq_true] at hpoint
    simp [pointDecimal, countWhile, isDigitOrBar, hpoint.2] at hlength
  split at h
  next m hm =>
    obtain ⟨-, rfl⟩ := Prod.mk.inj (Except.ok.inj h)
    have hno := (isNamePart_of_name? hm).2.2 d rfl
    rw [hd] at hno
    cases hno
  next =>
    split at h
    next m hm =>
      obtain ⟨rfl, rfl⟩ := Prod.mk.inj (Except.ok.inj h)
      intro e he
      exact isNamePart_of_mark? hm e (List.mem_of_getLast? he)
    next => cases h

/-- A piece of trivia ends with no part of a name, unless it goes to the end of its line. -/
theorem exists_getLast?_of_scanLeading {k : TriviaKind}
    (h : scanLeading b c (w ++ x) = some (k, w.length)) (hx : ¬ Halts x) :
    ∃ e, (c :: w).getLast? = some e ∧ isNamePart e = false := by
  have hseam : EndsAtSeams isNamePart := by decide +kernel
  have hline : ∀ {v : List Char},
      countWhile (fun d => !isLineBreak d) (v ++ x) = v.length → False :=
    fun hv => hx (countWhile_eq_zero_iff_halts.mp (countWhile_append_eq_length_iff.mp hv).2)
  have hall : (∀ e ∈ c :: w, e ∈ seamChars) →
      ∃ e, (c :: w).getLast? = some e ∧ isNamePart e = false := by
    intro hmem
    have hlast := List.getLast?_eq_some_getLast (List.cons_ne_nil c w)
    exact ⟨_, hlast, hseam _ (hmem _ (List.getLast_mem (List.cons_ne_nil c w)))⟩
  obtain ⟨hblanks, hlines⟩ := forall_of_scanLeading h
  rcases cases_of_scanLeading h with ⟨-, -, hn⟩ | ⟨hk, -⟩ | ⟨hk, -⟩ | ⟨-, -, rest, heq, hn⟩ |
    ⟨-, rfl, rest, m, heq, hm, hn⟩
  · exact (hline hn.symm).elim
  · exact hall fun e he => mem_seamChars_of_isSpace (hblanks hk e he)
  · exact hall fun e he => mem_seamChars_of_isLineBreak (hlines hk e he)
  · cases w with
    | nil => exact absurd hn (by rw [List.length_nil]; omega)
    | cons e v =>
      obtain ⟨rfl, rfl⟩ := List.cons.inj heq
      rw [List.length_cons, Nat.add_comm] at hn
      exact (hline (Nat.add_left_cancel hn).symm).elim
  · have hcloses : ClosesWith '/' (w ++ x) w.length := by
      rw [hn, heq, Nat.add_comm]
      exact ClosesWith.after (closesWith_commentBody hm)
    exact ⟨'/', getLast?_cons_of_closesWith hcloses, hseam '/' (by decide)⟩

end Lexer

/-- Trivia in front of a token ends with no part of a name. -/
theorem Gap.exists_getLast? {b : Bool} {pieces : List Trivia} {x : List Char}
    (h : Gap b pieces x) (hx : ¬ Halts x) (hpieces : pieces ≠ []) :
    ∃ e, (Trivia.chars pieces).getLast? = some e ∧ isNamePart e = false := by
  induction pieces generalizing b with
  | nil => exact absurd rfl hpieces
  | cons t ts ih =>
    obtain ⟨⟨c, w, htext, hscan⟩, hts⟩ := h
    rw [Trivia.chars_cons, htext]
    by_cases hnil : ts = []
    · subst hnil
      rw [Trivia.chars_nil, List.nil_append] at hscan
      rw [Trivia.chars_nil, List.append_nil]
      exact exists_getLast?_of_scanLeading hscan hx
    · obtain ⟨e, he, hpart⟩ := ih hts hnil
      exact ⟨e, by rw [List.getLast?_append, he, Option.some_or], hpart⟩

/-! ## Names

A name stops where no part of a name follows, and begins behind something that ends with none.  Only
behind a number is that not so, for a number may stop in front of a letter. -/

/-- The token stands right behind a number, with nothing in between, not even the mark that lets it
be spelled like a keyword. -/
def BehindNumber (front : List Token) (t : Token) : Prop :=
  ∃ p ∈ front.getLast?, (p.kind = .integerLiteral ∨ p.kind = .realLiteral) ∧
    p.trailing ++ t.leading = [] ∧ t.text.toList.head? ≠ some '@'

namespace Lexed

variable {pos : Nat} {b : Bool} {behind : List Trivia} {cs : List Char} {t : Token}
  {ts front back : List Token}

theorem ne_nil_of_kind (h : Lexed pos b behind cs (t :: ts)) (hkind : t.kind ≠ .endOfFile) :
    ts ≠ [] := by
  rintro rfl
  cases h with
  | last => exact hkind rfl
  | more _ _ _ _ _ _ _ _ _ _ _ _ htail => cases htail

/-- What is found of the first token, and the last character of the trivia in front of it. -/
theorem getLast?_of_leading (h : Lexed pos b behind cs (t :: ts)) (hkind : t.kind ≠ .endOfFile) :
    ∃ c w rest, cs = Trivia.chars (behind ++ t.leading) ++ (c :: (w ++ rest)) ∧
      t.text.toList = c :: w ∧ t.offset = pos + Trivia.width (behind ++ t.leading) ∧
      scanToken c (w ++ rest) = .ok (t.kind, w.length) ∧
      (behind ++ t.leading ≠ [] →
        ∃ e, (Trivia.chars (behind ++ t.leading)).getLast? = some e ∧ isNamePart e = false) := by
  obtain ⟨c, w, rest, hcs, htext, hoffset, hgap, hword, -⟩ := h.uncons (h.ne_nil_of_kind hkind)
  have hhalts : ¬ Halts (c :: (w ++ rest)) := by
    intro hhalts
    have hbreak := hhalts c rfl
    rw [hword.lineBreak] at hbreak
    cases hbreak
  exact ⟨c, w, rest, hcs, htext, hoffset, hword.scan, hgap.exists_getLast? hhalts⟩

/-- What stands in front of a token that begins with a part of a name: no such part, unless it is
the end of a number. -/
theorem exists_place_behind {p : Token} (h : Lexed pos b behind cs (p :: t :: back))
    (hkind : t.kind ≠ .endOfFile) :
    ∃ before c w rest, cs = before ++ (c :: (w ++ rest)) ∧ t.text.toList = c :: w ∧
      t.offset = pos + byteLength before ∧ scanToken c (w ++ rest) = .ok (t.kind, w.length) ∧
      (isNamePart c = true → ∃ e, before.getLast? = some e ∧
        (isNamePart e = true ↔
          (p.kind = .integerLiteral ∨ p.kind = .realLiteral) ∧ p.trailing ++ t.leading = [])) := by
  obtain ⟨c', w', rest', rfl, htext', hoffset', -, hword', ht⟩ := h.uncons (by simp)
  obtain ⟨c, w, rest, rfl, htext, hoffset, hscan, hlast⟩ := ht.getLast?_of_leading hkind
  refine ⟨Trivia.chars (behind ++ p.leading) ++ (c' :: w') ++ Trivia.chars (p.trailing ++ t.leading),
    c, w, rest, by simp, htext, ?_, hscan, fun hc => ?_⟩
  · rw [byteLength_append, byteLength_append, Trivia.byteLength_chars, Trivia.byteLength_chars,
      hoffset, Token.stop, hoffset', ← byteLength_toList, htext']
    omega
  by_cases hnil : p.trailing ++ t.leading = []
  · have hscan' := hword'.scan
    rw [hnil, Trivia.chars_nil, List.nil_append] at hscan'
    have hlast' := List.getLast?_eq_some_getLast (List.cons_ne_nil c' w')
    refine ⟨(c' :: w').getLast (List.cons_ne_nil c' w'), ?_, ?_⟩
    · rw [hnil, Trivia.chars_nil, List.append_nil,
        List.getLast?_append_of_ne_nil _ (List.cons_ne_nil c' w'), hlast']
    · rw [isNamePart_getLast?_of_scanToken hscan' hc _ hlast']
      simp [hnil]
  · obtain ⟨e, he, hpart⟩ := hlast hnil
    exact ⟨e, by rw [List.getLast?_append, he, Option.some_or], by simp [hpart, hnil]⟩

/-- **A name is cut off from what stands in front of it, unless that is a number.** -/
theorem exists_place (h : Lexed pos b [] cs (front ++ t :: back)) (hkind : t.kind ≠ .endOfFile) :
    ∃ before c w rest, cs = before ++ (c :: (w ++ rest)) ∧ t.text.toList = c :: w ∧
      t.offset = pos + byteLength before ∧ scanToken c (w ++ rest) = .ok (t.kind, w.length) ∧
      (isNamePart c = true →
        ((∀ e ∈ before.getLast?, isNamePart e = false) ↔ ¬ BehindNumber front t)) := by
  -- The first token has trivia in front of it only, any other one a token.
  rcases List.eq_nil_or_concat front with rfl | ⟨front, p, rfl⟩
  · obtain ⟨c, w, rest, rfl, htext, hoffset, hscan, hlast⟩ := h.getLast?_of_leading hkind
    refine ⟨_, c, w, rest, rfl, htext, ?_, hscan, fun _ => iff_of_true ?_ ?_⟩
    · rw [Trivia.byteLength_chars]
      exact hoffset
    · by_cases hnil : [] ++ t.leading = []
      · simp [hnil]
      · obtain ⟨e, he, hpart⟩ := hlast hnil
        simp only [he, Option.mem_some_iff, forall_eq', hpart]
    · rintro ⟨p, hp, -⟩
      cases hp
  · rw [List.concat_eq_append, List.append_assoc] at h
    obtain ⟨A, F, rfl, hF, -⟩ := h.split (by simp)
    obtain ⟨before, c, w, rest, rfl, htext, hoffset, hscan, hlast⟩ := hF.exists_place_behind hkind
    refine ⟨A ++ before, c, w, rest, by simp, htext, ?_, hscan, fun hc => ?_⟩
    · rw [hoffset, byteLength_append]
      omega
    obtain ⟨e, he, hpart⟩ := hlast hc
    have hat : t.text.toList.head? ≠ some '@' := by
      intro hat
      obtain rfl : c = '@' := by simpa [htext] using hat
      exact absurd hc (by decide)
    have hp : (front.concat p).getLast? = some p := by simp
    have hbehind : BehindNumber (front.concat p) t ↔ isNamePart e = true := by
      simp only [BehindNumber, hp, Option.mem_some_iff, exists_eq_left', hat, ne_eq,
        not_false_eq_true, and_true, hpart]
    rw [List.getLast?_append, he, Option.some_or, hbehind]
    simp

/-- **An identifier spells a whole name, unless it stands right behind a number**: no part of a name
stands behind its value, and one stands in front of it exactly if that is the end of a number. -/
theorem exists_name (h : Lexed pos b [] cs (front ++ t :: back)) (hkind : t.kind = .identifier) :
    ∃ before behind, cs = before ++ (t.valueText.toList ++ behind) ∧
      pos + byteLength before + t.valueText.utf8ByteSize = t.stop ∧
      (∀ e ∈ t.valueText.toList, isNamePart e = true) ∧
      (∀ e ∈ behind.head?, isNamePart e = false) ∧
      ((∀ e ∈ before.getLast?, isNamePart e = false) ↔ ¬ BehindNumber front t) := by
  obtain ⟨before, c, w, rest, hcs, htext, hoffset, hscan, hbefore⟩ :=
    h.exists_place (by simp [hkind])
  rw [hkind] at hscan
  obtain ⟨hc, hw, hrest⟩ := isNamePart_of_name? (name?_of_scanToken hscan)
  by_cases hat : c = '@'
  · subst hat
    have hvalue : t.valueText = String.ofList w := by simp [Token.valueText, hkind, htext]
    rw [hvalue, String.toList_ofList]
    refine ⟨before ++ ['@'], rest, by simp [hcs], ?_, hw, hrest, iff_of_true ?_ ?_⟩
    · rw [Token.stop, hoffset, ← byteLength_toList t.text, htext, utf8ByteSize_ofList]
      simp only [byteLength_append, byteLength_cons, byteLength_nil]
      omega
    · have hat : isNamePart '@' = false := by decide
      simp [hat]
    · rintro ⟨p, -, -, -, hne⟩
      exact hne (by rw [htext]; rfl)
  · have hstart := hc.resolve_left hat
    have hvalue : t.valueText = t.text := by simp [Token.valueText, hkind, htext, hat]
    rw [hvalue, htext]
    refine ⟨before, rest, hcs, ?_, List.forall_mem_cons.mpr ⟨isNamePart_of_isNameStart hstart, hw⟩,
      hrest, hbefore (isNamePart_of_isNameStart hstart)⟩
    rw [Token.stop, hoffset]

end Lexed

end CodeMend
