import CodeMend.Proofs.Text.Cuts
import CodeMend.Token.Literal

/-!
# CodeMend — the extent of literals, measured on bytes

A scanner that walks through the bytes of a literal takes steps of one and two bytes.  A step over a
backslash may end inside a character, and a nested scan starts at an offset counted in bytes, where
the text has to be cut.  This module writes the scanners of `Literal` that way, with the cuts in
them, and shows that the two ways agree.

* **`Extent`** — the outcome of such a scan; `split` stands for a cut inside a character.
* **`ByteScan.quoted`**, **`ByteScan.hole`**, **`ByteScan.character`** — the scanners on bytes.
* **`quoted_bytes`**, **`hole_bytes`**, **`character_bytes`** — on the bytes of a text they find the
  extent that `Literal` counts in characters, and never cut inside of one.

What carries the proofs is that no byte of a character of several bytes equals a mark: such bytes
are stepped over one by one (`quoted_append`, `hole_append`, `character_append`).
-/

namespace CodeMend

/-! ## The bytes of a text

A character is a first byte and some that continue it, and the two can be told apart. -/

/-- The bytes of a text. -/
def bytes (cs : List Char) : List UInt8 := cs.flatMap String.utf8EncodeChar

/-- The byte stands inside a character, behind its first one. -/
def isContinuation (b : UInt8) : Bool := 0x80 ≤ b && b < 0xC0

/-- The first byte of a character. -/
def leadByte (c : Char) : UInt8 := (String.utf8EncodeChar c).headD 0

/-- The bytes of a character behind its first one. -/
def moreBytes (c : Char) : List UInt8 := (String.utf8EncodeChar c).tail

@[simp] theorem bytes_nil : bytes [] = [] := rfl

theorem utf8EncodeChar_eq (c : Char) : String.utf8EncodeChar c = leadByte c :: moreBytes c := by
  have hlen : (String.utf8EncodeChar c).length ≠ 0 := by
    rw [String.length_utf8EncodeChar]
    exact Nat.ne_of_gt (Char.utf8Size_pos c)
  unfold leadByte moreBytes
  cases h : String.utf8EncodeChar c with
  | nil => simp [h] at hlen
  | cons b bs => rfl

theorem bytes_cons (c : Char) (cs : List Char) :
    bytes (c :: cs) = leadByte c :: (moreBytes c ++ bytes cs) := by
  unfold bytes
  rw [List.flatMap_cons, utf8EncodeChar_eq, List.cons_append]

theorem length_moreBytes (c : Char) : 1 + (moreBytes c).length = c.utf8Size := by
  rw [← String.length_utf8EncodeChar, utf8EncodeChar_eq, List.length_cons, Nat.add_comm]

/-- The two ways of measuring a text in bytes agree. -/
theorem length_bytes (cs : List Char) : (bytes cs).length = byteLength cs := by
  induction cs with
  | nil => rfl
  | cons c cs ih =>
    rw [bytes_cons, List.length_cons, List.length_append, ih, byteLength_cons,
      ← length_moreBytes c]
    omega

theorem bytes_append (a b : List Char) : bytes (a ++ b) = bytes a ++ bytes b :=
  List.flatMap_append

/-- Dropping the bytes of the first characters leaves those of the others. -/
theorem drop_bytes (n : Nat) (cs : List Char) :
    (bytes cs).drop (byteLength (cs.take n)) = bytes (cs.drop n) := by
  have hsplit : bytes cs = bytes (cs.take n) ++ bytes (cs.drop n) := by
    rw [← bytes_append, List.take_append_drop]
  rw [hsplit, ← length_bytes, List.drop_left]

/-! ## Which bytes a character has

All marks that a scanner looks for are characters of one byte, and no byte of a longer character is
one of these.  That is why a scan by bytes is as good as one by characters. -/

/-- A character of one byte is that byte. -/
theorem encode_of_le {c : Char} (h : c.toNat ≤ 127) :
    leadByte c = UInt8.ofNat c.toNat ∧ moreBytes c = [] := by
  have hv : c.val.toNat ≤ 127 := h
  unfold leadByte moreBytes String.utf8EncodeChar
  simp only [if_pos hv]
  exact ⟨rfl, rfl⟩

theorem utf8Size_of_le {c : Char} (h : c.toNat ≤ 127) : c.utf8Size = 1 := by
  rw [← length_moreBytes, (encode_of_le h).2, List.length_nil]

/-- A character of several bytes starts with a byte above all marks, and the other bytes are
continuations. -/
theorem encode_of_gt {c : Char} (h : 127 < c.toNat) :
    0xC0 ≤ leadByte c ∧ ∀ b ∈ moreBytes c, isContinuation b = true := by
  have hv : ¬ c.val.toNat ≤ 127 := by
    have : c.toNat = c.val.toNat := rfl
    omega
  have hmore : ∀ n, isContinuation (UInt8.ofNat (n % 64 + 128)) = true := by
    intro n
    simp only [isContinuation, Bool.and_eq_true, decide_eq_true_eq, UInt8.le_iff_toNat_le,
      UInt8.lt_iff_toNat_lt, UInt8.toNat_ofNat']
    constructor <;> simp <;> omega
  have hlead : ∀ n, 192 ≤ n → n < 256 → 0xC0 ≤ UInt8.ofNat n := by
    intro n hlow hhigh
    simp only [UInt8.le_iff_toNat_le, UInt8.toNat_ofNat']
    simp
    omega
  unfold leadByte moreBytes String.utf8EncodeChar
  simp only [if_neg hv]
  split
  · refine ⟨hlead _ (by omega) (by omega), ?_⟩
    simpa only [List.tail_cons, List.forall_mem_singleton] using hmore _
  · split
    · refine ⟨hlead _ (by omega) (by omega), ?_⟩
      simp only [List.tail_cons, List.forall_mem_cons]
      exact ⟨hmore _, hmore _, by simp⟩
    · refine ⟨hlead _ (by omega) (by omega), ?_⟩
      simp only [List.tail_cons, List.forall_mem_cons]
      exact ⟨hmore _, hmore _, hmore _, by simp⟩

theorem le_leadByte_of_gt {c : Char} (h : 127 < c.toNat) : 0x80 ≤ leadByte c := by
  have hlow := (encode_of_gt h).1
  rw [UInt8.le_iff_toNat_le] at hlow ⊢
  simp at hlow ⊢
  omega

/-- The bytes behind the first one are above all marks. -/
theorem le_of_mem_moreBytes {c : Char} {b : UInt8} (h : b ∈ moreBytes c) : 0x80 ≤ b := by
  rcases Nat.lt_or_ge 127 c.toNat with hgt | hle
  · have := (encode_of_gt hgt).2 b h
    simp only [isContinuation, Bool.and_eq_true, decide_eq_true_eq] at this
    exact this.1
  · rw [(encode_of_le hle).2] at h
    cases h

/-- The first byte of a character is no continuation. -/
theorem isContinuation_leadByte (c : Char) : isContinuation (leadByte c) = false := by
  rcases Nat.lt_or_ge 127 c.toNat with hgt | hle
  · have := (encode_of_gt hgt).1
    simp only [isContinuation, Bool.and_eq_false_iff, decide_eq_false_iff_not]
    exact .inr (by rw [UInt8.not_lt]; exact this)
  · rw [(encode_of_le hle).1]
    simp only [isContinuation, Bool.and_eq_false_iff, decide_eq_false_iff_not]
    refine .inl ?_
    rw [UInt8.not_le, UInt8.lt_iff_toNat_lt, UInt8.toNat_ofNat']
    simp
    omega

/-- The byte of a mark. -/
def markByte (m : Char) : UInt8 := UInt8.ofNat m.toNat

/-- A character starts with the byte of a mark when it is the mark. -/
theorem leadByte_eq_markByte_iff {c m : Char} (hm : m.toNat ≤ 127) :
    leadByte c = markByte m ↔ c = m := by
  constructor
  · intro h
    rcases Nat.lt_or_ge 127 c.toNat with hgt | hle
    · have hlow := (encode_of_gt hgt).1
      rw [h, UInt8.le_iff_toNat_le, markByte, UInt8.toNat_ofNat'] at hlow
      simp at hlow
      omega
    · rw [(encode_of_le hle).1, markByte] at h
      have hnat := congrArg UInt8.toNat h
      rw [UInt8.toNat_ofNat', UInt8.toNat_ofNat'] at hnat
      rw [← Char.toNat_inj]
      omega
  · rintro rfl
    exact (encode_of_le hm).1

/-- The bytes of a mark in front of a text. -/
theorem bytes_cons_mark {m : Char} (hm : m.toNat ≤ 127) (cs : List Char) :
    bytes (m :: cs) = markByte m :: bytes cs := by
  rw [bytes_cons, (encode_of_le hm).2, (encode_of_le hm).1]
  rfl

theorem head?_bytes_eq_iff {m : Char} (hm : m.toNat ≤ 127) (cs : List Char) :
    (bytes cs).head? = some (markByte m) ↔ cs.head? = some m := by
  cases cs with
  | nil => simp
  | cons c cs =>
    rw [bytes_cons, List.head?_cons, List.head?_cons, Option.some.injEq, Option.some.injEq]
    exact leadByte_eq_markByte_iff hm

/-- Behind a mark of one byte the text goes on. -/
theorem tail_bytes {m : Char} (hm : m.toNat ≤ 127) {cs : List Char} (h : cs.head? = some m) :
    (bytes cs).tail = bytes cs.tail := by
  cases cs with
  | nil => cases h
  | cons c cs =>
    obtain rfl : c = m := by simpa using h
    rw [bytes_cons_mark hm, List.tail_cons, List.tail_cons]

/-! ## The scanners

The scanners as they go through bytes.  Besides how far a literal reaches they could answer that it
ends inside of a character. -/

/-- The outcome of a scan for the end of a literal. -/
inductive Extent where
  /-- The literal ends after so many bytes. -/
  | closed (n : Nat)
  | unclosed
  /-- The scan cut the text inside a character. -/
  | split
deriving DecidableEq, Repr

namespace Extent

/-- The extent with more bytes in front. -/
def after (k : Nat) : Extent → Extent
  | closed n => closed (k + n)
  | unclosed => unclosed
  | split => split

/-- The extent of so many characters of a text. -/
def ofCount (cs : List Char) : Option Nat → Extent
  | some n => closed (byteLength (cs.take n))
  | none => unclosed

/-- After a nested literal was scanned, go on behind it; `k` bytes lie before it. -/
def andThen (k : Nat) (next : Nat → Extent) : Extent → Extent
  | closed n => (next n).after (k + n)
  | unclosed => unclosed
  | split => split

@[simp] theorem after_after (j k : Nat) (e : Extent) : (e.after k).after j = e.after (j + k) := by
  cases e <;> simp [after, Nat.add_assoc]

@[simp] theorem after_zero (e : Extent) : e.after 0 = e := by
  cases e <;> simp [after]

end Extent

namespace ByteScan

/-- The text, cut off at some offset, starts inside a character. -/
def startsInside (bs : List UInt8) : Bool := bs.head?.any isContinuation

def isLineBreak (b : UInt8) : Bool := b = markByte '\n' || b = markByte '\r'

/-- The rest of a character literal. -/
def character (first : Bool) : List UInt8 → Extent
  | [] => .unclosed
  | b :: bs =>
    if b = markByte '\\' then (character false bs.tail).after 2
    else if b = markByte '\'' && !first then .closed 1
    else if isLineBreak b then .unclosed
    else (character false bs).after 1
termination_by bs => bs.length
decreasing_by all_goals (simp only [List.length_tail, List.length_cons]; omega)

mutual

/-- The rest of a string through its closing quote. -/
def quoted (verbatim interpolated : Bool) : List UInt8 → Extent
  | [] => .unclosed
  | b :: bs =>
    if b = markByte '\\' && !verbatim then (quoted verbatim interpolated bs.tail).after 2
    else if b = markByte '"' && verbatim && bs.head? = some (markByte '"') then
      (quoted verbatim interpolated bs.tail).after 2
    else if b = markByte '"' then .closed 1
    else if isLineBreak b && !verbatim then .unclosed
    else if b = markByte '\x7b' && interpolated && bs.head? = some (markByte '\x7b') then
      (quoted verbatim interpolated bs.tail).after 2
    else if b = markByte '\x7b' && interpolated then
      if startsInside bs then .split
      else (hole 0 bs).andThen 1 fun n => quoted verbatim interpolated (bs.drop n)
    else (quoted verbatim interpolated bs).after 1
termination_by bs => bs.length
decreasing_by
  all_goals (simp only [List.length_drop, List.length_tail, List.length_cons]; omega)

/-- The rest of an interpolation hole through its closing brace. -/
def hole (depth : Nat) : List UInt8 → Extent
  | [] => .unclosed
  | b :: bs =>
    if b = markByte '\x7b' then (hole (depth + 1) bs).after 1
    else if b = markByte '\x7d' then
      match depth with
      | 0 => .closed 1
      | d + 1 => (hole d bs).after 1
    else if b = markByte '"' then
      if startsInside bs then .split
      else (quoted false false bs).andThen 1 fun n => hole depth (bs.drop n)
    else if b = markByte '@' && bs.head? = some (markByte '"') then
      if startsInside bs.tail then .split
      else (quoted true false bs.tail).andThen 2 fun n => hole depth (bs.tail.drop n)
    else if b = markByte '\'' then
      if startsInside bs then .split
      else (character true bs).andThen 1 fun n => hole depth (bs.drop n)
    else if isLineBreak b then .unclosed
    else (hole depth bs).after 1
termination_by bs => bs.length
decreasing_by
  all_goals (simp only [List.length_drop, List.length_tail, List.length_cons]; omega)

end

/-! ## Bytes above all marks

A scanner counts a byte that is no mark and goes on in the same state. -/

/-- A byte above all marks is none of them. -/
theorem ne_markByte_of_le {b : UInt8} (h : 0x80 ≤ b) {m : Char} (hm : m.toNat ≤ 127) :
    b ≠ markByte m := by
  rintro rfl
  rw [UInt8.le_iff_toNat_le, markByte, UInt8.toNat_ofNat'] at h
  simp at h
  omega

theorem isLineBreak_of_le {b : UInt8} (h : 0x80 ≤ b) : isLineBreak b = false := by
  have hn : b ≠ markByte '\n' := ne_markByte_of_le h (by decide)
  have hr : b ≠ markByte '\r' := ne_markByte_of_le h (by decide)
  simp [isLineBreak, hn, hr]

theorem character_cons_of_le {b : UInt8} (h : 0x80 ≤ b) (first : Bool) (bs : List UInt8) :
    character first (b :: bs) = (character false bs).after 1 := by
  have hslash : b ≠ markByte '\\' := ne_markByte_of_le h (by decide)
  have hquote : b ≠ markByte '\'' := ne_markByte_of_le h (by decide)
  simp [character, hslash, hquote, isLineBreak_of_le h]

theorem quoted_cons_of_le {b : UInt8} (h : 0x80 ≤ b) (v i : Bool) (bs : List UInt8) :
    quoted v i (b :: bs) = (quoted v i bs).after 1 := by
  have hslash : b ≠ markByte '\\' := ne_markByte_of_le h (by decide)
  have hquote : b ≠ markByte '"' := ne_markByte_of_le h (by decide)
  have hbrace : b ≠ markByte '\x7b' := ne_markByte_of_le h (by decide)
  rw [quoted]
  simp [hslash, hquote, hbrace, isLineBreak_of_le h]

theorem hole_cons_of_le {b : UInt8} (h : 0x80 ≤ b) (depth : Nat) (bs : List UInt8) :
    hole depth (b :: bs) = (hole depth bs).after 1 := by
  have hopen : b ≠ markByte '\x7b' := ne_markByte_of_le h (by decide)
  have hclose : b ≠ markByte '\x7d' := ne_markByte_of_le h (by decide)
  have hquote : b ≠ markByte '"' := ne_markByte_of_le h (by decide)
  have hat : b ≠ markByte '@' := ne_markByte_of_le h (by decide)
  have hsingle : b ≠ markByte '\'' := ne_markByte_of_le h (by decide)
  rw [hole.eq_def]
  simp [hopen, hclose, hquote, hat, hsingle, isLineBreak_of_le h]

/-- A scan that counts a byte above all marks and goes on. -/
def StepsOver (scan : List UInt8 → Extent) : Prop :=
  ∀ b bs, 0x80 ≤ b → scan (b :: bs) = (scan bs).after 1

theorem stepsOver_character : StepsOver (character false) :=
  fun _ bs h => character_cons_of_le h false bs

theorem stepsOver_quoted (v i : Bool) : StepsOver (quoted v i) :=
  fun _ bs h => quoted_cons_of_le h v i bs

theorem stepsOver_hole (depth : Nat) : StepsOver (hole depth) :=
  fun _ bs h => hole_cons_of_le h depth bs

/-- The bytes of a character behind its first one are counted. -/
theorem StepsOver.more {scan : List UInt8 → Extent} (hscan : StepsOver scan) (c : Char)
    (bs : List UInt8) : scan (moreBytes c ++ bs) = (scan bs).after (moreBytes c).length := by
  have hall : ∀ front : List UInt8, (∀ b ∈ front, 0x80 ≤ b) →
      scan (front ++ bs) = (scan bs).after front.length := by
    intro front h
    induction front with
    | nil => simp
    | cons b front ih =>
      have hrest := ih fun b hb => h b (List.mem_cons_of_mem _ hb)
      rw [List.cons_append, hscan b _ (h b List.mem_cons_self), hrest, Extent.after_after,
        List.length_cons, Nat.add_comm]
  exact hall (moreBytes c) fun b hb => le_of_mem_moreBytes hb

/-- A character without a meaning of its own is counted whole. -/
theorem StepsOver.step {scan : List UInt8 → Extent} (hscan : StepsOver scan) (c : Char)
    (bs : List UInt8) : (scan (moreBytes c ++ bs)).after 1 = (scan bs).after c.utf8Size := by
  rw [hscan.more, Extent.after_after, length_moreBytes]

/-- The step of two bytes over a backslash may end inside a character; the scan comes out behind
it. -/
theorem StepsOver.escape {scan : List UInt8 → Extent} (hscan : StepsOver scan)
    (hnil : scan [] = .unclosed) (cs : List Char) :
    (scan (bytes cs).tail).after 2 = (scan (bytes cs.tail)).after (1 + byteLength (cs.take 1)) := by
  cases cs with
  | nil => simp [hnil, Extent.after]
  | cons c cs =>
    rw [bytes_cons, List.tail_cons, List.tail_cons, hscan.more, Extent.after_after]
    congr 1
    have := length_moreBytes c
    simp only [List.take_succ_cons, List.take_zero, byteLength_cons, byteLength_nil]
    omega

/-! ## One character of a scan

Hence a scanner passes all bytes of a character at once, if it is not a mark. -/

theorem startsInside_bytes (cs : List Char) : startsInside (bytes cs) = false := by
  cases cs with
  | nil => rfl
  | cons c cs => simp [startsInside, bytes_cons, isContinuation_leadByte]

theorem isLineBreak_leadByte (c : Char) : isLineBreak (leadByte c) = Literal.isLineBreak c := by
  have hn : leadByte c = markByte '\n' ↔ c = '\n' := leadByte_eq_markByte_iff (by decide)
  have hr : leadByte c = markByte '\r' ↔ c = '\r' := leadByte_eq_markByte_iff (by decide)
  simp [isLineBreak, Literal.isLineBreak, hn, hr]

theorem character_cons (first : Bool) (c : Char) (cs : List Char) :
    character first (bytes (c :: cs)) =
      if c = '\\' then (character false (bytes cs.tail)).after (1 + byteLength (cs.take 1))
      else if c = '\'' && !first then .closed 1
      else if Literal.isLineBreak c then .unclosed
      else (character false (bytes cs)).after c.utf8Size := by
  have hslash : leadByte c = markByte '\\' ↔ c = '\\' := leadByte_eq_markByte_iff (by decide)
  have hquote : leadByte c = markByte '\'' ↔ c = '\'' := leadByte_eq_markByte_iff (by decide)
  have hnil : character false [] = .unclosed := by rw [character]
  rw [bytes_cons, character]
  simp only [hslash, hquote, isLineBreak_leadByte, stepsOver_character.step]
  split
  next h =>
    subst h
    rw [(encode_of_le (by decide)).2, List.nil_append, stepsOver_character.escape hnil]
  next => rfl

theorem quoted_cons (v i : Bool) (c : Char) (cs : List Char) :
    quoted v i (bytes (c :: cs)) =
      if c = '\\' && !v then (quoted v i (bytes cs.tail)).after (1 + byteLength (cs.take 1))
      else if c = '"' && v && cs.head? = some '"' then (quoted v i (bytes cs.tail)).after 2
      else if c = '"' then .closed 1
      else if Literal.isLineBreak c && !v then .unclosed
      else if c = '\x7b' && i && cs.head? = some '\x7b' then
        (quoted v i (bytes cs.tail)).after 2
      else if c = '\x7b' && i then
        (hole 0 (bytes cs)).andThen 1 fun n => quoted v i ((bytes cs).drop n)
      else (quoted v i (bytes cs)).after c.utf8Size := by
  have hnil : quoted v i [] = .unclosed := by rw [quoted]
  rcases Nat.lt_or_ge 127 c.toNat with hgt | hle
  · -- no mark starts like this, the scan counts the character
    have hne : ∀ m : Char, m.toNat ≤ 127 → c ≠ m := by
      rintro m hm rfl
      omega
    have hbreak : Literal.isLineBreak c = false := by
      simp [Literal.isLineBreak, hne '\n' (by decide), hne '\r' (by decide)]
    rw [bytes_cons, quoted_cons_of_le (le_leadByte_of_gt hgt), (stepsOver_quoted v i).step]
    simp [hne '\\' (by decide), hne '"' (by decide), hne '\x7b' (by decide), hbreak]
  · have hmark : ∀ {m : Char}, m.toNat ≤ 127 → (leadByte c = markByte m ↔ c = m) :=
      fun hm => leadByte_eq_markByte_iff hm
    have hsize : c.utf8Size = 1 := utf8Size_of_le hle
    rw [bytes_cons, (encode_of_le hle).2, List.nil_append, quoted]
    simp only [hmark (m := '\\') (by decide), hmark (m := '"') (by decide),
      hmark (m := '\x7b') (by decide), head?_bytes_eq_iff (m := '"') (by decide),
      head?_bytes_eq_iff (m := '\x7b') (by decide), isLineBreak_leadByte, startsInside_bytes, hsize,
      Bool.false_eq_true, if_false]
    split
    next => rw [(stepsOver_quoted v i).escape hnil]
    next =>
    split
    next h =>
      simp only [Bool.and_eq_true, decide_eq_true_eq] at h
      rw [tail_bytes (by decide) h.2]
    next =>
    split
    next => rfl
    next =>
    split
    next => rfl
    next =>
    split
    next h =>
      simp only [Bool.and_eq_true, decide_eq_true_eq] at h
      rw [tail_bytes (by decide) h.2]
    next => rfl

theorem hole_cons (depth : Nat) (c : Char) (cs : List Char) :
    hole depth (bytes (c :: cs)) =
      if c = '\x7b' then (hole (depth + 1) (bytes cs)).after 1
      else if c = '\x7d' then
        match depth with
        | 0 => .closed 1
        | d + 1 => (hole d (bytes cs)).after 1
      else if c = '"' then
        (quoted false false (bytes cs)).andThen 1 fun n => hole depth ((bytes cs).drop n)
      else if c = '@' && cs.head? = some '"' then
        (quoted true false (bytes cs.tail)).andThen 2 fun n => hole depth ((bytes cs.tail).drop n)
      else if c = '\'' then
        (character true (bytes cs)).andThen 1 fun n => hole depth ((bytes cs).drop n)
      else if Literal.isLineBreak c then .unclosed
      else (hole depth (bytes cs)).after c.utf8Size := by
  -- A character of several bytes is no mark, and a mark is its own byte.
  rcases Nat.lt_or_ge 127 c.toNat with hgt | hle
  · have hne : ∀ m : Char, m.toNat ≤ 127 → c ≠ m := by
      rintro m hm rfl
      omega
    have hbreak : Literal.isLineBreak c = false := by
      simp [Literal.isLineBreak, hne '\n' (by decide), hne '\r' (by decide)]
    rw [bytes_cons, hole_cons_of_le (le_leadByte_of_gt hgt), (stepsOver_hole depth).step]
    simp [hne '\x7b' (by decide), hne '\x7d' (by decide), hne '"' (by decide),
      hne '@' (by decide), hne '\'' (by decide), hbreak]
  · have hmark : ∀ {m : Char}, m.toNat ≤ 127 → (leadByte c = markByte m ↔ c = m) :=
      fun hm => leadByte_eq_markByte_iff hm
    have hsize : c.utf8Size = 1 := utf8Size_of_le hle
    rw [bytes_cons, (encode_of_le hle).2, List.nil_append, hole.eq_def]
    simp only [hmark (m := '\x7b') (by decide), hmark (m := '\x7d') (by decide),
      hmark (m := '"') (by decide), hmark (m := '@') (by decide), hmark (m := '\'') (by decide),
      head?_bytes_eq_iff (m := '"') (by decide), isLineBreak_leadByte, startsInside_bytes, hsize,
      Bool.false_eq_true, if_false]
    split
    next => rfl
    next =>
    split
    next => rfl
    next =>
    split
    next => rfl
    next =>
    split
    next h =>
      simp only [Bool.and_eq_true, decide_eq_true_eq] at h
      rw [tail_bytes (by decide) h.2, startsInside_bytes, if_neg (by simp)]
    next => rfl

end ByteScan

/-! ## The scanners agree

The induction follows the scanners of characters.  Strings and holes are nested in one another, so
their agreement is proved together. -/

namespace Extent

variable (c : Char) (cs : List Char)

/-- A count of characters never ends inside of one. -/
theorem ofCount_ne_split (o : Option Nat) : ofCount cs o ≠ split := by
  cases o <;> simp [ofCount]

/-- One character more in front. -/
theorem ofCount_succ (o : Option Nat) :
    ofCount (c :: cs) (o.map (· + 1)) = (ofCount cs o).after c.utf8Size := by
  cases o <;> simp [ofCount, after]

/-- Two characters more in front, the second of which may be missing. -/
theorem ofCount_succ_succ (o : Option Nat) :
    ofCount (c :: cs) (o.map (· + 2)) =
      (ofCount cs.tail o).after (c.utf8Size + byteLength (cs.take 1)) := by
  cases cs with
  | nil => cases o <;> simp [ofCount, after]
  | cons d cs => cases o <;> simp [ofCount, after, Nat.add_assoc]

/-- The bytes of a mark that comes next. -/
theorem byteLength_take_one {m : Char} {cs : List Char} (h : cs.head? = some m)
    (hm : m.toNat ≤ 127) : byteLength (cs.take 1) = 1 := by
  cases cs with
  | nil => cases h
  | cons c cs =>
    obtain rfl : c = m := by simpa using h
    simp [utf8Size_of_le hm]

/-- A mark that closes the literal. -/
theorem ofCount_one {m : Char} (hm : m.toNat ≤ 127) : ofCount (m :: cs) (some 1) = closed 1 := by
  simp [ofCount, utf8Size_of_le hm]

/-- A nested literal behind some characters, and the scan that follows it. -/
theorem ofCount_nested (front cs : List Char) (o : Option Nat) (count : List Char → Option Nat)
    (scan : List UInt8 → Extent)
    (hscan : ∀ n, scan (bytes (cs.drop n)) = ofCount (cs.drop n) (count (cs.drop n))) :
    ofCount (front ++ cs)
        (o.bind fun n => (count (cs.drop n)).bind fun m => some (front.length + n + m)) =
      (ofCount cs o).andThen (byteLength front) fun n => scan ((bytes cs).drop n) := by
  cases o with
  | none => rfl
  | some n =>
    show _ = (scan ((bytes cs).drop (byteLength (cs.take n)))).after _
    rw [drop_bytes, hscan n, Option.bind_some]
    cases count (cs.drop n) with
    | none => rfl
    | some m =>
      show closed _ = closed _
      congr 1
      rw [Nat.add_assoc, List.take_length_add_append, List.take_add, byteLength_append,
        byteLength_append, Nat.add_assoc]

end Extent

/-- The front of a string literal whose first character is given: how many characters follow that
one through the opening quote, whether the string is verbatim, whether it is interpolated, and the
text behind the quote. -/
def Literal.opening? (first : Char) (cs : List Char) : Option (Nat × Bool × Bool × List Char) :=
  match first, cs with
  | '$', '@' :: '"' :: body => some (2, true, true, body)
  | '@', '$' :: '"' :: body => some (2, true, true, body)
  | '$', '"' :: body => some (1, false, true, body)
  | '@', '"' :: body => some (1, true, false, body)
  | '"', body => some (0, false, false, body)
  | _, _ => none

/-- The rest of a string of a kind, through its closing quote. -/
def Literal.quotedBody (verbatim interpolated : Bool) (cs : List Char) : Option Nat :=
  if interpolated then interpolatedBody verbatim cs
  else if verbatim then verbatimBody cs
  else plainBody cs

/-- A string literal is an opening and a body of the kind that the opening tells. -/
theorem Literal.string_eq (first : Char) (cs : List Char) :
    Literal.string first cs =
      (Literal.opening? first cs).bind fun (k, verbatim, interpolated, body) =>
        (Literal.quotedBody verbatim interpolated body).map (· + k) := by
  unfold Literal.string Literal.opening?
  split <;> simp [Literal.quotedBody]

namespace ByteScan

/-- **The end of a character literal, found on its bytes.** -/
theorem character_bytes (first : Bool) (cs : List Char) :
    character first (bytes cs) = Extent.ofCount cs (Literal.characterBody first cs) := by
  fun_induction Literal.characterBody first cs with
  | case1 => simp [character, Extent.ofCount]
  | case2 => simp [character_cons, character, Extent.ofCount, Extent.after]
  | case3 first d rest ih =>
    rw [character_cons, if_pos rfl, List.tail_cons, ih, Extent.ofCount_succ_succ]
    rfl
  | case4 first c cs hslash hquote =>
    rw [character_cons, if_neg hslash, if_pos hquote]
    obtain ⟨rfl, -⟩ : c = '\'' ∧ first = false := by simpa using hquote
    rw [Extent.ofCount_one _ (by decide)]
  | case5 first c cs hslash hquote hbreak =>
    rw [character_cons, if_neg hslash, if_neg hquote, if_pos hbreak]
    rfl
  | case6 first c cs hslash hquote hbreak ih =>
    rw [character_cons, if_neg hslash, if_neg hquote, if_neg hbreak, ih, Extent.ofCount_succ]

/-- The end of a plain string, found on its bytes. -/
theorem quoted_bytes_plain (cs : List Char) :
    quoted false false (bytes cs) = Extent.ofCount cs (Literal.plainBody cs) := by
  fun_induction Literal.plainBody cs with
  | case1 => simp [quoted, Extent.ofCount]
  | case2 => simp [quoted_cons, quoted, Extent.ofCount, Extent.after]
  | case3 d rest ih =>
    rw [quoted_cons, if_pos (by simp), List.tail_cons, ih, Extent.ofCount_succ_succ]
    rfl
  | case4 cs hslash =>
    rw [quoted_cons, Extent.ofCount_one _ (by decide)]
    simp
  | case5 c cs hslash hquote hbreak =>
    rw [quoted_cons]
    simp [hslash, hquote, hbreak, Extent.ofCount]
  | case6 c cs hslash hquote hbreak ih =>
    rw [quoted_cons, Extent.ofCount_succ, ← ih]
    simp [hslash, hquote, hbreak]

/-- The end of a verbatim string, found on its bytes. -/
theorem quoted_bytes_verbatim (cs : List Char) :
    quoted true false (bytes cs) = Extent.ofCount cs (Literal.verbatimBody cs) := by
  fun_induction Literal.verbatimBody cs with
  | case1 => simp [quoted, Extent.ofCount]
  | case2 =>
    rw [quoted_cons, Extent.ofCount_one _ (by decide)]
    simp
  | case3 rest ih =>
    rw [quoted_cons, Extent.ofCount_succ_succ, List.tail_cons, ← ih]
    rfl
  | case4 d rest h =>
    rw [quoted_cons, Extent.ofCount_one _ (by decide)]
    simp [h]
  | case5 c cs hquote ih =>
    rw [quoted_cons, Extent.ofCount_succ, ← ih]
    simp [hquote]

/-- **The end of an interpolation hole, found on its bytes.** -/
theorem hole_bytes (depth : Nat) (cs : List Char) :
    hole depth (bytes cs) = Extent.ofCount cs (Literal.hole depth cs) := by
  fun_induction Literal.hole depth cs with
  | case1 => simp [hole, Extent.ofCount]
  | case2 depth cs ih => rw [hole_cons, if_pos rfl, ih, Extent.ofCount_succ]; rfl
  | case3 cs => rw [hole_cons, Extent.ofCount_one _ (by decide)]; rfl
  | case4 cs d _ ih => rw [hole_cons, Extent.ofCount_succ, ← ih]; rfl
  | case5 depth cs _ _ ih =>
    rw [hole_cons, quoted_bytes_plain]
    exact (Extent.ofCount_nested ['"'] cs _ (Literal.hole depth) (hole depth) ih).symm
  | case6 depth c cs _ _ _ hat ih =>
    obtain ⟨rfl, hhead⟩ := hat
    obtain ⟨cs, rfl⟩ : ∃ rest, cs = '"' :: rest := by
      cases cs with
      | nil => cases hhead
      | cons d rest => exact ⟨rest, by simpa using hhead⟩
    rw [hole_cons, List.tail_cons, quoted_bytes_verbatim]
    exact (Extent.ofCount_nested ['@', '"'] cs _ (Literal.hole depth) (hole depth) ih).symm
  | case7 depth cs _ _ _ _ ih =>
    rw [hole_cons, character_bytes]
    exact (Extent.ofCount_nested ['\''] cs _ (Literal.hole depth) (hole depth) ih).symm
  | case8 depth c cs hopen hclose hquote hat hsingle hbreak =>
    rw [hole_cons]
    simp_all [Extent.ofCount]
  | case9 depth c cs hopen hclose hquote hat hsingle hbreak ih =>
    rw [hole_cons, Extent.ofCount_succ, ← ih]
    simp_all

/-- The end of an interpolated string, found on its bytes. -/
theorem quoted_bytes_interpolated (verbatim : Bool) (cs : List Char) :
    quoted verbatim true (bytes cs) = Extent.ofCount cs (Literal.interpolatedBody verbatim cs) := by
  fun_induction Literal.interpolatedBody verbatim cs with
  | case1 => simp [quoted, Extent.ofCount]
  | case2 c cs hslash ih =>
    obtain ⟨rfl, hv⟩ : c = '\\' ∧ verbatim = false := by simpa using hslash
    rw [quoted_cons, if_pos hslash, ih, Extent.ofCount_succ_succ]
    rfl
  | case3 cs hquote _ ih =>
    obtain ⟨rfl, hhead⟩ : verbatim = true ∧ cs.head? = some '"' := by simpa using hquote
    have hfront : '"'.utf8Size + byteLength (cs.take 1) = 2 := by
      rw [Extent.byteLength_take_one hhead (by decide)]
      rfl
    rw [quoted_cons, Extent.ofCount_succ_succ, ← ih, hfront]
    simp [hhead]
  | case4 cs hquote _ =>
    rw [quoted_cons, Extent.ofCount_one _ (by decide)]
    simp_all
  | case5 c cs hslash hquote hbreak =>
    rw [quoted_cons, if_neg hslash, if_neg (by simp [hquote]), if_neg hquote, if_pos hbreak]
    rfl
  | case6 cs hhead _ _ _ ih =>
    have hfront : '\x7b'.utf8Size + byteLength (cs.take 1) = 2 := by
      rw [Extent.byteLength_take_one hhead (by decide)]
      rfl
    rw [quoted_cons, Extent.ofCount_succ_succ, ← ih, hfront]
    simp [hhead, Literal.isLineBreak]
  -- A hole: its bytes are scanned as its characters are, and the string goes on behind it.
  | case7 cs hhead _ _ _ ih =>
    rw [quoted_cons, hole_bytes, if_neg (by simp), if_neg (by simp), if_neg (by simp),
      if_neg (by simp [Literal.isLineBreak]), if_neg (by simp [hhead]), if_pos (by simp)]
    exact (Extent.ofCount_nested ['\x7b'] cs _ (Literal.interpolatedBody verbatim)
      (quoted verbatim true) ih).symm
  | case8 c cs hslash hquote hbreak hbrace ih =>
    rw [quoted_cons, if_neg hslash, if_neg (by simp [hquote]), if_neg hquote, if_neg hbreak,
      if_neg (by simp [hbrace]), if_neg (by simp [hbrace]), ih, Extent.ofCount_succ]

/-- **The end of a string, found on its bytes.** -/
theorem quoted_bytes (verbatim interpolated : Bool) (cs : List Char) :
    quoted verbatim interpolated (bytes cs) =
      Extent.ofCount cs (Literal.quotedBody verbatim interpolated cs) := by
  cases interpolated with
  | true => exact quoted_bytes_interpolated verbatim cs
  | false =>
    cases verbatim with
    | true => exact quoted_bytes_verbatim cs
    | false => exact quoted_bytes_plain cs

end ByteScan

end CodeMend
