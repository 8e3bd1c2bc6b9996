import CodeMend.Proofs.Token.ByteScan
import CodeMend.Token.Lexer

/-!
# CodeMend — the extent of a literal does not depend on what follows it

A scanner that comes to the end of a literal has not looked behind it, but for the quote that goes
on with a verbatim string.  So in front of any other text that does not start with a quote it comes
to the same end.

* **`Settled`** — a scanner that stops inside of a text does so whatever follows that text.
* **`settled_quotedBody`**, **`settled_characterBody`**, **`commentBody_append`** — the scanners of
  strings, characters and comments; holes and interpolated strings by the length of the text, the
  others by their own recursion.
-/

namespace CodeMend.Literal

open Lexer

variable {u x y cs : List Char} {c : Char} {n : Nat}

/-! ## One step of each scanner

The scanners are defined by what comes next, so these equations are all that is needed of them. -/

theorem plainBody_cons (c : Char) (cs : List Char) :
    plainBody (c :: cs) =
      if c = '\\' then if cs = [] then none else (plainBody cs.tail).map (· + 2)
      else if c = '"' then some 1
      else if isLineBreak c then none
      else (plainBody cs).map (· + 1) := by
  cases cs <;> simp [plainBody]

theorem verbatimBody_cons (c : Char) (cs : List Char) :
    verbatimBody (c :: cs) =
      if c = '"' then if cs.head? = some '"' then (verbatimBody cs.tail).map (· + 2) else some 1
      else (verbatimBody cs).map (· + 1) := by
  cases cs <;> simp [verbatimBody]

theorem characterBody_cons (first : Bool) (c : Char) (cs : List Char) :
    characterBody first (c :: cs) =
      if c = '\\' then if cs = [] then none else (characterBody false cs.tail).map (· + 2)
      else if c = '\'' && !first then some 1
      else if isLineBreak c then none
      else (characterBody false cs).map (· + 1) := by
  cases cs <;> simp [characterBody]

theorem interpolatedBody_cons (verbatim : Bool) (c : Char) (cs : List Char) :
    interpolatedBody verbatim (c :: cs) =
      if c = '\\' && !verbatim then (interpolatedBody verbatim cs.tail).map (· + 2)
      else if c = '"' then
        if verbatim && cs.head? = some '"' then (interpolatedBody verbatim cs.tail).map (· + 2)
        else some 1
      else if isLineBreak c && !verbatim then none
      else if c = '\x7b' then
        if cs.head? = some '\x7b' then (interpolatedBody verbatim cs.tail).map (· + 2)
        else
          (hole 0 cs).bind fun n =>
            (interpolatedBody verbatim (cs.drop n)).bind fun m => some (1 + n + m)
      else (interpolatedBody verbatim cs).map (· + 1) := by
  rw [interpolatedBody.eq_def]
  rfl

theorem hole_cons (depth : Nat) (c : Char) (cs : List Char) :
    hole depth (c :: cs) =
      if c = '\x7b' then (hole (depth + 1) cs).map (· + 1)
      else if c = '\x7d' then
        match depth with
        | 0 => some 1
        | d + 1 => (hole d cs).map (· + 1)
      else if c = '"' then
        (plainBody cs).bind fun n => (hole depth (cs.drop n)).bind fun m => some (1 + n + m)
      else if c = '@' ∧ cs.head? = some '"' then
        (verbatimBody cs.tail).bind fun n =>
          (hole depth (cs.tail.drop n)).bind fun m => some (2 + n + m)
      else if c = '\'' then
        (characterBody true cs).bind fun n =>
          (hole depth (cs.drop n)).bind fun m => some (1 + n + m)
      else if isLineBreak c then none
      else (hole depth cs).map (· + 1) := by
  rw [hole.eq_def]
  rfl

theorem commentBody_cons (c : Char) (cs : List Char) :
    commentBody (c :: cs) =
      if c = '*' ∧ cs.head? = some '/' then some 2 else (commentBody cs).map (· + 1) := rfl

/-! ## Every scanner takes a character

A scanner that takes no character could be called for ever. -/

theorem plainBody_pos (h : plainBody cs = some n) : 0 < n := by
  cases cs with
  | nil => cases h
  | cons c cs =>
    rw [plainBody_cons] at h
    grind [Option.map_eq_some_iff]

theorem verbatimBody_pos (h : verbatimBody cs = some n) : 0 < n := by
  cases cs with
  | nil => cases h
  | cons c cs =>
    rw [verbatimBody_cons] at h
    grind [Option.map_eq_some_iff]

theorem characterBody_pos {first : Bool} (h : characterBody first cs = some n) : 0 < n := by
  cases cs with
  | nil => cases h
  | cons c cs =>
    rw [characterBody_cons] at h
    grind [Option.map_eq_some_iff]

theorem interpolatedBody_pos {verbatim : Bool} (h : interpolatedBody verbatim cs = some n) :
    0 < n := by
  cases cs with
  | nil =>
    unfold interpolatedBody at h
    cases h
  | cons c cs =>
    rw [interpolatedBody_cons] at h
    grind [Option.map_eq_some_iff, Option.bind_eq_some_iff]

theorem hole_pos {depth : Nat} (h : hole depth cs = some n) : 0 < n := by
  cases cs with
  | nil =>
    unfold hole at h
    cases h
  | cons c cs =>
    rw [hole_cons] at h
    grind [Option.map_eq_some_iff, Option.bind_eq_some_iff]

/-- A comment is closed by two characters. -/
theorem one_lt_of_commentBody (h : commentBody cs = some n) : 1 < n := by
  fun_induction commentBody cs generalizing n with
  | case1 => cases h
  | case2 => exact Option.some.inj h ▸ Nat.lt_succ_self 1
  | case3 c cs hc ih =>
    obtain ⟨m, hm, rfl⟩ := Option.map_eq_some_iff.mp h
    exact Nat.lt_succ_of_lt (ih hm)

/-! ## No scanner takes more than there is

What a scanner takes is a part of the text. -/

theorem plainBody_le (h : plainBody cs = some n) : n ≤ cs.length := by
  fun_induction plainBody cs generalizing n with grind [Option.map_eq_some_iff]

theorem verbatimBody_le (h : verbatimBody cs = some n) : n ≤ cs.length := by
  fun_induction verbatimBody cs generalizing n with grind [Option.map_eq_some_iff]

theorem characterBody_le {first : Bool} (h : characterBody first cs = some n) : n ≤ cs.length := by
  fun_induction characterBody first cs generalizing n with grind [Option.map_eq_some_iff]

theorem commentBody_le (h : commentBody cs = some n) : n ≤ cs.length := by
  fun_induction commentBody cs generalizing n with
    grind [Option.map_eq_some_iff, List.head?_eq_some_iff]

/-- What a scanner leaves is short enough for the next one. -/
theorem le_of_tail {f : List Char → Option Nat} (hf : ∀ m, f cs.tail = some m → m ≤ cs.tail.length)
    (hpos : ∀ m, f cs.tail = some m → 0 < m) (h : (f cs.tail).map (· + 2) = some n) :
    n ≤ (c :: cs).length := by
  obtain ⟨m, hm, rfl⟩ := Option.map_eq_some_iff.mp h
  have hle := hf m hm
  have hlt := hpos m hm
  rw [List.length_tail] at hle
  rw [List.length_cons]
  omega

theorem le_of_nested {f g : List Char → Option Nat} {k : Nat}
    (hf : ∀ m, f cs = some m → m ≤ cs.length)
    (hg : ∀ a m, g (cs.drop a) = some m → m ≤ (cs.drop a).length)
    (h : ((f cs).bind fun a => (g (cs.drop a)).bind fun m => some (k + a + m)) = some n) :
    n ≤ k + cs.length := by
  obtain ⟨a, ha, h⟩ := Option.bind_eq_some_iff.mp h
  obtain ⟨m, hm, h⟩ := Option.bind_eq_some_iff.mp h
  have hsum : k + a + m = n := Option.some.inj h
  have ha' := hf a ha
  have hm' := hg a m hm
  rw [List.length_drop] at hm'
  omega

theorem hole_le {depth : Nat} (h : hole depth cs = some n) : n ≤ cs.length := by
  induction hlength : cs.length using Nat.strongRecOn generalizing depth cs n with
  | ind l ih =>
  subst hlength
  cases cs with
  | nil =>
    unfold hole at h
    cases h
  | cons c cs =>
    -- Holes call themselves behind a literal, so the induction is on the length of what is left.
    have hrest : ∀ {v : List Char}, v.length ≤ cs.length →
        ∀ d m, hole d v = some m → m ≤ v.length :=
      fun hv d m hm => ih _ (Nat.lt_succ_of_le hv) hm rfl
    have hdrop : ∀ a m, hole depth (cs.drop a) = some m → m ≤ (cs.drop a).length :=
      fun a => hrest (by rw [List.length_drop]; omega) depth
    have hmap : ∀ d, (hole d cs).map (· + 1) = some n → n ≤ (c :: cs).length := by
      intro d h
      obtain ⟨m, hm, rfl⟩ := Option.map_eq_some_iff.mp h
      exact Nat.succ_le_succ (hrest (Nat.le_refl _) d m hm)
    have hone : ∀ {f : List Char → Option Nat}, (∀ m, f cs = some m → m ≤ cs.length) →
        ((f cs).bind fun a => (hole depth (cs.drop a)).bind fun m => some (1 + a + m)) = some n →
        n ≤ (c :: cs).length := by
      intro f hf h
      have := le_of_nested hf hdrop h
      rw [List.length_cons]
      omega
    rw [hole_cons] at h
    split at h
    · exact hmap _ h
    split at h
    · split at h
      · grind
      · exact hmap _ h
    split at h
    · exact hone (fun _ => plainBody_le) h
    split at h
    next hat =>
      obtain ⟨v, rfl⟩ := List.head?_eq_some_iff.mp hat.2
      have := le_of_nested (fun _ => verbatimBody_le)
        (fun a => hrest (by simp only [List.length_drop, List.tail_cons, List.length_cons]; omega)
          depth) h
      rw [List.tail_cons] at this
      simp only [List.length_cons]
      omega
    split at h
    · exact hone (fun _ => characterBody_le) h
    split at h
    · cases h
    · exact hmap _ h

theorem interpolatedBody_le {verbatim : Bool} (h : interpolatedBody verbatim cs = some n) :
    n ≤ cs.length := by
  induction hlength : cs.length using Nat.strongRecOn generalizing cs n with
  | ind l ih =>
  subst hlength
  cases cs with
  | nil =>
    unfold interpolatedBody at h
    cases h
  | cons c cs =>
    have hrest : ∀ {v : List Char}, v.length ≤ cs.length →
        ∀ m, interpolatedBody verbatim v = some m → m ≤ v.length :=
      fun hv m hm => ih _ (Nat.lt_succ_of_le hv) hm rfl
    have htwo : (interpolatedBody verbatim cs.tail).map (· + 2) = some n → n ≤ (c :: cs).length :=
      le_of_tail (hrest (by rw [List.length_tail]; omega)) fun _ => interpolatedBody_pos
    rw [interpolatedBody_cons] at h
    split at h
    · exact htwo h
    split at h
    · split at h
      · exact htwo h
      · grind
    split at h
    · cases h
    split at h
    · split at h
      · exact htwo h
      · have := le_of_nested (fun _ => hole_le)
          (fun a m => hrest (by rw [List.length_drop]; omega) m) h
        rw [List.length_cons]
        omega
    · obtain ⟨m, hm, rfl⟩ := Option.map_eq_some_iff.mp h
      exact Nat.succ_le_succ (hrest (Nat.le_refl _) m hm)

/-! ## What follows does not matter

A scan that ends inside of a text does not look behind it, so what stands there may be exchanged. -/

/-- A scan that stops in front of a text, or before it, stops there also in front of another one. -/
def Settled (f : List Char → Option Nat) : Prop :=
  ∀ u x y n, f (u ++ x) = some n → n ≤ u.length → y.head? ≠ some '"' → f (u ++ y) = some n

theorem settled_plainBody : Settled plainBody := by
  intro u x y n h hn hy
  fun_induction plainBody u generalizing n with
  | case1 => exact absurd (plainBody_pos h) (Nat.not_lt.mpr hn)
  | case2 => cases x <;> grind [plainBody_cons, plainBody_pos, Option.map_eq_some_iff]
  | _ => grind [plainBody_cons, Option.map_eq_some_iff]

theorem settled_characterBody (first : Bool) : Settled (characterBody first) := by
  intro u x y n h hn hy
  fun_induction characterBody first u generalizing n with
  | case1 => exact absurd (characterBody_pos h) (Nat.not_lt.mpr hn)
  | case2 => cases x <;> grind [characterBody_cons, characterBody_pos, Option.map_eq_some_iff]
  | _ => grind [characterBody_cons, Option.map_eq_some_iff]

theorem settled_verbatimBody : Settled verbatimBody := by
  intro u x y n h hn hy
  fun_induction verbatimBody u generalizing n with
  | case1 => exact absurd (verbatimBody_pos h) (Nat.not_lt.mpr hn)
  | case2 =>
    rw [List.cons_append, List.nil_append, verbatimBody_cons, if_pos rfl] at h ⊢
    rw [if_neg hy]
    split at h
    · obtain ⟨m, -, rfl⟩ := Option.map_eq_some_iff.mp h
      simp at hn
    · exact h
  | case3 cs ih =>
    obtain ⟨m, hm, rfl⟩ := Option.map_eq_some_iff.mp (by simpa [verbatimBody_cons] using h)
    simp at hn
    simpa [verbatimBody_cons] using ih m hm hn
  | case4 d rest hd => simpa [verbatimBody_cons, hd] using h
  | case5 c cs hc ih =>
    obtain ⟨m, hm, rfl⟩ := Option.map_eq_some_iff.mp (by simpa [verbatimBody_cons, hc] using h)
    simp at hn
    simpa [verbatimBody_cons, hc] using ih m hm hn

/-- Nothing goes on with a comment, not even a quote. -/
theorem commentBody_append (h : commentBody (u ++ x) = some n) (hn : n ≤ u.length) (y : List Char) :
    commentBody (u ++ y) = some n := by
  fun_induction commentBody u generalizing n with
  | case1 => exact absurd (one_lt_of_commentBody h) (Nat.not_lt.mpr (Nat.le_succ_of_le hn))
  | case2 c cs hc =>
    have hhead : ∀ z : List Char, (cs ++ z).head? = some '/' := by simp [List.head?_append, hc.2]
    rw [List.cons_append, commentBody_cons, if_pos ⟨hc.1, hhead _⟩] at h ⊢
    exact h
  | case3 c cs hc ih =>
    have hpos := one_lt_of_commentBody h
    obtain ⟨d, ds, rfl⟩ : ∃ d ds, cs = d :: ds := by
      cases cs with
      | nil => simp at hn; omega
      | cons d ds => exact ⟨d, ds, rfl⟩
    have hc' : ∀ z, ¬ (c = '*' ∧ ((d :: ds) ++ z).head? = some '/') := fun z => hc
    rw [List.cons_append, commentBody_cons, if_neg (hc' _)] at h ⊢
    obtain ⟨m, hm, rfl⟩ := Option.map_eq_some_iff.mp h
    rw [ih hm (Nat.le_of_succ_le_succ hn)]
    rfl

/-- A scan of a nested literal, and of what follows it. -/
theorem settled_nested {f g : List Char → Option Nat} {k : Nat} (hf : Settled f)
    (hpos : ∀ {cs a}, f cs = some a → 0 < a)
    (hg : ∀ v : List Char, v.length < u.length → ∀ m, g (v ++ x) = some m → m ≤ v.length →
      g (v ++ y) = some m)
    (h : ((f (u ++ x)).bind fun a => (g ((u ++ x).drop a)).bind fun m => some (k + a + m)) = some n)
    (hn : n ≤ u.length + k) (hy : y.head? ≠ some '"') :
    ((f (u ++ y)).bind fun a => (g ((u ++ y).drop a)).bind fun m => some (k + a + m)) = some n := by
  obtain ⟨a, ha, h⟩ := Option.bind_eq_some_iff.mp h
  obtain ⟨m, hm, h⟩ := Option.bind_eq_some_iff.mp h
  obtain rfl := Option.some.inj h
  have hau : a ≤ u.length := by omega
  have ha0 := hpos ha
  have hlength : (u.drop a).length = u.length - a := List.length_drop
  rw [List.drop_append_of_le_length hau] at hm
  have hm' := hg (u.drop a) (by omega) m hm (by omega)
  rw [hf u x y a ha hau hy, Option.bind_some, List.drop_append_of_le_length hau, hm']
  rfl

/-- Two branchings of one shape: the second answers what the first does if its branches do. -/
theorem ite_of_ite {p : Prop} [Decidable p] {a b a' b' : Option Nat}
    (h : (if p then a else b) = some n) (ha : a = some n → a' = some n)
    (hb : b = some n → b' = some n) : (if p then a' else b') = some n := by
  split
  next hp => exact ha (by rwa [if_pos hp] at h)
  next hp => exact hb (by rwa [if_neg hp] at h)

/-- The two branchings may also ask different questions of what follows. -/
theorem ite_of_ite' {p q : Prop} [Decidable p] [Decidable q] {a b a' b' : Option Nat}
    (h : (if p then a else b) = some n) (ha : p → a = some n → q ∧ a' = some n)
    (hb : ¬ p → b = some n → ¬ q ∧ b' = some n) : (if q then a' else b') = some n := by
  split at h
  next hp => rw [if_pos (ha hp h).1, (ha hp h).2]
  next hp => rw [if_neg (hb hp h).1, (hb hp h).2]

/-- The first character of a text that is not empty does not depend on what follows. -/
theorem head?_append_of_ne_nil (hu : u ≠ []) (x y : List Char) :
    (u ++ x).head? = (u ++ y).head? := by
  cases u with
  | nil => exact absurd rfl hu
  | cons d u => rfl

theorem settled_hole (depth : Nat) : Settled (hole depth) := by
  intro u
  induction hlength : u.length using Nat.strongRecOn generalizing u depth with
  | ind l ih =>
  subst hlength
  intro x y n h hn hy
  cases u with
  | nil => exact absurd (hole_pos h) (Nat.not_lt.mpr hn)
  | cons c u =>
    have hrest : ∀ (d : Nat) (v : List Char), v.length ≤ u.length → ∀ m,
        hole d (v ++ x) = some m → m ≤ v.length → hole d (v ++ y) = some m :=
      fun d v hv m hm hle => ih v.length (Nat.lt_succ_of_le hv) d v rfl x y m hm hle hy
    have hlater : ∀ v : List Char, v.length < u.length → ∀ m,
        hole depth (v ++ x) = some m → m ≤ v.length → hole depth (v ++ y) = some m :=
      fun v hv => hrest depth v (Nat.le_of_lt hv)
    have hmap : ∀ d, (hole d (u ++ x)).map (· + 1) = some n →
        (hole d (u ++ y)).map (· + 1) = some n := by
      intro d h
      obtain ⟨m, hm, rfl⟩ := Option.map_eq_some_iff.mp h
      rw [hrest d u (Nat.le_refl _) m hm (Nat.le_of_succ_le_succ hn)]
      rfl
    rw [List.cons_append, hole_cons] at h ⊢
    refine ite_of_ite h (hmap _) fun h => ?_
    refine ite_of_ite h (fun h => ?_) fun h => ?_
    · cases depth with
      | zero => exact h
      | succ d => exact hmap d h
    refine ite_of_ite h (fun h => ?_) fun h => ?_
    · exact settled_nested settled_plainBody plainBody_pos hlater h hn hy
    refine ite_of_ite' h (fun hquote h => ?_) fun hquote h => ⟨?_, ?_⟩
    · -- the quote behind the at sign lies within the text in front
      cases u with
      | nil =>
        obtain ⟨a, -, h⟩ := Option.bind_eq_some_iff.mp h
        obtain ⟨m, -, h⟩ := Option.bind_eq_some_iff.mp h
        have htwo : 2 + a + m = n := Option.some.inj h
        have hone : n ≤ 1 := hn
        omega
      | cons d v =>
        refine ⟨hquote, ?_⟩
        exact settled_nested settled_verbatimBody verbatimBody_pos
          (fun v' hv => hlater v' (Nat.lt_succ_of_lt hv)) h hn hy
    · rintro ⟨hat, hhead⟩
      cases u with
      | nil => exact hy hhead
      | cons d v => exact hquote ⟨hat, hhead⟩
    refine ite_of_ite h (fun h => ?_) fun h => ?_
    · exact settled_nested (settled_characterBody true) characterBody_pos hlater h hn hy
    exact ite_of_ite h id (hmap depth)

theorem settled_interpolatedBody (verbatim : Bool) : Settled (interpolatedBody verbatim) := by
  intro u
  induction hlength : u.length using Nat.strongRecOn generalizing u with
  | ind l ih =>
  subst hlength
  intro x y n h hn hy
  cases u with
  | nil => exact absurd (interpolatedBody_pos h) (Nat.not_lt.mpr hn)
  | cons c u =>
    have hrest : ∀ v : List Char, v.length ≤ u.length → ∀ m,
        interpolatedBody verbatim (v ++ x) = some m → m ≤ v.length →
        interpolatedBody verbatim (v ++ y) = some m :=
      fun v hv m hm hle => ih v.length (Nat.lt_succ_of_le hv) v rfl x y m hm hle hy
    have hmap : (interpolatedBody verbatim (u ++ x)).map (· + 1) = some n →
        (interpolatedBody verbatim (u ++ y)).map (· + 1) = some n := by
      intro h
      obtain ⟨m, hm, rfl⟩ := Option.map_eq_some_iff.mp h
      rw [hrest u (Nat.le_refl _) m hm (Nat.le_of_succ_le_succ hn)]
      rfl
    -- where two characters are taken at once, both lie within the text in front
    have htwo : (interpolatedBody verbatim (u ++ x).tail).map (· + 2) = some n →
        u ≠ [] ∧ (interpolatedBody verbatim (u ++ y).tail).map (· + 2) = some n := by
      intro h
      obtain ⟨m, hm, rfl⟩ := Option.map_eq_some_iff.mp h
      cases u with
      | nil =>
        have hone : m + 2 ≤ 1 := hn
        omega
      | cons d v =>
        have hle : m ≤ v.length := Nat.le_of_succ_le_succ (Nat.le_of_succ_le_succ hn)
        refine ⟨List.cons_ne_nil d v, ?_⟩
        rw [List.cons_append, List.tail_cons, hrest v (Nat.le_succ _) m hm hle]
        rfl
    have hpair : ∀ {d : Char}, (u ++ x).head? = some d →
        (interpolatedBody verbatim (u ++ x).tail).map (· + 2) = some n →
        (u ++ y).head? = some d ∧ (interpolatedBody verbatim (u ++ y).tail).map (· + 2) = some n :=
      fun hd h => ⟨head?_append_of_ne_nil (htwo h).1 x y ▸ hd, (htwo h).2⟩
    rw [List.cons_append, interpolatedBody_cons] at h ⊢
    refine ite_of_ite h (fun h => (htwo h).2) fun h => ?_
    refine ite_of_ite h (fun h => ?_) fun h => ?_
    · simp only [Bool.and_eq_true, decide_eq_true_eq] at h ⊢
      refine ite_of_ite' h (fun hq h => ?_) fun hq h => ⟨?_, h⟩
      · exact ⟨⟨hq.1, (hpair hq.2 h).1⟩, (hpair hq.2 h).2⟩
      · rintro ⟨hverbatim, hhead⟩
        cases u with
        | nil => exact hy hhead
        | cons d v => exact hq ⟨hverbatim, hhead⟩
    refine ite_of_ite h id fun h => ?_
    refine ite_of_ite h (fun h => ?_) fun h => hmap h
    refine ite_of_ite' h (fun hbrace h => hpair hbrace h) fun hbrace h => ?_
    have hu : u ≠ [] := by
      rintro rfl
      obtain ⟨a, ha, h⟩ := Option.bind_eq_some_iff.mp h
      obtain ⟨m, hm, h⟩ := Option.bind_eq_some_iff.mp h
      have hsum : 1 + a + m = n := Option.some.inj h
      have ha0 := hole_pos ha
      have hone : n ≤ 1 := hn
      omega
    refine ⟨head?_append_of_ne_nil hu x y ▸ hbrace, ?_⟩
    exact settled_nested (settled_hole 0) hole_pos (fun v hv => hrest v (Nat.le_of_lt hv)) h hn hy

theorem settled_quotedBody (verbatim interpolated : Bool) :
    Settled (quotedBody verbatim interpolated) := by
  cases interpolated with
  | true => exact settled_interpolatedBody verbatim
  | false =>
    cases verbatim with
    | true => exact settled_verbatimBody
    | false => exact settled_plainBody

end CodeMend.Literal
