import Mathlib.Data.List.Chain
import CodeMend.Proofs.Token.LineBreaks

/-!
# CodeMend — a text in runs

A text can be cut into runs: one for each token, each comment, each directive and each piece of
blanks.  A line break is cut character by character, since a line feed joins the carriage return in
front of it as soon as nothing stands between them.  What blanks are tidied to depends on the runs
alone, and the runs of a text are determined by the text and by those of them that are not blank.

* **`runs`** — the runs of a text; **`runs_gap`** and **`runs_word`** read them off trivia and
  tokens.
* **`account_solidRuns`** — the runs that are not blank are an account of the text.
* **`Spaced`** — no run is empty, and no two runs of blanks stand side by side; **`spaced_runs`**.
* **`eq_of_solid_eq`** — runs with the same text of which the same are not blank are the same.
-/

namespace CodeMend

open Lexer Literal

/-- The runs of a text that starts at the start of a line or not, up to a lexical fault. -/
def runs (atLineStart : Bool) : List Char → List (List Char)
  | [] => []
  | c :: cs =>
    match scanLeading atLineStart c cs with
    | some (kind, n) =>
      if kind = .endOfLine then [c] :: runs true cs
      else (c :: cs.take n) :: runs (startsLine atLineStart kind) (cs.drop n)
    | none =>
      match scanToken c cs with
      | .ok (_, n) => (c :: cs.take n) :: runs false (cs.drop n)
      | .error _ => []
termination_by cs => cs.length
decreasing_by all_goals (simp only [List.length_drop, List.length_cons]; omega)

/-- The run is made of blanks. -/
def isBlankRun (run : List Char) : Bool := run.head?.any isSpace

/-- The run is a character of a line break. -/
def breaksLine (run : List Char) : Bool := run.head?.any isLineBreak

/-- The runs that are not blank. -/
def solidRuns (atLineStart : Bool) (cs : List Char) : List (List Char) :=
  (runs atLineStart cs).filter fun run => !isBlankRun run

/-- The runs of a piece of trivia. -/
def Trivia.runs (t : Trivia) : List (List Char) :=
  if t.kind = .endOfLine then t.text.toList.map fun c => [c] else [t.text.toList]

variable {b : Bool} {c : Char} {w x y cs : List Char} {kind : TokenKind} {K L : List (List Char)}

/-! ## The runs of trivia and of tokens

A text is cut into runs: tokens, comments, directives, and blanks as far as they go. -/

@[simp] theorem runs_nil : runs b [] = [] := by
  unfold runs
  rfl

@[simp] theorem isBlankRun_cons : isBlankRun (c :: w) = isSpace c := rfl

@[simp] theorem breaksLine_cons : breaksLine (c :: w) = isLineBreak c := rfl

theorem runs_lineBreak (hc : isLineBreak c = true) : runs b (c :: cs) = [c] :: runs true cs := by
  rw [runs, scanLeading_of_isLineBreak b hc]
  exact if_pos rfl

theorem runs_lineBreaks (hw : ∀ d ∈ w, isLineBreak d = true) (hne : w ≠ []) (b : Bool)
    (cs : List Char) : runs b (w ++ cs) = (w.map fun d => [d]) ++ runs true cs := by
  induction w generalizing b with
  | nil => exact absurd rfl hne
  | cons d w ih =>
    rw [List.cons_append, runs_lineBreak (hw d List.mem_cons_self), List.map_cons, List.cons_append]
    by_cases hnil : w = []
    · subst hnil
      rfl
    · rw [ih (fun e he => hw e (List.mem_cons_of_mem _ he)) hnil true]

theorem runs_of_scanLeading {k : TriviaKind} (h : scanLeading b c (w ++ x) = some (k, w.length))
    (hline : k ≠ .endOfLine) : runs b (c :: (w ++ x)) = (c :: w) :: runs (startsLine b k) x := by
  rw [runs, h]
  dsimp only
  rw [if_neg hline, List.take_left, List.drop_left]

/-- A piece of trivia in front of a text. -/
theorem runs_piece {t : Trivia} (htext : t.text.toList = c :: w)
    (h : scanLeading b c (w ++ x) = some (t.kind, w.length)) :
    runs b (c :: (w ++ x)) = t.runs ++ runs (startsLine b t.kind) x := by
  by_cases hline : t.kind = .endOfLine
  · have hbreaks := runs_lineBreaks ((forall_of_scanLeading h).2 hline) (List.cons_ne_nil c w) b x
    rw [List.cons_append] at hbreaks
    rw [hbreaks, Trivia.runs, if_pos hline, htext, hline]
    rfl
  · rw [runs_of_scanLeading h hline, Trivia.runs, if_neg hline, htext]
    rfl

/-- **The runs of trivia in front of a text.** -/
theorem runs_gap {pieces : List Trivia} (h : Gap b pieces x) :
    runs b (Trivia.chars pieces ++ x) =
      pieces.flatMap Trivia.runs ++ runs (lineStart b pieces) x := by
  induction pieces generalizing b with
  | nil => rfl
  | cons t ts ih =>
    obtain ⟨⟨c, w, htext, hscan⟩, hts⟩ := h
    rw [Trivia.chars_cons, htext, List.append_assoc, List.cons_append, runs_piece htext hscan,
      ih hts, List.flatMap_cons, List.append_assoc]
    rfl

/-- **A token is a run.** -/
theorem runs_word (h : Word b c w kind x) : runs b (c :: (w ++ x)) = (c :: w) :: runs false x := by
  rw [runs, h.scanLeading_eq]
  dsimp only
  rw [h.scan]
  dsimp only
  rw [List.take_left, List.drop_left]

theorem flatten_runs_trivia (pieces : List Trivia) :
    (pieces.flatMap Trivia.runs).flatten = Trivia.chars pieces := by
  induction pieces with
  | nil => rfl
  | cons t ts ih =>
    rw [List.flatMap_cons, List.flatten_append, ih, Trivia.chars_cons, Trivia.runs]
    split
    · simp [← List.flatMap_def]
    · simp

/-- **The runs of a text with tokens make up the text.** -/
theorem Lexed.flatten_runs {pos : Nat} {behind : List Trivia} {ts : List Token}
    (h : Lexed pos b behind cs ts) : (runs b cs).flatten = cs := by
  induction h with
  | last pos b behind before hgap =>
    have hruns := runs_gap hgap
    rw [List.append_nil] at hruns
    rw [hruns, runs_nil, List.append_nil, flatten_runs_trivia]
  | more pos b behind before after c w kind rest tokens hgap hword htail ih =>
    rw [runs_gap hgap, runs_word hword, List.flatten_append, flatten_runs_trivia,
      List.flatten_cons, ih]
    rfl

/-! ## The runs that are not blank

All runs but the blanks are an account of the text; this is what tidying must not change. -/

theorem head?_drop_countWhile (p : Char → Bool) (cs : List Char) :
    (cs.drop (countWhile p cs)).head?.any p = false := by
  induction cs with
  | nil => rfl
  | cons c cs ih =>
    unfold countWhile
    split
    next => exact ih
    next hc => simpa using hc

theorem solidRuns_blank (hc : isSpace c = true) : solidRuns b (c :: cs) = solidRuns b cs := by
  have hpiece : ∀ {d cs}, isSpace d = true →
      solidRuns b (d :: cs) = solidRuns b (cs.drop (countWhile isSpace cs)) := by
    intro d cs hd
    rw [solidRuns, runs, scanLeading_of_isSpace b hd]
    dsimp only
    rw [if_neg nofun, List.filter_cons_of_neg (by simp [hd])]
    rfl
  rw [hpiece hc]
  cases cs with
  | nil => rfl
  | cons d cs =>
    unfold countWhile
    split
    next hd => exact (hpiece hd).symm
    next => rfl

theorem solidRuns_word (h : Word b c w kind x) :
    solidRuns b (c :: (w ++ x)) = (c :: w) :: solidRuns false x := by
  rw [solidRuns, runs_word h, List.filter_cons_of_pos (by simp [h.space])]
  rfl

/-- **The runs that are not blank are an account of a text.** -/
theorem account_solidRuns : Account solidRuns where
  blank := solidRuns_blank
  piece := by
    intro b c w k x y hscan hxy hrest
    have hblanks := (forall_of_scanLeading hscan).1
    have hlines := (forall_of_scanLeading hscan).2
    by_cases hblank : k = .whitespace
    · subst hblank
      have hx : solidRuns b (c :: w ++ x) = solidRuns b x :=
        blanks_of_blank solidRuns_blank (hblanks rfl)
      have hy : solidRuns b (c :: w ++ y) = solidRuns b y :=
        blanks_of_blank solidRuns_blank (hblanks rfl)
      exact hy.trans (hrest.trans hx.symm)
    by_cases hline : k = .endOfLine
    · subst hline
      have hruns : ∀ z, solidRuns b (c :: w ++ z) =
          (((c :: w).map fun d => [d]).filter fun run => !isBlankRun run) ++ solidRuns true z := by
        intro z
        rw [solidRuns, runs_lineBreaks (hlines rfl) (List.cons_ne_nil c w), List.filter_append]
        rfl
      exact (hruns y).trans ((congrArg _ hrest).trans (hruns x).symm)
    · -- a comment or a directive is a run of its own
      have hruns : ∀ z, scanLeading b c (w ++ z) = some (k, w.length) →
          solidRuns b (c :: (w ++ z)) =
            ([c :: w].filter fun run => !isBlankRun run) ++ solidRuns (startsLine b k) z := by
        intro z hz
        rw [solidRuns, runs_of_scanLeading hz hline]
        exact List.filter_append [c :: w] _
      rw [hruns y (scanLeading_append hscan hblank hline hxy), hruns x hscan, hrest]
  word := by
    intro b c w kind x y hx hy hrest
    rw [solidRuns_word hx, solidRuns_word hy, hrest]

/-! ## Blanks between other runs

A list of runs in which blanks are never side by side is found again in the text that it makes up.
-/

/-- No run is empty, blanks have runs of their own, and something stands between any two of
these. -/
structure Spaced (K : List (List Char)) : Prop where
  nonempty : ∀ run ∈ K, run ≠ []
  blanks : ∀ run ∈ K, isBlankRun run = true → ∀ d ∈ run, isSpace d = true
  apart : K.IsChain fun run next => isBlankRun run = true → isBlankRun next = false

theorem spaced_nil : Spaced [] := ⟨by simp, by simp, .nil⟩

theorem Spaced.tail (h : Spaced (w :: K)) : Spaced K :=
  ⟨fun run hrun => h.nonempty run (List.mem_cons_of_mem _ hrun),
    fun run hrun => h.blanks run (List.mem_cons_of_mem _ hrun), h.apart.tail⟩

theorem Spaced.cons (h : Spaced K) (hne : w ≠ [])
    (hblanks : isBlankRun w = true → (∀ d ∈ w, isSpace d = true) ∧
      ∀ next ∈ K.head?, isBlankRun next = false) : Spaced (w :: K) where
  nonempty := List.forall_mem_cons.mpr ⟨hne, h.nonempty⟩
  blanks := List.forall_mem_cons.mpr ⟨fun hblank => (hblanks hblank).1, h.blanks⟩
  apart := List.isChain_cons.mpr ⟨fun next hnext hblank => (hblanks hblank).2 next hnext, h.apart⟩

/-- The first run starts with the first character. -/
theorem isBlankRun_of_head?_runs (h : (runs b cs).head? = some w) :
    isBlankRun w = cs.head?.any isSpace := by
  unfold runs at h
  grind [isBlankRun]

/-- **Blanks are cut off whole.** -/
theorem spaced_runs (b : Bool) (cs : List Char) : Spaced (runs b cs) := by
  fun_induction runs b cs with
  | case1 => exact spaced_nil
  -- A line break has a run of its own and is no blank.
  | case2 b c cs n hscan ih =>
    have hc : isSpace c = false := by
      rcases cases_of_scanLeading hscan with ⟨h, -⟩ | ⟨h, -⟩ | ⟨-, hline, -⟩ | ⟨h, -⟩ | ⟨h, -⟩
      · cases h
      · cases h
      · by_contra hc
        rw [isLineBreak, Bool.or_eq_true, decide_eq_true_eq, decide_eq_true_eq] at hline
        rcases hline with rfl | rfl <;> exact hc rfl
      · cases h
      · cases h
    refine ih.cons (List.cons_ne_nil _ _) fun hblank => ?_
    rw [isBlankRun_cons, hc] at hblank
    cases hblank
  | case3 b c cs kind n hscan hline ih =>
    refine ih.cons (List.cons_ne_nil _ _) fun hblank => ?_
    rw [isBlankRun_cons] at hblank
    obtain ⟨-, rfl⟩ := Prod.mk.inj
      (Option.some.inj (hscan.symm.trans (scanLeading_of_isSpace b hblank cs)))
    constructor
    · have hn : countWhile isSpace cs ≤ cs.length := countWhile_le _ _
      have htake : countWhile isSpace (cs.take (countWhile isSpace cs) ++
          cs.drop (countWhile isSpace cs)) = (cs.take (countWhile isSpace cs)).length := by
        rw [List.take_append_drop, List.length_take, Nat.min_eq_left hn]
      exact List.forall_mem_cons.mpr ⟨hblank, (countWhile_append_eq_length_iff.mp htake).1⟩
    · intro next hnext
      rw [isBlankRun_of_head?_runs hnext, head?_drop_countWhile]
  | case4 b c cs hscan kind n htoken ih =>
    refine ih.cons (List.cons_ne_nil _ _) fun hblank => ?_
    rw [isBlankRun_cons] at hblank
    rw [scanLeading_of_isSpace b hblank] at hscan
    cases hscan
  | case5 => exact spaced_nil

/-- Blanks in front of something else are found again. -/
theorem eq_of_blanks_append (hw : ∀ d ∈ w, isSpace d = true) (hx : ∀ d ∈ x, isSpace d = true)
    (hcs : cs.head?.any isSpace = false) (hy : y.head?.any isSpace = false)
    (h : w ++ cs = x ++ y) : w = x ∧ cs = y := by
  have htake : ∀ {u z : List Char}, (∀ d ∈ u, isSpace d = true) → z.head?.any isSpace = false →
      (u ++ z).takeWhile isSpace = u := by
    intro u z hu hz
    rw [List.takeWhile_append_of_pos hu]
    cases z with
    | nil => simp
    | cons d z => rw [List.takeWhile_cons_of_neg (by simpa using hz), List.append_nil]
  have hwx : w = x := by
    rw [← htake hw hcs, h, htake hx hy]
  subst hwx
  exact ⟨rfl, List.append_cancel_left h⟩

theorem Spaced.head?_flatten (h : Spaced K) :
    K.flatten.head?.any isSpace = K.head?.any isBlankRun := by
  cases K with
  | nil => rfl
  | cons run K =>
    cases run with
    | nil => exact absurd rfl (h.nonempty [] List.mem_cons_self)
    | cons c run => rfl

/-- Behind a run of blanks, the text does not start with one. -/
theorem Spaced.head?_flatten_tail (h : Spaced (w :: K)) (hblank : isBlankRun w = true) :
    K.flatten.head?.any isSpace = false := by
  rw [h.tail.head?_flatten]
  cases K with
  | nil => rfl
  | cons run K => exact (List.isChain_cons_cons.mp h.apart).1 hblank

/-- **Runs with the same text of which the same are not blank are the same.** -/
theorem eq_of_solid_eq (hK : Spaced K) (hL : Spaced L) (htext : K.flatten = L.flatten)
    (hsolid : (K.filter fun run => !isBlankRun run) = L.filter fun run => !isBlankRun run) :
    K = L := by
  induction K generalizing L with
  | nil =>
    cases L with
    | nil => rfl
    | cons run L =>
      have hnil : run = [] := (List.append_eq_nil_iff.mp htext.symm).1
      exact absurd hnil (hL.nonempty run List.mem_cons_self)
  | cons run K ih =>
    cases L with
    | nil =>
      have hnil : run = [] := (List.append_eq_nil_iff.mp htext).1
      exact absurd hnil (hK.nonempty run List.mem_cons_self)
    | cons run' L =>
      -- both start with the same character, so that both are blank or neither is
      have hsame : isBlankRun run = isBlankRun run' := by
        have hheads := hK.head?_flatten
        rw [htext, hL.head?_flatten] at hheads
        exact hheads.symm
      rw [List.flatten_cons, List.flatten_cons] at htext
      cases hblank : isBlankRun run with
      | true =>
        have hblank' := hsame.symm.trans hblank
        obtain ⟨rfl, hrest⟩ := eq_of_blanks_append (hK.blanks run List.mem_cons_self hblank)
          (hL.blanks run' List.mem_cons_self hblank') (hK.head?_flatten_tail hblank)
          (hL.head?_flatten_tail hblank') htext
        rw [List.filter_cons_of_neg (by simp [hblank]), List.filter_cons_of_neg (by simp [hblank])]
          at hsolid
        rw [ih hK.tail hL.tail hrest hsolid]
      | false =>
        have hblank' := hsame.symm.trans hblank
        rw [List.filter_cons_of_pos (by simp [hblank]),
          List.filter_cons_of_pos (by simp [hblank'])] at hsolid
        obtain ⟨rfl, hrest⟩ := List.cons.inj hsolid
        rw [ih hK.tail hL.tail (List.append_cancel_left htext) hrest]

end CodeMend
