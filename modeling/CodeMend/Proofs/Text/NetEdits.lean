import CodeMend.Proofs.Text.Splices
import CodeMend.Text.EditLog

/-!
# CodeMend — what a log of replacements says about its base

The log of an edited document keeps the text as runs of the base and runs that were put in.  The
invariant behind it is that the runs of the base stand in the order of the base, cut at characters,
and that all runs together spell the current text.

* **`Piece.Spells`** — what one run stands for, and how much of the base it uses up.
* **`Runs`** — the invariant: the runs spell a text and go through the base from the front to the
  back.
* **`splice?_of_runs`** — a replacement keeps the invariant, wherever the replaced span cuts, covers
  or touches runs.
* **`gaps?_of_runs`** — the gaps between the runs of the base are a walk through the base that gives
  the current text.
* **`net_edits_reproduce_current`** — after any replacements the net edits turn the base into the
  current text.
-/

namespace CodeMend

/-! ## The invariant

A log keeps its current text as runs, each of which is a stretch of the base or something that was
put in.  The runs of the base follow one another in it.  This is what every replacement keeps, and
all that the net edits need. -/

/-- `p.Spells offset rest cs offset' rest'`: the run `p` stands for the characters `cs`.  The base
from `offset` on is `rest`, and behind the run it goes on with `rest'` from `offset'`. -/
inductive Piece.Spells : Piece → Nat → List Char → List Char → Nat → List Char → Prop where
  | inserted (text : String) (offset : Nat) (rest : List Char) :
      Spells (.inserted text) offset rest text.toList offset rest
  | kept (offset : Nat) (gap cs rest : List Char) :
      Spells (.kept (offset + byteLength gap) (offset + byteLength gap + byteLength cs))
        offset (gap ++ (cs ++ rest)) cs (offset + byteLength gap + byteLength cs) rest

/-- `Runs offset rest pieces cs`: the pieces spell `cs`, and their runs of the base follow each
other in `rest`, which is the base from `offset` on. -/
inductive Runs : Nat → List Char → List Piece → List Char → Prop where
  | nil (offset : Nat) (rest : List Char) : Runs offset rest [] []
  | cons {p : Piece} {ps : List Piece} {offset offset' : Nat} {rest rest' front cs : List Char}
      (hp : p.Spells offset rest front offset' rest') (hps : Runs offset' rest' ps cs) :
      Runs offset rest (p :: ps) (front ++ cs)

/-- A run is as long as what it stands for. -/
theorem Piece.Spells.length_eq {p : Piece} {offset offset' : Nat} {rest rest' cs : List Char}
    (h : p.Spells offset rest cs offset' rest') : p.length = byteLength cs := by
  cases h with
  | inserted => exact (byteLength_toList _).symm
  | kept offset gap cs rest =>
    show offset + byteLength gap + byteLength cs - (offset + byteLength gap) = byteLength cs
    omega

/-- The base may have more in front. -/
theorem Runs.widen {offset there : Nat} {rest cs : List Char} {ps : List Piece}
    (h : Runs there rest ps cs) (gap : List Char) (hthere : there = offset + byteLength gap) :
    Runs offset (gap ++ rest) ps cs := by
  induction h generalizing offset gap with
  | nil => exact .nil offset _
  | @cons p ps there there' rest rest' front cs hp hps ih =>
    cases hp with
    | inserted text => exact .cons (.inserted text offset (gap ++ rest)) (ih gap hthere)
    | kept _ gap' _ _ =>
      have hlen : there + byteLength gap' = offset + byteLength (gap ++ gap') := by
        rw [byteLength_append, hthere]
        omega
      rw [hlen] at hps ⊢
      have hkept := Piece.Spells.kept offset (gap ++ gap') front rest'
      rw [List.append_assoc] at hkept
      exact .cons hkept hps

/-- A run may be left out. -/
theorem Piece.Spells.drop {p : Piece} {ps : List Piece} {offset offset' : Nat}
    {rest rest' front cs : List Char} (hp : p.Spells offset rest front offset' rest')
    (hps : Runs offset' rest' ps cs) : Runs offset rest ps cs := by
  cases hp with
  | inserted => exact hps
  | kept offset gap front rest =>
    exact (hps.widen front rfl).widen gap rfl

/-- Runs without length may be left out. -/
theorem Runs.filter_length_pos {offset : Nat} {rest cs : List Char} {ps : List Piece}
    (h : Runs offset rest ps cs) : Runs offset rest (ps.filter (0 < ·.length)) cs := by
  induction h with
  | nil => exact .nil _ _
  | @cons p ps offset offset' rest rest' front cs hp hps ih =>
    rw [List.filter_cons]
    split
    · exact .cons hp ih
    · next hlen =>
      have hfront : front = [] := by
        rw [hp.length_eq] at hlen
        exact byteLength_eq_zero_iff.mp (by simpa using hlen)
      subst hfront
      exact hp.drop ih

/-- The text that is put in, as runs. -/
theorem Runs.insertion {offset : Nat} {rest cs : List Char} {ps : List Piece} (text : String)
    (h : Runs offset rest ps cs) :
    Runs offset rest (EditLog.insertion text ++ ps) (text.toList ++ cs) := by
  unfold EditLog.insertion
  split
  next hempty =>
    have htext : text = "" := by simpa using hempty
    subst htext
    exact h
  next => exact .cons (.inserted text offset rest) h

/-! ## Cutting a run

A replacement may start or end in the middle of a run.  The run is then cut in two, which are runs
again. -/

/-- What a run stands for may be cut at two characters: the parts on either side are runs again, and
they follow each other. -/
theorem Piece.Spells.slice? {p : Piece} {offset offset' : Nat} {rest rest' a b c : List Char}
    (h : p.Spells offset rest (a ++ (b ++ c)) offset' rest') :
    ∃ front back there between, p.slice? 0 (byteLength a) = some front ∧
      p.slice? (byteLength a + byteLength b) p.length = some back ∧
      front.Spells offset rest a there between ∧ back.Spells there between c offset' rest' := by
  generalize hcs : a ++ (b ++ c) = cs at h
  cases h with
  | inserted text =>
    have hfront : extract? text 0 (byteLength a) = some (String.ofList a) :=
      extract?_eq_some_iff.mpr ⟨[], b ++ c, by simp [hcs], rfl, by simp⟩
    have hback : extract? text (byteLength a + byteLength b) text.utf8ByteSize
        = some (String.ofList c) := by
      refine extract?_eq_some_iff.mpr ⟨a ++ b, [], by simp [hcs], byteLength_append a b, ?_⟩
      rw [← byteLength_toList, ← hcs]
      simp [byteLength_append, Nat.add_assoc]
    refine ⟨.inserted (String.ofList a), .inserted (String.ofList c), offset, rest, ?_, ?_, ?_, ?_⟩
    · show (extract? text 0 (byteLength a)).map Piece.inserted = _
      rw [hfront]
      rfl
    · show (extract? text _ text.utf8ByteSize).map Piece.inserted = _
      rw [hback]
      rfl
    · simpa using Piece.Spells.inserted (String.ofList a) offset rest
    · simpa using Piece.Spells.inserted (String.ofList c) offset rest
  | kept offset gap =>
    subst hcs
    have hfront := Piece.Spells.kept offset gap a (b ++ (c ++ rest'))
    have hback := Piece.Spells.kept (offset + byteLength gap + byteLength a) b c rest'
    have hlen : offset + byteLength gap + byteLength (a ++ (b ++ c))
        = offset + byteLength gap + byteLength a + byteLength b + byteLength c := by
      simp only [byteLength_append]
      omega
    rw [hlen]
    refine ⟨_, _, _, _, rfl, ?_, ?_, hback⟩
    · -- both ends of the back part count from the start of the run
      show some (Piece.kept _ _) = some (Piece.kept _ _)
      congr 2
      · omega
      · show offset + byteLength gap + (_ - (offset + byteLength gap)) = _
        omega
    · simpa only [List.append_assoc, Nat.add_zero] using hfront

/-! ## A replacement keeps the invariant

The walk over the runs has two parts.  Up to the run in which the replaced span starts, runs are
kept whole; behind it they are dropped up to the end of the span. -/

namespace EditLog

/-- What `splice?` keeps of a run in front of the span. -/
def frontPart (span : Span) (pos : Nat) (p : Piece) : Option (List Piece) :=
  if pos < span.start then (p.slice? 0 (min p.length (span.start - pos))).map ([·]) else some []

/-- What `splice?` keeps of a run behind the span. -/
def backPart (span : Span) (pos : Nat) (p : Piece) : Option (List Piece) :=
  if pos + p.length > span.stop then
    (p.slice? (max span.stop pos - pos) p.length).map ([·])
  else some []

theorem splice?_cons (span : Span) (text : String) (pos : Nat) (placed : Bool) (p : Piece)
    (ps : List Piece) :
    splice? span text pos placed (p :: ps) = (do
      let front ← frontPart span pos p
      let here := !placed && decide (span.start ≤ pos + p.length)
      let back ← backPart span pos p
      let rest ← splice? span text (pos + p.length) (placed || here) ps
      return front ++ (if here then insertion text else []) ++ back ++ rest) := by
  simp only [splice?, frontPart, backPart]
  split <;> split <;> rfl

end EditLog

variable {offset offset' : Nat} {rest rest' : List Char} {p : Piece} {span : Span} {pos : Nat}

/-- The part of a run that lies in front of the span, kept, and the part behind it, kept: both stand
where they stood in the base. -/
theorem Piece.Spells.parts (span : Span) (pos : Nat) {a b c : List Char}
    (h : p.Spells offset rest (a ++ (b ++ c)) offset' rest')
    (hstart : byteLength a = min p.length (span.start - pos))
    (hstop : byteLength c = p.length - (max span.stop pos - pos)) :
    ∃ front back there between, EditLog.frontPart span pos p = some front ∧
      EditLog.backPart span pos p = some back ∧
      (∀ ps cs, Runs there between ps cs → Runs offset rest (front ++ ps) (a ++ cs)) ∧
      (∀ ps cs, Runs offset' rest' ps cs → Runs there between (back ++ ps) (c ++ cs)) := by
  have hlen : p.length = byteLength a + byteLength b + byteLength c := by
    rw [h.length_eq, byteLength_append, byteLength_append, Nat.add_assoc]
  obtain ⟨front, back, there, between, hfront, hback, hsfront, hsback⟩ := h.slice?
  have hfrontPart : ∃ fs, EditLog.frontPart span pos p = some fs ∧
      ∀ ps cs, Runs there between ps cs → Runs offset rest (fs ++ ps) (a ++ cs) := by
    unfold EditLog.frontPart
    split
    · rw [← hstart, hfront]
      exact ⟨[front], rfl, fun ps cs hps => .cons hsfront hps⟩
    · have ha : a = [] := byteLength_eq_zero_iff.mp (by omega)
      subst ha
      exact ⟨[], rfl, fun ps cs hps => hsfront.drop hps⟩
  have hbackPart : ∃ bs, EditLog.backPart span pos p = some bs ∧
      ∀ ps cs, Runs offset' rest' ps cs → Runs there between (bs ++ ps) (c ++ cs) := by
    unfold EditLog.backPart
    split
    · have hlo : max span.stop pos - pos = byteLength a + byteLength b := by omega
      rw [hlo, hback]
      exact ⟨[back], rfl, fun ps cs hps => .cons hsback hps⟩
    · have hc : c = [] := byteLength_eq_zero_iff.mp (by omega)
      subst hc
      exact ⟨[], rfl, fun ps cs hps => hsback.drop hps⟩
  obtain ⟨fs, hfs, hfsRuns⟩ := hfrontPart
  obtain ⟨bs, hbs, hbsRuns⟩ := hbackPart
  exact ⟨fs, bs, there, between, hfs, hbs, hfsRuns, hbsRuns⟩

/-- Behind the start of the span, with the new text in its place: the runs lose what the span still
covers. -/
theorem splice?_of_runs_placed {ps : List Piece} {cs : List Char} (h : Runs offset rest ps cs)
    (span : Span) (pos : Nat) (text : String) (mid post : List Char)
    (hcs : cs = mid ++ post) (hpos : span.start ≤ pos) (hmid : byteLength mid = span.stop - pos) :
    ∃ ps', EditLog.splice? span text pos true ps = some ps' ∧ Runs offset rest ps' post := by
  induction h generalizing pos mid post with
  | nil offset rest =>
    obtain ⟨rfl, rfl⟩ := List.append_eq_nil_iff.mp hcs.symm
    exact ⟨[], rfl, .nil offset rest⟩
  | @cons p ps offset offset' rest rest' front cs hp hps ih =>
    have hlen := hp.length_eq
    obtain ⟨b, c, m, after, rfl, rfl, hcs', rfl, hc, hm⟩ := exists_cut_of_append_eq hcs
    obtain ⟨fs, bs, there, between, hfs, hbs, hfsRuns, hbsRuns⟩ :=
      Piece.Spells.parts span pos (a := []) (b := b) (c := c) hp (by simp; omega) (by omega)
    obtain ⟨ps', hps', hruns⟩ := ih (pos + p.length) m after hcs' (by omega) (by omega)
    refine ⟨fs ++ bs ++ ps', ?_, ?_⟩
    · rw [EditLog.splice?_cons, hfs, hbs]
      simp [hps']
    · rw [List.append_assoc]
      exact hfsRuns _ _ (hbsRuns _ _ hruns)

/-- **A replacement keeps the invariant.**  The runs after it spell the text in which `text` stands
in the place of the span. -/
theorem splice?_of_runs {ps : List Piece} {cs : List Char} (h : Runs offset rest ps cs)
    (span : Span) (pos : Nat) (text : String) (pre mid post : List Char)
    (hcs : cs = pre ++ (mid ++ post))
    (hpre : pos + byteLength pre = span.start) (hmid : span.start + byteLength mid = span.stop) :
    ∃ ps', EditLog.splice? span text pos false ps = some ps' ∧
      Runs offset rest ps' (pre ++ (text.toList ++ post)) := by
  induction h generalizing pos pre with
  | nil offset rest =>
    obtain ⟨rfl, hrest⟩ := List.append_eq_nil_iff.mp hcs.symm
    obtain ⟨rfl, rfl⟩ := List.append_eq_nil_iff.mp hrest
    refine ⟨EditLog.insertion text, rfl, ?_⟩
    simpa using (Runs.nil offset rest).insertion text
  | @cons p ps offset offset' rest rest' front cs hp hps ih =>
    have hlen := hp.length_eq
    rcases Nat.lt_or_ge (byteLength front) (byteLength pre) with hlt | hle
    · -- the span starts behind this run
      obtain ⟨pre', rfl, hcs'⟩ := exists_append_of_byteLength_le hcs (Nat.le_of_lt hlt)
      rw [byteLength_append] at hpre hlt
      obtain ⟨fs, bs, there, between, hfs, hbs, hfsRuns, hbsRuns⟩ :=
        Piece.Spells.parts span pos (a := front) (b := []) (c := []) (by simpa using hp)
          (by omega) (by simp; omega)
      obtain ⟨ps', hps', hruns⟩ := ih (pos + p.length) pre' hcs' (by omega)
      refine ⟨fs ++ bs ++ ps', ?_, ?_⟩
      · rw [EditLog.splice?_cons, hfs, hbs]
        have hhere : ¬ span.start ≤ pos + p.length := by omega
        simp [hps', hhere]
      · rw [List.append_assoc, List.append_assoc]
        exact hfsRuns _ _ (by simpa using hbsRuns _ _ hruns)
    · -- the span starts in this run or where it ends
      obtain ⟨behind, rfl, hbehind⟩ := exists_append_of_byteLength_le hcs.symm hle
      rw [byteLength_append] at hlen
      obtain ⟨b, c, m, after, rfl, rfl, hcs', rfl, hc, hm⟩ :=
        exists_cut_of_append_eq hbehind.symm
      obtain ⟨fs, bs, there, between, hfs, hbs, hfsRuns, hbsRuns⟩ :=
        Piece.Spells.parts span pos (a := pre) (b := b) (c := c) hp (by omega) (by omega)
      obtain ⟨ps', hps', hruns⟩ := splice?_of_runs_placed hps span (pos + p.length) text
        m after hcs' (by omega) (by omega)
      refine ⟨fs ++ EditLog.insertion text ++ bs ++ ps', ?_, ?_⟩
      · rw [EditLog.splice?_cons, hfs, hbs]
        have hhere : span.start ≤ pos + p.length := by omega
        simp [hps', hhere]
      · rw [List.append_assoc, List.append_assoc]
        exact hfsRuns _ _ ((hbsRuns _ _ hruns).insertion text)

/-! ## The gaps are a walk through the base

Between two runs of the base there is a gap, of which both the base and the current text have a
part.  Where these parts differ there is an edit, and the edits taken together are a walk. -/

/-- An edit of a base puts something else in the place of what stands there. -/
def IsChange (base : String) (e : TextEdit) : Prop :=
  ∃ old, extract? base e.span.start e.span.stop = some old ∧ old ≠ e.newText

/-- The edit of a region is a walk through it, and none is needed when the region keeps its text. -/
theorem regionEdit?_of_append {base : String} {before gap rest out : List Char}
    (hbase : base.toList = before ++ (gap ++ rest)) (text : String) (es : List TextEdit)
    (h : Splices (byteLength before + byteLength gap) rest es out) :
    ∃ here, EditLog.regionEdit? base (byteLength before) (byteLength before + byteLength gap) text
        = some here ∧
      Splices (byteLength before) (gap ++ rest) (here ++ es) (text.toList ++ out) ∧
      (∀ e ∈ here, e.span.start = byteLength before ∧
        e.span.stop = byteLength before + byteLength gap ∧ IsChange base e) ∧
      Separated here := by
  have hold : extract? base (byteLength before) (byteLength before + byteLength gap)
      = some (String.ofList gap) :=
    extract?_eq_some_iff.mpr ⟨before, rest, by simpa using hbase, rfl, by simp⟩
  unfold EditLog.regionEdit?
  rw [hold]
  by_cases heq : String.ofList gap = text
  · subst heq
    refine ⟨[], by simp, ?_, by simp, List.Pairwise.nil⟩
    simpa using h.keep
  · refine ⟨[⟨⟨byteLength before, byteLength before + byteLength gap⟩, text⟩], by simp [heq],
      h.replace text, ?_, List.pairwise_singleton _ _⟩
    intro e he
    obtain rfl := List.mem_singleton.mp he
    exact ⟨rfl, rfl, String.ofList gap, hold, heq⟩

/-- **The gaps between the runs of the base walk through the base and give the text that the runs
spell.**  A run of the base that is not empty stands between any two gaps. -/
theorem gaps?_of_runs {base : String} {ps : List Piece} {cs : List Char}
    (h : Runs offset rest ps cs) (before : List Char) (hbase : base.toList = before ++ rest)
    (hbefore : byteLength before = offset) (hpos : ∀ p ∈ ps, 0 < p.length)
    (pending : Option String) :
    ∃ es, EditLog.gaps? base offset pending ps = some es ∧
      Splices offset rest es ((pending.getD "").toList ++ cs) ∧ Separated es ∧
      ∀ e ∈ es, offset ≤ e.span.start ∧ IsChange base e := by
  induction h generalizing before pending with
  | nil offset rest =>
    subst hbefore
    have hsize : base.utf8ByteSize = byteLength before + byteLength rest := by
      rw [← byteLength_toList, hbase, byteLength_append]
    rw [EditLog.gaps?]
    split
    next =>
      have hend : base.toList = before ++ (rest ++ []) := by simpa using hbase
      obtain ⟨here, hhere, hwalk, hmem, hsep⟩ :=
        regionEdit?_of_append hend (pending.getD "") [] (.nil _ [])
      rw [hsize]
      refine ⟨here, hhere, by simpa using hwalk, hsep, fun e he => ?_⟩
      obtain ⟨hstart, -, hchange⟩ := hmem e he
      exact ⟨Nat.le_of_eq hstart.symm, hchange⟩
    next hsame =>
      -- nothing is left of the base, and nothing was put in behind it
      obtain ⟨hall, hnone⟩ : byteLength before = base.utf8ByteSize ∧ pending = none := by
        simpa using hsame
      obtain rfl : rest = [] := byteLength_eq_zero_iff.mp (by omega)
      subst hnone
      exact ⟨[], rfl, .nil _ [], List.Pairwise.nil, by simp⟩
  | @cons p ps offset offset' rest rest' front cs hp hps ih =>
    have hfront : front ≠ [] := by
      rw [← byteLength_pos_iff, ← hp.length_eq]
      exact hpos p List.mem_cons_self
    have hpos' : ∀ q ∈ ps, 0 < q.length := fun q hq => hpos q (List.mem_cons_of_mem _ hq)
    cases hp with
    | inserted text =>
      obtain ⟨es, hes, hwalk, hsep, hmem⟩ :=
        ih before hbase hbefore hpos' (some (pending.getD "" ++ text))
      refine ⟨es, hes, ?_, hsep, hmem⟩
      simpa [List.append_assoc] using hwalk
    | kept _ gap =>
      subst hbefore
      have hbehind : byteLength (before ++ gap ++ front)
          = byteLength before + byteLength gap + byteLength front := by
        simp only [byteLength_append]
      obtain ⟨es, hes, hwalk, hsep, hmem⟩ :=
        ih (before ++ gap ++ front) (by simp [hbase]) hbehind hpos' none
      have hlong := byteLength_pos_iff.mpr hfront
      rw [EditLog.gaps?]
      split
      next =>
        obtain ⟨here, hhere, hwalk', hmem', hsep'⟩ :=
          regionEdit?_of_append hbase (pending.getD "") es hwalk.keep
        refine ⟨here ++ es, by simp [hhere, hes], hwalk', ?_, fun e he => ?_⟩
        · refine List.pairwise_append.mpr ⟨hsep', hsep, fun a ha b hb => ?_⟩
          obtain ⟨-, hstop, -⟩ := hmem' a ha
          obtain ⟨hstart, -⟩ := hmem b hb
          omega
        · rcases List.mem_append.mp he with he | he
          · obtain ⟨hstart, -, hchange⟩ := hmem' e he
            exact ⟨Nat.le_of_eq hstart.symm, hchange⟩
          · obtain ⟨hstart, hchange⟩ := hmem e he
            exact ⟨by omega, hchange⟩
      next hsame =>
        -- this run touches the one before
        obtain ⟨hgap, hnone⟩ : byteLength gap = 0 ∧ pending = none := by
          simpa using hsame
        obtain rfl := byteLength_eq_zero_iff.mp hgap
        subst hnone
        rw [byteLength_nil, Nat.add_zero] at hwalk
        refine ⟨es, by rw [hes]; rfl, ?_, hsep, fun e he => ?_⟩
        · simpa using hwalk.keep
        · obtain ⟨hstart, hchange⟩ := hmem e he
          exact ⟨by omega, hchange⟩

/-! ## A document under any replacements

One replacement keeps the log in order, and so does any number of them.  A replacement that is
refused leaves the log as it was. -/

namespace EditLog

/-- What a log keeps at all times: its runs are not empty and spell the current text. -/
structure WellFormed (log : EditLog) : Prop where
  runs : Runs 0 log.base.toList log.pieces log.current.toList
  pieces_pos : ∀ p ∈ log.pieces, 0 < p.length

/-- The log after a replacement.  One that is refused leaves the log as it was. -/
def after (log : EditLog) (step : Span × String) : EditLog :=
  match log.replace step.1 step.2 with
  | .ok log' => log'
  | .error _ => log

/-- The log of a document after replacements, each in the text that the ones before it left. -/
def afterAll (original : String) (steps : List (Span × String)) : EditLog :=
  steps.foldl after (ofText original)

theorem wellFormed_ofText (text : String) : (ofText text).WellFormed := by
  unfold ofText
  by_cases hempty : text.isEmpty = true
  · obtain rfl : text = "" := by simpa using hempty
    exact ⟨.nil _ _, by simp⟩
  · have hne : text ≠ "" := by simpa using hempty
    have hpos : 0 < text.utf8ByteSize := by
      rw [Nat.pos_iff_ne_zero, ne_eq, String.utf8ByteSize_eq_zero_iff]
      exact hne
    have hkept := Piece.Spells.kept 0 [] text.toList []
    rw [byteLength_toList] at hkept
    have hruns := Runs.cons hkept (.nil _ [])
    simp only [hempty]
    refine ⟨by simpa using hruns, ?_⟩
    simpa [Piece.length] using hpos

/-- A span that can be replaced is replaced, in the current text and in the runs. -/
theorem WellFormed.replace_eq_ok {log : EditLog} (h : log.WellFormed) {span : Span}
    (hspan : span.start ≤ span.stop) (hcheck : checkSpan log.current span = .ok ())
    (text : String) :
    ∃ log', log.replace span text = .ok log' ∧ log'.WellFormed ∧ log'.base = log.base ∧
      replaceSpan? log.current.toList span text.toList = some log'.current.toList := by
  obtain ⟨pre, mid, post, hcurrent, hpre, hmid⟩ := exists_split_of_checkSpan hcheck hspan
  obtain ⟨pieces, hpieces, hruns⟩ := splice?_of_runs h.runs span 0 text pre mid post hcurrent
    (by omega) (by omega)
  have hreplaced : replaceSpan? log.current.toList span text.toList
      = some (pre ++ text.toList ++ post) := by
    rw [hcurrent]
    exact replaceSpan?_append pre mid post text.toList span hpre.symm hmid.symm
  refine ⟨⟨log.base, String.ofList (pre ++ text.toList ++ post), pieces.filter (0 < ·.length)⟩,
    ?_, ⟨?_, ?_⟩, rfl, ?_⟩
  · unfold replace
    rw [hcheck, hpieces, hreplaced]
    rfl
  · simpa using hruns.filter_length_pos
  · intro p hp
    simpa using (List.mem_filter.mp hp).2
  · simpa using hreplaced

/-- The only reason to refuse a replacement is that its span cannot be replaced. -/
theorem WellFormed.replace_eq_error {log : EditLog} (h : log.WellFormed) {span : Span}
    (hspan : span.start ≤ span.stop) {text : String} {e : EditError}
    (hrefused : log.replace span text = .error e) : checkSpan log.current span = .error e := by
  cases hcheck : checkSpan log.current span with
  | error e' =>
    unfold replace at hrefused
    rw [hcheck] at hrefused
    cases hrefused
    rfl
  | ok =>
    obtain ⟨log', hok, -⟩ := h.replace_eq_ok hspan hcheck text
    rw [hok] at hrefused
    cases hrefused

/-- One step keeps the log in order. -/
theorem WellFormed.after {log : EditLog} (h : log.WellFormed) (step : Span × String)
    (hstep : step.1.start ≤ step.1.stop) :
    (log.after step).WellFormed ∧ (log.after step).base = log.base := by
  unfold EditLog.after
  cases hreplace : log.replace step.1 step.2 with
  | error e => exact ⟨h, rfl⟩
  | ok log' =>
    cases hcheck : checkSpan log.current step.1 with
    | error e =>
      unfold replace at hreplace
      rw [hcheck] at hreplace
      cases hreplace
    | ok =>
      obtain ⟨log'', hok, hwf, hbase, -⟩ := h.replace_eq_ok hstep hcheck step.2
      rw [hreplace] at hok
      cases hok
      exact ⟨hwf, hbase⟩

/-- Any steps keep the log in order. -/
theorem wellFormed_afterAll (original : String) (steps : List (Span × String))
    (hsteps : ∀ step ∈ steps, step.1.start ≤ step.1.stop) :
    (afterAll original steps).WellFormed ∧ (afterAll original steps).base = original := by
  suffices h : ∀ log : EditLog, log.WellFormed →
      (steps.foldl EditLog.after log).WellFormed ∧
        (steps.foldl EditLog.after log).base = log.base from
    h (ofText original) (wellFormed_ofText original)
  induction steps with
  | nil => exact fun log h => ⟨h, rfl⟩
  | cons step steps ih =>
    intro log h
    obtain ⟨hwf, hbase⟩ := h.after step (hsteps step List.mem_cons_self)
    obtain ⟨hwf', hbase'⟩ :=
      ih (fun s hs => hsteps s (List.mem_cons_of_mem _ hs)) (log.after step) hwf
    exact ⟨hwf', hbase'.trans hbase⟩

/-- The net edits of a log in order are there, change something each, and walk through the base to
the current text. -/
theorem WellFormed.edits? {log : EditLog} (h : log.WellFormed) :
    ∃ es, log.edits? = some es ∧ Splices 0 log.base.toList es log.current.toList ∧
      Separated es ∧ ∀ e ∈ es, IsChange log.base e := by
  obtain ⟨es, hes, hwalk, hsep, hmem⟩ :=
    gaps?_of_runs h.runs [] rfl rfl h.pieces_pos none
  exact ⟨es, hes, by simpa using hwalk, hsep, fun e he => (hmem e he).2⟩

/-- **The net edits of a log turn its base into its current text, after any replacements.**

The edits ascend without overlaps, lie on characters of the base and change something each.  A
further replacement is made exactly when its span can be replaced in the current text; when it is
refused, the current text and the net edits stay as they are. -/
theorem net_edits_reproduce_current (original : String) (steps : List (Span × String))
    (hsteps : ∀ step ∈ steps, step.1.start ≤ step.1.stop) :
    let log := afterAll original steps
    (∃ es, log.edits? = some es ∧ applyEdits original es = .ok log.current ∧
      es.Pairwise (fun a b => a.span.stop < b.span.start ∧ a.span.overlaps b.span = false) ∧
      ∀ e ∈ es, e.span.start ≤ e.span.stop ∧
        isBoundary original.toList e.span.start = true ∧
        isBoundary original.toList e.span.stop = true ∧
        ∃ old, extract? original e.span.start e.span.stop = some old ∧ old ≠ e.newText) ∧
    ∀ (span : Span) (text : String), span.start ≤ span.stop →
      match log.replace span text with
      | .ok log' => checkSpan log.current span = .ok () ∧
          replaceSpan? log.current.toList span text.toList = some log'.current.toList
      | .error e => checkSpan log.current span = .error e ∧ e ≠ .brokenRecord ∧
          (log.after (span, text)).current = log.current ∧
          (log.after (span, text)).edits? = log.edits? := by
  intro log
  obtain ⟨hwf, hbase⟩ := wellFormed_afterAll original steps hsteps
  change log.WellFormed at hwf
  change log.base = original at hbase
  constructor
  · obtain ⟨es, hes, hwalk, hsep, hchange⟩ := hwf.edits?
    rw [hbase] at hwalk hchange
    have hchecks := hwalk.checkSpan [] rfl rfl
    refine ⟨es, hes, ?_, ?_, fun e he => ?_⟩
    · rw [applyEdits_of_splices hwalk hsep, String.ofList_toList]
    · refine List.Pairwise.imp_of_mem ?_ hsep
      intro a b ha _ hlt
      exact ⟨hlt, (overlaps_eq_false_of_lt (hchecks a ha).1 hlt).1⟩
    · obtain ⟨hspan, hcheck⟩ := hchecks e he
      obtain ⟨-, hstart, hstop⟩ := checkSpan_eq_ok_iff.mp hcheck
      exact ⟨hspan, hstart, hstop, hchange e he⟩
  · intro span text hspan
    cases hreplace : log.replace span text with
    | ok log' =>
      -- A step is carried out only if its span passes the check.
      show checkSpan log.current span = .ok () ∧ _
      cases hcheck : checkSpan log.current span with
      | error e =>
        unfold replace at hreplace
        rw [hcheck] at hreplace
        cases hreplace
      | ok =>
        obtain ⟨log'', hok, -, -, hcurrent⟩ := hwf.replace_eq_ok hspan hcheck text
        rw [hreplace] at hok
        cases hok
        exact ⟨rfl, hcurrent⟩
    | error e =>
      show checkSpan log.current span = .error e ∧ _
      have hrefused := hwf.replace_eq_error hspan hreplace
      have hsame : log.after (span, text) = log := by
        unfold EditLog.after
        rw [hreplace]
      rw [hsame]
      exact ⟨hrefused, ne_brokenRecord_of_checkSpan hrefused, rfl, rfl⟩

/-- Runs of both sorts are cut, one step is refused, and the edits still fit together. -/
theorem net_edits_reproduce_current_mixed :
    let steps := [((⟨1, 3⟩ : Span), "XY"), (⟨2, 40⟩, "?"), (⟨2, 4⟩, ""), (⟨0, 0⟩, "é")]
    (∀ step ∈ steps, step.1.start ≤ step.1.stop) ∧
      (∃ es, (afterAll "aébcdef" steps).edits? = some es ∧
        applyEdits "aébcdef" es = .ok (afterAll "aébcdef" steps).current) ∧
      (afterAll "aébcdef" steps).current = "éaXcdef" := by
  intro steps
  have hsteps : ∀ step ∈ steps, step.1.start ≤ step.1.stop := by decide
  obtain ⟨⟨es, hes, happly, -⟩, -⟩ := net_edits_reproduce_current "aébcdef" steps hsteps
  exact ⟨hsteps, ⟨es, hes, happly⟩, by decide⟩

end EditLog

end CodeMend
