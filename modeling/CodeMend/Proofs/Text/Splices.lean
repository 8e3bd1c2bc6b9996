import Mathlib.Data.List.Chain
import CodeMend.Proofs.Text.Cuts
import CodeMend.Proofs.Text.Sorting

/-!
# CodeMend — batches of edits

A batch that is written from the front to the back is carried out by going once through the text:
keep, replace, keep, replace and so on.  Edits of which no two overlap can be written in that way,
however they were put together.

* **`Splices`** — the text that such a walk makes of a text.
* **`Separated`**, **`NoOverlaps`** — some byte stands between any two edits; no two edits overlap.
* **`applyEdits_of_splices`** — carrying out the batch from the back gives the text of the walk.
* **`applyEdits_of_noOverlaps`** — a batch without overlaps is accepted, and some walk carries it
  out.
-/

namespace CodeMend

/-- `Splices offset rest edits out`: going through `rest`, which starts at `offset` of a text, and
replacing what the edits say gives `out`. -/
inductive Splices : Nat → List Char → List TextEdit → List Char → Prop where
  | nil (offset : Nat) (rest : List Char) : Splices offset rest [] rest
  | cons (offset : Nat) (keep gone rest out : List Char) (text : String) (edits : List TextEdit)
      (htail : Splices (offset + byteLength keep + byteLength gone) rest edits out) :
      Splices offset (keep ++ (gone ++ rest))
        (⟨⟨offset + byteLength keep, offset + byteLength keep + byteLength gone⟩, text⟩ :: edits)
        (keep ++ (text.toList ++ out))

/-- The edits ascend and between any two of them stands something that neither touches. -/
def Separated (edits : List TextEdit) : Prop :=
  edits.Pairwise fun a b => a.span.stop < b.span.start

/-- No two edits overlap. -/
def NoOverlaps (edits : List TextEdit) : Prop :=
  edits.Pairwise fun a b => a.span.overlaps b.span = false

/-- The span of each edit can be replaced in a text. -/
def Fits (source : String) (edits : List TextEdit) : Prop :=
  ∀ e ∈ edits, e.span.start ≤ e.span.stop ∧ checkSpan source e.span = .ok ()

/-! ## Walks

A walk through a text copies or replaces what it comes to.  It can be extended at the front by
either. -/

/-- Something more may be kept in front. -/
theorem Splices.keep {offset : Nat} {front rest out : List Char} {edits : List TextEdit}
    (h : Splices (offset + byteLength front) rest edits out) :
    Splices offset (front ++ rest) edits (front ++ out) := by
  generalize hoffset : offset + byteLength front = there at h
  cases h with
  | nil => exact .nil offset (front ++ rest)
  | cons _ keep gone rest out text edits htail =>
    subst hoffset
    have hlen : offset + byteLength front + byteLength keep
        = offset + byteLength (front ++ keep) := by
      rw [byteLength_append]
      omega
    rw [hlen] at htail ⊢
    have := Splices.cons offset (front ++ keep) gone rest out text edits htail
    simpa only [List.append_assoc] using this

/-- Something may be replaced right at the front. -/
theorem Splices.replace {offset : Nat} {gone rest out : List Char} {edits : List TextEdit}
    (text : String) (h : Splices (offset + byteLength gone) rest edits out) :
    Splices offset (gone ++ rest) (⟨⟨offset, offset + byteLength gone⟩, text⟩ :: edits)
      (text.toList ++ out) :=
  Splices.cons offset [] gone rest out text edits (by simpa using h)

/-- Every edit of a walk through a text has a span that can be replaced there. -/
theorem Splices.checkSpan {source : String} {offset : Nat} {rest out : List Char}
    {edits : List TextEdit} (h : Splices offset rest edits out) (before : List Char)
    (hsource : source.toList = before ++ rest) (hbefore : byteLength before = offset) :
    ∀ e ∈ edits, e.span.start ≤ e.span.stop ∧ CodeMend.checkSpan source e.span = .ok () := by
  induction h generalizing before with
  | nil => simp
  | cons offset keep gone rest out text edits htail ih =>
    intro e he
    have hfront : byteLength (before ++ keep) = offset + byteLength keep := by
      rw [byteLength_append, hbefore]
    rcases List.mem_cons.mp he with rfl | he
    · refine ⟨Nat.le_add_right _ _, ?_⟩
      rw [← hfront]
      exact checkSpan_append (a := before ++ keep) (c := rest) (by simp [hsource])
    · refine ih (before ++ keep ++ gone) (by simp [hsource]) ?_ e he
      rw [byteLength_append, hfront]

/-! ## Carrying out a batch

The code sorts the edits of a batch from the back and carries them out one by one.  When they form a
walk this can be told in advance: each edit is still at its place when its turn comes, since all
that changed before stands behind it. -/

/-- One edit may come before another, on the way from the back, when it starts further back, or at
the same offset and the other one inserts if it does. -/
theorem compareFromBack_ne_gt_iff (a b : TextEdit) :
    TextEdit.compareFromBack a b ≠ .gt ↔
      b.span.start < a.span.start ∨
        (a.span.start = b.span.start ∧ (a.isInsertion = true → b.isInsertion = true)) := by
  unfold TextEdit.compareFromBack
  rcases Nat.lt_trichotomy b.span.start a.span.start with hlt | heq | hgt
  · simp [Nat.compare_eq_lt.mpr hlt, hlt]
  · rw [Nat.compare_eq_eq.mpr heq, Ordering.eq_then]
    have hgt : compare true false = Ordering.gt := by decide
    cases ha : a.isInsertion <;> cases hb : b.isInsertion <;> simp [heq, hgt]
  · rw [Nat.compare_eq_gt.mpr hgt]
    have hne : a.span.start ≠ b.span.start := by omega
    simp [hne, Nat.le_of_lt hgt]

/-- The order from the back takes every edit once. -/
theorem fromBack_perm (edits : List TextEdit) : (fromBack edits).Perm edits :=
  sortStable_perm _ edits

/-- From the back, no edit comes before one that starts further back, and at one offset no insertion
comes before a replacement. -/
theorem pairwise_fromBack (edits : List TextEdit) :
    (fromBack edits).Pairwise fun a b => b.span.start < a.span.start ∨
      (a.span.start = b.span.start ∧ (a.isInsertion = true → b.isInsertion = true)) := by
  have htrans : ∀ a b c, TextEdit.compareFromBack a b ≠ .gt →
      TextEdit.compareFromBack b c ≠ .gt → TextEdit.compareFromBack a c ≠ .gt := by
    intro a b c hab hbc
    rw [compareFromBack_ne_gt_iff] at hab hbc ⊢
    rcases hab with hab | ⟨hab, hins⟩ <;> rcases hbc with hbc | ⟨hbc, hins'⟩
    · exact .inl (by omega)
    · exact .inl (by omega)
    · exact .inl (by omega)
    · exact .inr ⟨hab.trans hbc, fun ha => hins' (hins ha)⟩
  have htotal : ∀ a b, TextEdit.compareFromBack a b ≠ .gt ∨
      TextEdit.compareFromBack b a ≠ .gt := by
    intro a b
    rw [compareFromBack_ne_gt_iff, compareFromBack_ne_gt_iff]
    rcases Nat.lt_trichotomy a.span.start b.span.start with hlt | heq | hgt
    · exact .inr (.inl hlt)
    · by_cases hb : b.isInsertion = true
      · exact .inl (.inr ⟨heq, fun _ => hb⟩)
      · exact .inr (.inr ⟨heq.symm, fun h => absurd h hb⟩)
    · exact .inl (.inl hgt)
  have hsorted := pairwise_sortStable htrans htotal edits
  exact hsorted.imp fun {a b} h => (compareFromBack_ne_gt_iff a b).mp h

/-- No two edits of a batch with ascending starts begin at the same offset. -/
theorem eq_of_start_eq {edits : List TextEdit}
    (hstarts : edits.Pairwise fun a b => a.span.start < b.span.start) {a b : TextEdit}
    (ha : a ∈ edits) (hb : b ∈ edits) (heq : a.span.start = b.span.start) : a = b := by
  obtain ⟨i, hi, rfl⟩ := List.mem_iff_getElem.mp ha
  obtain ⟨j, hj, rfl⟩ := List.mem_iff_getElem.mp hb
  have hpairs := List.pairwise_iff_getElem.mp hstarts
  rcases Nat.lt_trichotomy i j with hlt | rfl | hgt
  · have := hpairs i j hi hj hlt
    omega
  · rfl
  · have := hpairs j i hj hi hgt
    omega

/-- The order from the back is the reverse of the order of edits with ascending starts. -/
theorem fromBack_eq_reverse {edits : List TextEdit}
    (hstarts : edits.Pairwise fun a b => a.span.start < b.span.start) :
    fromBack edits = edits.reverse := by
  have hreverse : edits.reverse.Pairwise fun a b => b.span.start < a.span.start ∨
      (a.span.start = b.span.start ∧ (a.isInsertion = true → b.isInsertion = true)) := by
    rw [List.pairwise_reverse]
    exact hstarts.imp .inl
  have hperm : (fromBack edits).Perm edits.reverse :=
    (fromBack_perm edits).trans (List.reverse_perm edits).symm
  refine hperm.eq_of_pairwise ?_ (pairwise_fromBack edits) hreverse
  intro a b ha hb hab hba
  -- two edits that may come in either order start together, and no two of the batch do
  have ha' : a ∈ edits := (fromBack_perm edits).mem_iff.mp ha
  have hb' : b ∈ edits := List.mem_reverse.mp hb
  have heq : a.span.start = b.span.start := by omega
  exact eq_of_start_eq hstarts ha' hb' heq

/-- The starts of separated edits ascend. -/
theorem Separated.starts {edits : List TextEdit} (hsep : Separated edits)
    (hspan : ∀ e ∈ edits, e.span.start ≤ e.span.stop) :
    edits.Pairwise fun a b => a.span.start < b.span.start := by
  refine List.Pairwise.imp_of_mem ?_ hsep
  intro a b ha _ hlt
  exact Nat.lt_of_le_of_lt (hspan a ha) hlt

/-- Spans with something between them do not overlap, whichever is asked. -/
theorem overlaps_eq_false_of_lt {a b : Span} (ha : a.start ≤ a.stop) (hlt : a.stop < b.start) :
    a.overlaps b = false ∧ b.overlaps a = false := by
  unfold Span.overlaps Span.isEmpty
  constructor
  · split
    · simp
      omega
    · split
      · simp
        omega
      · split <;> simp <;> omega
  · split
    · simp
      omega
    · split
      · simp
        omega
      · split <;> simp <;> omega

/-- No neighbours overlap in a batch, taken from the back, without overlaps. -/
theorem overlappingNeighbours?_eq_none {edits : List TextEdit}
    (h : edits.Pairwise fun a b => a.span.overlaps b.span = false) :
    overlappingNeighbours? edits = none := by
  induction edits with
  | nil => rfl
  | cons a rest ih =>
    cases rest with
    | nil => rfl
    | cons b rest =>
      obtain ⟨ha, hrest⟩ := List.pairwise_cons.mp h
      have hab : a.span.overlaps b.span = false := ha b List.mem_cons_self
      rw [overlappingNeighbours?, if_neg (by simp [hab])]
      exact ih hrest

theorem overlaps_comm (a b : Span) : a.overlaps b = b.overlaps a := by
  unfold Span.overlaps
  cases a.isEmpty <;> cases b.isEmpty <;> simp [Bool.and_comm, BEq.comm]

/-- Whether edits overlap does not depend on their order. -/
theorem NoOverlaps.perm {edits edits' : List TextEdit} (h : NoOverlaps edits) (hperm : edits.Perm edits') :
    NoOverlaps edits' :=
  (hperm.pairwise_iff fun {a b} hab => by rwa [overlaps_comm]).mp h

theorem Separated.noOverlaps {edits : List TextEdit} (hsep : Separated edits)
    (hspan : ∀ e ∈ edits, e.span.start ≤ e.span.stop) : NoOverlaps edits := by
  refine List.Pairwise.imp_of_mem ?_ hsep
  intro a b ha _ hlt
  exact (overlaps_eq_false_of_lt (hspan a ha) hlt).1

/-- **Edits that can each be carried out and of which no two overlap make a valid batch.** -/
theorem validateEdits_of_noOverlaps {source : String} {edits : List TextEdit} (hfits : Fits source edits)
    (hno : NoOverlaps edits) : validateEdits source edits = .ok () := by
  have hchecks : (edits.forM fun e => checkSpan source e.span) = .ok () := by
    clear hno
    induction edits with
    | nil => rfl
    | cons e edits ih =>
      show (checkSpan source e.span >>= fun _ => edits.forM fun e => checkSpan source e.span) = _
      rw [(hfits e List.mem_cons_self).2]
      exact ih fun e he => hfits e (List.mem_cons_of_mem _ he)
  have hoverlaps : overlappingNeighbours? (fromBack edits) = none :=
    overlappingNeighbours?_eq_none (hno.perm (fromBack_perm edits).symm)
  unfold validateEdits
  rw [hchecks]
  simp only [hoverlaps]
  rfl

/-- One step of carrying out a batch. -/
def applyEdit (cs : List Char) (e : TextEdit) : Except EditError (List Char) :=
  match replaceSpan? cs e.span e.newText.toList with
  | some cs => .ok cs
  | none => .error (.splitsCharacter e.span)

/-- Carried out from the back, the edits of a walk give what the walk gives. -/
theorem foldlM_applyEdit_of_splices {offset : Nat} {rest out : List Char} {edits : List TextEdit}
    (h : Splices offset rest edits out) (before : List Char)
    (hbefore : byteLength before = offset) :
    edits.reverse.foldlM applyEdit (before ++ rest) = .ok (before ++ out) := by
  induction h generalizing before with
  | nil => rfl
  | cons offset keep gone rest out text edits htail ih =>
    have hgone : byteLength (before ++ keep ++ gone)
        = offset + byteLength keep + byteLength gone := by
      simp only [byteLength_append, hbefore]
    have hih := ih (before ++ keep ++ gone) hgone
    -- the edits behind leave the text up to the end of this one alone
    have hstep : applyEdit (before ++ keep ++ (gone ++ out))
        ⟨⟨offset + byteLength keep, offset + byteLength keep + byteLength gone⟩, text⟩
        = .ok (before ++ keep ++ text.toList ++ out) := by
      unfold applyEdit
      rw [replaceSpan?_append (before ++ keep) gone out text.toList _
        (by simp [byteLength_append, hbefore]) (by simp [byteLength_append, hbefore])]
    rw [List.reverse_cons, List.foldlM_append]
    rw [show before ++ (keep ++ (gone ++ rest)) = before ++ keep ++ gone ++ rest by simp, hih]
    rw [show before ++ keep ++ gone ++ out = before ++ keep ++ (gone ++ out) by simp]
    simp only [bind, Except.bind, List.foldlM_cons, List.foldlM_nil, hstep, pure, Except.pure]
    simp

/-- A valid batch whose order from the back is that of a walk gives the text of the walk. -/
theorem applyEdits_of_walk {source : String} {out : List Char} {edits walk : List TextEdit}
    (hvalid : validateEdits source edits = .ok ()) (horder : fromBack edits = walk.reverse)
    (h : Splices 0 source.toList walk out) : applyEdits source edits = .ok (String.ofList out) := by
  have hfold := foldlM_applyEdit_of_splices h [] rfl
  rw [← horder] at hfold
  unfold applyEdits
  rw [hvalid]
  change ((fromBack edits).foldlM applyEdit source.toList >>= fun cs =>
    pure (String.ofList cs)) = _
  rw [show source.toList = [] ++ source.toList from rfl, hfold]
  rfl

/-- **A separated batch that walks through a text is accepted and gives the text of the walk.** -/
theorem applyEdits_of_splices {source : String} {out : List Char} {edits : List TextEdit}
    (h : Splices 0 source.toList edits out) (hsep : Separated edits) :
    applyEdits source edits = .ok (String.ofList out) := by
  have hfits : Fits source edits := h.checkSpan [] rfl rfl
  have hspan := fun e he => (hfits e he).1
  have hvalid := validateEdits_of_noOverlaps hfits (hsep.noOverlaps hspan)
  exact applyEdits_of_walk hvalid (fromBack_eq_reverse (hsep.starts hspan)) h

/-- The edits of a walk ascend. -/
theorem Splices.ascending {offset : Nat} {rest out : List Char} {edits : List TextEdit}
    (h : Splices offset rest edits out) :
    (∀ e ∈ edits, offset ≤ e.span.start) ∧
      edits.Pairwise fun a b => a.span.stop ≤ b.span.start := by
  induction h with
  | nil => simp
  | cons offset keep gone rest out text edits htail ih =>
    obtain ⟨hstart, hascending⟩ := ih
    refine ⟨?_, List.pairwise_cons.mpr ⟨hstart, hascending⟩⟩
    intro e he
    rcases List.mem_cons.mp he with rfl | he
    · exact Nat.le_add_right _ _
    · have := hstart e he
      omega

/-- The starts of the edits of a walk do not descend. -/
theorem Splices.starts_le {offset : Nat} {rest out : List Char} {edits : List TextEdit}
    (h : Splices offset rest edits out) :
    edits.Pairwise fun a b => a.span.start ≤ b.span.start := by
  induction h with
  | nil => exact .nil
  | cons offset keep gone rest out text edits htail ih =>
    refine List.pairwise_cons.mpr ⟨fun e he => ?_, ih⟩
    exact Nat.le_trans (Nat.le_add_right _ _) (htail.ascending.1 e he)

/-- A walk of whose edits no two neighbours touch is separated. -/
theorem Splices.separated {offset : Nat} {rest out : List Char} {edits : List TextEdit}
    (h : Splices offset rest edits out)
    (hchain : edits.IsChain fun a b => a.span.stop ≠ b.span.start) : Separated edits := by
  induction h with
  | nil => exact .nil
  | cons offset keep gone rest out text edits htail ih =>
    refine List.pairwise_cons.mpr ⟨fun e he => ?_, ih hchain.tail⟩
    cases edits with
    | nil => cases he
    | cons first edits =>
      have hne := (List.isChain_cons_cons.mp hchain).1
      have hfirst := Nat.lt_of_le_of_ne (htail.ascending.1 first List.mem_cons_self) hne
      rcases List.mem_cons.mp he with rfl | he
      · exact hfirst
      · exact Nat.lt_of_lt_of_le hfirst ((List.pairwise_cons.mp htail.starts_le).1 e he)

/-- **A walk each of whose edits replaces something is a batch without overlaps**, which is accepted
and gives the text of the walk. -/
theorem applyEdits_of_nonempty_splices {source : String} {out : List Char} {edits : List TextEdit}
    (h : Splices 0 source.toList edits out) (hspan : ∀ e ∈ edits, e.span.start < e.span.stop) :
    (edits.Pairwise fun a b => a.span.start < b.span.start) ∧ NoOverlaps edits ∧
      applyEdits source edits = .ok (String.ofList out) := by
  have hascending := h.ascending.2
  have hstarts : edits.Pairwise fun a b => a.span.start < b.span.start := by
    refine List.Pairwise.imp_of_mem ?_ hascending
    intro a b ha _ hle
    exact Nat.lt_of_lt_of_le (hspan a ha) hle
  have hno : NoOverlaps edits := by
    refine List.Pairwise.imp_of_mem ?_ hascending
    intro a b ha hb hle
    have ha := hspan a ha
    have hb := hspan b hb
    simp [Span.overlaps, Span.isEmpty, Nat.ne_of_lt ha, Nat.ne_of_lt hb]
    omega
  have hvalid := validateEdits_of_noOverlaps (h.checkSpan [] rfl rfl) hno
  exact ⟨hstarts, hno, applyEdits_of_walk hvalid (fromBack_eq_reverse hstarts) h⟩

/-! ## Batches without overlaps

It is not necessary to be given the walk: edits of which no two overlap have one. -/

/-- Of two edits that do not overlap, the one that comes later from the back ends before the other
starts: at one offset, it is the insertion. -/
theorem stop_le_start_of_overlaps_eq_false {a b : TextEdit} (ha : a.span.start ≤ a.span.stop)
    (hno : a.span.overlaps b.span = false)
    (horder : b.span.start < a.span.start ∨
      (a.span.start = b.span.start ∧ (a.isInsertion = true → b.isInsertion = true))) :
    b.span.stop ≤ a.span.start := by
  simp only [TextEdit.isInsertion, Span.overlaps, Span.isEmpty] at hno horder
  by_cases hainsertion : a.span.start = a.span.stop <;>
    by_cases hbinsertion : b.span.start = b.span.stop <;>
    simp [hainsertion, hbinsertion] at hno horder <;> omega

/-- Edits that ascend without overlaps are a walk. -/
theorem exists_splices_of_ascending {source : String} {edits : List TextEdit}
    (hfits : Fits source edits)
    (hascending : edits.Pairwise fun a b => a.span.stop ≤ b.span.start) (before rest : List Char)
    (hsource : source.toList = before ++ rest)
    (hbefore : ∀ e ∈ edits, byteLength before ≤ e.span.start) :
    ∃ out, Splices (byteLength before) rest edits out := by
  induction edits generalizing before rest with
  | nil => exact ⟨rest, .nil _ _⟩
  | cons e edits ih =>
    obtain ⟨hspan, hcheck⟩ := hfits e List.mem_cons_self
    obtain ⟨hfirst, hascending⟩ := List.pairwise_cons.mp hascending
    obtain ⟨front, gone, back, hsplit, hstart, hstop⟩ := exists_split_of_checkSpan hcheck hspan
    have hle : byteLength before ≤ byteLength front := by
      rw [hstart]
      exact hbefore e List.mem_cons_self
    -- What stands in front of the edit is what was passed, and some more that is kept.
    obtain ⟨keep, rfl, rfl⟩ := exists_append_of_byteLength_le (hsource.symm.trans hsplit) hle
    have hlength : byteLength (before ++ keep ++ gone) = e.span.stop := by
      rw [byteLength_append, hstop]
    obtain ⟨out, hout⟩ := ih (fun e' he' => hfits e' (List.mem_cons_of_mem _ he')) hascending
      (before ++ keep ++ gone) back (by simp [hsource]) fun e' he' => hlength ▸ hfirst e' he'
    have htail : Splices (byteLength before + byteLength keep + byteLength gone) back edits out := by
      simpa only [byteLength_append] using hout
    have hwalk := Splices.cons (byteLength before) keep gone back out e.newText edits htail
    rw [byteLength_append] at hstart hstop
    rw [hstop, hstart] at hwalk
    exact ⟨_, hwalk⟩

/-- **A batch of edits of which no two overlap is accepted.**  Some walk through the text makes each
of the edits once, and the batch gives the text of that walk. -/
theorem applyEdits_of_noOverlaps {source : String} {edits : List TextEdit} (hfits : Fits source edits)
    (hno : NoOverlaps edits) : ∃ walk out, walk.Perm edits ∧
      Splices 0 source.toList walk out ∧ applyEdits source edits = .ok (String.ofList out) := by
  have hperm := fromBack_perm edits
  have hbackFits : Fits source (fromBack edits) := fun e he => hfits e (hperm.mem_iff.mp he)
  have hwalkFits : Fits source (fromBack edits).reverse := fun e he =>
    hbackFits e (List.mem_reverse.mp he)
  have hascending : (fromBack edits).reverse.Pairwise fun a b => a.span.stop ≤ b.span.start := by
    rw [List.pairwise_reverse]
    refine ((pairwise_fromBack edits).and (hno.perm hperm.symm)).imp_of_mem ?_
    rintro a b ha - ⟨horder, hno⟩
    exact stop_le_start_of_overlaps_eq_false (hbackFits a ha).1 hno horder
  obtain ⟨out, hwalk⟩ := exists_splices_of_ascending hwalkFits hascending [] source.toList rfl
    fun e _ => Nat.zero_le e.span.start
  refine ⟨(fromBack edits).reverse, out, (List.reverse_perm _).trans hperm, hwalk, ?_⟩
  exact applyEdits_of_walk (validateEdits_of_noOverlaps hfits hno)
    (List.reverse_reverse _).symm hwalk

end CodeMend
