import Mathlib.Data.List.Pairwise
import CodeMend.Proofs.Lists
import CodeMend.Proofs.Text.Splices

/-!
# CodeMend — a batch is one walk through the text

A batch is checked neighbour by neighbour, in the order from the back, and carried out in that order
on a text that changes with every edit.  Both come to what a reader expects: the check finds every
overlap of two edits, and the text is that of one walk through the source from front to back, in
which an insertion comes in front of a replacement that starts at its offset.

* **`Precedes`** — from the back, one edit may be carried out before another.
* **`noOverlaps_of_overlappingNeighbours?`** — without overlaps of neighbours there are none at all.
* **`Splices.unique`** — a walk writes one text.
* **`applyEdits_eq_ok_iff`** — a batch makes a text when its edits fit, no two overlap, and the walk
  from its front to its back writes the text.
* **`applyEdits_perm`** — the order in which the edits of a batch are listed does not matter.
* **`applyEdits_is_walk`** — all of it, with the errors.
-/

namespace CodeMend

variable {source : String} {edits edits' : List TextEdit} {a b c : TextEdit}

/-! ## Neighbours in the order from the back

Edits are carried out from the back, so that a change does not move what is still to be changed.
Sorted that way, an edit that does not overlap its neighbour overlaps none of the edits behind the
neighbour either: the check of neighbours, which is all the code makes, is enough. -/

/-- From the back, an edit may be carried out before another when it starts further back, or at the
same offset and the other one inserts if it does. -/
def Precedes (a b : TextEdit) : Prop :=
  b.span.start < a.span.start ∨
    (a.span.start = b.span.start ∧ (a.isInsertion = true → b.isInsertion = true))

theorem TextEdit.isInsertion_iff : a.isInsertion = true ↔ a.span.start = a.span.stop := by
  simp [TextEdit.isInsertion, Span.isEmpty]

/-- Two insertions overlap when they are at one offset. -/
theorem overlaps_of_insertions (ha : a.isInsertion = true) (hb : b.isInsertion = true)
    (heq : a.span.start = b.span.start) : a.span.overlaps b.span = true := by
  unfold TextEdit.isInsertion at ha hb
  simp [Span.overlaps, ha, hb, heq]

/-- An edit that ends where the other one starts, or in front of it, overlaps it in one case only:
both insert at one offset. -/
theorem insertions_of_overlaps (hle : b.span.stop ≤ a.span.start)
    (h : a.span.overlaps b.span = true) :
    a.isInsertion = true ∧ b.isInsertion = true ∧ a.span.start = b.span.start := by
  rw [TextEdit.isInsertion_iff, TextEdit.isInsertion_iff]
  simp only [Span.overlaps, Span.isEmpty] at h
  by_cases hainsertion : a.span.start = a.span.stop <;>
    by_cases hbinsertion : b.span.start = b.span.stop <;>
    simp [hainsertion, hbinsertion] at h <;> omega

/-- An edit that does not overlap the next one overlaps none behind that one either, as what comes
later in the order from the back stands further to the front. -/
theorem overlaps_eq_false_trans (ha : a.span.start ≤ a.span.stop) (hb : b.span.start ≤ b.span.stop)
    (hc : c.span.start ≤ c.span.stop) (hab : Precedes a b) (hbc : Precedes b c)
    (hnoab : a.span.overlaps b.span = false) (hnobc : b.span.overlaps c.span = false) :
    a.span.overlaps c.span = false := by
  have hleab := stop_le_start_of_overlaps_eq_false ha hnoab hab
  have hlebc := stop_le_start_of_overlaps_eq_false hb hnobc hbc
  by_contra hac
  rw [Bool.not_eq_false] at hac
  obtain ⟨hainsertion, -, heq⟩ := insertions_of_overlaps (by omega) hac
  -- the edit between two insertions at one offset is an insertion there itself
  have hbinsertion : b.isInsertion = true := TextEdit.isInsertion_iff.mpr (by omega)
  have hoverlaps := overlaps_of_insertions hainsertion hbinsertion (by omega)
  rw [hnoab] at hoverlaps
  cases hoverlaps

/-- **Neighbours tell all overlaps.**  In the order from the back, edits of which no neighbours
overlap do not overlap at all. -/
theorem noOverlaps_of_overlappingNeighbours? (hspan : ∀ e ∈ edits, e.span.start ≤ e.span.stop)
    (horder : edits.Pairwise Precedes) (hnone : overlappingNeighbours? edits = none) :
    NoOverlaps edits := by
  induction edits with
  | nil => exact List.Pairwise.nil
  | cons a rest ih =>
    cases rest with
    | nil => exact List.pairwise_singleton _ a
    | cons b rest =>
      rw [overlappingNeighbours?] at hnone
      split at hnone
      · cases hnone
      next hab =>
        obtain ⟨ha, hspan⟩ := List.forall_mem_cons.mp hspan
        obtain ⟨hprecedes, horder⟩ := List.pairwise_cons.mp horder
        have hno : NoOverlaps (b :: rest) := ih hspan horder hnone
        have hb := hspan b List.mem_cons_self
        have hnoab : a.span.overlaps b.span = false := Bool.eq_false_iff.mpr hab
        refine List.pairwise_cons.mpr ⟨?_, hno⟩
        intro c hc
        rcases List.mem_cons.mp hc with rfl | hc
        · exact hnoab
        -- Along the order it is enough that neighbours do not overlap.
        · exact overlaps_eq_false_trans ha hb (hspan c (List.mem_cons_of_mem _ hc))
            (hprecedes b List.mem_cons_self) ((List.pairwise_cons.mp horder).1 c hc) hnoab
            ((List.pairwise_cons.mp hno).1 c hc)

/-- A check that goes through a list passes when each of its items passes. -/
theorem forM_checkSpan_eq_ok_iff :
    (edits.forM fun e => checkSpan source e.span) = .ok () ↔
      ∀ e ∈ edits, checkSpan source e.span = .ok () := by
  induction edits with
  | nil => simp [pure, Except.pure]
  | cons e edits ih =>
    rw [List.forall_mem_cons, ← ih]
    show (checkSpan source e.span >>= fun _ => edits.forM fun e => checkSpan source e.span) = _ ↔ _
    cases checkSpan source e.span with
    | ok => simp [ok_bind]
    | error => simp [bind, Except.bind]

/-- **A batch is valid when all its edits fit and no two overlap, and only then.** -/
theorem validateEdits_eq_ok_iff (hspan : ∀ e ∈ edits, e.span.start ≤ e.span.stop) :
    validateEdits source edits = .ok () ↔
      (∀ e ∈ edits, checkSpan source e.span = .ok ()) ∧ NoOverlaps edits := by
  constructor
  · intro h
    obtain ⟨_, hchecks, h⟩ := exists_of_bind_eq_ok h
    refine ⟨forM_checkSpan_eq_ok_iff.mp hchecks, ?_⟩
    have hperm := fromBack_perm edits
    refine NoOverlaps.perm ?_ hperm
    refine noOverlaps_of_overlappingNeighbours? (fun e he => hspan e (hperm.mem_iff.mp he))
      (pairwise_fromBack edits) ?_
    split at h
    · cases h
    · assumption
  · rintro ⟨hchecks, hno⟩
    exact validateEdits_of_noOverlaps (fun e he => ⟨hspan e he, hchecks e he⟩) hno

/-! ## Walks

A walk copies what no edit touches and puts in what the edits write.  A text has at most one outcome
under a walk, and the edits of a batch have one order from the back, which together make the outcome
independent of the order in which the edits are listed. -/

/-- One text written in two ways that are cut at one offset. -/
theorem append_inj_of_byteLength {a b c d : List Char} (h : a ++ b = c ++ d)
    (hlength : byteLength a = byteLength c) : a = c ∧ b = d := by
  obtain ⟨m, rfl, rfl⟩ := exists_append_of_byteLength_le h (Nat.le_of_eq hlength)
  rw [byteLength_append] at hlength
  obtain rfl : m = [] := byteLength_eq_zero_iff.mp (by omega)
  simp

/-- A walk writes one text. -/
theorem Splices.unique {offset : Nat} {rest out out' : List Char}
    (h : Splices offset rest edits out) (h' : Splices offset rest edits out') : out = out' := by
  induction h generalizing out' with
  | nil =>
    cases h'
    rfl
  | cons offset keep gone rest out text edits htail ih =>
    generalize hrest : keep ++ (gone ++ rest) = whole at h'
    generalize hedits : (⟨⟨offset + byteLength keep, offset + byteLength keep + byteLength gone⟩,
      text⟩ : TextEdit) :: edits = walk at h'
    cases h' with
    | nil => cases hedits
    | cons _ keep' gone' rest' out' text' edits' htail' =>
      simp only [List.cons.injEq, TextEdit.mk.injEq, Span.mk.injEq] at hedits
      obtain ⟨⟨⟨hstart, hstop⟩, rfl⟩, rfl⟩ := hedits
      obtain ⟨rfl, hbehind⟩ := append_inj_of_byteLength hrest (by omega)
      obtain ⟨rfl, rfl⟩ := append_inj_of_byteLength hbehind (by omega)
      rw [ih htail']

/-- Two edits either of which may come first from the back overlap. -/
theorem overlaps_of_precedes (ha : a.span.start ≤ a.span.stop) (hb : b.span.start ≤ b.span.stop)
    (hab : Precedes a b) (hba : Precedes b a) : a.span.overlaps b.span = true := by
  by_contra hno
  rw [Bool.not_eq_true] at hno
  have hleab := stop_le_start_of_overlaps_eq_false ha hno hab
  have hleba := stop_le_start_of_overlaps_eq_false hb (by rwa [overlaps_comm]) hba
  -- each ends where the other one starts, so that both insert at one offset
  have hainsertion : a.isInsertion = true := TextEdit.isInsertion_iff.mpr (by omega)
  have hbinsertion : b.isInsertion = true := TextEdit.isInsertion_iff.mpr (by omega)
  have hoverlaps := overlaps_of_insertions hainsertion hbinsertion (by omega)
  rw [hno] at hoverlaps
  cases hoverlaps

/-- The edits of a batch without overlaps come in one order from the back. -/
theorem fromBack_eq_of_perm (hspan : ∀ e ∈ edits, e.span.start ≤ e.span.stop)
    (hno : NoOverlaps edits) (hperm : edits'.Perm edits) : fromBack edits' = fromBack edits := by
  have hbacks : (fromBack edits').Perm (fromBack edits) :=
    (fromBack_perm edits').trans (hperm.trans (fromBack_perm edits).symm)
  refine hbacks.eq_of_pairwise ?_ (pairwise_fromBack edits') (pairwise_fromBack edits)
  intro a b ha hb hab hba
  have ha : a ∈ edits := hperm.mem_iff.mp ((fromBack_perm edits').mem_iff.mp ha)
  have hb : b ∈ edits := (fromBack_perm edits).mem_iff.mp hb
  have : Std.Symm fun a b : TextEdit => a.span.overlaps b.span = false :=
    ⟨fun x y hxy => by rwa [overlaps_comm]⟩
  by_contra hne
  have hnoab : a.span.overlaps b.span = false := List.Pairwise.forall hno ha hb hne
  rw [overlaps_of_precedes (hspan a ha) (hspan b hb) hab hba] at hnoab
  cases hnoab

/-! ## Carrying out a batch

From the front to the back a valid batch is a walk.  Everything that a caller wants to know of a
batch, when it is refused and with which error, and what it makes of the text otherwise, is read off
that walk. -/

/-- One edit stands in front of another: it ends before the other starts, and if both start at one
offset it inserts and the other one replaces. -/
def InFront (a b : TextEdit) : Prop :=
  a.span.stop ≤ b.span.start ∧
    (a.span.start = b.span.start → a.isInsertion = true ∧ b.isInsertion = false)

/-- The edits of a batch from the front of the text to its back. -/
def fromFront (edits : List TextEdit) : List TextEdit := (fromBack edits).reverse

theorem fromFront_perm (edits : List TextEdit) : (fromFront edits).Perm edits :=
  (List.reverse_perm _).trans (fromBack_perm edits)

/-- From the front, the edits of a batch without overlaps stand one in front of the other. -/
theorem pairwise_fromFront (hspan : ∀ e ∈ edits, e.span.start ≤ e.span.stop)
    (hno : NoOverlaps edits) : (fromFront edits).Pairwise InFront := by
  have hperm := fromBack_perm edits
  rw [fromFront, List.pairwise_reverse]
  refine ((pairwise_fromBack edits).and (hno.perm hperm.symm)).imp_of_mem ?_
  rintro a b ha hb ⟨hprecedes, hnoab⟩
  have ha := hspan a (hperm.mem_iff.mp ha)
  have hb := hspan b (hperm.mem_iff.mp hb)
  have hle := stop_le_start_of_overlaps_eq_false ha hnoab hprecedes
  refine ⟨hle, fun heq => ?_⟩
  have hbinsertion : b.isInsertion = true := TextEdit.isInsertion_iff.mpr (by omega)
  refine ⟨hbinsertion, ?_⟩
  by_contra hainsertion
  rw [Bool.not_eq_false] at hainsertion
  rw [overlaps_of_insertions hainsertion hbinsertion heq.symm] at hnoab
  cases hnoab

/-- **What a batch makes of a text.**  It is the text that the walk from the front of the batch to
its back writes, provided that all edits fit and no two overlap. -/
theorem applyEdits_eq_ok_iff (hspan : ∀ e ∈ edits, e.span.start ≤ e.span.stop) {text : String} :
    applyEdits source edits = .ok text ↔
      Fits source edits ∧ NoOverlaps edits ∧
        Splices 0 source.toList (fromFront edits) text.toList := by
  have hvalid : validateEdits source edits = .ok () ↔
      (∀ e ∈ edits, checkSpan source e.span = .ok ()) ∧ NoOverlaps edits :=
    validateEdits_eq_ok_iff hspan
  constructor
  · intro h
    obtain ⟨_, hok, -⟩ := exists_of_bind_eq_ok h
    obtain ⟨hchecks, hno⟩ := hvalid.mp hok
    have hfits : Fits source edits := fun e he => ⟨hspan e he, hchecks e he⟩
    have hfront : Fits source (fromFront edits) := fun e he =>
      hfits e ((fromFront_perm edits).mem_iff.mp he)
    obtain ⟨out, hwalk⟩ := exists_splices_of_ascending hfront
      ((pairwise_fromFront hspan hno).imp And.left) [] source.toList rfl
      fun e _ => Nat.zero_le e.span.start
    have htext := applyEdits_of_walk hok (List.reverse_reverse _).symm hwalk
    rw [h] at htext
    cases htext
    exact ⟨hfits, hno, by rwa [String.toList_ofList]⟩
  · rintro ⟨hfits, hno, hwalk⟩
    have hok := validateEdits_of_noOverlaps hfits hno
    have htext := applyEdits_of_walk hok (List.reverse_reverse _).symm hwalk
    rwa [String.ofList_toList] at htext

/-- **The order in which the edits of a batch are listed does not matter** to the text they make. -/
theorem applyEdits_perm (hspan : ∀ e ∈ edits, e.span.start ≤ e.span.stop)
    (hperm : edits'.Perm edits) {text : String} (h : applyEdits source edits = .ok text) :
    applyEdits source edits' = .ok text := by
  have hspan' : ∀ e ∈ edits', e.span.start ≤ e.span.stop := fun e he =>
    hspan e (hperm.mem_iff.mp he)
  obtain ⟨hfits, hno, hwalk⟩ := (applyEdits_eq_ok_iff hspan).mp h
  rw [applyEdits_eq_ok_iff hspan', fromFront, fromBack_eq_of_perm hspan hno hperm]
  exact ⟨fun e he => hfits e (hperm.mem_iff.mp he), hno.perm hperm.symm, hwalk⟩

/-- A batch is refused with the error of its check, and only then. -/
theorem applyEdits_eq_error_iff (hspan : ∀ e ∈ edits, e.span.start ≤ e.span.stop)
    {err : EditError} :
    applyEdits source edits = .error err ↔ validateEdits source edits = .error err := by
  cases hvalid : validateEdits source edits with
  | error e =>
    unfold applyEdits
    rw [hvalid]
    simp [bind, Except.bind]
  | ok =>
    obtain ⟨hchecks, hno⟩ := (validateEdits_eq_ok_iff hspan).mp hvalid
    obtain ⟨walk, out, -, -, happly⟩ :=
      applyEdits_of_noOverlaps (fun e he => ⟨hspan e he, hchecks e he⟩) hno
    rw [happly]
    simp

/-- **A batch of edits is one walk through the text.**  For every source and all edits with their
ends in order, the batch is accepted when every span is within the source and on boundaries of its
characters and no two of the edits overlap, and only then.  The text it makes is the one that a walk
through the source writes which makes every edit once, from front to back, an insertion in front of
the replacement that starts at its offset; it does not depend on the order in which the edits are
listed.  A batch that is not accepted is refused with the error of its check. -/
theorem applyEdits_is_walk (source : String) (edits : List TextEdit)
    (hspan : ∀ e ∈ edits, e.span.start ≤ e.span.stop) :
    ((∃ text, applyEdits source edits = .ok text) ↔
      (∀ e ∈ edits, e.span.stop ≤ source.utf8ByteSize ∧
        isBoundary source.toList e.span.start = true ∧
        isBoundary source.toList e.span.stop = true) ∧ NoOverlaps edits) ∧
    (∀ text, applyEdits source edits = .ok text →
      (∃ walk, walk.Perm edits ∧ walk.Pairwise InFront ∧
        ∀ out, Splices 0 source.toList walk out ↔ out = text.toList) ∧
      ∀ edits', edits'.Perm edits → applyEdits source edits' = .ok text) ∧
    ∀ err, applyEdits source edits = .error err ↔ validateEdits source edits = .error err := by
  refine ⟨⟨?_, ?_⟩, ?_, fun err => applyEdits_eq_error_iff hspan⟩
  · rintro ⟨text, h⟩
    obtain ⟨hfits, hno, -⟩ := (applyEdits_eq_ok_iff hspan).mp h
    exact ⟨fun e he => checkSpan_eq_ok_iff.mp (hfits e he).2, hno⟩
  · rintro ⟨hinside, hno⟩
    obtain ⟨walk, out, -, -, happly⟩ := applyEdits_of_noOverlaps
      (fun e he => ⟨hspan e he, checkSpan_eq_ok_iff.mpr (hinside e he)⟩) hno
    exact ⟨_, happly⟩
  · intro text h
    obtain ⟨-, hno, hwalk⟩ := (applyEdits_eq_ok_iff hspan).mp h
    refine ⟨⟨fromFront edits, fromFront_perm edits, pairwise_fromFront hspan hno, fun out => ?_⟩,
      fun edits' hperm => applyEdits_perm hspan hperm h⟩
    constructor
    · exact fun hout => hout.unique hwalk
    · rintro rfl
      exact hwalk

/-- An insertion at the offset of a replacement, listed behind it, and a removal that ends there. -/
theorem applyEdits_is_walk_touching :
    let edits : List TextEdit := [⟨⟨3, 5⟩, "X"⟩, ⟨⟨3, 3⟩, "é"⟩, ⟨⟨1, 3⟩, ""⟩]
    (∀ e ∈ edits, e.span.start ≤ e.span.stop) ∧ NoOverlaps edits ∧
      applyEdits "aébcd" edits = .ok "aéXd" ∧
      ∀ edits', edits'.Perm edits → applyEdits "aébcd" edits' = .ok "aéXd" := by
  intro edits
  have hspan : ∀ e ∈ edits, e.span.start ≤ e.span.stop := by decide
  have happly : applyEdits "aébcd" edits = .ok "aéXd" := by decide
  obtain ⟨haccepted, htext, -⟩ := applyEdits_is_walk "aébcd" edits hspan
  exact ⟨hspan, (haccepted.mp ⟨_, happly⟩).2, happly, (htext _ happly).2⟩

end CodeMend
