import CodeMend.Proofs.Text.DiffLines

/-!
# CodeMend — the hunks of a diff

Changes whose surroundings touch share a hunk, so the hunks stand one after the other and all lines
outside of them are kept.

* **`Diff.Framed`** — a hunk: some change, and little context on either side.
* **`Diff.Cuts`** — lines that are cut into hunks and kept lines between them.
* **`Diff.cuts_group`** — the ranges of a diff cut all of its lines.
* **`Diff.Cuts.applyAll?`** — the hunks of a script, applied to the old lines, give the new ones.
-/

namespace CodeMend

namespace Diff

/-- The line stands in both texts. -/
def isKept (l : DiffLine) : Bool := l.change = .kept

/-- A hunk has a change, and at most three kept lines before its first and after its last one. -/
structure Framed (hunk : List DiffLine) : Prop where
  changes : ∃ l ∈ hunk, isKept l = false
  front : (hunk.takeWhile isKept).length ≤ context
  back : (hunk.reverse.takeWhile isKept).length ≤ context

/-- Lines cut into hunks, with kept lines before, between and behind them. -/
inductive Cuts : List DiffLine → List (List DiffLine) → Prop where
  | nil {ls : List DiffLine} (hkept : ∀ l ∈ ls, isKept l = true) : Cuts ls []
  | cons {gap hunk rest : List DiffLine} {hunks : List (List DiffLine)}
      (hkept : ∀ l ∈ gap, isKept l = true) (hframed : Framed hunk) (h : Cuts rest hunks) :
      Cuts (gap ++ (hunk ++ rest)) (hunk :: hunks)

/-! ## Ranges

Changed lines with few lines between them are put into one range.  While the changes are gone
through there is one range that may still grow; the induction keeps that one apart from the ranges
that are finished. -/

/-- The numbers of the changed lines, counted from `i`. -/
theorem mem_changedFrom {i k : Nat} {ls : List DiffLine} :
    k ∈ changedFrom i ls ↔ ∃ j l, k = i + j ∧ ls[j]? = some l ∧ isKept l = false := by
  induction ls generalizing i with
  | nil => simp [changedFrom]
  | cons l ls ih =>
    have hrest : (∃ j m, k = i + 1 + j ∧ ls[j]? = some m ∧ isKept m = false) ↔
        ∃ j m, k = i + (j + 1) ∧ (l :: ls)[j + 1]? = some m ∧ isKept m = false := by
      simp only [List.getElem?_cons_succ, Nat.add_assoc, Nat.add_comm 1]
    unfold changedFrom
    split
    · rename_i hl
      rw [ih, hrest]
      constructor
      · rintro ⟨j, m, h⟩
        exact ⟨j + 1, m, h⟩
      · rintro ⟨j, m, hk, hm, hchanged⟩
        cases j with
        | zero =>
          obtain rfl : l = m := by simpa using hm
          simp [isKept, hl] at hchanged
        | succ j => exact ⟨j, m, hk, hm, hchanged⟩
    · rename_i hl
      rw [List.mem_cons, ih, hrest]
      constructor
      · rintro (rfl | ⟨j, m, h⟩)
        · exact ⟨0, l, rfl, rfl, by simpa [isKept] using hl⟩
        · exact ⟨j + 1, m, h⟩
      · rintro ⟨j, m, hk, hm, hchanged⟩
        cases j with
        | zero => exact .inl hk
        | succ j => exact .inr ⟨j, m, hk, hm, hchanged⟩

theorem pairwise_changedFrom (i : Nat) (ls : List DiffLine) :
    (changedFrom i ls).Pairwise (· < ·) := by
  induction ls generalizing i with
  | nil => exact .nil
  | cons l ls ih =>
    unfold changedFrom
    split
    · exact ih (i + 1)
    · refine List.pairwise_cons.mpr ⟨fun k hk => ?_, ih (i + 1)⟩
      obtain ⟨j, m, rfl, -⟩ := mem_changedFrom.mp hk
      omega

/-- A range around changes: at most three lines stand in it before the first one and after the last
one. -/
structure Around (changed : List Nat) (total : Nat) (r : Nat × Nat) : Prop where
  le : r.2 ≤ total
  first : ∃ i ∈ changed, r.1 ≤ i ∧ i ≤ r.1 + context ∧ i < r.2
  last : ∃ i ∈ changed, r.1 ≤ i ∧ i < r.2 ∧ r.2 ≤ i + context + 1

/-- A range that may still grow starts no later than the changes to come and ends no later than
their surroundings. -/
def Open (rest : List Nat) (total : Nat) (r : Nat × Nat) : Prop :=
  ∀ i ∈ rest, r.1 ≤ i ∧ r.2 ≤ min (i + context + 1) total

/-- What grouping makes of the changes from some point on. -/
structure Grouped (changed rest : List Nat) (total : Nat) (ranges : List (Nat × Nat)) : Prop where
  around : ∀ r ∈ ranges, Around changed total r
  apart : ranges.Pairwise fun a b => a.2 < b.1
  covered : ∀ i ∈ rest, ∃ r ∈ ranges, r.1 ≤ i ∧ i < r.2

/-- The range of a single change. -/
theorem around_single {changed : List Nat} {total i : Nat} (hi : i ∈ changed) (hlt : i < total) :
    Around changed total (i - context, min (i + context + 1) total) :=
  ⟨Nat.min_le_right _ _, ⟨i, hi, by dsimp only; omega, by dsimp only; omega, by dsimp only; omega⟩,
    ⟨i, hi, by dsimp only; omega, by dsimp only; omega, by dsimp only; omega⟩⟩

/-- **Grouping covers all changes with ranges that stand apart.**  The induction keeps the range
that may still grow; it stays the first one. -/
theorem grouped_some {changed rest : List Nat} {total : Nat} {r : Nat × Nat}
    (hrest : rest.Pairwise (· < ·)) (hmem : ∀ i ∈ rest, i ∈ changed ∧ i < total)
    (haround : Around changed total r) (hopen : Open rest total r) :
    Grouped changed rest total (group total (some r) rest) ∧
      ∃ stop ranges, group total (some r) rest = (r.1, stop) :: ranges ∧ r.2 ≤ stop := by
  induction rest generalizing r with
  | nil =>
    refine ⟨⟨fun r' hr' => ?_, List.pairwise_singleton _ _, fun i hi => nomatch hi⟩,
      r.2, [], rfl, Nat.le_refl _⟩
    obtain rfl := List.mem_singleton.mp hr'
    exact haround
  | cons i rest ih =>
    obtain ⟨hlt, hrest⟩ := List.pairwise_cons.mp hrest
    obtain ⟨hi, htotal⟩ := hmem i List.mem_cons_self
    have hmem' : ∀ j ∈ rest, j ∈ changed ∧ j < total := fun j hj =>
      hmem j (List.mem_cons_of_mem _ hj)
    obtain ⟨hstart, hstop⟩ := hopen i List.mem_cons_self
    obtain ⟨start, stop⟩ := r
    dsimp only at hstart hstop
    -- A change near the open range makes it longer; any other closes it and opens the next one.
    by_cases hjoin : i - context ≤ stop
    · have hgroup : group total (some (start, stop)) (i :: rest) =
          group total (some (start, min (i + context + 1) total)) rest := by
        rw [group]
        exact if_pos hjoin
      have hgrown : Around changed total (start, min (i + context + 1) total) := by
        obtain ⟨f, hf, hf₁, hf₂, hf₃⟩ := haround.first
        dsimp only at hf₁ hf₂ hf₃
        exact ⟨Nat.min_le_right _ _,
          ⟨f, hf, hf₁, hf₂, by dsimp only; omega⟩,
          ⟨i, hi, hstart, by dsimp only; omega, by dsimp only; omega⟩⟩
      have hopen' : Open rest total (start, min (i + context + 1) total) := by
        intro j hj
        have hij := hlt j hj
        exact ⟨by dsimp only; omega, by dsimp only; omega⟩
      obtain ⟨⟨haround', hapart, hcovered⟩, stop', ranges, hranges, hle⟩ :=
        ih hrest hmem' hgrown hopen'
      dsimp only at hranges hle
      rw [hgroup]
      refine ⟨⟨haround', hapart, fun j hj => ?_⟩, stop', ranges, hranges, ?_⟩
      · rcases List.mem_cons.mp hj with rfl | hj
        · rw [hranges]
          exact ⟨_, List.mem_cons_self, hstart, by dsimp only; omega⟩
        · exact hcovered j hj
      · dsimp only
        omega
    · have hgroup : group total (some (start, stop)) (i :: rest) = (start, stop) ::
          group total (some (i - context, min (i + context + 1) total)) rest := by
        rw [group]
        exact if_neg hjoin
      have hopen' : Open rest total (i - context, min (i + context + 1) total) := by
        intro j hj
        have hij := hlt j hj
        exact ⟨by dsimp only; omega, by dsimp only; omega⟩
      obtain ⟨⟨haround', hapart, hcovered⟩, stop', ranges, hranges, hle⟩ :=
        ih hrest hmem' (around_single hi htotal) hopen'
      dsimp only at hranges hle
      rw [hgroup]
      refine ⟨⟨?_, ?_, ?_⟩, stop, _, rfl, Nat.le_refl _⟩
      · intro r hr
        rcases List.mem_cons.mp hr with rfl | hr
        · exact haround
        · exact haround' r hr
      · refine List.pairwise_cons.mpr ⟨fun r hr => ?_, hapart⟩
        -- The next range starts at the change, and what is behind it starts still later.
        rw [hranges] at hr hapart
        rcases List.mem_cons.mp hr with rfl | hr
        · dsimp only
          omega
        · have hbehind := (List.pairwise_cons.mp hapart).1 r hr
          dsimp only at hbehind ⊢
          omega
      · intro j hj
        rcases List.mem_cons.mp hj with rfl | hj
        · rw [hranges]
          refine ⟨_, List.mem_cons_of_mem _ List.mem_cons_self, ?_, ?_⟩ <;> dsimp only <;> omega
        · obtain ⟨r, hr, hin⟩ := hcovered j hj
          exact ⟨r, List.mem_cons_of_mem _ hr, hin⟩

/-- The ranges of all changes. -/
theorem grouped {changed : List Nat} {total : Nat} (hchanged : changed.Pairwise (· < ·))
    (htotal : ∀ i ∈ changed, i < total) :
    Grouped changed changed total (group total none changed) := by
  cases changed with
  | nil =>
    exact ⟨fun r hr => (List.not_mem_nil hr).elim, List.Pairwise.nil,
      fun i hi => (List.not_mem_nil hi).elim⟩
  | cons i rest =>
    obtain ⟨hlt, hrest⟩ := List.pairwise_cons.mp hchanged
    have hi := htotal i List.mem_cons_self
    have hmem : ∀ j ∈ rest, j ∈ i :: rest ∧ j < total := fun j hj =>
      ⟨List.mem_cons_of_mem _ hj, htotal j (List.mem_cons_of_mem _ hj)⟩
    have hopen : Open rest total (i - context, min (i + context + 1) total) := by
      intro j hj
      have hij := hlt j hj
      exact ⟨by dsimp only; omega, by dsimp only; omega⟩
    obtain ⟨⟨haround, hapart, hcovered⟩, stop, ranges, hranges, hle⟩ :=
      grouped_some hrest hmem (around_single List.mem_cons_self hi) hopen
    refine ⟨haround, hapart, fun j hj => ?_⟩
    rcases List.mem_cons.mp hj with rfl | hj
    · rw [show group total none (j :: rest) = _ from hranges]
      dsimp only at hle
      exact ⟨_, List.mem_cons_self, by dsimp only; omega, by dsimp only; omega⟩
    · exact hcovered j hj

/-! ## Cuts

The ranges cut the lines of a diff into hunks and what stands between these.  Since they cover all
changes and stand apart, nothing but kept lines is left out. -/

/-- Items in front of one that fails a test. -/
theorem length_takeWhile_le {α : Type} {q : α → Bool} {xs : List α} {k : Nat} {x : α}
    (hx : xs[k]? = some x) (hq : q x = false) : (xs.takeWhile q).length ≤ k := by
  induction xs generalizing k with
  | nil => cases hx
  | cons y ys ih =>
    cases k with
    | zero =>
      obtain rfl : y = x := by simpa using hx
      rw [List.takeWhile_cons_of_neg (by simp [hq])]
      exact Nat.le_refl 0
    | succ k =>
      rw [List.takeWhile_cons]
      split
      · exact Nat.succ_le_succ (ih (by simpa using hx))
      · exact Nat.zero_le _

/-- The lines of a range. -/
def linesOf (ls : List DiffLine) (r : Nat × Nat) : List DiffLine := (ls.drop r.1).take (r.2 - r.1)

theorem getElem?_linesOf {ls : List DiffLine} {r : Nat × Nat} {i : Nat} (h : r.1 ≤ i)
    (hlt : i < r.2) : (linesOf ls r)[i - r.1]? = ls[i]? := by
  unfold linesOf
  rw [List.getElem?_take_of_lt (by omega), List.getElem?_drop, Nat.add_sub_cancel' h]

/-- The lines of a range around changes are a hunk. -/
theorem framed_linesOf {ls : List DiffLine} {r : Nat × Nat}
    (h : Around (changedFrom 0 ls) ls.length r) : Framed (linesOf ls r) := by
  have hlength : (linesOf ls r).length = r.2 - r.1 := by
    have hle := h.le
    simp only [linesOf, List.length_take, List.length_drop]
    omega
  have hchanged : ∀ {i : Nat}, i ∈ changedFrom 0 ls → r.1 ≤ i → i < r.2 →
      ∃ l, (linesOf ls r)[i - r.1]? = some l ∧ isKept l = false := by
    intro i hi hle hlt
    obtain ⟨j, l, rfl, hl, hkept⟩ := mem_changedFrom.mp hi
    rw [Nat.zero_add] at hle hlt ⊢
    exact ⟨l, (getElem?_linesOf hle hlt).trans hl, hkept⟩
  obtain ⟨i, hi, hle, hnear, hlt⟩ := h.first
  obtain ⟨l, hl, hkept⟩ := hchanged hi hle hlt
  obtain ⟨j, hj, hle', hlt', hnear'⟩ := h.last
  obtain ⟨l', hl', hkept'⟩ := hchanged hj hle' hlt'
  refine ⟨⟨l, List.mem_of_getElem? hl, hkept⟩, ?_, ?_⟩
  · exact Nat.le_trans (length_takeWhile_le hl hkept) (by omega)
  · have hback : (linesOf ls r).reverse[r.2 - 1 - j]? = some l' := by
      rw [List.getElem?_reverse (by omega), hlength, ← hl']
      congr 1
      omega
    exact Nat.le_trans (length_takeWhile_le hback hkept') (by omega)

/-- Ranges that stand apart and cover all changes cut the lines. -/
theorem cuts_of_grouped {ls : List DiffLine} {ranges : List (Nat × Nat)} {offset : Nat}
    (haround : ∀ r ∈ ranges, Around (changedFrom 0 ls) ls.length r)
    (hapart : ranges.Pairwise fun a b => a.2 < b.1) (hoffset : ∀ r ∈ ranges, offset ≤ r.1)
    (hcovered : ∀ i ∈ changedFrom 0 ls, offset ≤ i → ∃ r ∈ ranges, r.1 ≤ i ∧ i < r.2) :
    Cuts (ls.drop offset) (ranges.map (linesOf ls)) := by
  have hchanged : ∀ {i : Nat} {l : DiffLine}, ls[i]? = some l → isKept l = false →
      i ∈ changedFrom 0 ls := fun {i} {l} hl hkept =>
    mem_changedFrom.mpr ⟨i, l, (Nat.zero_add i).symm, hl, hkept⟩
  induction ranges generalizing offset with
  | nil =>
    refine .nil fun l hl => ?_
    obtain ⟨k, hk⟩ := List.getElem?_of_mem hl
    rw [List.getElem?_drop] at hk
    by_contra hkept
    obtain ⟨r, hr, -⟩ := hcovered (offset + k) (hchanged hk (by simpa using hkept)) (by omega)
    cases hr
  | cons r ranges ih =>
    obtain ⟨hfirst, hapart⟩ := List.pairwise_cons.mp hapart
    have hr := haround r List.mem_cons_self
    have hstart : offset ≤ r.1 := hoffset r List.mem_cons_self
    obtain ⟨i, -, hle, -, hlt⟩ := hr.first
    have hsplit : ls.drop offset =
        (ls.drop offset).take (r.1 - offset) ++ (linesOf ls r ++ ls.drop r.2) := by
      have hhunk : ls.drop r.1 = linesOf ls r ++ ls.drop r.2 := by
        have hdrop : ls.drop r.2 = (ls.drop r.1).drop (r.2 - r.1) := by
          rw [List.drop_drop]
          congr 1
          omega
        rw [hdrop]
        exact (List.take_append_drop _ _).symm
      have hdrop : ls.drop r.1 = (ls.drop offset).drop (r.1 - offset) := by
        rw [List.drop_drop]
        congr 1
        omega
      rw [← hhunk, hdrop]
      exact (List.take_append_drop _ _).symm
    have hrest : Cuts (ls.drop r.2) (ranges.map (linesOf ls)) := by
      refine ih (fun r hr => haround r (List.mem_cons_of_mem _ hr)) hapart
        (fun r' hr' => Nat.le_of_lt (hfirst r' hr')) fun j hj hle' => ?_
      obtain ⟨r', hr', hin⟩ := hcovered j hj (by omega)
      rcases List.mem_cons.mp hr' with rfl | hr'
      · omega
      · exact ⟨r', hr', hin⟩
    rw [hsplit]
    refine .cons (fun l hl => ?_) (framed_linesOf hr) hrest
    -- no range reaches in front of the first one
    obtain ⟨k, hk⟩ := List.getElem?_of_mem hl
    rw [List.getElem?_take] at hk
    split at hk
    · rename_i hklt
      rw [List.getElem?_drop] at hk
      by_contra hkept
      obtain ⟨r', hr', hle', hlt'⟩ :=
        hcovered (offset + k) (hchanged hk (by simpa using hkept)) (by omega)
      rcases List.mem_cons.mp hr' with rfl | hr'
      · omega
      · have := hfirst r' hr'
        omega
    · cases hk

/-- **The ranges of a diff cut all of its lines.** -/
theorem cuts_group (ls : List DiffLine) :
    Cuts ls ((group ls.length none (changedFrom 0 ls)).map (linesOf ls)) := by
  have htotal : ∀ i ∈ changedFrom 0 ls, i < ls.length := by
    intro i hi
    obtain ⟨j, l, rfl, hl, -⟩ := mem_changedFrom.mp hi
    rw [Nat.zero_add]
    exact (List.getElem?_eq_some_iff.mp hl).1
  have hgrouped := grouped (pairwise_changedFrom 0 ls) htotal
  have hcuts := cuts_of_grouped hgrouped.around hgrouped.apart (fun r _ => Nat.zero_le r.1)
    fun i hi _ => hgrouped.covered i hi
  rwa [List.drop_zero] at hcuts

/-- Lines that are cut into no hunk are all kept. -/
theorem Cuts.kept_of_nil {ls : List DiffLine} (h : Cuts ls []) : ∀ l ∈ ls, isKept l = true := by
  cases h with
  | nil hkept => exact hkept

/-! ## Applying the hunks of a script

A hunk tells in its header where it starts on either side.  Applied one after the other, the hunks
turn the old side into the new one, provided that the headers tell the truth about the lines in
front of them. -/

/-- A line of a diff as a line of a patch. -/
def patchLine (l : DiffLine) : PatchLine := ⟨l.change, ⟨l.text, !l.unterminated⟩⟩

/-- The number that a header gives for a side. -/
def startOf (before count : Nat) : Nat := if count = 0 then before else before + 1

/-- The hunk that some lines make. -/
def hunkOf (ls : List DiffLine) : Hunk where
  oldStart := startOf ((ls.head?.map DiffLine.oldBefore).getD 0) (ls.countP (·.change ≠ .added))
  oldCount := ls.countP (·.change ≠ .added)
  newStart := startOf ((ls.head?.map DiffLine.newBefore).getD 0) (ls.countP (·.change ≠ .removed))
  newCount := ls.countP (·.change ≠ .removed)
  lines := ls.map patchLine

theorem before?_startOf (before count : Nat) :
    Hunk.before? (startOf before count) count = some before := by
  unfold startOf Hunk.before?
  by_cases h : count = 0
  · simp [h]
  · simp [h]

end Diff

open Diff

/-- The header of a hunk tells where its part of the script starts. -/
theorem Script.before_hunkOf {a b : Nat} {ls : List DiffLine} {old new : List TextLine}
    (h : Script a b ls old new) (hls : ls ≠ []) :
    Hunk.before? (hunkOf ls).oldStart (hunkOf ls).oldCount = some a ∧
      Hunk.before? (hunkOf ls).newStart (hunkOf ls).newCount = some b ∧
      (hunkOf ls).oldCount = old.length ∧ (hunkOf ls).newCount = new.length := by
  cases ls with
  | nil => exact absurd rfl hls
  | cons l ls =>
    obtain ⟨hold, hnew⟩ := h.head
    obtain ⟨hcount, hcount'⟩ := h.lengths
    refine ⟨?_, ?_, hcount, hcount'⟩
    · exact (before?_startOf _ _).trans (congrArg some hold)
    · exact (before?_startOf _ _).trans (congrArg some hnew)

/-- The lines of a script turn its old lines into its new ones, whatever stands behind them. -/
theorem Script.applyLines? {a b : Nat} {ls : List DiffLine} {old new : List TextLine}
    (h : Script a b ls old new) (rest : List TextLine) :
    Hunk.applyLines? (ls.map patchLine) (old ++ rest) = some (new, rest) := by
  induction h with
  | nil => rfl
  | kept text unterminated h ih => simp [Hunk.applyLines?, patchLine, ih]
  | removed text unterminated h ih => simp [Hunk.applyLines?, patchLine, ih]
  | added text unterminated h ih => simp [Hunk.applyLines?, patchLine, ih]

/-- **The hunks of a script, applied to the old lines, give the new ones.** -/
theorem Diff.Cuts.applyAll? {ls : List DiffLine} {hunks : List (List DiffLine)}
    (hcuts : Cuts ls hunks) {a b : Nat} {old new : List TextLine} (h : Script a b ls old new) :
    Hunk.applyAll? a b (hunks.map hunkOf) old = some new := by
  induction hcuts generalizing a b old new with
  | nil hkept =>
    obtain ⟨rfl, -⟩ := h.eq_of_kept fun l hl => by simpa [isKept] using hkept l hl
    rfl
  | @cons gap hunk rest hunks hkept hframed hcuts ih =>
    obtain ⟨g, old', g', new', rfl, rfl, hgap, h⟩ := h.append_inv
    obtain ⟨rfl, -⟩ := hgap.eq_of_kept fun l hl => by simpa [isKept] using hkept l hl
    obtain ⟨gone, old', made, new', rfl, rfl, hhunk, hrest⟩ := h.append_inv
    have hne : hunk ≠ [] := by
      obtain ⟨l, hl, -⟩ := hframed.changes
      exact List.ne_nil_of_mem hl
    obtain ⟨ho, hn, hcount, hcount'⟩ := hhunk.before_hunkOf hne
    have hlines := hhunk.applyLines? old'
    have hbehind := ih hrest
    rw [List.map_cons, Hunk.applyAll?, ho, hn]
    -- the kept lines in front of the hunk are as many on both sides
    have hfits : ¬ (a + g.length < a ∨ b + g.length ≠ b + (a + g.length - a) ∨
        (g ++ (gone ++ old')).length < a + g.length - a) := by
      simp only [List.length_append]
      omega
    simp only [Option.bind_eq_bind, Option.bind_some]
    rw [if_neg hfits, Nat.add_sub_cancel_left, List.drop_left, List.take_left, hcount, hcount',
      show (hunkOf hunk).lines = hunk.map patchLine from rfl, hlines]
    simp [hbehind]

/-- One hunk ends, on both sides, where a later one starts or before. -/
def Hunk.Precedes (h k : Hunk) : Prop := ∃ o n o' n', before? h.oldStart h.oldCount = some o ∧
  before? h.newStart h.newCount = some n ∧ before? k.oldStart k.oldCount = some o' ∧
  before? k.newStart k.newCount = some n' ∧ o + h.oldCount ≤ o' ∧ n + h.newCount ≤ n'

/-- **The hunks of a script ascend and are disjoint.** -/
theorem Diff.Cuts.pairwise {ls : List DiffLine} {hunks : List (List DiffLine)}
    (hcuts : Cuts ls hunks) {a b : Nat} {old new : List TextLine} (h : Script a b ls old new) :
    (hunks.map hunkOf).Pairwise Hunk.Precedes ∧ ∀ k ∈ hunks, ∃ o n,
      Hunk.before? (hunkOf k).oldStart (hunkOf k).oldCount = some o ∧
      Hunk.before? (hunkOf k).newStart (hunkOf k).newCount = some n ∧ a ≤ o ∧ b ≤ n := by
  induction hcuts generalizing a b old new with
  | nil hkept => exact ⟨.nil, fun k hk => nomatch hk⟩
  | @cons gap hunk rest hunks hkept hframed hcuts ih =>
    obtain ⟨g, old', g', new', rfl, rfl, hgap, h⟩ := h.append_inv
    obtain ⟨gone, old', made, new', rfl, rfl, hhunk, hrest⟩ := h.append_inv
    have hne : hunk ≠ [] := by
      obtain ⟨l, hl, -⟩ := hframed.changes
      exact List.ne_nil_of_mem hl
    obtain ⟨ho, hn, hcount, hcount'⟩ := hhunk.before_hunkOf hne
    obtain ⟨hpairwise, hbehind⟩ := ih hrest
    refine ⟨List.pairwise_cons.mpr ⟨fun k hk => ?_, hpairwise⟩, fun k hk => ?_⟩
    · obtain ⟨later, hlater, rfl⟩ := List.mem_map.mp hk
      obtain ⟨o, n, ho', hn', hle, hle'⟩ := hbehind later hlater
      exact ⟨_, _, o, n, ho, hn, ho', hn', by rwa [hcount], by rwa [hcount']⟩
    · rcases List.mem_cons.mp hk with rfl | hk
      · exact ⟨_, _, ho, hn, Nat.le_add_right _ _, Nat.le_add_right _ _⟩
      · obtain ⟨o, n, ho', hn', hle, hle'⟩ := hbehind k hk
        exact ⟨o, n, ho', hn', by omega, by omega⟩

end CodeMend
