import Mathlib.Data.Nat.PSub
import CodeMend.Proofs.Fix.Execution

/-!
# CodeMend — regions follow the text they cover

While the sites of a document are changed, the regions to tidy are moved along by every patch, in
numbers alone.  This module says what they cover.  One replacement leaves the text of a region that
lies before or behind it as it was, and of one that it overlaps it keeps the rest and adds all of
the new text.  So along a whole run the region of a patch holds what is left of the text of that
patch, and nothing that stood around it when it was carried out.

* **`slice?_append_front`**, **`slice?_append_back`**, **`slice?_append_across`** — slices of a text
  that is written in two parts.
* **`Execution.Follows`** — a region after one replacement.
* **`Execution.StaysCovered`** — a region after the patches that follow its own.
* **`Execution.Traced.applyPatch`** — what one patch keeps of the whole run.
* **`Execution.regions_follow_their_text`** — both for every replacement and every run.
-/

namespace CodeMend

open Tree

/-! ## Slices of a text in two parts

A slice lies in the front part of a text, in the back part, or across the seam of both. -/

section Slices

variable {a b : List Char} {n lo hi : Nat}

theorem cut?_append_of_le (b : List Char) (h : n ≤ byteLength a) :
    cut? n (a ++ b) = (cut? n a).map fun (front, rest) => (front, rest ++ b) := by
  induction a generalizing n with
  | nil =>
    obtain rfl : n = 0 := Nat.le_zero.mp h
    cases b <;> rfl
  | cons c cs ih =>
    cases n with
    | zero => rfl
    | succ n =>
      simp only [List.cons_append, cut?]
      split
      · rw [ih (by rw [byteLength_cons] at h; omega)]
        simp [Option.map_map, Function.comp_def]
      · rfl

theorem cut?_append_of_ge (b : List Char) (h : byteLength a ≤ n) :
    cut? n (a ++ b) = (cut? (n - byteLength a) b).map fun (front, rest) => (a ++ front, rest) := by
  induction a generalizing n with
  | nil => simp
  | cons c cs ih =>
    rw [byteLength_cons] at h
    have hpos := Char.utf8Size_pos c
    cases n with
    | zero => omega
    | succ n =>
      simp only [List.cons_append, cut?]
      rw [if_pos (by omega), ih (by omega), byteLength_cons, Nat.sub_sub]
      simp [Option.map_map, Function.comp_def]

/-- A slice of the first part. -/
theorem slice?_append_front (b : List Char) (hle : lo ≤ hi) (h : hi ≤ byteLength a) :
    slice? (a ++ b) lo hi = slice? a lo hi := by
  unfold slice?
  rw [cut?_append_of_le b (hle.trans h)]
  cases hcut : cut? lo a with
  | none => rfl
  | some halves =>
    obtain ⟨front, rest⟩ := halves
    have hlen : byteLength front + byteLength rest = byteLength a := by
      rw [← byteLength_append, append_of_cut? hcut]
    have hfront := byteLength_of_cut? hcut
    simp only [Option.map_some, Option.bind_eq_bind, Option.bind_some]
    rw [if_pos hle, if_pos hle, cut?_append_of_le b (by omega)]
    cases cut? (hi - lo) rest <;> rfl

/-- A slice of the second part. -/
theorem slice?_append_back (b : List Char) (hle : lo ≤ hi) (h : byteLength a ≤ lo) :
    slice? (a ++ b) lo hi = slice? b (lo - byteLength a) (hi - byteLength a) := by
  unfold slice?
  rw [cut?_append_of_ge b h]
  cases cut? (lo - byteLength a) b with
  | none => rfl
  | some halves =>
    have hlen : hi - byteLength a - (lo - byteLength a) = hi - lo := by omega
    simp only [Option.map_some, Option.bind_eq_bind, Option.bind_some]
    rw [if_pos hle, if_pos (by omega), hlen]

/-- A slice over the seam. -/
theorem slice?_append_across (hlo : lo ≤ byteLength a) (hhi : byteLength a ≤ hi) :
    slice? (a ++ b) lo hi = (do
      let front ← slice? a lo (byteLength a)
      let back ← slice? b 0 (hi - byteLength a)
      return front ++ back) := by
  unfold slice?
  rw [cut?_append_of_le b hlo]
  cases hcut : cut? lo a with
  | none => rfl
  | some halves =>
    obtain ⟨front, rest⟩ := halves
    have hlen : byteLength front + byteLength rest = byteLength a := by
      rw [← byteLength_append, append_of_cut? hcut]
    have hfront := byteLength_of_cut? hcut
    have hrest : byteLength a - lo = byteLength rest := by omega
    have hall := cut?_append rest []
    rw [List.append_nil] at hall
    simp only [Option.map_some, Option.bind_eq_bind, Option.bind_some]
    rw [if_pos (hlo.trans hhi), if_pos hlo, cut?_append_of_ge b (by omega), hrest, hall,
      show hi - lo - byteLength rest = hi - byteLength a by omega]
    cases hback : cut? (hi - byteLength a) b with
    | none => simp [cut?, hback]
    | some halves => simp [cut?, hback]

end Slices

/-! ## One replacement

When a span is replaced, a region moves with what it covers.  The code computes with differences of
offsets; here each of them is checked, so that none can be negative. -/

namespace Execution

/-- `shiftRegion` with every difference and every span checked: there is nothing when a difference
would be negative or a span would stop before it starts. -/
def shiftRegion? (replaced : Span) (newLength : Nat) (region : Span) : Option Span := do
  let newStop := replaced.start + newLength
  if replaced.stop ≤ region.start then
    let start ← Nat.psub region.start replaced.stop
    let stop ← Nat.psub region.stop replaced.stop
    Span.ofBounds? (start + newStop) (stop + newStop)
  else if replaced.start < region.stop then
    let stop ← if replaced.stop ≤ region.stop then
        (Nat.psub region.stop replaced.stop).map (· + newStop)
      else some newStop
    Span.ofBounds? (min region.start replaced.start) (max stop newStop)
  else some region

section Replacement

variable {span r : Span} {n : Nat}

theorem shiftRegion_behind (h : span.stop ≤ r.start) : shiftRegion span n r =
    ⟨r.start - span.stop + (span.start + n), r.stop - span.stop + (span.start + n)⟩ := by
  unfold shiftRegion
  rw [if_pos h]

theorem shiftRegion_overlapping (hstart : r.start < span.stop) (hstop : span.start < r.stop) :
    shiftRegion span n r =
      ⟨min r.start span.start, max r.stop span.stop - span.stop + (span.start + n)⟩ := by
  unfold shiftRegion
  rw [if_neg (by omega), if_pos hstop]
  simp only [Span.mk.injEq, true_and]
  split <;> omega

theorem shiftRegion_before (hstart : r.start < span.stop) (hstop : r.stop ≤ span.start) :
    shiftRegion span n r = r := by
  unfold shiftRegion
  rw [if_neg (by omega), if_neg (by omega)]

/-- No difference is negative, and no region stops before it starts. -/
theorem shiftRegion?_eq_some (hspan : span.Forward) (hr : r.Forward) (n : Nat) :
    shiftRegion? span n r = some (shiftRegion span n r) := by
  have hspan : span.start ≤ span.stop := hspan
  have hr : r.start ≤ r.stop := hr
  unfold shiftRegion? shiftRegion
  split
  next hle =>
    rw [Nat.psub_eq_sub hle, Nat.psub_eq_sub (hle.trans hr)]
    simp only [Option.bind_eq_bind, Option.bind_some, Span.ofBounds?]
    rw [if_pos (by omega)]
  next hlt =>
    split
    next hover =>
      split
      next hle =>
        rw [Nat.psub_eq_sub hle]
        simp only [Option.map_some, Option.bind_eq_bind, Option.bind_some, Span.ofBounds?]
        rw [if_pos (by omega)]
      next =>
        simp only [Option.bind_eq_bind, Option.bind_some, Span.ofBounds?]
        rw [if_pos (by omega)]
    next => rfl

/-- So it is for any regions. -/
theorem mapM_shiftRegion? (hspan : span.Forward) {regions : List Span}
    (hregions : ∀ r ∈ regions, r.Forward) (n : Nat) :
    regions.mapM (shiftRegion? span n) = some (shiftRegions regions span n) := by
  unfold shiftRegions
  induction regions with
  | nil => rfl
  | cons r regions ih =>
    rw [List.mapM_cons, shiftRegion?_eq_some hspan (hregions r List.mem_cons_self),
      ih fun r hr => hregions r (List.mem_cons_of_mem _ hr)]
    rfl

/-- What becomes of a region when a span is replaced by `new`: it lies in the text after that; when
it lay before or behind the span it covers the same text, and when the two overlapped it covers what
it covered in front of the span, the new text and what it covered behind the span. -/
structure Follows (text after new : String) (span r r' : Span) : Prop where
  ordered : r'.start ≤ r'.stop
  within : r'.stop ≤ after.utf8ByteSize
  same : r.stop ≤ span.start ∨ span.stop ≤ r.start →
    extract? after r'.start r'.stop = extract? text r.start r.stop
  stretched : r.start < span.stop → span.start < r.stop →
    extract? after r'.start r'.stop = (do
      let front ← extract? text (min r.start span.start) span.start
      let back ← extract? text span.stop (max r.stop span.stop)
      return front ++ new ++ back)

variable {text after new : String} {a b c : List Char}

/-- What an overlapping region covers, of its characters. -/
theorem slice?_stretched (new : List Char) {lo hi : Nat} (hlo : lo ≤ byteLength a)
    (hhi : byteLength a + byteLength b ≤ hi) :
    slice? (a ++ (new ++ c)) lo (hi - (byteLength a + byteLength b) + (byteLength a + byteLength new))
      = (do
        let front ← slice? (a ++ (b ++ c)) lo (byteLength a)
        let back ← slice? (a ++ (b ++ c)) (byteLength a + byteLength b) hi
        return front ++ new ++ back) := by
  have hnew : slice? new 0 (byteLength new) = some new := by
    simpa using slice?_append [] new []
  have hrest : slice? (new ++ c) 0
      (hi - (byteLength a + byteLength b) + (byteLength a + byteLength new) - byteLength a) =
        (slice? c 0 (hi - (byteLength a + byteLength b))).map (new ++ ·) := by
    rw [slice?_append_across (Nat.zero_le _) (by omega), hnew,
      show hi - (byteLength a + byteLength b) + (byteLength a + byteLength new) - byteLength a -
        byteLength new = hi - (byteLength a + byteLength b) by omega]
    cases slice? c 0 (hi - (byteLength a + byteLength b)) <;> rfl
  rw [slice?_append_across hlo (by omega), slice?_append_front _ hlo le_rfl, hrest,
    ← List.append_assoc a b c, slice?_append_back c hhi (by rw [byteLength_append]),
    byteLength_append, Nat.sub_self]
  cases slice? a lo (byteLength a) with
  | none => rfl
  | some front =>
    cases slice? c 0 (hi - (byteLength a + byteLength b)) with
    | none => rfl
    | some back => simp

/-- **A region follows a replacement.** -/
theorem follows_shiftRegion (htext : text.toList = a ++ (b ++ c))
    (hafter : after.toList = a ++ (new.toList ++ c)) (hstart : byteLength a = span.start)
    (hstop : byteLength a + byteLength b = span.stop) (hr : r.Forward)
    (hwithin : r.stop ≤ text.utf8ByteSize) :
    Follows text after new span r (shiftRegion span new.utf8ByteSize r) := by
  have hr : r.start ≤ r.stop := hr
  rw [← byteLength_toList, htext, byteLength_append, byteLength_append] at hwithin
  have hsize : after.utf8ByteSize = byteLength a + (new.utf8ByteSize + byteLength c) := by
    rw [← byteLength_toList, hafter, byteLength_append, byteLength_append, byteLength_toList]
  by_cases hbehind : span.stop ≤ r.start
  · -- behind the span the region keeps its distance to the end of the text
    rw [shiftRegion_behind hbehind]
    refine ⟨?_, ?_, fun _ => ?_, fun _ _ => by omega⟩
    · dsimp only
      omega
    · dsimp only
      omega
    unfold extract?
    dsimp only
    rw [hafter, htext, ← List.append_assoc a new.toList, ← List.append_assoc a b,
      slice?_append_back c (by omega) (by rw [byteLength_append, byteLength_toList]; omega),
      slice?_append_back c hr (by rw [byteLength_append]; omega), byteLength_append,
      byteLength_append, byteLength_toList, hstop, hstart, Nat.add_sub_cancel, Nat.add_sub_cancel]
  by_cases hbefore : r.stop ≤ span.start
  · -- in front of the span nothing moves
    rw [shiftRegion_before (by omega) hbefore]
    refine ⟨hr, by omega, fun _ => ?_, fun _ _ => by omega⟩
    unfold extract?
    rw [hafter, htext, slice?_append_front _ hr (by omega), slice?_append_front _ hr (by omega)]
  · -- otherwise the region reaches from the earlier start to the later end
    rw [shiftRegion_overlapping (by omega) (by omega)]
    refine ⟨?_, ?_, fun _ => by omega, fun _ _ => ?_⟩
    · dsimp only
      omega
    · dsimp only
      omega
    have hlo : min r.start span.start ≤ byteLength a := by omega
    have hhi : byteLength a + byteLength b ≤ max r.stop span.stop := by omega
    have hslice := slice?_stretched (c := c) new.toList hlo hhi
    rw [hstop, byteLength_toList, hstart] at hslice
    unfold extract?
    rw [hafter, hslice, htext]
    cases slice? (a ++ (b ++ c)) (min r.start span.start) span.start with
    | none => rfl
    | some front =>
      cases slice? (a ++ (b ++ c)) span.stop (max r.stop span.stop) with
      | none => rfl
      | some back => simp [String.ofList_append, String.append_assoc]

end Replacement

/-! ## Text marked with regard to one patch

To say that a region covers what a patch wrote, even after later patches, the characters are marked
by how they stand to that patch.  A later patch overwrites some of them and moves the others. -/

/-- How a character stands to a patch: it stood in front of the patch when that was carried out, it
belongs to the text of the patch, it stood behind the patch, or a later patch wrote it. -/
inductive Mark where
  | front
  | own
  | back
  | later
deriving DecidableEq

/-- The characters of a marked text. -/
def chars (m : List (Char × Mark)) : List Char := m.map Prod.fst

/-- Characters that all stand alike. -/
def marked (mark : Mark) (cs : List Char) : List (Char × Mark) := cs.map (·, mark)

section Marks

variable {a b c d : List (Char × Mark)} {mark : Mark} {cs : List Char} {x : Char × Mark}

@[simp] theorem chars_nil : chars [] = [] := rfl

@[simp] theorem chars_append (a b : List (Char × Mark)) : chars (a ++ b) = chars a ++ chars b :=
  List.map_append

@[simp] theorem chars_marked (mark : Mark) (cs : List Char) : chars (marked mark cs) = cs := by
  simp [chars, marked, Function.comp_def]

theorem mark_of_mem_marked (h : x ∈ marked mark cs) : x.2 = mark := by
  obtain ⟨ch, -, rfl⟩ := List.mem_map.mp h
  rfl

/-- Two ways to write one marked text, the first cut no further back than the second. -/
theorem exists_append_of_chars_le (h : a ++ b = c ++ d)
    (hle : byteLength (chars a) ≤ byteLength (chars c)) : ∃ m, c = a ++ m ∧ b = m ++ d := by
  rcases List.append_eq_append_iff.mp h with ⟨m, hc, hb⟩ | ⟨m, ha, hd⟩
  · exact ⟨m, hc, hb⟩
  · rw [ha, chars_append, byteLength_append] at hle
    have hm : m = [] := List.map_eq_nil_iff.mp (byteLength_eq_zero_iff.mp (by omega) : chars m = [])
    subst hm
    exact ⟨[], by simpa using ha.symm, by simpa using hd.symm⟩

/-- A text that is marked can be cut where its characters can. -/
theorem exists_marked_split {m : List (Char × Mark)} {a b c : List Char}
    (h : chars m = a ++ (b ++ c)) :
    ∃ a' b' c', m = a' ++ (b' ++ c') ∧ chars a' = a ∧ chars b' = b ∧ chars c' = c := by
  obtain ⟨a', rest, rfl, ha, hrest⟩ := List.map_eq_append_iff.mp h
  obtain ⟨b', c', rfl, hb, hc⟩ := List.map_eq_append_iff.mp hrest
  exact ⟨a', b', c', rfl, ha, hb, hc⟩

end Marks

/-- A marked text after later patches. -/
inductive Overwritten (m : List (Char × Mark)) : List Patch → List (Char × Mark) → Prop
  | start : Overwritten m [] m
  | patch {ps : List Patch} {p : Patch} {a b c : List (Char × Mark)} :
      Overwritten m ps (a ++ (b ++ c)) → byteLength (chars a) = p.span.start →
      byteLength (chars a) + byteLength (chars b) = p.span.stop →
      Overwritten m (ps ++ [p]) (a ++ (marked .later p.text.toList ++ c))

/-- A region holds what is left of the text of the patch, and else only what was written later;
nothing that stood in front of the patch lies in it or behind it, and nothing that stood behind the
patch lies in it or in front of it. -/
def Covers (m : List (Char × Mark)) (r : Span) : Prop :=
  ∃ a b c, m = a ++ (b ++ c) ∧ byteLength (chars a) = r.start ∧
    byteLength (chars a) + byteLength (chars b) = r.stop ∧
    (∀ x ∈ a, x.2 = .front ∨ x.2 = .later) ∧ (∀ x ∈ b, x.2 = .own ∨ x.2 = .later) ∧
    ∀ x ∈ c, x.2 = .back ∨ x.2 = .later

/-- The region of a patch that was just carried out. -/
theorem covers_marked (front new back : List Char) :
    Covers (marked .front front ++ (marked .own new ++ marked .back back))
      ⟨byteLength front, byteLength front + byteLength new⟩ :=
  ⟨_, _, _, rfl, by simp, by simp, fun _ hx => .inl (mark_of_mem_marked hx),
    fun _ hx => .inl (mark_of_mem_marked hx), fun _ hx => .inl (mark_of_mem_marked hx)⟩

section Cuts

variable {a b c a' b' c' : List (Char × Mark)} {span r : Span}

/-- What lies in front of a span, cut where an overlapping region starts if that is earlier. -/
theorem exists_front_cut (h : a ++ (b ++ c) = a' ++ (b' ++ c'))
    (hle : byteLength (chars a) ≤ byteLength (chars a') + byteLength (chars b')) :
    ∃ f x, a = f ++ x ∧
      byteLength (chars f) = min (byteLength (chars a')) (byteLength (chars a)) ∧
      f ⊆ a' ∧ x ⊆ b' := by
  rcases Nat.le_total (byteLength (chars a')) (byteLength (chars a)) with hstart | hstart
  · obtain ⟨x, rfl, hrest⟩ := exists_append_of_chars_le h.symm hstart
    rw [chars_append, byteLength_append] at hle
    obtain ⟨y, rfl, -⟩ := exists_append_of_chars_le hrest.symm (by omega)
    exact ⟨a', x, rfl, by omega, List.Subset.refl _, List.subset_append_left _ _⟩
  · obtain ⟨y, rfl, -⟩ := exists_append_of_chars_le h hstart
    exact ⟨a, [], by simp, by omega, List.subset_append_left _ _, List.nil_subset _⟩

/-- What lies behind a span, cut where an overlapping region stops if that is later. -/
theorem exists_back_cut (h : a ++ (b ++ c) = a' ++ (b' ++ c'))
    (hle : byteLength (chars a') ≤ byteLength (chars a) + byteLength (chars b)) :
    ∃ y g, c = y ++ g ∧
      byteLength (chars y) = max (byteLength (chars a') + byteLength (chars b'))
        (byteLength (chars a) + byteLength (chars b)) -
        (byteLength (chars a) + byteLength (chars b)) ∧
      y ⊆ b' ∧ g ⊆ c' := by
  have hsize : ∀ l l' : List (Char × Mark),
      byteLength (chars (l ++ l')) = byteLength (chars l) + byteLength (chars l') :=
    fun l l' => by rw [chars_append, byteLength_append]
  rw [← List.append_assoc, ← List.append_assoc] at h
  rcases Nat.le_total (byteLength (chars a) + byteLength (chars b))
    (byteLength (chars a') + byteLength (chars b')) with hstop | hstop
  · obtain ⟨y, hy, rfl⟩ := exists_append_of_chars_le h (by rw [hsize, hsize]; exact hstop)
    obtain ⟨z, -, rfl⟩ := exists_append_of_chars_le hy (by rw [hsize]; exact hle)
    have hlen := congrArg (fun l => byteLength (chars l)) hy
    simp only [hsize] at hlen
    exact ⟨y, c', rfl, by rw [hsize]; omega, List.subset_append_right _ _, List.Subset.refl _⟩
  · obtain ⟨y, -, rfl⟩ := exists_append_of_chars_le h.symm (by rw [hsize, hsize]; exact hstop)
    exact ⟨[], c, by simp, by rw [chars_nil, byteLength_nil]; omega, List.nil_subset _,
      List.subset_append_right _ _⟩

/-- **One later patch.**  The region still covers what is left of its patch. -/
theorem Covers.patch (h : Covers (a ++ (b ++ c)) r) (hstart : byteLength (chars a) = span.start)
    (hstop : byteLength (chars a) + byteLength (chars b) = span.stop) (new : List Char) :
    Covers (a ++ (marked .later new ++ c)) (shiftRegion span (byteLength new) r) := by
  obtain ⟨a', b', c', hm, hrstart, hrstop, ha, hb, hc⟩ := h
  have hnew : ∀ x ∈ marked .later new, x.2 = .later := fun x hx => mark_of_mem_marked hx
  by_cases hbehind : span.stop ≤ r.start
  · -- the patch lies in what stands in front of the region
    rw [← List.append_assoc] at hm
    obtain ⟨x, rfl, rfl⟩ := exists_append_of_chars_le hm
      (by rw [chars_append, byteLength_append]; omega)
    obtain ⟨hab, hx⟩ := List.forall_mem_append.mp ha
    obtain ⟨ha, -⟩ := List.forall_mem_append.mp hab
    simp only [chars_append, byteLength_append] at hrstart hrstop
    rw [shiftRegion_behind hbehind]
    refine ⟨a ++ (marked .later new ++ x), b', c', by simp, ?_, ?_, ?_, hb, hc⟩
    · simp only [chars_append, chars_marked, byteLength_append]
      omega
    · simp only [chars_append, chars_marked, byteLength_append]
      omega
    · exact List.forall_mem_append.mpr
        ⟨ha, List.forall_mem_append.mpr ⟨fun y hy => .inr (hnew y hy), hx⟩⟩
  by_cases hbefore : r.stop ≤ span.start
  · -- the patch lies in what stands behind the region
    rw [← List.append_assoc a'] at hm
    obtain ⟨x, rfl, rfl⟩ := exists_append_of_chars_le hm.symm
      (by rw [chars_append, byteLength_append]; omega)
    obtain ⟨hx, hbc⟩ := List.forall_mem_append.mp hc
    obtain ⟨-, hc⟩ := List.forall_mem_append.mp hbc
    rw [shiftRegion_before (by omega) hbefore]
    refine ⟨a', b', x ++ (marked .later new ++ c), by simp, hrstart, hrstop, ha, hb, ?_⟩
    exact List.forall_mem_append.mpr
      ⟨hx, List.forall_mem_append.mpr ⟨fun y hy => .inr (hnew y hy), hc⟩⟩
  · -- what the patch leaves of the region stands on both sides of the new text
    obtain ⟨f, x, rfl, hf, hfa, hxb⟩ := exists_front_cut hm (by omega)
    obtain ⟨y, g, rfl, hy, hyb, hgc⟩ := exists_back_cut hm (by omega)
    rw [shiftRegion_overlapping (by omega) (by omega)]
    refine ⟨f, x ++ (marked .later new ++ y), g, by simp, by simp only; omega, ?_,
      fun z hz => ha z (hfa hz), ?_, fun z hz => hc z (hgc hz)⟩
    · simp only [chars_append, chars_marked, byteLength_append] at *
      omega
    · refine List.forall_mem_append.mpr
        ⟨fun z hz => hb z (hxb hz), List.forall_mem_append.mpr ⟨?_, ?_⟩⟩
      · exact fun z hz => .inr (hnew z hz)
      · exact fun z hz => hb z (hyb hz)

end Cuts

/-! ## The patches of a run

A run of patches keeps a region for each patch that asks for tidying.  The step is one patch, and
the run goes over patches and then over sites. -/

/-- A text after patches, each in the text that the ones before it left. -/
def patched? (text : List Char) (patches : List Patch) : Option (List Char) :=
  patches.foldlM (fun cs p => replaceSpan? cs p.span p.text.toList) text

/-- The patches that the change of a site carries out, in this order. -/
def patchesOf (plan : Plan) (path : String) (s : Progress) (site : Site) : List Patch :=
  match reparse path s.log.current with
  | .ok t => sortStable comparePatches ((sitePatches? plan t site).getD [])
  | .error _ => []

/-- The patches that the change of some sites carries out, in this order. -/
def runPatches (plan : Plan) (path : String) (cancelled : Bool) : Progress → List Site → List Patch
  | _, [] => []
  | s, site :: rest =>
    patchesOf plan path s site ++
      match changeSite plan path cancelled s site with
      | .ok s' => runPatches plan path cancelled s' rest
      | .error _ => []

/-- The patches whose surroundings are tidied. -/
def tidied (patches : List Patch) : List Patch := patches.filter (·.tidy)

/-- After `ps`, `p` and `qs` were carried out in a text, the region still covers what `p` wrote. -/
def StaysCovered (text : List Char) (ps : List Patch) (p : Patch) (qs : List Patch)
    (now : List Char) (r : Span) : Prop :=
  ∃ front old back m, patched? text ps = some (front ++ (old ++ back)) ∧
    byteLength front = p.span.start ∧ byteLength front + byteLength old = p.span.stop ∧
    Overwritten (marked .front front ++ (marked .own p.text.toList ++ marked .back back)) qs m ∧
    chars m = now ∧ Covers m r

/-- The state that patches have led to: the log tells their text, and every patch to tidy has its
region, which covers it. -/
structure Traced (text : String) (patches : List Patch) (s : Progress) : Prop where
  keeps : Keeps text s
  current : patched? text.toList patches = some s.log.current.toList
  length : s.regions.length = (tidied patches).length
  covered : ∀ ps p qs, patches = ps ++ p :: qs → p.tidy = true →
    ∃ r, s.regions[(tidied ps).length]? = some r ∧
      StaysCovered text.toList ps p qs s.log.current.toList r

section Run

variable {text path : String} {plan : Plan} {cancelled : Bool} {patches new : List Patch}
  {s s' : Progress} {r : Span}

/-- A region that covers its patch lies in the text. -/
theorem StaysCovered.within {ps qs : List Patch} {p : Patch}
    (h : StaysCovered text.toList ps p qs s.log.current.toList r) :
    r.start ≤ r.stop ∧ r.stop ≤ s.log.current.utf8ByteSize := by
  obtain ⟨-, -, -, m, -, -, -, -, hchars, a, b, c, rfl, hstart, hstop, -⟩ := h
  rw [← byteLength_toList, ← hchars]
  simp only [chars_append, byteLength_append]
  omega

theorem traced_ofText (text : String) : Traced text [] ⟨.ofText text, [], 0⟩ :=
  ⟨⟨EditLog.wellFormed_ofText _, rfl⟩, rfl, rfl, fun _ _ _ h => by simp at h⟩

/-- What one patch does. -/
theorem exists_of_applyPatch {p : Patch} (hwf : s.log.WellFormed) (hp : p.span.Forward)
    (h : applyPatch s p = .ok s') :
    ∃ a b c, s.log.current.toList = a ++ (b ++ c) ∧
      s'.log.current.toList = a ++ (p.text.toList ++ c) ∧ byteLength a = p.span.start ∧
      byteLength a + byteLength b = p.span.stop ∧
      s'.regions = shiftRegions s.regions p.span p.text.utf8ByteSize ++
        if p.tidy then [⟨p.span.start, p.span.start + p.text.utf8ByteSize⟩] else [] := by
  obtain ⟨log, hlog, hrest⟩ := exists_of_bind_eq_ok h
  cases hrest
  have hcheck : checkSpan s.log.current p.span = .ok () := by
    obtain ⟨⟨⟩, hcheck, -⟩ := exists_of_bind_eq_ok hlog
    exact hcheck
  obtain ⟨a, b, c, hcurrent, hstart, hstop⟩ := exists_split_of_checkSpan hcheck hp
  obtain ⟨log', hlog', -, -, hreplaced⟩ := hwf.replace_eq_ok hp hcheck p.text
  cases hlog.symm.trans hlog'
  rw [hcurrent, replaceSpan?_append a b c _ p.span hstart.symm hstop.symm] at hreplaced
  refine ⟨a, b, c, hcurrent, ?_, hstart, hstop, rfl⟩
  rw [← Option.some.inj hreplaced, List.append_assoc]

theorem patched?_concat {cs cs' : List Char} {p : Patch} (h : patched? cs patches = some cs') :
    patched? cs (patches ++ [p]) = replaceSpan? cs' p.span p.text.toList := by
  unfold patched? at h ⊢
  rw [List.foldlM_append, h]
  simp

/-- The region of an earlier patch after one more. -/
theorem StaysCovered.patch {ps qs : List Patch} {p q : Patch} {cs a b c : List Char}
    (h : StaysCovered cs ps p qs (a ++ (b ++ c)) r) (hstart : byteLength a = q.span.start)
    (hstop : byteLength a + byteLength b = q.span.stop) :
    StaysCovered cs ps p (qs ++ [q]) (a ++ (q.text.toList ++ c))
      (shiftRegion q.span q.text.utf8ByteSize r) := by
  obtain ⟨front, old, back, m, hpatched, hfront, hold, hover, hchars, hcovers⟩ := h
  obtain ⟨a', b', c', rfl, rfl, rfl, rfl⟩ := exists_marked_split hchars
  rw [← byteLength_toList]
  exact ⟨front, old, back, _, hpatched, hfront, hold, hover.patch hstart hstop, by simp,
    hcovers.patch hstart hstop _⟩

/-- **What one patch keeps.** -/
theorem Traced.applyPatch (h : Traced text patches s) {p : Patch} (hp : p.span.Forward)
    (hs' : applyPatch s p = .ok s') : Traced text (patches ++ [p]) s' := by
  obtain ⟨a, b, c, hcurrent, hcurrent', hstart, hstop, hregions⟩ :=
    exists_of_applyPatch h.keeps.1 hp hs'
  refine ⟨h.keeps.applyPatch hp hs', ?_, ?_, fun ps q qs hsplit hq => ?_⟩
  · rw [patched?_concat h.current, hcurrent', hcurrent,
      replaceSpan?_append a b c _ p.span hstart.symm hstop.symm, List.append_assoc]
  · rw [hregions]
    unfold tidied shiftRegions
    rw [List.length_append, List.length_map, h.length, List.filter_append, List.length_append]
    cases htidy : p.tidy <;> simp [htidy, tidied]
  · rcases List.eq_nil_or_concat qs with rfl | ⟨qs, last, rfl⟩
    · -- the region of the patch itself is put behind all others
      obtain ⟨rfl, hlast⟩ := List.append_inj' hsplit rfl
      obtain rfl := (List.cons.inj hlast).1
      refine ⟨⟨p.span.start, p.span.start + p.text.utf8ByteSize⟩, ?_, a, b, c, _,
        by rw [h.current, hcurrent], hstart, hstop, .start, by rw [hcurrent']; simp, ?_⟩
      · rw [hregions, if_pos hq, List.getElem?_append_right (by simp [shiftRegions, h.length])]
        simp [shiftRegions, h.length]
      · rw [← hstart, ← byteLength_toList]
        exact covers_marked a p.text.toList c
    · -- the regions of the patches before it are shifted, each in its place
      rw [List.concat_eq_append, ← List.cons_append, ← List.append_assoc] at hsplit
      obtain ⟨rfl, hlast⟩ := List.append_inj' hsplit rfl
      obtain rfl := (List.cons.inj hlast).1
      obtain ⟨r, hr, hcovered⟩ := h.covered ps q qs rfl hq
      rw [hcurrent] at hcovered
      refine ⟨shiftRegion p.span p.text.utf8ByteSize r, ?_, ?_⟩
      · rw [hregions, List.getElem?_append_left, shiftRegions, List.getElem?_map, hr]
        · rfl
        · rw [shiftRegions, List.length_map]
          exact (List.getElem?_eq_some_iff.mp hr).1
      · rw [hcurrent', List.concat_eq_append]
        exact hcovered.patch hstart hstop

/-- What patches one after the other keep. -/
theorem Traced.foldlM_applyPatch (h : Traced text patches s) (hnew : Patch.Forward new)
    (hs' : new.foldlM Execution.applyPatch s = .ok s') : Traced text (patches ++ new) s' := by
  induction new generalizing patches s with
  | nil =>
    cases hs'
    simpa using h
  | cons p new ih =>
    rw [List.foldlM_cons] at hs'
    obtain ⟨s₁, hs₁, hs'⟩ := exists_of_bind_eq_ok hs'
    have h₁ := h.applyPatch (hnew p List.mem_cons_self) hs₁
    simpa using ih h₁ (fun q hq => hnew q (List.mem_cons_of_mem _ hq)) hs'

/-- What the change of a site keeps. -/
theorem Traced.changeSite (h : Traced text patches s) {site : Site}
    (hs' : changeSite plan path cancelled s site = .ok s') :
    Traced text (patches ++ patchesOf plan path s site) s' := by
  unfold Execution.changeSite at hs'
  split at hs'
  · cases hs'
  obtain ⟨t, ht, hrest⟩ := exists_of_bind_eq_ok hs'
  have hinOrder : InOrder t := inOrder_of_parse (parse_of_reparse ht)
  unfold patchesOf
  rw [ht]
  split at hrest
  · rename_i new hnew
    have hforward := forward_of_sitePatches? hinOrder hnew
    simp only [hnew, Option.getD_some]
    simp only [Execution.applyPatches] at hrest
    split at hrest
    · cases hrest
    · refine h.foldlM_applyPatch (fun p hp => ?_) (eq_ok_of_mapError hrest)
      rw [mem_sortStable] at hp
      exact hforward p hp
  -- A site that is skipped leaves the text as it is.
  · rename_i hnone
    cases hrest
    have hsame : patches ++ sortStable comparePatches ((none : Option (List Patch)).getD []) =
        patches := by simp [sortStable]
    simp only [hnone]
    rw [hsame]
    exact ⟨h.keeps, h.current, h.length, h.covered⟩

/-- **What a run keeps.** -/
theorem Traced.foldlM_changeSite (h : Traced text patches s) {sites : List Site}
    (hs' : sites.foldlM (Execution.changeSite plan path cancelled) s = .ok s') :
    Traced text (patches ++ runPatches plan path cancelled s sites) s' := by
  induction sites generalizing patches s with
  | nil =>
    cases hs'
    simpa [runPatches] using h
  | cons site sites ih =>
    rw [List.foldlM_cons] at hs'
    obtain ⟨s₁, hs₁, hs'⟩ := exists_of_bind_eq_ok hs'
    have h₁ := ih (h.changeSite hs₁) hs'
    rw [List.append_assoc] at h₁
    unfold runPatches
    rw [hs₁]
    exact h₁

end Run

/-! ## Every replacement and every run

The two parts are put together: what one replacement does to any region, and what a run of patches
leaves. -/

/-- **Regions follow the text they cover.**

When a span of a text is replaced, no region that lies in the text is lost: every difference and
every span of its shift is in order, what lies before or behind the span covers the same text, and
what overlaps it covers what is left of its text and all of the new text.  And when the sites of a
document were changed, every patch to tidy has its region, in the order of the patches: it lies in
the text, and it holds all that is left of the text of the patch, nothing that the patch had in
front of it and nothing that it had behind it. -/
theorem regions_follow_their_text :
    (∀ (log : EditLog) (span : Span) (new : String) (regions : List Span), log.WellFormed →
      span.Forward → checkSpan log.current span = .ok () →
      (∀ r ∈ regions, r.start ≤ r.stop ∧ r.stop ≤ log.current.utf8ByteSize) →
      ∃ log', log.replace span new = .ok log' ∧
        regions.mapM (shiftRegion? span new.utf8ByteSize) =
          some (shiftRegions regions span new.utf8ByteSize) ∧
        ∀ r ∈ regions, Follows log.current log'.current new span r
          (shiftRegion span new.utf8ByteSize r)) ∧
    ∀ (plan : Plan) (path text : String) (cancelled : Bool) (sites : List Site) (s : Progress),
      sites.foldlM (changeSite plan path cancelled) ⟨.ofText text, [], 0⟩ = .ok s →
      patched? text.toList (runPatches plan path cancelled ⟨.ofText text, [], 0⟩ sites) =
          some s.log.current.toList ∧
        s.regions.length =
          (tidied (runPatches plan path cancelled ⟨.ofText text, [], 0⟩ sites)).length ∧
        ∀ ps p qs, runPatches plan path cancelled ⟨.ofText text, [], 0⟩ sites = ps ++ p :: qs →
          p.tidy = true →
          ∃ r, s.regions[(tidied ps).length]? = some r ∧ r.start ≤ r.stop ∧
            r.stop ≤ s.log.current.utf8ByteSize ∧
            StaysCovered text.toList ps p qs s.log.current.toList r := by
  refine ⟨fun log span new regions hlog hspan hcheck hregions => ?_,
    fun plan path text cancelled sites s hs => ?_⟩
  · obtain ⟨a, b, c, hcurrent, hstart, hstop⟩ := exists_split_of_checkSpan hcheck hspan
    obtain ⟨log', hlog', -, -, hreplaced⟩ := hlog.replace_eq_ok hspan hcheck new
    rw [hcurrent, replaceSpan?_append a b c _ span hstart.symm hstop.symm, List.append_assoc]
      at hreplaced
    have hafter := (Option.some.inj hreplaced).symm
    refine ⟨log', hlog', mapM_shiftRegion? hspan (fun r hr => (hregions r hr).1) _,
      fun r hr => ?_⟩
    obtain ⟨hr, hwithin⟩ := hregions r hr
    exact follows_shiftRegion hcurrent hafter hstart hstop hr hwithin
  · have h := (traced_ofText text).foldlM_changeSite hs
    rw [List.nil_append] at h
    refine ⟨h.current, h.length, fun ps p qs hsplit hp => ?_⟩
    obtain ⟨r, hr, hcovered⟩ := h.covered ps p qs hsplit hp
    exact ⟨r, hr, hcovered.within.1, hcovered.within.2, hcovered⟩

/-- A method that gives out a value, and a call of it. -/
def givingOut : String :=
  "class C\x7bvoid M(out int a)\x7ba=1;\x7dvoid N()\x7bint x;M(out x);\x7d\x7d"

/-- The call and the method, in the order in which they are changed. -/
def returningSites : List Site :=
  [⟨.call [0], .invocationExpression, ⟨46, 54⟩, 0⟩, ⟨.declaration, .methodDeclaration, ⟨8, 31⟩, 0⟩]

/-- The plan that lets the method return the value. -/
def returningPlan : Plan := ⟨.outAsResult, some 0, [0], [(0, returningSites)]⟩

/-- The patches of the plan that follow the first, which takes out the argument. -/
def returningPatches : List Patch :=
  [.insert 46 "x = ", .insert 30 " return a;", .insert 26 "int a; ", .delete ⟨15, 24⟩,
    ⟨⟨8, 12⟩, "int", false⟩]

/-- The regions of the two deletions that this plan makes are moved by the patches in front. -/
theorem regions_follow_their_text_moved :
    (∃ log', (EditLog.ofText "aébcd").replace ⟨3, 5⟩ "xyz" = .ok log' ∧
      shiftRegions [⟨0, 3⟩, ⟨1, 4⟩, ⟨4, 4⟩, ⟨5, 6⟩] ⟨3, 5⟩ 3 =
        [⟨0, 3⟩, ⟨1, 6⟩, ⟨3, 6⟩, ⟨6, 7⟩] ∧
      extract? log'.current 1 6 = some "éxyz" ∧ extract? log'.current 3 6 = some "xyz" ∧
      extract? log'.current 6 7 = some "d") ∧
    ∃ s, returningSites.foldlM (changeSite returningPlan "A.cs" false)
        ⟨.ofText givingOut, [], 0⟩ = .ok s ∧ s.regions = [⟨59, 59⟩, ⟨14, 14⟩] ∧
      StaysCovered givingOut.toList [] (.delete ⟨48, 53⟩) returningPatches
        s.log.current.toList ⟨59, 59⟩ := by
  obtain ⟨hreplacement, hrun⟩ := regions_follow_their_text
  constructor
  · obtain ⟨log', hlog', -, hfollows⟩ := hreplacement (.ofText "aébcd") ⟨3, 5⟩ "xyz"
      [⟨0, 3⟩, ⟨1, 4⟩, ⟨4, 4⟩, ⟨5, 6⟩] (EditLog.wellFormed_ofText _)
      (by decide : 3 ≤ 5) (by decide +kernel)
      (by decide +kernel)
    have hstraddling := (hfollows ⟨1, 4⟩ (by simp)).stretched (by decide) (by decide)
    have hempty := (hfollows ⟨4, 4⟩ (by simp)).stretched (by decide) (by decide)
    have hbehind := (hfollows ⟨5, 6⟩ (by simp)).same (.inr (by decide))
    refine ⟨log', hlog', by decide, hstraddling.trans ?_, hempty.trans ?_, hbehind.trans ?_⟩
    · decide +kernel
    · decide +kernel
    · decide +kernel
  · have hregions : (returningSites.foldlM (changeSite returningPlan "A.cs" false)
        ⟨.ofText givingOut, [], 0⟩).toOption.map Progress.regions = some [⟨59, 59⟩, ⟨14, 14⟩] := by
      decide +kernel
    have hpatches : runPatches returningPlan "A.cs" false ⟨.ofText givingOut, [], 0⟩
        returningSites = [] ++ .delete ⟨48, 53⟩ :: returningPatches := by
      decide +kernel
    cases hs : returningSites.foldlM (changeSite returningPlan "A.cs" false)
        ⟨.ofText givingOut, [], 0⟩ with
    | error e =>
      rw [hs] at hregions
      cases hregions
    | ok s =>
      rw [hs] at hregions
      have hregions : s.regions = [⟨59, 59⟩, ⟨14, 14⟩] := Option.some.inj hregions
      obtain ⟨-, -, hcovered⟩ := hrun _ _ _ _ _ s hs
      obtain ⟨r, hr, -, -, hcovered⟩ := hcovered _ _ _ hpatches rfl
      rw [hregions] at hr
      obtain rfl := Option.some.inj hr
      exact ⟨s, rfl, hregions, hcovered⟩

end Execution

end CodeMend
