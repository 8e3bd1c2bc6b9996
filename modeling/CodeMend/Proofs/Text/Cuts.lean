import CodeMend.Text.Edit

/-!
# CodeMend — cutting texts at seams

`Bytes` says what a cut leaves.  This module turns that around: a text that is written as parts, one
after the other, can be cut at each seam, and every successful cut comes from such parts.

* **`byteLength_toList`** — the two ways of measuring a text agree.
* **`slice?_append`**, **`extract?_eq_some_iff`** — the part between two seams.
* **`exists_split_of_isBoundary`** — a boundary is a seam.
* **`exists_append_of_byteLength_le`** — of two seams of one text, the earlier part lies in front.
* **`checkSpan_eq_ok_iff`**, **`replaceSpan?_append`** — spans that can be replaced, and the text
  after the replacement.
-/

namespace CodeMend

/-! ## Lengths

Offsets count bytes and texts are lists of characters, so most facts about offsets start from the
bytes of a front. -/

@[simp] theorem byteLength_nil : byteLength [] = 0 := rfl

@[simp] theorem byteLength_cons (c : Char) (cs : List Char) :
    byteLength (c :: cs) = c.utf8Size + byteLength cs := rfl

theorem byteLength_eq_zero_iff {cs : List Char} : byteLength cs = 0 ↔ cs = [] := by
  cases cs with
  | nil => simp
  | cons c cs =>
    have := Char.utf8Size_pos c
    simp
    omega

theorem byteLength_pos_iff {cs : List Char} : 0 < byteLength cs ↔ cs ≠ [] := by
  rw [Nat.pos_iff_ne_zero, ne_eq, byteLength_eq_zero_iff]

theorem utf8ByteSize_ofList (cs : List Char) : (String.ofList cs).utf8ByteSize = byteLength cs := by
  induction cs with
  | nil => rfl
  | cons c cs ih =>
    have hsplit : String.ofList (c :: cs) = String.singleton c ++ String.ofList cs := by
      rw [← String.toList_inj]
      simp
    rw [hsplit, String.utf8ByteSize_append, String.utf8ByteSize_singleton, ih, byteLength_cons]

/-- The bytes of a text are those of its characters. -/
theorem byteLength_toList (s : String) : byteLength s.toList = s.utf8ByteSize := by
  rw [← utf8ByteSize_ofList, String.ofList_toList]

/-! ## Seams

A seam is a place between two characters.  A text that is written in two ways, each with a seam, has
the seams in one order or the other, and what can be extracted is what stands between two of them.
-/

/-- Two ways to write one text, the first cut no further back than the second: the second front
holds the first. -/
theorem exists_append_of_byteLength_le {a b c d : List Char} (h : a ++ b = c ++ d)
    (hle : byteLength a ≤ byteLength c) : ∃ m, c = a ++ m ∧ b = m ++ d := by
  rcases List.append_eq_append_iff.mp h with ⟨m, hc, hb⟩ | ⟨m, ha, hd⟩
  · exact ⟨m, hc, hb⟩
  · -- the other order leaves no room between the seams
    rw [ha, byteLength_append] at hle
    have hm : m = [] := byteLength_eq_zero_iff.mp (by omega)
    subst hm
    exact ⟨[], by simpa using ha.symm, by simpa using hd.symm⟩

/-- One text written in two ways, each cut once: what lies before both cuts, between the cuts and
behind both, whichever of the two comes first. -/
theorem exists_cut_of_append_eq {front cs mid post : List Char} (h : front ++ cs = mid ++ post) :
    ∃ b c m after, front = b ++ c ∧ mid = b ++ m ∧ cs = m ++ after ∧ post = c ++ after ∧
      byteLength c = byteLength front - byteLength mid ∧
      byteLength m = byteLength mid - byteLength front := by
  rcases Nat.le_total (byteLength mid) (byteLength front) with hle | hle
  · obtain ⟨c, hfront, hpost⟩ := exists_append_of_byteLength_le h.symm hle
    refine ⟨mid, c, [], cs, hfront, by simp, by simp, hpost, ?_, ?_⟩
    · rw [hfront, byteLength_append]
      omega
    · rw [byteLength_nil]
      omega
  · obtain ⟨m, hmid, hcs⟩ := exists_append_of_byteLength_le h hle
    refine ⟨front, [], m, post, by simp, hmid, hcs, by simp, ?_, ?_⟩
    · rw [byteLength_nil]
      omega
    · rw [hmid, byteLength_append]
      omega

theorem isBoundary_append (a b : List Char) : isBoundary (a ++ b) (byteLength a) = true := by
  unfold isBoundary
  rw [cut?_append]
  rfl

/-- A boundary is a seam. -/
theorem exists_split_of_isBoundary {cs : List Char} {n : Nat} (h : isBoundary cs n = true) :
    ∃ a b, cs = a ++ b ∧ byteLength a = n := by
  obtain ⟨⟨a, b⟩, hcut⟩ := Option.isSome_iff_exists.mp h
  exact ⟨a, b, (append_of_cut? hcut).symm, byteLength_of_cut? hcut⟩

/-- The part between two seams. -/
theorem slice?_append (a b c : List Char) :
    slice? (a ++ (b ++ c)) (byteLength a) (byteLength a + byteLength b) = some b := by
  unfold slice?
  rw [cut?_append]
  have hlen : byteLength a + byteLength b - byteLength a = byteLength b := by omega
  simp [hlen, cut?_append]

theorem exists_split_of_slice? {cs b : List Char} {start stop : Nat}
    (h : slice? cs start stop = some b) :
    ∃ a c, cs = a ++ (b ++ c) ∧ byteLength a = start ∧ byteLength a + byteLength b = stop := by
  unfold slice? at h
  obtain ⟨⟨a, rest⟩, hcut, h⟩ := Option.bind_eq_some_iff.mp h
  simp only at h
  split at h
  next hle =>
    obtain ⟨⟨b', c⟩, hcut', h⟩ := Option.bind_eq_some_iff.mp h
    obtain rfl : b' = b := Option.some.inj h
    have ha := byteLength_of_cut? hcut
    have hb := byteLength_of_cut? hcut'
    refine ⟨a, c, ?_, ha, by omega⟩
    rw [append_of_cut? hcut', append_of_cut? hcut]
  next => cases h

/-- What can be extracted is what stands between two seams. -/
theorem extract?_eq_some_iff {s t : String} {start stop : Nat} :
    extract? s start stop = some t ↔
      ∃ a c, s.toList = a ++ (t.toList ++ c) ∧ byteLength a = start ∧
        byteLength a + byteLength t.toList = stop := by
  unfold extract?
  constructor
  · intro h
    obtain ⟨b, hslice, hb⟩ := Option.map_eq_some_iff.mp h
    subst hb
    rw [String.toList_ofList]
    exact exists_split_of_slice? hslice
  · rintro ⟨a, c, hs, rfl, rfl⟩
    rw [hs, slice?_append, Option.map_some, String.ofList_toList]

/-- What stands at the front of a text. -/
theorem dropFront?_eq_some_iff {front cs rest : List Char} :
    dropFront? front cs = some rest ↔ cs = front ++ rest := by
  induction front generalizing cs with
  | nil => cases cs <;> simp [dropFront?]
  | cons p ps ih =>
    cases cs with
    | nil => simp [dropFront?]
    | cons c cs => simp [dropFront?, ih, eq_comm]

/-! ## Spans that can be replaced

A span passes the check when both of its ends are seams of the text.  Then the text falls into three
parts, and a replacement exchanges the one in the middle. -/

theorem checkSpan_eq_ok_iff {source : String} {span : Span} :
    checkSpan source span = .ok () ↔
      span.stop ≤ source.utf8ByteSize ∧ isBoundary source.toList span.start = true ∧
        isBoundary source.toList span.stop = true := by
  unfold checkSpan
  constructor
  · intro h
    split at h
    · cases h
    · split at h
      next hle hb => exact ⟨by omega, by simpa using hb⟩
      · cases h
  · rintro ⟨hle, hstart, hstop⟩
    rw [if_neg (by omega), if_pos (by simp [hstart, hstop])]

/-- The check of a span never complains about a record. -/
theorem ne_brokenRecord_of_checkSpan {source : String} {span : Span} {e : EditError}
    (h : checkSpan source span = .error e) : e ≠ .brokenRecord := by
  unfold checkSpan at h
  split at h
  · cases h
    simp
  · split at h
    · cases h
    · cases h
      simp

/-- The check of a span between two seams succeeds. -/
theorem checkSpan_append {source : String} {a b c : List Char} (h : source.toList = a ++ (b ++ c)) :
    checkSpan source ⟨byteLength a, byteLength a + byteLength b⟩ = .ok () := by
  rw [checkSpan_eq_ok_iff]
  refine ⟨?_, ?_, ?_⟩
  · rw [← byteLength_toList, h, byteLength_append, byteLength_append]
    show byteLength a + byteLength b ≤ _
    omega
  · rw [h]
    exact isBoundary_append a (b ++ c)
  · rw [h, ← List.append_assoc]
    show isBoundary _ (byteLength a + byteLength b) = true
    rw [← byteLength_append]
    exact isBoundary_append (a ++ b) c

/-- A checked span cuts the text into what is before it, in it and behind it. -/
theorem exists_split_of_checkSpan {source : String} {span : Span}
    (h : checkSpan source span = .ok ()) (hspan : span.start ≤ span.stop) :
    ∃ a b c, source.toList = a ++ (b ++ c) ∧ byteLength a = span.start ∧
      byteLength a + byteLength b = span.stop := by
  obtain ⟨-, hstart, hstop⟩ := checkSpan_eq_ok_iff.mp h
  obtain ⟨a, rest, ha, hlen⟩ := exists_split_of_isBoundary hstart
  obtain ⟨front, c, hfront, hlen'⟩ := exists_split_of_isBoundary hstop
  obtain ⟨b, hb, hrest⟩ := exists_append_of_byteLength_le (ha.symm.trans hfront) (by omega)
  refine ⟨a, b, c, by rw [ha, hrest], hlen, ?_⟩
  rw [← hlen', hb, byteLength_append]

/-- Replacing what stands between two seams. -/
theorem replaceSpan?_append (a b c text : List Char) (span : Span)
    (hstart : span.start = byteLength a) (hstop : span.stop = byteLength a + byteLength b) :
    replaceSpan? (a ++ (b ++ c)) span text = some (a ++ text ++ c) := by
  unfold replaceSpan?
  have hlen : span.length = byteLength b := by
    unfold Span.length
    omega
  rw [hstart, hlen, cut?_append]
  simp [cut?_append]

end CodeMend
