import CodeMend.Proofs.Text.NetEdits
import CodeMend.Proofs.Token.ByteScan

/-!
# CodeMend — where an offset of an edited text stands in its base

An offset of an edited text lies in a run of the base or in a region that was changed, where the end
of the text belongs to the region behind the last run.  In a run the offset stands for the byte that
is still there, in a region for an end of what was replaced, so that no character of the base is
ever cut.  One offset escapes: the end of a text whose last region replaced more bytes than the rest
of the text accounts for is counted as if the two texts were the same there.

* **`EditLog.KeptAt`**, **`EditLog.ChangedAt`** — the runs and the regions in which an offset lies.
* **`Runs.exists_split`** — between two runs, the text and the base are cut at characters.
* **`Runs.walk_mono`** — the walk to an offset never goes back in the base.
* **`EditLog.offsets_map_to_base`** — what every offset stands for, after any replacements.
-/

namespace CodeMend

variable {offset pos a last : Nat} {rest cs : List Char} {ps qs : List Piece}

/-! ## Runs and regions

An offset of the current text lies in a run of the base, or in a region that replaced a part of the
base.  Both notions are told by the runs in front and behind, without a word about the way to the
offset. -/

namespace Piece

def isInserted : Piece → Bool
  | .kept _ _ => false
  | .inserted _ => true

/-- The number of bytes that runs stand for. -/
def width (ps : List Piece) : Nat := ps.foldr (fun p n => p.length + n) 0

/-- Where the last run of the base ends, or `last` if there is none. -/
def keptStop (last : Nat) : List Piece → Nat
  | [] => last
  | .kept _ stop :: ps => keptStop stop ps
  | .inserted _ :: ps => keptStop last ps

/-- Where the first run of the base starts, or `next` if there is none. -/
def keptStart (next : Nat) : List Piece → Nat
  | [] => next
  | .kept start _ :: _ => start
  | .inserted _ :: ps => keptStart next ps

@[simp] theorem width_nil : width [] = 0 := rfl

@[simp] theorem width_cons (p : Piece) (ps : List Piece) : width (p :: ps) = p.length + width ps :=
  rfl

@[simp] theorem width_append (ps qs : List Piece) : width (ps ++ qs) = width ps + width qs := by
  induction ps with
  | nil => simp
  | cons p ps ih => simp [ih, Nat.add_assoc]

theorem keptStop_append (last : Nat) (ps qs : List Piece) :
    keptStop last (ps ++ qs) = keptStop (keptStop last ps) qs := by
  induction ps generalizing last with
  | nil => rfl
  | cons p ps ih => cases p <;> exact ih _

/-- Text that was put in leaves the base where it is. -/
theorem keptStop_of_inserted (hps : ∀ p ∈ ps, p.isInserted = true) (last : Nat) :
    keptStop last ps = last := by
  induction ps with
  | nil => rfl
  | cons p ps ih =>
    cases p with
    | kept => cases hps _ List.mem_cons_self
    | inserted => exact ih fun q hq => hps q (List.mem_cons_of_mem _ hq)

theorem keptStart_append_of_inserted (hps : ∀ p ∈ ps, p.isInserted = true) (next : Nat)
    (qs : List Piece) : keptStart next (ps ++ qs) = keptStart next qs := by
  induction ps with
  | nil => rfl
  | cons p ps ih =>
    cases p with
    | kept => cases hps _ List.mem_cons_self
    | inserted => exact ih fun q hq => hps q (List.mem_cons_of_mem _ hq)

/-- An offset of a text lies in one of its runs. -/
theorem exists_run (ha : a < width ps) :
    ∃ front p back, ps = front ++ p :: back ∧ width front ≤ a ∧ a < width front + p.length := by
  induction ps generalizing a with
  | nil => cases ha
  | cons p ps ih =>
    rw [width_cons] at ha
    rcases Nat.lt_or_ge a p.length with hlt | hge
    · exact ⟨[], p, ps, rfl, Nat.zero_le a, by simpa using hlt⟩
    · obtain ⟨front, q, back, rfl, hfront, hq⟩ := ih (a := a - p.length) (by omega)
      refine ⟨p :: front, q, back, rfl, ?_, ?_⟩
      · rw [width_cons]
        omega
      · rw [width_cons]
        omega

/-- At the end of a list of runs stands text that was put in, behind a run of the base. -/
theorem exists_inserted_end (ps : List Piece) :
    ∃ front mid, ps = front ++ mid ∧ (∀ p ∈ mid, p.isInserted = true) ∧
      ∀ p ∈ front.getLast?, p.isInserted = false := by
  induction ps using List.reverseRecOn with
  | nil => exact ⟨[], [], rfl, by simp, by simp⟩
  | append_singleton ps p ih =>
    cases hp : p.isInserted with
    | false => exact ⟨ps ++ [p], [], by simp, by simp, by simpa using hp⟩
    | true =>
      obtain ⟨front, mid, rfl, hmid, hfront⟩ := ih
      refine ⟨front, mid ++ [p], by simp, fun q hq => ?_, hfront⟩
      rcases List.mem_append.mp hq with hq | hq
      · exact hmid q hq
      · rwa [List.mem_singleton.mp hq]

/-- At the front of a list of runs stands text that was put in, before a run of the base. -/
theorem exists_inserted_front (ps : List Piece) :
    ∃ mid back, ps = mid ++ back ∧ (∀ p ∈ mid, p.isInserted = true) ∧
      ∀ p ∈ back.head?, p.isInserted = false := by
  induction ps with
  | nil => exact ⟨[], [], rfl, by simp, by simp⟩
  | cons p ps ih =>
    cases hp : p.isInserted with
    | false => exact ⟨[], p :: ps, rfl, by simp, by simpa using hp⟩
    | true =>
      obtain ⟨mid, back, rfl, hmid, hback⟩ := ih
      exact ⟨p :: mid, back, rfl, List.forall_mem_cons.mpr ⟨hp, hmid⟩, hback⟩

end Piece

namespace EditLog

variable {log : EditLog} {o lo hi : Nat} {front mid back : List Piece}

/-- Byte `a` of the current text is byte `o` of the base, in a run that was not changed. -/
def KeptAt (log : EditLog) (a o : Nat) : Prop :=
  ∃ front start stop back i, log.pieces = front ++ .kept start stop :: back ∧ i < stop - start ∧
    a = Piece.width front + i ∧ o = start + i

/-- A changed region: all that was put in between two runs of the base. -/
structure IsRegion (log : EditLog) (front mid back : List Piece) : Prop where
  pieces_eq : log.pieces = front ++ (mid ++ back)
  inserted : ∀ p ∈ mid, p.isInserted = true
  before : ∀ p ∈ front.getLast?, p.isInserted = false
  behind : ∀ p ∈ back.head?, p.isInserted = false

/-- Offset `a` of the current text belongs to a changed region that replaced the bytes from `lo` to
`hi` of the base.  The end of the text belongs to the last region. -/
def ChangedAt (log : EditLog) (a lo hi : Nat) : Prop :=
  ∃ front mid back, log.IsRegion front mid back ∧ Piece.width front ≤ a ∧
    (a < Piece.width front + Piece.width mid ∨ back = [] ∧ a = log.current.utf8ByteSize) ∧
    lo = Piece.keptStop 0 front ∧ hi = Piece.keptStart log.base.utf8ByteSize back

/-- The text is longer than the base up to the end of its last run there, but shorter than the whole
base. -/
def EndsInside (log : EditLog) : Prop :=
  Piece.keptStop 0 log.pieces < log.current.utf8ByteSize ∧
    log.current.utf8ByteSize < log.base.utf8ByteSize

end EditLog

/-! ## The walk to an offset

The offset in the base is found by walking along the runs.  The walk is described by where it ends
for every tail of the runs, so that the statements about it go by induction on the runs. -/

/-- **Between two runs, both texts can be cut.**  `gone` is what the base loses up to there, `front`
what the runs spell up to there. -/
theorem Runs.exists_split (h : Runs offset rest (ps ++ qs) cs) :
    ∃ gone rest' front back, rest = gone ++ rest' ∧ cs = front ++ back ∧
      byteLength front = Piece.width ps ∧ Piece.keptStop offset ps = offset + byteLength gone ∧
      Runs (Piece.keptStop offset ps) rest' qs back := by
  induction ps generalizing offset rest cs with
  | nil => exact ⟨[], rest, [], cs, rfl, rfl, rfl, rfl, h⟩
  | cons p ps ih =>
    rw [List.cons_append] at h
    cases h with
    | @cons _ _ _ _ _ _ here _ hp hps =>
      obtain ⟨gone, rest', front, back, hrest, rfl, hfront, hstop, hqs⟩ := ih hps
      have hlength : byteLength (here ++ front) = Piece.width (p :: ps) := by
        rw [byteLength_append, hfront, ← hp.length_eq, Piece.width_cons]
      cases hp with
      | inserted text => exact ⟨gone, rest', _, back, hrest, by simp, hlength, hstop, hqs⟩
      | kept _ gap =>
        refine ⟨gap ++ (here ++ gone), rest', _, back, by simp [hrest], by simp, hlength, ?_, hqs⟩
        rw [byteLength_append, byteLength_append]
        show Piece.keptStop _ ps = _
        omega

/-- The first run of the base that is left starts at a character behind the last one. -/
theorem Runs.exists_keptStart (h : Runs offset rest ps cs) :
    ∃ gap rest', rest = gap ++ rest' ∧
      Piece.keptStart (offset + byteLength rest) ps = offset + byteLength gap := by
  induction h with
  | nil offset rest => exact ⟨rest, [], (List.append_nil rest).symm, rfl⟩
  | cons hp _ ih =>
    cases hp with
    | inserted => exact ih
    | kept offset gap => exact ⟨gap, _, rfl, rfl⟩

namespace EditLog

/-- Where the walk to an offset ends in a base of `size` bytes. -/
def walk (size a pos last : Nat) (ps : List Piece) : Nat :=
  match baseOffsetFrom a pos last ps with
  | (some o, _) => o
  | (none, last) => max last (min a size)

variable {size start stop : Nat}

theorem baseOffset_eq (log : EditLog) (a : Nat) :
    log.baseOffset a = walk log.base.utf8ByteSize a 0 0 log.pieces := rfl

theorem walk_nil : walk size a pos last [] = max last (min a size) := rfl

theorem walk_kept : walk size a pos last (.kept start stop :: ps) =
    if a < pos + (stop - start) then start + (a - pos)
    else walk size a (pos + (stop - start)) stop ps := by
  by_cases h : a < pos + (stop - start) <;> simp [walk, baseOffsetFrom, Piece.length, h]

theorem walk_inserted {text : String} : walk size a pos last (.inserted text :: ps) =
    if a < pos + text.utf8ByteSize then last
    else walk size a (pos + text.utf8ByteSize) last ps := by
  by_cases h : a < pos + text.utf8ByteSize <;> simp [walk, baseOffsetFrom, Piece.length, h]

/-- The walk passes the runs in front of an offset. -/
theorem walk_append (ha : pos + Piece.width ps ≤ a) :
    walk size a pos last (ps ++ qs) =
      walk size a (pos + Piece.width ps) (Piece.keptStop last ps) qs := by
  induction ps generalizing pos last with
  | nil => rfl
  | cons p ps ih =>
    rw [Piece.width_cons, ← Nat.add_assoc] at ha ⊢
    cases p with
    | kept start stop =>
      have hpass : ¬ a < pos + (stop - start) := by rw [Piece.length] at ha; omega
      rw [List.cons_append, walk_kept, if_neg hpass]
      exact ih ha
    | inserted text =>
      have hpass : ¬ a < pos + text.utf8ByteSize := by rw [Piece.length] at ha; omega
      rw [List.cons_append, walk_inserted, if_neg hpass]
      exact ih ha

/-- In text that was put in, the walk stays where the last run of the base ended. -/
theorem walk_of_inserted (hps : ∀ p ∈ ps, p.isInserted = true) (hpos : pos ≤ a)
    (ha : a < pos + Piece.width ps) : walk size a pos last (ps ++ qs) = last := by
  induction ps generalizing pos with
  | nil => exact absurd ha (Nat.not_lt.mpr hpos)
  | cons p ps ih =>
    obtain ⟨hp, hrest⟩ := List.forall_mem_cons.mp hps
    cases p with
    | kept => cases hp
    | inserted text =>
      rw [Piece.width_cons, ← Nat.add_assoc] at ha
      rw [List.cons_append, walk_inserted]
      split
      · rfl
      next hpass => exact ih hrest (Nat.not_lt.mp hpass) ha

end EditLog

/-- **The walk never goes back.**  Offsets in ascending order stand for offsets of the base in
ascending order. -/
theorem Runs.walk_mono {b size : Nat} (h : Runs offset rest ps cs)
    (hsize : offset + byteLength rest = size) (pos : Nat) (hab : a ≤ b) :
    offset ≤ EditLog.walk size a pos offset ps ∧
      EditLog.walk size a pos offset ps ≤ EditLog.walk size b pos offset ps ∧
      EditLog.walk size b pos offset ps ≤ size := by
  induction h generalizing pos with
  | nil offset rest =>
    rw [EditLog.walk_nil, EditLog.walk_nil]
    omega
  | @cons p ps offset offset' rest rest' front cs hp hps ih =>
    cases hp with
    | inserted text =>
      have htail := ih hsize (pos + text.utf8ByteSize)
      rw [EditLog.walk_inserted, EditLog.walk_inserted]
      split <;> split <;> omega
    | kept _ gap =>
      rw [byteLength_append, byteLength_append] at hsize
      have htail := ih (by omega) (pos + (offset + byteLength gap + byteLength front -
        (offset + byteLength gap)))
      rw [EditLog.walk_kept, EditLog.walk_kept]
      split <;> split <;> omega

/-! ## What an offset stands for

Here both are put together: in a run of the base the walk comes to the byte that stands there, and
in a changed region to one of its ends. -/

namespace EditLog

variable {log : EditLog} {o lo hi : Nat} {front mid back : List Piece}

/-- What a log in order has on both sides of a seam between two runs. -/
theorem WellFormed.exists_split (h : log.WellFormed) (hpieces : log.pieces = ps ++ qs) :
    ∃ gone rest front back, log.base.toList = gone ++ rest ∧
      log.current.toList = front ++ back ∧ byteLength front = Piece.width ps ∧
      Piece.keptStop 0 ps = byteLength gone ∧ Runs (byteLength gone) rest qs back := by
  have hruns := h.runs
  rw [hpieces] at hruns
  obtain ⟨gone, rest, front, back, hbase, hcurrent, hfront, hstop, hqs⟩ := hruns.exists_split
  rw [Nat.zero_add] at hstop
  exact ⟨gone, rest, front, back, hbase, hcurrent, hfront, hstop, hstop ▸ hqs⟩

/-- The runs of a log are as long as its text. -/
theorem WellFormed.width_pieces (h : log.WellFormed) :
    Piece.width log.pieces = log.current.utf8ByteSize := by
  obtain ⟨gone, rest, front, back, -, hcurrent, hfront, -, hback⟩ :=
    h.exists_split (List.append_nil log.pieces).symm
  cases hback
  rw [← hfront, ← byteLength_toList, hcurrent, List.append_nil]

/-- In a run of the base the walk comes to the offset that is as far behind its start. -/
theorem KeptAt.baseOffset_eq (h : log.KeptAt a o) : log.baseOffset a = o := by
  obtain ⟨front, start, stop, back, i, hpieces, hi, rfl, rfl⟩ := h
  rw [EditLog.baseOffset_eq, hpieces, walk_append (by omega), walk_kept, if_pos (by omega)]
  omega

/-- A run of the base, in both texts: the same characters, behind what stands in front. -/
theorem WellFormed.exists_kept (h : log.WellFormed) {start stop : Nat}
    (hpieces : log.pieces = front ++ .kept start stop :: back) :
    ∃ gone run rest before behind, log.base.toList = gone ++ (run ++ rest) ∧
      log.current.toList = before ++ (run ++ behind) ∧ byteLength gone = start ∧
      byteLength before = Piece.width front ∧ byteLength run = stop - start := by
  obtain ⟨gone, rest, before, behind, hbase, hcurrent, hbefore, -, hruns⟩ := h.exists_split hpieces
  cases hruns with
  | @cons _ _ _ _ _ rest' run behind' hp _ =>
    cases hp with
    | kept _ gap =>
      refine ⟨gone ++ gap, run, rest', before, behind', ?_, hcurrent, ?_, hbefore, ?_⟩
      · rw [hbase, List.append_assoc]
      · rw [byteLength_append]
      · omega

/-- **A byte of a run of the base is the byte for which it stands.** -/
theorem WellFormed.getElem?_of_keptAt (h : log.WellFormed) (ho : log.KeptAt a o) :
    (bytes log.current.toList)[a]? = (bytes log.base.toList)[o]? := by
  obtain ⟨front, start, stop, back, i, hpieces, hi, rfl, rfl⟩ := ho
  obtain ⟨gone, run, rest, before, behind, hbase, hcurrent, rfl, hbefore, hrun⟩ :=
    h.exists_kept hpieces
  have hget : ∀ u v, (bytes (u ++ (run ++ v)))[byteLength u + i]? = (bytes run)[i]? := by
    intro u v
    rw [bytes_append, bytes_append, ← length_bytes,
      List.getElem?_append_right (Nat.le_add_right _ _), Nat.add_sub_cancel_left,
      List.getElem?_append_left (by rw [length_bytes]; omega)]
  rw [hbase, hcurrent, ← hbefore, hget, hget]

/-- Every offset of a text lies in a run of the base or in a changed region. -/
theorem WellFormed.keptAt_or_changedAt (h : log.WellFormed)
    (ha : a ≤ log.current.utf8ByteSize) :
    (∃ o, log.KeptAt a o) ∨ ∃ lo hi, log.ChangedAt a lo hi := by
  rw [← h.width_pieces] at ha
  rcases Nat.lt_or_eq_of_le ha with hlt | rfl
  · obtain ⟨front, p, back, hpieces, hfront, hp⟩ := Piece.exists_run hlt
    cases p with
    | kept start stop =>
      rw [Piece.length] at hp
      exact .inl ⟨_, front, start, stop, back, a - Piece.width front, hpieces, by omega, by omega, rfl⟩
    -- The pieces around it that were inserted too belong to the same region.
    | inserted text =>
      obtain ⟨front, early, rfl, hearly, hbefore⟩ := Piece.exists_inserted_end front
      obtain ⟨late, back, rfl, hlate, hbehind⟩ := Piece.exists_inserted_front back
      rw [Piece.width_append] at hfront hp
      refine .inr ⟨_, _, front, early ++ .inserted text :: late, back, ⟨?_, ?_, hbefore, hbehind⟩,
        by omega, .inl ?_, rfl, rfl⟩
      · simp [hpieces]
      · exact List.forall_mem_append.mpr ⟨hearly, List.forall_mem_cons.mpr ⟨rfl, hlate⟩⟩
      · rw [Piece.width_append, Piece.width_cons]
        omega
  · obtain ⟨front, mid, hpieces, hmid, hbefore⟩ := Piece.exists_inserted_end log.pieces
    refine .inr ⟨_, _, front, mid, [], ⟨by simp [hpieces], hmid, hbefore, by simp⟩, ?_,
      .inr ⟨rfl, h.width_pieces⟩, rfl, rfl⟩
    rw [hpieces, Piece.width_append]
    exact Nat.le_add_right _ _

/-- The ends of a changed region are characters of the base, the first one no later than the
second. -/
theorem WellFormed.exists_region (h : log.WellFormed) (ha : log.ChangedAt a lo hi) :
    ∃ before gap behind, log.base.toList = before ++ (gap ++ behind) ∧ lo = byteLength before ∧
      hi = byteLength before + byteLength gap := by
  obtain ⟨front, mid, back, hregion, -, -, rfl, rfl⟩ := ha
  obtain ⟨gone, rest, _, _, hbase, -, -, hstop, hruns⟩ := h.exists_split hregion.pieces_eq
  obtain ⟨gap, behind, rfl, hstart⟩ := hruns.exists_keptStart
  rw [Piece.keptStart_append_of_inserted hregion.inserted, ← byteLength_append, ← hbase,
    byteLength_toList] at hstart
  exact ⟨gone, gap, behind, hbase, hstop, hstart⟩

/-- **In a changed region an offset stands for an end of it**, with the end of the text as the only
exception. -/
theorem WellFormed.baseOffset_of_changedAt_iff (h : log.WellFormed) (ha : log.ChangedAt a lo hi) :
    (log.baseOffset a = lo ∨ log.baseOffset a = hi) ↔
      ¬ (a = log.current.utf8ByteSize ∧ log.EndsInside) := by
  obtain ⟨before, gap, behind, hbase, hlo, hhi⟩ := h.exists_region ha
  obtain ⟨front, mid, back, hregion, hfront, hplace, rfl, rfl⟩ := ha
  have hwidth := h.width_pieces
  rw [hregion.pieces_eq, Piece.width_append, Piece.width_append] at hwidth
  rw [EditLog.baseOffset_eq, hregion.pieces_eq, walk_append (by omega), Nat.zero_add]
  rcases hplace with hlt | ⟨rfl, rfl⟩
  · rw [walk_of_inserted hregion.inserted hfront hlt]
    exact iff_of_true (.inl rfl) fun hend => by omega
  · -- all runs lie in front of the end
    rw [Piece.width_nil] at hwidth
    have hlast : Piece.keptStop 0 log.pieces = Piece.keptStop 0 front := by
      rw [hregion.pieces_eq, List.append_nil, Piece.keptStop_append,
        Piece.keptStop_of_inserted hregion.inserted]
    have hwalk : walk log.base.utf8ByteSize log.current.utf8ByteSize (Piece.width front)
        (Piece.keptStop 0 front) (mid ++ []) = walk log.base.utf8ByteSize log.current.utf8ByteSize
          (Piece.width front + Piece.width mid) (Piece.keptStop (Piece.keptStop 0 front) mid) [] :=
      walk_append (by omega)
    rw [hwalk, walk_nil, Piece.keptStop_of_inserted hregion.inserted, EndsInside, hlast]
    show max _ _ = _ ∨ max _ _ = log.base.utf8ByteSize ↔ _
    simp only [Piece.keptStart] at hhi
    omega

/-- **A character of the text stands for a character of the base.** -/
theorem WellFormed.isBoundary_baseOffset (h : log.WellFormed)
    (ha : isBoundary log.current.toList a = true)
    (hend : ¬ (a = log.current.utf8ByteSize ∧ log.EndsInside)) :
    isBoundary log.base.toList (log.baseOffset a) = true := by
  obtain ⟨u, v, hcurrent, hu⟩ := exists_split_of_isBoundary ha
  have hsize : a ≤ log.current.utf8ByteSize := by
    rw [← byteLength_toList, hcurrent, byteLength_append]
    omega
  rcases h.keptAt_or_changedAt hsize with ⟨o, ho⟩ | ⟨lo, hi, hregion⟩
  · rw [ho.baseOffset_eq]
    obtain ⟨front, start, stop, back, i, hpieces, hi, rfl, rfl⟩ := ho
    obtain ⟨gone, run, rest, before, behind, hbase, hruns, rfl, hbefore, hrun⟩ :=
      h.exists_kept hpieces
    obtain ⟨m, rfl, hm⟩ := exists_append_of_byteLength_le (hruns.symm.trans hcurrent) (by omega)
    rw [byteLength_append] at hu
    obtain ⟨m', rfl, -⟩ := exists_append_of_byteLength_le hm.symm (by omega)
    have hseam : byteLength gone + i = byteLength (gone ++ m) := by
      rw [byteLength_append]
      omega
    rw [hbase, hseam, List.append_assoc, ← List.append_assoc]
    exact isBoundary_append _ _
  · obtain ⟨before, gap, behind, hbase, rfl, rfl⟩ := h.exists_region hregion
    rcases (h.baseOffset_of_changedAt_iff hregion).mpr hend with heq | heq
    · rw [heq, hbase]
      exact isBoundary_append _ _
    · rw [heq, hbase, ← List.append_assoc, ← byteLength_append]
      exact isBoundary_append _ _

/-- **Where offsets of an edited text stand in its base, after any replacements.**

Offsets in ascending order stand for offsets of the base in ascending order, none behind its end.
Each lies in a run of the base or belongs to a changed region.  In a run it stands for the byte that
it is.  In a region it stands for one of its ends, and an offset between two characters stands for
one between two characters, except for the end of a text that ends inside what was replaced. -/
theorem offsets_map_to_base (original : String) (steps : List (Span × String))
    (hsteps : ∀ step ∈ steps, step.1.start ≤ step.1.stop) :
    let log := afterAll original steps
    let size := log.current.utf8ByteSize
    (∀ a b, a ≤ b → log.baseOffset a ≤ log.baseOffset b ∧
      log.baseOffset b ≤ original.utf8ByteSize) ∧
    (∀ a ≤ size, (∃ o, log.KeptAt a o) ∨ ∃ lo hi, log.ChangedAt a lo hi) ∧
    (∀ a o, log.KeptAt a o → log.baseOffset a = o ∧
      (bytes log.current.toList)[a]? = (bytes original.toList)[o]?) ∧
    (∀ a lo hi, log.ChangedAt a lo hi → lo ≤ hi ∧ hi ≤ original.utf8ByteSize ∧
      ((log.baseOffset a = lo ∨ log.baseOffset a = hi) ↔ ¬ (a = size ∧ log.EndsInside))) ∧
    ∀ a, isBoundary log.current.toList a = true → ¬ (a = size ∧ log.EndsInside) →
      isBoundary original.toList (log.baseOffset a) = true := by
  intro log size
  obtain ⟨hwf, hbase⟩ := wellFormed_afterAll original steps hsteps
  change log.WellFormed at hwf
  change log.base = original at hbase
  refine ⟨fun a b hab => ?_, fun a ha => hwf.keptAt_or_changedAt ha, fun a o ho => ?_,
    fun a lo hi hregion => ?_, fun a ha hend => ?_⟩
  · have hmono := hwf.runs.walk_mono (Nat.zero_add _) 0 hab
    rw [byteLength_toList] at hmono
    rw [EditLog.baseOffset_eq, EditLog.baseOffset_eq, ← hbase]
    exact hmono.2
  · exact ⟨ho.baseOffset_eq, hbase ▸ hwf.getElem?_of_keptAt ho⟩
  · refine ⟨?_, ?_, hwf.baseOffset_of_changedAt_iff hregion⟩ <;>
      obtain ⟨before, gap, behind, heq, rfl, rfl⟩ := hwf.exists_region hregion
    · exact Nat.le_add_right _ _
    · rw [← hbase, ← byteLength_toList, heq, byteLength_append, byteLength_append]
      omega
  · rw [← hbase]
    exact hwf.isBoundary_baseOffset ha hend

/-- Between inserted and deleted text `b` stands for itself, and the inserted text for what it
replaced. -/
theorem offsets_map_to_base_mixed :
    let steps := [((⟨1, 3⟩ : Span), "XYZ"), (⟨5, 7⟩, ""), (⟨0, 0⟩, "é")]
    let log := afterAll "aébcdef" steps
    (∀ step ∈ steps, step.1.start ≤ step.1.stop) ∧ log.current = "éaXYZbef" ∧
      log.KeptAt 6 3 ∧ log.baseOffset 6 = 3 ∧ log.ChangedAt 4 1 3 ∧
      (log.baseOffset 4 = 1 ∨ log.baseOffset 4 = 3) ∧
      isBoundary "aébcdef".toList (log.baseOffset 9) = true := by
  intro steps log
  have hsteps : ∀ step ∈ steps, step.1.start ≤ step.1.stop := by decide
  obtain ⟨-, -, hkept, hchanged, hboundary⟩ := offsets_map_to_base "aébcdef" steps hsteps
  have hrun : log.KeptAt 6 3 :=
    ⟨[.inserted "é", .kept 0 1, .inserted "XYZ"], 3, 4, [.kept 6 8], 0, by decide, by decide, by decide,
      rfl⟩
  have hregion : log.ChangedAt 4 1 3 :=
    ⟨[.inserted "é", .kept 0 1], [.inserted "XYZ"], [.kept 3 4, .kept 6 8],
      ⟨by decide, by decide, by decide, by decide⟩, by decide, .inl (by decide), rfl, rfl⟩
  refine ⟨hsteps, by decide, hrun, (hkept 6 3 hrun).1, hregion, ?_, ?_⟩
  · exact (hchanged 4 1 3 hregion).2.2.mpr fun hend => absurd hend.1 (by decide)
  · exact hboundary 9 (by decide) fun hend => absurd hend.2.2 (by decide)

/-- A text of one byte in the place of a character of two: its end stands for the middle of that
character. -/
theorem end_of_text_splits_character :
    let log := afterAll "é" [(⟨0, 2⟩, "x")]
    log.current = "x" ∧ log.ChangedAt 1 0 2 ∧ isBoundary log.current.toList 1 = true ∧
      log.baseOffset 1 = 1 ∧ isBoundary log.base.toList 1 = false := by
  refine ⟨by decide, ⟨[], [.inserted "x"], [], ⟨by decide, by decide, by decide, by decide⟩,
    by decide, .inr ⟨rfl, by decide⟩, rfl, rfl⟩, by decide, by decide, by decide⟩

end EditLog

end CodeMend
