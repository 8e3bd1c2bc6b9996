import Mathlib.Algebra.GroupWithZero.Nat
import CodeMend.Proofs.Token.Places

/-!
# CodeMend — tidied blanks stay as they are

Tidying removes blanks or makes them a single one and touches nothing else, and no two runs of
blanks are neighbours.  A run of blanks therefore has the same neighbours in the tidied text again,
and if it has been tidied there is nothing left to do for it.

* **`exists_tidied`** — the runs of the tidied text are the tidied runs.
* **`exists_place_of_mem`** — a run of blanks of the tidied text comes from one of the source with
  the same neighbours; **`tidied?_eq_none`** — what has been tidied is left alone.
* **`displaced`** — where a place of the source comes to stand; **`displaced_edits`**.
* **`tidy_settles`** — another pass over the tidied text.
-/

namespace CodeMend

open Lexer Literal

variable {b : Bool} {K : List (List Char)} {regions regions' : List Span}
  {before before' : Option (List Char)} {start start' : Nat} {p q p' : Place}
  {A A' B B' M ps : List Place} {w new : List Char} {e : TextEdit} {source : String}
  {tokens : List Token}

/-! ## The tidied runs

Tidying exchanges blanks between other runs, so the tidied text has the same runs but for these. -/

/-- The runs that are left when the blanks that meet a region are tidied. -/
def tidiedRuns (regions : List Span) (ps : List Place) : List (List Char) :=
  (ps.map (Place.result regions)).filter (· ≠ [])

theorem cases_of_change? (h : p.change? regions = some new) :
    isBlankRun p.run = true ∧ Layout.touchesAny p.span regions = true ∧
      p.tidied? = some new ∧ (new = [] ∨ new = [' ']) := by
  unfold Place.change? at h
  split at h
  next hblank =>
    rw [Bool.and_eq_true] at hblank
    refine ⟨hblank.1, hblank.2, h, ?_⟩
    unfold Place.tidied? at h
    split_ifs at h
    · exact .inl (Option.some.inj h).symm
    · exact .inl (Option.some.inj h).symm
    · exact .inr (Option.some.inj h).symm
  next => cases h

/-- A place that is kept has no edit, and its run stays. -/
theorem kept_of_change? (h : p.change? regions = none) :
    p.edit? regions = none ∧ p.result regions = p.run := by
  rw [Place.edit?, Place.result, h]
  exact ⟨rfl, rfl⟩

/-- A place that is changed has the edit that puts the new blanks there. -/
theorem changed_of_change? (h : p.change? regions = some new) :
    p.edit? regions = some ⟨p.span, String.ofList new⟩ ∧ p.result regions = new := by
  rw [Place.edit?, Place.result, h]
  exact ⟨rfl, rfl⟩

theorem result_of_solid (h : isBlankRun p.run = false) (regions : List Span) :
    p.result regions = p.run := by
  rw [Place.result, Place.change?, h]
  rfl

/-- What stands there afterwards is made of blanks if the run was. -/
theorem result_of_blank (h : ∀ d ∈ p.run, isSpace d = true) (regions : List Span) :
    ∀ d ∈ p.result regions, isSpace d = true := by
  unfold Place.result
  cases hchange : p.change? regions with
  | none => exact h
  | some new =>
    rcases (cases_of_change? hchange).2.2.2 with rfl | rfl
    · exact List.forall_mem_nil _
    · intro d hd
      rw [List.mem_singleton.mp hd]
      rfl

theorem tidiedRuns_cons (p : Place) (ps : List Place) :
    tidiedRuns regions (p :: ps) =
      if p.result regions = [] then tidiedRuns regions ps
      else p.result regions :: tidiedRuns regions ps := by
  rw [tidiedRuns, List.map_cons, List.filter_cons]
  by_cases hnil : p.result regions = []
  · rw [if_pos hnil, if_neg (by simpa using hnil)]
    rfl
  · rw [if_neg hnil, if_pos (by simpa using hnil)]
    rfl

theorem flatten_tidiedRuns (ps : List Place) :
    (tidiedRuns regions ps).flatten = (ps.map (Place.result regions)).flatten :=
  List.flatten_filter_ne_nil

/-- A run that is not blank stays, also as the first one. -/
theorem head?_tidiedRuns (hK : Spaced K) (hhead : K.head?.any isBlankRun = false) :
    (tidiedRuns regions (places before start K)).head? = K.head? := by
  cases K with
  | nil => rfl
  | cons run K =>
    have hresult := result_of_solid (p := ⟨before, start, run, K.head?⟩) hhead regions
    rw [places, tidiedRuns_cons, hresult, if_neg (hK.nonempty run List.mem_cons_self)]
    rfl

/-- Behind blanks, no blanks come first. -/
theorem Spaced.head?_tail (hK : Spaced (w :: K)) (hblank : isBlankRun w = true) :
    K.head?.any isBlankRun = false := by
  rw [← hK.tail.head?_flatten]
  exact hK.head?_flatten_tail hblank

/-- **The tidied runs keep those that are not blank**, and blanks are spaced as they were. -/
theorem spaced_tidiedRuns (regions : List Span) (hK : Spaced K) (before : Option (List Char))
    (start : Nat) :
    Spaced (tidiedRuns regions (places before start K)) ∧
      (tidiedRuns regions (places before start K)).filter (fun run => !isBlankRun run) =
        K.filter fun run => !isBlankRun run := by
  induction K generalizing before start with
  | nil => exact ⟨⟨nofun, nofun, .nil⟩, rfl⟩
  | cons run K ih =>
    obtain ⟨hspaced, hsolid⟩ := ih hK.tail (some run) (start + byteLength run)
    have hrun := hK.nonempty run List.mem_cons_self
    rw [places, tidiedRuns_cons]
    cases hblank : isBlankRun run with
    | false =>
      have hresult := result_of_solid (p := ⟨before, start, run, K.head?⟩) hblank regions
      rw [hresult, if_neg hrun]
      refine ⟨hspaced.cons hrun fun h => ?_, ?_⟩
      · rw [hblank] at h
        cases h
      · rw [List.filter_cons_of_pos (by simp [hblank]), List.filter_cons_of_pos (by simp [hblank]),
          hsolid]
    | true =>
      have hspaces := result_of_blank (p := ⟨before, start, run, K.head?⟩)
        (hK.blanks run List.mem_cons_self hblank) regions
      rw [List.filter_cons_of_neg (by simp [hblank])]
      split
      next => exact ⟨hspaced, hsolid⟩
      next hne =>
        -- what is left of blanks is blank, and the run behind them is solid and stays in front
        have hfirst : isBlankRun (Place.result regions ⟨before, start, run, K.head?⟩) = true := by
          cases hresult : Place.result regions ⟨before, start, run, K.head?⟩ with
          | nil => exact absurd hresult hne
          | cons c v =>
            rw [hresult] at hspaces
            exact hspaces c List.mem_cons_self
        refine ⟨hspaced.cons hne fun _ => ⟨hspaces, fun next hnext => ?_⟩, ?_⟩
        · have hhead := hK.head?_tail hblank
          rw [head?_tidiedRuns hK.tail hhead] at hnext
          rw [hnext] at hhead
          exact hhead
        · rw [List.filter_cons_of_neg (by simp [hfirst]), hsolid]

/-- The edits of the runs lead from the runs to the tidied ones. -/
theorem splices_places (regions : List Span) (K : List (List Char))
    (before : Option (List Char)) (start : Nat) :
    Splices start K.flatten ((places before start K).filterMap (Place.edit? regions))
      ((places before start K).map (Place.result regions)).flatten := by
  induction K generalizing before start with
  | nil => exact .nil start []
  | cons run K ih =>
    have hrest := ih (some run) (start + byteLength run)
    rw [places, List.map_cons, List.flatten_cons, List.flatten_cons]
    cases hchange : Place.change? regions ⟨before, start, run, K.head?⟩ with
    | none =>
      obtain ⟨hedit, hresult⟩ := kept_of_change? hchange
      rw [List.filterMap_cons_none hedit, hresult]
      exact hrest.keep
    | some new =>
      obtain ⟨hedit, hresult⟩ := changed_of_change? hchange
      rw [List.filterMap_cons_some hedit, hresult]
      have hreplace := hrest.replace (String.ofList new)
      rw [String.toList_ofList] at hreplace
      exact hreplace

/-! ## Places in a text

Something that is not blank stands between two runs of blanks, hence no two edits touch. -/

theorem map_run_places (before : Option (List Char)) (start : Nat) (K : List (List Char)) :
    (places before start K).map Place.run = K := by
  induction K generalizing before start with
  | nil => rfl
  | cons run K ih => rw [places, List.map_cons, ih]

/-- A run starts where those in front of it end. -/
theorem start_of_places (h : places before start K = A ++ p :: B) :
    p.start = start + byteLength (A.map Place.run).flatten := by
  induction A generalizing before start K with
  | nil =>
    cases K with
    | nil => cases h
    | cons run K =>
      obtain ⟨rfl, -⟩ := List.cons.inj h
      rfl
  | cons q A ih =>
    cases K with
    | nil => cases h
    | cons run K =>
      obtain ⟨rfl, hrest⟩ := List.cons.inj h
      rw [ih hrest, List.map_cons, List.flatten_cons, byteLength_append, Nat.add_assoc]

theorem nonempty_of_places (hK : Spaced K) (h : places before start K = A ++ p :: B) : p.run ≠ [] := by
  refine hK.nonempty p.run ?_
  rw [← map_run_places before start K, h]
  exact List.mem_map_of_mem (List.mem_append_right A List.mem_cons_self)

/-- Something stands between any two runs of blanks, and stays. -/
theorem tidied_between_pos (regions : List Span) (hK : Spaced K)
    (h : places before start K = A ++ p :: (M ++ q :: B)) (hp : isBlankRun p.run = true)
    (hq : isBlankRun q.run = true) :
    0 < byteLength (M.map (Place.result regions)).flatten := by
  have hruns := map_run_places before start K
  rw [h, List.map_append, List.map_cons, List.map_append, List.map_cons] at hruns
  have hchain := (List.isChain_append.mp (hruns ▸ hK.apart)).2.1
  cases M with
  | nil =>
    have hfalse := (List.isChain_cons_cons.mp hchain).1 hp
    rw [hq] at hfalse
    cases hfalse
  | cons m M =>
    have hsolid : isBlankRun m.run = false := (List.isChain_cons_cons.mp hchain).1 hp
    have hm : m.run ≠ [] := by
      refine nonempty_of_places (A := A ++ [p]) (B := M ++ q :: B) hK (h.trans ?_)
      simp
    rw [List.map_cons, List.flatten_cons, byteLength_append, result_of_solid hsolid]
    exact Nat.add_pos_left (byteLength_pos_iff.mpr hm) _

/-! ## A pass over the tidied text

What becomes of a run of blanks depends on its neighbours alone.  These are the same in the tidied
text, and there the run is what they ask for. -/

/-- **What has been tidied is left alone** between the same neighbours. -/
theorem tidied?_eq_none (hbefore : p'.before = p.before) (hafter : p'.after = p.after)
    (hrun : p'.run = p.tidied?.getD p.run) (hne : p'.run ≠ []) : p'.tidied? = none := by
  unfold Place.tidied? at hrun ⊢
  rw [hbefore, hafter]
  split_ifs at hrun ⊢ with hout hline hparens hsingle hsingle'
  · exact absurd hrun hne
  · rfl
  · exact absurd hrun hne
  · exact absurd hrun hsingle
  · exact absurd (hrun.trans (not_not.mp hsingle')) hsingle
  all_goals rfl

/-- **A run of blanks of the tidied text comes from one of the source with the same neighbours.** -/
theorem exists_place_of_mem (hK : Spaced K)
    (hbefore : K.head?.any isBlankRun = true → before' = before)
    (hp' : p' ∈ places before' start' (tidiedRuns regions (places before start K)))
    (hblank : isBlankRun p'.run = true) :
    ∃ A p B, places before start K = A ++ p :: B ∧ isBlankRun p.run = true ∧
      p'.before = p.before ∧ p'.after = p.after ∧ p'.run = p.result regions ∧
      p'.start = start' + byteLength (A.map (Place.result regions)).flatten := by
  induction K generalizing before before' start start' with
  | nil => cases hp'
  | cons run K ih =>
    -- a place behind the first run, whatever became of that
    have hbehind : ∀ {before'},
        (K.head?.any isBlankRun = true → before' = some run) →
        p' ∈ places before'
          (start' + byteLength (Place.result regions ⟨before, start, run, K.head?⟩))
          (tidiedRuns regions (places (some run) (start + byteLength run) K)) →
        ∃ A p B, places before start (run :: K) = A ++ p :: B ∧ isBlankRun p.run = true ∧
          p'.before = p.before ∧ p'.after = p.after ∧ p'.run = p.result regions ∧
          p'.start = start' + byteLength (A.map (Place.result regions)).flatten := by
      intro before' hbefore' hmem
      obtain ⟨A, p, B, hplaces, hp, hb, ha, hr, hs⟩ := ih hK.tail hbefore' hmem
      refine ⟨⟨before, start, run, K.head?⟩ :: A, p, B, by rw [places, hplaces]; rfl, hp, hb, ha, hr,
        ?_⟩
      rw [hs, List.map_cons, List.flatten_cons, byteLength_append, Nat.add_assoc]
    rw [places, tidiedRuns_cons] at hp'
    cases hrun : isBlankRun run with
    | false =>
      rw [result_of_solid hrun] at hp' hbehind
      rw [if_neg (hK.nonempty run List.mem_cons_self), places] at hp'
      rcases List.mem_cons.mp hp' with rfl | hp'
      · rw [hrun] at hblank
        cases hblank
      · exact hbehind (fun _ => rfl) hp'
    | true =>
      -- the runs around the blanks are solid, so that they are neighbours of what is left of them
      obtain rfl := hbefore hrun
      have hhead := hK.head?_tail hrun
      have hnone : ∀ {before' : Option (List Char)},
          K.head?.any isBlankRun = true → before' = some run := by
        intro before' h
        rw [hhead] at h
        cases h
      split at hp'
      next hnil =>
        rw [hnil] at hbehind
        exact hbehind hnone hp'
      next hne =>
        rw [places] at hp'
        rcases List.mem_cons.mp hp' with rfl | hp'
        · exact ⟨[], ⟨before', start, run, K.head?⟩, _, by rw [places]; rfl, hrun, rfl,
            head?_tidiedRuns hK.tail hhead, rfl, rfl⟩
        · exact hbehind hnone hp'

/-- **Only blanks that met no region are changed by another pass.** -/
theorem exists_untouched_of_mem (hK : Spaced K)
    (he : e ∈ (places none 0 (tidiedRuns regions (places none 0 K))).filterMap
      (Place.edit? regions')) :
    Layout.touchesAny e.span regions' = true ∧
      ∃ A p B, places none 0 K = A ++ p :: B ∧ isBlankRun p.run = true ∧
        Layout.touchesAny p.span regions = false ∧ p.result regions = p.run ∧
        e.span.start = byteLength (A.map (Place.result regions)).flatten ∧
        e.span.stop = e.span.start + byteLength p.run := by
  obtain ⟨p', hp', hedit⟩ := List.mem_filterMap.mp he
  obtain ⟨new, hchange, rfl⟩ := Option.map_eq_some_iff.mp hedit
  obtain ⟨hblank, htouches, htidied, -⟩ := cases_of_change? hchange
  obtain ⟨A, p, B, hplaces, hp, hb, ha, hr, hs⟩ := exists_place_of_mem hK (fun _ => rfl) hp' hblank
  have hne : p'.run ≠ [] := by
    intro hnil
    rw [hnil] at hblank
    cases hblank
  have huntouched : Layout.touchesAny p.span regions = false := by
    -- had it met a region, its run would be tidied already
    by_contra h
    have hall : p.change? regions = p.tidied? := by
      rw [Place.change?, hp, Bool.eq_true_of_not_eq_false h]
      rfl
    rw [Place.result, hall] at hr
    rw [tidied?_eq_none hb ha hr hne] at htidied
    cases htidied
  have hkept : p.result regions = p.run := by
    rw [Place.result, Place.change?, huntouched, Bool.and_false]
    rfl
  refine ⟨htouches, A, p, B, hplaces, hp, huntouched, hkept, ?_, ?_⟩
  · rw [Nat.zero_add] at hs
    exact hs
  · rw [← hkept, ← hr]
    rfl

/-! ## Where the places of a text come to stand

A region is moved by the edits in front of it.  Each run comes to stand where its edit has moved it.
-/

/-- Where an offset comes to stand when ascending edits are made: those that end in front of it put
it off. -/
def displaced (edits : List TextEdit) (offset : Nat) : Nat :=
  let front := edits.filter fun e => e.span.stop ≤ offset
  offset + (front.map fun e => e.newText.utf8ByteSize).sum - (front.map fun e => e.span.length).sum

/-- What the edits of a span make of it stands between these offsets. -/
def displacedSpan (edits : List TextEdit) (s : Span) : Span :=
  ⟨displaced edits s.start, displaced edits s.stop⟩

/-- The edits of some runs make up for what these gain and lose. -/
theorem sum_edits (regions : List Span) (A : List Place) :
    byteLength (A.map Place.run).flatten +
        ((A.filterMap (Place.edit? regions)).map fun e => e.newText.utf8ByteSize).sum =
      byteLength (A.map (Place.result regions)).flatten +
        ((A.filterMap (Place.edit? regions)).map fun e => e.span.length).sum := by
  induction A with
  | nil => rfl
  | cons p A ih =>
    rw [List.map_cons, List.map_cons, List.flatten_cons, List.flatten_cons, byteLength_append,
      byteLength_append]
    cases hchange : p.change? regions with
    | none =>
      obtain ⟨hedit, hresult⟩ := kept_of_change? hchange
      rw [List.filterMap_cons_none hedit, hresult]
      omega
    | some new =>
      obtain ⟨hedit, hresult⟩ := changed_of_change? hchange
      have hlength : p.span.length = byteLength p.run := Nat.add_sub_cancel_left _ _
      rw [List.filterMap_cons_some hedit, hresult, List.map_cons, List.map_cons, List.sum_cons,
        List.sum_cons, utf8ByteSize_ofList, hlength]
      omega

/-- An edit of some runs has the span of one of them. -/
theorem exists_place_of_edit (he : e ∈ A.filterMap (Place.edit? regions)) :
    ∃ p ∈ A, e.span = p.span := by
  obtain ⟨p, hp, hedit⟩ := List.mem_filterMap.mp he
  obtain ⟨new, -, rfl⟩ := Option.map_eq_some_iff.mp hedit
  exact ⟨p, hp, rfl⟩

/-- **The end of some runs comes to stand at the end of what they are tidied to.** -/
theorem displaced_edits (regions : List Span) (hK : Spaced K) (h : places none 0 K = A ++ B) :
    displaced ((places none 0 K).filterMap (Place.edit? regions))
        (byteLength (A.map Place.run).flatten) =
      byteLength (A.map (Place.result regions)).flatten := by
  -- the edits that end in front of the offset are those of the runs in front of it
  have hfront : ∀ e ∈ A.filterMap (Place.edit? regions),
      e.span.stop ≤ byteLength (A.map Place.run).flatten := by
    intro e he
    obtain ⟨p, hp, hspan⟩ := exists_place_of_edit he
    obtain ⟨A₁, A₂, rfl⟩ := List.append_of_mem hp
    have hstart := start_of_places (A := A₁) (p := p) (B := A₂ ++ B) (h.trans (by simp))
    rw [hspan, Place.span, hstart, List.map_append, List.map_cons, List.flatten_append,
      List.flatten_cons, byteLength_append, byteLength_append]
    dsimp only
    omega
  have hback : ∀ e ∈ B.filterMap (Place.edit? regions),
      ¬ e.span.stop ≤ byteLength (A.map Place.run).flatten := by
    intro e he
    obtain ⟨p, hp, hspan⟩ := exists_place_of_edit he
    obtain ⟨B₁, B₂, rfl⟩ := List.append_of_mem hp
    have hplaces : places none 0 K = (A ++ B₁) ++ p :: B₂ := h.trans (by simp)
    have hpos := byteLength_pos_iff.mpr (nonempty_of_places hK hplaces)
    rw [hspan, Place.span, start_of_places hplaces, List.map_append, List.flatten_append,
      byteLength_append]
    dsimp only
    omega
  have hfilter : ((places none 0 K).filterMap (Place.edit? regions)).filter
      (fun e => e.span.stop ≤ byteLength (A.map Place.run).flatten) =
      A.filterMap (Place.edit? regions) := by
    rw [h, List.filterMap_append, List.filter_append,
      List.filter_eq_self.mpr fun e he => decide_eq_true (hfront e he),
      List.filter_eq_nil_iff.mpr fun e he => by simpa using hback e he, List.append_nil]
  have hsum := sum_edits regions A
  rw [displaced, hfilter]
  omega

/-- A run comes to stand where what it is tidied to stands. -/
theorem displacedSpan_edits (regions : List Span) (hK : Spaced K)
    (h : places none 0 K = A ++ p :: B) :
    displacedSpan ((places none 0 K).filterMap (Place.edit? regions)) p.span =
      ⟨byteLength (A.map (Place.result regions)).flatten,
        byteLength (A.map (Place.result regions)).flatten + byteLength (p.result regions)⟩ := by
  have hstart : p.start = byteLength (A.map Place.run).flatten := by
    rw [start_of_places h, Nat.zero_add]
  have hstop : p.start + byteLength p.run = byteLength ((A ++ [p]).map Place.run).flatten := by
    rw [hstart, List.map_append, List.flatten_append, byteLength_append]
    simp
  have hend := displaced_edits (A := A ++ [p]) (B := B) regions hK (h.trans (by simp))
  rw [displacedSpan, Place.span, hstop, hend, hstart, displaced_edits regions hK h, List.map_append,
    List.flatten_append, byteLength_append]
  simp

/-- **What two runs of blanks are tidied to does not touch.** -/
theorem tidied_apart (regions : List Span) (hK : Spaced K)
    (h : places none 0 K = A ++ p :: B)
    (h' : places none 0 K = A' ++ q :: B') (hp : isBlankRun p.run = true)
    (hq : isBlankRun q.run = true) (hne : p ≠ q) :
    byteLength (A.map (Place.result regions)).flatten + byteLength (p.result regions) <
        byteLength (A'.map (Place.result regions)).flatten ∨
      byteLength (A'.map (Place.result regions)).flatten + byteLength (q.result regions) <
        byteLength (A.map (Place.result regions)).flatten := by
  -- the one that comes first, what stands between, and the other one
  have hfirst : ∀ {A M B : List Place} {p q : Place}, places none 0 K = A ++ p :: (M ++ q :: B) →
      isBlankRun p.run = true → isBlankRun q.run = true →
      byteLength (A.map (Place.result regions)).flatten + byteLength (p.result regions) <
        byteLength ((A ++ p :: M).map (Place.result regions)).flatten := by
    intro A M B p q hplaces hp hq
    have hpos := tidied_between_pos regions hK hplaces hp hq
    rw [List.map_append, List.map_cons, List.flatten_append, List.flatten_cons, byteLength_append,
      byteLength_append]
    omega
  rcases List.append_eq_append_iff.mp (h.symm.trans h') with ⟨M, rfl, hM⟩ | ⟨M, rfl, hM⟩
  · cases M with
    | nil => exact absurd (List.cons.inj hM).1 hne
    | cons m M =>
      obtain ⟨rfl, rfl⟩ := List.cons.inj hM
      exact .inl (hfirst h hp hq)
  · cases M with
    | nil => exact absurd (List.cons.inj hM).1.symm hne
    | cons m M =>
      obtain ⟨rfl, rfl⟩ := List.cons.inj hM
      exact .inr (hfirst h' hq hp)

/-! ## Tidied sources

All of it is put together for sources, where the second pass has only to do with blanks that the
regions of the first did not meet. -/

theorem edits_of_tokenize (h : tokenize source = .ok tokens) (regions : List Span) :
    Layout.edits regions none tokens =
      (places none 0 (runs true source.toList)).filterMap (Place.edit? regions) :=
  (lexed_of_tokenize h).edits_eq rfl rfl

theorem layoutEdits_eq (h : tokenize source = .ok tokens) (regions : List Span) :
    layoutEdits source regions =
      .ok ((places none 0 (runs true source.toList)).filterMap (Place.edit? regions)) := by
  unfold layoutEdits
  split
  next hempty =>
    have hnone : ∀ p, Place.edit? regions p = none := by
      intro p
      rw [List.isEmpty_iff.mp hempty, Place.edit?, Place.change?, Bool.and_comm]
      rfl
    rw [List.filterMap_eq_nil_iff.mpr fun p _ => hnone p]
    rfl
  next =>
    rw [h, ← edits_of_tokenize h]
    rfl

/-- **The tidied text has the tidied runs.** -/
theorem exists_tidied (h : tokenize source = .ok tokens) (regions : List Span) :
    ∃ out after, tidy source regions = .ok out ∧ tokenize out = .ok after ∧
      out.toList =
        ((places none 0 (runs true source.toList)).map (Place.result regions)).flatten ∧
      runs true out.toList = tidiedRuns regions (places none 0 (runs true source.toList)) := by
  have hlexed := lexed_of_tokenize h
  have hspaced := spaced_runs true source.toList
  have hwalk := splices_places regions (runs true source.toList) none 0
  rw [hlexed.flatten_runs] at hwalk
  obtain ⟨out, hsplices, hkept, -⟩ := @exists_splices_edits _ _ _ _
    (account_reading.prod account_solidRuns) regions none _ _ _ hlexed rfl rfl
  obtain ⟨hread, hsolid⟩ := Prod.mk.inj hkept
  rw [edits_of_tokenize h] at hsplices
  have hnonempty : ∀ e ∈ (places none 0 (runs true source.toList)).filterMap
      (Place.edit? regions), e.span.start < e.span.stop := by
    intro e he
    obtain ⟨p, hp, hspan⟩ := exists_place_of_edit he
    obtain ⟨A, B, hplaces⟩ := List.append_of_mem hp
    have hpos := byteLength_pos_iff.mpr (nonempty_of_places hspaced hplaces)
    rw [hspan]
    exact Nat.lt_add_of_pos_right hpos
  -- both walks carry out the same edits
  have happly := (applyEdits_of_nonempty_splices hsplices hnonempty).2.2
  have happly' := (applyEdits_of_nonempty_splices hwalk hnonempty).2.2
  obtain rfl := String.ofList_injective (Except.ok.inj (happly.symm.trans happly'))
  have hout := String.toList_ofList
    (l := ((places none 0 (runs true source.toList)).map (Place.result regions)).flatten)
  rw [reading_of_tokenize h, ← hout] at hread
  obtain ⟨after, hafter⟩ := exists_tokenize_of_reading hread
  refine ⟨_, after, ?_, hafter, hout, ?_⟩
  · simp [tidy, layoutEdits_eq h, happly, Except.mapError, bind, Except.bind]
  · obtain ⟨htidied, hkeeps⟩ := spaced_tidiedRuns regions hspaced none 0
    refine eq_of_solid_eq (spaced_runs true _) htidied ?_ ?_
    · rw [(lexed_of_tokenize hafter).flatten_runs, hout, flatten_tidiedRuns]
    · rw [hkeeps, hout]
      exact hsolid

/-- The pieces of blanks of a source are its runs of blanks. -/
theorem exists_place_iff (h : tokenize source = .ok tokens) {span : Span} {text : List Char} :
    (∃ piece, (span, piece) ∈ tokens.flatMap Token.placedTrivia ∧ piece.isWhitespace = true ∧
        piece.text.toList = text) ↔
      ∃ A p B, places none 0 (runs true source.toList) = A ++ p :: B ∧
        isBlankRun p.run = true ∧ p.span = span ∧ p.run = text := by
  have hblanks := (lexed_of_tokenize h).blanks_eq none
  rw [Trivia.placed, List.nil_append] at hblanks
  have hmem : (span, text) ∈ (tokens.flatMap Token.placedTrivia).filterMap Trivia.blanks? ↔
      (span, text) ∈ (places none 0 (runs true source.toList)).filterMap Place.blanks? := by
    rw [hblanks]
  rw [List.mem_filterMap, List.mem_filterMap] at hmem
  constructor
  · rintro ⟨piece, hpiece, hwhite, rfl⟩
    obtain ⟨p, hp, hspan⟩ := hmem.mp ⟨(span, piece), hpiece, by rw [Trivia.blanks?, if_pos hwhite]⟩
    obtain ⟨A, B, hplaces⟩ := List.append_of_mem hp
    obtain ⟨hblank, hsame⟩ := Option.ite_none_right_eq_some.mp hspan
    obtain ⟨rfl, hrun⟩ := Prod.mk.inj (Option.some.inj hsame)
    exact ⟨A, p, B, hplaces, hblank, rfl, hrun⟩
  · rintro ⟨A, p, B, hplaces, hblank, rfl, rfl⟩
    have hp : p ∈ places none 0 (runs true source.toList) := by
      rw [hplaces]
      exact List.mem_append_right A List.mem_cons_self
    obtain ⟨⟨span, piece⟩, hpiece, hspan⟩ := hmem.mpr ⟨p, hp, by rw [Place.blanks?, if_pos hblank]⟩
    obtain ⟨hwhite, hsame⟩ := Option.ite_none_right_eq_some.mp hspan
    obtain ⟨rfl, htext⟩ := Prod.mk.inj (Option.some.inj hsame)
    exact ⟨piece, hpiece, hwhite, htext⟩

/-- **Tidying is done after one pass.**  Another pass over the tidied text changes only what became
of blanks that met no region of the first pass.  What became of the others, which is what they were,
or nothing, or a single blank, is left alone when it is tidied again; and when the whole source has
been tidied, nothing is left to do. -/
theorem tidy_settles (h : tokenize source = .ok tokens) (regions : List Span) :
    ∃ edits out, layoutEdits source regions = .ok edits ∧ tidy source regions = .ok out ∧
      (∀ regions', ∃ again, layoutEdits out regions' = .ok again ∧
        ∀ e ∈ again, ∃ span piece, (span, piece) ∈ tokens.flatMap Token.placedTrivia ∧
          piece.isWhitespace = true ∧ Layout.touchesAny span regions = false ∧
          e.span = displacedSpan edits span) ∧
      (∀ span piece, (span, piece) ∈ tokens.flatMap Token.placedTrivia →
        piece.isWhitespace = true → Layout.touchesAny span regions = true →
          (∃ text, extract? out (displaced edits span.start) (displaced edits span.stop) =
              some text ∧ (text = piece.text ∨ text = "" ∨ text = " ")) ∧
            layoutEdits out [displacedSpan edits span] = .ok []) ∧
      (regions = [⟨0, source.utf8ByteSize⟩] → layoutEdits out [⟨0, out.utf8ByteSize⟩] = .ok []) := by
  obtain ⟨out, after, htidy, hafter, hout, hruns⟩ := exists_tidied h regions
  have hspaced := spaced_runs true source.toList
  -- the second pass goes over the tidied runs, since those are the runs of the tidied text
  have hagain : ∀ regions', layoutEdits out regions' =
      .ok ((places none 0 (tidiedRuns regions (places none 0 (runs true source.toList)))).filterMap
        (Place.edit? regions')) := by
    intro regions'
    rw [layoutEdits_eq hafter, hruns]
  refine ⟨_, out, layoutEdits_eq h regions, htidy, fun regions' => ⟨_, hagain regions', ?_⟩, ?_, ?_⟩
  · intro e he
    obtain ⟨-, A, p, B, hplaces, hblank, huntouched, hkept, hstart, hstop⟩ :=
      exists_untouched_of_mem hspaced he
    obtain ⟨piece, hpiece, hwhite, -⟩ := (exists_place_iff h).mpr ⟨A, p, B, hplaces, hblank, rfl, rfl⟩
    refine ⟨p.span, piece, hpiece, hwhite, huntouched, ?_⟩
    rw [displacedSpan_edits regions hspaced hplaces, hkept, ← hstart, ← hstop]
  · intro span piece hpiece hwhite htouches
    obtain ⟨A, p, B, hplaces, hblank, rfl, hrun⟩ :=
      (exists_place_iff h).mp ⟨piece, hpiece, hwhite, rfl⟩
    have himage := displacedSpan_edits regions hspaced hplaces
    constructor
    · have himage' := Span.mk.inj himage
      refine ⟨String.ofList (p.result regions), ?_, ?_⟩
      · rw [himage'.1, himage'.2, extract?, hout, hplaces, List.map_append, List.map_cons,
          List.flatten_append, List.flatten_cons, slice?_append]
        rfl
      · rw [Place.result]
        cases hchange : p.change? regions with
        | none => exact .inl (by rw [Option.getD_none, hrun, String.ofList_toList])
        | some new =>
          rcases (cases_of_change? hchange).2.2.2 with rfl | rfl
          · exact .inr (.inl rfl)
          · exact .inr (.inr rfl)
    · rw [hagain, himage]
      congr 1
      refine List.eq_nil_iff_forall_not_mem.mpr fun e he => ?_
      obtain ⟨hmeets, A', q, B', hplaces', hblank', huntouched, hkept, hstart, hstop⟩ :=
        exists_untouched_of_mem hspaced he
      -- an edit belongs to a place that met no region, and what stands there keeps off this one
      have hne : p ≠ q := by
        rintro rfl
        rw [htouches] at huntouched
        cases huntouched
      have hapart := tidied_apart regions hspaced hplaces hplaces' hblank hblank' hne
      rw [hkept] at hapart
      simp only [Layout.touchesAny, List.any_cons, List.any_nil, Bool.or_false, Bool.and_eq_true,
        decide_eq_true_eq] at hmeets
      omega
  · rintro rfl
    rw [hagain]
    congr 1
    refine List.eq_nil_iff_forall_not_mem.mpr fun e he => ?_
    obtain ⟨-, A, p, B, hplaces, -, huntouched, -⟩ := exists_untouched_of_mem hspaced he
    -- no place is left that met no region
    have hsize : source.utf8ByteSize = byteLength (A.map Place.run).flatten +
        byteLength ((p :: B).map Place.run).flatten := by
      rw [← byteLength_append, ← List.flatten_append, ← List.map_append, ← hplaces,
        map_run_places, (lexed_of_tokenize h).flatten_runs, byteLength_toList]
    have hwhole : Layout.touchesAny p.span [⟨0, source.utf8ByteSize⟩] = true := by
      simp [Layout.touchesAny, Place.span, start_of_places hplaces, hsize]
    rw [hwhole] at huntouched
    cases huntouched

/-- Where only a part has been tidied, the rest is what another pass changes. -/
theorem tidy_settles_call :
    (tokenize "f( a,  b ) ;").toOption.isSome = true ∧
    ∃ edits out again, layoutEdits "f( a,  b ) ;" [⟨2, 5⟩] = .ok edits ∧
      edits = [⟨⟨2, 3⟩, ""⟩, ⟨⟨5, 7⟩, " "⟩] ∧ tidy "f( a,  b ) ;" [⟨2, 5⟩] = .ok out ∧
      out = "f(a, b ) ;" ∧ layoutEdits out [⟨0, 10⟩] = .ok again ∧ again = [⟨⟨6, 7⟩, ""⟩] ∧
      ∃ span, Layout.touchesAny span [⟨2, 5⟩] = false ∧ ⟨6, 7⟩ = displacedSpan edits span := by
  have hok : (tokenize "f( a,  b ) ;").toOption.isSome = true := by decide +kernel
  have hedits : (layoutEdits "f( a,  b ) ;" [⟨2, 5⟩]).toOption =
      some [⟨⟨2, 3⟩, ""⟩, ⟨⟨5, 7⟩, " "⟩] := by
    decide +kernel
  have hout : (tidy "f( a,  b ) ;" [⟨2, 5⟩]).toOption = some "f(a, b ) ;" := by decide +kernel
  have hrest : (layoutEdits "f(a, b ) ;" [⟨0, 10⟩]).toOption = some [⟨⟨6, 7⟩, ""⟩] := by
    decide +kernel
  cases h : tokenize "f( a,  b ) ;" with
  | error e =>
    rw [h] at hok
    cases hok
  | ok tokens =>
    obtain ⟨edits, out, hfirst, htidy, hagain, -⟩ := tidy_settles h [⟨2, 5⟩]
    obtain ⟨again, hlater, hblanks⟩ := hagain [⟨0, 10⟩]
    rw [hfirst] at hedits
    rw [htidy] at hout
    obtain rfl := Option.some.inj hout
    rw [hlater] at hrest
    obtain rfl := Option.some.inj hrest
    obtain ⟨span, piece, -, -, huntouched, hspan⟩ := hblanks _ List.mem_cons_self
    exact ⟨rfl, edits, _, _, hfirst, Option.some.inj hedits, htidy, rfl, hlater, rfl, span,
      huntouched, hspan⟩

end CodeMend
