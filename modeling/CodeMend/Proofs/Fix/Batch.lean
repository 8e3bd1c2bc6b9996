import CodeMend.Fix.Batch
import CodeMend.Proofs.Fix.Execution

/-!
# CodeMend — fixes go in whole or not at all

A batch works out every fix by itself and then takes the fixes one after the other.  The edits it
has taken never overlap, so the batch is accepted by every document.

* **`Batch.Judged`** — which fixes a batch may take, and why it drops the others.
* **`Batch.Ledger.edits`** — the edits of all fixes that went in, for one document.
* **`Batch.Reflects.consider`**, **`Batch.reflects_of_foldlM`** — what one fix, and then a whole
  batch, keeps of the record of accepted edits.
* **`fixAll_takes_fixes_whole`** — the result of a batch.
-/

namespace CodeMend

/-- The edits of one document among the changes of a fix. -/
def PlanOutcome.editsOf (o : PlanOutcome) (id : DocumentId) : List TextEdit :=
  o.documents.flatMap fun c => if c.document = id then c.edits else []

/-- Some edit of one outcome overlaps an edit of the other in the same document. -/
def PlanOutcome.Overlaps (o o' : PlanOutcome) : Prop :=
  ∃ id, ∃ e ∈ o.editsOf id, ∃ e' ∈ o'.editsOf id, e.span.overlaps e'.span = true

namespace PlanOutcome

variable {o : PlanOutcome} {id : DocumentId}

theorem mem_editsOf {e : TextEdit} :
    e ∈ o.editsOf id ↔ ∃ c ∈ o.documents, c.document = id ∧ e ∈ c.edits := by
  unfold editsOf
  rw [List.mem_flatMap]
  constructor
  · rintro ⟨c, hc, he⟩
    split at he
    · exact ⟨c, hc, ‹_›, he⟩
    · cases he
  · rintro ⟨c, hc, hid, he⟩
    exact ⟨c, hc, by rwa [if_pos hid]⟩

theorem editsOf_eq_nil (h : ∀ c ∈ o.documents, c.document ≠ id) : o.editsOf id = [] := by
  refine List.eq_nil_iff_forall_not_mem.mpr fun e he => ?_
  obtain ⟨c, hc, hid, -⟩ := mem_editsOf.mp he
  exact h c hc hid

/-- A document with a change has the edits of that change and no others. -/
theorem editsOf_eq (hdistinct : o.documents.Pairwise fun a b => a.document < b.document)
    {c : DocumentChange} (hc : c ∈ o.documents) : o.editsOf c.document = c.edits := by
  unfold editsOf
  generalize o.documents = documents at hdistinct hc
  induction documents with
  | nil => cases hc
  | cons first rest ih =>
    obtain ⟨hfirst, hrest⟩ := List.pairwise_cons.mp hdistinct
    rw [List.flatMap_cons]
    rcases List.mem_cons.mp hc with rfl | hc
    · have hnil : (rest.flatMap fun c' => if c'.document = c.document then c'.edits else [])
          = [] := by
        refine List.flatMap_eq_nil_iff.mpr fun c' hc' => if_neg ?_
        exact Nat.ne_of_gt (hfirst c' hc')
      rw [if_pos rfl, hnil, List.append_nil]
    · rw [if_neg (Nat.ne_of_lt (hfirst c hc)), List.nil_append]
      exact ih hrest hc

/-- The edits of a fix for one document fit its text and do not overlap. -/
theorem Sound.editsOf {s : Solution} (h : o.Sound s) (id : DocumentId) :
    (∀ d, s.document? id = some d → Fits d.text (o.editsOf id)) ∧ NoOverlaps (o.editsOf id) := by
  by_cases hid : ∃ c ∈ o.documents, c.document = id
  · obtain ⟨c, hc, rfl⟩ := hid
    obtain ⟨d, hd, hsound⟩ := h.changes c hc
    rw [editsOf_eq h.distinct hc]
    refine ⟨fun d' hd' => ?_, hsound.noOverlaps⟩
    obtain rfl := Option.some.inj (hd.symm.trans hd')
    exact hsound.fits
  · have hnil : o.editsOf id = [] := editsOf_eq_nil fun c hc heq => hid ⟨c, hc, heq⟩
    rw [hnil]
    exact ⟨fun _ _ e he => (List.not_mem_nil he).elim, List.Pairwise.nil⟩

end PlanOutcome

namespace Batch

/-! ## What becomes of the fixes

A batch goes through the fixes one by one.  The ledger notes for each of them whether it went in,
and each is judged by what stands in the ledger before it. -/

/-- The fixes of a batch in order, each with its outcome if it went in. -/
abbrev Ledger := List (Finding × Option PlanOutcome)

namespace Ledger

/-- The outcomes that went in. -/
def outcomes (l : Ledger) : List PlanOutcome := l.filterMap Prod.snd

/-- The findings whose fixes went in. -/
def applied (l : Ledger) : List Finding := (l.filter fun entry => entry.2.isSome).map Prod.fst

/-- The findings whose fixes did not. -/
def dropped (l : Ledger) : List Finding := (l.filter fun entry => entry.2.isNone).map Prod.fst

/-- The edits of all fixes that went in, for one document. -/
def edits (l : Ledger) (id : DocumentId) : List TextEdit := l.outcomes.flatMap (·.editsOf id)

end Ledger

/-- A batch takes a fix whose outcome changes something and overlaps no outcome taken before.  It
drops a fix that fails in a way that a batch puts up with, one that changes nothing, and one that
overlaps an outcome taken before. -/
inductive Judged (run : Finding → Analysis PlanOutcome) : Ledger → Prop where
  | nil : Judged run []
  | failed {l : Ledger} {f : Finding} {e : AnalysisError} (h : Judged run l)
      (hrun : run f = .error e) (hdropped : isDropped e = true) : Judged run (l ++ [(f, none)])
  | unchanged {l : Ledger} {f : Finding} {o : PlanOutcome} (h : Judged run l)
      (hrun : run f = .ok o) (hempty : o.isEmpty = true) : Judged run (l ++ [(f, none)])
  | overlapping {l : Ledger} {f : Finding} {o : PlanOutcome} (h : Judged run l)
      (hrun : run f = .ok o) (hchanges : o.isEmpty = false)
      (hoverlaps : ∃ o' ∈ l.outcomes, o'.Overlaps o) : Judged run (l ++ [(f, none)])
  | taken {l : Ledger} {f : Finding} {o : PlanOutcome} (h : Judged run l)
      (hrun : run f = .ok o) (hchanges : o.isEmpty = false)
      (happart : ∀ o' ∈ l.outcomes, ¬ o'.Overlaps o) : Judged run (l ++ [(f, some o)])

/-- An outcome that went in is that of a fix. -/
theorem Judged.exists_run {run : Finding → Analysis PlanOutcome} {l : Ledger}
    (h : Judged run l) {o : PlanOutcome} (ho : o ∈ l.outcomes) : ∃ f, run f = .ok o := by
  induction h with
  | nil => cases ho
  | failed h hrun hdropped ih => exact ih (by simpa [Ledger.outcomes] using ho)
  | unchanged h hrun hempty ih => exact ih (by simpa [Ledger.outcomes] using ho)
  | overlapping h hrun hchanges hoverlaps ih => exact ih (by simpa [Ledger.outcomes] using ho)
  | @taken l f o' h hrun hchanges happart ih =>
    have hcases : o ∈ l.outcomes ∨ o = o' := by simpa [Ledger.outcomes] using ho
    rcases hcases with ho | rfl
    · exact ih ho
    · exact ⟨f, hrun⟩

/-! ## The record of accepted edits

The code keeps the accepted edits by document.  They say what the ledger says, and this is the
invariant: it holds of the empty batch, and judging one more fix keeps it. -/

/-- The progress of a batch over a solution says what its ledger says: for every document, the edits
of the fixes taken, which fit the text and do not overlap. -/
structure Reflects (s : Solution) (progress : Progress) (l : Ledger) : Prop where
  applied : progress.applied = l.applied
  dropped : progress.dropped = l.dropped
  ascending : progress.accepted.Ascending
  accepted : ∀ id, progress.accepted.ofDocument id = l.edits id
  known : ∀ entry ∈ progress.accepted, ∃ d, s.document? entry.1 = some d
  fits : ∀ id d, s.document? id = some d → Fits d.text (l.edits id)
  apart : ∀ id, NoOverlaps (l.edits id)

variable {s : Solution} {progress progress' : Progress} {l : Ledger} {f : Finding}
  {o : PlanOutcome}

theorem reflects_nil (s : Solution) : Reflects s {} [] where
  applied := rfl
  dropped := rfl
  ascending := .nil
  accepted _ := rfl
  known _ h := nomatch h
  fits _ _ _ _ h := nomatch h
  apart _ := .nil

/-- A fix that is dropped leaves the accepted edits alone. -/
theorem Reflects.drop (h : Reflects s progress l) :
    Reflects s { progress with dropped := progress.dropped ++ [f] } (l ++ [(f, none)]) := by
  have houtcomes : Ledger.outcomes (l ++ [(f, none)]) = l.outcomes := by
    simp [Ledger.outcomes]
  have hedits : ∀ id, Ledger.edits (l ++ [(f, none)]) id = l.edits id := by
    intro id
    rw [Ledger.edits, houtcomes]
    rfl
  refine ⟨?_, ?_, h.ascending, fun id => ?_, h.known, fun id d hd => ?_, fun id => ?_⟩
  · simpa [Ledger.applied] using h.applied
  · simpa [Ledger.dropped] using h.dropped
  · rw [hedits]
    exact h.accepted id
  · rw [hedits]
    exact h.fits id d hd
  · rw [hedits]
    exact h.apart id

/-- Some change overlaps an accepted edit exactly when the outcome overlaps one that was taken. -/
theorem Reflects.conflicts_iff (h : Reflects s progress l) :
    conflicts progress.accepted o.documents = true ↔ ∃ o' ∈ l.outcomes, o'.Overlaps o := by
  simp only [conflicts, editsConflict, List.any_eq_true, h.accepted, Ledger.edits,
    List.mem_flatMap]
  constructor
  · rintro ⟨c, hc, e, ⟨o', ho', he⟩, e', he', hoverlaps⟩
    have he'' := PlanOutcome.mem_editsOf.mpr ⟨c, hc, rfl, he'⟩
    exact ⟨o', ho', c.document, e, he, e', he'', hoverlaps⟩
  · rintro ⟨o', ho', id, e, he, e', he', hoverlaps⟩
    obtain ⟨c, hc, rfl, hmem⟩ := PlanOutcome.mem_editsOf.mp he'
    exact ⟨c, hc, e, ⟨o', ho', he⟩, e', hmem, hoverlaps⟩

/-- The edits of an outcome come behind those accepted before, document by document. -/
theorem ofDocument_foldl_append {m : ByDocument TextEdit} (hm : m.Ascending)
    (changes : List DocumentChange) :
    let m' := changes.foldl (fun m c => m.append c.document c.edits) m
    m'.Ascending ∧
      (∀ id, m'.ofDocument id = m.ofDocument id ++
        changes.flatMap fun c => if c.document = id then c.edits else []) ∧
      ∀ entry ∈ m', entry ∈ m ∨ ∃ c ∈ changes, c.document = entry.1 := by
  intro m'
  induction changes generalizing m with
  | nil => exact ⟨hm, fun id => (List.append_nil _).symm, fun entry h => .inl h⟩
  | cons c changes ih =>
    obtain ⟨hascending, hof, hmem⟩ := ih (m := m.append c.document c.edits) hm.append
    refine ⟨hascending, fun id => ?_, fun entry hentry => ?_⟩
    · show (changes.foldl _ (m.append c.document c.edits)).ofDocument id = _
      rw [hof id, ByDocument.ofDocument_append hm, List.flatMap_cons]
      split
      · rw [List.append_assoc]
      · rw [List.nil_append]
    · rcases hmem entry hentry with hentry | ⟨c', hc', hid⟩
      · rcases ByDocument.mem_append hentry with hentry | hid
        · exact .inl hentry
        · exact .inr ⟨c, List.mem_cons_self, hid.symm⟩
      · exact .inr ⟨c', List.mem_cons_of_mem _ hc', hid⟩

/-- A fix whose outcome overlaps none of those taken goes in with all its edits. -/
theorem Reflects.take (h : Reflects s progress l) (ho : o.Sound s)
    (happart : ∀ o' ∈ l.outcomes, ¬ o'.Overlaps o) :
    Reflects s { progress with
      accepted := o.documents.foldl (fun m c => m.append c.document c.edits) progress.accepted
      applied := progress.applied ++ [f] } (l ++ [(f, some o)]) := by
  have hedits : ∀ id, Ledger.edits (l ++ [(f, some o)]) id = l.edits id ++ o.editsOf id := by
    intro id
    simp [Ledger.edits, Ledger.outcomes]
  obtain ⟨hascending, hof, hmem⟩ := ofDocument_foldl_append h.ascending o.documents
  refine ⟨?_, ?_, hascending, fun id => ?_, fun entry hentry => ?_, fun id d hd => ?_, fun id => ?_⟩
  · simpa [Ledger.applied] using h.applied
  · simpa [Ledger.dropped] using h.dropped
  · rw [hedits, ← h.accepted id]
    exact hof id
  · rcases hmem entry hentry with hentry | ⟨c, hc, hid⟩
    · exact h.known entry hentry
    · obtain ⟨d, hd, -⟩ := ho.changes c hc
      exact ⟨d, hid ▸ hd⟩
  · rw [hedits]
    intro e he
    rcases List.mem_append.mp he with he | he
    · exact h.fits id d hd e he
    · exact (ho.editsOf id).1 d hd e he
  · rw [hedits]
    refine List.pairwise_append.mpr ⟨h.apart id, (ho.editsOf id).2, fun e he e' he' => ?_⟩
    obtain ⟨o', ho', he⟩ := List.mem_flatMap.mp he
    -- An edit taken before comes from an outcome that does not overlap this one.
    by_contra hoverlaps
    exact happart o' ho' ⟨id, e, he, e', he', by simpa using hoverlaps⟩

/-- **One fix.**  It is judged by the fixes taken before it, and taken whole or dropped whole. -/
theorem Reflects.consider {run : Finding → Analysis PlanOutcome} (h : Reflects s progress l)
    (hjudged : Judged run l) (hsound : ∀ o, run f = .ok o → o.Sound s)
    (hstep : consider progress f (run f) = .ok progress') :
    ∃ verdict, Judged run (l ++ [(f, verdict)]) ∧ Reflects s progress' (l ++ [(f, verdict)]) := by
  cases hrun : run f with
  | error e =>
    rw [hrun] at hstep
    simp only [Batch.consider] at hstep
    split at hstep
    -- Dropped because it changes nothing, or because it overlaps what was taken.
    · rename_i hdropped
      cases hstep
      exact ⟨none, hjudged.failed hrun hdropped, h.drop⟩
    · cases hstep
  | ok o =>
    rw [hrun] at hstep
    simp only [Batch.consider] at hstep
    split at hstep
    · rename_i hdrop
      cases hstep
      refine ⟨none, ?_, h.drop⟩
      cases hempty : o.isEmpty with
      | true => exact hjudged.unchanged hrun hempty
      | false =>
        rw [hempty, Bool.false_or] at hdrop
        exact hjudged.overlapping hrun hempty (h.conflicts_iff.mp hdrop)
    · rename_i htake
      cases hstep
      simp only [Bool.or_eq_true, not_or, Bool.not_eq_true] at htake
      have happart : ∀ o' ∈ l.outcomes, ¬ o'.Overlaps o := by
        intro o' ho' hoverlaps
        have hconflicts := h.conflicts_iff.mpr ⟨o', ho', hoverlaps⟩
        rw [htake.2] at hconflicts
        cases hconflicts
      exact ⟨some o, hjudged.taken hrun htake.1 happart, h.take (hsound o hrun) happart⟩

/-- **All fixes of a batch.** -/
theorem reflects_of_foldlM {run : Finding → Analysis PlanOutcome} {fixes : List Finding}
    (hsound : ∀ f o, run f = .ok o → o.Sound s) (h : Reflects s progress l)
    (hjudged : Judged run l)
    (hfold : fixes.foldlM (fun s f => Batch.consider s f (run f)) progress = .ok progress') :
    ∃ ledger, ledger.map Prod.fst = l.map Prod.fst ++ fixes ∧ Judged run ledger ∧
      Reflects s progress' ledger := by
  induction fixes generalizing progress l with
  | nil =>
    cases hfold
    exact ⟨l, (List.append_nil _).symm, hjudged, h⟩
  | cons f fixes ih =>
    rw [List.foldlM_cons] at hfold
    obtain ⟨next, hnext, hrest⟩ := exists_of_bind_eq_ok hfold
    obtain ⟨verdict, hjudged', h'⟩ := h.consider hjudged (hsound f) hnext
    obtain ⟨ledger, hfst, hresult⟩ := ih h' hjudged' hrest
    refine ⟨ledger, ?_, hresult⟩
    rw [hfst, List.map_append, List.append_assoc]
    rfl

/-- A batch in which every failure is one that it puts up with gets to its end. -/
theorem exists_of_foldlM {run : Finding → Analysis PlanOutcome} {fixes : List Finding}
    (hfailures : ∀ f ∈ fixes, ∀ e, run f = .error e → isDropped e = true) (progress : Progress) :
    ∃ progress', fixes.foldlM (fun s f => Batch.consider s f (run f)) progress = .ok progress' := by
  induction fixes generalizing progress with
  | nil => exact ⟨progress, rfl⟩
  | cons f fixes ih =>
    have hstep : ∃ next, Batch.consider progress f (run f) = .ok next := by
      cases hrun : run f with
      | error e =>
        have hdropped := hfailures f List.mem_cons_self e hrun
        exact ⟨_, if_pos hdropped⟩
      | ok o =>
        simp only [Batch.consider]
        split
        · exact ⟨_, rfl⟩
        · exact ⟨_, rfl⟩
    obtain ⟨next, hnext⟩ := hstep
    obtain ⟨progress', hrest⟩ :=
      ih (fun f hf => hfailures f (List.mem_cons_of_mem _ hf)) next
    refine ⟨progress', ?_⟩
    rw [List.foldlM_cons, hnext]
    exact hrest

/-! ## Making the edits

The accepted edits of a document do not overlap, so they are accepted by the document all at once.
A text that does not parse any more is another matter, and the batch fails with that error. -/

/-- **The accepted edits of every document are accepted by the document.** -/
theorem Reflects.applyEdits (h : Reflects s progress l) {id : DocumentId} {d : Document}
    (hd : s.document? id = some d) : ∃ walk out, walk.Perm (l.edits id) ∧
      Splices 0 d.text.toList walk out ∧
      CodeMend.applyEdits d.text (l.edits id) = .ok (String.ofList out) :=
  applyEdits_of_noOverlaps (h.fits id d hd) (h.apart id)

theorem Reflects.edits_of_mem (h : Reflects s progress l) {id : DocumentId}
    {edits : List TextEdit} (hmem : (id, edits) ∈ progress.accepted) : edits = l.edits id :=
  (h.ascending.ofDocument_of_mem hmem).symm.trans (h.accepted id)

/-- A new text that does not parse is no failure of an edit. -/
theorem ne_edit_of_withText {s : Solution} {id : DocumentId} {text : String} (e : EditError) :
    s.withText id text ≠ .error (.edit e) := by
  intro h
  rcases cases_of_bind_eq_error h with h | ⟨d, -, h⟩
  · unfold Solution.document at h
    split at h <;> cases h
  rcases cases_of_bind_eq_error h with h | ⟨new, -, h⟩
  · unfold Document.parse at h
    split at h <;> cases h
  · cases h

/-- Every document accepts the accepted edits. -/
theorem Reflects.exists_text (h : Reflects s progress l) {entry : DocumentId × List TextEdit}
    (hmem : entry ∈ progress.accepted) : ∃ d text, s.document? entry.1 = some d ∧
      CodeMend.applyEdits d.text entry.2 = .ok text := by
  obtain ⟨d, hd⟩ := h.known _ hmem
  obtain ⟨walk, out, -, -, happly⟩ := h.applyEdits hd
  rw [← h.edits_of_mem hmem] at happly
  exact ⟨d, _, hd, happly⟩

/-- **Making the accepted edits does not fail for the edits.** -/
theorem Reflects.commit_ne_edit (h : Reflects s progress l) (e : EditError) :
    commit s progress.accepted ≠ .error (.edit e) := by
  intro hcommit
  rcases cases_of_bind_eq_error hcommit with hchanges | ⟨changes, -, hrest⟩
  · obtain ⟨⟨id, edits⟩, hmem, herror⟩ := exists_of_mapM_eq_error hchanges
    obtain ⟨d, text, hd, happly⟩ := h.exists_text hmem
    have hdocument : s.document id = .ok d := by
      unfold Solution.document
      rw [hd]
    rcases cases_of_bind_eq_error herror with herror | ⟨d', hd', herror⟩
    · rw [hdocument] at herror
      cases herror
    obtain rfl := Except.ok.inj (hdocument.symm.trans hd')
    rcases cases_of_bind_eq_error herror with herror | ⟨text', -, herror⟩
    · rw [happly] at herror
      cases herror
    · split at herror <;> cases herror
  · rcases cases_of_bind_eq_error hrest with hsolution | ⟨solution, -, hrest⟩
    · obtain ⟨s', c, -, herror⟩ := exists_of_foldlM_eq_error hsolution
      exact ne_edit_of_withText e herror
    · cases hrest

/-- What the change of a document says when a batch makes it. -/
theorem exists_of_documentChange {id : DocumentId} {edits : List TextEdit} {c : DocumentChange}
    (h : documentChange s id edits = .ok c) : ∃ d, s.document? id = some d ∧ c.document = id ∧
      c.before = d.text ∧ CodeMend.applyEdits d.text edits = .ok c.after ∧
      c.edits.Perm edits := by
  obtain ⟨d, hd, hrest⟩ := exists_of_bind_eq_ok h
  obtain ⟨text, htext, hrest⟩ := exists_of_bind_eq_ok hrest
  split at hrest
  · cases hrest
  · cases hrest
    exact ⟨d, Solution.document?_of_document hd, rfl, rfl, eq_ok_of_mapError htext,
      sortStable_perm _ _⟩

/-- **The solution after a batch.**  The text of every document is the one it had with all edits of
the ledger, and there is a change for the documents that have edits, and for no others. -/
theorem Reflects.commit (h : Reflects s progress l) {solution : Solution}
    {changes : List DocumentChange}
    (hcommit : Batch.commit s progress.accepted = .ok (solution, changes)) :
    (∀ c ∈ changes, ∃ d, s.document? c.document = some d ∧ c.before = d.text ∧
      CodeMend.applyEdits d.text (l.edits c.document) = .ok c.after ∧
      c.edits.Perm (l.edits c.document)) ∧
    ∀ id d, s.document? id = some d → ∃ d' walk, solution.document? id = some d' ∧
      d'.path = d.path ∧ walk.Perm (l.edits id) ∧
      Splices 0 d.text.toList walk d'.text.toList ∧
      CodeMend.applyEdits d.text (l.edits id) = .ok d'.text := by
  obtain ⟨changes', hchanges, hrest⟩ := exists_of_bind_eq_ok hcommit
  obtain ⟨solution', hsolution, hrest⟩ := exists_of_bind_eq_ok hrest
  cases hrest
  have hpairs := forall₂_of_mapM hchanges
  have hids : progress.accepted.map Prod.fst = changes.map DocumentChange.document := by
    have heqs : List.Forall₂ (· = ·) (progress.accepted.map Prod.fst)
        (changes.map DocumentChange.document) := by
      rw [List.forall₂_map_left_iff, List.forall₂_map_right_iff]
      refine hpairs.imp fun entry c hc => ?_
      obtain ⟨-, -, hid, -⟩ := exists_of_documentChange hc
      exact hid.symm
    rwa [List.forall₂_eq_eq_eq] at heqs
  have hdistinct : changes.Pairwise fun a b => a.document < b.document := by
    have hascending : (changes.map DocumentChange.document).Pairwise (· < ·) := by
      rw [← hids]
      exact List.pairwise_map.mpr h.ascending
    exact List.pairwise_map.mp hascending
  constructor
  · intro c hc
    obtain ⟨⟨id, edits⟩, hentry, hchange⟩ := exists_of_forall₂_right hpairs hc
    obtain ⟨d, hd, rfl, hbefore, happly, hperm⟩ := exists_of_documentChange hchange
    obtain rfl := h.edits_of_mem hentry
    exact ⟨d, hd, hbefore, happly, hperm⟩
  · intro id d hd
    obtain ⟨walk, out, hperm, hwalk, happly⟩ := h.applyEdits hd
    suffices htext : ∃ d', solution.document? id = some d' ∧ d'.path = d.path ∧
        CodeMend.applyEdits d.text (l.edits id) = .ok d'.text by
      obtain ⟨d', hd', hpath, htext⟩ := htext
      rw [happly] at htext
      have hout : out = d'.text.toList := by
        rw [← Except.ok.inj htext, String.toList_ofList]
      rw [hout] at hwalk happly
      rw [String.ofList_toList] at happly
      exact ⟨d', walk, hd', hpath, hperm, hwalk, happly⟩
    by_cases hchanged : ∃ c ∈ changes, c.document = id
    · obtain ⟨c, hc, rfl⟩ := hchanged
      obtain ⟨⟨id, edits⟩, hentry, hchange⟩ := exists_of_forall₂_right hpairs hc
      obtain ⟨d₁, hd₁, rfl, -, hafter, -⟩ := exists_of_documentChange hchange
      obtain ⟨d₂, d', hd₂, hd', hpath, htext⟩ :=
        Solution.document?_withChanges_of_mem hdistinct hc hsolution
      obtain rfl := Option.some.inj (hd.symm.trans hd₁)
      obtain rfl := Option.some.inj (hd.symm.trans hd₂)
      obtain rfl := h.edits_of_mem hentry
      exact ⟨d', hd', hpath, htext.symm ▸ hafter⟩
    · -- a document without a change has no edits
      have hne : ∀ c ∈ changes, c.document ≠ id := fun c hc heq => hchanged ⟨c, hc, heq⟩
      have hnil : l.edits id = [] := by
        rw [← h.accepted id]
        refine ByDocument.ofDocument_eq_nil fun entry hentry heq => ?_
        have hmem : entry.1 ∈ changes.map DocumentChange.document := by
          rw [← hids]
          exact List.mem_map_of_mem hentry
        obtain ⟨c, hc, hid⟩ := List.mem_map.mp hmem
        exact hne c hc (hid.trans heq)
      have hsame := Solution.document?_withChanges_of_forall_ne hne hsolution
      refine ⟨d, hsame.trans hd, rfl, ?_⟩
      rw [hnil, applyEdits_of_splices (.nil 0 d.text.toList) .nil, String.ofList_toList]

end Batch

/-! ## The result of a batch

From the first fix to the last, the invariant leads to the ledger of the whole batch. -/

open Batch in
/-- **Fixes go in whole or not at all, and their edits never fail to go in.**

When every fix that fails does so in a way that a batch puts up with, every document accepts the
edits of the fixes taken.  In the result, every document has its text with the edits of all fixes
taken and nothing else changed; the fixes taken and dropped are those of the scope in order, and one
that changes something is dropped only when it overlaps one that was taken before. -/
theorem fixAll_takes_fixes_whole (p : Program) (findings : List Finding) (scope : FixScope)
    (cancelled : Bool) {offered : List Finding}
    (hoffered : (findings.filterM fun f => f.offersFix p.solution) = .ok offered) :
    let fixes := offered.filter scope.includes
    let run := fun f => Finding.runFix f p cancelled
    ((∀ f ∈ fixes, ∀ e, run f = .error e → isDropped e = true) →
      ∃ progress, fixes.foldlM (fun s f => consider s f (run f)) {} = .ok progress ∧
        (∀ entry ∈ progress.accepted, ∃ d text, p.solution.document? entry.1 = some d ∧
          applyEdits d.text entry.2 = .ok text) ∧
        ∀ e, commit p.solution progress.accepted ≠ .error (.edit e)) ∧
    ∀ o, fixAll p findings scope cancelled = .ok o → ∃ ledger : Ledger,
      Judged run ledger ∧ ledger.map Prod.fst = fixes ∧
      o.applied = ledger.applied ∧ o.dropped = ledger.dropped ∧
      (∀ r ∈ ledger.outcomes, ∀ c ∈ r.documents,
        ∃ d, p.solution.document? c.document = some d ∧ c.Sound d) ∧
      (∀ c ∈ o.documents, ∃ d, p.solution.document? c.document = some d ∧ c.before = d.text ∧
        applyEdits d.text (ledger.edits c.document) = .ok c.after ∧
        c.edits.Perm (ledger.edits c.document)) ∧
      ∀ id d, p.solution.document? id = some d → ∃ d' walk,
        o.solution.document? id = some d' ∧ d'.path = d.path ∧ walk.Perm (ledger.edits id) ∧
        Splices 0 d.text.toList walk d'.text.toList ∧
        applyEdits d.text (ledger.edits id) = .ok d'.text := by
  intro fixes run
  have hsound : ∀ f o, run f = .ok o → o.Sound p.solution := fun f o => Finding.sound_of_runFix
  -- The ledger that the loop keeps reflects what was accepted, and the texts follow from it.
  constructor
  · intro hfailures
    obtain ⟨progress, hfold⟩ := exists_of_foldlM hfailures {}
    obtain ⟨ledger, -, -, hreflects⟩ :=
      reflects_of_foldlM hsound (reflects_nil p.solution) .nil hfold
    exact ⟨progress, hfold, fun entry hentry => hreflects.exists_text hentry,
      hreflects.commit_ne_edit⟩
  · intro o ho
    obtain ⟨offered', hoffered', hrest⟩ := exists_of_bind_eq_ok ho
    obtain rfl := Except.ok.inj (hoffered.symm.trans hoffered')
    obtain ⟨progress, hfold, hrest⟩ := exists_of_bind_eq_ok hrest
    split at hrest
    · cases hrest
    obtain ⟨⟨solution, documents⟩, hcommit, hrest⟩ := exists_of_bind_eq_ok hrest
    cases hrest
    obtain ⟨ledger, hfst, hjudged, hreflects⟩ :=
      reflects_of_foldlM hsound (reflects_nil p.solution) .nil hfold
    obtain ⟨hdocuments, htexts⟩ := hreflects.commit hcommit
    refine ⟨ledger, hjudged, hfst, hreflects.applied, hreflects.dropped, ?_, hdocuments, htexts⟩
    intro r hr c hc
    obtain ⟨f, hf⟩ := hjudged.exists_run hr
    exact (hsound f r hf).changes c hc

/-! ### A fix that is asked for twice

The same fix can be asked for twice.  The second time it overlaps itself, and is dropped. -/

/-- A program with a method that does not need to be passed a reference. -/
def bystander : Program := .ofSolution (.ofFiles [("A.cs", "class C{void M(ref int a){}}")])

/-- The finding about the parameter of the method. -/
def bystanderFinding : Finding := ⟨.unneededRef, 0, ⟨15, 18⟩, ["a"]⟩

/-- The fix goes in once, and then it overlaps itself. -/
theorem fixAll_takes_fixes_whole_twice :
    let findings := [bystanderFinding, bystanderFinding]
    (findings.filterM fun f => f.offersFix bystander.solution) = .ok findings ∧
    ∃ o ledger, fixAll bystander findings (.rules Rule.all) false = .ok o ∧
      Batch.Judged (fun f => f.runFix bystander false) ledger ∧ ledger.map Prod.fst = findings ∧
      ledger.applied = [bystanderFinding] ∧ ledger.dropped = [bystanderFinding] ∧
      (o.solution.document? 0).map Document.text = some "class C{void M(int a){}}" := by
  intro findings
  have hoffered : (findings.filterM fun f => f.offersFix bystander.solution) = .ok findings := rfl
  have hrun : (fixAll bystander findings (.rules Rule.all) false).toOption.map
      (fun o => (o.applied, o.dropped, (o.solution.document? 0).map Document.text)) =
        some ([bystanderFinding], [bystanderFinding], some "class C{void M(int a){}}") := by
    decide +kernel
  cases ho : fixAll bystander findings (.rules Rule.all) false with
  | error e =>
    rw [ho] at hrun
    cases hrun
  | ok o =>
    rw [ho] at hrun
    obtain ⟨happlied, hdropped, htext⟩ : o.applied = [bystanderFinding] ∧
        o.dropped = [bystanderFinding] ∧ _ := by simpa [Except.toOption] using hrun
    obtain ⟨ledger, hjudged, hfst, happlied', hdropped', -⟩ :=
      (fixAll_takes_fixes_whole bystander findings (.rules Rule.all) false hoffered).2 o ho
    exact ⟨hoffered, o, ledger, rfl, hjudged, hfst, happlied'.symm.trans happlied,
      hdropped'.symm.trans hdropped, Option.map_eq_some_iff.mpr htext⟩

end CodeMend
