import CodeMend.Proofs.Flow.Occurrences
import CodeMend.Proofs.Tree.Chains

/-!
# CodeMend — how a method is left

Executions of a body that remember by which return statement the body is left, and what has happened
when that statement is reached.  On the way out the last blocks of try statements still run; nothing
else does.

* **`Below.mem_descendants`** — a node under another one is listed among its descendants.
* **`Own`** — a node of a body that is not inside of a function of its own there.
* **`closed_own`** — executions of the body stay among those nodes.
* **`Own.kind_of_ancestor`** — no function stands above such a node, up to the body.
* **`Departs`** — a job is gone through, and perhaps left by a return statement.
* **`Runs.departs`** — every execution is one of these.
* **`Departs.statement_stays`**, **`Departs.departs_of_left`** — by which statements a body is left.
* **`Departs.kind_of_last`** — behind a return statement the end of a body is not reached.
* **`Departs.behind`** — what happens behind the return statement.
-/

namespace CodeMend.Flow

open Tree Shape

/-! ## The nodes under a body

What stands under a node can be said by a chain of parents or by a list of descendants.  Here the
two are shown to be the same. -/

section Under

variable {t : Tree} {body n m : NodeId}

/-- Nodes lead up from a node to the one that it stands under. -/
theorem Below.exists_rises (h : Below t n m) : ∃ ns, Rises t m ns n := by
  induction h with
  | here => exact ⟨[], .here n⟩
  | @child p c _ hc ih =>
    obtain ⟨ns, h⟩ := ih
    exact ⟨p :: ns, .up hc h⟩

/-- **The descendants of a node are all nodes under it.** -/
theorem Below.mem_descendants (hp : Parsed t) (h : Below t n m) (hne : m ≠ n) :
    m ∈ t.descendants n := by
  obtain ⟨c, hc, -⟩ := h.eq_or_child.resolve_left hne
  obtain ⟨ns, hrises⟩ := h.exists_rises
  exact hrises.mem_descendants hp (hp.wellFormed.lt_of_mem hc).1 hne

/-! ## What belongs to a body itself

A return statement inside of a lambda does not leave the method around it.  What belongs to a body
itself is what stands under it without such a function in between. -/

/-- A node is the body or stands under it, and is not inside of a function that stands in it. -/
inductive Own (t : Tree) (body : NodeId) : NodeId → Prop where
  | here : Own t body body
  | child {n c} : Own t body n → t.kind n ∉ functionKinds → c ∈ t.childNodes n → Own t body c

theorem Own.toBelow (h : Own t body n) : Below t body n := by
  induction h with
  | here => exact .here
  | child _ _ hc ih => exact .child ih hc

/-- **Executions stay among what belongs to the body itself.** -/
theorem closed_own (hp : Parsed t) : Closed t functionKinds (Own t body) where
  stops_subset := List.Subset.refl _
  child := .child
  sections := by
    intro n governing sections hk hn s hs
    obtain ⟨e, sections', hn', hkinds⟩ := hp.childNodes_switch hk
    obtain ⟨-, rfl⟩ := List.cons.inj (hn.symm.trans hn')
    rw [hkinds s hs]
    decide

/-- **No function stands between the body and what belongs to it itself.** -/
theorem Own.kind_of_ancestor (hp : Parsed t) (h : Own t body n) (hne : n ≠ body) (fuel : Nat) :
    ∀ a ∈ (t.ancestorsFrom fuel n).takeWhile (· != body), t.kind a ∉ functionKinds := by
  induction h generalizing fuel with
  | here => exact absurd rfl hne
  | @child n c _ hk hc ih =>
    intro a ha
    cases fuel with
    | zero => cases ha
    | succ fuel =>
      rw [ancestorsFrom, hp.wellFormed.parent?_eq hc, List.takeWhile_cons] at ha
      split at ha
      next hnb =>
        rcases List.mem_cons.mp ha with rfl | ha
        · exact hk
        · exact ih (by simpa using hnb) fuel a ha
      next => cases ha

end Under

/-! ## Executions with their departure

The relation of executions is refined by the statement through which the method is left and by what
happened before.  Every execution has such a refinement, so nothing is lost. -/

/-- A return statement by which a method is left, and what has happened in front of its jump. -/
structure Departure where
  statement : NodeId
  before : Trace

/-- The departure, with something that has happened before. -/
def Departure.after (front : Trace) (d : Departure) : Departure :=
  { d with before := front ++ d.before }

/-- The part is a return statement. -/
def Part.returns (t : Tree) : Part → Bool
  | .statement n => t.kind n == .returnStatement
  | _ => false

/-- A job is gone through with a trace and an exit, and with the departure if it is left by a return
statement.  A local function runs when it is called, not where it stands. -/
inductive Departs (b : Binder) : Job → Trace → Exit → Option Departure → Prop where
  | cut {j} : Departs b j [] .cut none
  | nothing {c} : Departs b (.each []) [] (.done c) none
  | next {p ps t₁ t₂ c ex d} : Departs b (.one p) t₁ (.done c) none → Departs b (.each ps) t₂ ex d →
      Departs b (.each (p :: ps)) (t₁ ++ t₂) ex (d.map (.after t₁))
  | stop {p ps tr ex d} : Departs b (.one p) tr ex d → ex.isDone = false →
      Departs b (.each (p :: ps)) tr ex d
  | way {p ps events tr ex' ex d} : Way b p ps events ex → Departs b (.each ps) tr ex' d →
      (p.returns b.tree = true → ex'.isDone = false) →
      Departs b (.one p) (tr ++ ex'.emits events) (ex'.andThen ex) d
  | leave {n tr c} : b.tree.kind n = .returnStatement →
      Departs b (.each (firstPart b.tree n)) tr (.done c) none →
      Departs b (.one (.statement n)) tr .left (some ⟨n, tr⟩)
  | localFunction {n c} : b.tree.kind n = .localFunctionStatement →
      Departs b (.one (.statement n)) [] (.done c) none
  | test {n value tr ex d} : Departs b (.one (.expr n)) tr ex d →
      (∀ c, ex = .done c → c = value) → Departs b (.one (.test n value)) tr ex d
  | round {body tr ex d} : Departs b (.one (.statement body)) tr ex d →
      Departs b (.one (.round body)) tr ex.afterRound d
  | breakable {n tr ex d} : Departs b (.one (.inside n)) tr ex d →
      Departs b (.one (.breakable n)) tr ex.afterBreak d
  | handle {n body t₁ t₂ ex d} : tryBlock? b.tree n = some body →
      Departs b (.one (.statement body)) t₁ .cut none → Departs b (.one (.handlers n)) t₂ ex d →
      Departs b (.one (.guarded n)) (t₁ ++ t₂) ex (d.map (.after t₁))
  /-- The last block runs behind the departure.  When it comes to its end, the departure goes on. -/
  | cleanup {n final t₁ t₂ ex' ex d d'} : b.tree.kind n = .tryStatement →
      finallyBlock? b.tree n = some final → Departs b (.one (.guarded n)) t₁ ex d →
      Departs b (.one (.statement final)) t₂ ex' d' →
      Departs b (.one (.statement n)) (t₁ ++ t₂) (ex'.andThen ex)
        (if ex'.isDone then d else d'.map (.after t₁))

variable {b : Binder} {stops : List NodeKind} {P : NodeId → Prop} {j : Job} {tr : Trace} {ex : Exit}
  {d : Option Departure} {r : Departure} {n : NodeId} {v : VariableId}

/-- A return statement leaves the method. -/
theorem Departs.left_of_departure (h : Departs b j tr ex d) (hd : d.isSome = true) :
    ex = .left := by
  induction h with
  | cut | nothing | localFunction => cases hd
  | leave => rfl
  | next _ _ _ ih => exact ih (by simpa using hd)
  | stop _ _ ih | test _ _ ih => exact ih hd
  | way _ _ _ ih =>
    obtain rfl := ih hd
    rfl
  | round _ ih =>
    obtain rfl := ih hd
    rfl
  | breakable _ ih =>
    obtain rfl := ih hd
    rfl
  | handle _ _ _ _ ih => exact ih (by simpa using hd)
  | @cleanup n final t₁ t₂ ex' ex d d' _ _ _ _ ih ih' =>
    cases ex' with
    | done c => exact ih hd
    | left => rfl
    | _ => exact ih' (by simpa [Exit.isDone] using hd)

theorem Departs.none_of_done {c : Bool} (h : Departs b j tr (.done c) d) : d = none := by
  cases hd : d with
  | none => rfl
  | some r => exact nomatch h.left_of_departure (by rw [hd]; rfl)

theorem Departs.none_of_cut (h : Departs b j tr .cut d) : d = none := by
  cases hd : d with
  | none => rfl
  | some r => exact nomatch h.left_of_departure (by rw [hd]; rfl)

/-- A way on which control stops. -/
theorem Departs.stopped {p : Part} {ps : List Part} {events : Trace} {ex' : Exit}
    (hway : Way b p ps events ex') (hps : Departs b (.each ps) tr ex d) (hex : ex.isDone = false) :
    Departs b (.one p) tr ex d := by
  rw [← List.append_nil tr]
  cases ex with
  | done _ => cases hex
  | _ => exact .way hway hps fun _ => rfl

/-- **Every execution has its departure.** -/
theorem Runs.departs (h : Runs b j tr ex) : ∃ d, Departs b j tr ex d := by
  induction h with
  | cut => exact ⟨_, .cut⟩
  | none => exact ⟨_, .nothing⟩
  | next _ _ ih₁ ih₂ =>
    obtain ⟨d₁, h₁⟩ := ih₁
    obtain ⟨d₂, h₂⟩ := ih₂
    obtain rfl := h₁.none_of_done
    exact ⟨_, .next h₁ h₂⟩
  | stop _ hex ih =>
    obtain ⟨d, h⟩ := ih
    exact ⟨d, .stop h hex⟩
  | @way p ps events tr ex' ex hway _ ih =>
    obtain ⟨d, h⟩ := ih
    -- Only a return statement that comes to its end departs; its way then jumps out of the method.
    by_cases hreturns : p.returns b.tree = true ∧ ex'.isDone = true
    · obtain ⟨hp, hdone⟩ := hreturns
      cases p with
      | statement n =>
        have hk : b.tree.kind n = .returnStatement := by simpa [Part.returns] using hp
        cases ex' with
        | done c =>
          obtain rfl := h.none_of_done
          cases hway with
          | leave =>
            refine ⟨some ⟨n, tr⟩, ?_⟩
            rw [Exit.emits, List.append_nil]
            exact .leave hk h
          | _ => grind [kind_of_if]
        | _ => cases hdone
      | _ => cases hp
    · exact ⟨d, .way hway h fun hp => by simpa using fun hdone => hreturns ⟨hp, hdone⟩⟩
  | test _ hvalue ih =>
    obtain ⟨d, h⟩ := ih
    exact ⟨d, .test h hvalue⟩
  | round _ ih =>
    obtain ⟨d, h⟩ := ih
    exact ⟨d, .round h⟩
  | breakable _ ih =>
    obtain ⟨d, h⟩ := ih
    exact ⟨d, .breakable h⟩
  | handle hbody _ _ ih₁ ih₂ =>
    obtain ⟨d₁, h₁⟩ := ih₁
    obtain ⟨d₂, h₂⟩ := ih₂
    obtain rfl := h₁.none_of_cut
    exact ⟨_, .handle hbody h₁ h₂⟩
  | cleanup hk hfinal _ _ ih₁ ih₂ =>
    obtain ⟨d₁, h₁⟩ := ih₁
    obtain ⟨d₂, h₂⟩ := ih₂
    exact ⟨_, .cleanup hk hfinal h₁ h₂⟩

/-! ## By which statement a body is left

A departure begins at a return statement and is only passed on by everything around it. -/

/-- A job is at some nodes. -/
def Job.Stays (b : Binder) (stops : List NodeKind) (P : NodeId → Prop) : Job → Prop
  | .one p => p.Stays b stops P
  | .each ps => ∀ p ∈ ps, p.Stays b stops P

namespace Closed

variable (hP : Closed b.tree stops P)

include hP

theorem finallyBlock (h : P n) (hk : b.tree.kind n = .tryStatement) {final : NodeId}
    (hfinal : finallyBlock? b.tree n = some final) : P final := by
  obtain ⟨clause, hclause, hhead⟩ := Option.bind_eq_some_iff.mp hfinal
  have hkind : b.tree.kind clause = .finallyClause := by simpa using List.find?_some hclause
  have hin := hP.child h (hP.enters hk (by decide)) (List.mem_of_find?_eq_some hclause)
  exact hP.child hin (hP.enters hkind (by decide)) (List.mem_of_mem_head? hhead)

end Closed

/-- **The statement by which a body is left** is a return statement among the nodes that executions
stay at. -/
theorem Departs.statement_stays (h : Departs b j tr ex (some r)) (hP : Closed b.tree stops P)
    (hj : j.Stays b stops P) : P r.statement ∧ b.tree.kind r.statement = .returnStatement := by
  generalize hd : some r = d at h
  induction h generalizing r with
  | cut | nothing | localFunction => cases hd
  | leave hk =>
    cases hd
    exact ⟨hj, hk⟩
  | next _ _ _ ih =>
    obtain ⟨r, rfl, rfl⟩ := Option.map_eq_some_iff.mp hd.symm
    exact ih (r := r) (fun p hp => hj p (List.mem_cons_of_mem _ hp)) rfl
  | stop _ _ ih => exact ih (hj _ List.mem_cons_self) hd
  | way hway _ _ ih => exact ih (hway.stays hP hj) hd
  | test _ _ ih | round _ ih | breakable _ ih => exact ih hj hd
  | handle _ _ _ _ ih =>
    obtain ⟨r, rfl, rfl⟩ := Option.map_eq_some_iff.mp hd.symm
    exact ih (r := r) hj rfl
  | cleanup hk hfinal _ _ ih ih' =>
    split at hd
    · exact ih ⟨hj, hP.enters hk (by decide)⟩ hd
    · obtain ⟨r, rfl, rfl⟩ := Option.map_eq_some_iff.mp hd.symm
      exact ih' (r := r) (hP.finallyBlock hj hk hfinal) rfl

/-- **A body that does not yield is left by return statements only.** -/
theorem Departs.departs_of_left (h : Departs b j tr .left d) (hP : Closed b.tree stops P)
    (hj : j.Stays b stops P) (hyield : ∀ n, P n → b.tree.kind n ≠ .yieldBreakStatement) :
    d.isSome = true := by
  generalize hex : Exit.left = ex at h
  induction h with
  | cut | nothing | localFunction => cases hex
  | leave => rfl
  | next _ _ _ ih => simpa using ih (fun p hp => hj p (List.mem_cons_of_mem _ hp)) hex
  | stop _ _ ih => exact ih (hj _ List.mem_cons_self) hex
  | @way p ps events tr ex' ex d hway _ hreturns ih =>
    cases ex' with
    | done c =>
      -- The jump of the part itself: neither a return statement nor the end of an iterator.
      obtain rfl : Exit.left = ex := hex
      cases hway with
      | leave hk => cases hreturns (by simpa [Part.returns] using hk)
      | yieldBreak hk => exact absurd hk (hyield _ hj)
    | left => exact ih (hway.stays hP hj) rfl
    | _ => cases hex
  | test _ _ ih => exact ih hj hex
  | @round _ _ ex _ _ ih =>
    cases ex with
    | left => exact ih hj rfl
    | _ => cases hex
  | @breakable _ _ ex _ _ ih =>
    cases ex with
    | left => exact ih hj rfl
    | _ => cases hex
  | handle _ _ _ _ ih => simpa using ih hj hex
  | @cleanup n final t₁ t₂ ex' ex d d' hk hfinal _ _ ih ih' =>
    cases ex' with
    | done c => exact ih ⟨hj, hP.enters hk (by decide)⟩ hex
    | left => simpa [Exit.isDone] using ih' (hP.finallyBlock hj hk hfinal) rfl
    | _ => cases hex

/-! ## The end of a body

If the last statement of a block is a return statement, control does not come to the end of the
block. -/

/-- Behind some parts in order, the last one has come to its end. -/
theorem Departs.last_done {ps : List Part} {p : Part} {c : Bool}
    (h : Departs b (.each ps) tr (.done c) d) (hp : ps.getLast? = some p) :
    ∃ t c' d', Departs b (.one p) t (.done c') d' := by
  induction ps generalizing tr d with
  | nil => cases hp
  | cons q ps ih =>
    generalize hex : Exit.done c = ex at h
    cases h with
    | cut => cases hex
    | next hq hps =>
      subst hex
      cases ps with
      | nil =>
        obtain rfl : q = p := by simpa using hp
        exact ⟨_, _, _, hq⟩
      | cons q' ps => exact ih hps (by simpa using hp)
    | stop _ hdone =>
      subst hex
      cases hdone

/-- A return statement does not come to its end. -/
theorem Departs.not_done_of_return {c : Bool} (hk : b.tree.kind n = .returnStatement) :
    ¬ Departs b (.one (.statement n)) tr (.done c) d := by
  intro h
  generalize hex : Exit.done c = ex at h
  cases h with
  | cut | leave => cases hex
  | localFunction hk' | cleanup hk' =>
    rw [hk] at hk'
    cases hk'
  | @way _ ps events tr ex' ex d hway =>
    cases hway with
    | leave => cases ex' <;> cases hex
    | _ => grind [kind_of_if]

/-- **The end of a block is not reached behind a return statement.** -/
theorem Departs.kind_of_last {body last : NodeId} {c : Bool}
    (h : Departs b (.one (.statement body)) tr (.done c) d) (hk : b.tree.kind body = .block)
    (hlast : (b.tree.childNodes body).getLast? = some last) :
    b.tree.kind last ≠ .returnStatement := by
  intro hreturn
  generalize hex : Exit.done c = ex at h
  cases h with
  | cut | leave => cases hex
  | localFunction hk' | cleanup hk' =>
    rw [hk] at hk'
    cases hk'
  | @way _ ps events tr ex' ex d hway hps =>
    cases hway with
    | block =>
      cases ex' with
      | done c' =>
        obtain ⟨t, c', d', hdone⟩ := hps.last_done (p := .statement last) (by simp [hlast])
        exact not_done_of_return hreturn hdone
      | _ => cases hex
    | _ => grind [kind_of_if]

/-! ## On the way out

Between the return statement and the end of the method only the last blocks of try statements run.
They are the one place where a variable can be written behind the return. -/

/-- The last block of a try statement around the return statement may write the variable. -/
def WrittenOnExit (b : Binder) (P : NodeId → Prop) (statement : NodeId) (v : VariableId) : Prop :=
  ∃ n final tr ex d, P n ∧ b.tree.kind n = .tryStatement ∧ finallyBlock? b.tree n = some final ∧
    Below b.tree n statement ∧ Departs b (.one (.statement final)) tr ex d ∧ .write v ∈ tr

/-- **Behind a return statement, only last blocks write**, and only those of try statements that the
statement is in. -/
theorem Departs.behind (h : Departs b j tr ex (some r)) (hP : Closed b.tree stops P)
    (hj : j.Stays b stops P) : ∃ rest, tr = r.before ++ rest ∧
      ∀ v, .write v ∈ rest → WrittenOnExit b P r.statement v := by
  generalize hd : some r = d at h
  induction h generalizing r with
  | cut | nothing | localFunction => cases hd
  | leave =>
    cases hd
    exact ⟨[], by simp, fun v hv => nomatch hv⟩
  | next _ _ _ ih =>
    obtain ⟨r, rfl, rfl⟩ := Option.map_eq_some_iff.mp hd.symm
    obtain ⟨rest, rfl, hrest⟩ := ih (fun p hp => hj p (List.mem_cons_of_mem _ hp)) rfl
    exact ⟨rest, by simp [Departure.after], hrest⟩
  | stop _ _ ih => exact ih (hj _ List.mem_cons_self) hd
  | way hway hps _ ih =>
    subst hd
    obtain rfl := hps.left_of_departure rfl
    obtain ⟨rest, rfl, hrest⟩ := ih (hway.stays hP hj) rfl
    exact ⟨rest, by simp [Exit.emits], hrest⟩
  | test _ _ ih | round _ ih | breakable _ ih => exact ih hj hd
  | handle _ _ _ _ ih =>
    obtain ⟨r, rfl, rfl⟩ := Option.map_eq_some_iff.mp hd.symm
    obtain ⟨rest, rfl, hrest⟩ := ih hj rfl
    exact ⟨rest, by simp [Departure.after], hrest⟩
  -- The last block runs behind the return statement; if it is left by another one, that one counts.
  | @cleanup n final t₁ t₂ ex' ex d d' hk hfinal hguarded hlast ih ih' =>
    split at hd
    next =>
      subst hd
      have hfree := hP.enters hk (by decide)
      obtain ⟨rest, rfl, hrest⟩ := ih ⟨hj, hfree⟩ rfl
      have hin := (hguarded.statement_stays closed_below ⟨.here, List.not_mem_nil⟩).1
      refine ⟨rest ++ t₂, by simp, fun v hv => ?_⟩
      rcases List.mem_append.mp hv with hv | hv
      · exact hrest v hv
      · exact ⟨n, final, t₂, ex', d', hj, hk, hfinal, hin, hlast, hv⟩
    next =>
      obtain ⟨r, rfl, rfl⟩ := Option.map_eq_some_iff.mp hd.symm
      obtain ⟨rest, rfl, hrest⟩ := ih' (hP.finallyBlock hj hk hfinal) rfl
      exact ⟨rest, by simp [Departure.after], hrest⟩

end CodeMend.Flow
