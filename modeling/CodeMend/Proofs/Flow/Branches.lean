import CodeMend.Proofs.Flow.Parts

/-!
# CodeMend — statements are accounted for

One lemma for each way through a statement that is no loop: when the parts on it are accounted for,
the form of the statement accounts for the whole trace.

* **`accounts_declaration`**, **`accounts_heads`** — what stands in front of a statement.
* **`accounts_section`** — a section of a switch, behind labels that were tried in vain.
* **`accounts_handlers`** — a catch clause that is taken, behind clauses that were refused.
-/

namespace CodeMend.Flow

variable {b : Binder} {body : NodeId} {F : Watch} {n : NodeId} {tr : Trace} {ex : Exit} {c : Bool}

/-! ## Declarations

A declaration evaluates what its variables are made from and then writes them, one after the other.
-/

theorem accounts_first {e : Expr} (he : readFirst? b n = some e)
    (h : Each (Part.Sound b body F) (firstPart b.tree n) tr ex) :
    Expr.Accounts F False .value e tr ex := by
  unfold readFirst? at he
  unfold firstPart at h
  cases hn : b.tree.childNodes n with
  | nil =>
    rw [hn] at he h
    obtain rfl := Option.some.inj he
    have hnone : HaveForms b [] [] := ⟨0, rfl⟩
    exact accounts_of_operands hnone h
  | cons first rest =>
    rw [hn] at he h
    exact Each.expr_single h fun tr ex hp => hp.2 e (hasForm_of_readExpr? he) .value

theorem accounts_declared {identifier : Option TokenId}
    (h : Each (Part.Sound b body F) (declaredPart b identifier) tr ex) :
    Stmt.Accounts F (declareToken b identifier) tr ex := by
  cases identifier with
  | none => exact h.skip
  | some i => exact h.stmt_single fun tr ex hp => hp.2

theorem accounts_declarator {clause : NodeId}
    (hclause : b.tree.childOfKind? n .equalsValueClause = some clause)
    (h : Each (Part.Sound b body F)
      (firstPart b.tree clause ++ declaredPart b (b.tree.childTokens n).head?) tr ex) :
    (Part.declarator n).Accounts b body F (tr ++ ex.emits []) (ex.andThen (.done c)) := by
  intro s hs
  obtain ⟨e, he, rfl⟩ := readDeclarator?_eq_some hclause hs
  have hboth := h.stmt_append (fun tr ex h => (accounts_first he h).eval) fun tr ex h =>
    accounts_declared h
  exact hboth.toEnd c

theorem accounts_declaration {declaration : NodeId} {s : Stmt}
    (hs : readDeclaration? b declaration = some s)
    (h : Each (Part.Sound b body F) (declarationParts b.tree declaration) tr ex) :
    Stmt.Accounts F s tr ex := by
  obtain ⟨ss, hss, rfl⟩ := Option.map_eq_some_iff.mp hs
  exact h.stmt_ofParts hss fun d _ s hs tr ex hp => hp.2 s hs

theorem accounts_head {s : Stmt} (hs : readHeadPart? b n = some s)
    (h : Each (Part.Sound b body F) (headParts b.tree n) tr ex) : Stmt.Accounts F s tr ex := by
  unfold readHeadPart? at hs
  unfold headParts at h
  split at hs
  next hk =>
    rw [if_pos hk] at h
    exact accounts_declaration hs h
  next hk =>
    rw [if_neg hk] at h
    obtain ⟨e, he, rfl⟩ := Option.map_eq_some_iff.mp hs
    have hvalue : Expr.Accounts F False .value e tr ex :=
      h.expr_single fun tr ex hp => hp.2 e (hasForm_of_readExpr? he) .value
    exact hvalue.eval

theorem accounts_heads {ns : List NodeId} {ss : List Stmt}
    (hss : ns.mapM (readHeadPart? b) = some ss)
    (h : Each (Part.Sound b body F) (ns.flatMap (headParts b.tree)) tr ex) :
    Stmt.Accounts F (.ofList ss) tr ex :=
  h.stmt_ofList hss fun _ _ _ hs _ _ h => accounts_head hs h

/-! ## Blocks and branches

A statement with parts accounts for a way through it when the parts on that way account for theirs.
Where two ways part, the form joins what is known on both, and the join covers each. -/

theorem accounts_block (hk : b.tree.kind n = .block)
    (h : Each (Part.Sound b body F) ((b.tree.childNodes n).map .statement) tr ex) :
    (Part.statement n).Accounts b body F (tr ++ ex.emits []) (ex.andThen (.done c)) := by
  intro s hs
  obtain ⟨ss, ⟨fuel, jumps, hss⟩, rfl⟩ := hs.block hk
  have hall := h.stmt_ofParts (F := F) hss fun m _ s hs tr ex hp => hp.2 s ⟨fuel, jumps, hs⟩
  exact hall.toEnd c

theorem accounts_localDeclaration (hk : b.tree.kind n = .localDeclarationStatement)
    {declaration : NodeId} (hd : b.tree.childOfKind? n .variableDeclaration = some declaration)
    (h : Each (Part.Sound b body F) (declarationParts b.tree declaration) tr ex) :
    (Part.statement n).Accounts b body F (tr ++ ex.emits []) (ex.andThen (.done c)) :=
  fun _ hs => (accounts_declaration (hs.localDeclaration hk hd) h).toEnd c

theorem accounts_evaluation
    (hk : b.tree.kind n = .expressionStatement ∨ b.tree.kind n = .yieldReturnStatement)
    (h : Each (Part.Sound b body F) (firstPart b.tree n) tr ex) :
    (Part.statement n).Accounts b body F (tr ++ ex.emits []) (ex.andThen (.done c)) := by
  intro s hs
  obtain ⟨e, he, rfl⟩ := hs.evaluation hk
  exact (accounts_first he h).eval.toEnd c

theorem accounts_leave (hk : b.tree.kind n = .returnStatement)
    (h : Each (Part.Sound b body F) (firstPart b.tree n) tr ex) :
    (Part.statement n).Accounts b body F (tr ++ ex.emits []) (ex.andThen .left) := by
  intro s hs
  obtain ⟨e, he, rfl⟩ := hs.leave hk
  rw [Exit.append_emits_nil]
  exact (accounts_first he h).leave

theorem accounts_raise (hk : b.tree.kind n = .throwStatement)
    (h : Each (Part.Sound b body F) (firstPart b.tree n) tr ex) :
    (Part.statement n).Accounts b body F (tr ++ ex.emits []) (ex.andThen .cut) := by
  intro s hs
  obtain ⟨e, he, rfl⟩ := hs.raise hk
  have hvalue := accounts_first he h
  rw [Exit.append_emits_nil, Exit.andThen_cut hvalue.exits]
  exact hvalue.raise

/-- An expression, and a statement behind it. -/
theorem accounts_evalThen {m : NodeId} {q : Part} {e : Expr} {s : Stmt} (he : HasForm b m e)
    (h : Each (Part.Sound b body F) [.expr m, q] tr ex)
    (hq : ∀ tr ex, Part.Sound b body F q tr ex → Stmt.Accounts F s tr ex) :
    Stmt.Accounts F (.seq (.eval e) s) tr ex := by
  have happend : Each (Part.Sound b body F) ([.expr m] ++ [q]) tr ex := h
  refine happend.stmt_append (fun tr ex h => Expr.Accounts.eval ?_) fun tr ex h => h.stmt_single hq
  exact h.expr_single fun tr ex hp => hp.2 e he .value

theorem accounts_lock (hk : b.tree.kind n = .lockStatement) {object node : NodeId}
    {rest : List NodeId} (hn : b.tree.childNodes n = object :: node :: rest)
    (h : Each (Part.Sound b body F) [.expr object, .statement node] tr ex) :
    (Part.statement n).Accounts b body F (tr ++ ex.emits []) (ex.andThen (.done c)) := by
  intro s hs
  obtain ⟨e, x, he, hx, rfl⟩ := hs.lock hk hn
  exact (accounts_evalThen he h fun tr ex hp => hp.2 x hx).toEnd c

theorem accounts_useResource (hk : b.tree.kind n = .usingStatement) {node : NodeId}
    (hnode : ((b.tree.childNodes n).filter fun c => (b.tree.kind c).isStatement).getLast? =
      some node)
    (h : Each (Part.Sound b body F)
      (((b.tree.childNodes n).filter fun c => !(b.tree.kind c).isStatement).flatMap
        (headParts b.tree) ++ [.statement node]) tr ex) :
    (Part.statement n).Accounts b body F (tr ++ ex.emits []) (ex.andThen (.done c)) := by
  intro s hs
  obtain ⟨head, x, hhead, hx, rfl⟩ := hs.useResource hk hnode
  have hboth := h.stmt_append (fun tr ex h => accounts_heads hhead h) fun tr ex h =>
    h.stmt_single fun tr ex hp => hp.2 x hx
  exact hboth.toEnd c

theorem accounts_ifTrue {view : IfView} (hview : IfView.ofNode? b.tree n = some view)
    (h : Each (Part.Sound b body F) [.test view.condition true, .statement view.statement] tr ex) :
    (Part.statement n).Accounts b body F (tr ++ ex.emits []) (ex.andThen (.done c)) := by
  intro s hs
  obtain ⟨e, x, y, he, hx, -, rfl⟩ := hs.branch hview
  rcases h.cons with ⟨t₁, t₂, c₁, rfl, htest, hbranch⟩ | ⟨htest, hex⟩
  · obtain ⟨he', hvalue⟩ := htest.2 e he .test
    obtain rfl := hvalue c₁ rfl
    have hx' := hbranch.stmt_single fun tr ex hp => hp.2 x hx
    exact (Stmt.Accounts.branchTrue he' hx').toEnd c
  · obtain ⟨he', -⟩ := htest.2 e he .test
    obtain rfl : ex = .cut := he'.exits.resolve_left (by simp [hex])
    exact (Stmt.Accounts.branchStop he').toEnd c

theorem accounts_ifFalse {view : IfView} (hview : IfView.ofNode? b.tree n = some view)
    (h : Each (Part.Sound b body F)
      (.test view.condition false :: view.elseStatement.toList.map .statement) tr ex) :
    (Part.statement n).Accounts b body F (tr ++ ex.emits []) (ex.andThen (.done c)) := by
  intro s hs
  obtain ⟨e, x, y, he, -, hy, rfl⟩ := hs.branch hview
  rcases h.cons with ⟨t₁, t₂, c₁, rfl, htest, hbranch⟩ | ⟨htest, hex⟩
  · obtain ⟨he', hvalue⟩ := htest.2 e he .test
    obtain rfl := hvalue c₁ rfl
    have hy' : Stmt.Accounts F y t₂ ex := by
      cases hother : view.elseStatement with
      | none =>
        rw [hother] at hbranch hy
        obtain rfl : y = .skip := hy
        exact hbranch.skip
      | some other =>
        rw [hother] at hbranch hy
        exact Each.stmt_single hbranch fun tr ex hp => hp.2 y hy
    exact (Stmt.Accounts.branchFalse he' hy').toEnd c
  · obtain ⟨he', -⟩ := htest.2 e he .test
    obtain rfl : ex = .cut := he'.exits.resolve_left (by simp [hex])
    exact (Stmt.Accounts.branchStop he').toEnd c

/-! ## Switches

A section may be entered through any of its labels, and the labels in front of it were tried in
vain.  What trying them teaches must hold whichever way the section was entered. -/

theorem HaveForms.cons {ns : List NodeId} {es : List Expr} (h : HaveForms b (n :: ns) es) :
    ∃ e es', HasForm b n e ∧ HaveForms b ns es' ∧ es = e :: es' := by
  obtain ⟨fuel, h⟩ := h
  simp only [List.mapM_cons, Option.bind_eq_bind, Option.bind_eq_some_iff, Option.pure_def,
    Option.some.injEq] at h
  obtain ⟨e, he, es', hes, rfl⟩ := h
  exact ⟨e, es', ⟨fuel, he⟩, ⟨fuel, hes⟩, rfl⟩

/-- The forms under a label: its pattern and its filters. -/
theorem forms_of_label {e : Expr} (he : readLabel? b n = some e) :
    ∃ es, HaveForms b (b.tree.childNodes n) es ∧ e = .ofList es := by
  obtain ⟨es, hes, rfl⟩ := Option.map_eq_some_iff.mp he
  exact ⟨es, ⟨_, hes⟩, rfl⟩

theorem accounts_chosen {pattern : NodeId} {filters : List NodeId}
    (hn : b.tree.childNodes n = pattern :: filters)
    (h : Each (Part.Sound b body F) (.pattern pattern true :: filters.map (.test · true)) tr ex) :
    (Part.label n true).Accounts b body F (tr ++ ex.emits []) (ex.andThen (.done c)) := by
  intro e he
  obtain ⟨es, hes, rfl⟩ := forms_of_label he
  rw [hn] at hes
  obtain ⟨p, fs, hp, hfs, rfl⟩ := hes.cons
  have hall : Expr.Accounts F False .value (.seq p (.ofList fs)) tr ex := by
    rcases h.cons with ⟨t₁, t₂, c₁, rfl, hpattern, hfilters⟩ | ⟨hpattern, hex⟩
    · have hfs' := accounts_of_forms hfs hfilters fun _ e _ _ he hn => (hn e he .value).1
      exact (hpattern.2 p hp).seq hfs'
    · exact (hpattern.2 p hp).seqStop hex
  exact hall.toEnd c

theorem accounts_unlike {pattern : NodeId} {filters : List NodeId}
    (hn : b.tree.childNodes n = pattern :: filters)
    (h : Each (Part.Sound b body F) [.pattern pattern false] tr ex) (ex' : Exit) :
    (Part.label n false).Accounts b body F (tr ++ ex.emits []) ex' := by
  intro e he
  obtain ⟨es, hes, rfl⟩ := forms_of_label he
  rw [hn] at hes
  obtain ⟨p, fs, hp, hfs, rfl⟩ := hes.cons
  rw [Exit.append_emits_nil]
  have hpattern : Expr.Accounts F False .value p tr ex := h.expr_single fun tr ex hq => hq.2 p hp
  exact hpattern.seqCut

/-- Filters up to one that does not hold. -/
theorem accounts_filters {before after : List NodeId} {filter : NodeId} {es : List Expr}
    (hes : HaveForms b (before ++ filter :: after) es)
    (h : Each (Part.Sound b body F) (before.map (.test · true) ++ [.test filter false]) tr ex) :
    Expr.Accounts F False .value (.ofList es) tr .cut := by
  induction before generalizing es tr with
  | nil =>
    obtain ⟨f, fs, hf, -, rfl⟩ := hes.cons
    have hfilter : Expr.Accounts F False .value f tr ex :=
      Each.expr_single h fun tr ex hp => (hp.2 f hf .value).1
    exact hfilter.seqCut
  | cons first before ih =>
    obtain ⟨f, fs, hf, hfs, rfl⟩ := hes.cons
    rcases Each.cons h with ⟨t₁, t₂, c₁, rfl, hfirst, hrest⟩ | ⟨hfirst, hex⟩
    · exact (hfirst.2 f hf .value).1.seq (ih hfs hrest)
    · exact (hfirst.2 f hf .value).1.seqCut

theorem accounts_filtered {pattern filter : NodeId} {before after : List NodeId}
    (hn : b.tree.childNodes n = pattern :: (before ++ filter :: after))
    (h : Each (Part.Sound b body F)
      (.pattern pattern true :: (before.map (.test · true) ++ [.test filter false])) tr ex)
    (ex' : Exit) : (Part.label n false).Accounts b body F (tr ++ ex.emits []) ex' := by
  intro e he
  obtain ⟨es, hes, rfl⟩ := forms_of_label he
  rw [hn] at hes
  obtain ⟨p, fs, hp, hfs, rfl⟩ := hes.cons
  rw [Exit.append_emits_nil]
  rcases h.cons with ⟨t₁, t₂, c₁, rfl, hpattern, hfilters⟩ | ⟨hpattern, hex⟩
  · exact (hpattern.2 p hp).seq (accounts_filters hfs hfilters)
  · exact (hpattern.2 p hp).seqCut

section Sections

variable {governing group label : NodeId} {sections tried : List NodeId} {last : Stmt}
  {ways : List Stmt}

theorem Watch.Fits.unprejudiced (hF : F.Fits b body) (hn : Below b.tree body n)
    (hk : b.tree.kind n = .switchStatement) (hnodes : b.tree.childNodes n = governing :: sections)
    (hgroup : group ∈ sections) {labels : List Expr}
    (hlabels : (sectionLabels b.tree group).mapM (readLabel? b) = some labels) :
    Stmt.Accounts.Unprejudiced F.v labels :=
  Classical.byContradiction fun h =>
    hF.labels ⟨n, governing, sections, group, labels, hn, hk, hnodes, hgroup, hlabels, h⟩

/-- A section is entered through one of its labels. -/
theorem accounts_section {labels : List Expr} {ss : List Stmt}
    (hlabels : (sectionLabels b.tree group).mapM (readLabel? b) = some labels)
    (hss : HaveStatements b (sectionStatements b.tree group) ss)
    (hunprejudiced : Stmt.Accounts.Unprejudiced F.v labels)
    (hlabel : label ∈ sectionLabels b.tree group)
    (h : Each (Part.Sound b body F)
      (.label label true :: (sectionStatements b.tree group).map .statement) tr ex) :
    Stmt.Accounts F (.labelled labels (.ofList ss)) tr ex := by
  obtain ⟨fuel, jumps, hss⟩ := hss
  obtain ⟨l, hl, hform⟩ := exists_of_mapM hlabels hlabel
  rcases h.cons with ⟨t₁, t₂, c₁, rfl, hchosen, hrest⟩ | ⟨hchosen, hex⟩
  · have hbody := hrest.stmt_ofParts (F := F) hss fun m _ s hs tr ex hp => hp.2 s ⟨fuel, jumps, hs⟩
    exact .chosen hunprejudiced hl (hchosen.2 l hform) hbody
  · have hlabel := hchosen.2 l hform
    obtain rfl : ex = .cut := hlabel.exits.resolve_left (by simp [hex])
    exact .tried hunprejudiced hl hlabel

/-- Labels that are tried in vain, and then what is done about it. -/
theorem accounts_tried (hF : F.Fits b body) (hn : Below b.tree body n)
    (hk : b.tree.kind n = .switchStatement) (hnodes : b.tree.childNodes n = governing :: sections)
    (hsections : ∀ g ∈ sections, ∃ labels ss,
      (sectionLabels b.tree g).mapM (readLabel? b) = some labels ∧
      HaveStatements b (sectionStatements b.tree g) ss ∧
      (.labelled labels (.ofList ss) ∈ ways ∨ .labelled labels (.ofList ss) = last))
    (htried : ∀ l ∈ tried, ∃ s ∈ sections, l ∈ sectionLabels b.tree s) {ps : List Part}
    (h : Each (Part.Sound b body F) (tried.map (.label · false) ++ ps) tr ex)
    (hps : ∀ tr, Each (Part.Sound b body F) ps tr ex →
      Stmt.Accounts F (.chooseFrom last ways) tr ex) :
    Stmt.Accounts F (.chooseFrom last ways) tr ex := by
  refine h.stmt_behind (fun q hq tr ex hp => ?_) hps
  obtain ⟨l, hl, rfl⟩ := List.mem_map.mp hq
  obtain ⟨g, hg, hlabel⟩ := htried l hl
  obtain ⟨labels, ss, hlabels, -, hoffer⟩ := hsections g hg
  obtain ⟨e, he, hform⟩ := exists_of_mapM hlabels hlabel
  have hunprejudiced := hF.unprejudiced hn hk hnodes hg hlabels
  have hinvain : Stmt.Accounts F (.labelled labels (.ofList ss)) tr .cut :=
    .tried hunprejudiced he (hp.2 e hform)
  exact ⟨hinvain.chooseFrom hoffer, hp.1.exits rfl⟩

theorem accounts_switch (hk : b.tree.kind n = .switchStatement)
    (hnodes : b.tree.childNodes n = governing :: sections)
    (h : Each (Part.Sound b body F) [.expr governing, .breakable n] tr ex) :
    (Part.statement n).Accounts b body F (tr ++ ex.emits []) (ex.andThen (.done c)) := by
  intro s hs
  obtain ⟨e, chosen, he, -, rfl⟩ := hs.switch hk hnodes
  exact (accounts_evalThen he h fun tr ex hp => hp.2 _ hs).toEnd c

theorem accounts_chooseSection (hF : F.Fits b body) (hn : Below b.tree body n)
    (hk : b.tree.kind n = .switchStatement) (hnodes : b.tree.childNodes n = governing :: sections)
    (htried : ∀ l ∈ tried, ∃ s ∈ sections, l ∈ sectionLabels b.tree s) (hgroup : group ∈ sections)
    (hlabel : label ∈ sectionLabels b.tree group)
    (h : Each (Part.Sound b body F) (tried.map (.label · false) ++ .label label true ::
      (sectionStatements b.tree group).map .statement) tr ex) :
    (Part.inside n).Accounts b body F (tr ++ ex.emits []) (ex.andThen (.done c)) := by
  intro s hs
  obtain ⟨e, _, he, ⟨last, ways, rfl, hsections, -⟩, rfl⟩ := hs.switch hk hnodes
  have hchosen : Stmt.Accounts F (.chooseFrom last ways) tr ex := by
    refine accounts_tried hF hn hk hnodes hsections htried h fun tr h => ?_
    obtain ⟨labels, ss, hlabels, hss, hoffer⟩ := hsections group hgroup
    have hunprejudiced := hF.unprejudiced hn hk hnodes hgroup hlabels
    exact (accounts_section hlabels hss hunprejudiced hlabel h).chooseFrom hoffer
  exact (hchosen.toEnd c).switch

theorem accounts_noSection (hF : F.Fits b body) (hn : Below b.tree body n)
    (hk : b.tree.kind n = .switchStatement) (hnodes : b.tree.childNodes n = governing :: sections)
    (htried : ∀ l ∈ tried, ∃ s ∈ sections, l ∈ sectionLabels b.tree s)
    (hdefault : ∀ s ∈ sections, b.tree.childOfKind? s .defaultSwitchLabel = none)
    (h : Each (Part.Sound b body F) (tried.map (.label · false)) tr ex) :
    (Part.inside n).Accounts b body F (tr ++ ex.emits []) (ex.andThen (.done c)) := by
  intro s hs
  obtain ⟨e, _, he, ⟨last, ways, rfl, hsections, hlast⟩, rfl⟩ := hs.switch hk hnodes
  have hchosen : Stmt.Accounts F (.chooseFrom last ways) tr ex := by
    rw [← List.append_nil (tried.map _)] at h
    refine accounts_tried hF hn hk hnodes hsections htried h fun tr h => ?_
    exact h.skip.chooseFrom (Or.inr (hlast hdefault).symm)
  exact (hchosen.toEnd c).switch

end Sections

/-! ## Exceptions

A handler may begin at any point of the body that it guards, so nothing is known there but what was
known in front.  The last block runs behind all of them. -/

/-- The form of a part of a catch clause. -/
def readCatchPart? (b : Binder) (read : NodeId → Option Stmt) (part : NodeId) : Option Stmt :=
  match b.tree.kind part with
  | .catchDeclaration => some (declareToken b (declaredIdentifier? b.tree part))
  | .block => read part
  | _ => (readExpr? b part).map .eval

theorem readCatch?_eq (read : NodeId → Option Stmt) :
    readCatch? b read n = ((b.tree.childNodes n).mapM (readCatchPart? b read)).map .ofList := rfl

theorem accounts_catchPart {fuel : Nat} {jumps : JumpTargets} {s : Stmt}
    (hs : readCatchPart? b (readStmtFuel b fuel jumps) n = some s)
    (h : Each (Part.Sound b body F) (catchParts b n) tr ex) : Stmt.Accounts F s tr ex := by
  unfold readCatchPart? at hs
  unfold catchParts at h
  split at hs
  next hk =>
    obtain rfl := Option.some.inj hs
    rw [hk] at h
    exact accounts_declared h
  next hk =>
    rw [hk] at h
    exact Each.stmt_single h fun tr ex hp => hp.2 s ⟨fuel, jumps, hs⟩
  next hdeclaration hblock =>
    obtain ⟨e, he, rfl⟩ := Option.map_eq_some_iff.mp hs
    have htest : Each (Part.Sound b body F) [.test n true] tr ex := by
      split at h
      · contradiction
      · contradiction
      · exact h
    have hvalue : Expr.Accounts F False .value e tr ex :=
      htest.expr_single fun tr ex hp => (hp.2 e (hasForm_of_readExpr? he) .value).1
    exact hvalue.eval

theorem accounts_caught
    (h : Each (Part.Sound b body F) ((b.tree.childNodes n).flatMap (catchParts b)) tr ex) :
    (Part.caught n).Accounts b body F (tr ++ ex.emits []) (ex.andThen (.done c)) := by
  intro fuel jumps s hs
  rw [readCatch?_eq] at hs
  obtain ⟨ss, hss, rfl⟩ := Option.map_eq_some_iff.mp hs
  have hall := h.stmt_ofList (F := F) hss fun m _ s hs tr ex h => accounts_catchPart hs h
  exact hall.toEnd c

/-- The parts of a catch clause up to a filter that does not hold. -/
theorem accounts_refusedParts {before after : List NodeId} {filter : NodeId} {fuel : Nat}
    {jumps : JumpTargets} {ss : List Stmt}
    (hss : (before ++ filter :: after).mapM (readCatchPart? b (readStmtFuel b fuel jumps)) =
      some ss)
    (hdeclaration : b.tree.kind filter ≠ .catchDeclaration) (hblock : b.tree.kind filter ≠ .block)
    (h : Each (Part.Sound b body F) (before.flatMap (catchParts b) ++ [.test filter false])
      tr ex) :
    Stmt.Accounts F (.ofList ss) tr .cut := by
  induction before generalizing ss tr with
  | nil =>
    simp only [List.nil_append, List.mapM_cons, Option.bind_eq_bind, Option.bind_eq_some_iff,
      Option.pure_def, Option.some.injEq] at hss
    obtain ⟨s, hs, ss, -, rfl⟩ := hss
    have hform : readCatchPart? b (readStmtFuel b fuel jumps) filter =
        (readExpr? b filter).map .eval := by
      unfold readCatchPart?
      split
      · contradiction
      · contradiction
      · rfl
    rw [hform] at hs
    obtain ⟨e, he, rfl⟩ := Option.map_eq_some_iff.mp hs
    have hfilter : Expr.Accounts F False .value e tr ex :=
      Each.expr_single h fun tr ex hp => (hp.2 e (hasForm_of_readExpr? he) .value).1
    exact hfilter.eval.toCut.seqStop rfl
  | cons first before ih =>
    simp only [List.cons_append, List.mapM_cons, Option.bind_eq_bind, Option.bind_eq_some_iff,
      Option.pure_def, Option.some.injEq] at hss
    obtain ⟨s, hs, ss, hss, rfl⟩ := hss
    rw [List.flatMap_cons, List.append_assoc] at h
    rcases h.append with ⟨t₁, t₂, c₁, rfl, hfirst, hrest⟩ | ⟨hfirst, hex⟩
    · exact (accounts_catchPart hs hfirst).seq (ih hss hrest)
    · exact (accounts_catchPart hs hfirst).toCut.seqStop rfl

theorem accounts_refused {before after : List NodeId} {filter : NodeId}
    (hn : b.tree.childNodes n = before ++ filter :: after)
    (hdeclaration : b.tree.kind filter ≠ .catchDeclaration) (hblock : b.tree.kind filter ≠ .block)
    (h : Each (Part.Sound b body F) (before.flatMap (catchParts b) ++ [.test filter false]) tr ex)
    (ex' : Exit) : (Part.refused n).Accounts b body F (tr ++ ex.emits []) ex' := by
  intro fuel jumps s hs
  rw [readCatch?_eq] at hs
  obtain ⟨ss, hss, rfl⟩ := Option.map_eq_some_iff.mp hs
  rw [hn] at hss
  rw [Exit.append_emits_nil]
  exact accounts_refusedParts hss hdeclaration hblock h

/-- Catch clauses that are refused, and then what is done about it. -/
theorem accounts_handlers {refused : List NodeId} {ps : List Part} {fuel : Nat}
    {jumps : JumpTargets} {catches : List Stmt}
    (hcatches : (b.tree.childrenOfKind n .catchClause).mapM
      (readCatch? b (readStmtFuel b fuel jumps)) = some catches)
    (hrefused : ∀ r ∈ refused, r ∈ b.tree.childrenOfKind n .catchClause)
    (h : Each (Part.Sound b body F) (refused.map .refused ++ ps) tr ex) {last : Stmt}
    {ways : List Stmt} (hways : ∀ s ∈ catches, s ∈ ways ∨ s = last)
    (hps : ∀ tr, Each (Part.Sound b body F) ps tr ex →
      Stmt.Accounts F (.chooseFrom last ways) tr ex) :
    Stmt.Accounts F (.chooseFrom last ways) tr ex := by
  refine h.stmt_behind (fun q hq tr ex hp => ?_) hps
  obtain ⟨r, hr, rfl⟩ := List.mem_map.mp hq
  obtain ⟨s, hs, hform⟩ := exists_of_mapM hcatches (hrefused r hr)
  exact ⟨(hp.2 fuel jumps s hform).chooseFrom (hways s hs), hp.1.exits rfl⟩

theorem accounts_handled {refused : List NodeId} {clause : NodeId}
    (hrefused : ∀ r ∈ refused, r ∈ b.tree.childrenOfKind n .catchClause)
    (hclause : clause ∈ b.tree.childrenOfKind n .catchClause)
    (h : Each (Part.Sound b body F) (refused.map .refused ++ [.caught clause]) tr ex) :
    (Part.handlers n).Accounts b body F (tr ++ ex.emits []) (ex.andThen (.done c)) := by
  intro fuel jumps catches hcatches
  obtain ⟨s, hs, hform⟩ := exists_of_mapM hcatches hclause
  refine ⟨fun hempty => ?_, fun last ways hways => ?_⟩
  · rw [hempty] at hs
    cases hs
  · have hall := accounts_handlers hcatches hrefused h hways fun tr h =>
      h.stmt_single fun tr ex hp => (hp.2 fuel jumps s hform).chooseFrom (hways s hs)
    exact hall.toEnd c

theorem accounts_unhandled {refused : List NodeId}
    (hrefused : ∀ r ∈ refused, r ∈ b.tree.childrenOfKind n .catchClause)
    (h : Each (Part.Sound b body F) (refused.map .refused) tr ex) :
    (Part.handlers n).Accounts b body F (tr ++ ex.emits []) (ex.andThen .cut) := by
  intro fuel jumps catches hcatches
  have hexits := (runs_of_each h).exits_of_values (by simp [Part.IsValue])
  rw [Exit.append_emits_nil, Exit.andThen_cut hexits]
  refine ⟨fun hempty => ⟨?_, rfl⟩, fun last ways hways => ?_⟩
  · cases refused with
    | nil => cases h; rfl
    | cons r _ =>
      obtain ⟨s, hs, -⟩ := exists_of_mapM hcatches (hrefused r List.mem_cons_self)
      rw [hempty] at hs
      cases hs
  · have hcut : Each (Part.Sound b body F) (refused.map .refused ++ []) tr .cut := by
      rw [List.append_nil]
      rcases hexits with hdone | rfl
      · cases ex with
        | done c => exact h.toCut
        | _ => cases hdone
      · exact h
    refine accounts_handlers hcatches hrefused hcut hways fun tr h => ?_
    cases h
    exact .cut

theorem accounts_guarded {block : NodeId} (hblock : tryBlock? b.tree n = some block)
    (h : Each (Part.Sound b body F) [.statement block] tr ex) :
    (Part.guarded n).Accounts b body F (tr ++ ex.emits []) (ex.andThen (.done c)) := by
  rintro s ⟨fuel, jumps, block', x, catches, hblock', hx, -, hs⟩
  obtain rfl := Option.some.inj (hblock.symm.trans hblock')
  have hbody : Stmt.Accounts F x tr ex := h.stmt_single fun tr ex hp => hp.2 x hx
  rcases hs with ⟨-, rfl⟩ | ⟨last, ways, -, rfl⟩
  · exact hbody.toEnd c
  · exact hbody.attempt.toEnd c

/-- The block of a try statement is cut short, and the catch clauses follow. -/
theorem accounts_handle {block : NodeId} {t₁ t₂ : Trace} (hblock : tryBlock? b.tree n = some block)
    (h : (Part.statement block).Accounts b body F t₁ .cut)
    (hhandlers : (Part.handlers n).Accounts b body F t₂ ex) :
    (Part.guarded n).Accounts b body F (t₁ ++ t₂) ex := by
  rintro s ⟨fuel, jumps, block', x, catches, hblock', hx, hcatches, hs⟩
  obtain rfl := Option.some.inj (hblock.symm.trans hblock')
  obtain ⟨hnone, hsome⟩ := hhandlers fuel jumps catches hcatches
  rcases hs with ⟨hempty, rfl⟩ | ⟨last, ways, hways, rfl⟩
  · obtain ⟨rfl, rfl⟩ := hnone hempty
    rw [List.append_nil]
    exact h _ hx
  · exact (h _ hx).handled (hsome last ways hways)

end CodeMend.Flow
