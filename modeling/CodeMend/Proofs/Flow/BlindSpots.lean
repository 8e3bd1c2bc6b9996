import CodeMend.Proofs.Flow.Confined
import CodeMend.Proofs.Flow.Statements

/-!
# CodeMend — what the analysis does not see

The places of a body where the analysis takes a variable for written although an execution need not
write it, and those where it passes over a read.  Each is told for one variable.

* **`Below`** — a node stands in the body.
* **`WriteAssumed`** — a variable may be taken for written where it is not.
* **`ReadOverlooked`** — a read of a variable may be passed over.
* **`Way.within`** — a way out of a part of the body does not leave the body.
-/

namespace CodeMend.Flow

/-! ## Nodes of a body

Where the analysis goes wrong is told by nodes of the body, and so by what is written and not by how
it is analysed. -/

/-- A node is the body, or stands under it. -/
inductive Below (t : Tree) (body : NodeId) : NodeId → Prop where
  | here : Below t body body
  | child {n c} : Below t body n → c ∈ t.childNodes n → Below t body c

/-- The initializer of a new object, or the value of a member in such an initializer. -/
inductive ObjectInitializer (t : Tree) : NodeId → Prop where
  | creation {n m} :
      t.kind n = .objectCreationExpression ∨ t.kind n = .implicitObjectCreationExpression →
      m ∈ t.childNodes n → t.kind m = .initializerExpression → ObjectInitializer t m
  | member {m item target value} : ObjectInitializer t m → item ∈ t.childNodes m →
      IsMember t item target value → t.kind value = .initializerExpression →
      ObjectInitializer t value

/-! ## Writes that are assumed

Each of these places lets the analysis believe in a write that need not happen.  They are all that
must be ruled out for what is known to be written to be written. -/

variable (b : Binder) (body : NodeId) (v : VariableId)

/-- A member of a new object is given a value under the name of the variable. -/
def NamedByMember : Prop :=
  ∃ m item target value, Below b.tree body m ∧ ObjectInitializer b.tree m ∧
    item ∈ b.tree.childNodes m ∧ IsMember b.tree item target value ∧
    namedVariable? b target = some v

/-- The labels of a section of a switch teach something about the variable, although the section is
entered through one of them only. -/
def TaughtByLabels : Prop :=
  ∃ n governing sections group labels, Below b.tree body n ∧ b.tree.kind n = .switchStatement ∧
    b.tree.childNodes n = governing :: sections ∧ group ∈ sections ∧
    (sectionLabels b.tree group).mapM (readLabel? b) = some labels ∧
    ¬ Stmt.Accounts.Unprejudiced v labels

/-- A pattern declares the variable; it need not match. -/
def DeclaredByPattern : Prop :=
  ∃ n, Below b.tree body n ∧ b.tree.kind n = .declarationPattern ∧ v ∈ designatedVariables b n

/-- The variable is assigned to only if it is null. -/
def AssignedIfNull : Prop :=
  ∃ n target value rest, Below b.tree body n ∧ b.tree.kind n = .assignmentExpression ∧
    b.tree.childNodes n = target :: value :: rest ∧ operatorText b.tree n = "??=" ∧
    Names b target v

/-- The analysis may take the variable for written where an execution has not written it. -/
inductive WriteAssumed : Prop where
  | member : NamedByMember b body v → WriteAssumed
  | labels : TaughtByLabels b body v → WriteAssumed
  | pattern : DeclaredByPattern b body v → WriteAssumed
  | ifNull : AssignedIfNull b body v → WriteAssumed

/-! ## Reads that are passed over

Each of these places holds a read that the analysis does not see.  They are all that must be ruled
out for data that flows in to be found. -/

/-- An argument behind one that gives out the variable reads the variable, before the call returns
and writes it. -/
def ReadByLaterArgument : Prop :=
  ∃ n view before a after tr ex, Below b.tree body n ∧
    InvocationView.ofNode? b.tree n = some view ∧
    view.argumentViews b.tree = before ++ a :: after ∧ passMode b.tree a = .out ∧
    Names b a.expression v ∧ Runs b (.each (after.map .argument)) tr ex ∧ ReadsFirst v tr

/-- The place of an argument that is given out reads the variable. -/
def ReadByPlace : Prop :=
  ∃ n view a tr ex, Below b.tree body n ∧ InvocationView.ofNode? b.tree n = some view ∧
    a ∈ view.argumentViews b.tree ∧ passMode b.tree a = .out ∧
    Runs b (.one (.place a.expression)) tr ex ∧ ReadsFirst v tr

/-- The size of a new array reads the variable. -/
def ReadBySize : Prop :=
  ∃ n tr ex, Below b.tree body n ∧ b.tree.kind n = .arrayCreationExpression ∧
    Runs b (.each ((arraySizes b.tree n).map .expr)) tr ex ∧ ReadsFirst v tr

/-- A hole of a string reads the variable, and the variable is not found among its names. -/
def ReadByHole : Prop :=
  ∃ n, Below b.tree body n ∧ b.tree.kind n = .literalExpression ∧ HoleReads b n v ∧
    v ∉ holeVariables b n

/-- The analysis may pass over a read of the variable, or take it for written in front. -/
inductive ReadOverlooked : Prop where
  | member : NamedByMember b body v → ReadOverlooked
  | labels : TaughtByLabels b body v → ReadOverlooked
  | laterArgument : ReadByLaterArgument b body v → ReadOverlooked
  | place : ReadByPlace b body v → ReadOverlooked
  | size : ReadBySize b body v → ReadOverlooked
  | hole : ReadByHole b body v → ReadOverlooked

/-- A part belongs to the body. -/
def Part.Within : Part → Prop
  | .expr n | .test n _ | .pattern n _ | .place n | .declarator n | .statement n | .breakable n
  | .inside n | .round n | .label n _ | .guarded n | .handlers n | .caught n | .refused n =>
    Below b.tree body n
  | .argument a => Below b.tree body a.expression
  | .created n => Below b.tree body n ∧
    (b.tree.kind n = .initializerExpression → ObjectInitializer b.tree n)
  | .member n => ∃ m, Below b.tree body m ∧ ObjectInitializer b.tree m ∧ n ∈ b.tree.childNodes m
  | .write _ => True

variable {b body v} {n : NodeId}

theorem closed_below : Closed b.tree [] (Below b.tree body) :=
  ⟨List.nil_subset _, fun h _ hc => .child h hc, fun _ _ _ _ => List.not_mem_nil⟩

section Parts

variable {p : Part} {ps : List Part} {events : Trace} {ex : Exit}

theorem Part.Within.stays (h : p.Within b body) : p.Stays b [] (Below b.tree body) := by
  cases p with
  | created => exact h.1
  | member =>
    obtain ⟨m, hm, -, hc⟩ := h
    exact .child hm hc
  | declarator | label | guarded | handlers | caught | refused => exact ⟨h, List.not_mem_nil⟩
  | _ => exact h

/-- The part belongs to the creation of an object. -/
def Part.creates : Part → Bool
  | .created _ | .member _ => true
  | _ => false

theorem Part.Stays.within (h : p.Stays b [] (Below b.tree body)) (hp : p.creates = false) :
    p.Within b body := by
  cases p with
  | created | member => cases hp
  | declarator | label | guarded | handlers | caught | refused => exact h.1
  | _ => exact h

/-- **A way does not leave the body.**  The parts on a way through a part of the body belong to the
body. -/
theorem Way.within (h : Way b p ps events ex) (hp : p.Within b body) :
    ∀ q ∈ ps, q.Within b body := by
  intro q hq
  have hstays := h.stays closed_below hp.stays q hq
  cases h with
  | creation hk =>
    obtain ⟨c, hc, rfl⟩ := List.mem_map.mp hq
    exact ⟨hstays, .creation (Or.inl hk) (List.mem_filter.mp hc).1⟩
  | implicitCreation hk =>
    obtain ⟨c, hc, rfl⟩ := List.mem_map.mp hq
    exact ⟨hstays, .creation (Or.inr hk) hc⟩
  | members hk =>
    obtain ⟨c, hc, rfl⟩ := List.mem_map.mp hq
    exact ⟨_, hp.1, hp.2 hk, hc⟩
  | member hitem =>
    obtain rfl := List.mem_singleton.mp hq
    obtain ⟨m, hm, hinit, hc⟩ := hp
    exact ⟨hstays, .member hinit hc hitem⟩
  | _ =>
    refine hstays.within ?_
    grind [Part.creates, firstPart, declaredPart, declarationParts, headParts, catchParts]

end Parts

/-! ## Bodies without blind spots

Most bodies have none of the nodes in question, and this can be seen from the kinds of their nodes
alone. -/

/-- The nodes of a body are among some nodes that hold the body and all nodes under them. -/
theorem Below.mem {t : Tree} {ns : List NodeId} (h : Below t body n) (hbody : body ∈ ns)
    (hclosed : ∀ m ∈ ns, ∀ c ∈ t.childNodes m, c ∈ ns) : n ∈ ns := by
  induction h with
  | here => exact hbody
  | child _ hc ih => exact hclosed _ ih _ hc

theorem ObjectInitializer.kind {t : Tree} (h : ObjectInitializer t n) :
    t.kind n = .initializerExpression := by
  cases h with
  | creation _ _ hk => exact hk
  | member _ _ _ hk => exact hk

/-- Without initializers, switches, patterns and the operator for null, nothing is assumed. -/
theorem not_writeAssumed
    (hkind : ∀ m, Below b.tree body m →
      b.tree.kind m ∉ [.initializerExpression, .switchStatement, .declarationPattern])
    (hoperator : ∀ m, Below b.tree body m → operatorText b.tree m ≠ "??=") :
    ¬ WriteAssumed b body v := by
  rintro (⟨m, _, _, _, hm, hinit, -⟩ | ⟨m, _, _, _, _, hm, hk, -⟩ | ⟨m, hm, hk, -⟩ |
    ⟨m, _, _, _, hm, -, -, htext, -⟩)
  · exact hkind m hm (by simp [hinit.kind])
  · exact hkind m hm (by simp [hk])
  · exact hkind m hm (by simp [hk])
  · exact hoperator m hm htext

end CodeMend.Flow
