import CodeMend.Proofs.Model.Hiding

/-!
# CodeMend — calls through `base`

A call through `base` looks for its method on all types that the base list of the class around it
names, interfaces included, and lets the methods of all of them compete.  So it is bound like a call
on the base class just when the methods of the other types make no difference to the competition
there.

* **`Overloads.Beats`**, **`Overloads.Wins`** — who wins a competition, without the order in which
  the methods are looked at.
* **`Overloads.best?_eq_some_iff`** — overload resolution finds the winner.
* **`Overloads.best?_append_eq_iff`** — what others may do without changing the outcome.
* **`Binder.resolveInvocation?_eq_best?`** — a call is bound to the winner among the methods that
  accept its arguments.
* **`Binder.base_calls_bind_on_class`** — when a call through `base` is bound like one on a base.
* **`Binder.interface_makes_base_call_ambiguous`** — an interface that makes it ambiguous.
-/

namespace CodeMend

open Tree

/-! ## Winners

Overload resolution drops what is beaten and takes what is left, if it is one.  Said by a winner,
who beats all others, it becomes clear what more candidates can change. -/

namespace Overloads

variable {l l' others : List Applicable} {a b : Applicable} {id : MethodId}

/-- A method has more exact arguments, or as many and is the more specific one. -/
def Beats (a b : Applicable) : Prop :=
  b.exact < a.exact ∨ b.exact = a.exact ∧ dominates a b = true ∧ dominates b a = false

instance (a b : Applicable) : Decidable (Beats a b) := inferInstanceAs (Decidable (_ ∨ _))

/-- A method takes part once, and beats all others. -/
def Wins (l : List Applicable) (a : Applicable) : Prop :=
  l.count a = 1 ∧ ∀ b ∈ l, b ≠ a → Beats a b

theorem not_beats_self (a : Applicable) : ¬ Beats a a := by
  rintro (hlt | ⟨-, hdominates, hnot⟩)
  · exact Nat.lt_irrefl _ hlt
  · rw [hdominates] at hnot
    cases hnot

theorem Beats.not_beats (h : Beats a b) : ¬ Beats b a := by
  rintro (hlt | ⟨heq, hdominates, -⟩) <;> rcases h with hlt' | ⟨heq', -, hnot⟩
  · omega
  · omega
  · omega
  · rw [hdominates] at hnot
    cases hnot

instance (l : List Applicable) (a : Applicable) : Decidable (Wins l a) :=
  inferInstanceAs (Decidable (_ ∧ _))

theorem Wins.mem (h : Wins l a) : a ∈ l :=
  List.count_pos_iff.mp (by rw [h.1]; exact Nat.one_pos)

theorem Wins.perm (h : Wins l a) (hperm : l.Perm l') : Wins l' a :=
  ⟨hperm.count_eq a ▸ h.1, fun b hb => h.2 b (hperm.mem_iff.mpr hb)⟩

/-- Entries of one method are the same. -/
def OneEach (l : List Applicable) : Prop := ∀ a ∈ l, ∀ b ∈ l, a.method = b.method → a = b

theorem only?_eq_some_iff {α : Type} {xs : List α} {x : α} : only? xs = some x ↔ xs = [x] := by
  unfold only?
  split
  next y => simp
  next hne =>
    constructor
    · intro h
      cases h
    · rintro rfl
      exact absurd rfl (hne x)

theorem filter_eq_singleton_iff {α : Type} [DecidableEq α] {xs : List α} {q : α → Bool} {x : α} :
    xs.filter q = [x] ↔ q x = true ∧ xs.count x = 1 ∧ ∀ y ∈ xs, q y = true → y = x := by
  constructor
  · intro h
    have hmem : x ∈ xs.filter q := by simp [h]
    have hx := (List.mem_filter.mp hmem).2
    refine ⟨hx, ?_, fun y hy hq => ?_⟩
    · rw [← List.count_filter hx, h, List.count_singleton_self]
    · exact List.mem_singleton.mp (h ▸ List.mem_filter.mpr ⟨hy, hq⟩)
  · rintro ⟨hx, hcount, hall⟩
    have hsame : ∀ y ∈ xs.filter q, y = x := fun y hy =>
      hall y (List.mem_filter.mp hy).1 (List.mem_filter.mp hy).2
    rw [List.eq_replicate_of_mem hsame, ← List.count_eq_length.mpr fun y hy => (hsame y hy).symm,
      List.count_filter hx, hcount]
    rfl

/-- The competition in one step: a single candidate with the most exact arguments is the winner
among these. -/
theorem best?_eq (l : List Applicable) :
    best? l = (l.map Applicable.exact).max?.bind fun most =>
      (only? (l.filter fun a => (a.exact == most) &&
        (l.filter fun a => a.exact == most).all fun b =>
          a.method == b.method || (dominates a b && !dominates b a))).map Applicable.method := by
  unfold best?
  cases (l.map Applicable.exact).max? with
  | none => rfl
  | some most =>
    simp only [Option.bind_eq_bind, Option.bind_some]
    have hfilter : ∀ q : Applicable → Bool, (l.filter fun a => a.exact == most).filter q =
        l.filter fun a => (a.exact == most) && q a := by
      intro q
      rw [List.filter_filter]
      exact List.filter_congr fun a _ => Bool.and_comm _ _
    rw [← hfilter]
    split
    next a htied =>
      rw [htied]
      simp [only?]
    next => cases only? _ <;> rfl

/-- **Overload resolution finds the winner.** -/
theorem best?_eq_some_iff (hone : OneEach l) :
    best? l = some id ↔ ∃ a, Wins l a ∧ a.method = id := by
  rw [best?_eq, Option.bind_eq_some_iff]
  constructor
  · rintro ⟨most, hmost, h⟩
    obtain ⟨a, ha, hid⟩ := Option.map_eq_some_iff.mp h
    obtain ⟨hwins, hcount, hall⟩ := filter_eq_singleton_iff.mp (only?_eq_some_iff.mp ha)
    obtain ⟨hexact, hbeats⟩ := Bool.and_eq_true_iff.mp hwins
    obtain rfl : a.exact = most := beq_iff_eq.mp hexact
    refine ⟨a, ⟨hcount, fun b hb hne => ?_⟩, hid⟩
    have hmem : a ∈ l := List.count_pos_iff.mp (by rw [hcount]; exact Nat.one_pos)
    have hle : b.exact ≤ a.exact := (List.max?_eq_some_iff.mp hmost).2 _ (List.mem_map_of_mem hb)
    -- `most` is the largest number of exact arguments, and only those that reach it are compared
    rcases Nat.lt_or_eq_of_le hle with hlt | heq
    · exact .inl hlt
    · have hb' := List.all_eq_true.mp hbeats b (List.mem_filter.mpr ⟨hb, beq_iff_eq.mpr heq⟩)
      rcases Bool.or_eq_true_iff.mp hb' with hsame | hdominates
      · exact absurd (hone b hb a hmem (beq_iff_eq.mp hsame).symm) hne
      · obtain ⟨hdominates, hnot⟩ := Bool.and_eq_true_iff.mp hdominates
        exact .inr ⟨heq, hdominates, by simpa using hnot⟩
  · rintro ⟨a, ha, rfl⟩
    have hle : ∀ b ∈ l, b.exact ≤ a.exact := by
      intro b hb
      by_cases hne : b = a
      · rw [hne]
      · rcases ha.2 b hb hne with hlt | ⟨heq, -⟩ <;> omega
    have hmost : (l.map Applicable.exact).max? = some a.exact := by
      refine List.max?_eq_some_iff.mpr ⟨List.mem_map_of_mem ha.mem, fun k hk => ?_⟩
      obtain ⟨b, hb, rfl⟩ := List.mem_map.mp hk
      exact hle b hb
    refine ⟨a.exact, hmost, ?_⟩
    rw [only?_eq_some_iff.mpr (filter_eq_singleton_iff.mpr ⟨?_, ha.1, ?_⟩)]
    · rfl
    · refine Bool.and_eq_true_iff.mpr ⟨beq_self_eq_true _, List.all_eq_true.mpr fun b hb => ?_⟩
      obtain ⟨hb, hexact⟩ := List.mem_filter.mp hb
      by_cases hne : b = a
      · simp [hne]
      · rcases ha.2 b hb hne with hlt | ⟨-, hdominates, hnot⟩
        · exact absurd (beq_iff_eq.mp hexact) (Nat.ne_of_lt hlt)
        · simp [hdominates, hnot]
    · -- a second winner would have to beat the first one
      intro b hb hwins
      obtain ⟨hexact, hbeats⟩ := Bool.and_eq_true_iff.mp hwins
      by_contra hne
      have ha' := List.all_eq_true.mp hbeats a (List.mem_filter.mpr ⟨ha.mem, beq_self_eq_true _⟩)
      rcases Bool.or_eq_true_iff.mp ha' with hsame | hdominates
      · exact hne (hone b hb a ha.mem (beq_iff_eq.mp hsame))
      · obtain ⟨hdominates, hnot⟩ := Bool.and_eq_true_iff.mp hdominates
        refine (ha.2 b hb hne).not_beats (.inr ⟨?_, hdominates, by simpa using hnot⟩)
        exact (beq_iff_eq.mp hexact).symm

theorem best?_perm (hone : OneEach l) (hperm : l.Perm l') : best? l = best? l' := by
  have hone' : OneEach l' := fun a ha b hb =>
    hone a (hperm.mem_iff.mpr ha) b (hperm.mem_iff.mpr hb)
  refine Option.ext fun id => ?_
  rw [best?_eq_some_iff hone, best?_eq_some_iff hone']
  constructor
  · rintro ⟨a, ha, hid⟩
    exact ⟨a, ha.perm hperm, hid⟩
  · rintro ⟨a, ha, hid⟩
    exact ⟨a, ha.perm hperm.symm, hid⟩

/-- A winner wins among more when it beats them too. -/
theorem Wins.append (h : Wins l a) (hbeats : ∀ x ∈ others, Beats a x) : Wins (l ++ others) a := by
  have hother : a ∉ others := fun ha => not_beats_self a (hbeats a ha)
  refine ⟨by rw [List.count_append, h.1, List.count_eq_zero.mpr hother], fun b hb hne => ?_⟩
  rcases List.mem_append.mp hb with hb | hb
  · exact h.2 b hb hne
  · exact hbeats b hb

/-- **Others leave the outcome as it is** just when a winner beats them and none of them wins. -/
theorem best?_append_eq_iff (hone : OneEach (l ++ others)) :
    best? (l ++ others) = best? l ↔
      (∀ a, Wins l a → ∀ x ∈ others, Beats a x) ∧ ∀ x ∈ others, ¬ Wins (l ++ others) x := by
  have hone' : OneEach l := fun a ha b hb =>
    hone a (List.mem_append_left _ ha) b (List.mem_append_left _ hb)
  -- a winner of all that bears the name of one in a list is that one
  have hsame : ∀ {a b}, Wins (l ++ others) a → b ∈ l ++ others → b.method = a.method → b = a :=
    fun ha hb => hone _ hb _ ha.mem
  constructor
  · intro heq
    constructor
    · intro a ha x hx
      have hbest := (best?_eq_some_iff hone').mpr ⟨a, ha, rfl⟩
      obtain ⟨a', ha', hmethod⟩ := (best?_eq_some_iff hone).mp (heq.trans hbest)
      obtain rfl := hsame ha' (List.mem_append_left _ ha.mem) hmethod.symm
      refine ha'.2 x (List.mem_append_right _ hx) fun hxa => ?_
      have hcount := ha'.1
      have hmore := List.count_pos_iff.mpr (hxa ▸ hx)
      rw [List.count_append, ha.1] at hcount
      omega
    · intro x hx hwins
      have hbest := (best?_eq_some_iff hone).mpr ⟨x, hwins, rfl⟩
      obtain ⟨a, ha, hmethod⟩ := (best?_eq_some_iff hone').mp (heq.symm.trans hbest)
      obtain rfl := hsame hwins (List.mem_append_left _ ha.mem) hmethod
      have hcount := hwins.1
      have hmore := List.count_pos_iff.mpr hx
      rw [List.count_append, ha.1] at hcount
      omega
  · rintro ⟨hbeats, hnone⟩
    refine Option.ext fun id => ?_
    rw [best?_eq_some_iff hone, best?_eq_some_iff hone']
    constructor
    · rintro ⟨a, ha, hid⟩
      have hother : a ∉ others := fun hmem => hnone a hmem ha
      have hcount := ha.1
      rw [List.count_append, List.count_eq_zero.mpr hother] at hcount
      exact ⟨a, ⟨hcount, fun b hb => ha.2 b (List.mem_append_left _ hb)⟩, hid⟩
    · rintro ⟨a, ha, hid⟩
      exact ⟨a, ha.append (hbeats a ha), hid⟩

end Overloads

/-! ## Calls and their candidates

A call is bound to the winner among the methods that accept its arguments.  Neither their order nor
how often one is listed makes a difference. -/

namespace Binder

open Overloads

variable {b : Binder} {call : NodeId} {v : InvocationView} {name : String} {type base : TypeId}
  {ids ids' : List MethodId} {infos : List ArgumentInfo}

/-- What the methods of some numbers make of the arguments of a call, those left out that do not
accept them or have another number of type parameters than the call has type arguments. -/
def accepted (b : Binder) (v : InvocationView) (infos : List ArgumentInfo) (ids : List MethodId) :
    List Applicable :=
  ((ids.filterMap b.program.method?).filter fun m =>
    (genericArity? b.tree v.callee).all fun n => m.typeParameterCount == n).filterMap fun m =>
      applicable? m infos

/-- **A call is bound to the winner among the methods that accept its arguments.** -/
theorem resolveInvocation?_eq_best? (hv : InvocationView.ofNode? b.tree call = some v)
    (hinfos : (v.argumentViews b.tree).mapM b.argumentInfo = .ok infos)
    (hcandidates : b.calleeCandidates v.callee = .ok ids) :
    b.resolveInvocation? call = .ok (best? (b.accepted v infos ids)) := by
  unfold resolveInvocation?
  simp only [hv, hcandidates, hinfos, ok_bind]
  split
  next hempty =>
    rw [List.isEmpty_iff.mp hempty]
    rfl
  next => rfl

theorem accepted_append (b : Binder) (v : InvocationView) (infos : List ArgumentInfo)
    (ids ids' : List MethodId) :
    b.accepted v infos (ids ++ ids') = b.accepted v infos ids ++ b.accepted v infos ids' := by
  simp only [accepted, List.filterMap_append, List.filter_append]

theorem accepted_perm (h : ids.Perm ids') :
    (b.accepted v infos ids).Perm (b.accepted v infos ids') :=
  ((h.filterMap _).filter _).filterMap _

/-- A method makes one thing of the arguments. -/
theorem oneEach_accepted (hp : b.program.Numbered) : OneEach (b.accepted v infos ids) := by
  have hsymbol : ∀ {a}, a ∈ b.accepted v infos ids → ∃ m,
      b.program.method? a.method = some m ∧ applicable? m infos = some a := by
    intro a ha
    obtain ⟨m, hm, happlicable⟩ := List.mem_filterMap.mp ha
    obtain ⟨id, -, hid⟩ := List.mem_filterMap.mp (List.mem_filter.mp hm).1
    rw [method_of_applicable? happlicable, hp id m hid]
    exact ⟨m, hid, happlicable⟩
  intro a ha a' ha' hmethod
  obtain ⟨m, hm, happlicable⟩ := hsymbol ha
  obtain ⟨m', hm', happlicable'⟩ := hsymbol ha'
  obtain rfl : m = m' := Option.some.inj (hm.symm.trans (hmethod ▸ hm'))
  exact Option.some.inj (happlicable.symm.trans happlicable')

/-! ## Calls through `base`

The base list of a class names its interfaces too, and the methods of these are candidates as well.
So a call through `base` is bound as on the class alone just when the others neither win nor keep
its winner from winning. -/

/-- A call of a name through `base`, and the type around it. -/
structure IsBaseCall (b : Binder) (call : NodeId) (v : InvocationView) (name : String)
    (type : TypeId) : Prop where
  view : InvocationView.ofNode? b.tree call = some v
  kind : b.tree.kind v.callee = .memberAccessExpression
  parts : ∃ parts ∈ firstAndLast? (b.tree.childNodes v.callee),
    b.tree.kind parts.1 = .baseExpression ∧ b.frontName parts.2 = name
  enclosing : b.enclosingType? v.callee = some type

theorem isBaseCall_iff : b.IsBaseCall call v name type ↔
    InvocationView.ofNode? b.tree call = some v ∧
      b.tree.kind v.callee = .memberAccessExpression ∧
      (∃ parts ∈ firstAndLast? (b.tree.childNodes v.callee),
        b.tree.kind parts.1 = .baseExpression ∧ b.frontName parts.2 = name) ∧
      b.enclosingType? v.callee = some type :=
  ⟨fun h => ⟨h.view, h.kind, h.parts, h.enclosing⟩, fun h => ⟨h.1, h.2.1, h.2.2.1, h.2.2.2⟩⟩

instance : Decidable (b.IsBaseCall call v name type) := decidable_of_iff _ isBaseCall_iff.symm

theorem IsBaseCall.calleeCandidates_eq (h : b.IsBaseCall call v name type) :
    b.calleeCandidates v.callee =
      .ok ((b.program.basesOf type).flatMap fun base => b.program.methodsNamed base name) := by
  obtain ⟨⟨r, x⟩, hparts, hr, rfl⟩ := h.parts
  have hparts : firstAndLast? (b.tree.childNodes v.callee) = some (r, x) := hparts
  have hr : b.tree.kind r = .baseExpression := hr
  unfold calleeCandidates
  simp only [h.kind, hparts, hr, beq_self_eq_true, if_true, h.enclosing, Option.map_some,
    Option.getD_some]
  rfl

/-- The methods of a name on the other types that the base list of a type names. -/
def methodsOnOthers (p : Program) (type base : TypeId) (name : String) : List MethodId :=
  ((p.basesOf type).erase base).flatMap fun other => p.methodsNamed other name

/-- **A call through `base` is bound like a call on one of the bases** just when the method that
wins there, if one does, beats every method of the other bases that accepts the arguments, and none
of these wins over all. -/
theorem base_calls_bind_on_class {s : Solution} (hprogram : b.program = .ofSolution s)
    (hcall : b.IsBaseCall call v name type) (hbase : base ∈ b.program.basesOf type)
    (hinfos : (v.argumentViews b.tree).mapM b.argumentInfo = .ok infos) :
    b.resolveInvocation? call =
        .ok (best? (b.accepted v infos (b.program.methodsNamed base name))) ↔
      (∀ a, Wins (b.accepted v infos (b.program.methodsNamed base name)) a →
          ∀ x ∈ b.accepted v infos (methodsOnOthers b.program type base name), Beats a x) ∧
        ∀ x ∈ b.accepted v infos (methodsOnOthers b.program type base name),
          ¬ Wins (b.accepted v infos (b.program.methodsNamed base name) ++
            b.accepted v infos (methodsOnOthers b.program type base name)) x := by
  have hnumbered : b.program.Numbered := hprogram ▸ Program.numbered_ofSolution s
  have hsplit : ((b.program.basesOf type).flatMap fun base =>
      b.program.methodsNamed base name).Perm
        (b.program.methodsNamed base name ++ methodsOnOthers b.program type base name) :=
    (List.perm_cons_erase hbase).flatMap_right _
  rw [resolveInvocation?_eq_best? hcall.view hinfos hcall.calleeCandidates_eq, Except.ok.injEq,
    best?_perm (oneEach_accepted hnumbered) (accepted_perm hsplit), accepted_append]
  refine best?_append_eq_iff ?_
  rw [← accepted_append]
  exact oneEach_accepted hnumbered

/-- The argument has the very type of the parameter of the method on the base class. -/
theorem base_calls_bind_on_class_specific : ∃ s, Solution.ofSources [("A.cs",
    "interface I{void M(long a);}class B{public void M(int a){}}class C:B,I{void N(){base.M(1);}}")]
      = .ok s ∧
    ∃ d ∈ s.documents, ∃ call v infos type base,
      (ofDocument (.ofSolution s) d).IsBaseCall call v "M" type ∧
      base ∈ (Program.ofSolution s).basesOf type ∧ (Program.ofSolution s).qualifiedName base = "B" ∧
      (v.argumentViews d.tree).mapM (ofDocument (.ofSolution s) d).argumentInfo = .ok infos ∧
      ((ofDocument (.ofSolution s) d).accepted v infos
        (methodsOnOthers (.ofSolution s) type base "M")).map Applicable.method = [210] ∧
      (ofDocument (.ofSolution s) d).resolveInvocation? call = .ok (best?
        ((ofDocument (.ofSolution s) d).accepted v infos
          ((Program.ofSolution s).methodsNamed base "M"))) ∧
      (ofDocument (.ofSolution s) d).resolveInvocation? call = .ok (some 211) := by
  have hrun : ((Solution.ofSources [("A.cs",
    "interface I{void M(long a);}class B{public void M(int a){}}class C:B,I{void N(){base.M(1);}}")]
      ).toOption.any fun s =>
      decide (∃ d ∈ s.documents, ∃ call ∈ d.tree.descendants root,
        ∃ v ∈ InvocationView.ofNode? d.tree call,
        ∃ infos ∈ ((v.argumentViews d.tree).mapM
          (ofDocument (.ofSolution s) d).argumentInfo).toOption,
        ∃ type ∈ (ofDocument (.ofSolution s) d).enclosingType? v.callee,
        ∃ base ∈ (Program.ofSolution s).basesOf type,
        (ofDocument (.ofSolution s) d).IsBaseCall call v "M" type ∧
        (Program.ofSolution s).qualifiedName base = "B" ∧
        ((ofDocument (.ofSolution s) d).accepted v infos
          (methodsOnOthers (.ofSolution s) type base "M")).map Applicable.method = [210] ∧
        (∀ a ∈ (ofDocument (.ofSolution s) d).accepted v infos
            ((Program.ofSolution s).methodsNamed base "M"),
          ∀ x ∈ (ofDocument (.ofSolution s) d).accepted v infos
            (methodsOnOthers (.ofSolution s) type base "M"), Beats a x) ∧
        (∀ x ∈ (ofDocument (.ofSolution s) d).accepted v infos
            (methodsOnOthers (.ofSolution s) type base "M"),
          ¬ Wins ((ofDocument (.ofSolution s) d).accepted v infos
              ((Program.ofSolution s).methodsNamed base "M") ++
            (ofDocument (.ofSolution s) d).accepted v infos
              (methodsOnOthers (.ofSolution s) type base "M")) x) ∧
        ((ofDocument (.ofSolution s) d).resolveInvocation? call).toOption =
          some (some 211))) = true := by
    rw [Solution.toOption_ofSources String.toList_ofList]
    decide +kernel
  cases h : Solution.ofSources [("A.cs",
    "interface I{void M(long a);}class B{public void M(int a){}}class C:B,I{void N(){base.M(1);}}")]
      with
  | error e =>
    rw [h] at hrun
    cases hrun
  | ok s =>
    rw [h] at hrun
    obtain ⟨d, hd, call, -, v, -, infos, hinfos, type, -, base, hbase, hcall, hname, hothers,
      hbeats, hnone, hbound⟩ := of_decide_eq_true hrun
    have hinfos := toOption_eq_some_iff.mp hinfos
    have hsame := (base_calls_bind_on_class (s := s) rfl hcall hbase hinfos).mpr
      ⟨fun a ha => hbeats a ha.mem, hnone⟩
    exact ⟨s, rfl, d, hd, call, v, infos, type, base, hcall, hbase, hname, hinfos, hothers, hsame,
      toOption_eq_some_iff.mp hbound⟩

/-- **An interface makes a call through `base` ambiguous** that has a single method on the base
class. -/
theorem interface_makes_base_call_ambiguous : ∃ s, Solution.ofSources [("A.cs",
    "interface I{void M(int a);}class B{public void M(int a){}}class C:B,I{void N(){base.M(1);}}")]
      = .ok s ∧
    ∃ d ∈ s.documents, ∃ call v infos type base,
      (ofDocument (.ofSolution s) d).IsBaseCall call v "M" type ∧
      base ∈ (Program.ofSolution s).basesOf type ∧ (Program.ofSolution s).qualifiedName base = "B" ∧
      (v.argumentViews d.tree).mapM (ofDocument (.ofSolution s) d).argumentInfo = .ok infos ∧
      best? ((ofDocument (.ofSolution s) d).accepted v infos
        ((Program.ofSolution s).methodsNamed base "M")) = some 211 ∧
      (ofDocument (.ofSolution s) d).resolveInvocation? call = .ok none := by
  have hrun : ((Solution.ofSources [("A.cs",
    "interface I{void M(int a);}class B{public void M(int a){}}class C:B,I{void N(){base.M(1);}}")]
      ).toOption.any fun s =>
      decide (∃ d ∈ s.documents, ∃ call ∈ d.tree.descendants root,
        ∃ v ∈ InvocationView.ofNode? d.tree call,
        ∃ infos ∈ ((v.argumentViews d.tree).mapM
          (ofDocument (.ofSolution s) d).argumentInfo).toOption,
        ∃ type ∈ (ofDocument (.ofSolution s) d).enclosingType? v.callee,
        ∃ base ∈ (Program.ofSolution s).basesOf type,
        (ofDocument (.ofSolution s) d).IsBaseCall call v "M" type ∧
        (Program.ofSolution s).qualifiedName base = "B" ∧
        best? ((ofDocument (.ofSolution s) d).accepted v infos
          ((Program.ofSolution s).methodsNamed base "M")) = some 211 ∧
        ((ofDocument (.ofSolution s) d).resolveInvocation? call).toOption = some none)) =
      true := by
    rw [Solution.toOption_ofSources String.toList_ofList]
    decide +kernel
  cases h : Solution.ofSources [("A.cs",
    "interface I{void M(int a);}class B{public void M(int a){}}class C:B,I{void N(){base.M(1);}}")]
      with
  | error e =>
    rw [h] at hrun
    cases hrun
  | ok s =>
    rw [h] at hrun
    obtain ⟨d, hd, call, -, v, -, infos, hinfos, type, -, base, hbase, hcall, hname, hbest,
      hbound⟩ := of_decide_eq_true hrun
    exact ⟨s, rfl, d, hd, call, v, infos, type, base, hcall, hbase, hname,
      toOption_eq_some_iff.mp hinfos, hbest, toOption_eq_some_iff.mp hbound⟩

end Binder

end CodeMend
