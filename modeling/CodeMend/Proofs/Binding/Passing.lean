import CodeMend.Plan.Resolve
import CodeMend.Proofs.Lists

/-!
# CodeMend — which argument goes to which parameter

Overload resolution passes the arguments of a call one after the other.  `Passes` is the relational
side of that walk: it keeps the index of the parameter that each argument went to, which the walk
itself throws away.

* **`passes_of_passArguments?`** — a walk that comes to its end is in the relation.
* **`Passes.eq_of_bound`** — a parameter takes one argument, unless it collects all further ones.
* **`Passes.argumentFor?`** — the planning of a fix finds the argument that overload resolution
  passed to a parameter.
-/

namespace CodeMend.Overloads

/-! ## Arguments that are passed

Passing is stated as a relation over the list of arguments that knows the position, so that an
induction over the arguments has everything the walk carries along. -/

section Passing

variable {ps : List ParameterSymbol} {position : Nat} {named : Bool} {filled bound : List Nat}
  {as : List ArgumentInfo} {targets : List StaticType} {a : ArgumentInfo} {p : ParameterSymbol}
  {i k l : Nat}

/-- **The arguments from a position on are passed.**  `filled` are the parameters that arguments in
front went to, and `named` says that one of these had a label; `bound` and `targets` are the index
of the parameter and the type for each argument. -/
inductive Passes (ps : List ParameterSymbol) :
    Nat → Bool → List Nat → List ArgumentInfo → List Nat → List StaticType → Prop where
  | done {position : Nat} {named : Bool} {filled : List Nat} :
      Passes ps position named filled [] [] []
  | next {position : Nat} {named : Bool} {filled : List Nat} {a : ArgumentInfo}
      {as : List ArgumentInfo} {i : Nat} {p : ParameterSymbol} {target : StaticType}
      {bound : List Nat} {targets : List StaticType}
      (hindex : bindArgument? ps position named a.name = some i) (hparameter : ps[i]? = some p)
      (honce : i ∈ filled → p.isParams = true) (hmode : modeMatches p.mode a.mode = true)
      (htarget : target? p a.type = some target)
      (hrest : Passes ps (position + 1) (named || a.name.isSome) (i :: filled) as bound targets) :
      Passes ps position named filled (a :: as) (i :: bound) (target :: targets)

/-! ## The walk and the relation

One step of the walk is one rule of the relation, and the walk is then followed by induction over
the arguments. -/

/-- **What one argument does to the walk.** -/
theorem passArgument?_eq_some_iff {s s' : Progress} :
    passArgument? ps position s a = some s' ↔
      ∃ i p target, bindArgument? ps position s.namedSeen a.name = some i ∧ ps[i]? = some p ∧
        (i ∈ s.filled → p.isParams = true) ∧ modeMatches p.mode a.mode = true ∧
        target? p a.type = some target ∧
        s' = ⟨i :: s.filled, s.targets ++ [target],
          if a.type.isKnown && a.type == target then s.exact + 1 else s.exact,
          s.namedSeen || a.name.isSome⟩ := by
  unfold passArgument?
  constructor
  · intro h
    obtain ⟨i, hindex, h⟩ := Option.bind_eq_some_iff.mp h
    obtain ⟨p, hparameter, h⟩ := Option.bind_eq_some_iff.mp h
    split at h
    · cases h
    next honce =>
      split at h
      · cases h
      next hmode =>
        obtain ⟨target, htarget, h⟩ := Option.bind_eq_some_iff.mp h
        refine ⟨i, p, target, hindex, hparameter, ?_, by simpa using hmode, htarget, ?_⟩
        · intro hi
          cases hparams : p.isParams with
          | true => rfl
          | false => exact absurd (by simp [hi, hparams]) honce
        · exact (Option.some.inj h).symm
  · rintro ⟨i, p, target, hindex, hparameter, honce, hmode, htarget, rfl⟩
    simpa [hindex, hparameter, hmode, htarget] using honce

/-- **A walk that comes to its end has passed the arguments.** -/
theorem passes_of_passArguments? {s s' : Progress}
    (h : passArguments? ps position s as = some s') :
    ∃ bound targets, Passes ps position s.namedSeen s.filled as bound targets ∧
      s'.filled = bound.reverse ++ s.filled := by
  induction as generalizing position s with
  | nil =>
    obtain rfl : s = s' := Option.some.inj h
    exact ⟨[], [], .done, rfl⟩
  | cons a as ih =>
    obtain ⟨s₁, hstep, hrest⟩ := Option.bind_eq_some_iff.mp h
    obtain ⟨i, p, target, hindex, hparameter, honce, hmode, htarget, rfl⟩ :=
      passArgument?_eq_some_iff.mp hstep
    obtain ⟨bound, targets, hpasses, hfilled⟩ := ih hrest
    refine ⟨i :: bound, target :: targets, .next hindex hparameter honce hmode htarget hpasses, ?_⟩
    rw [hfilled]
    simp

/-- Every parameter has an argument or can do without. -/
def Supplied (ps : List ParameterSymbol) (filled : List Nat) : Prop :=
  ∀ i p, ps[i]? = some p → i ∈ filled ∨ p.hasDefault = true ∨ p.isParams = true

theorem complete_iff : complete ps filled = true ↔ Supplied ps filled := by
  unfold complete Supplied
  rw [List.all_eq_true]
  constructor
  · intro h i p hi
    have hmem : (p, i) ∈ ps.zipIdx := List.mem_zipIdx_iff_getElem?.mpr hi
    simpa [or_assoc] using h (p, i) hmem
  · rintro h ⟨p, i⟩ hmem
    have hi : ps[i]? = some p := List.mem_zipIdx_iff_getElem?.mp hmem
    simpa [or_assoc] using h i p hi

theorem method_of_applicable? {m : MethodSymbol} {x : Applicable} (h : applicable? m as = some x) :
    x.method = m.id := by
  unfold applicable? at h
  obtain ⟨s, -, h⟩ := Option.bind_eq_some_iff.mp h
  split at h
  · cases h
    rfl
  · cases h

/-! ## The argument that a parameter takes

The planning of a fix looks the other way, from a parameter to its argument, and by a search of its
own.  That both searches agree rests on a parameter being filled at most once, which the walk sees
to. -/

/-- What `bindArgument?` does with an argument without a label. -/
theorem bindArgument?_none (hindex : bindArgument? ps position named none = some i) :
    named = false ∧ (position < ps.length ∧ i = position ∨
      ps.length ≤ position ∧ i = ps.length - 1 ∧ ∃ p, ps[i]? = some p ∧ p.isParams = true) := by
  unfold bindArgument? at hindex
  cases named with
  | true => simp at hindex
  | false =>
    refine ⟨rfl, ?_⟩
    simp only [Bool.false_eq_true, ↓reduceIte] at hindex
    split at hindex
    next hlt => exact Or.inl ⟨hlt, (Option.some.inj hindex).symm⟩
    next hge =>
      split at hindex
      next hlast =>
        obtain rfl : ps.length - 1 = i := Option.some.inj hindex
        obtain ⟨p, hp, hparams⟩ := (Option.any_eq_true ..).mp hlast
        rw [List.getLast?_eq_getElem?] at hp
        exact Or.inr ⟨by omega, rfl, p, hp, hparams⟩
      · cases hindex

namespace Passes

/-- **One argument of a list.** -/
theorem at_index (h : Passes ps position named filled as bound targets) (ha : as[k]? = some a) :
    ∃ i p n, bound[k]? = some i ∧ bindArgument? ps (position + k) n a.name = some i ∧
      ps[i]? = some p ∧ modeMatches p.mode a.mode = true := by
  induction h generalizing k with
  | done => simp at ha
  | @next position named _ b _ i p _ _ _ hindex hparameter _ hmode _ _ ih =>
    cases k with
    | zero =>
      obtain rfl : b = a := by simpa using ha
      exact ⟨i, p, named, rfl, hindex, hparameter, hmode⟩
    | succ k =>
      obtain ⟨i, p, n, hi, hindex, hrest⟩ := ih (by simpa using ha)
      refine ⟨i, p, n, by simpa using hi, ?_, hrest⟩
      rw [← hindex]
      congr 1
      omega

/-- An argument with a label goes to the first parameter of that name. -/
theorem bound_of_name {name : String} (h : Passes ps position named filled as bound targets)
    (ha : as[k]? = some a) (hname : a.name = some name) :
    bound[k]? = ps.findIdx? fun p => p.name == name := by
  obtain ⟨i, p, n, hi, hindex, -⟩ := h.at_index ha
  rw [hname] at hindex
  rw [hi, ← hindex, bindArgument?]

/-- An argument without a label goes to the parameter at its own position, unless there are fewer
parameters. -/
theorem bound_of_position (h : Passes ps position named filled as bound targets)
    (ha : as[k]? = some a) (hname : a.name = none) (hlt : position + k < ps.length) :
    bound[k]? = some (position + k) := by
  obtain ⟨i, p, n, hi, hindex, -⟩ := h.at_index ha
  rw [hname, bindArgument?] at hindex
  rw [hi]
  cases n with
  | true => simp at hindex
  | false => simpa [hlt] using hindex.symm

/-- **A parameter takes one argument**, unless it collects all further ones. -/
theorem not_taken (h : Passes ps position named filled as bound targets) (hk : bound[k]? = some i)
    (hp : ps[i]? = some p) (hparams : p.isParams = false) : i ∉ filled := by
  induction h generalizing k with
  | done => simp at hk
  | @next _ _ filled _ _ j q _ _ _ _ hparameter honce _ _ _ ih =>
    intro hi
    cases k with
    | zero =>
      obtain rfl : j = i := by simpa using hk
      obtain rfl : q = p := Option.some.inj (hparameter.symm.trans hp)
      simp [honce hi] at hparams
    | succ k => exact ih (by simpa using hk) (List.mem_cons_of_mem j hi)

theorem eq_of_bound (h : Passes ps position named filled as bound targets)
    (hk : bound[k]? = some i) (hl : bound[l]? = some i) (hp : ps[i]? = some p)
    (hparams : p.isParams = false) : k = l := by
  induction h generalizing k l with
  | done => simp at hk
  | @next _ _ _ _ _ j _ _ _ _ _ _ _ _ _ hrest ih =>
    cases k with
    | zero =>
      cases l with
      | zero => rfl
      | succ l =>
        obtain rfl : j = i := by simpa using hk
        exact absurd List.mem_cons_self (hrest.not_taken (by simpa using hl) hp hparams)
    | succ k =>
      cases l with
      | zero =>
        obtain rfl : j = i := by simpa using hl
        exact absurd List.mem_cons_self (hrest.not_taken (by simpa using hk) hp hparams)
      | succ l => exact congrArg (· + 1) (ih (by simpa using hk) (by simpa using hl))

/-- **The argument that the planning of a fix finds for a parameter is the one that overload
resolution passed to it.**  Names tell parameters apart. -/
theorem argumentFor? {t : Tree} {views : List ArgumentView} {info : ArgumentView → ArgumentInfo}
    (h : Passes ps 0 false [] (views.map info) bound targets)
    (hinfo : ∀ v, (info v).name = v.name? t) (hnames : (ps.map ParameterSymbol.name).Nodup)
    (hp : ps[i]? = some p) (hfor : Resolve.argumentFor? t views i p.name = some k) :
    bound[k]? = some i := by
  unfold Resolve.argumentFor? at hfor
  split at hfor
  next position hposition =>
    obtain rfl : position = k := Option.some.inj hfor
    obtain ⟨⟨v, hv, hname⟩, -⟩ := findIdx?_eq_some_iff.mp hposition
    have hlabel : (info v).name = some p.name := by
      rw [hinfo]
      simpa using hname
    rw [h.bound_of_name (a := info v) (by simp [hv]) hlabel, findIdx?_eq_some_iff]
    refine ⟨⟨p, hp, by simp⟩, fun j hj q hq => ?_⟩
    rw [beq_eq_false_iff_ne]
    intro hsame
    -- an earlier parameter of this name would be the same one
    have hlt : i < ps.length := (List.getElem?_eq_some_iff.mp hp).1
    have hij : j = i :=
      (List.getElem?_inj (by simp; omega) hnames).mp (by simp [hq, hp, hsame])
    omega
  next =>
    obtain ⟨v, hv, hfor⟩ := Option.bind_eq_some_iff.mp hfor
    split at hfor
    next hcolon =>
      obtain rfl : i = k := by simpa using hfor
      have hname : (info v).name = none := by
        rw [hinfo, ArgumentView.name?, Option.isNone_iff_eq_none.mp hcolon]
        rfl
      have hlt : i < ps.length := (List.getElem?_eq_some_iff.mp hp).1
      simpa using h.bound_of_position (a := info v) (by simp [hv]) hname (by omega)
    · cases hfor

end Passes

end Passing

end CodeMend.Overloads
