import CodeMend.Patch.OfRule
import CodeMend.Proofs.Binding.Passing
import CodeMend.Proofs.Binding.References

/-!
# CodeMend — the arguments that a plan names

Overload resolution binds the arguments of a call one after the other, by position or by label.  The
plan of a fix asks the other way round, for the argument of a parameter, and has rules of its own
for labels, positions and arguments that are left out.  For every list of arguments that a method
accepts the two agree, and so the results of a call are assigned to what was passed to the
parameters that gave them out.

* **`Overloads.boundTo?`** — the parameters that the arguments of an accepted list go to.
* **`Overloads.Passes.argumentFor?_eq_some`** — the argument that is passed to a parameter is found
  for it; `Overloads.Passes.argumentFor?` is the converse.
* **`Resolve.map_bound_of_argumentPositions?`** — the positions at the site of a call are those of
  the arguments that are passed to the affected parameters.
* **`Patch.targets_of_assignResult?`** — what the result of a call is assigned to.
* **`arguments_are_bound_alike`** — all of this for the plans of a program.
-/

namespace CodeMend

open Tree Production

/-! ## What the arguments of an accepted list go to

Overload resolution keeps no record of which argument went to which parameter.  The walk is repeated
here with that record, and the fix, which looks an argument up by label and position, finds the same
one. -/

namespace Overloads

variable {m : MethodSymbol} {ps : List ParameterSymbol} {p : ParameterSymbol}
  {as : List ArgumentInfo} {bound : List Nat} {targets : List StaticType} {i k : Nat}

/-- The index of the parameter that each argument goes to, when a method accepts the arguments:
what the walk through them fills, in the order of the arguments. -/
def boundTo? (m : MethodSymbol) (arguments : List ArgumentInfo) : Option (List Nat) := do
  let s ← passArguments? m.parameters 0 {} arguments
  if complete m.parameters s.filled then return s.filled.reverse else none

/-- A method that accepts the arguments binds them. -/
theorem isSome_boundTo? (m : MethodSymbol) (as : List ArgumentInfo) :
    (boundTo? m as).isSome = (applicable? m as).isSome := by
  unfold boundTo? applicable?
  cases passArguments? m.parameters 0 {} as with
  | none => rfl
  | some s =>
    simp only [Option.bind_eq_bind, Option.bind_some]
    split <;> rfl

theorem passes_of_boundTo? (h : boundTo? m as = some bound) :
    ∃ targets, Passes m.parameters 0 false [] as bound targets ∧ Supplied m.parameters bound := by
  obtain ⟨s, hwalk, h⟩ := Option.bind_eq_some_iff.mp h
  obtain ⟨bound', targets, hpasses, hfilled⟩ := passes_of_passArguments? hwalk
  split at h
  next hcomplete =>
    obtain rfl : bound = bound' := by
      rw [← Option.some.inj h, hfilled]
      simp
    refine ⟨targets, hpasses, fun i p hp => ?_⟩
    rw [hfilled] at hcomplete
    simpa using complete_iff.mp hcomplete i p hp
  next => cases h

namespace Passes

/-- Every argument goes somewhere. -/
theorem length_eq {position : Nat} {named : Bool} {filled : List Nat}
    (h : Passes ps position named filled as bound targets) : bound.length = as.length := by
  induction h with
  | done => rfl
  | next _ _ _ _ _ _ ih => rw [List.length_cons, List.length_cons, ih]

/-- **The argument that overload resolution passes to a parameter is found for it**, unless the
parameter collects all further arguments.  Every label has a name. -/
theorem argumentFor?_eq_some {t : Tree} {views : List ArgumentView}
    {info : ArgumentView → ArgumentInfo} (h : Passes ps 0 false [] (views.map info) bound targets)
    (hinfo : ∀ v, (info v).name = v.name? t)
    (hlabels : ∀ v ∈ views, v.name? t = none → v.nameColon = none)
    (hnames : (ps.map ParameterSymbol.name).Nodup) (hp : ps[i]? = some p)
    (hparams : p.isParams = false) (hk : bound[k]? = some i) :
    Resolve.argumentFor? t views i p.name = some k := by
  cases hfor : Resolve.argumentFor? t views i p.name with
  | some l => rw [h.eq_of_bound (h.argumentFor? hinfo hnames hp hfor) hk hp hparams]
  | none =>
    have hlt : k < views.length := by
      have hk := (List.getElem?_eq_some_iff.mp hk).1
      rwa [h.length_eq, List.length_map] at hk
    have ha : (views.map info)[k]? = some (info views[k]) := by simp [hlt]
    obtain ⟨j, q, n, hj, hindex, hq, -⟩ := h.at_index ha
    obtain rfl : i = j := Option.some.inj (hk.symm.trans hj)
    obtain rfl : p = q := Option.some.inj (hp.symm.trans hq)
    unfold Resolve.argumentFor? at hfor
    split at hfor
    next => cases hfor
    next hnone =>
      cases hname : (info views[k]).name with
      | some name =>
        -- an argument with a label has that of the parameter, and the search would have met it
        rw [hname, bindArgument?, findIdx?_eq_some_iff] at hindex
        obtain ⟨⟨q, hq, hlabel⟩, -⟩ := hindex
        obtain rfl : p = q := Option.some.inj (hp.symm.trans hq)
        rw [hinfo, ← beq_iff_eq.mp hlabel] at hname
        have hno := List.findIdx?_eq_none_iff.mp hnone views[k] (List.getElem_mem hlt)
        rw [hname, beq_self_eq_true] at hno
        cases hno
      | none =>
        -- an argument without one stands at the index of the parameter
        rw [hname] at hindex
        obtain ⟨-, ⟨-, hik⟩ | ⟨-, -, q, hq, hcollects⟩⟩ := bindArgument?_none hindex
        · have hcolon := hlabels _ (List.getElem_mem hlt) (by rw [← hinfo, hname])
          rw [hik, Nat.zero_add, List.getElem?_eq_getElem hlt] at hfor
          simp [hcolon] at hfor
        · obtain rfl : p = q := Option.some.inj (hp.symm.trans hq)
          rw [hcollects] at hparams
          cases hparams

end Passes

end Overloads

/-! ## The arguments of a list

A call is seen in two ways: as nodes of a tree, and as views with labels and modifiers.  Both count
the arguments alike. -/

variable {t : Tree} {n : NodeId}

namespace ArgumentView

theorem exists_ofNode? (hp : Parsed t) (hk : t.kind n = .argument) :
    ∃ v, ArgumentView.ofNode? t n = some v := by
  obtain ⟨e, he, hn⟩ := hp.childNodes_argument hk
  have hexpression : t.kind e ≠ .nameColon := by
    intro heq
    rw [heq] at he
    exact absurd he (by decide)
  have hfind : (t.childNodes n).find? (fun c => t.kind c != .nameColon) = some e := by
    rcases hn with hn | ⟨label, hn, hlabel⟩
    · simp [hn, hexpression]
    · simp [hn, hlabel, hexpression]
  unfold ArgumentView.ofNode?
  rw [if_neg (by simp [hk]), hfind]
  exact ⟨_, rfl⟩

/-- **A label has a name.** -/
theorem nameColon_eq_none (hp : Parsed t) {v : ArgumentView}
    (hv : ArgumentView.ofNode? t n = some v) (hname : v.name? t = none) : v.nameColon = none := by
  cases hcolon : v.nameColon with
  | none => rfl
  | some c =>
    have hc : t.childOfKind? n .nameColon = some c := by
      unfold ArgumentView.ofNode? at hv
      split at hv
      · cases hv
      · simp only [Option.bind_eq_bind, Option.bind_eq_some_iff, Option.pure_def,
          Option.some.injEq] at hv
        obtain ⟨e, -, rfl⟩ := hv
        exact hcolon
    have hk : t.kind c = .nameColon := by simpa using List.find?_some hc
    have hwords : Words t [a .identifierName, mark t.tokens ":"].prod (t.childNodes c) :=
      hp.words hk (by decide)
    obtain ⟨name, _, hn, hidentifier, h⟩ := hwords.kind
    have hfind : t.childOfKind? c .identifierName = some name := by
      rw [childOfKind?, hn]
      simp [hidentifier]
    rw [name?, hcolon] at hname
    simp [hfind] at hname

end ArgumentView

/-- Where every item has a view, the views stand at the indices of the items. -/
theorem getElem?_filterMap_of_isSome {α β : Type} {f : α → Option β} {xs : List α}
    (h : ∀ x ∈ xs, (f x).isSome = true) (i : Nat) : (xs.filterMap f)[i]? = xs[i]?.bind f := by
  induction xs generalizing i with
  | nil => rfl
  | cons x xs ih =>
    obtain ⟨hx, hxs⟩ := List.forall_mem_cons.mp h
    obtain ⟨y, hy⟩ := Option.isSome_iff_exists.mp hx
    rw [List.filterMap_cons_some hy]
    cases i with
    | zero => simp [hy]
    | succ i => simpa using ih hxs i

namespace InvocationView

variable {v : InvocationView}

/-- **The arguments of a call are counted as its views.** -/
theorem argument?_eq (hp : Parsed t) (hv : InvocationView.ofNode? t n = some v) (i : Nat) :
    v.argument? t i = (v.argumentViews t)[i]? := by
  obtain ⟨-, hk, harguments⟩ := arguments_eq hv
  have hitems : v.arguments.items = t.childNodes v.arguments.node := by rw [harguments]; rfl
  rw [argumentViews, getElem?_filterMap_of_isSome]
  · rfl
  · intro c hc
    rw [hitems] at hc
    have hargument := hp.kind_of_mem_arguments (by simp [hk]) c hc
    exact Option.isSome_iff_exists.mpr (ArgumentView.exists_ofNode? hp hargument)

end InvocationView

/-! ## The positions at the site of a call

A plan notes for every call at which positions the arguments stand that the fix has to change. -/

namespace ByDocument

variable {α : Type} {m : ByDocument α} {d : DocumentId} {new : List α}

/-- The values that are there after some were added are those from before and the new ones. -/
theorem mem_values_append {entry : DocumentId × List α} (h : entry ∈ m.append d new) {x : α}
    (hx : x ∈ entry.2) : (∃ old ∈ m, old.1 = entry.1 ∧ x ∈ old.2) ∨ entry.1 = d ∧ x ∈ new := by
  induction m with
  | nil =>
    obtain rfl := List.mem_singleton.mp h
    exact .inr ⟨rfl, hx⟩
  | cons first rest ih =>
    have hkeep : entry ∈ first :: rest → ∃ old ∈ first :: rest, old.1 = entry.1 ∧ x ∈ old.2 :=
      fun hmem => ⟨entry, hmem, rfl, hx⟩
    obtain ⟨e, xs⟩ := first
    unfold append at h
    split at h
    · rcases List.mem_cons.mp h with rfl | h
      · exact .inr ⟨rfl, hx⟩
      · exact .inl (hkeep h)
    · split at h
      next heq =>
        rcases List.mem_cons.mp h with rfl | h
        · rcases List.mem_append.mp hx with hx | hx
          · exact .inl ⟨(e, xs), List.mem_cons_self, rfl, hx⟩
          · exact .inr ⟨(beq_iff_eq.mp heq).symm, hx⟩
        · exact .inl (hkeep (List.mem_cons_of_mem _ h))
      next =>
        rcases List.mem_cons.mp h with rfl | h
        · exact .inl (hkeep List.mem_cons_self)
        · obtain ⟨old, hold, hrest⟩ | hnew := ih h
          · exact .inl ⟨old, List.mem_cons_of_mem _ hold, hrest⟩
          · exact .inr hnew

end ByDocument

namespace Resolve

variable {rule : Rule} {m : MethodSymbol} {bound : List Nat} {targets : List StaticType}

/-- **The positions that a plan names are those of the arguments that overload resolution passes to
the parameters.** -/
theorem map_bound_of_argumentPositions? {views : List ArgumentView}
    {info : ArgumentView → ArgumentInfo}
    (h : Overloads.Passes m.parameters 0 false [] (views.map info) bound targets)
    (hinfo : ∀ v, (info v).name = v.name? t)
    (hdistinct : (m.parameters.map ParameterSymbol.name).Nodup) {indices : List Nat}
    {names : List String} {positions : List Nat}
    (hnames : (indices.mapM fun i => m.parameters[i]?.map ParameterSymbol.name) = some names)
    (hpositions : argumentPositions? t rule views (indices.zip names) = some positions) :
    positions.map (fun k => bound[k]?) = indices.map some := by
  induction indices generalizing names positions with
  | nil =>
    obtain rfl : positions = [] := by simpa [argumentPositions?] using hpositions.symm
    rfl
  | cons i indices ih =>
    simp only [List.mapM_cons, Option.bind_eq_bind, Option.bind_eq_some_iff, Option.pure_def,
      Option.some.injEq] at hnames
    obtain ⟨name, hname, names, hnames, rfl⟩ := hnames
    obtain ⟨p, hp, rfl⟩ := Option.map_eq_some_iff.mp hname
    simp only [argumentPositions?, List.zip_cons_cons, List.mapM_cons, Option.bind_eq_bind,
      Option.bind_eq_some_iff, Option.pure_def, Option.some.injEq] at hpositions
    obtain ⟨k, ⟨position, hposition, a, -, hk⟩, positions, hpositions, rfl⟩ := hpositions
    obtain rfl : position = k := by
      split at hk
      · exact Option.some.inj hk
      · cases hk
    rw [List.map_cons, List.map_cons, ih hnames hpositions,
      h.argumentFor? hinfo hdistinct hp hposition]

/-- The site of a call that a fix can follow. -/
theorem exists_of_callSite? {parameters : List (Nat × String)} {r : MethodReference} {site : Site}
    (h : callSite? t rule parameters r = some site) :
    ∃ n v positions, r.role = .invocationCallee ∧ r.invocation = some n ∧
      InvocationView.ofNode? t n = some v ∧
      argumentPositions? t rule (v.argumentViews t) parameters = some positions ∧
      site = .ofNode t n (.call positions) := by
  unfold callSite? at h
  split at h
  · cases h
  next hrole =>
    simp only [Option.bind_eq_bind, Option.bind_eq_some_iff, Option.pure_def,
      Option.some.injEq] at h
    obtain ⟨n, hn, v, hv, positions, hpositions, rfl⟩ := h
    exact ⟨n, v, positions, by simpa using hrole, hn, hv, hpositions, rfl⟩

end Resolve

/-! ## What the result of a call is assigned to

When a method returns what it gave out, its calls assign the result.  What they assign to is what
was passed at the positions of the plan. -/

namespace Patch

/-- What is passed at some positions of a call. -/
theorem exists_of_outTargets? (hp : Parsed t) {positions : List Nat} {texts : List String}
    {v : InvocationView} (hv : InvocationView.ofNode? t n = some v)
    (h : outTargets? t n positions = some texts) :
    ∃ arguments : List ArgumentView,
      positions.map (fun k => (v.argumentViews t)[k]?) = arguments.map some ∧
      texts = arguments.map fun a => t.text a.expression := by
  simp only [outTargets?, hv, Option.bind_eq_bind, Option.bind_some] at h
  split at h
  · cases h
  induction positions generalizing texts with
  | nil =>
    obtain rfl : texts = [] := by simpa using h.symm
    exact ⟨[], rfl, rfl⟩
  | cons k positions ih =>
    simp only [List.mapM_cons, Option.bind_eq_bind, Option.bind_eq_some_iff, Option.pure_def,
      Option.some.injEq] at h
    obtain ⟨text, ⟨a, ha, htext⟩, texts, htexts, rfl⟩ := h
    obtain ⟨arguments, harguments, rfl⟩ := ih htexts
    rw [InvocationView.argument?_eq hp hv] at ha
    refine ⟨a :: arguments, by rw [List.map_cons, ha, harguments]; rfl, ?_⟩
    split at htext
    · cases htext
    · split at htext
      · cases htext
      · rw [List.map_cons, Option.some.inj htext]

/-- **The result of a call is assigned to what it passes at the positions**, in their order. -/
theorem targets_of_assignResult? (hp : Parsed t) {positions : List Nat}
    {target : List String → String} {patches : List Patch}
    (h : assignResult? t n positions target = some patches) :
    ∃ (v : InvocationView) (arguments : List ArgumentView) (removals : List Patch),
      InvocationView.ofNode? t n = some v ∧
      positions.map (fun k => (v.argumentViews t)[k]?) = arguments.map some ∧
      patches = removals ++ [insert (t.span n).start
        (target (arguments.map fun a => t.text a.expression) ++ " = ")] := by
  simp only [assignResult?, Option.bind_eq_bind, Option.bind_eq_some_iff, Option.pure_def,
    Option.some.injEq] at h
  obtain ⟨texts, htexts, v, hv, removals, -, rfl⟩ := h
  obtain ⟨arguments, hmap, rfl⟩ := exists_of_outTargets? hp hv htexts
  exact ⟨v, arguments, removals, hv, hmap, rfl⟩

end Patch

/-! ## The two ways of binding

Names have to tell the parameters apart, for the fix looks for the label of an argument among the
names, and a later parameter of the same name would be missed. -/

/-- The argument that the planning of a fix finds for each parameter is the one that overload
resolution passes to it. -/
structure BoundAlike (t : Tree) (views : List ArgumentView) (m : MethodSymbol) (bound : List Nat) :
    Prop where
  /-- Every argument goes to a parameter. -/
  length_eq : bound.length = views.length
  /-- The argument at a position is found for a parameter exactly when it was passed to it. -/
  found_iff : ∀ i p, m.parameters[i]? = some p → p.isParams = false →
    ∀ k, Resolve.argumentFor? t views i p.name = some k ↔ bound[k]? = some i
  /-- None is found exactly when the parameter was left to its default. -/
  none_iff : ∀ i p, m.parameters[i]? = some p → p.isParams = false →
    (Resolve.argumentFor? t views i p.name = none ↔ i ∉ bound)
  default_of_none : ∀ i p, m.parameters[i]? = some p → p.isParams = false → i ∉ bound →
    p.hasDefault = true

/-- What a binder makes of arguments has their names. -/
theorem Binder.exists_info {b : Binder} {views : List ArgumentView} {infos : List ArgumentInfo}
    (h : views.mapM b.argumentInfo = .ok infos) :
    ∃ info : ArgumentView → ArgumentInfo, infos = views.map info ∧
      ∀ v, (info v).name = v.name? b.tree := by
  let info (v : ArgumentView) : ArgumentInfo :=
    { name := v.name? b.tree
      mode := ((v.refKindText? b.tree).bind PassMode.ofKeyword?).getD .value
      type := (b.typeOf v.expression).toOption.getD .unknown }
  have hinfo : List.Forall₂ (· = ·) infos (views.map info) := by
    refine List.forall₂_map_right_iff.mpr ((forall₂_of_mapM h).flip.imp fun i v hv => ?_)
    obtain ⟨T, hT, hv⟩ := exists_of_bind_eq_ok hv
    obtain rfl := Except.ok.inj hv
    simp only [info, hT]
    rfl
  rw [List.forall₂_eq_eq_eq] at hinfo
  exact ⟨info, hinfo, fun _ => rfl⟩

/-- **Arguments that a method accepts are bound alike**, when names tell its parameters apart. -/
theorem Overloads.boundAlike {b : Binder} (hp : Parsed b.tree) {views : List ArgumentView}
    (hviews : ∀ v ∈ views, ∃ n, ArgumentView.ofNode? b.tree n = some v) {m : MethodSymbol}
    (hnames : (m.parameters.map ParameterSymbol.name).Nodup) {infos : List ArgumentInfo}
    (hinfos : views.mapM b.argumentInfo = .ok infos) {bound : List Nat}
    (hbound : boundTo? m infos = some bound) : BoundAlike b.tree views m bound := by
  obtain ⟨info, rfl, hinfo⟩ := Binder.exists_info hinfos
  obtain ⟨targets, hpasses, hsupplied⟩ := passes_of_boundTo? hbound
  have hlabels : ∀ v ∈ views, v.name? b.tree = none → v.nameColon = none := by
    intro v hv hname
    obtain ⟨n, hn⟩ := hviews v hv
    exact ArgumentView.nameColon_eq_none hp hn hname
  -- A parameter that collects arguments has no single one, which is why it is left out.
  have hfound : ∀ i p, m.parameters[i]? = some p → p.isParams = false →
      ∀ k, Resolve.argumentFor? b.tree views i p.name = some k ↔ bound[k]? = some i := by
    intro i p hi hparams k
    exact ⟨hpasses.argumentFor? hinfo hnames hi,
      hpasses.argumentFor?_eq_some hinfo hlabels hnames hi hparams⟩
  refine ⟨by rw [hpasses.length_eq, List.length_map], hfound, ?_, ?_⟩
  · intro i p hi hparams
    rw [List.mem_iff_getElem?, Option.eq_none_iff_forall_ne_some]
    simp only [ne_eq, hfound i p hi hparams, not_exists]
  · intro i p hi hparams hnone
    rcases hsupplied i p hi with hmem | hdefault | hcollects
    · exact absurd hmem hnone
    · exact hdefault
    · rw [hcollects] at hparams
      cases hparams

/-! ## Plans

What holds of one list of arguments is carried over to the calls that a plan finds and to the
patches that are made for them. -/

namespace Resolve

variable {s : Solution} {d : Document} {m : MethodSymbol} {indices : List Nat}

/-- The site is that of a call which is bound to the method, and its positions are those of the
arguments that go to some parameters. -/
def IsBoundSite (p : Program) (m : MethodSymbol) (indices : List Nat) (id : DocumentId)
    (site : Site) : Prop :=
  ∀ positions, site.role = .call positions → ∃ d ∈ p.solution.documents, d.id = id ∧
    ∃ n v bound, site = .ofNode d.tree n (.call positions) ∧
      InvocationView.ofNode? d.tree n = some v ∧
      (Binder.ofDocument p d).resolveInvocation? n = .ok (some m.id) ∧
      (∃ infos, (v.argumentViews d.tree).mapM (Binder.ofDocument p d).argumentInfo = .ok infos ∧
        Overloads.boundTo? m infos = some bound) ∧
      positions.map (fun k => bound[k]?) = indices.map some

/-- **The site of a call among the references to the method is a bound site.** -/
theorem isBoundSite_of_callSite? (hs : s.Parsed) (hd : d ∈ s.documents)
    (hid : (Program.ofSolution s).method? m.id = some m)
    (hdistinct : (m.parameters.map ParameterSymbol.name).Nodup) {names : List String}
    (hnames : (indices.mapM fun i => m.parameters[i]?.map ParameterSymbol.name) = some names)
    {found : List MethodReference} (hfound : References.inDocument (.ofSolution s) m d = .ok found)
    {r : MethodReference} (hr : r ∈ found) {rule : Rule} {site : Site}
    (h : callSite? d.tree rule (indices.zip names) r = some site) :
    IsBoundSite (.ofSolution s) m indices d.id site := by
  have hnum := Program.numbered_ofSolution s
  obtain ⟨source, hparse⟩ := hs.parses d hd
  have hp : Parsed (Binder.ofDocument (.ofSolution s) d).tree := parsed_of_parse hparse
  obtain ⟨call, v, positions, hrole, hcall, hv, hpositions, rfl⟩ := exists_of_callSite? h
  -- the reference is one that overload resolution made, so the method accepts the arguments
  have hbound := References.resolves_of_mem_inDocument hparse hnum hid hfound hr hrole hcall
  obtain ⟨v', i, m', infos, hv', -, hm', -, -, hinfos, haccepts⟩ :=
    Binder.exists_of_resolveInvocation? hp hnum hbound
  obtain rfl : v = v' := Option.some.inj (hv.symm.trans hv')
  obtain rfl : m = m' := Option.some.inj (hid.symm.trans hm')
  rw [← Overloads.isSome_boundTo?] at haccepts
  obtain ⟨bound, hbinds⟩ := Option.isSome_iff_exists.mp haccepts
  obtain ⟨info, hinfo, hlabels⟩ := Binder.exists_info hinfos
  obtain ⟨targets, hpasses, -⟩ := Overloads.passes_of_boundTo? hbinds
  rw [hinfo] at hpasses
  have hmap := map_bound_of_argumentPositions? hpasses hlabels hdistinct hnames hpositions
  intro positions' hrole'
  obtain rfl : positions = positions' := by
    injection hrole'
  exact ⟨d, by rwa [Program.solution_ofSolution], rfl, call, v, bound, rfl, hv, hbound,
    ⟨infos, hinfos, hbinds⟩, hmap⟩

/-- **The calls of a plan are bound sites.** -/
theorem isBoundSite_of_signaturePlan (hs : s.Parsed) {rule : Rule} {n : NodeId}
    {cancelled : Bool} {plan : Plan}
    (h : signaturePlan (.ofSolution s) rule d n indices cancelled = .ok plan)
    (hm : (Program.ofSolution s).declaredMethod? d.id n = some m)
    (hid : (Program.ofSolution s).method? m.id = some m)
    (hdistinct : (m.parameters.map ParameterSymbol.name).Nodup) :
    ∀ entry ∈ plan.sites, ∀ site ∈ entry.2,
      IsBoundSite (.ofSolution s) m indices entry.1 site := by
  obtain ⟨m', names, references, sites, hm', hnames, hreferences, -, hsites, rfl⟩ :=
    exists_of_signaturePlan h
  obtain rfl : m = m' := Option.some.inj (hm.symm.trans hm')
  rw [Program.findReferences, hid, Program.solution_ofSolution] at hreferences
  obtain ⟨hall, hfound⟩ := References.eq_of_inDocuments hreferences
  -- the plan is gathered reference by reference, and begins with the declaration alone
  refine invariant_of_foldlM (P := fun sites : ByDocument Site => ∀ entry ∈ sites,
    ∀ site ∈ entry.2, IsBoundSite (.ofSolution s) m indices entry.1 site) ?_ ?_ hsites
  · intro r hr sites sites' hsites hstep
    obtain ⟨there, hthere, hstep⟩ := exists_of_bind_eq_ok hstep
    split at hstep
    next site hsite =>
      cases hstep
      intro entry hentry new hnew
      rcases ByDocument.mem_values_append hentry hnew with ⟨old, hold, heq, hmem⟩ | ⟨heq, hmem⟩
      · exact heq ▸ hsites old hold new hmem
      · obtain rfl := List.mem_singleton.mp hmem
        rw [hfound] at hr
        obtain ⟨e, he, hr⟩ := List.mem_flatMap.mp hr
        have hdocument := References.document_of_mem_inDocument (hall e he) hr
        rw [Program.solution_ofSolution, hdocument, hs.document_eq he] at hthere
        obtain rfl := Except.ok.inj hthere
        rw [heq, hdocument]
        exact isBoundSite_of_callSite? hs he hid hdistinct hnames (hall e he) hr hsite
    next =>
      cases hstep
      exact hsites
  · intro entry hentry site hsite positions hrole
    obtain rfl := List.mem_singleton.mp hentry
    obtain rfl := List.mem_singleton.mp hsite
    cases hrole

end Resolve

/-- The method that an anchor stands for has a view. -/
theorem Anchor.exists_view_of_method? {span : Span} {v : MethodView}
    (h : Anchor.method? t span = some v) : ∃ n, MethodView.ofNode? t n = some v := by
  simp only [Anchor.method?, Option.bind_eq_bind, Option.bind_eq_some_iff] at h
  obtain ⟨n, -, w, hw, h⟩ := h
  split at h
  · exact ⟨n, Option.some.inj h ▸ hw⟩
  · cases h

/-- The patches of a call assign its result to a tuple of the arguments that go to some parameters,
in the order of these parameters. -/
def Patch.AssignsTuple (t : Tree) (n : NodeId) (views : List ArgumentView) (bound indices : List Nat)
    (patches : List Patch) : Prop :=
  ∃ (arguments : List ArgumentView) (removals : List Patch),
    patches = removals ++ [insert (t.span n).start
      (tupled (arguments.map fun a => t.text a.expression) ++ " = ")] ∧
    List.Forall₂ (fun i a => ∃ k : Nat, bound[k]? = some i ∧ views[k]? = some a) indices arguments

/-- Positions of arguments that go to some parameters are those of what is assigned. -/
theorem Patch.assignsTuple_of_callPatches? (hp : Parsed t) {v : InvocationView}
    (hv : InvocationView.ofNode? t n = some v) {positions bound indices : List Nat}
    (hbound : positions.map (fun k => bound[k]?) = indices.map some) {patches : List Patch}
    (h : Rule.callPatches? .outsAsTuple t n positions = some patches) :
    AssignsTuple t n (v.argumentViews t) bound indices patches := by
  obtain ⟨v', arguments, removals, hv', harguments, rfl⟩ := targets_of_assignResult? hp h
  obtain rfl : v = v' := Option.some.inj (hv.symm.trans hv')
  refine ⟨arguments, removals, rfl, ?_⟩
  clear h hv hv'
  induction positions generalizing indices arguments with
  | nil =>
    obtain rfl : indices = [] := by simpa using hbound.symm
    obtain rfl : arguments = [] := by simpa using harguments.symm
    exact .nil
  | cons k positions ih =>
    obtain ⟨i, indices, rfl⟩ := List.exists_cons_of_ne_nil (l := indices) (by rintro rfl; simp at hbound)
    obtain ⟨a, arguments, rfl⟩ :=
      List.exists_cons_of_ne_nil (l := arguments) (by rintro rfl; simp at harguments)
    simp only [List.map_cons, List.cons.injEq] at hbound harguments
    exact .cons ⟨k, hbound.1, harguments.1⟩ (ih hbound.2 arguments harguments.2)

open Resolve in
/-- **The planning of a fix and overload resolution bind arguments alike.**  For every list of
arguments that a method accepts whose parameters have names of their own, the argument that the
planning finds for a parameter is the one that overload resolution passes to it, and it finds none
exactly when the parameter is left to its default.  So the sites of a plan that turns out parameters
into a tuple name the arguments that go to these parameters in the order of their declaration, and
the result of each call is assigned to a tuple of just these; the last part says so for any tree in
which the call is found again. -/
theorem arguments_are_bound_alike {s : Solution} (hs : s.Parsed) :
    (∀ d ∈ s.documents, ∀ views : List ArgumentView,
      (∀ v ∈ views, ∃ n, ArgumentView.ofNode? d.tree n = some v) →
      ∀ m : MethodSymbol, (m.parameters.map ParameterSymbol.name).Nodup →
      ∀ infos, views.mapM (Binder.ofDocument (.ofSolution s) d).argumentInfo = .ok infos →
      (Overloads.applicable? m infos).isSome = true →
      ∃ bound, Overloads.boundTo? m infos = some bound ∧ BoundAlike d.tree views m bound) ∧
    (∀ f plan cancelled, f.rule = .outsAsTuple →
      Plan.resolve (.ofSolution s) f cancelled = .ok plan →
      ∃ d ∈ s.documents, ∃ v m, d.id = f.document ∧ MethodView.ofNode? d.tree v.node = some v ∧
        (Program.ofSolution s).declaredMethod? d.id v.node = some m ∧
        plan.parameters = outIndices d.tree (v.parameters d.tree) ∧
        ((m.parameters.map ParameterSymbol.name).Nodup →
          ∀ entry ∈ plan.sites, ∀ site ∈ entry.2, ∀ positions, site.role = .call positions →
            ∃ e ∈ s.documents, e.id = entry.1 ∧ ∃ n w bound,
              site = .ofNode e.tree n (.call positions) ∧
              InvocationView.ofNode? e.tree n = some w ∧
              (Binder.ofDocument (.ofSolution s) e).resolveInvocation? n = .ok (some m.id) ∧
              (∃ infos, (w.argumentViews e.tree).mapM
                  (Binder.ofDocument (.ofSolution s) e).argumentInfo = .ok infos ∧
                Overloads.boundTo? m infos = some bound) ∧
              positions.map (fun k => bound[k]?) = plan.parameters.map some ∧
              ∀ patches, Rule.callPatches? .outsAsTuple e.tree n positions = some patches →
                Patch.AssignsTuple e.tree n (w.argumentViews e.tree) bound plan.parameters
                  patches)) ∧
    (∀ source t, parse source = .ok t → ∀ n w, InvocationView.ofNode? t n = some w →
      ∀ positions bound indices : List Nat,
      positions.map (fun k => bound[k]?) = indices.map some →
      ∀ patches, Rule.callPatches? .outsAsTuple t n positions = some patches →
        Patch.AssignsTuple t n (w.argumentViews t) bound indices patches) := by
  refine ⟨?_, ?_, ?_⟩
  · intro d hd views hviews m hnames infos hinfos haccepts
    obtain ⟨source, h⟩ := hs.parses d hd
    rw [← Overloads.isSome_boundTo?] at haccepts
    obtain ⟨bound, hbound⟩ := Option.isSome_iff_exists.mp haccepts
    exact ⟨bound, hbound, Overloads.boundAlike (b := Binder.ofDocument (.ofSolution s) d)
      (parsed_of_parse h) hviews hnames hinfos hbound⟩
  · intro f plan cancelled hrule hplan
    obtain ⟨d, hd, ⟨-, -, -, hother, -⟩ | ⟨v, hanchor, -, hplan⟩ | ⟨_, hother, -⟩⟩ :=
      Plan.cases_of_resolve hplan
    · rw [hrule] at hother
      simp at hother
    · rw [Program.solution_ofSolution] at hd
      have hfound := Solution.document?_of_document hd
      have hmem : d ∈ s.documents := List.mem_of_find?_eq_some hfound
      have hid : d.id = f.document := Solution.id_of_document? hfound
      obtain ⟨m, names, references, sites, hm, -, -, -, -, hplan'⟩ := exists_of_signaturePlan hplan
      have hparameters : plan.parameters = outIndices d.tree (v.parameters d.tree) := by
        rw [hplan']
      have hmethod := (Program.declaredMethod?_ofSolution hs.nodup hmem hm).1
      refine ⟨d, hmem, v, m, hid, ?_, hm, hparameters, ?_⟩
      · obtain ⟨n, hn⟩ := Anchor.exists_view_of_method? hanchor
        rwa [(MethodView.mem_childNodes hn).1]
      · intro hdistinct entry hentry site hsite positions hrole
        obtain ⟨e, he, heid, n, w, bound, hsite, hw, hresolves, hbound, hmap⟩ :=
          isBoundSite_of_signaturePlan hs hplan hm hmethod hdistinct entry hentry site hsite
            positions hrole
        rw [Program.solution_ofSolution] at he
        rw [← hparameters] at hmap
        obtain ⟨source, h⟩ := hs.parses e he
        exact ⟨e, he, heid, n, w, bound, hsite, hw, hresolves, hbound, hmap, fun patches hpatches =>
          Patch.assignsTuple_of_callPatches? (parsed_of_parse h) hw hmap hpatches⟩
    · rw [hrule] at hother
      simp at hother
  · intro source t h n w hw positions bound indices hbound patches hpatches
    exact Patch.assignsTuple_of_callPatches? (parsed_of_parse h) hw hbound hpatches

/-- A method that gives out two values, and a call with its arguments in another order. -/
def labelled : String :=
  "class C{void M(out int a,int x,out int b){a=1;b=x;}void N(int p,int q){M(b:out p,a:out q,x:3);}}"

/-- The second argument goes to the first of the two parameters, and the first one to the second. -/
theorem arguments_are_bound_alike_labelled : ∃ s f plan m,
    Solution.ofSources [("A.cs", labelled)] = .ok s ∧ f.rule = .outsAsTuple ∧
      Plan.resolve (.ofSolution s) f false = .ok plan ∧
      (m.parameters.map ParameterSymbol.name).Nodup ∧
      ∃ e ∈ s.documents, ∃ n w bound, InvocationView.ofNode? e.tree n = some w ∧
        (∃ infos, (w.argumentViews e.tree).mapM
            (Binder.ofDocument (.ofSolution s) e).argumentInfo = .ok infos ∧
          Overloads.boundTo? m infos = some bound) ∧
        [1, 0].map (fun k => bound[k]?) = [some 0, some 2] := by
  have hrun : ((Solution.ofSources [("A.cs", labelled)]).toOption.any fun s =>
      (Program.ofSolution s).methods.toList.all (fun m =>
        decide (m.parameters.map ParameterSymbol.name).Nodup) &&
      (Check.solution (.ofSolution s) Rule.all).toOption.any fun fs =>
        fs.any fun f => f.rule == .outsAsTuple &&
          (Plan.resolve (.ofSolution s) f false).toOption.any fun plan =>
            plan.parameters == [0, 2] &&
              plan.sites.any fun entry => entry.2.any fun site => site.role == .call [1, 0]) =
      true := by
    rw [Solution.toOption_ofSources (show labelled.toList = _ from String.toList_ofList)]
    decide +kernel
  cases h : Solution.ofSources [("A.cs", labelled)] with
  | error e =>
    rw [h] at hrun
    cases hrun
  | ok s =>
    rw [h] at hrun
    obtain ⟨hmethods, hrun⟩ := (Bool.and_eq_true _ _).mp hrun
    obtain ⟨fs, -, hrun⟩ := (Option.any_eq_true _ _).mp hrun
    obtain ⟨f, -, hrun⟩ := List.any_eq_true.mp hrun
    obtain ⟨hrule, hrun⟩ := (Bool.and_eq_true _ _).mp hrun
    obtain ⟨plan, hplan, hrun⟩ := (Option.any_eq_true _ _).mp hrun
    obtain ⟨hparameters, hrun⟩ := (Bool.and_eq_true _ _).mp hrun
    obtain ⟨entry, hentry, hrun⟩ := List.any_eq_true.mp hrun
    obtain ⟨site, hsite, hrole⟩ := List.any_eq_true.mp hrun
    have hplan := toOption_eq_some_iff.mp hplan
    obtain ⟨d, hd, v, m, -, -, hm, -, hsites⟩ :=
      (arguments_are_bound_alike (Solution.parsed_of_ofSources h)).2.1 f plan false
        (beq_iff_eq.mp hrule) hplan
    have hdistinct : (m.parameters.map ParameterSymbol.name).Nodup :=
      of_decide_eq_true (List.all_eq_true.mp hmethods m
        (Array.mem_toList_iff.mpr (Array.mem_of_find?_eq_some hm)))
    obtain ⟨e, he, -, n, w, bound, -, hw, -, hbound, hmap, -⟩ :=
      hsites hdistinct entry hentry site hsite [1, 0] (beq_iff_eq.mp hrole)
    rw [beq_iff_eq.mp hparameters] at hmap
    exact ⟨s, f, plan, m, rfl, beq_iff_eq.mp hrule, hplan, hdistinct, e, he, n, w, bound, hw,
      hbound, hmap⟩

end CodeMend
