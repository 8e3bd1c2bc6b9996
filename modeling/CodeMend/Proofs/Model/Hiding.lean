import Mathlib.Algebra.BigOperators.Group.List.Basic
import Mathlib.Data.List.Nodup
import Mathlib.Data.List.TakeWhile
import Mathlib.Logic.Relation
import CodeMend.Model.Program
import CodeMend.Proofs.Binding.References

/-!
# CodeMend — the bases of a type, and methods that are hidden

The bases of a type are listed by a walk that takes types from a queue and puts the bases of each at
the end.  Types may be bases of each other in a circle: a type that was taken before is passed by.
The walk can only take as many types as there are entries in the lists of bases, which is the bound
that it is given, so it ends because the queue is empty and not because the bound is reached.

A lookup of methods by name takes the types one after the other, the type itself first, and leaves
out every method whose parameters are those of one that was found before.  So a method of a base is
hidden by a nearer type, as it should be; but a method is also hidden by another one of the same
type that differs from it in nothing but its type parameters.

* **`Program.Visits`** — the walk without a bound.
* **`Program.visits_basesFrom`** — the bound is large enough.
* **`Program.mem_withBases_iff`**, **`Program.nodup_withBases`** — the types that are reached
  through lists of bases are listed, each once.
* **`Program.visitedBefore_congr`** — the types in front of one do not depend on the bases that this
  one lists.
* **`Program.foldl_addUnlessHidden_of_pairwise`** — methods that differ in their parameters do not
  hide each other.
* **`Program.containingType_of_mem_methodsOf`** — a method is listed by the type that it bears.
* **`Program.mem_methodsNamed_iff`** — a method is found unless a type that is looked at before has
  one like it.
* **`Program.only_base_methods_are_hidden`** — so only methods of bases are hidden, and the order in
  which a type lists its methods and bases hides none.
* **`Program.type_parameters_are_overlooked`** — the methods that this leaves out.
-/

namespace CodeMend.Program

open Relation

section Bases

variable {p q : Program} {type t u : TypeId} {fuel : Nat} {seen queue visited : List TypeId}

/-- The second type is one of the bases that the first one lists. -/
def HasBase (p : Program) (t u : TypeId) : Prop := u ∈ p.basesOf t

/-! ## The walk

The code walks with fuel.  The relation is the same walk without it, and everything below is proved
of the relation. -/

/-- From a queue, and with some types seen before, the walk takes the types of a list. -/
inductive Visits (p : Program) : List TypeId → List TypeId → List TypeId → Prop where
  | done (seen : List TypeId) : Visits p seen [] []
  | skip {seen queue visited : List TypeId} {t : TypeId} (ht : t ∈ seen)
      (h : Visits p seen queue visited) : Visits p seen (t :: queue) visited
  | take {seen queue visited : List TypeId} {t : TypeId} (ht : t ∉ seen)
      (h : Visits p (t :: seen) (queue ++ p.basesOf t) visited) :
      Visits p seen (t :: queue) (t :: visited)

/-! ## The bound

A type gives its bases to the queue only when it is seen for the first time, so that no more types
ever stand in the queue than there are entries in the lists of bases.  That number is the fuel. -/

/-- How many entries the lists of bases hold, those of some types left out. -/
def edgesBeyond (p : Program) (seen : List TypeId) : Nat :=
  (((List.range p.types.size).filter fun t => !seen.contains t).flatMap p.basesOf).length

theorem basesOf_of_size_le (h : p.types.size ≤ t) : p.basesOf t = [] := by
  simp [basesOf, type?, Array.getElem?_eq_none h]

/-- A type that is seen for the first time gives its bases away. -/
theorem edgesBeyond_cons (ht : t ∉ seen) :
    p.edgesBeyond (t :: seen) + (p.basesOf t).length = p.edgesBeyond seen := by
  by_cases hsize : t < p.types.size
  · have hmem : t ∈ (List.range p.types.size).filter fun u => !seen.contains u := by
      simp [hsize, ht]
    have hnodup : ((List.range p.types.size).filter fun u => !seen.contains u).Nodup :=
      List.nodup_range.filter _
    have herase : (List.range p.types.size).filter (fun u => !(t :: seen).contains u) =
        ((List.range p.types.size).filter fun u => !seen.contains u).erase t := by
      rw [hnodup.erase_eq_filter, List.filter_filter]
      refine List.filter_congr fun u _ => ?_
      rw [List.contains_cons, Bool.not_or]
      rfl
    rw [edgesBeyond, edgesBeyond, herase, List.length_flatMap, List.length_flatMap, Nat.add_comm,
      ← List.sum_map_erase (fun u => (p.basesOf u).length) hmem]
  · have hrange : ∀ u ∈ List.range p.types.size, u ≠ t := fun u hu => by
      have hlt := List.mem_range.mp hu
      exact fun heq => hsize (heq ▸ hlt)
    rw [basesOf_of_size_le (Nat.le_of_not_lt hsize), List.length_nil, Nat.add_zero, edgesBeyond,
      edgesBeyond]
    congr 2
    refine List.filter_congr fun u hu => ?_
    simp [hrange u hu]

theorem edgesBeyond_nil (p : Program) : p.edgesBeyond [] = p.baseEdges := by
  have hrange : (List.range p.types.size).map p.basesOf = p.types.toList.map TypeSymbol.bases := by
    refine List.ext_getElem (by simp) fun i hi _ => ?_
    have hi : i < p.types.size := by simpa using hi
    simp [basesOf, type?, hi]
  have hall : (List.range p.types.size).filter (fun t => !List.contains [] t) =
      List.range p.types.size := List.filter_eq_self.mpr fun t _ => by simp
  rw [edgesBeyond, hall, baseEdges, List.flatMap_def, hrange, List.flatMap_def]

/-- **The walk ends before its bound is reached.** -/
theorem visits_basesFrom (h : queue.length + p.edgesBeyond seen < fuel) :
    p.Visits seen queue (p.basesFrom fuel seen queue) := by
  induction fuel generalizing seen queue with
  | zero => omega
  | succ fuel ih =>
    cases queue with
    | nil => exact .done seen
    | cons t queue =>
      rw [List.length_cons] at h
      rw [basesFrom]
      split
      next ht => exact .skip (by simpa using ht) (ih (by omega))
      next ht =>
        have ht : t ∉ seen := by simpa using ht
        have hedges := edgesBeyond_cons (p := p) ht
        exact .take ht (ih (by rw [List.length_append]; omega))

theorem visits_allBases (p : Program) (type : TypeId) :
    p.Visits [type] (p.basesOf type) (p.allBases type) := by
  have hedges := edgesBeyond_cons (p := p) (List.not_mem_nil (a := type))
  rw [edgesBeyond_nil] at hedges
  exact visits_basesFrom (by omega)

/-! ## What the walk takes

The walk takes what can be reached, each type once. -/

namespace Visits

theorem notMem_seen (h : p.Visits seen queue visited) (ht : t ∈ visited) : t ∉ seen := by
  induction h with
  | done => cases ht
  | skip _ _ ih => exact ih ht
  | take hu _ ih =>
    rcases List.mem_cons.mp ht with rfl | ht
    · exact hu
    · exact fun hseen => ih ht (List.mem_cons_of_mem _ hseen)

theorem nodup (h : p.Visits seen queue visited) : visited.Nodup := by
  induction h with
  | done => exact List.nodup_nil
  | skip _ _ ih => exact ih
  | take _ h ih =>
    exact List.nodup_cons.mpr ⟨fun hmem => h.notMem_seen hmem List.mem_cons_self, ih⟩

/-- Whatever is taken is reached from the queue. -/
theorem reached (h : p.Visits seen queue visited) (ht : t ∈ visited) :
    ∃ u ∈ queue, ReflTransGen p.HasBase u t := by
  induction h with
  | done => cases ht
  | skip _ _ ih =>
    obtain ⟨u, hu, hreach⟩ := ih ht
    exact ⟨u, List.mem_cons_of_mem _ hu, hreach⟩
  | @take _ queue _ v _ _ ih =>
    rcases List.mem_cons.mp ht with rfl | ht
    · exact ⟨t, List.mem_cons_self, .refl⟩
    obtain ⟨u, hu, hreach⟩ := ih ht
    rcases List.mem_append.mp hu with hu | hu
    · exact ⟨u, List.mem_cons_of_mem _ hu, hreach⟩
    · exact ⟨v, List.mem_cons_self, .head hu hreach⟩

theorem mem_of_queued (h : p.Visits seen queue visited) (ht : t ∈ queue) :
    t ∈ seen ∨ t ∈ visited := by
  induction h with
  | done => cases ht
  | @skip _ _ _ u hu _ ih =>
    rcases List.mem_cons.mp ht with rfl | ht
    · exact .inl hu
    · exact ih ht
  | @take _ _ _ u _ _ ih =>
    rcases List.mem_cons.mp ht with rfl | ht
    · exact .inr List.mem_cons_self
    rcases ih (List.mem_append_left _ ht) with hmem | hmem
    · rcases List.mem_cons.mp hmem with rfl | hmem
      · exact .inr List.mem_cons_self
      · exact .inl hmem
    · exact .inr (List.mem_cons_of_mem _ hmem)

/-- The bases of what is taken are taken too, or were seen before. -/
theorem closed (h : p.Visits seen queue visited) (ht : t ∈ visited) (hu : p.HasBase t u) :
    u ∈ seen ∨ u ∈ visited := by
  induction h with
  | done => cases ht
  | skip _ _ ih => exact ih ht
  | @take seen queue visited v _ h ih =>
    have hmem : u ∈ v :: seen ∨ u ∈ visited := by
      rcases List.mem_cons.mp ht with rfl | ht
      · exact h.mem_of_queued (List.mem_append_right _ hu)
      · exact ih ht
    rcases hmem with hmem | hmem
    · rcases List.mem_cons.mp hmem with rfl | hmem
      · exact .inr List.mem_cons_self
      · exact .inl hmem
    · exact .inr (List.mem_cons_of_mem _ hmem)

/-- Two programs that differ in the bases of one type are walked alike up to that type. -/
theorem takeWhile_congr {visited' : List TypeId} (h : p.Visits seen queue visited)
    (h' : q.Visits seen queue visited') (hpq : ∀ u, u ≠ t → q.basesOf u = p.basesOf u) :
    visited'.takeWhile (· != t) = visited.takeWhile (· != t) := by
  induction h generalizing visited' with
  | done =>
    cases h'
    rfl
  | skip hu _ ih =>
    cases h' with
    | skip _ h' => exact ih h'
    | take hu' => exact absurd hu hu'
  | @take _ _ _ u hu _ ih =>
    cases h' with
    | skip hu' => exact absurd hu' hu
    | take _ h' =>
      by_cases hut : u = t
      · simp [hut]
      · rw [hpq u hut] at h'
        rw [List.takeWhile_cons, List.takeWhile_cons, ih h']

end Visits

/-! ## The type and its bases

In the list of a type and its bases, what stands in front of a type is what is looked at before it.
The bases of a type come behind the type, and have no say in this. -/

/-- **The types that are reached through lists of bases are listed.** -/
theorem mem_withBases_iff : t ∈ p.withBases type ↔ ReflTransGen p.HasBase type t := by
  have h := visits_allBases p type
  constructor
  · intro ht
    rcases List.mem_cons.mp ht with rfl | ht
    · exact .refl
    · obtain ⟨u, hu, hreach⟩ := h.reached ht
      exact .head hu hreach
  · intro hreach
    induction hreach with
    | refl => exact List.mem_cons_self
    | tail _ hbase ih =>
      have hmem := (List.mem_cons.mp ih).elim
        (fun heq => h.mem_of_queued (heq ▸ hbase)) (fun hmem => h.closed hmem hbase)
      exact hmem.elim (fun hseen => List.mem_cons.mpr (.inl (List.mem_singleton.mp hseen)))
        (List.mem_cons_of_mem _)

theorem nodup_withBases (p : Program) (type : TypeId) : (p.withBases type).Nodup := by
  have h := visits_allBases p type
  exact List.nodup_cons.mpr ⟨fun hmem => h.notMem_seen hmem List.mem_cons_self, h.nodup⟩

/-- The types that are looked at before one of them. -/
def visitedBefore (p : Program) (type t : TypeId) : List TypeId :=
  (p.withBases type).takeWhile (· != t)

theorem visitedBefore_self (p : Program) (type : TypeId) : p.visitedBefore type type = [] := by
  simp [visitedBefore, withBases]

/-- The list is split at a type that stands in it. -/
theorem exists_withBases_eq (ht : t ∈ p.withBases type) :
    ∃ further, p.withBases type = p.visitedBefore type t ++ t :: further ∧ t ∉ further ∧
      t ∉ p.visitedBefore type t := by
  have hsplit := List.takeWhile_append_dropWhile (p := (· != t)) (l := p.withBases type)
  have hfront : t ∉ p.visitedBefore type t := fun hmem => by
    simpa using List.mem_takeWhile_imp hmem
  cases hback : (p.withBases type).dropWhile (· != t) with
  | nil =>
    rw [hback, List.append_nil] at hsplit
    exact absurd ((show p.visitedBefore type t = p.withBases type from hsplit).symm ▸ ht) hfront
  | cons u further =>
    have hu : u = t := by
      have := List.head_dropWhile_not (p := (· != t)) (l := p.withBases type) (by simp [hback])
      simpa [hback] using this
    rw [hback, hu] at hsplit
    refine ⟨further, hsplit.symm, fun hmem => ?_, hfront⟩
    have hnodup := nodup_withBases p type
    rw [← hsplit] at hnodup
    exact (List.nodup_cons.mp (List.Nodup.of_append_right hnodup)).1 hmem

/-- **What is looked at before a type does not depend on the bases that the type lists.** -/
theorem visitedBefore_congr (hpq : ∀ u, u ≠ t → q.basesOf u = p.basesOf u) :
    q.visitedBefore type t = p.visitedBefore type t := by
  by_cases ht : type = t
  · rw [ht, visitedBefore_self, visitedBefore_self]
  · have h' := visits_allBases q type
    rw [hpq type ht] at h'
    rw [visitedBefore, visitedBefore, withBases, withBases, List.takeWhile_cons,
      List.takeWhile_cons, (visits_allBases p type).takeWhile_congr h' hpq]

end Bases

variable {p q : Program} {m f : MethodSymbol} {type t u : TypeId} {name : String}
  {ms found : List MethodSymbol}

/-! ## Methods that are left out

Methods are collected one by one, and one with the signature of a method found before is left out.
-/

theorem addUnlessHidden_eq (found : List MethodSymbol) (m : MethodSymbol) :
    addUnlessHidden found m =
      found ++ [m].filter fun m => found.all fun f => f.signature != m.signature := by
  unfold addUnlessHidden
  split
  next h =>
    obtain ⟨f, hf, hsame⟩ := List.any_eq_true.mp h
    have hall : (found.all fun f => f.signature != m.signature) = false :=
      List.all_eq_false.mpr ⟨f, hf, by simpa using hsame⟩
    simp [hall]
  next h =>
    have hall : (found.all fun f => f.signature != m.signature) = true := by
      refine List.all_eq_true.mpr fun f hf => ?_
      simpa using fun hsame => h (List.any_eq_true.mpr ⟨f, hf, by simpa using hsame⟩)
    simp [hall]

/-- What was found stays. -/
theorem exists_foldl_addUnlessHidden (ms found : List MethodSymbol) :
    ∃ more, ms.foldl addUnlessHidden found = found ++ more ∧ more ⊆ ms := by
  induction ms generalizing found with
  | nil => exact ⟨[], by simp⟩
  | cons m ms ih =>
    obtain ⟨more, hmore, hsub⟩ := ih (addUnlessHidden found m)
    refine ⟨[m].filter (fun m => found.all fun f => f.signature != m.signature) ++ more,
      by rw [List.foldl_cons, hmore, addUnlessHidden_eq, List.append_assoc],
      List.append_subset.mpr ⟨fun x hx => ?_, fun x hx => ?_⟩⟩
    · exact List.mem_cons.mpr (.inl (List.mem_singleton.mp (List.mem_filter.mp hx).1))
    · exact List.mem_cons_of_mem _ (hsub hx)

/-- No two methods that are found have the same parameters. -/
theorem pairwise_foldl_addUnlessHidden (found ms : List MethodSymbol)
    (h : found.Pairwise fun m n => m.signature ≠ n.signature) :
    (ms.foldl addUnlessHidden found).Pairwise fun m n => m.signature ≠ n.signature := by
  refine List.foldlRecOn ms addUnlessHidden h fun found hfound m _ => ?_
  rw [addUnlessHidden_eq]
  refine List.pairwise_append.mpr ⟨hfound, List.Pairwise.filter _ (by simp), fun f hf n hn => ?_⟩
  simpa using List.all_eq_true.mp (List.mem_filter.mp hn).2 f hf

/-- **Methods that differ in their parameters do not hide each other.** -/
theorem foldl_addUnlessHidden_of_pairwise
    (h : ms.Pairwise fun m n => m.signature ≠ n.signature) (found : List MethodSymbol) :
    ms.foldl addUnlessHidden found =
      found ++ ms.filter fun m => found.all fun f => f.signature != m.signature := by
  induction ms generalizing found with
  | nil => simp
  | cons m ms ih =>
    obtain ⟨hm, hms⟩ := List.pairwise_cons.mp h
    have hcons : (m :: ms).filter (fun m => found.all fun f => f.signature != m.signature) =
        [m].filter (fun m => found.all fun f => f.signature != m.signature) ++
          ms.filter fun m => found.all fun f => f.signature != m.signature := by
      rw [← List.filter_append, List.singleton_append]
    rw [List.foldl_cons, ih hms, addUnlessHidden_eq, List.append_assoc, hcons]
    congr 2
    refine List.filter_congr fun n hn => ?_
    -- the head is found or not, but it hides nothing of the rest
    have hhead : ([m].filter fun m => found.all fun f => f.signature != m.signature).all
        (fun f => f.signature != n.signature) = true := by
      refine List.all_eq_true.mpr fun f hf => ?_
      obtain rfl := List.mem_singleton.mp (List.mem_filter.mp hf).1
      simpa using hm n hn
    rw [List.all_append, hhead, Bool.and_true]

/-- Every signature comes to be found. -/
theorem exists_signature_foldl_addUnlessHidden (found : List MethodSymbol) (hm : m ∈ found ++ ms) :
    ∃ f ∈ ms.foldl addUnlessHidden found, f.signature = m.signature := by
  induction ms generalizing found m with
  | nil => exact ⟨m, by simpa using hm, rfl⟩
  | cons n ms ih =>
    rw [List.foldl_cons]
    have hfound : ∃ f ∈ addUnlessHidden found n ++ ms, f.signature = m.signature := by
      rw [List.append_cons] at hm
      rcases List.mem_append.mp hm with hm | hm
      · rcases List.mem_append.mp hm with hm | hm
        · exact ⟨m, by rw [addUnlessHidden_eq]; simp [hm], rfl⟩
        · obtain rfl := List.mem_singleton.mp hm
          unfold addUnlessHidden
          split
          next h =>
            obtain ⟨f, hf, hsame⟩ := List.any_eq_true.mp h
            exact ⟨f, List.mem_append_left _ hf, by simpa using hsame⟩
          next => exact ⟨m, by simp, rfl⟩
      · exact ⟨m, List.mem_append_right _ hm, rfl⟩
    obtain ⟨f, hf, hsame⟩ := hfound
    obtain ⟨f', hf', hsame'⟩ := ih _ hf
    exact ⟨f', hf', hsame'.trans hsame⟩

/-! ## Where a method is listed

The type of a method is written in its symbol, and the methods of a type in that of the type.  The
steps that build the index keep the two in agreement. -/

/-- Every method is listed by the type that it bears, and by no other. -/
def Placed (p : Program) : Prop :=
  ∀ (t : TypeId) (s : TypeSymbol), p.types[t]? = some s → ∀ i ∈ s.methods,
    ∃ m : MethodSymbol, p.methods[i]? = some m ∧ m.containingType = t

theorem placed_changeTypes {id : TypeId} {change : TypeSymbol → TypeSymbol}
    (hchange : ∀ s, (change s).methods = s.methods) (h : p.Placed) :
    Placed { p with types := p.types.modify id change } := by
  intro t s hs i hi
  obtain ⟨s', hs', rfl | ⟨-, rfl⟩⟩ := exists_of_getElem?_modify hs
  · exact h t s hs' i hi
  · exact h t s' hs' i (hchange s' ▸ hi)

theorem placed_addType (name qualifiedName : String) (kind : TypeKind) (h : p.Placed) :
    (p.addType name qualifiedName kind).1.Placed := by
  intro t s hs i hi
  simp only [addType, Array.getElem?_push] at hs
  split at hs
  · obtain rfl := Option.some.inj hs
    cases hi
  · exact h t s hs i hi

theorem placed_addMethod (m : MethodSymbol) (h : p.Placed) : (p.addMethod m).Placed := by
  intro t s hs i hi
  -- the number of a method that is listed already stays below the new one
  have hold : ∀ s', p.types[t]? = some s' → i ∈ s'.methods →
      ∃ m' : MethodSymbol, (p.addMethod m).methods[i]? = some m' ∧ m'.containingType = t := by
    intro s' hs' hi
    obtain ⟨m', hm', ht⟩ := h t s' hs' i hi
    have hlt : i < p.methods.size := (Array.getElem?_eq_some_iff.mp hm').1
    refine ⟨m', ?_, ht⟩
    simp only [addMethod, Array.getElem?_push]
    rw [if_neg (Nat.ne_of_lt hlt), hm']
  simp only [addMethod, Array.getElem?_modify] at hs
  split at hs
  next ht =>
    obtain ⟨s', hs', rfl⟩ := Option.map_eq_some_iff.mp hs
    rcases List.mem_append.mp hi with hi | hi
    · exact hold s' hs' hi
    · obtain rfl := List.mem_singleton.mp hi
      exact ⟨{ m with id := p.methods.size }, by simp [addMethod], ht⟩
  next => exact hold s hs hi

theorem placed_ofSolution (s : Solution) : (ofSolution s).Placed := by
  have hregistered : (registered s).Placed :=
    holds_registered (by simp [Placed]) (fun _ => placed_addType)
      (fun _ _ _ _ _ _ => placed_addMethod _) (fun _ _ _ => placed_changeTypes fun _ => rfl)
      fun _ _ hq => hq
  exact holds_ofSolution hregistered (fun _ _ _ _ => placed_changeTypes fun _ => rfl)
    fun _ _ => placed_addMethod _

theorem method?_of_mem_methodsOf (hp : p.Numbered) (hm : m ∈ p.methodsOf t) :
    p.method? m.id = some m := by
  obtain ⟨i, -, hi⟩ := List.mem_filterMap.mp hm
  rw [hp i m hi]
  exact hi

/-- **A method is listed by the type that it bears.** -/
theorem containingType_of_mem_methodsOf (hplaced : p.Placed) (hm : m ∈ p.methodsOf t) :
    m.containingType = t := by
  obtain ⟨i, hi, hmethod⟩ := List.mem_filterMap.mp hm
  cases hs : p.type? t with
  | none => simp [hs] at hi
  | some s =>
    rw [hs] at hi
    obtain ⟨m', hm', ht⟩ := hplaced t s hs i hi
    obtain rfl := Option.some.inj (hmethod.symm.trans hm')
    exact ht

/-! ## Methods that are found

Whether a method is found depends on the types in front of its own, and on its own type only if that
one has two methods alike. -/

/-- The methods of a name that a type lists differ in their parameters. -/
def ToldApart (p : Program) (t : TypeId) (name : String) : Prop :=
  ((p.methodsOf t).filter fun m => m.name == name).Pairwise fun m n => m.signature ≠ n.signature

/-- The methods of a name that some types list. -/
def listed (p : Program) (name : String) (ts : List TypeId) : List MethodSymbol :=
  (ts.flatMap p.methodsOf).filter fun m => m.name == name

theorem mem_listed {ts : List TypeId} :
    m ∈ p.listed name ts ↔ (∃ t ∈ ts, m ∈ p.methodsOf t) ∧ m.name = name := by
  simp [listed, List.mem_filter, List.mem_flatMap]

/-- The methods that are found in a type and its bases. -/
def foundMethods (p : Program) (type : TypeId) (name : String) : List MethodSymbol :=
  (p.listed name (p.withBases type)).foldl addUnlessHidden []

theorem mem_methodsNamed (hp : p.Numbered) (hm : m ∈ p.methodsOf t) :
    m.id ∈ p.methodsNamed type name ↔ m ∈ p.foundMethods type name := by
  refine List.mem_map.trans ⟨?_, fun h => ⟨m, h, rfl⟩⟩
  rintro ⟨f, hf, hid⟩
  have hmem := foldl_addUnlessHidden_subset _ _ hf
  obtain ⟨⟨u, -, hu⟩, -⟩ := mem_listed.mp hmem
  have hsame : f = m := by
    have hf := method?_of_mem_methodsOf hp hu
    rw [hid, method?_of_mem_methodsOf hp hm] at hf
    exact (Option.some.inj hf).symm
  exact hsame ▸ hf

/-- The search splits at a type: what the types in front give, what the type adds to it and what the
types behind add. -/
theorem exists_foundMethods_eq (ht : t ∈ p.withBases type) (happart : p.ToldApart t name) :
    ∃ front more, p.foundMethods type name = front ++
        ((p.methodsOf t).filter fun m => m.name == name).filter
          (fun m => front.all fun f => f.signature != m.signature) ++ more ∧
      front = (p.listed name (p.visitedBefore type t)).foldl addUnlessHidden [] ∧
      ∀ m ∈ more, ∃ u, u ≠ t ∧ m ∈ p.methodsOf u := by
  obtain ⟨further, hsplit, hfurther, -⟩ := exists_withBases_eq ht
  have hlisted : p.listed name (p.withBases type) = p.listed name (p.visitedBefore type t) ++
      (((p.methodsOf t).filter fun m => m.name == name) ++ p.listed name further) := by
    rw [hsplit]
    simp [listed]
  obtain ⟨more, hmore, hsub⟩ := exists_foldl_addUnlessHidden (p.listed name further)
    (((p.methodsOf t).filter fun m => m.name == name).foldl addUnlessHidden
      ((p.listed name (p.visitedBefore type t)).foldl addUnlessHidden []))
  refine ⟨_, more, ?_, rfl, fun m hm => ?_⟩
  · rw [foundMethods, hlisted, List.foldl_append, List.foldl_append, hmore,
      foldl_addUnlessHidden_of_pairwise happart]
  · obtain ⟨⟨u, hu, hmu⟩, -⟩ := mem_listed.mp (hsub hm)
    exact ⟨u, fun heq => hfurther (heq ▸ hu), hmu⟩

/-- **A method is found unless a type that is looked at before has one with its parameters.** -/
theorem mem_methodsNamed_iff (hp : p.Numbered)
    (hplaced : ∀ (u : TypeId), ∀ m ∈ p.methodsOf u, m.containingType = u)
    (ht : t ∈ p.withBases type) (happart : p.ToldApart t name) (hm : m ∈ p.methodsOf t)
    (hname : m.name = name) :
    m.id ∈ p.methodsNamed type name ↔
      ∀ u ∈ p.visitedBefore type t, ∀ f ∈ p.methodsOf u, f.name = name →
        f.signature ≠ m.signature := by
  obtain ⟨-, -, -, hfront⟩ := exists_withBases_eq ht
  obtain ⟨front, more, hfound, rfl, hmore⟩ := exists_foundMethods_eq ht happart
  have helsewhere : ∀ u, u ≠ t → m ∉ p.methodsOf u := fun u hu hmu =>
    hu ((hplaced u m hmu).symm.trans (hplaced t m hm))
  rw [mem_methodsNamed hp hm, hfound]
  constructor
  -- The method may be among those of types in front, of its own type, or of types behind.
  · intro hmem u hu f hf hfname hsame
    rcases List.mem_append.mp hmem with hmem | hmem
    · rcases List.mem_append.mp hmem with hmem | hmem
      · obtain ⟨⟨v, hv, hmv⟩, -⟩ := mem_listed.mp (foldl_addUnlessHidden_subset _ _ hmem)
        exact helsewhere v (fun heq => hfront (heq ▸ hv)) hmv
      · obtain ⟨f', hf', hsame'⟩ := exists_signature_foldl_addUnlessHidden []
          (mem_listed.mpr ⟨⟨u, hu, hf⟩, hfname⟩)
        have hdiffers := List.all_eq_true.mp (List.mem_filter.mp hmem).2 f' hf'
        exact absurd (hsame'.trans hsame) (by simpa using hdiffers)
    · obtain ⟨v, hv, hmv⟩ := hmore m hmem
      exact helsewhere v hv hmv
  · intro hfree
    refine List.mem_append_left _ (List.mem_append_right _ (List.mem_filter.mpr
      ⟨List.mem_filter.mpr ⟨hm, by simpa using hname⟩, List.all_eq_true.mpr fun f hf => ?_⟩))
    obtain ⟨⟨u, hu, hfu⟩, hfname⟩ := mem_listed.mp (foldl_addUnlessHidden_subset _ _ hf)
    simpa using hfree u hu f hfu hfname

/-- Among the types in front of one, those with a method of some parameters give such a method to
what is found. -/
theorem forall_found_iff (hp : p.Numbered) (ht : t ∈ p.withBases type)
    (happart : p.ToldApart t name) :
    (∀ u ∈ p.visitedBefore type t, ∀ f ∈ p.methodsOf u, f.id ∈ p.methodsNamed type name →
        f.signature ≠ m.signature) ↔
      ∀ u ∈ p.visitedBefore type t, ∀ f ∈ p.methodsOf u, f.name = name →
        f.signature ≠ m.signature := by
  constructor
  · intro h u hu f hf hfname hsame
    obtain ⟨front, more, hfound, hfront, -⟩ := exists_foundMethods_eq ht happart
    obtain ⟨f', hf', hsame'⟩ := exists_signature_foldl_addUnlessHidden []
      (mem_listed.mpr ⟨⟨u, hu, hf⟩, hfname⟩)
    obtain ⟨⟨u', hu', hfu'⟩, -⟩ := mem_listed.mp (foldl_addUnlessHidden_subset _ _ hf')
    have hmem : f' ∈ p.foundMethods type name := by
      rw [hfound, hfront]
      exact List.mem_append_left _ (List.mem_append_left _ hf')
    exact h u' hu' f' hfu' ((mem_methodsNamed hp hfu').mpr hmem) (hsame'.trans hsame)
  · intro h u hu f hf hmem
    have hfound := foldl_addUnlessHidden_subset _ _ ((mem_methodsNamed hp hf).mp hmem)
    exact h u hu f hf (mem_listed.mp hfound).2

/-- **No method is found twice.** -/
theorem nodup_methodsNamed (hp : p.Numbered) (type : TypeId) (name : String) :
    (p.methodsNamed type name).Nodup := by
  have hpairwise := pairwise_foldl_addUnlessHidden [] (p.listed name (p.withBases type))
    List.Pairwise.nil
  refine List.pairwise_map.mpr (hpairwise.imp_of_mem fun {m n} hm hn hdiffers hid => hdiffers ?_)
  obtain ⟨⟨u, -, hu⟩, -⟩ := mem_listed.mp (foldl_addUnlessHidden_subset _ _ hm)
  obtain ⟨⟨v, -, hv⟩, -⟩ := mem_listed.mp (foldl_addUnlessHidden_subset _ _ hn)
  have hmethod := method?_of_mem_methodsOf hp hu
  rw [hid, method?_of_mem_methodsOf hp hv] at hmethod
  rw [Option.some.inj hmethod]

/-! ## Listing in another order

The order in which a type lists its methods and bases is that of its documents.  It makes no
difference to what is hidden of the type itself. -/

/-- A program in which the types list their methods in another order, and one of them its bases, as
when the documents of a type come in another order. -/
structure Relists (p q : Program) (t : TypeId) : Prop where
  methods_eq : q.methods = p.methods
  methodsOf_perm : ∀ u, (q.methodsOf u).Perm (p.methodsOf u)
  basesOf_perm : (q.basesOf t).Perm (p.basesOf t)
  basesOf_eq : ∀ u, u ≠ t → q.basesOf u = p.basesOf u

namespace Relists

variable (h : p.Relists q t)

include h

theorem hasBase_iff (u v : TypeId) : q.HasBase u v ↔ p.HasBase u v := by
  by_cases hu : u = t
  · rw [hu]
    exact h.basesOf_perm.mem_iff
  · rw [HasBase, h.basesOf_eq u hu, HasBase]

theorem mem_withBases (ht : t ∈ p.withBases type) : t ∈ q.withBases type := by
  rw [mem_withBases_iff] at ht ⊢
  exact ReflTransGen.mono (fun u v huv => (h.hasBase_iff u v).mpr huv) _ _ ht

theorem toldApart (happart : p.ToldApart t name) : q.ToldApart t name :=
  ((h.methodsOf_perm t).filter _).pairwise_iff (fun hne => hne.symm) |>.mpr happart

/-- **The order in which methods and bases are listed hides no method of the type.** -/
theorem mem_methodsNamed_iff (hp : p.Numbered)
    (hplaced : ∀ (u : TypeId), ∀ m ∈ p.methodsOf u, m.containingType = u)
    (ht : t ∈ p.withBases type) (happart : p.ToldApart t name) (hm : m ∈ p.methodsOf t)
    (hname : m.name = name) :
    m.id ∈ q.methodsNamed type name ↔ m.id ∈ p.methodsNamed type name := by
  have hq : q.Numbered := fun i m hi => hp i m (h.methods_eq ▸ hi)
  have hqplaced : ∀ (u : TypeId), ∀ m ∈ q.methodsOf u, m.containingType = u := fun u m hm =>
    hplaced u m ((h.methodsOf_perm u).mem_iff.mp hm)
  rw [Program.mem_methodsNamed_iff hq hqplaced (h.mem_withBases ht) (h.toldApart happart)
      ((h.methodsOf_perm t).mem_iff.mpr hm) hname,
    Program.mem_methodsNamed_iff hp hplaced ht happart hm hname, visitedBefore_congr h.basesOf_eq]
  exact forall₂_congr fun u _ => forall_congr' fun f => by rw [(h.methodsOf_perm u).mem_iff]

end Relists

/-! ## What is hidden

A method of a type can be hidden by one of the same type after all, when the two differ in their
type parameters alone. -/

/-- **Only methods of bases are hidden**, where the methods of the name that a type lists differ in
their parameters.  Every type that is reached through lists of bases is looked at once.  A method of
it is found just when no type in front of it gives a method with the same parameters to what is
found, so that all methods of the type itself are found.  Nothing is found twice, and listing
methods or the bases of the type in another order changes nothing for its methods. -/
theorem only_base_methods_are_hidden (s : Solution) {type t : TypeId} {name : String}
    (ht : ReflTransGen (ofSolution s).HasBase type t)
    (happart : (ofSolution s).ToldApart t name) :
    ((ofSolution s).withBases type).count t = 1 ∧
    ((ofSolution s).methodsNamed type name).Nodup ∧
    ∀ m ∈ (ofSolution s).methodsOf t, m.name = name →
      (m.id ∈ (ofSolution s).methodsNamed type name ↔
        ∀ u ∈ (ofSolution s).visitedBefore type t, ∀ f ∈ (ofSolution s).methodsOf u,
          f.id ∈ (ofSolution s).methodsNamed type name → f.signature ≠ m.signature) ∧
      (t = type → m.id ∈ (ofSolution s).methodsNamed type name) ∧
      ∀ q, (ofSolution s).Relists q t →
        (m.id ∈ q.methodsNamed type name ↔ m.id ∈ (ofSolution s).methodsNamed type name) := by
  have hp := numbered_ofSolution s
  have hplaced : ∀ (u : TypeId), ∀ m ∈ (ofSolution s).methodsOf u, m.containingType = u :=
    fun u m hm => containingType_of_mem_methodsOf (placed_ofSolution s) hm
  have hmem := mem_withBases_iff.mpr ht
  refine ⟨List.count_eq_one_of_mem (nodup_withBases _ _) hmem, nodup_methodsNamed hp type name,
    fun m hm hname => ?_⟩
  have hfound := mem_methodsNamed_iff hp hplaced hmem happart hm hname
  refine ⟨hfound.trans (forall_found_iff hp hmem happart).symm, ?_, fun q hq =>
    hq.mem_methodsNamed_iff hp hplaced hmem happart hm hname⟩
  rintro rfl
  rw [hfound, visitedBefore_self]
  exact fun u hu => by cases hu

/-- A class hides one of two methods of its base. -/
theorem only_base_methods_are_hidden_overloads : ∃ s,
    Solution.ofSources
        [("A.cs", "class B{void M(int a){}void M(long a){}}class C:B{void M(int a){}}")] = .ok s ∧
      (ofSolution s).HasBase 2 1 ∧ (ofSolution s).ToldApart 1 "M" ∧
      (ofSolution s).methodsNamed 2 "M" = [212, 211] ∧
      ((ofSolution s).methodsOf 1).map MethodSymbol.id = [210, 211] ∧
      ∀ m ∈ (ofSolution s).methodsOf 1, m.name = "M" →
        (m.id ∈ (ofSolution s).methodsNamed 2 "M" ↔
          ∀ u ∈ (ofSolution s).visitedBefore 2 1, ∀ f ∈ (ofSolution s).methodsOf u,
            f.id ∈ (ofSolution s).methodsNamed 2 "M" → f.signature ≠ m.signature) := by
  have hrun : ((Solution.ofSources
      [("A.cs", "class B{void M(int a){}void M(long a){}}class C:B{void M(int a){}}")]
      ).toOption.any fun s => decide (1 ∈ (ofSolution s).basesOf 2 ∧
        (((ofSolution s).methodsOf 1).filter fun m => m.name == "M").Pairwise
          (fun m n => m.signature ≠ n.signature) ∧
        (ofSolution s).methodsNamed 2 "M" = [212, 211] ∧
        ((ofSolution s).methodsOf 1).map MethodSymbol.id = [210, 211])) = true := by
    rw [Solution.toOption_ofSources String.toList_ofList]
    decide +kernel
  cases h : Solution.ofSources
      [("A.cs", "class B{void M(int a){}void M(long a){}}class C:B{void M(int a){}}")] with
  | error e =>
    rw [h] at hrun
    cases hrun
  | ok s =>
    rw [h] at hrun
    obtain ⟨hbase, happart, hnamed, hids⟩ := of_decide_eq_true hrun
    obtain ⟨-, -, hfound⟩ := only_base_methods_are_hidden s (.single hbase) happart
    exact ⟨s, rfl, hbase, happart, hnamed, hids, fun m hm hname => (hfound m hm hname).1⟩

/-- **A method is hidden by one of the same type that differs in the type parameters only.** -/
theorem type_parameters_are_overlooked : ∃ s,
    Solution.ofSources [("A.cs", "class C{void M(int a){}void M<T>(int a){}}")] = .ok s ∧
      ∃ m ∈ (ofSolution s).methodsOf 1, m.name = "M" ∧
        m.id ∉ (ofSolution s).methodsNamed 1 "M" := by
  have hrun : ((Solution.ofSources
      [("A.cs", "class C{void M(int a){}void M<T>(int a){}}")]).toOption.any fun s =>
        decide (∃ m ∈ (ofSolution s).methodsOf 1, m.name = "M" ∧
          m.id ∉ (ofSolution s).methodsNamed 1 "M")) = true := by
    rw [Solution.toOption_ofSources String.toList_ofList]
    decide +kernel
  cases h : Solution.ofSources [("A.cs", "class C{void M(int a){}void M<T>(int a){}}")] with
  | error e =>
    rw [h] at hrun
    cases hrun
  | ok s =>
    rw [h] at hrun
    exact ⟨s, rfl, of_decide_eq_true hrun⟩

end CodeMend.Program
