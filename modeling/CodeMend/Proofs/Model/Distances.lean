import Mathlib.Order.Lattice.Nat
import CodeMend.Proofs.Model.Parts

/-!
# CodeMend — the order in which bases are listed

The walk through the bases of a type takes the nearest types first.  While it takes types at one
distance it puts the types one step further behind them in the queue, and it comes to these when
everything nearer was taken.  So of two bases that are listed, the first one is not further away,
whether or not the lists of bases lead round in a circle.

* **`Program.basesAfter`**, **`Program.distance`** — where a number of steps leads, and how many are
  needed.
* **`Program.Frontier`** — what the walk has seen, and what waits, when it has come to a distance;
  **`Program.Frontier.skip`**, **`Program.Frontier.take`** — a step of the walk keeps this.
* **`Program.Visits.pairwise_distance`** — so the walk takes the nearest types first.
* **`Program.bases_are_listed_nearest_first`** — the bases of a type, each once, in this order.
-/

namespace CodeMend.Program

open Relation

variable {p : Program} {s : Solution} {type t u : TypeId} {k n : Nat}
  {seen near far queue visited visited' : List TypeId}

/-! ## Distances

How far a base is from a type is counted in steps from a type to a base that it lists.  Bases may
form a circle, so a shortest way is a minimum and not the length of a path. -/

/-- The types that a number of steps leads to, each from a type to one of the bases that it
lists. -/
def basesAfter (p : Program) (type : TypeId) : Nat → List TypeId
  | 0 => [type]
  | n + 1 => (basesAfter p type n).flatMap p.basesOf

/-- The number of steps on the shortest way from a type to another one. -/
noncomputable def distance (p : Program) (type t : TypeId) : Nat :=
  sInf {n | t ∈ p.basesAfter type n}

theorem mem_basesAfter_succ :
    u ∈ p.basesAfter type (n + 1) ↔ ∃ t ∈ p.basesAfter type n, p.HasBase t u := List.mem_flatMap

/-- **The types that are reached are those that some number of steps leads to.** -/
theorem reflTransGen_iff_exists_basesAfter :
    ReflTransGen p.HasBase type t ↔ ∃ n, t ∈ p.basesAfter type n := by
  constructor
  · intro hreach
    induction hreach with
    | refl => exact ⟨0, List.mem_singleton_self type⟩
    | tail _ hbase ih =>
      obtain ⟨n, hn⟩ := ih
      exact ⟨n + 1, mem_basesAfter_succ.mpr ⟨_, hn, hbase⟩⟩
  · rintro ⟨n, hn⟩
    induction n generalizing t with
    | zero => exact List.mem_singleton.mp hn ▸ .refl
    | succ n ih =>
      obtain ⟨u, hu, hbase⟩ := mem_basesAfter_succ.mp hn
      exact (ih hu).tail hbase

theorem distance_le (ht : t ∈ p.basesAfter type n) : p.distance type t ≤ n := Nat.sInf_le ht

theorem mem_basesAfter_distance (hreach : ReflTransGen p.HasBase type t) :
    t ∈ p.basesAfter type (p.distance type t) :=
  Nat.sInf_mem (reflTransGen_iff_exists_basesAfter.mp hreach)

/-! ## The walk at one distance

The queue of the walk holds types of two distances at a time: those still to be taken, and behind
them those one step further away.  The invariant says so, and taking a type from the front keeps it.
-/

/-- A walk from a type has seen all types that fewer than `n` steps lead to.  In its queue, the
types that `n` steps lead to stand in front, and those that one step more leads to behind. -/
structure Frontier (p : Program) (type : TypeId) (n : Nat) (seen near far : List TypeId) :
    Prop where
  near_mem : ∀ t ∈ near, t ∈ p.basesAfter type n
  far_mem : ∀ t ∈ far, t ∈ p.basesAfter type (n + 1)
  passed : ∀ k < n, ∀ t ∈ p.basesAfter type k, t ∈ seen
  reached : ∀ t ∈ p.basesAfter type n, t ∈ seen ∨ t ∈ near
  ahead : ∀ t ∈ seen, ∀ u, p.HasBase t u → u ∈ seen ∨ u ∈ near ∨ u ∈ far

namespace Frontier

theorem init (p : Program) (type : TypeId) : p.Frontier type 1 [type] (p.basesOf type) [] where
  near_mem t ht := by simpa [basesAfter] using ht
  far_mem t ht := by cases ht
  passed k hk t ht := by
    obtain rfl := Nat.lt_one_iff.mp hk
    exact ht
  reached t ht := .inr (by simpa [basesAfter] using ht)
  ahead t ht u hu := .inr (.inl (List.mem_singleton.mp ht ▸ hu))

/-- When nothing is left at a distance, the types one step further have come to the front. -/
theorem advance (h : p.Frontier type n seen [] far) : p.Frontier type (n + 1) seen far [] where
  near_mem := h.far_mem
  far_mem t ht := by cases ht
  passed k hk t ht := by
    rcases Nat.lt_succ_iff_lt_or_eq.mp hk with hk | rfl
    · exact h.passed k hk t ht
    · -- none of the types at the old distance waits any more
      exact (h.reached t ht).resolve_right List.not_mem_nil
  reached u hu := by
    obtain ⟨t, ht, hbase⟩ := mem_basesAfter_succ.mp hu
    have hseen : t ∈ seen := (h.reached t ht).resolve_right List.not_mem_nil
    exact (h.ahead t hseen u hbase).imp_right fun hu => hu.resolve_left List.not_mem_nil
  ahead t ht u hu := (h.ahead t ht u hu).imp_right fun hu =>
    .inl (hu.resolve_left List.not_mem_nil)

/-- The first type of the queue is one of the nearest. -/
theorem exists_cons (h : p.Frontier type n seen near far) (hqueue : near ++ far = t :: queue) :
    ∃ n near far, p.Frontier type n seen (t :: near) far ∧ near ++ far = queue := by
  cases near with
  | nil =>
    rw [List.nil_append] at hqueue
    subst hqueue
    exact ⟨n + 1, queue, [], h.advance, List.append_nil queue⟩
  | cons u near =>
    obtain ⟨rfl, rfl⟩ := List.cons.inj hqueue
    exact ⟨n, near, far, h, rfl⟩

/-- **A type that was seen before is passed by.** -/
theorem skip (h : p.Frontier type n seen (t :: near) far) (ht : t ∈ seen) :
    p.Frontier type n seen near far where
  near_mem u hu := h.near_mem u (List.mem_cons_of_mem _ hu)
  far_mem := h.far_mem
  passed := h.passed
  reached u hu := by
    have hmem := h.reached u hu
    rw [List.mem_cons] at hmem
    rcases hmem with hu | rfl | hu
    · exact .inl hu
    · exact .inl ht
    · exact .inr hu
  ahead v hv u hu := by
    have hmem := h.ahead v hv u hu
    rw [List.mem_cons] at hmem
    rcases hmem with hu | (rfl | hu) | hu
    · exact .inl hu
    · exact .inl ht
    · exact .inr (.inl hu)
    · exact .inr (.inr hu)

/-- **The bases of a type that is taken are one step further away.** -/
theorem take (h : p.Frontier type n seen (t :: near) far) :
    p.Frontier type n (t :: seen) near (far ++ p.basesOf t) where
  near_mem u hu := h.near_mem u (List.mem_cons_of_mem _ hu)
  far_mem u hu := by
    rcases List.mem_append.mp hu with hu | hu
    · exact h.far_mem u hu
    · exact mem_basesAfter_succ.mpr ⟨t, h.near_mem t List.mem_cons_self, hu⟩
  passed k hk u hu := List.mem_cons_of_mem _ (h.passed k hk u hu)
  reached u hu := by
    have hmem := h.reached u hu
    rw [List.mem_cons, or_left_comm, ← or_assoc, ← List.mem_cons] at hmem
    exact hmem
  ahead v hv u hu := by
    rcases List.mem_cons.mp hv with rfl | hv
    · -- the bases of the type itself were put behind all others just now
      exact .inr (.inr (List.mem_append_right _ hu))
    have hmem := h.ahead v hv u hu
    rw [List.mem_cons] at hmem
    rcases hmem with hu | (rfl | hu) | hu
    · exact .inl (List.mem_cons_of_mem _ hu)
    · exact .inl List.mem_cons_self
    · exact .inr (.inl hu)
    · exact .inr (.inr (List.mem_append_left _ hu))

/-- **The first type of the queue is as near as any that was not seen.** -/
theorem distance_le_distance (h : p.Frontier type n seen (t :: near) far) (hu : u ∉ seen)
    (hreach : ReflTransGen p.HasBase type u) : p.distance type t ≤ p.distance type u :=
  calc p.distance type t
    _ ≤ n := distance_le (h.near_mem t List.mem_cons_self)
    _ ≤ p.distance type u := Nat.le_of_not_lt fun hlt =>
      hu (h.passed _ hlt u (mem_basesAfter_distance hreach))

end Frontier

/-! ## The whole walk

Each type that is taken is as near as any that follows, so the types are listed in the order of
their distances. -/

namespace Visits

/-- The walk has one course only. -/
theorem unique (h : p.Visits seen queue visited) (h' : p.Visits seen queue visited') :
    visited' = visited := by
  induction h generalizing visited' with
  | done =>
    cases h'
    rfl
  | skip ht _ ih =>
    cases h' with
    | skip _ h' => exact ih h'
    | take ht' => exact absurd ht ht'
  | take ht _ ih =>
    cases h' with
    | skip ht' => exact absurd ht' ht
    | take _ h' => rw [ih h']

/-- **The walk takes the nearest types first.** -/
theorem pairwise_distance (h : p.Visits seen queue visited)
    (hfrontier : p.Frontier type n seen near far) (hqueue : near ++ far = queue)
    (hreach : ∀ u ∈ visited, ReflTransGen p.HasBase type u) :
    visited.Pairwise fun t u => p.distance type t ≤ p.distance type u := by
  -- on the walk; the queue has a frontier at each of its places, whatever the distance is by then
  induction h generalizing n near far with
  | done => exact .nil
  | skip ht _ ih =>
    obtain ⟨n, near, far, hfrontier, rfl⟩ := hfrontier.exists_cons hqueue
    exact ih (hfrontier.skip ht) rfl hreach
  | take _ hrest ih =>
    obtain ⟨n, near, far, hfrontier, rfl⟩ := hfrontier.exists_cons hqueue
    obtain ⟨-, hreach⟩ := List.forall_mem_cons.mp hreach
    refine .cons (fun u hu => ?_) (ih hfrontier.take (List.append_assoc ..).symm hreach)
    -- what is taken later was not seen yet, and the frontier knows nothing nearer than its front
    have hseen := hrest.notMem_seen hu
    exact hfrontier.distance_le_distance (fun hmem => hseen (List.mem_cons_of_mem _ hmem))
      (hreach u hu)

end Visits

/-! ## Bases that are types

Bases are found by name, and a name that is found is that of a type in the index. -/

theorem lt_size_of_typeNamed? {name : String} (h : p.typeNamed? name = some t) :
    t < p.types.size := (Array.findIdx?_eq_some_iff_getElem.mp h).1

/-- A type that a name means is one of the program. -/
theorem lt_size_of_lookupType? {d : Document} {context : NodeId} {name : String}
    (h : p.lookupType? d context name = some t) : t < p.types.size := by
  simp only [lookupType?, Option.bind_eq_bind] at h
  -- the name is looked for in types, then in namespaces around, then in those that are imported
  split at h
  next hfound =>
    obtain rfl := Option.some.inj h
    obtain ⟨a, -, ha⟩ := List.exists_of_findSome?_eq_some hfound
    obtain ⟨outer, -, ha⟩ := Option.bind_eq_some_iff.mp ha
    exact lt_size_of_typeNamed? ha
  next =>
    split at h
    next hfound =>
      obtain rfl := Option.some.inj h
      obtain ⟨a, -, ha⟩ := List.exists_of_findSome?_eq_some hfound
      exact lt_size_of_typeNamed? ha
    next =>
      obtain ⟨a, -, ha⟩ := List.exists_of_findSome?_eq_some h
      exact lt_size_of_typeNamed? ha

theorem lt_size_of_mem_listedBases {d : Document} {m : NodeId} (h : t ∈ p.listedBases d m) :
    t < p.types.size := by
  simp only [listedBases] at h
  split at h
  · cases h
  · obtain ⟨b, -, hb⟩ := List.mem_filterMap.mp h
    exact lt_size_of_lookupType? hb

/-- **The bases in the index of a solution are types of the index.** -/
theorem lt_size_of_hasBase (h : (ofSolution s).HasBase t u) : u < (ofSolution s).types.size := by
  rw [HasBase, basesOf, type?] at h
  cases hs : (ofSolution s).types[t]? with
  | none => simp [hs] at h
  | some symbol =>
    rw [hs] at h
    obtain ⟨d, -, m, -, hlisted⟩ := (ownParts_ofSolution s).bases hs u h
    exact lt_size_of_mem_listedBases hlisted

/-! ## The bases of a type

All of it is put together for the index of a solution, with a circle of bases for an example. -/

/-- **The bases of a type are listed, the nearest first.**  Whether or not types are bases of each
other in a circle, the walk through them ends, with the list as its only outcome: the types other
than the type itself that one or more steps lead to, each once, and none in front of a nearer one.
In the index of a solution all of them are types of the index. -/
theorem bases_are_listed_nearest_first (p : Program) (type : TypeId) :
    (∀ visited, p.Visits [type] (p.basesOf type) visited ↔ visited = p.allBases type) ∧
    (∀ t, t ∈ p.allBases type ↔ TransGen p.HasBase type t ∧ t ≠ type) ∧
    (p.allBases type).Nodup ∧
    ((p.allBases type).Pairwise fun t u => p.distance type t ≤ p.distance type u) ∧
    ∀ s, p = ofSolution s → ∀ t ∈ p.allBases type, t < p.types.size := by
  have hwalk := visits_allBases p type
  have hmem : ∀ t, t ∈ p.allBases type ↔ TransGen p.HasBase type t ∧ t ≠ type := by
    intro t
    constructor
    · intro ht
      obtain ⟨u, hu, hreach⟩ := hwalk.reached ht
      exact ⟨.head' hu hreach, fun heq => hwalk.notMem_seen ht (List.mem_singleton.mpr heq)⟩
    · rintro ⟨hreach, hne⟩
      exact (List.mem_cons.mp (mem_withBases_iff.mpr hreach.to_reflTransGen)).resolve_left hne
  refine ⟨fun visited => ⟨fun h => hwalk.unique h, fun heq => heq ▸ hwalk⟩, hmem, hwalk.nodup, ?_,
    ?_⟩
  · exact hwalk.pairwise_distance (.init p type) (List.append_nil _) fun u hu =>
      ((hmem u).mp hu).1.to_reflTransGen
  · rintro s rfl t ht
    obtain ⟨u, -, hbase⟩ := TransGen.tail'_iff.mp ((hmem t).mp ht).1
    exact lt_size_of_hasBase hbase

/-- The second base comes in front of a base of the first one, and the circle of the type with its
second base is gone round once. -/
theorem bases_are_listed_nearest_first_circle : ∃ s,
    Solution.ofSources [("A.cs", "class A:B,C{}class B:D{}class C:A{}class D:B{}")] = .ok s ∧
      (ofSolution s).HasBase 1 3 ∧ (ofSolution s).HasBase 3 1 ∧
      (ofSolution s).allBases 1 = [2, 3, 4] ∧
      (∀ visited, (ofSolution s).Visits [1] [2, 3] visited ↔ visited = [2, 3, 4]) ∧
      TransGen (ofSolution s).HasBase 1 4 ∧
      (ofSolution s).distance 1 3 ≤ (ofSolution s).distance 1 4 := by
  have hrun : ((Solution.ofSources
      [("A.cs", "class A:B,C{}class B:D{}class C:A{}class D:B{}")]).toOption.any fun s =>
        decide ((ofSolution s).basesOf 1 = [2, 3] ∧ 3 ∈ (ofSolution s).basesOf 1 ∧
          1 ∈ (ofSolution s).basesOf 3 ∧ (ofSolution s).allBases 1 = [2, 3, 4])) = true := by
    rw [Solution.toOption_ofSources String.toList_ofList]
    decide +kernel
  cases h : Solution.ofSources
      [("A.cs", "class A:B,C{}class B:D{}class C:A{}class D:B{}")] with
  | error e =>
    rw [h] at hrun
    cases hrun
  | ok s =>
    rw [h] at hrun
    obtain ⟨hbases, hto, hback, hall⟩ := of_decide_eq_true hrun
    obtain ⟨hwalk, hmem, -, hnearest, -⟩ := bases_are_listed_nearest_first (ofSolution s) 1
    rw [hall] at hwalk hmem hnearest
    rw [hbases] at hwalk
    simp only [List.pairwise_cons] at hnearest
    exact ⟨s, rfl, hto, hback, hall, hwalk, ((hmem 4).mp (by simp)).1, hnearest.2.1 4 (by simp)⟩

end CodeMend.Program
