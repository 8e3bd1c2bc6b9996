import CodeMend.Text.Location
import Mathlib.Data.List.Sort

/-!
# CodeMend — sorted lists

* **`sortStable_perm`** — sorting keeps all elements.
* **`pairwise_sortStable`** — no element of a sorted list comes behind one in front of it.
* **`sortStable_eq_self`** — a list that is in order stays as it is.
* **`pairwise_sortStable_of_eq`** — elements that compare equal keep their order.
-/

namespace CodeMend

variable {α : Type} {compare : α → α → Ordering} {xs : List α} {a : α}

theorem insertSorted_eq_orderedInsert (a : α) (xs : List α) :
    insertSorted compare a xs = xs.orderedInsert (fun a b => compare a b ≠ .gt) a := by
  induction xs with
  | nil => rfl
  | cons b xs ih =>
    rw [List.orderedInsert_cons, ← ih]
    by_cases h : compare a b = .gt
    · simp [insertSorted, h]
    · simp [insertSorted, h]

/-- The elements are put in one after the other, from the last one on. -/
theorem sortStable_eq_insertionSort (xs : List α) :
    sortStable compare xs = xs.insertionSort fun a b => compare a b ≠ .gt := by
  induction xs with
  | nil => rfl
  | cons a xs ih =>
    rw [List.insertionSort_cons, ← ih, ← insertSorted_eq_orderedInsert]
    rfl

/-- **Sorting keeps all elements.** -/
theorem sortStable_perm (compare : α → α → Ordering) (xs : List α) :
    (sortStable compare xs).Perm xs := by
  rw [sortStable_eq_insertionSort]
  exact List.perm_insertionSort _ xs

@[simp] theorem mem_sortStable : a ∈ sortStable compare xs ↔ a ∈ xs :=
  (sortStable_perm compare xs).mem_iff

/-- **No element of a sorted list comes behind one in front of it.** -/
theorem pairwise_sortStable (htrans : ∀ a b c, compare a b ≠ .gt → compare b c ≠ .gt →
      compare a c ≠ .gt) (htotal : ∀ a b, compare a b ≠ .gt ∨ compare b a ≠ .gt) (xs : List α) :
    (sortStable compare xs).Pairwise fun a b => compare a b ≠ .gt := by
  have : Std.Total fun a b : α => compare a b ≠ .gt := ⟨htotal⟩
  have : IsTrans α fun a b : α => compare a b ≠ .gt := ⟨htrans⟩
  rw [sortStable_eq_insertionSort]
  exact List.pairwise_insertionSort _ xs

/-- A list in order stays as it is. -/
theorem sortStable_eq_self (hxs : xs.Pairwise fun a b => compare a b ≠ .gt) :
    sortStable compare xs = xs := by
  rw [sortStable_eq_insertionSort]
  exact hxs.insertionSort_eq

theorem mem_insertSorted {b : α} : b ∈ insertSorted compare a xs ↔ b = a ∨ b ∈ xs := by
  rw [insertSorted_eq_orderedInsert, List.mem_orderedInsert]

/-- An element that is put in comes in front of all that it compares equal to. -/
theorem pairwise_insertSorted_of_eq (hsymm : ∀ a b, compare a b = .eq → compare b a ≠ .gt)
    {r : α → α → Prop} (ha : ∀ b ∈ xs, compare a b = .eq → r a b)
    (hxs : xs.Pairwise fun b c => compare b c = .eq → r b c) :
    (insertSorted compare a xs).Pairwise fun b c => compare b c = .eq → r b c := by
  induction xs with
  | nil => exact List.pairwise_singleton _ _
  | cons b xs ih =>
    obtain ⟨hb, hrest⟩ := List.pairwise_cons.mp hxs
    rw [insertSorted]
    split
    next hgt =>
      rw [List.pairwise_cons]
      refine ⟨fun c hc heq => ?_, ih (fun c hc => ha c (List.mem_cons_of_mem _ hc)) hrest⟩
      rcases mem_insertSorted.mp hc with rfl | hc
      · exact absurd (beq_iff_eq.mp hgt) (hsymm b c heq)
      · exact hb c hc heq
    next => exact List.pairwise_cons.mpr ⟨ha, hxs⟩

/-- **Elements that compare equal keep their order.** -/
theorem pairwise_sortStable_of_eq (hsymm : ∀ a b, compare a b = .eq → compare b a ≠ .gt)
    {r : α → α → Prop} (hxs : xs.Pairwise r) :
    (sortStable compare xs).Pairwise fun a b => compare a b = .eq → r a b := by
  induction xs with
  | nil => exact .nil
  | cons a xs ih =>
    obtain ⟨ha, hrest⟩ := List.pairwise_cons.mp hxs
    exact pairwise_insertSorted_of_eq hsymm (fun b hb _ => ha b (mem_sortStable.mp hb)) (ih hrest)

end CodeMend
