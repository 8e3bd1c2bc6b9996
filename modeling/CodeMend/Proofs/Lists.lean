import Mathlib.Data.List.Forall2

/-!
# CodeMend — lists whose items are read, changed or left out

* **`exists_of_bind_eq_ok`** — the first of two steps that succeed one after the other.
* **`invariant_of_foldlM`** — what every step keeps holds behind the last one.
* **`holds_of_mem_foldl`** — what one of the steps brings about holds behind the last one.
* **`mem_of_mapM`**, **`exists_of_mapM`** — the items on both sides of a reading that succeeds.
* **`mem_of_filterM`** — what is kept of a list.
* **`flatMap_filter_perm`** — items sorted by a mark.
* **`alter`** — a list with each item changed or left out, as told by its index.
* **`rank`** — where an item that is kept comes to stand.
-/

namespace CodeMend

variable {α β : Type}

/-! ## Reading all items

Most of the program runs in `Except`, item by item.  These lemmas take such a run apart, into the
outcomes of its items or into what every step preserves. -/

theorem ok_bind {ε : Type} (a : α) (f : α → Except ε β) : (Except.ok a >>= f) = f a := rfl

theorem exists_of_bind_eq_ok {ε : Type} {x : Except ε α} {f : α → Except ε β} {y : β}
    (h : (x >>= f) = .ok y) : ∃ a, x = .ok a ∧ f a = .ok y := by
  cases x with
  | error e => cases h
  | ok a => exact ⟨a, rfl, h⟩

theorem cases_of_bind_eq_error {ε : Type} {x : Except ε α} {f : α → Except ε β} {e : ε}
    (h : (x >>= f) = .error e) : x = .error e ∨ ∃ a, x = .ok a ∧ f a = .error e := by
  cases x with
  | error e' =>
    cases h
    exact .inl rfl
  | ok a => exact .inr ⟨a, rfl, h⟩

theorem eq_ok_of_mapError {ε δ : Type} {x : Except ε α} {f : ε → δ} {a : α}
    (h : x.mapError f = .ok a) : x = .ok a := by
  cases x with
  | error e => cases h
  | ok b =>
    cases h
    rfl

theorem toOption_eq_some_iff {ε : Type} {x : Except ε α} {a : α} :
    x.toOption = some a ↔ x = .ok a := by
  cases x with
  | error e => exact ⟨nofun, nofun⟩
  | ok b => exact ⟨fun h => congrArg Except.ok (Option.some.inj h), fun h => h ▸ rfl⟩

/-- Reading all items yields one value for each of them, in order. -/
theorem forall₂_of_mapM {ε : Type} {f : α → Except ε β} {xs : List α} {ys : List β}
    (h : xs.mapM f = .ok ys) : List.Forall₂ (fun x y => f x = .ok y) xs ys := by
  induction xs generalizing ys with
  | nil =>
    cases h
    exact .nil
  | cons x xs ih =>
    rw [List.mapM_cons] at h
    obtain ⟨y, hy, hrest⟩ := exists_of_bind_eq_ok h
    obtain ⟨ys', hys', hrest⟩ := exists_of_bind_eq_ok hrest
    cases hrest
    exact .cons hy (ih hys')

theorem exists_mapM_ok {ε : Type} {f : α → Except ε β} {xs : List α}
    (h : ∀ x ∈ xs, ∃ y, f x = .ok y) : ∃ ys, xs.mapM f = .ok ys := by
  induction xs with
  | nil => exact ⟨[], rfl⟩
  | cons x xs ih =>
    obtain ⟨⟨y, hy⟩, hxs⟩ := List.forall_mem_cons.mp h
    obtain ⟨ys, hys⟩ := ih hxs
    exact ⟨y :: ys, by rw [List.mapM_cons, hy, hys]; rfl⟩

theorem exists_of_forall₂_right {R : α → β → Prop} {xs : List α} {ys : List β}
    (h : List.Forall₂ R xs ys) {y : β} (hy : y ∈ ys) : ∃ x ∈ xs, R x y := by
  induction h with
  | nil => cases hy
  | @cons x y' xs ys hxy h ih =>
    rcases List.mem_cons.mp hy with rfl | hy
    · exact ⟨x, List.mem_cons_self, hxy⟩
    · obtain ⟨x', hx', hR⟩ := ih hy
      exact ⟨x', List.mem_cons_of_mem _ hx', hR⟩

/-- What holds between the items of one list, each with all behind it, holds between those of the
other list in another form. -/
theorem pairwise_of_forall₂ {R : α → β → Prop} {p : α → α → Prop} {q : β → β → Prop} {xs : List α}
    {ys : List β} (h : List.Forall₂ R xs ys) (hxs : xs.Pairwise p)
    (hpq : ∀ x x' y y', p x x' → R x y → R x' y' → q y y') : ys.Pairwise q := by
  induction h with
  | nil => exact .nil
  | @cons x y xs ys hxy h ih =>
    obtain ⟨hx, hxs⟩ := List.pairwise_cons.mp hxs
    refine List.pairwise_cons.mpr ⟨fun y' hy' => ?_, ih hxs⟩
    obtain ⟨x', hx', hxy'⟩ := exists_of_forall₂_right h hy'
    exact hpq x x' y y' (hx x' hx') hxy hxy'

theorem exists_of_forall₂_left {R : α → β → Prop} {xs : List α} {ys : List β}
    (h : List.Forall₂ R xs ys) {x : α} (hx : x ∈ xs) : ∃ y ∈ ys, R x y :=
  exists_of_forall₂_right h.flip hx

/-- A reading of all items fails at one of them. -/
theorem exists_of_mapM_eq_error {ε : Type} {f : α → Except ε β} {xs : List α} {e : ε}
    (h : xs.mapM f = .error e) : ∃ x ∈ xs, f x = .error e := by
  induction xs with
  | nil => cases h
  | cons x xs ih =>
    rw [List.mapM_cons] at h
    rcases cases_of_bind_eq_error h with hx | ⟨y, -, h⟩
    · exact ⟨x, List.mem_cons_self, hx⟩
    rcases cases_of_bind_eq_error h with hxs | ⟨ys, -, h⟩
    · obtain ⟨x', hx', hf⟩ := ih hxs
      exact ⟨x', List.mem_cons_of_mem _ hx', hf⟩
    · cases h

/-- Steps one after the other fail at one of them. -/
theorem exists_of_foldlM_eq_error {ε σ : Type} {f : σ → α → Except ε σ} {xs : List α} {s : σ}
    {e : ε} (h : xs.foldlM f s = .error e) : ∃ s', ∃ x ∈ xs, f s' x = .error e := by
  induction xs generalizing s with
  | nil => cases h
  | cons x xs ih =>
    rw [List.foldlM_cons] at h
    rcases cases_of_bind_eq_error h with hx | ⟨s', -, h⟩
    · exact ⟨s, x, List.mem_cons_self, hx⟩
    · obtain ⟨s'', x', hx', hf⟩ := ih h
      exact ⟨s'', x', List.mem_cons_of_mem _ hx', hf⟩

/-- What every step keeps holds behind the last step. -/
theorem invariant_of_foldlM {ε σ : Type} {f : σ → α → Except ε σ} {P : σ → Prop} {xs : List α}
    (hstep : ∀ x ∈ xs, ∀ s s', P s → f s x = .ok s' → P s') {s s' : σ} (hs : P s)
    (h : xs.foldlM f s = .ok s') : P s' := by
  induction xs generalizing s with
  | nil =>
    cases h
    exact hs
  | cons x xs ih =>
    rw [List.foldlM_cons] at h
    obtain ⟨s₁, hfirst, hrest⟩ := exists_of_bind_eq_ok h
    have hs₁ : P s₁ := hstep x List.mem_cons_self s s₁ hs hfirst
    exact ih (fun y hy => hstep y (List.mem_cons_of_mem _ hy)) hs₁ hrest

/-- What the step for one item brings about, and every step keeps, holds behind the last step. -/
theorem holds_of_mem_foldl {σ : Type} {f : σ → α → σ} {P Q : σ → Prop} {xs : List α} {x : α}
    (hx : x ∈ xs) (hP : ∀ y ∈ xs, ∀ s, P s → P (f s y)) (hQ : ∀ y ∈ xs, ∀ s, Q s → Q (f s y))
    (hstep : ∀ s, P s → Q (f s x)) {s : σ} (hs : P s) : Q (xs.foldl f s) := by
  obtain ⟨front, back, rfl⟩ := List.append_of_mem hx
  rw [List.foldl_append, List.foldl_cons]
  have hbefore : P (front.foldl f s) :=
    List.foldlRecOn front f hs fun s hs y hy => hP y (List.mem_append_left _ hy) s hs
  exact List.foldlRecOn back f (hstep _ hbefore) fun s hs y hy =>
    hQ y (List.mem_append_right _ (List.mem_cons_of_mem _ hy)) s hs

theorem mem_of_mapM {f : α → Option β} {xs : List α} {ys : List β} (h : xs.mapM f = some ys) {y : β}
    (hy : y ∈ ys) : ∃ x ∈ xs, f x = some y := by
  induction xs generalizing ys with
  | nil =>
    obtain rfl : ys = [] := by simpa using h.symm
    cases hy
  | cons x xs ih =>
    simp only [List.mapM_cons, Option.bind_eq_bind, Option.bind_eq_some_iff, Option.pure_def,
      Option.some.injEq] at h
    obtain ⟨y', hy', ys, hys, rfl⟩ := h
    rcases List.mem_cons.mp hy with rfl | hy
    · exact ⟨x, List.mem_cons_self, hy'⟩
    · obtain ⟨x', hx', hf⟩ := ih hys hy
      exact ⟨x', List.mem_cons_of_mem _ hx', hf⟩

theorem exists_of_mapM {f : α → Option β} {xs : List α} {ys : List β} (h : xs.mapM f = some ys)
    {x : α} (hx : x ∈ xs) : ∃ y ∈ ys, f x = some y := by
  induction xs generalizing ys with
  | nil => cases hx
  | cons x' xs ih =>
    simp only [List.mapM_cons, Option.bind_eq_bind, Option.bind_eq_some_iff, Option.pure_def,
      Option.some.injEq] at h
    obtain ⟨y', hy', ys, hys, rfl⟩ := h
    rcases List.mem_cons.mp hx with rfl | hx
    · exact ⟨y', List.mem_cons_self, hy'⟩
    · obtain ⟨y, hy, hf⟩ := ih hys hx
      exact ⟨y, List.mem_cons_of_mem _ hy, hf⟩

/-- What is kept of a list was in it. -/
theorem mem_of_filterM {ε : Type} {q : α → Except ε Bool} {xs ys : List α}
    (h : xs.filterM q = .ok ys) {y : α} (hy : y ∈ ys) : y ∈ xs := by
  have hall : ∀ (xs acc ys : List α), xs.filterAuxM q acc = .ok ys → y ∈ ys →
      y ∈ xs ∨ y ∈ acc := by
    intro xs
    induction xs with
    | nil =>
      intro acc ys h hy
      cases h
      exact .inr hy
    | cons x xs ih =>
      intro acc ys h hy
      obtain ⟨b, -, h⟩ := exists_of_bind_eq_ok h
      rcases ih _ _ h hy with hy | hy
      · exact .inl (List.mem_cons_of_mem _ hy)
      · cases b with
        | false => exact .inr hy
        | true =>
          rcases List.mem_cons.mp hy with rfl | hy
          · exact .inl List.mem_cons_self
          · exact .inr hy
  obtain ⟨kept, hkept, h⟩ := exists_of_bind_eq_ok h
  cases h
  exact (hall xs [] kept hkept (List.mem_reverse.mp hy)).resolve_right List.not_mem_nil

/-! ## Lists that are put together

Pieces of text are put together with separators, and items are sorted by a mark without any of them
getting lost. -/

/-- What stands before the last of some things, each with a separator behind it. -/
theorem flatMap_append_eq_intercalate (sep : List β) (f : α → List β) (xs : List α)
    (y : α) : (xs.flatMap fun x => f x ++ sep) ++ f y = sep.intercalate ((xs ++ [y]).map f) := by
  induction xs with
  | nil => simp
  | cons x xs ih =>
    rw [List.cons_append, List.map_cons, List.intercalate_cons_of_ne_nil (by simp), ← ih]
    simp

/-- Items sorted by a mark are the same items. -/
theorem flatMap_filter_perm [DecidableEq β] (f : α → β) {parts : List β}
    (hparts : parts.Nodup) (xs : List α) (h : ∀ x ∈ xs, f x ∈ parts) :
    (parts.flatMap fun k => xs.filter fun x => f x == k).Perm xs := by
  induction parts generalizing xs with
  | nil =>
    have hnil : xs = [] := List.eq_nil_iff_forall_not_mem.mpr fun x hx => nomatch h x hx
    rw [hnil]
    exact .nil
  | cons k parts ih =>
    obtain ⟨hk, hparts⟩ := List.nodup_cons.mp hparts
    have hothers : (parts.flatMap fun k' => xs.filter fun x => f x == k') =
        parts.flatMap fun k' => (xs.filter fun x => !(f x == k)).filter fun x => f x == k' := by
      refine List.flatMap_congr fun k' hk' => ?_
      rw [List.filter_filter]
      refine List.filter_congr fun x _ => ?_
      by_cases hx : f x = k'
      · have hne : k' ≠ k := fun heq => hk (heq ▸ hk')
        simp [hx, hne]
      · simp [hx]
    rw [List.flatMap_cons, hothers]
    refine ((ih hparts _ fun x hx => ?_).append_left _).trans (List.filter_append_perm _ xs)
    obtain ⟨hx, hne⟩ := List.mem_filter.mp hx
    exact (List.mem_cons.mp (h x hx)).resolve_left (by simpa using hne)

/-! ## The first item of a kind

The library tells what a search finds by a property of what comes before; here it is told by
indices. -/

/-- The first item of a kind, told by what stands at each index. -/
theorem findIdx?_eq_some_iff {xs : List α} {q : α → Bool} {i : Nat} :
    xs.findIdx? q = some i ↔
      (∃ x, xs[i]? = some x ∧ q x = true) ∧ ∀ j < i, ∀ x, xs[j]? = some x → q x = false := by
  rw [List.findIdx?_eq_some_iff_getElem]
  constructor
  · rintro ⟨hi, hq, hbefore⟩
    refine ⟨⟨xs[i], by simp [hi], hq⟩, fun j hj x hx => ?_⟩
    obtain ⟨hlt, rfl⟩ := List.getElem?_eq_some_iff.mp hx
    simpa using hbefore j hj
  · rintro ⟨⟨x, hx, hq⟩, hbefore⟩
    obtain ⟨hi, rfl⟩ := List.getElem?_eq_some_iff.mp hx
    refine ⟨hi, hq, fun j hj => ?_⟩
    simpa using hbefore j hj _ (List.getElem?_eq_getElem (Nat.lt_trans hj hi))

/-! ## Items that are changed or left out

Parameters and words are changed or left out by their indices.  What is left behind an item that
goes has other indices, but it is changed by the old ones. -/

/-- A list whose first item has index `k`, with each item changed or left out. -/
def alter (g : Nat → α → Option α) (k : Nat) (xs : List α) : List α :=
  (xs.zipIdx k).filterMap fun x => g x.2 x.1

variable {g g' : Nat → α → Option α} {xs ys : List α} {x y : α} {i j k : Nat}

@[simp] theorem alter_nil : alter g k [] = [] := rfl

theorem alter_cons : alter g k (x :: xs) = (g k x).toList ++ alter g (k + 1) xs := by
  unfold alter
  rw [List.zipIdx_cons, List.filterMap_cons]
  cases g k x <;> rfl

theorem alter_append : alter g k (xs ++ ys) = alter g k xs ++ alter g (k + xs.length) ys := by
  unfold alter
  rw [List.zipIdx_append, List.filterMap_append]

theorem alter_congr (h : ∀ i x, xs[i]? = some x → g (k + i) x = g' (k + i) x) :
    alter g k xs = alter g' k xs := by
  induction xs generalizing k with
  | nil => rfl
  | cons x xs ih =>
    have hfirst : g k x = g' k x := h 0 x rfl
    have hrest : ∀ i y, xs[i]? = some y → g (k + 1 + i) y = g' (k + 1 + i) y := by
      intro i y hy
      have hat := h (i + 1) y hy
      rwa [Nat.add_comm i, ← Nat.add_assoc] at hat
    rw [alter_cons, alter_cons, hfirst, ih hrest]

theorem alter_some (xs : List α) (k : Nat) : alter (fun _ x => some x) k xs = xs := by
  induction xs generalizing k with
  | nil => rfl
  | cons x xs ih => rw [alter_cons, ih]; rfl

/-- **Every item of the altered list was kept.** -/
theorem exists_of_getElem?_alter (h : (alter g k xs)[j]? = some y) :
    ∃ i x, xs[i]? = some x ∧ g (k + i) x = some y ∧ (alter g k (xs.take i)).length = j := by
  induction xs generalizing k j with
  | nil => simp at h
  | cons x xs ih =>
    rw [alter_cons] at h
    cases hx : g k x with
    | none =>
      rw [hx] at h
      obtain ⟨i, x', hx', hy, hrank⟩ := ih h
      refine ⟨i + 1, x', by simpa using hx', ?_, ?_⟩
      · rw [← hy]
        congr 1
        omega
      · rw [List.take_succ_cons, alter_cons, hx]
        exact hrank
    | some z =>
      rw [hx] at h
      cases j with
      | zero =>
        obtain rfl : z = y := by simpa using h
        exact ⟨0, x, rfl, hx, rfl⟩
      | succ j =>
        obtain ⟨i, x', hx', hy, hrank⟩ := ih (by simpa using h)
        refine ⟨i + 1, x', by simpa using hx', ?_, ?_⟩
        · rw [← hy]
          congr 1
          omega
        · rw [List.take_succ_cons, alter_cons, hx, List.length_append, hrank, Nat.add_comm]
          rfl

end CodeMend
