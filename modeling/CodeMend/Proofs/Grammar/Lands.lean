import CodeMend.Proofs.Grammar.Reads
import CodeMend.Proofs.Grammar.Scans

/-!
# CodeMend — parsers that succeed

`Lands` says that a parser succeeds from one index and stops at another one.  It is the forward side
of the contracts: these say what follows from a success, and here one is shown.  What is built on
the way does not matter.

* **`Lands`** — a parser that starts at an index succeeds and stops at another one.
* **`Lands.bind`**, **`Lands.seq_cons`**, **`Lands.round`**, **`Lands.wrap`** and so on — one lemma
  for each way of putting parsers together.
* **`Lands.pos_eq`** — where it succeeds, it stops there.
-/

namespace CodeMend.Grammar

open CodeMend.Parser Production
open Scan (markAt)

variable (ts : Array Token) {α β : Type}

/-- The parser succeeds at the first index and stops at the second one, whatever was built. -/
def Lands (p : Parser α) (i j : Nat) : Prop :=
  ∀ b, ∃ x b', p ⟨ts, i, b⟩ = .ok (x, ⟨ts, j, b'⟩)

variable {ts} {p : Parser α} {i j k : Nat}

theorem Lands.pure (x : α) (i : Nat) : Lands ts (Pure.pure x : Parser α) i i :=
  fun b => ⟨x, b, rfl⟩

theorem Lands.bind {f : α → Parser β} (hp : Lands ts p i j) (hf : ∀ x, Lands ts (f x) j k) :
    Lands ts (p >>= f) i k := by
  intro b
  obtain ⟨x, b', hx⟩ := hp b
  obtain ⟨y, b'', hy⟩ := hf x b'
  refine ⟨y, b'', ?_⟩
  show (p ⟨ts, i, b⟩ >>= fun r => f r.1 r.2) = _
  rw [hx]
  exact hy

/-- Go on according to where the parser stands. -/
theorem Lands.get {f : Cursor → Parser α} (h : ∀ b, Lands ts (f ⟨ts, i, b⟩) i j) :
    Lands ts (MonadState.get >>= f) i j :=
  fun b => h b b

theorem Lands.choose {f : Cursor → Parser α} (h : ∀ b, Lands ts (f ⟨ts, i, b⟩) i j) :
    Lands ts (Parser.choose f) i j :=
  Lands.get h

theorem Lands.one {p : Parser Shape} (h : Lands ts p i j) : Lands ts (Parser.one p) i j :=
  h.bind fun s => .pure [s] j

theorem Lands.checkpoint {f : Checkpoint → Parser α} (h : ∀ cp, Lands ts (f cp) i j) :
    Lands ts (Parser.checkpoint >>= f) i j :=
  Lands.bind (j := i) (fun b => ⟨b.checkpoint, b, rfl⟩) h

theorem Lands.node {since : Option Checkpoint} {body : Parser (List Shape)} (k : NodeKind)
    (h : Lands ts body i j) : Lands ts (nodeSince since k body) i j := by
  have hstart : Lands ts (start since k) i i := fun b => ⟨_, _, rfl⟩
  have hfinish : Lands ts finish j j := fun b => ⟨(), b.finishNode, rfl⟩
  exact hstart.bind fun id => h.bind fun cs => hfinish.bind fun _ => .pure (Shape.node id k cs) j

theorem Lands.seq_nil (i : Nat) : Lands ts (Parser.seq []) i i := Lands.pure [] i

theorem Lands.seq_cons {p : Parser (List Shape)} {ps : List (Parser (List Shape))}
    (hp : Lands ts p i j) (hps : Lands ts (Parser.seq ps) j k) :
    Lands ts (Parser.seq (p :: ps)) i k :=
  hp.bind fun x => hps.bind fun y => .pure (x ++ y) k

theorem Lands.single {p : Parser (List Shape)} (hp : Lands ts p i j) :
    Lands ts (Parser.seq [p]) i j :=
  hp.seq_cons (.seq_nil j)

/-- The next token is left behind where the file does not end. -/
theorem Lands.bump (h : i + 1 < ts.size) : Lands ts Parser.bump i (i + 1) := by
  refine Lands.get fun b => ?_
  rw [if_pos (show i < ts.size - 1 by omega)]
  exact fun _ => ⟨[.token i], b.token i, rfl⟩

theorem Lands.expect (hts : Ended ts) {m : String} (h : markAt ts i m = true) :
    Lands ts (Parser.expect m) i (i + 1) := by
  refine Lands.get fun b => ?_
  rw [if_pos (show Cursor.atMark ⟨ts, i, b⟩ m = true from h)]
  exact .bump (Scan.lt_of_isMark hts h)

theorem Lands.expectIdentifier (hts : Ended ts) (h : (tokenAt ts i).isIdentifier = true) :
    Lands ts Parser.expectIdentifier i (i + 1) := by
  refine Lands.get fun b => ?_
  rw [if_pos (show Cursor.atIdentifier ⟨ts, i, b⟩ = true from h)]
  exact .bump (Scan.lt_of_isIdentifier hts h)

section Repeated

variable {at? : Cursor → Bool} {body : Parser (List Shape)} {fuel : Nat}

theorem Lands.whenAt (h : ∀ b, at? ⟨ts, i, b⟩ = true) (hbody : Lands ts body i j) :
    Lands ts (Parser.whenAt at? body) i j := by
  refine Lands.get fun b => ?_
  rw [if_pos (h b)]
  exact hbody

theorem Lands.whenAt_not (h : ∀ b, at? ⟨ts, i, b⟩ = false) :
    Lands ts (Parser.whenAt at? body) i i := by
  refine Lands.get fun b => ?_
  rw [if_neg (by simp [h b])]
  exact .pure [] i

/-- A repeated reader stops where nothing more can be read. -/
theorem Lands.stop (h : ∀ b, at? ⟨ts, i, b⟩ = false) :
    Lands ts (manyWhileFuel at? body (fuel + 1)) i i := by
  refine Lands.get fun b => ?_
  rw [if_neg (by simp [h b])]
  exact .pure [] i

/-- A repeated reader goes on where something can be read. -/
theorem Lands.round (h : ∀ b, at? ⟨ts, i, b⟩ = true) (hbody : Lands ts body i j)
    (hrest : Lands ts (manyWhileFuel at? body fuel) j k) :
    Lands ts (manyWhileFuel at? body (fuel + 1)) i k := by
  refine Lands.get fun b => ?_
  rw [if_pos (h b)]
  exact hbody.bind fun x => hrest.bind fun y => .pure (x ++ y) k

theorem Lands.manyWhile (h : Lands ts (manyWhileFuel at? body (ts.size + 1)) i j) :
    Lands ts (Parser.manyWhile at? body) i j :=
  Lands.get fun _ => h

end Repeated

section Grown

variable {step? : Cursor → Option (Shape → Parser Shape)} {fuel : Nat} {s : Shape}

theorem Lands.grown (h : ∀ b, step? ⟨ts, i, b⟩ = none) :
    Lands ts (growFuel step? (fuel + 1) s) i i := by
  refine Lands.get fun b => ?_
  simp only [h b]
  exact .pure s i

theorem Lands.wrap {wrap : Shape → Parser Shape} (h : ∀ b, step? ⟨ts, i, b⟩ = some wrap)
    (hwrap : Lands ts (wrap s) i j) (hrest : ∀ s, Lands ts (growFuel step? fuel s) j k) :
    Lands ts (growFuel step? (fuel + 1) s) i k := by
  refine Lands.get fun b => ?_
  simp only [h b]
  exact hwrap.bind hrest

theorem Lands.grow (h : ∀ s, Lands ts (growFuel step? (ts.size + 1) s) i j) :
    Lands ts (Parser.grow step? s) i j :=
  Lands.get fun _ => h s

end Grown

theorem lands_singleVariableDesignation (hts : Ended ts)
    (hid : (tokenAt ts i).isIdentifier = true) : Lands ts singleVariableDesignation i (i + 1) :=
  .node _ (.expectIdentifier hts hid)

/-- Where the parser stops when it succeeds. -/
theorem Lands.pos_eq (h : Lands ts p i j) {b : TreeBuilder} {x : α} {c : Cursor}
    (hrun : p ⟨ts, i, b⟩ = .ok (x, c)) : c.tokens = ts ∧ c.pos = j := by
  obtain ⟨y, b', hy⟩ := h b
  rw [hrun] at hy
  cases hy
  exact ⟨rfl, rfl⟩

end CodeMend.Grammar
