import CodeMend.Proofs.Grammar.Productions

/-!
# CodeMend — what a parser adds

A parser takes shapes that stand already and returns them with what it read behind them.  `Adds`
says what holds of the new shapes whatever they are: their leaves are the tokens that were passed,
in order, and their nodes bear the numbers that were given out.  `Yields` is the contract of a
parser: where it succeeds, it adds, its shapes conform to the productions, and the result is of a
given sort.

* **`Adds`** — the tokens and the numbers of new shapes.
* **`Yields`**, **`Reads`**, **`Makes`** — contracts of parsers, of those for lists and of those for
  a node.
* **`Yields.bind`**, **`Reads.seq_cons`**, **`Reads.manyWhile`**, **`Makes.node`**, **`Makes.grow`**
  and so on — one lemma for each way of putting parsers together.

The contracts are relative to shapes in front because a node may take in shapes that were built
before it was begun.
-/

namespace CodeMend

/-- A shape of the grammar has a leaf. -/
theorem Production.Conforms.leaves_ne_nil {ts : Array Token} {s : Shape} (h : Conforms ts s) :
    s.leaves ≠ [] := by
  induction h with
  | token i => simp
  | node id k cs hcs hall ih =>
    cases cs with
    | nil => exact absurd hcs (nil_notMem_production ts k)
    | cons c cs =>
      rw [Shape.leaves_node, Shape.leavesOfList_cons]
      exact List.append_ne_nil_of_left_ne_nil (ih c List.mem_cons_self) _

namespace Parser

open Production Shape TreeBuilder
open scoped Computability

/-! ## What is added

Parsers are followed on two things at once: the list of shapes that they answer, and what a builder
would have built.  The second is what the numbers of nodes depend on. -/

/-- The cursor walks over the tokens and stands before their end. -/
structure Inside (ts : Array Token) (c : Cursor) : Prop where
  tokens_eq : c.tokens = ts
  pos_lt : c.pos < ts.size

/-- What a cursor has built is what stands under these open nodes, with the innermost first. -/
structure HasBuilt (c : Cursor) (nodes : List OpenNode) : Prop where
  represents : c.builder.Represents c.pos nodes
  size_eq : c.builder.tokenParents.size = c.tokens.size

/-- What a node takes in when `front` stands behind the first `n` children of the open node. -/
inductive TakesIn : Option Checkpoint → (n : Nat) → (front : List Shape) → Prop where
  /-- A node that is begun anew takes in nothing. -/
  | anew (n : Nat) : TakesIn none n []
  /-- A node that is begun at a checkpoint takes in what stands behind it. -/
  | since (n : Nat) (front : List Shape) : TakesIn (some n) n front

/-- From one cursor to another, `out` came to be of `front`: its leaves are those of `front` and the
tokens between the cursors, its nodes those of `front` and the ones numbered between them. -/
structure Adds (front out : List Shape) (c c' : Cursor) : Prop where
  pos_le : c.pos ≤ c'.pos
  leaves_eq : leavesOfList out = leavesOfList front ++ List.range' c.pos (c'.pos - c.pos)
  size_le : c.builder.nodes.size ≤ c'.builder.nodes.size
  ids_perm : (idsOfList out).Perm (idsOfList front ++
    List.range' c.builder.nodes.size (c'.builder.nodes.size - c.builder.nodes.size))

/-- Two stretches of numbers that follow one another. -/
theorem range'_append_of_le {i j k : Nat} (hij : i ≤ j) (hjk : j ≤ k) :
    List.range' i (j - i) ++ List.range' j (k - j) = List.range' i (k - i) := by
  have hj : i + (j - i) = j := by omega
  have hlen : k - i = (j - i) + (k - j) := by omega
  rw [hlen, ← List.range'_append_1, hj]

/-- A stretch of numbers from its first one on. -/
theorem range'_eq_cons_of_lt {i j : Nat} (h : i < j) :
    List.range' i (j - i) = i :: List.range' (i + 1) (j - (i + 1)) := by
  have hlen : j - i = (j - (i + 1)) + 1 := by omega
  rw [hlen, List.range'_succ]

namespace Adds

variable {front mid out : List Shape} {c c' c'' : Cursor}

theorem refl (front : List Shape) (c : Cursor) : Adds front front c c where
  pos_le := Nat.le_refl _
  leaves_eq := by simp
  size_le := Nat.le_refl _
  ids_perm := by simp

/-- What one parser added stands in front of what the next one adds. -/
theorem trans (h : Adds front mid c c') (h' : Adds mid out c' c'') : Adds front out c c'' where
  pos_le := h.pos_le.trans h'.pos_le
  leaves_eq := by
    rw [h'.leaves_eq, h.leaves_eq, List.append_assoc, range'_append_of_le h.pos_le h'.pos_le]
  size_le := h.size_le.trans h'.size_le
  ids_perm := by
    refine h'.ids_perm.trans ((h.ids_perm.append_right _).trans ?_)
    rw [List.append_assoc, range'_append_of_le h.size_le h'.size_le]

/-- Shapes further in front stay in front. -/
theorem behind (a : List Shape) (h : Adds front out c c') : Adds (a ++ front) (a ++ out) c c' where
  pos_le := h.pos_le
  leaves_eq := by rw [leavesOfList_append, leavesOfList_append, h.leaves_eq, List.append_assoc]
  size_le := h.size_le
  ids_perm := by
    rw [idsOfList_append, idsOfList_append, List.append_assoc]
    exact h.ids_perm.append_left _

/-- A node with the next number around what was added. -/
theorem node {since : Option Checkpoint} {k : NodeKind}
    (h : Adds front out { c with builder := c.builder.startNodeSince since k } c') :
    Adds front [.node c.builder.nodes.size k out] c
      { c' with builder := c'.builder.finishNode } where
  pos_le := h.pos_le
  leaves_eq := by simpa using h.leaves_eq
  size_le := by
    have hle := h.size_le
    rw [size_startNodeSince] at hle
    rw [TreeBuilder.size_finishNode]
    omega
  ids_perm := by
    have hle := h.size_le
    have hperm := h.ids_perm.cons c.builder.nodes.size
    rw [size_startNodeSince] at hle hperm
    rw [TreeBuilder.size_finishNode, range'_eq_cons_of_lt hle]
    simpa using hperm.trans List.perm_middle.symm

/-- The next token. -/
theorem token (front : List Shape) (c : Cursor) :
    Adds front (front ++ [.token c.pos]) c
      { c with pos := c.pos + 1, builder := c.builder.token c.pos } where
  pos_le := Nat.le_succ _
  leaves_eq := by simp
  size_le := by simp
  ids_perm := by simp

end Adds

/-! ## What is built

The three steps of a builder, on shapes. -/

namespace HasBuilt

variable {c : Cursor} {f g : OpenNode} {outer : List OpenNode}

/-- A node is begun, with what it takes in under it. -/
theorem start {since : Option Checkpoint} {front : List Shape} (k : NodeKind)
    (h : HasBuilt c (f.add front :: outer)) (htakes : TakesIn since f.children.length front) :
    HasBuilt { c with builder := c.builder.startNodeSince since k }
      (OpenNode.add ⟨c.builder.nodes.size, k, []⟩ front :: f :: outer) := by
  refine ⟨?_, (congrArg Array.size (tokenParents_startNodeSince _ _ _)).trans h.size_eq⟩
  cases htakes with
  | anew => exact Represents.startNode (by simpa using h.represents) k
  | since => exact h.represents.startNodeAt k

/-- The open node is ended. -/
theorem finish (h : HasBuilt c (g :: f :: outer)) :
    HasBuilt { c with builder := c.builder.finishNode }
      (f.add [.node g.id g.kind g.children] :: outer) :=
  ⟨h.represents.finishNode, h.represents.sizes_finishNode.2.2.trans h.size_eq⟩

/-- The next token is passed. -/
theorem token (h : HasBuilt c (f :: outer)) (hlt : c.pos < c.tokens.size) :
    HasBuilt { c with pos := c.pos + 1, builder := c.builder.token c.pos }
      (f.add [.token c.pos] :: outer) :=
  ⟨h.represents.token (h.size_eq ▸ hlt),
    (congrArg Array.size (tokenParents_token _ _)).trans h.size_eq⟩

end HasBuilt

/-! ## Runs

A run is taken apart into the runs of its parts. -/

/-- A run of two parsers, one after the other. -/
theorem bind_eq_ok {α β : Type} {p : Parser α} {f : α → Parser β} {c c'' : Cursor} {y : β}
    (h : (p >>= f) c = .ok (y, c'')) :
    ∃ x c', p c = .ok (x, c') ∧ f x c' = .ok (y, c'') := by
  have hrun : (p >>= f) c = (p c >>= fun r => f r.1 r.2) := rfl
  rw [hrun] at h
  cases hp : p c with
  | error e =>
    rw [hp] at h
    cases h
  | ok r =>
    rw [hp] at h
    exact ⟨r.1, r.2, rfl, h⟩

/-! ## Contracts

A contract says what a parser answers and where it stops, if it does not fail.  There is one rule
for each way to put parsers together, so that the contract of a rule of the grammar is read off its
text. -/

section Contracts

variable (ts : Array Token) {α β : Type}

/-- The contract of a parser that starts where `P` holds with `front` in front of it, behind the
first `n` children of the open node: where it succeeds, the shapes of its result came to be of
`front`, they stand in its place in what was built, they conform to the productions, and `Q` holds
of the result. -/
def Yields (n : Checkpoint) (P : Cursor → Prop) (front : List Shape) (V : α → List Shape)
    (p : Parser α) (Q : α → Prop) : Prop :=
  ∀ (f : OpenNode) outer c x c', f.children.length = n → HasBuilt c (f.add front :: outer) →
    Inside ts c → P c → p c = .ok (x, c') →
      HasBuilt c' (f.add (V x) :: outer) ∧ Inside ts c' ∧ Adds front (V x) c c' ∧ Q x ∧
        ∀ s ∈ V x, Conforms ts s

/-- The contract of a parser for a word of a language. -/
def Reads (n : Checkpoint) (P : Cursor → Prop) (front : List Shape) (p : Parser (List Shape))
    (l : Language Shape) : Prop :=
  Yields ts n P front id p (· ∈ l)

/-- The contract of a parser for one node. -/
def Makes (n : Checkpoint) (P : Cursor → Prop) (front : List Shape) (p : Parser Shape)
    (Q : Shape → Prop) : Prop :=
  Yields ts n P front (fun s => [s]) p Q

/-- A token that does not end the file stands ahead. -/
def Ahead (c : Cursor) : Prop := c.current.kind ≠ .endOfFile

/-- No condition on the place. -/
abbrev anywhere : Cursor → Prop := fun _ => True

end Contracts

variable {ts : Array Token} {α β : Type} {n : Checkpoint} {P P' : Cursor → Prop}
  {front : List Shape} {V : α → List Shape} {p : Parser α} {Q Q' : α → Prop}

/-- A contract at fewer places, for more results. -/
theorem Yields.mono (h : Yields ts n P front V p Q) (hpre : ∀ c, P' c → P c)
    (hpost : ∀ x, Q x → Q' x) : Yields ts n P' front V p Q' := by
  intro f outer c x c' hn hbuilt hc hpc hrun
  obtain ⟨hbuilt', hc', hadds, hx, hall⟩ := h f outer c x c' hn hbuilt hc (hpre c hpc) hrun
  exact ⟨hbuilt', hc', hadds, hpost x hx, hall⟩

theorem Yields.before (h : Yields ts n P front V p Q) (hpre : ∀ c, P' c → P c) :
    Yields ts n P' front V p Q :=
  h.mono hpre fun _ hx => hx

/-- A contract for everywhere holds at any place. -/
theorem Yields.here (h : Yields ts n anywhere front V p Q) :
    Yields ts n P front V p Q :=
  h.before fun _ _ => trivial

/-- A contract holds at a cursor that meets its condition. -/
theorem Yields.at {c₀ : Cursor} (h : Yields ts n P front V p Q) (hc₀ : P c₀) :
    Yields ts n (· = c₀) front V p Q :=
  h.before fun _ hc => hc ▸ hc₀

/-- A parser that never succeeds keeps every contract. -/
theorem yields_of_error {p : Parser α} (h : ∀ c, ∃ e, p c = .error e) :
    Yields ts n P front V p Q := by
  intro f outer c x c' _ _ _ _ hrun
  obtain ⟨e, he⟩ := h c
  rw [he] at hrun
  cases hrun

theorem Yields.unexpected (expected : String) :
    Yields ts n P front V (Parser.unexpected expected) Q :=
  yields_of_error fun _ => ⟨_, rfl⟩

theorem Yields.tooDeep : Yields ts n P front V Parser.tooDeep Q :=
  yields_of_error fun _ => ⟨_, rfl⟩

/-- What is in front may be returned as it is. -/
theorem Yields.pure {x : α} (hall : ∀ s ∈ V x, Conforms ts s) (hx : Q x) :
    Yields ts n P (V x) V (Pure.pure x : Parser α) Q := by
  intro f outer c y c' _ hbuilt hc _ hrun
  cases hrun
  exact ⟨hbuilt, hc, .refl _ _, hx, hall⟩

/-- **One parser after the other.**  The first takes in the last part of what is in front; where it
stops, `S` holds. -/
theorem Yields.bind_from {a b : List Shape} {V' : β → List Shape} {Q' : β → Prop}
    {f : α → Parser β} {S : Cursor → Prop} (hp : Yields ts (n + a.length) P b V p Q)
    (hstop : ∀ c x c', Inside ts c → P c → p c = .ok (x, c') → S c')
    (hf : ∀ x, Q x → (∀ s ∈ V x, Conforms ts s) →
      Yields ts n S (a ++ V x) V' (f x) Q') :
    Yields ts n P (a ++ b) V' (p >>= f) Q' := by
  intro g outer c y c'' hn hbuilt hc hpc hrun
  obtain ⟨x, c', hpx, hfx⟩ := bind_eq_ok hrun
  have hbehind : (g.add a).children.length = n + a.length := by rw [OpenNode.length_add, hn]
  rw [← OpenNode.add_add] at hbuilt
  obtain ⟨hbuilt', hc', hadds, hx, hall⟩ := hp _ outer c x c' hbehind hbuilt hc hpc hpx
  rw [OpenNode.add_add] at hbuilt'
  obtain ⟨hbuilt'', hc'', hadds', hy, hall'⟩ :=
    hf x hx hall g outer c' y c'' hn hbuilt' hc' (hstop c x c' hc hpc hpx) hfx
  exact ⟨hbuilt'', hc'', (hadds.behind a).trans hadds', hy, hall'⟩

/-- One parser after the other, where `S` holds wherever the first one stops. -/
theorem Yields.bind_stop {a b : List Shape} {V' : β → List Shape} {Q' : β → Prop}
    {f : α → Parser β} {S : Cursor → Prop} (hp : Yields ts (n + a.length) P b V p Q)
    (hstop : ∀ c x c', p c = .ok (x, c') → S c')
    (hf : ∀ x, Q x → (∀ s ∈ V x, Conforms ts s) →
      Yields ts n S (a ++ V x) V' (f x) Q') :
    Yields ts n P (a ++ b) V' (p >>= f) Q' :=
  Yields.bind_from hp (fun c x c' _ _ => hstop c x c') hf

section Bind

variable {V' : β → List Shape} {Q' : β → Prop} {f : α → Parser β}

/-- The first parser takes in all that is in front. -/
theorem Yields.bind (hp : Yields ts n P front V p Q)
    (hf : ∀ x, Q x → (∀ s ∈ V x, Conforms ts s) →
      Yields ts n anywhere (V x) V' (f x) Q') :
    Yields ts n P front V' (p >>= f) Q' :=
  Yields.bind_stop (a := []) hp (fun _ _ _ _ => trivial) hf

/-- The first parser reads on behind all that is in front. -/
theorem Yields.bind_behind (hp : Yields ts (n + front.length) P [] V p Q)
    (hf : ∀ x, Q x → (∀ s ∈ V x, Conforms ts s) →
      Yields ts n anywhere (front ++ V x) V' (f x) Q') :
    Yields ts n P front V' (p >>= f) Q' := by
  have h := Yields.bind_stop (a := front) hp (fun _ _ _ _ => trivial) hf
  rwa [List.append_nil] at h

end Bind

/-- Go on according to where the parser stands. -/
theorem Yields.get {f : Cursor → Parser α}
    (h : ∀ c₀, Inside ts c₀ → P c₀ → Yields ts n (· = c₀) front V (f c₀) Q) :
    Yields ts n P front V (MonadState.get >>= f) Q := by
  intro g outer c x c' hn hbuilt hc hpc hrun
  exact h c hc hpc g outer c x c' hn hbuilt hc rfl hrun

theorem Yields.choose {f : Cursor → Parser α}
    (h : ∀ c₀, Inside ts c₀ → P c₀ → Yields ts n (· = c₀) front V (f c₀) Q) :
    Yields ts n P front V (Parser.choose f) Q :=
  Yields.get h

/-- A checkpoint is taken on the way: it lies behind what is in front. -/
theorem Yields.checkpoint {f : Checkpoint → Parser α}
    (h : Yields ts n P front V (f (n + front.length)) Q) :
    Yields ts n P front V (Parser.checkpoint >>= f) Q := by
  intro g outer c x c' hn hbuilt hc hpc hrun
  obtain ⟨cp, c₁, hcp, hrun⟩ := bind_eq_ok hrun
  cases hcp
  have hcheckpoint : c.builder.checkpoint = n + front.length := by
    rw [hbuilt.represents.checkpoint_eq, OpenNode.length_add, hn]
  rw [hcheckpoint] at hrun
  exact h g outer c x c' hn hbuilt hc hpc hrun

/-! ## Nodes

A node is made around the word of a language, and conforms when the word is one of the production of
its kind. -/

/-- The contract of a parser for one node, told by the list of it. -/
theorem Makes.one {p : Parser Shape} {Q : Shape → Prop} (h : Makes ts n P front p Q) :
    Reads ts n P front (Parser.one p) (part Q) := by
  refine Yields.bind h fun s hs hall => ?_
  exact Yields.pure (V := id) hall ⟨s, hs, rfl⟩

/-- Behind nothing, a node begins with the token at which its parser starts. -/
theorem Makes.starting {c₀ : Cursor} {p : Parser Shape} {Q : Shape → Prop}
    (h : Makes ts n (· = c₀) [] p Q) :
    Makes ts n (· = c₀) [] p fun s => Q s ∧ s.leaves.head? = some c₀.pos := by
  rintro f outer c s c' hn hbuilt hc rfl hrun
  obtain ⟨hbuilt', hc', hadds, hs, hall⟩ := h f outer c s c' hn hbuilt hc rfl hrun
  refine ⟨hbuilt', hc', hadds, ⟨hs, ?_⟩, hall⟩
  have hleaves : s.leaves = List.range' c.pos (c'.pos - c.pos) := by simpa using hadds.leaves_eq
  have hne := (hall s (List.mem_singleton_self s)).leaves_ne_nil
  rw [hleaves] at hne ⊢
  cases hlength : c'.pos - c.pos with
  | zero =>
    rw [hlength] at hne
    exact absurd rfl hne
  | succ n => rw [List.range'_succ, List.head?_cons]

/-- The condition does not look at what was built. -/
def Steady (P : Cursor → Prop) : Prop := ∀ c b, P c → P { c with builder := b }

/-- A node takes the next number, and what it holds is read behind that. -/
theorem exists_of_nodeSince {since : Option Checkpoint} {k : NodeKind}
    {body : Parser (List Shape)} {c c' : Cursor} {s : Shape}
    (h : Parser.nodeSince since k body c = .ok (s, c')) :
    ∃ cs c₁, body { c with builder := c.builder.startNodeSince since k } = .ok (cs, c₁) ∧
      s = .node c.builder.nodes.size k cs ∧
      c' = { c₁ with builder := c₁.builder.finishNode } := by
  obtain ⟨id, c₁, hstart, h⟩ := bind_eq_ok h
  cases hstart
  obtain ⟨cs, c₂, hbody, h⟩ := bind_eq_ok h
  obtain ⟨_, c₃, hfinish, h⟩ := bind_eq_ok h
  cases hfinish
  cases h
  exact ⟨cs, c₂, hbody, rfl, rfl⟩

/-- A node around a word of a language. -/
theorem Makes.node_of {since : Option Checkpoint} {k : NodeKind} {body : Parser (List Shape)}
    {l : Language Shape} (htakes : TakesIn since n front) (hP : Steady P)
    (hbody : Reads ts 0 P front body l) (hl : l ≤ production ts k) :
    Makes ts n P front (Parser.nodeSince since k body)
      (fun s => ∃ id, ∃ cs ∈ l, s = .node id k cs) := by
  intro f outer c s c' hn hbuilt hc hpc hrun
  obtain ⟨cs, c₁, hbodyrun, rfl, rfl⟩ := exists_of_nodeSince hrun
  obtain ⟨hbuilt', hc', hadds, hcs, hall⟩ :=
    hbody _ (f :: outer) _ cs c₁ rfl (hbuilt.start k (hn ▸ htakes)) ⟨hc.tokens_eq, hc.pos_lt⟩
      (hP c _ hpc) hbodyrun
  refine ⟨hbuilt'.finish, ⟨hc'.tokens_eq, hc'.pos_lt⟩, hadds.node, ⟨_, cs, hcs, rfl⟩, ?_⟩
  intro s hs
  obtain rfl := List.mem_singleton.mp hs
  exact .node _ _ _ (hl hcs) hall

/-- A node of a kind around a word of its production, read where the condition holds. -/
theorem Makes.node_at {since : Option Checkpoint} {k : NodeKind} {body : Parser (List Shape)}
    (htakes : TakesIn since n front) (hP : Steady P)
    (hbody : Reads ts 0 P front body (production ts k)) :
    Makes ts n P front (Parser.nodeSince since k body) (IsA k) := by
  refine (Makes.node_of htakes hP hbody le_rfl).mono (fun _ h => h) ?_
  rintro s ⟨id, cs, -, rfl⟩
  exact ⟨id, k, cs, rfl, rfl⟩

/-- A node of a kind around a word of its production. -/
theorem Makes.node {since : Option Checkpoint} {k : NodeKind} {body : Parser (List Shape)}
    (htakes : TakesIn since n front)
    (hbody : Reads ts 0 anywhere front body (production ts k)) :
    Makes ts n P front (Parser.nodeSince since k body) (IsA k) :=
  Yields.here (Makes.node_at htakes (fun _ _ h => h) hbody)

/-- A node of a kind that begins with the token ahead. -/
theorem Makes.node_ahead {since : Option Checkpoint} {k : NodeKind} {body : Parser (List Shape)}
    (htakes : TakesIn since n front)
    (hbody : Reads ts 0 Ahead front body (production ts k)) :
    Makes ts n Ahead front (Parser.nodeSince since k body) (IsA k) :=
  Makes.node_at htakes (fun _ _ h => h) hbody

theorem conforms_append {x y : List Shape} (hx : ∀ s ∈ x, Conforms ts s)
    (hy : ∀ s ∈ y, Conforms ts s) : ∀ s ∈ x ++ y, Conforms ts s :=
  fun s hs => (List.mem_append.mp hs).elim (hx s) (hy s)

/-- A node of a kind around what stands already. -/
theorem Makes.node_pure {since : Option Checkpoint} {k : NodeKind} {cs : List Shape}
    (htakes : TakesIn since n cs) (hall : ∀ s ∈ cs, Conforms ts s) (hcs : cs ∈ production ts k) :
    Makes ts n P cs (Parser.nodeSince since k (Pure.pure cs)) (IsA k) :=
  Makes.node htakes (Yields.pure (V := id) hall hcs)

/-- A node of a kind whose children are not told, around a word that is not empty. -/
theorem Makes.node_something {since : Option Checkpoint} {k : NodeKind} {body : Parser (List Shape)}
    {l : Language Shape} (htakes : TakesIn since n front) (hP : Steady P)
    (hbody : Reads ts 0 P front body l) (hl : [] ∉ l) (hk : production ts k = something) :
    Makes ts n P front (Parser.nodeSince since k body) (IsA k) :=
  Makes.node_at htakes hP (Yields.mono hbody (fun _ h => h) fun _ hx => hk ▸ le_something hl hx)

/-- A shape that is wrapped again and again stays of its sort. -/
theorem Makes.grow {step? : Cursor → Option (Shape → Parser Shape)} {Q : Shape → Prop}
    (h : ∀ c₀ wrap s, Inside ts c₀ → step? c₀ = some wrap → Q s → Conforms ts s →
      Makes ts n (· = c₀) [s] (wrap s) Q)
    {s : Shape} (hs : Q s) (hconforms : Conforms ts s) :
    Makes ts n P [s] (Parser.grow step? s) Q := by
  have hfuel : ∀ fuel s, Q s → Conforms ts s →
      Makes ts n anywhere [s] (Parser.growFuel step? fuel s) Q := by
    intro fuel
    induction fuel with
    | zero => exact fun _ _ _ => Yields.tooDeep
    | succ fuel ih =>
      intro s hs hconforms
      refine Yields.get fun c₀ hc₀ _ => ?_
      cases hstep : step? c₀ with
      | none =>
        exact Yields.pure (V := fun s => [s]) (by simpa using hconforms) hs
      | some wrap =>
        refine Yields.bind (h c₀ wrap s hc₀ hstep hs hconforms) fun s' hs' hall => ?_
        exact ih s' hs' (hall s' (List.mem_singleton_self s'))
  exact Yields.get fun c₀ _ _ => (hfuel _ s hs hconforms).here

/-! ## Lists

Lists of parsers read products of languages, and loops read repetitions. -/

section Lists

variable {p body item : Parser (List Shape)} {ps : List (Parser (List Shape))}
  {l m : Language Shape} {ls : List (Language Shape)} {at? : Cursor → Bool}

/-- The contract for a larger language. -/
theorem Reads.mono (h : Reads ts n P front p l) (hl : l ≤ m) : Reads ts n P front p m :=
  Yields.mono h (fun _ hc => hc) fun _ hx => hl hx

theorem Reads.seq_nil : Reads ts n P [] (Parser.seq []) ([] : List (Language Shape)).prod := by
  rw [Parser.seq, List.prod_nil]
  exact Yields.pure (V := id) (by simp) (Language.mem_one ([] : List Shape) |>.mpr rfl)

/-- **A reader in front of others.**  Where it stops, `S` holds. -/
theorem Reads.seq_from {S : Cursor → Prop} (hp : Reads ts n P front p l)
    (hstop : ∀ c x c', Inside ts c → P c → p c = .ok (x, c') → S c')
    (hps : ∀ {n}, Reads ts n S [] (Parser.seq ps) ls.prod) :
    Reads ts n P front (Parser.seq (p :: ps)) (l :: ls).prod := by
  rw [Parser.seq, List.prod_cons]
  refine Yields.bind_from (a := []) hp hstop fun x hx hall => ?_
  have hrest : Reads ts n S (x ++ [])
      (Parser.seq ps >>= fun y => (Pure.pure (x ++ y) : Parser (List Shape))) (l * ls.prod) := by
    refine Yields.bind_stop (S := anywhere) hps (fun _ _ _ _ => trivial) fun y hy hall' => ?_
    exact Yields.pure (V := id) (conforms_append hall hall') (Language.append_mem_mul hx hy)
  rwa [List.append_nil] at hrest

/-- A reader in front of others, where `S` holds wherever it stops. -/
theorem Reads.seq_stop {S : Cursor → Prop} (hp : Reads ts n P front p l)
    (hstop : ∀ c x c', p c = .ok (x, c') → S c')
    (hps : ∀ {n}, Reads ts n S [] (Parser.seq ps) ls.prod) :
    Reads ts n P front (Parser.seq (p :: ps)) (l :: ls).prod :=
  hp.seq_from (fun c x c' _ _ => hstop c x c') hps

theorem Reads.seq_cons (hp : Reads ts n P front p l)
    (hps : ∀ {n}, Reads ts n anywhere [] (Parser.seq ps) ls.prod) :
    Reads ts n P front (Parser.seq (p :: ps)) (l :: ls).prod :=
  hp.seq_stop (fun _ _ _ _ => trivial) hps

/-- Shapes that stand already, in front of readers. -/
theorem Reads.seq_pure {x : List Shape} (hx : x ∈ l) (hall : ∀ s ∈ x, Conforms ts s)
    (hps : ∀ {n}, Reads ts n P [] (Parser.seq ps) ls.prod) :
    Reads ts n P x (Parser.seq (Pure.pure x :: ps)) (l :: ls).prod := by
  rw [Parser.seq, List.prod_cons]
  refine Yields.bind_behind (V := id) (p := Parser.seq ps)
    (f := fun y => (Pure.pure (x ++ y) : Parser (List Shape))) hps fun y hy hall' => ?_
  exact Yields.pure (V := id) (conforms_append hall hall') (Language.append_mem_mul hx hy)

/-- A node that stands already, in front of readers. -/
theorem Reads.seq_shape {q : Shape → Prop} {s : Shape} (hs : q s) (hconforms : Conforms ts s)
    (hps : ∀ {n}, Reads ts n P [] (Parser.seq ps) ls.prod) :
    Reads ts n P [s] (Parser.seq (Pure.pure [s] :: ps)) (part q :: ls).prod :=
  Reads.seq_pure ⟨s, hs, rfl⟩ (by simpa using hconforms) hps

theorem Reads.single (hp : Reads ts n P front p l) :
    Reads ts n P front (Parser.seq [p]) [l].prod :=
  hp.seq_cons .seq_nil

/-- What is read where `at?` says so, and nothing elsewhere. -/
theorem Reads.whenAt (h : Reads ts n (fun c => at? c = true) [] body l) :
    Reads ts n P [] (Parser.whenAt at? body) (opt l) := by
  refine Yields.get fun c₀ _ _ => ?_
  cases hat : at? c₀ with
  | true => exact (Yields.at h hat).mono (fun _ hc => hc) fun _ hx => mem_opt_of_mem hx
  | false =>
    exact Yields.pure (V := id) (by simp) nil_mem_opt

/-- Nothing is read where `at?` does not say so. -/
theorem Reads.whenAt_of_not (hpre : ∀ c, P c → at? c = false) :
    Reads ts n P [] (Parser.whenAt at? body) 1 := by
  refine Yields.get fun c₀ _ hc₀ => ?_
  rw [if_neg (by simp [hpre c₀ hc₀])]
  exact Yields.pure (V := id) (by simp) ((Language.mem_one ([] : List Shape)).mpr rfl)

/-- A word that is passed over leaves the rest of the language. -/
theorem append_mem_kstar {x y : List Shape} (hx : x ∈ l) (hy : y ∈ l∗) : x ++ y ∈ l∗ := by
  rw [← Language.one_add_self_mul_kstar_eq_kstar]
  exact Or.inr (Language.append_mem_mul hx hy)

theorem nil_mem_kstar : ([] : List Shape) ∈ l∗ := by
  rw [← Language.one_add_self_mul_kstar_eq_kstar]
  exact Or.inl ((Language.mem_one ([] : List Shape)).mpr rfl)

theorem Reads.manyWhileFuel (h : ∀ {n}, Reads ts n (fun c => at? c = true) [] body l)
    (fuel : Nat) : Reads ts n P [] (Parser.manyWhileFuel at? body fuel) (l∗) := by
  have hall : ∀ {n}, Reads ts n anywhere [] (Parser.manyWhileFuel at? body fuel) (l∗) := by
    induction fuel with
    | zero => exact Yields.tooDeep
    | succ fuel ih =>
      intro n
      refine Yields.get fun c₀ _ _ => ?_
      cases hat : at? c₀ with
      | false => exact Yields.pure (V := id) (by simp) nil_mem_kstar
      | true =>
        refine Yields.bind (Yields.at h hat) fun x hx hx' => ?_
        refine Yields.bind_behind (V := id) ih fun y hy hy' => ?_
        exact Yields.pure (V := id) (conforms_append hx' hy') (append_mem_kstar hx hy)
  exact hall.here

/-- **A reader that is repeated.** -/
theorem Reads.manyWhile (h : ∀ {n}, Reads ts n (fun c => at? c = true) [] body l) :
    Reads ts n P [] (Parser.manyWhile at? body) (l∗) :=
  Yields.get fun _ _ _ => Reads.manyWhileFuel h _

/-- A reader that is repeated where it can be read at least once. -/
theorem Reads.manyWhile_of_at (h : ∀ {n}, Reads ts n (fun c => at? c = true) [] body l)
    (hpre : ∀ c, P c → at? c = true) :
    Reads ts n P [] (Parser.manyWhile at? body) (l * l∗) := by
  refine Yields.get fun c₀ _ hc₀ => Yields.get fun c₁ _ hc₁ => ?_
  subst hc₁
  rw [if_pos (hpre c₁ hc₀)]
  refine Yields.bind (Yields.at h (hpre c₁ hc₀)) fun x hx hx' => ?_
  refine Yields.bind_behind (V := id) (Reads.manyWhileFuel h _) fun y hy hy' => ?_
  exact Yields.pure (V := id) (conforms_append hx' hy') (Language.append_mem_mul hx hy)

/-- Where it stops, nothing that could be read again stands ahead. -/
theorem at?_eq_false_of_manyWhile {c c' : Cursor} {x : List Shape}
    (h : Parser.manyWhile at? body c = .ok (x, c')) : at? c' = false := by
  have hfuel : ∀ fuel (c : Cursor) (x : List Shape),
      Parser.manyWhileFuel at? body fuel c = .ok (x, c') → at? c' = false := by
    intro fuel
    induction fuel with
    | zero =>
      intro c x h
      cases h
    | succ fuel ih =>
      intro c x h
      obtain ⟨c₀, c₁, hget, h⟩ := bind_eq_ok h
      cases hget
      split at h
      · obtain ⟨_, c₁, _, h⟩ := bind_eq_ok h
        obtain ⟨_, c₂, h, hpure⟩ := bind_eq_ok h
        cases hpure
        exact ih c₁ _ h
      next hat =>
        cases h
        simpa using hat
  obtain ⟨c₀, c₁, hget, h⟩ := bind_eq_ok h
  exact hfuel _ _ _ h

/-- A reader that is repeated, and what stands behind it, which starts where nothing can be read
again. -/
theorem Reads.manyWhile_cons (h : ∀ {n}, Reads ts n (fun c => at? c = true) [] body l)
    (hps : ∀ {n}, Reads ts n (fun c => at? c = false) [] (Parser.seq ps) ls.prod) :
    Reads ts n P [] (Parser.seq (Parser.manyWhile at? body :: ps)) (l∗ :: ls).prod :=
  (Reads.manyWhile h).seq_stop (fun _ _ _ => at?_eq_false_of_manyWhile) hps

end Lists

/-! ## Tokens

What is read of a token is what was asked of it before. -/

section Tokens

variable (hts : Ended ts)

include hts in
theorem Reads.bump {sort : Token → Prop} (h : ∀ c, P c → sort c.current ∧ Ahead c) :
    Reads ts n P [] Parser.bump (word ts sort) := by
  intro f outer c x c' _ hbuilt hc hpc hrun
  obtain ⟨hsort, hahead⟩ := h c hpc
  have htoken : c.current = tokenAt ts c.pos := by rw [Cursor.current, hc.tokens_eq]
  have hlt : c.pos + 1 < ts.size := by
    have hend := (hts.kind_eq_iff c.pos).not.mp (by rwa [← htoken])
    omega
  obtain ⟨c₀, c₁, hget, hrun⟩ := bind_eq_ok hrun
  cases hget
  have hbound : c.pos < c.tokens.size - 1 := by
    rw [hc.tokens_eq]
    omega
  rw [if_pos hbound] at hrun
  cases hrun
  rw [OpenNode.add_nil] at hbuilt
  refine ⟨hbuilt.token (by omega), ⟨hc.tokens_eq, hlt⟩, Adds.token [] c,
    ⟨c.pos, hlt, by rwa [← htoken], rfl⟩, ?_⟩
  intro s hs
  obtain rfl := List.mem_singleton.mp hs
  exact .token _

include hts in
/-- The next token, if the file does not end. -/
theorem Reads.bump_loose : Reads ts n P [] Parser.bump (opt (anyWord ts)) := by
  intro f outer c x c' hn hbuilt hc _ hrun
  by_cases hahead : Ahead c
  · have hbump : Reads ts n Ahead [] Parser.bump (anyWord ts) :=
      Reads.bump hts fun _ h => ⟨trivial, h⟩
    obtain ⟨hbuilt', hc', hadds, hx, hall⟩ := hbump f outer c x c' hn hbuilt hc hahead hrun
    exact ⟨hbuilt', hc', hadds, mem_opt_of_mem hx, hall⟩
  · have htoken : c.current = tokenAt ts c.pos := by rw [Cursor.current, hc.tokens_eq]
    have hend : ts.size ≤ c.pos + 1 :=
      (hts.kind_eq_iff c.pos).mp (by rw [← htoken]; simpa [Ahead] using hahead)
    obtain ⟨c₀, c₁, hget, hrun⟩ := bind_eq_ok hrun
    cases hget
    have hbound : ¬ c.pos < c.tokens.size - 1 := by
      rw [hc.tokens_eq]
      omega
    rw [if_neg hbound] at hrun
    cases hrun
    exact ⟨hbuilt, hc, .refl _ _, nil_mem_opt, by simp⟩

theorem kind_of_isMark {t : Token} {m : String} (h : t.isMark m = true) :
    t.kind = .punctuation := by
  simp only [Token.isMark, Bool.and_eq_true, beq_iff_eq] at h
  exact h.1

theorem text_of_isMark {t : Token} {m : String} (h : t.isMark m = true) : t.text = m := by
  simp only [Token.isMark, Bool.and_eq_true, beq_iff_eq] at h
  exact h.2

theorem kind_of_isKeyword {t : Token} {w : String} (h : t.isKeyword w = true) :
    t.kind = .keyword := by
  simp only [Token.isKeyword, Bool.and_eq_true, beq_iff_eq] at h
  exact h.1

theorem kind_of_isContextual {t : Token} {w : String} (h : t.isContextual w = true) :
    t.kind = .identifier := by
  simp only [Token.isContextual, Bool.and_eq_true, beq_iff_eq] at h
  exact h.1

theorem kind_of_isIdentifier {t : Token} (h : t.isIdentifier = true) : t.kind = .identifier := by
  simpa [Token.isIdentifier] using h

theorem ahead_of_atMark {c : Cursor} {m : String} (h : c.atMark m = true) : Ahead c := by
  simp [Ahead, kind_of_isMark h]

theorem ahead_of_atWord {c : Cursor} {w : String} (h : c.atWord w = true) : Ahead c := by
  simp [Ahead, kind_of_isKeyword h]

theorem ahead_of_atContextual {c : Cursor} {w : String} (h : c.atContextual w = true) :
    Ahead c := by
  simp [Ahead, kind_of_isContextual h]

theorem ahead_of_atIdentifier {c : Cursor} (h : c.atIdentifier = true) : Ahead c := by
  simp [Ahead, kind_of_isIdentifier h]

include hts in
/-- The next token where one stands. -/
theorem Reads.bump_any (h : ∀ c, P c → Ahead c) : Reads ts n P [] Parser.bump (anyWord ts) :=
  Reads.bump hts fun c hc => ⟨trivial, h c hc⟩

include hts in
/-- The token that is known to stand ahead. -/
theorem Reads.bump_ahead : Reads ts n Ahead [] Parser.bump (anyWord ts) :=
  Reads.bump_any hts fun _ h => h

/-- A token that is not a mark and does not end the file stands ahead. -/
def Bare (c : Cursor) : Prop := c.current.kind ≠ .punctuation ∧ Ahead c

theorem identifier_le_bareWord : word ts (fun t => t.isIdentifier = true) ≤ bareWord ts :=
  word_mono fun _ h => by simp [kind_of_isIdentifier h]

theorem keyword_le_bareWord {w : String} :
    word ts (fun t => t.isKeyword w = true) ≤ bareWord ts :=
  word_mono fun _ h => by simp [kind_of_isKeyword h]

include hts in
theorem Reads.bump_bare : Reads ts n Bare [] Parser.bump (bareWord ts) :=
  Reads.bump hts fun _ h => h

include hts in
/-- The next token is left behind where the file does not end. -/
theorem pos_of_bump {c c' : Cursor} {x : List Shape} (hc : Inside ts c) (hahead : Ahead c)
    (hrun : Parser.bump c = .ok (x, c')) : c'.tokens = c.tokens ∧ c'.pos = c.pos + 1 := by
  have htoken : c.current = tokenAt ts c.pos := by rw [Cursor.current, hc.tokens_eq]
  have hlt : c.pos + 1 < ts.size := by
    have hend := (hts.kind_eq_iff c.pos).not.mp (by rwa [← htoken])
    omega
  obtain ⟨c₀, c₁, hget, hrun⟩ := bind_eq_ok hrun
  cases hget
  have hbound : c.pos < c.tokens.size - 1 := by
    rw [hc.tokens_eq]
    omega
  rw [if_pos hbound] at hrun
  cases hrun
  exact ⟨rfl, rfl⟩

include hts in
/-- The next token where a mark stands. -/
theorem Reads.bump_mark {m : String} (h : ∀ c, P c → c.atMark m = true) :
    Reads ts n P [] Parser.bump (mark ts m) :=
  Reads.bump hts fun c hc => ⟨h c hc, ahead_of_atMark (h c hc)⟩

include hts in
/-- A mark that has to be there. -/
theorem Reads.expect (m : String) : Reads ts n P [] (Parser.expect m) (mark ts m) := by
  refine Yields.get fun c₀ _ _ => ?_
  cases hat : c₀.atMark m with
  | true => exact Reads.bump_mark hts fun _ hc => hc ▸ hat
  | false => exact Yields.unexpected _

include hts in
theorem Reads.expectWord (w : String) :
    Reads ts n P [] (Parser.expectWord w) (word ts fun t => t.isKeyword w) := by
  refine Yields.get fun c₀ _ _ => ?_
  cases hat : c₀.atWord w with
  | true => exact Reads.bump hts fun _ hc => hc ▸ ⟨hat, ahead_of_atWord hat⟩
  | false => exact Yields.unexpected _

include hts in
theorem Reads.expectIdentifier :
    Reads ts n P [] Parser.expectIdentifier (word ts fun t => t.isIdentifier) := by
  refine Yields.get fun c₀ _ _ => ?_
  cases hat : c₀.atIdentifier with
  | true => exact Reads.bump hts fun _ hc => hc ▸ ⟨hat, ahead_of_atIdentifier hat⟩
  | false => exact Yields.unexpected _

section Separated

variable {item : Parser (List Shape)} {l : Language Shape}

include hts in
/-- Items with commas between them. -/
theorem Reads.commaSeparated (h : ∀ {n}, Reads ts n anywhere [] item l) :
    Reads ts n P [] (Parser.commaSeparated item) (separated ts l) := by
  have hmore : ∀ {n}, Reads ts n (fun c => c.atMark "," = true) [] (Parser.seq [Parser.bump, item])
      [mark ts ",", l].prod :=
    (Reads.bump_mark hts fun _ hc => hc).seq_cons h.single
  have hall := Reads.seq_cons (n := n) (P := P) (Yields.here h)
    (Reads.manyWhile (P := anywhere) hmore).single
  refine hall.mono ?_
  rw [separated, List.prod_cons, List.prod_singleton, List.prod_cons, List.prod_singleton]

/-- One item more in front of a list, with its comma. -/
theorem append_mem_listed {x y z : List Shape} (hx : x ∈ l) (hy : y ∈ mark ts ",")
    (hz : z ∈ listed ts l) : x ++ y ++ z ∈ listed ts l := by
  refine mem_opt_of_mem ?_
  rcases mem_opt_iff.mp hz with rfl | hz
  · have hfirst : x ++ [] ∈ separated ts l := Language.append_mem_mul hx nil_mem_kstar
    have hwhole := Language.append_mem_mul hfirst (mem_opt_of_mem hy)
    rwa [List.append_nil] at hwhole ⊢
  · obtain ⟨s, hs, d, hd, rfl⟩ := Language.mem_mul.mp hz
    obtain ⟨a, ha, b, hb, rfl⟩ := Language.mem_mul.mp hs
    have hstar : (y ++ a) ++ b ∈ (mark ts "," * l)∗ :=
      append_mem_kstar (Language.append_mem_mul hy ha) hb
    have hfirst : x ++ ((y ++ a) ++ b) ∈ separated ts l := Language.append_mem_mul hx hstar
    have hwhole := Language.append_mem_mul hfirst hd
    simpa only [List.append_assoc] using hwhole

/-- A list of one item. -/
theorem mem_listed_of_mem {x : List Shape} (hx : x ∈ l) : x ∈ listed ts l := by
  have hfirst : x ++ [] ∈ separated ts l := Language.append_mem_mul hx nil_mem_kstar
  have hwhole := Language.append_mem_mul hfirst (nil_mem_opt (l := mark ts ","))
  rw [List.append_nil, List.append_nil] at hwhole
  exact mem_opt_of_mem hwhole

include hts in
/-- Items with commas between them and perhaps behind them. -/
theorem Reads.commaItems (close : String) (h : ∀ {n}, Reads ts n anywhere [] item l) :
    Reads ts n P [] (Parser.commaItems close item) (listed ts l) := by
  have hfuel : ∀ fuel {n}, Reads ts n anywhere [] (Parser.commaItemsFuel close item fuel)
      (listed ts l) := by
    intro fuel
    induction fuel with
    | zero => exact Yields.tooDeep
    | succ fuel ih =>
      intro n
      refine Yields.get fun c₀ _ _ => ?_
      cases c₀.atMark close with
      | true =>
        exact Yields.pure (V := id) (by simp)
          nil_mem_opt
      | false =>
        refine Yields.bind h.here fun x hx hx' => Yields.get fun c₁ _ _ => ?_
        cases hcomma : c₁.atMark "," with
        | false =>
          exact Yields.pure (V := id) hx' (mem_listed_of_mem hx)
        | true =>
          refine Yields.bind_behind (V := id)
            (Reads.bump_mark hts fun _ hc => hc ▸ hcomma) fun y hy hy' => ?_
          refine Yields.bind_behind (V := id) ih fun z hz hz' => ?_
          exact Yields.pure (V := id) (conforms_append (conforms_append hx' hy') hz')
            (append_mem_listed hx hy hz)
  exact Yields.get fun _ _ _ => (hfuel _).here

include hts in
/-- Everything up to a closing brace. -/
theorem Reads.untilBrace (h : ∀ {n}, Reads ts n anywhere [] item l) :
    Reads ts n P [] (Parser.untilBrace item) [l∗, mark ts "\x7d"].prod := by
  refine Reads.manyWhile_cons ?_ ?_
  · refine Yields.choose fun c₀ _ _ => ?_
    split
    · exact Yields.unexpected _
    · exact h.here
  · exact (Reads.bump_mark hts fun c hc => by simpa using hc).single

end Separated

end Tokens

end Parser

end CodeMend
