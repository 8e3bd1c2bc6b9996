import CodeMend.Proofs.Grammar.Reads

/-!
# CodeMend — parsers that go on

A parser makes progress when it leaves tokens behind or ends with a fault that lies at a token.
`Goes` is that contract.  Loops count their rounds and rules count their depth, and both give up
when a count runs out; under the contract no count ever does, because each round and each rule takes
a token.

* **`Placed`** — a fault of a source that does not parse, at one of its tokens.
* **`Goes`** — the contract: where the parser succeeds it has left so many tokens behind, and where
  it fails its fault is placed.
* **`Goes.bind`**, **`Goes.seq_cons`**, **`Goes.manyWhile`**, **`Goes.grow`** and so on — one lemma
  for each way of putting parsers together.
-/

namespace CodeMend.Parser

open Production

section Contract

variable (ts : Array Token) {α β : Type}

/-- Something stands where something else has to be, at one of the tokens. -/
def Placed (e : ParseFault × Nat) : Prop :=
  (∃ expected found, e.1 = .unexpected expected found) ∧ ∃ i < ts.size, e.2 = (tokenAt ts i).offset

/-- The contract of a parser that starts at the index `n` or behind it, where `P` holds: it stops at
least `least` tokens behind its start and before the end of the tokens, or its fault is placed. -/
def Goes (n : Nat) (P : Cursor → Prop) (least : Nat) (p : Parser α) : Prop :=
  ∀ ⦃c⦄, Inside ts c → n ≤ c.pos → P c →
    match p c with
    | .ok (_, c') => Inside ts c' ∧ c.pos + least ≤ c'.pos
    | .error e => Placed ts e

end Contract

variable {ts : Array Token} {α β : Type} {n m : Nat} {P P' : Cursor → Prop} {d e : Nat}
  {p : Parser α}

/-- The contract for fewer tokens, further behind and at fewer places. -/
theorem Goes.mono (h : Goes ts n P d p) (hd : e ≤ d) (hn : n ≤ m) (hP : ∀ c, P' c → P c) :
    Goes ts m P' e p := by
  intro c hc hm hpc
  have hrun := h hc (hn.trans hm) (hP c hpc)
  cases hp : p c with
  | error fault =>
    rw [hp] at hrun
    exact hrun
  | ok r =>
    rw [hp] at hrun
    exact ⟨hrun.1, le_trans (Nat.add_le_add_left hd c.pos) hrun.2⟩

theorem Goes.atLeast (h : Goes ts n P d p) (hd : e ≤ d) : Goes ts n P e p :=
  h.mono hd (Nat.le_refl n) fun _ hc => hc

theorem Goes.later (h : Goes ts n P d p) (hn : n ≤ m) : Goes ts m P d p :=
  h.mono (Nat.le_refl d) hn fun _ hc => hc

theorem Goes.before (h : Goes ts n P d p) (hP : ∀ c, P' c → P c) : Goes ts n P' d p :=
  h.mono (Nat.le_refl d) (Nat.le_refl n) hP

theorem Goes.here (h : Goes ts n anywhere d p) : Goes ts n P d p := h.before fun _ _ => trivial

/-- The contract holds at a cursor that meets its condition. -/
theorem Goes.at {c₀ : Cursor} (h : Goes ts n P d p) (hc₀ : P c₀) : Goes ts n (· = c₀) d p :=
  h.before fun _ hc => hc ▸ hc₀

/-- At one cursor the contract is the one from there on. -/
theorem Goes.from_here {c₀ : Cursor} (h : Goes ts c₀.pos (· = c₀) d p) :
    Goes ts n (· = c₀) d p :=
  fun _ hc _ heq => h hc (heq ▸ Nat.le_refl _) heq

theorem Goes.pure (x : α) : Goes ts n P 0 (Pure.pure x : Parser α) :=
  fun _ hc _ _ => ⟨hc, Nat.le_refl _⟩

/-- **One parser after the other.**  The second one starts behind what the first one took, and
where `S` holds. -/
theorem Goes.bind_stop {f : α → Parser β} {S : Cursor → Prop} (hp : Goes ts n P d p)
    (hstop : ∀ c x c', p c = .ok (x, c') → S c') (hf : ∀ x, Goes ts (n + d) S e (f x)) :
    Goes ts n P (d + e) (p >>= f) := by
  intro c hc hn hpc
  have hrun := hp hc hn hpc
  show match (p c >>= fun r => f r.1 r.2) with
    | .ok (_, c') => Inside ts c' ∧ c.pos + (d + e) ≤ c'.pos
    | .error e => Placed ts e
  cases hp' : p c with
  | error fault =>
    rw [hp'] at hrun
    exact hrun
  | ok r =>
    rw [hp'] at hrun
    obtain ⟨hc', hpos⟩ := hrun
    have hrest := hf r.1 hc' (by omega) (hstop c r.1 r.2 hp')
    show match f r.1 r.2 with
      | .ok (_, c') => Inside ts c' ∧ c.pos + (d + e) ≤ c'.pos
      | .error e => Placed ts e
    cases hf' : f r.1 r.2 with
    | error fault =>
      rw [hf'] at hrest
      exact hrest
    | ok r' =>
      rw [hf'] at hrest
      exact ⟨hrest.1, by have := hrest.2; omega⟩

theorem Goes.bind {f : α → Parser β} (hp : Goes ts n P d p)
    (hf : ∀ x, Goes ts (n + d) anywhere e (f x)) : Goes ts n P (d + e) (p >>= f) :=
  hp.bind_stop (fun _ _ _ _ => trivial) hf

/-- Another parser, whether it takes tokens or not. -/
theorem Goes.andThen {f : α → Parser β} (hp : Goes ts n P d p)
    (hf : ∀ x, Goes ts (n + d) anywhere 0 (f x)) : Goes ts n P d (p >>= f) :=
  hp.bind hf

/-- A result that is only handed on. -/
theorem Goes.bind_pure {g : α → β} (hp : Goes ts n P d p) :
    Goes ts n P d (p >>= fun x => (Pure.pure (g x) : Parser β)) :=
  hp.andThen fun x => .pure (g x)

/-- Go on according to where the parser stands. -/
theorem Goes.get {f : Cursor → Parser α}
    (h : ∀ c₀, Inside ts c₀ → n ≤ c₀.pos → P c₀ → Goes ts n (· = c₀) d (f c₀)) :
    Goes ts n P d (MonadState.get >>= f) :=
  fun c hc hn hpc => h c hc hn hpc hc hn rfl

theorem Goes.choose {f : Cursor → Parser α}
    (h : ∀ c₀, Inside ts c₀ → n ≤ c₀.pos → P c₀ → Goes ts n (· = c₀) d (f c₀)) :
    Goes ts n P d (Parser.choose f) :=
  Goes.get h

/-- The place of the next token is the place of a fault. -/
theorem Goes.unexpected (expected : String) :
    Goes ts n P d (Parser.unexpected expected : Parser α) := by
  intro c hc _ _
  refine ⟨⟨expected, _, rfl⟩, c.pos, hc.pos_lt, ?_⟩
  rw [← hc.tokens_eq]
  rfl

theorem Goes.checkpoint {f : Checkpoint → Parser α} (h : ∀ cp, Goes ts n P d (f cp)) :
    Goes ts n P d (Parser.checkpoint >>= f) :=
  fun _ hc hn hpc => h _ hc hn hpc

theorem Goes.finish : Goes ts n P 0 Parser.finish :=
  fun _ hc _ _ => ⟨⟨hc.tokens_eq, hc.pos_lt⟩, Nat.le_refl _⟩

/-- A node takes what is inside it. -/
theorem Goes.node {since : Option Checkpoint} {body : Parser (List Shape)} (k : NodeKind)
    (hP : Steady P) (h : Goes ts n P d body) : Goes ts n P d (Parser.nodeSince since k body) := by
  intro c hc hn hpc
  have hnext : Inside ts { c with builder := c.builder.startNodeSince since k } :=
    ⟨hc.tokens_eq, hc.pos_lt⟩
  have hall := h.andThen fun cs => Goes.bind_pure (g := fun _ =>
    Shape.node c.builder.nodes.size k cs) .finish
  exact hall hnext hn (hP c _ hpc)

theorem Goes.one {p : Parser Shape} (h : Goes ts n P d p) : Goes ts n P d (Parser.one p) :=
  h.bind_pure

/-! ## Lists

A parser goes on if it fails inside the tokens or ends at least so many tokens further.  What it
takes is added up along a list. -/

section Lists

variable {q body item : Parser (List Shape)} {ps : List (Parser (List Shape))}
  {at? : Cursor → Bool}

theorem Goes.seq_nil : Goes ts n P 0 (Parser.seq []) := .pure []

theorem Goes.seq_cons (hp : Goes ts n P d q) (hps : Goes ts (n + d) anywhere e (Parser.seq ps)) :
    Goes ts n P (d + e) (Parser.seq (q :: ps)) :=
  hp.bind fun _ => hps.bind_pure

theorem Goes.single (hp : Goes ts n P d q) : Goes ts n P d (Parser.seq [q]) :=
  hp.seq_cons .seq_nil

/-- Shapes that stand already, in front of parsers. -/
theorem Goes.seq_pure (x : List Shape) (hps : Goes ts n P d (Parser.seq ps)) :
    Goes ts n P d (Parser.seq (Pure.pure x :: ps)) :=
  hps.bind_pure

theorem Goes.whenAt (h : Goes ts n (fun c => at? c = true) d body) :
    Goes ts n P 0 (Parser.whenAt at? body) := by
  refine Goes.get fun c₀ _ _ _ => ?_
  split
  next hat => exact (h.at hat).atLeast (Nat.zero_le d)
  next => exact .pure []

/-- **A parser that is repeated.**  A round takes a token, so there are no more rounds than tokens
are left. -/
theorem Goes.manyWhileFuel (h : Goes ts n (fun c => at? c = true) 1 body) {fuel : Nat} :
    Goes ts n (fun c => ts.size ≤ c.pos + fuel) 0 (Parser.manyWhileFuel at? body fuel) := by
  induction fuel with
  | zero =>
    intro c hc _ hfuel
    have hlt := hc.pos_lt
    omega
  | succ fuel ih =>
    refine Goes.get fun c₀ _ hn hfuel => ?_
    split
    next hat =>
      -- the next round starts one token further on
      have hround : Goes ts c₀.pos (· = c₀) 1 body := (h.at hat).later hn
      have hrest : Goes ts (c₀.pos + 1) anywhere 0 (Parser.manyWhileFuel at? body fuel) :=
        fun c hc hpos _ => ih hc (by omega) (by omega)
      exact .from_here ((hround.bind fun x => hrest.bind_pure).atLeast (Nat.zero_le _))
    next => exact .pure []

theorem Goes.manyWhile (h : Goes ts n (fun c => at? c = true) 1 body) :
    Goes ts n P 0 (Parser.manyWhile at? body) :=
  Goes.get fun c₀ hc₀ _ _ => h.manyWhileFuel.at (by rw [hc₀.tokens_eq]; omega)

/-- A parser that is repeated where there is a first round. -/
theorem Goes.manyWhile_of_at (h : Goes ts n (fun c => at? c = true) 1 body)
    (hat : ∀ c, P c → at? c = true) : Goes ts n P 1 (Parser.manyWhile at? body) := by
  refine Goes.get fun c₀ hc₀ hn hpc => Goes.get fun c₁ _ _ hc₁ => ?_
  subst hc₁
  rw [if_pos (hat c₁ hpc)]
  have hround : Goes ts c₁.pos (· = c₁) 1 body := (h.at (hat c₁ hpc)).later hn
  have hrest : Goes ts (c₁.pos + 1) anywhere 0
      (Parser.manyWhileFuel at? body c₁.tokens.size) := by
    intro c hc hpos _
    exact h.manyWhileFuel hc (by omega) (by rw [hc₀.tokens_eq]; omega)
  exact .from_here (hround.bind fun x => hrest.bind_pure)

end Lists

/-- A shape that is wrapped again and again: each time takes a token. -/
theorem Goes.grow {step? : Cursor → Option (Shape → Parser Shape)}
    (h : ∀ c₀ wrap s, Inside ts c₀ → step? c₀ = some wrap → Goes ts n (· = c₀) 1 (wrap s))
    (s : Shape) : Goes ts n P 0 (Parser.grow step? s) := by
  have hfuel : ∀ fuel s,
      Goes ts n (fun c => ts.size ≤ c.pos + fuel) 0 (Parser.growFuel step? fuel s) := by
    intro fuel
    induction fuel with
    | zero =>
      intro s c hc _ hfuel
      have hlt := hc.pos_lt
      omega
    | succ fuel ih =>
      intro s
      refine Goes.get fun c₀ hc₀ hn hfuel => ?_
      cases hstep : step? c₀ with
      | none => exact .pure s
      | some wrap =>
        have hwrap : Goes ts c₀.pos (· = c₀) 1 (wrap s) := (h c₀ wrap s hc₀ hstep).later hn
        have hrest : ∀ s, Goes ts (c₀.pos + 1) anywhere 0 (Parser.growFuel step? fuel s) :=
          fun s c hc hpos _ => ih s hc (by omega) (by omega)
        exact .from_here ((hwrap.bind hrest).atLeast (Nat.zero_le _))
  exact Goes.get fun c₀ hc₀ _ _ => (hfuel _ s).at (by rw [hc₀.tokens_eq]; omega)

/-! ## Tokens

A token is taken, or it is a fault at that token. -/

section Tokens

variable (hts : Ended ts)

/-- The end of the file is never left behind. -/
theorem Goes.bump : Goes ts n P 0 Parser.bump := by
  refine Goes.get fun c₀ hc₀ _ _ => ?_
  split
  next hlt =>
    intro c _ _ heq
    subst heq
    refine ⟨⟨hc₀.tokens_eq, ?_⟩, Nat.le_succ _⟩
    rw [hc₀.tokens_eq] at hlt
    show c.pos + 1 < ts.size
    omega
  next => exact .pure []

/-- The token that ends the file is added where it stands. -/
theorem Goes.endOfFile : Goes ts n P 0 Parser.endOfFile :=
  fun _ hc _ _ => ⟨⟨hc.tokens_eq, hc.pos_lt⟩, Nat.le_refl _⟩

include hts in
theorem Goes.bump_ahead : Goes ts n Ahead 1 Parser.bump := by
  intro c hc hn hahead
  have hrun := Goes.bump (P := anywhere) hc hn trivial
  cases hbump : Parser.bump c with
  | error fault =>
    rw [hbump] at hrun
    exact hrun
  | ok r =>
    rw [hbump] at hrun
    exact ⟨hrun.1, (pos_of_bump hts hc hahead hbump).2.ge⟩

include hts in
/-- The next token where one stands. -/
theorem Goes.bump_any (h : ∀ c, P c → Ahead c) : Goes ts n P 1 Parser.bump :=
  (Goes.bump_ahead hts).before h

include hts in
theorem Goes.expect (m : String) : Goes ts n P 1 (Parser.expect m) := by
  refine Goes.get fun c₀ _ _ _ => ?_
  split
  next hat => exact (Goes.bump_ahead hts).at (ahead_of_atMark hat)
  next => exact .unexpected _

include hts in
theorem Goes.expectWord (w : String) : Goes ts n P 1 (Parser.expectWord w) := by
  refine Goes.get fun c₀ _ _ _ => ?_
  split
  next hat => exact (Goes.bump_ahead hts).at (ahead_of_atWord hat)
  next => exact .unexpected _

include hts in
theorem Goes.expectIdentifier : Goes ts n P 1 Parser.expectIdentifier := by
  refine Goes.get fun c₀ _ _ _ => ?_
  split
  next hat => exact (Goes.bump_ahead hts).at (ahead_of_atIdentifier hat)
  next => exact .unexpected _

variable {item : Parser (List Shape)}

include hts in
theorem Goes.commaSeparated (h : Goes ts n anywhere 1 item) :
    Goes ts n P 1 (Parser.commaSeparated item) := by
  have hround : Goes ts (n + 1) (fun c => c.atMark "," = true) 1 (Parser.seq [Parser.bump, item]) :=
    ((Goes.bump_any hts fun _ => ahead_of_atMark).seq_cons (h.later (by omega)).single).atLeast
      (by omega)
  exact (Goes.here h).seq_cons (Goes.manyWhile hround).single

/-- Items with commas between them: each round takes an item. -/
theorem Goes.commaItems (close : String) (h : Goes ts n anywhere 1 item) :
    Goes ts n P 0 (Parser.commaItems close item) := by
  -- Each item takes a token, so there are no more items than tokens are left.
  have hfuel : ∀ fuel, Goes ts n (fun c => ts.size ≤ c.pos + fuel) 0
      (Parser.commaItemsFuel close item fuel) := by
    intro fuel
    induction fuel with
    | zero =>
      intro c hc _ hfuel
      have hlt := hc.pos_lt
      omega
    | succ fuel ih =>
      refine Goes.get fun c₀ _ hn hfuel => ?_
      split
      next => exact .pure []
      next =>
        have hitem : Goes ts c₀.pos (· = c₀) 1 item := (Goes.here h).later hn
        have hrest : Goes ts (c₀.pos + 1) anywhere 0 (Parser.commaItemsFuel close item fuel) :=
          fun c hc hpos _ => ih hc (by omega) (by omega)
        have hmore : ∀ x, Goes ts (c₀.pos + 1) anywhere 0 (MonadState.get >>= fun c =>
            if c.atMark "," then do
              let comma ← Parser.bump
              return x ++ comma ++ (← Parser.commaItemsFuel close item fuel)
            else return x : Parser (List Shape)) := by
          intro x
          refine Goes.get fun c₁ _ _ _ => ?_
          split
          next => exact Goes.bump.bind fun y => (hrest.later (Nat.le_refl _)).bind_pure
          next => exact .pure x
        exact .from_here ((hitem.bind hmore).atLeast (Nat.zero_le _))
  exact Goes.get fun c₀ hc₀ _ _ => (hfuel _).at (by rw [hc₀.tokens_eq]; omega)

/-- Everything up to a closing brace: each round takes an item, and the end of the file is a
fault. -/
theorem Goes.untilBrace (h : Goes ts n anywhere 1 item) :
    Goes ts n P 0 (Parser.untilBrace item) := by
  refine (Goes.manyWhile (Goes.choose fun c₀ _ _ _ => ?_)).seq_cons (Goes.single .bump)
  split
  · exact .unexpected _
  · exact h.here

end Tokens

end CodeMend.Parser
