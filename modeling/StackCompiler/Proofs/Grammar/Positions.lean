import StackCompiler.Proofs.Grammar.Rule
import StackCompiler.Token.Stream

/-!
# Reading by positions in a token list

A reader of programs that keeps the whole token list and a position in it, and looks tokens up. The
token at a position is there or it is not, and a lookup where there is none is a fault of the reader
itself, as is a loop that does not come to its end (`Walk.Halt`). Neither happens in a list that
ends with a token of the kind `endOfFile`: at every position in the list, the reader does what the
rules of the grammar do on the tokens from there on, and ends at a position in the list that is no
earlier one (`Walk.program_agrees`).

What keeps the positions in the list is that the reader goes on from a token only if it is of a kind
that the reader has asked for, and it asks for no token of the kind `endOfFile`. `Walk.Tracks`
compares the runs of a reader and a rule from some position on, and has one law for each way to put
readers together. A loop has enough turns since each of them takes a token.
-/

set_option autoImplicit false
set_option relaxedAutoImplicit false

namespace StackCompiler.Grammar

namespace Walk

/-! ### Readers -/

/-- Why a reader comes to a halt. -/
inductive Halt where
  /-- It has looked up a token that is not there. -/
  | outOfRange (position : Nat)
  /-- A loop has had more turns than there are tokens. -/
  | endless
  /-- The token at the position does not fit. -/
  | refused (refusal : Refusal) (position : Nat)
  deriving DecidableEq, Repr

end Walk

/-- A reader knows all tokens and goes from one position among them to another. -/
abbrev Walk := ReaderT (List Token) (StateT Nat (Except Walk.Halt))

namespace Walk

/-- The token at the position. -/
def lookUp : Walk Token :=
  fun tokens position ↦ match tokens[position]? with
    | some token => .ok (token, position)
    | none => .error (.outOfRange position)

/-- Gives the token at the position and goes on to the next one, but never beyond the last. -/
def advance : Walk Token := do
  let token ← lookUp
  let tokens ← read
  modify fun position ↦ if position < tokens.length - 1 then position + 1 else position
  return token

/-- Stops at the token at the position. -/
def refuse {α : Type} (refusal : Refusal) : Walk α := do
  let _ ← lookUp
  throw (.refused refusal (← get))

def accept? (member : TokenKind → Bool) : Walk (Option Token) := do
  if member (← lookUp).kind then return some (← advance) else return none

def expect (kind : TokenKind) : Walk Token := do
  match ← accept? (· == kind) with
  | some token => return token
  | none => refuse (.unexpected (.token kind))

/-- Runs a loop, with as many turns as there are tokens from the position on. -/
def withTurns {α : Type} (loop : Nat → Walk α) : Walk α := do
  let tokens ← read
  loop (tokens.length - (← get))

def operand (inner : Walk Expr) : Walk Expr := do
  match (← lookUp).kind with
  | .intLit => return .intLit (← advance)
  | .trueKw => return .boolLit (← advance)
  | .falseKw => return .boolLit (← advance)
  | .ident => return .use (← advance)
  | .lparen =>
    let _ ← advance
    let e ← inner
    let _ ← expect .rparen
    return e
  | .floatLit => refuse .floatLiteral
  | _ => refuse (.unexpected .expression)

def joinRight (member : TokenKind → Bool) (next : Walk Expr) (left : Expr) : Nat → Walk Expr
  | 0 => throw .endless
  | turns + 1 => do
    match ← accept? member with
    | some operator =>
      let right ← next
      joinRight member next (.binary left operator right) turns
    | none => return left

def tier (member : TokenKind → Bool) (next : Walk Expr) : Walk Expr := do
  let left ← next
  withTurns (joinRight member next left)

def expression : Nat → Walk Expr
  | 0 => refuse .tooDeep
  | depth + 1 =>
    tier TokenKind.isComparison <| tier TokenKind.isAdditive <|
      tier TokenKind.isMultiplicative <| operand (expression depth)

def assignment (value : Walk Expr) : Walk Stmt := do
  let target ← expect .ident
  let _ ← expect .assign
  return .assign target (← value)

def conditional (condition : Walk Expr) (inner : Walk Stmt) : Walk Stmt := do
  let _ ← expect .ifKw
  let e ← condition
  let _ ← expect .thenKw
  let body ← inner
  match ← accept? (· == .elseKw) with
  | some _ => return .ifElse e body (← inner)
  | none => return .ifThen e body

def loop (condition : Walk Expr) (inner : Walk Stmt) : Walk Stmt := do
  let _ ← expect .whileKw
  let e ← condition
  let _ ← expect .doKw
  return .loop e (← inner)

def statements (inner : Walk Stmt) : Nat → Walk (List Stmt)
  | 0 => throw .endless
  | turns + 1 => do
    let kind := (← lookUp).kind
    if kind == .endKw || kind == .endOfFile then return []
    else
      let first ← inner
      let _ ← expect .semicolon
      return first :: (← statements inner turns)

def block (inner : Walk Stmt) : Walk (List Stmt) := do
  let _ ← expect .beginKw
  let body ← withTurns (statements inner)
  let _ ← expect .endKw
  return body

def statement : Nat → Walk Stmt
  | 0 => refuse .tooDeep
  | depth + 1 => do
    match (← lookUp).kind with
    | .ident => assignment (expression depth)
    | .ifKw => conditional (expression depth) (statement depth)
    | .whileKw => loop (expression depth) (statement depth)
    | .beginKw => return .block (← block (statement depth))
    | _ => refuse (.unexpected .statement)

def typeName : Walk Token := do
  match ← accept? fun kind ↦ kind == .integerKw || kind == .booleanKw with
  | some token => return token
  | none => refuse (.unexpected .typeName)

def declaration : Walk Decl := do
  let name ← expect .ident
  let _ ← expect .colon
  let type ← typeName
  let _ ← expect .semicolon
  return ⟨name, type⟩

def declarations : Nat → Walk (List Decl)
  | 0 => throw .endless
  | turns + 1 => do
    match ← accept? (· == .varKw) with
    | some _ => return (← declaration) :: (← declarations turns)
    | none => return []

/-- Reads a program whose body nests less than `depth` levels, from the position on. -/
def program (depth : Nat) : Walk Program := do
  let _ ← expect .programKw
  let name ← expect .ident
  let _ ← expect .semicolon
  let decls ← withTurns declarations
  let body ← block (statement depth)
  return ⟨name, decls, body⟩

/-! ### Runs -/

variable {α β : Type} {stream : TokenStream}

/-- A reader has ended as a rule has, at a position in the list that is not in front of the first
one: both with one value, or both for one reason. -/
inductive Agrees (stream : TokenStream) (position : Nat) :
    Except Halt (α × Nat) → Except Stop (α × List Token) → Prop
  | ok {a : α} {after : Nat} (hle : position ≤ after) (hafter : after ≤ stream.pending.length) :
      Agrees stream position (.ok (a, after)) (.ok (a, stream.pending.drop after))
  | refused {refusal : Refusal} {after : Nat} (hle : position ≤ after)
      (hafter : after ≤ stream.pending.length) :
      Agrees stream position (.error (.refused refusal after))
        (.error ⟨refusal, stream.pending.drop after⟩)

theorem Agrees.mono {first second : Nat} {walked : Except Halt (α × Nat)}
    {ruled : Except Stop (α × List Token)} (h : Agrees stream second walked ruled)
    (hle : first ≤ second) : Agrees stream first walked ruled := by
  cases h with
  | ok hsecond hafter => exact .ok (Nat.le_trans hle hsecond) hafter
  | refused hsecond hafter => exact .refused (Nat.le_trans hle hsecond) hafter

/-- From a position on, a reader does what a rule does on the tokens that are left. -/
def Tracks (stream : TokenStream) (low : Nat) (walk : Walk α) (rule : Rule α) : Prop :=
  ∀ position, low ≤ position → position ≤ stream.pending.length →
    Agrees stream position (walk stream.toList position) (rule (stream.pending.drop position))

theorem bind_of_ok {walk : Walk α} {next : α → Walk β} {tokens : List Token}
    {position after : Nat} {a : α} (h : walk tokens position = .ok (a, after)) :
    (walk >>= next) tokens position = next a tokens after := by
  simp only [bind, ReaderT.bind, StateT.bind, h, Except.bind]

theorem bind_of_error {walk : Walk α} {next : α → Walk β} {tokens : List Token} {position : Nat}
    {halt : Halt} (h : walk tokens position = .error halt) :
    (walk >>= next) tokens position = .error halt := by
  simp only [bind, ReaderT.bind, StateT.bind, h, Except.bind]

section Laws

variable {low : Nat}

theorem Tracks.mono {high : Nat} {walk : Walk α} {rule : Rule α} (h : Tracks stream low walk rule)
    (hle : low ≤ high) : Tracks stream high walk rule :=
  fun position hlow hposition ↦ h position (Nat.le_trans hle hlow) hposition

theorem Tracks.pure (a : α) : Tracks stream low (Pure.pure a) (Pure.pure a) :=
  fun _ _ hposition ↦ .ok (Nat.le_refl _) hposition

theorem Tracks.bind {walk : Walk α} {rule : Rule α} {next : α → Walk β} {later : α → Rule β}
    (h : Tracks stream low walk rule) (hnext : ∀ a, Tracks stream low (next a) (later a)) :
    Tracks stream low (walk >>= next) (rule >>= later) := by
  intro position hlow hposition
  have hfirst := h position hlow hposition
  generalize hwalked : walk stream.toList position = walked at hfirst
  generalize hruled : rule (stream.pending.drop position) = ruled at hfirst
  cases hfirst with
  | @ok a after hle hafter =>
    rw [bind_of_ok hwalked, Grammar.bind_of_ok hruled]
    exact (hnext a after (Nat.le_trans hlow hle) hafter).mono hle
  | refused hle hafter =>
    rw [bind_of_error hwalked, Grammar.bind_of_error hruled]
    exact .refused hle hafter

/-! ### Single tokens -/

theorem Agrees.lookUp_bind {position : Nat} {next : Token → Walk α}
    {ruled : Except Stop (α × List Token)} (hposition : position ≤ stream.pending.length)
    (hnext : ∀ token, stream.toList[position]? = some token →
      Agrees stream position (next token stream.toList position) ruled) :
    Agrees stream position ((lookUp >>= next) stream.toList position) ruled := by
  obtain ⟨token, htoken⟩ : ∃ token, stream.toList[position]? = some token :=
    ⟨_, List.getElem?_eq_getElem (by simp [TokenStream.toList]; omega)⟩
  have hlookUp : lookUp stream.toList position = .ok (token, position) := by
    rw [lookUp, htoken]
  rw [bind_of_ok hlookUp]
  exact hnext token htoken

/-- The token at a position is the first of those that are left, or that at the end. -/
theorem drop_cases {position : Nat} {token : Token}
    (htoken : stream.toList[position]? = some token) :
    position < stream.pending.length ∧
        stream.pending.drop position = token :: stream.pending.drop (position + 1) ∨
      stream.pending.drop position = [] ∧ token = stream.final := by
  by_cases hposition : position < stream.pending.length
  · rw [TokenStream.toList, List.getElem?_append_left hposition] at htoken
    obtain ⟨-, rfl⟩ := List.getElem?_eq_some_iff.mp htoken
    exact .inl ⟨hposition, List.drop_eq_getElem_cons hposition⟩
  · have hend : stream.pending.length ≤ position := Nat.le_of_not_lt hposition
    rw [TokenStream.toList, List.getElem?_append_right hend] at htoken
    exact .inr ⟨List.drop_eq_nil_of_le hend,
      (List.mem_singleton.mp (List.mem_of_getElem? htoken))⟩

theorem kindOfNext_drop {position : Nat} {token : Token}
    (htoken : stream.toList[position]? = some token) :
    kindOfNext (stream.pending.drop position) = token.kind := by
  rcases drop_cases htoken with ⟨-, hdrop⟩ | ⟨hdrop, rfl⟩
  · rw [hdrop, kindOfNext_cons]
  · rw [hdrop, stream.final_kind, kindOfNext]

theorem kind_of_end {position : Nat} {token : Token} (hend : stream.pending.length ≤ position)
    (htoken : stream.toList[position]? = some token) : token.kind = .endOfFile := by
  rw [← kindOfNext_drop htoken, List.drop_eq_nil_of_le hend, kindOfNext]

/-- Only the token at the end is not one of those that are left. -/
theorem drop_eq_cons {position : Nat} {token : Token}
    (htoken : stream.toList[position]? = some token) (hkind : token.kind ≠ .endOfFile) :
    position < stream.pending.length ∧
      stream.pending.drop position = token :: stream.pending.drop (position + 1) :=
  (drop_cases htoken).resolve_right fun h ↦ hkind (h.2 ▸ stream.final_kind)

theorem advance_bind {position : Nat} {token : Token} {next : Token → Walk α}
    (htoken : stream.toList[position]? = some token) (hkind : token.kind ≠ .endOfFile) :
    (advance >>= next) stream.toList position = next token stream.toList (position + 1) := by
  have hlookUp : lookUp stream.toList position = .ok (token, position) := by
    rw [lookUp, htoken]
  have hinside : position < stream.toList.length - 1 := by
    simpa [TokenStream.toList] using (drop_eq_cons htoken hkind).1
  rw [advance, bind_assoc, bind_of_ok hlookUp]
  change next token stream.toList (if _ then _ else _) = _
  rw [if_pos hinside]

theorem Tracks.refuse_bind (refusal : Refusal) (next : α → Walk β) (later : α → Rule β) :
    Tracks stream low (refuse refusal >>= next) (Grammar.refuse refusal >>= later) := by
  intro position _ hposition
  rw [refuse, bind_assoc]
  refine Agrees.lookUp_bind hposition fun token htoken ↦ ?_
  exact .refused (Nat.le_refl _) hposition

theorem Tracks.refuse (refusal : Refusal) :
    Tracks (α := α) stream low (Walk.refuse refusal) (Grammar.refuse refusal) := by
  intro position _ hposition
  exact Agrees.lookUp_bind hposition fun token htoken ↦ .refused (Nat.le_refl _) hposition

/-- What is taken is a token of the list, so the reader goes on behind it. -/
theorem Tracks.accept?_bind {member : TokenKind → Bool} (hmember : member .endOfFile = false)
    {next : Option Token → Walk β} {later : Option Token → Rule β}
    (hnone : Tracks stream low (next none) (later none))
    (hsome : ∀ token, Tracks stream (low + 1) (next (some token)) (later (some token))) :
    Tracks stream low (accept? member >>= next) (Grammar.accept? member >>= later) := by
  intro position hlow hposition
  rw [accept?, bind_assoc]
  refine Agrees.lookUp_bind hposition fun token htoken ↦ ?_
  by_cases htaken : member token.kind = true
  · have hkind : token.kind ≠ .endOfFile := by
      rintro hend
      rw [hend, hmember] at htaken
      cases htaken
    obtain ⟨hbehind, hdrop⟩ := drop_eq_cons htoken hkind
    rw [if_pos htaken, bind_assoc, advance_bind htoken hkind, pure_bind, hdrop,
      Grammar.bind_of_ok (accept?_cons_of_mem htaken _)]
    exact (hsome token (position + 1) (by omega) hbehind).mono (Nat.le_succ _)
  · have hleft : member (kindOfNext (stream.pending.drop position)) = false := by
      rw [kindOfNext_drop htoken]
      simpa using htaken
    rw [if_neg htaken, pure_bind, Grammar.bind_of_ok (accept?_of_not_mem hleft)]
    exact hnone position hlow hposition

theorem Tracks.expect_bind {kind : TokenKind} (hkind : kind ≠ .endOfFile)
    {next : Token → Walk β} {later : Token → Rule β}
    (hnext : ∀ token, Tracks stream (low + 1) (next token) (later token)) :
    Tracks stream low (expect kind >>= next) (Grammar.expect kind >>= later) := by
  rw [expect, Grammar.expect, bind_assoc, bind_assoc]
  refine .accept?_bind (by simpa using hkind.symm) (.refuse_bind _ _ _) fun token ↦ ?_
  rw [pure_bind, pure_bind]
  exact hnext token

/-- A loop starts with a turn for each token that is left, and one more. -/
theorem Tracks.withTurns {loop : Nat → Walk α} {rule : List Token → Rule α}
    (h : ∀ (turns : List Token) (start : Nat), low ≤ start →
      stream.pending.length ≤ start + turns.length →
        Tracks stream start (loop (turns.length + 1)) (rule turns)) :
    Tracks stream low (Walk.withTurns loop) (get >>= rule) := by
  intro position hlow hposition
  have hturns : stream.toList.length - position = (stream.pending.drop position).length + 1 := by
    simp only [TokenStream.toList, List.length_append, List.length_singleton, List.length_drop]
    omega
  have hloop := h (stream.pending.drop position) position hlow (by rw [List.length_drop]; omega)
  rw [get_bind_apply]
  change Agrees stream position (loop (stream.toList.length - position) _ _) _
  rw [hturns]
  exact hloop position (Nat.le_refl _) hposition

theorem Tracks.withTurns_bind {loop : Nat → Walk α} {rule : List Token → Rule α}
    {next : α → Walk β} {later : α → Rule β}
    (h : ∀ (turns : List Token) (start : Nat), low ≤ start →
      stream.pending.length ≤ start + turns.length →
        Tracks stream start (loop (turns.length + 1)) (rule turns))
    (hnext : ∀ a, Tracks stream low (next a) (later a)) :
    Tracks stream low (Walk.withTurns loop >>= next)
      (get >>= fun pending ↦ rule pending >>= later) := by
  rw [← bind_assoc]
  exact .bind (.withTurns h) hnext

/-- At the end nothing is taken. -/
theorem Tracks.accept?_bind_of_end {member : TokenKind → Bool} (hmember : member .endOfFile = false)
    (hlow : stream.pending.length ≤ low) {next : Option Token → Walk β} {rule : Rule β}
    (hnone : Tracks stream low (next none) rule) :
    Tracks stream low (accept? member >>= next) rule := by
  intro position hle hposition
  rw [Walk.accept?, bind_assoc]
  refine Agrees.lookUp_bind hposition fun token htoken ↦ ?_
  rw [kind_of_end (Nat.le_trans hlow hle) htoken, hmember, if_neg Bool.false_ne_true, pure_bind]
  exact hnone position hle hposition

theorem Tracks.accept? {member : TokenKind → Bool} (hmember : member .endOfFile = false) :
    Tracks stream low (Walk.accept? member) (Grammar.accept? member) := by
  have h : Tracks stream low (Walk.accept? member >>= Pure.pure)
      (Grammar.accept? member >>= Pure.pure) :=
    .accept?_bind hmember (.pure none) fun token ↦ .pure (some token)
  rwa [bind_pure, bind_pure] at h

theorem Tracks.expect {kind : TokenKind} (hkind : kind ≠ .endOfFile) :
    Tracks stream low (Walk.expect kind) (Grammar.expect kind) := by
  have h : Tracks stream low (Walk.expect kind >>= Pure.pure)
      (Grammar.expect kind >>= Pure.pure) :=
    .expect_bind hkind fun token ↦ .pure token
  rwa [bind_pure, bind_pure] at h

end Laws

/-- The next token is taken without a further look at its kind. -/
theorem Agrees.advance_bind {position : Nat} {token : Token} {kind : TokenKind}
    (htoken : stream.toList[position]? = some token) (hkind : token.kind = kind)
    (hend : kind ≠ .endOfFile) {next : Token → Walk α} {later : Token → Rule α}
    (hnext : Tracks stream (position + 1) (next token) (later token)) :
    Agrees stream position ((advance >>= next) stream.toList position)
      ((Grammar.expect kind >>= later) (stream.pending.drop position)) := by
  subst hkind
  obtain ⟨hbehind, hdrop⟩ := drop_eq_cons htoken hend
  rw [Walk.advance_bind htoken hend, hdrop, Grammar.bind_of_ok (expect_cons rfl _)]
  exact (hnext (position + 1) (Nat.le_refl _) hbehind).mono (Nat.le_succ _)

/-! ### Expressions -/

section Expressions

variable {low : Nat} {next : Walk Expr} {nextRule : Rule Expr}
  (hnext : Tracks stream low next nextRule)
include hnext

theorem operand_tracks : Tracks stream low (operand next) (Grammar.operand nextRule) := by
  intro position hlow hposition
  refine Agrees.lookUp_bind hposition fun token htoken ↦ ?_
  rw [Grammar.operand, get_bind_apply, kindOfNext_drop htoken]
  cases hkind : token.kind with
  | intLit => exact .advance_bind htoken hkind nofun (.pure _)
  | trueKw | falseKw => exact .advance_bind htoken hkind nofun (.pure _)
  | ident => exact .advance_bind htoken hkind nofun (.pure _)
  | lparen =>
    refine .advance_bind htoken hkind nofun (.bind (hnext.mono (by omega)) fun e ↦ ?_)
    exact .bind (.expect nofun) fun _ ↦ .pure e
  | floatLit => exact Tracks.refuse .floatLiteral position hlow hposition
  | _ => exact Tracks.refuse (.unexpected .expression) position hlow hposition

theorem joinRight_tracks {member : TokenKind → Bool} (hmember : member .endOfFile = false)
    (turns : List Token) (left : Expr) (hturns : stream.pending.length ≤ low + turns.length) :
    Tracks stream low (joinRight member next left (turns.length + 1))
      (Grammar.joinRight member nextRule turns left) := by
  induction turns generalizing low left with
  | nil => exact .accept?_bind_of_end hmember hturns (.pure left)
  | cons turn turns ih =>
    refine .accept?_bind hmember (.pure left) fun operator ↦ ?_
    refine .bind (hnext.mono (Nat.le_succ _)) fun right ↦ ?_
    exact ih (hnext.mono (Nat.le_succ _)) _ (by rw [List.length_cons] at hturns; omega)

theorem tier_tracks {member : TokenKind → Bool} (hmember : member .endOfFile = false) :
    Tracks stream low (tier member next) (Grammar.tier member nextRule) := by
  refine .bind hnext fun left ↦ .withTurns fun turns start hstart hturns ↦ ?_
  exact joinRight_tracks (hnext.mono hstart) hmember turns left hturns

end Expressions

theorem expression_tracks (depth low : Nat) :
    Tracks stream low (expression depth) (Grammar.expression depth) := by
  induction depth with
  | zero => exact .refuse .tooDeep
  | succ depth ih =>
    exact tier_tracks (tier_tracks (tier_tracks (operand_tracks ih) rfl) rfl) rfl

/-! ### Statements -/

section Statements

variable {low : Nat} {value : Walk Expr} {valueRule : Rule Expr} {inner : Walk Stmt}
  {innerRule : Rule Stmt}

theorem assignment_tracks (hvalue : Tracks stream low value valueRule) :
    Tracks stream low (assignment value) (Grammar.assignment valueRule) :=
  .bind (.expect nofun) fun target ↦ .bind (.expect nofun) fun _ ↦ .bind hvalue fun e ↦
    .pure (Stmt.assign target e)

theorem conditional_tracks (hvalue : Tracks stream low value valueRule)
    (hinner : Tracks stream low inner innerRule) :
    Tracks stream low (conditional value inner) (Grammar.conditional valueRule innerRule) := by
  refine .bind (.expect nofun) fun _ ↦ .bind hvalue fun e ↦ .bind (.expect nofun) fun _ ↦
    .bind hinner fun body ↦ .bind (.accept? rfl) fun found ↦ ?_
  cases found with
  | none => exact .pure (Stmt.ifThen e body)
  | some _ => exact .bind hinner fun alternative ↦ .pure (Stmt.ifElse e body alternative)

theorem loop_tracks (hvalue : Tracks stream low value valueRule)
    (hinner : Tracks stream low inner innerRule) :
    Tracks stream low (loop value inner) (Grammar.loop valueRule innerRule) :=
  .bind (.expect nofun) fun _ ↦ .bind hvalue fun e ↦ .bind (.expect nofun) fun _ ↦
    .bind hinner fun body ↦ .pure (Stmt.loop e body)

theorem statements_tracks (hinner : Tracks stream low inner innerRule) (turns : List Token)
    (hturns : stream.pending.length ≤ low + turns.length) :
    Tracks stream low (statements inner (turns.length + 1))
      (Grammar.statements innerRule turns) := by
  induction turns generalizing low with
  | nil =>
    intro position hlow hposition
    refine Agrees.lookUp_bind hposition fun token htoken ↦ ?_
    rw [kind_of_end (Nat.le_trans hturns hlow) htoken]
    exact .ok (Nat.le_refl _) hposition
  | cons turn turns ih =>
    intro position hlow hposition
    refine Agrees.lookUp_bind hposition fun token htoken ↦ ?_
    rw [Grammar.statements, get_bind_apply, kindOfNext_drop htoken]
    split
    · exact .ok (Nat.le_refl _) hposition
    · have hbody : Tracks stream low (inner >>= fun first ↦ Walk.expect .semicolon >>= fun _ ↦
          statements inner (turns.length + 1) >>= fun more ↦ Pure.pure (first :: more))
          (innerRule >>= fun first ↦ Grammar.expect .semicolon >>= fun _ ↦
            Grammar.statements innerRule turns >>= fun more ↦ Pure.pure (first :: more)) :=
        .bind hinner fun first ↦ .expect_bind (by decide) fun _ ↦
          .bind (ih (hinner.mono (Nat.le_succ _)) (by rw [List.length_cons] at hturns; omega))
            fun more ↦ .pure (first :: more)
      exact hbody position hlow hposition

theorem block_tracks (hinner : Tracks stream low inner innerRule) :
    Tracks stream low (block inner) (Grammar.block innerRule) := by
  refine .bind (.expect nofun) fun _ ↦ .withTurns_bind (fun turns start hstart hturns ↦ ?_)
    fun body ↦ .bind (.expect nofun) fun _ ↦ .pure body
  exact statements_tracks (hinner.mono hstart) turns hturns

end Statements

theorem statement_tracks (depth low : Nat) :
    Tracks stream low (statement depth) (Grammar.statement depth) := by
  induction depth with
  | zero => exact .refuse .tooDeep
  | succ depth ih =>
    intro position hlow hposition
    have hvalue : Tracks stream low (expression depth) _ := expression_tracks depth low
    refine Agrees.lookUp_bind hposition fun token htoken ↦ ?_
    rw [Grammar.statement, get_bind_apply, kindOfNext_drop htoken]
    cases token.kind with
    | ident => exact assignment_tracks hvalue position hlow hposition
    | ifKw => exact conditional_tracks hvalue ih position hlow hposition
    | whileKw => exact loop_tracks hvalue ih position hlow hposition
    | beginKw =>
      have hblock : Tracks stream low (block (statement depth) >>= fun body ↦
          Pure.pure (Stmt.block body)) (Grammar.block (Grammar.statement depth) >>= fun body ↦
            Pure.pure (Stmt.block body)) := .bind (block_tracks ih) fun body ↦ .pure _
      exact hblock position hlow hposition
    | _ => exact Tracks.refuse (.unexpected .statement) position hlow hposition

/-! ### Programs -/

theorem typeName_tracks (low : Nat) : Tracks stream low typeName Grammar.typeName := by
  refine .bind (.accept? rfl) fun found ↦ ?_
  cases found with
  | none => exact .refuse _
  | some token => exact .pure token

theorem declaration_tracks (low : Nat) :
    Tracks stream low declaration Grammar.declaration :=
  .bind (.expect nofun) fun name ↦ .bind (.expect nofun) fun _ ↦
    .bind (typeName_tracks low) fun type ↦ .bind (.expect nofun) fun _ ↦
    .pure (⟨name, type⟩ : Decl)

theorem declarations_tracks {low : Nat} (turns : List Token)
    (hturns : stream.pending.length ≤ low + turns.length) :
    Tracks stream low (declarations (turns.length + 1)) (Grammar.declarations turns) := by
  induction turns generalizing low with
  | nil => exact .accept?_bind_of_end rfl hturns (.pure [])
  | cons turn turns ih =>
    refine .accept?_bind rfl (.pure []) fun _ ↦ ?_
    exact .bind (declaration_tracks _) fun decl ↦
      .bind (ih (by rw [List.length_cons] at hturns; omega)) fun more ↦ .pure (decl :: more)

theorem program_tracks (depth low : Nat) :
    Tracks stream low (program depth) (Grammar.program depth) :=
  .bind (.expect nofun) fun _ ↦ .bind (.expect nofun) fun name ↦ .bind (.expect nofun) fun _ ↦
    .withTurns_bind (fun turns _ _ hturns ↦ declarations_tracks turns hturns) fun decls ↦
    .bind (block_tracks (statement_tracks depth low)) fun body ↦
    .pure (⟨name, decls, body⟩ : Program)

/-- From every position in the list, the reader does what the rule for programs does on the tokens
that are left. -/
theorem program_agrees (depth : Nat) {position : Nat} (h : position < stream.toList.length) :
    Agrees stream position (program depth stream.toList position)
      (Grammar.program depth (stream.pending.drop position)) := by
  refine program_tracks depth 0 position (Nat.zero_le _) ?_
  simpa [TokenStream.toList, Nat.lt_succ_iff] using h

end Walk

end StackCompiler.Grammar
