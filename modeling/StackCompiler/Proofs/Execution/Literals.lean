import Mathlib.Data.List.TakeWhile
import StackCompiler.Proofs.Execution.Layout
import StackCompiler.Proofs.Grammar.Acceptance
import StackCompiler.Proofs.Scanning.MaximalMunch

/-!
# Literals

A token of a scan stands for what its kind and its characters say (`literal_of_mem_tokens`), and a
literal of a scan has no more digits than can be written (`isWritable_of_mem_tokens`).

A tree can hold any token where an integer literal should be, and no rule for types looks at what
the token stands for. The literals of a program that is read are among the tokens that it was read
from (`Grammar.DerivesStmt.mem_of_intLit`). So those of a program that is read from a text are
integers (`literalsAreIntegers_of_scan`) and can be written (`literalsAreWritable_of_scan`).
-/

set_option autoImplicit false
set_option relaxedAutoImplicit false

namespace StackCompiler

/-- The tokens of the integer literals among some expressions stand for integers. -/
def LiteralsAreIntegers (expressions : List Expr) : Prop :=
  ∀ token, .intLit token ∈ expressions → ∃ value, token.literal = some (.int value)

theorem LiteralsAreIntegers.of_subset {some all : List Expr} (h : LiteralsAreIntegers all)
    (hsubset : some ⊆ all) : LiteralsAreIntegers some :=
  fun token htoken ↦ h token (hsubset htoken)

/-! ### Scanned tokens -/

/-- What a token of a kind stands for if these are its characters: a literal for its number, and
every other token for nothing. -/
def TokenKind.value? (kind : TokenKind) (word : List Char) : Option Literal :=
  match kind with
  | .intLit => some (.int (natOfDigits word))
  | .floatLit =>
    let whole := word.takeWhile Char.isDigit
    let fraction := (word.dropWhile Char.isDigit).tail
    some (.float (Binary64.ofDecimal false (natOfDigits (whole ++ fraction))
      (-(fraction.length : Int))))
  | _ => none

theorem natOfDigits_lt {digits : List Char} (h : ∀ c ∈ digits, c.isDigit = true) :
    natOfDigits digits < 10 ^ digits.length := by
  have hdigits : ∀ n ∈ digits.reverse.map fun c ↦ c.toNat - '0'.toNat, n < 10 := by
    intro n hn
    obtain ⟨c, hc, rfl⟩ := List.mem_map.mp hn
    have hnine : c.toNat ≤ '9'.toNat := ((isDigit_iff c).mp (h c (List.mem_reverse.mp hc))).2
    have hrange : '9'.toNat - '0'.toNat < 10 := by decide
    omega
  rw [natOfDigits_eq]
  simpa [Scanning.decimalValue] using Nat.ofDigits_lt_base_pow_length (by decide) hdigits

theorem Literal.isWritable_int_iff {value : Int} :
    (int value).isWritable = true ↔ value.natAbs < 10 ^ integerDigitLimit := by
  have hpow : ∀ exponent, Nat.pow 10 exponent = 10 ^ exponent := fun _ ↦ rfl
  rw [isWritable, decide_eq_true_iff, hpow]

/-- A tile that is a token stands for what its kind and its text say, and that can be written. -/
def Tile.HoldsValue (tile : Tile) : Prop :=
  ∀ kind literal, tile.shape = .token kind literal →
    literal = kind.value? tile.text ∧ literal.all Literal.isWritable = true

namespace Tile

theorem holdsValue_word (text : List Char) : (word text).HoldsValue := by
  intro kind literal hshape
  obtain ⟨hkind, rfl⟩ : (TokenKind.keyword? (String.ofList text)).getD .ident = kind ∧
      none = literal := by
    simpa [word] using hshape
  subst hkind
  refine ⟨?_, rfl⟩
  cases hkeyword : TokenKind.keyword? (String.ofList text) with
  | none => rfl
  | some kind =>
    obtain ⟨before, after, htable, -⟩ := List.lookup_eq_some_iff.mp hkeyword
    have hno : ∀ entry ∈ TokenKind.keywords, entry.2 ≠ .intLit ∧ entry.2 ≠ .floatLit := by decide
    have hkind := hno (String.ofList text, kind) (by simp [htable])
    rw [Option.getD_some, TokenKind.value?]
    · exact hkind.1
    · exact hkind.2

theorem holdsValue_integer {digits : List Char} (hdigits : ∀ c ∈ digits, c.isDigit = true) :
    (integer digits).HoldsValue := by
  intro kind literal hshape
  unfold integer at hshape ⊢
  split at hshape
  · cases hshape
  · rename_i hlength
    rw [if_neg hlength]
    cases hshape
    have hlimit := Nat.pow_le_pow_right (n := 10) (by decide) (Nat.le_of_not_lt hlength)
    refine ⟨rfl, ?_⟩
    rw [Option.all_some, Literal.isWritable_int_iff]
    exact Nat.lt_of_lt_of_le (natOfDigits_lt hdigits) hlimit

theorem holdsValue_decimal {whole : List Char} (hwhole : ∀ c ∈ whole, c.isDigit = true)
    (fraction : List Char) : (decimal whole fraction).HoldsValue := by
  intro kind literal hshape
  cases hshape
  refine ⟨?_, rfl⟩
  have hpoint : ('.' :: fraction).takeWhile Char.isDigit = [] := rfl
  have hbehind : ('.' :: fraction).dropWhile Char.isDigit = '.' :: fraction := rfl
  simp only [TokenKind.value?, decimal, List.takeWhile_append_of_pos hwhole,
    List.dropWhile_append_of_pos hwhole, hpoint, hbehind, List.append_nil, List.tail_cons]

theorem holdsValue_number {digits : List Char} (hdigits : ∀ c ∈ digits, c.isDigit = true)
    (rest : List Char) : (number digits rest).HoldsValue := by
  unfold number
  split
  · split
    · exact holdsValue_decimal hdigits _
    · exact holdsValue_integer hdigits
  · exact holdsValue_integer hdigits

theorem holdsValue_symbol (c : Char) (rest : List Char) : (symbol c rest).HoldsValue := by
  intro kind literal hshape
  unfold symbol at hshape
  split at hshape
  · cases hshape
    exact ⟨rfl, rfl⟩
  · cases hshape
    exact ⟨rfl, rfl⟩
  · split at hshape
    · rename_i kind hkind
      cases hshape
      refine ⟨?_, rfl⟩
      unfold TokenKind.ofSymbol? at hkind
      split at hkind <;> cases hkind <;> rfl
    · cases hshape

theorem holdsValue_tileAt (c : Char) (rest : List Char) : (tileAt c rest).HoldsValue := by
  unfold tileAt
  split
  · intro kind literal hshape
    cases hshape
  · split
    · intro kind literal hshape
      cases hshape
    · split
      · exact holdsValue_word _
      · split
        · rename_i hdigit
          refine holdsValue_number (fun d hd ↦ ?_) _
          rcases List.mem_cons.mp hd with rfl | hd
          · exact hdigit
          · exact List.mem_takeWhile_imp hd
        · exact holdsValue_symbol c rest

end Tile

theorem holdsValue_of_mem_tiles {text : List Char} {tile : Tile} (h : tile ∈ tiles text) :
    tile.HoldsValue := by
  fun_induction tiles text with
  | case1 => cases h
  | case2 c rest front ih =>
    rcases List.mem_cons.mp h with rfl | h
    · exact Tile.holdsValue_tileAt c rest
    · exact ih h

/-- Every token among findings is that of a tile. -/
theorem exists_tile_of_mem_findingsFrom {file : String} {lines : Array (List Char)}
    {pieces : List Tile} {token : Token} {place : Place}
    (h : .token token ∈ findingsFrom file lines place pieces) :
    ∃ tile ∈ pieces, tile.shape = .token token.kind token.literal ∧
      token.lexeme.toList = tile.text := by
  induction pieces generalizing place with
  | nil => cases h
  | cons tile more ih =>
    have hlater : .token token ∈ findingsFrom file lines (place.behind tile.text) more →
        ∃ found ∈ tile :: more, found.shape = .token token.kind token.literal ∧
          token.lexeme.toList = found.text := by
      intro hmem
      obtain ⟨found, hfound, hshape⟩ := ih hmem
      exact ⟨found, List.mem_cons_of_mem _ hfound, hshape⟩
    simp only [findingsFrom] at h
    split at h
    · rename_i finding hfinding
      rcases List.mem_cons.mp h with rfl | h
      · refine ⟨tile, List.mem_cons_self, ?_⟩
        unfold Tile.finding? at hfinding
        split at hfinding <;> cases hfinding
        exact ⟨by assumption, String.toList_ofList⟩
      · exact hlater h
    · exact hlater h

theorem holdsValue_of_mem_tokens {file text : String} {token : Token}
    (h : token ∈ (scan file text).tokens) :
    token.literal = token.kind.value? token.lexeme.toList ∧
      token.literal.all Literal.isWritable = true := by
  rcases List.mem_append.mp h with h | h
  · obtain ⟨finding, hfinding, htoken⟩ := List.mem_filterMap.mp h
    cases finding with
    | fault found => cases htoken
    | token found =>
      cases htoken
      obtain ⟨tile, htile, hshape, hlexeme⟩ := exists_tile_of_mem_findingsFrom hfinding
      exact hlexeme ▸ holdsValue_of_mem_tiles htile _ _ hshape
  · cases List.mem_singleton.mp h
    exact ⟨rfl, rfl⟩

/-- What a token of a scan stands for is known by its kind and its characters. -/
theorem literal_of_mem_tokens {file text : String} {token : Token}
    (h : token ∈ (scan file text).tokens) :
    token.literal = token.kind.value? token.lexeme.toList :=
  (holdsValue_of_mem_tokens h).1

/-- What a token of a scan stands for can be written. -/
theorem isWritable_of_mem_tokens {file text : String} {token : Token}
    (h : token ∈ (scan file text).tokens) : token.literal.all Literal.isWritable = true :=
  (holdsValue_of_mem_tokens h).2

/-! ### Programs that are read -/

namespace Grammar

variable {token : Token} {tokens : List Token}

/-- The literals of an expression are among the tokens that it is derived from. -/
theorem DerivesExpr.mem_of_intLit {tier : Tier} {e : Expr} (h : DerivesExpr tier tokens e)
    (hmem : .intLit token ∈ e.parts) : token ∈ tokens ∧ token.kind = .intLit := by
  induction h with
  | intLit hkind =>
    simp only [Expr.parts, List.mem_singleton, Expr.intLit.injEq] at hmem
    exact ⟨List.mem_singleton.mpr hmem, hmem ▸ hkind⟩
  | boolLit _ | use _ => simp [Expr.parts] at hmem
  | parentheses _ _ _ ih => exact (ih hmem).imp_left (by simp +contextual)
  | operand _ ih => exact ih hmem
  | join _ _ _ ihleft ihright =>
    rcases List.mem_cons.mp hmem with hmem | hmem
    · cases hmem
    · rcases List.mem_append.mp hmem with hmem | hmem
      · exact (ihleft hmem).imp_left (by simp +contextual)
      · exact (ihright hmem).imp_left (by simp +contextual)

theorem DerivesStmts.mem_of_intLit {statements : List Stmt}
    (ih : ∀ statement ∈ statements, ∀ tokens, DerivesStmt tokens statement →
      .intLit token ∈ statement.expressions → token ∈ tokens ∧ token.kind = .intLit)
    (h : DerivesStmts tokens statements) (hmem : .intLit token ∈ Stmt.expressionsOfAll statements) :
    token ∈ tokens ∧ token.kind = .intLit := by
  induction statements generalizing tokens with
  | nil => cases hmem
  | cons statement more ihmore =>
    cases h with
    | cons hstatement _ hmore =>
      rcases List.mem_append.mp hmem with hmem | hmem
      · exact (ih statement List.mem_cons_self _ hstatement hmem).imp_left (by simp +contextual)
      · have hlater :=
          ihmore (fun other hother ↦ ih other (List.mem_cons_of_mem _ hother)) hmore hmem
        exact hlater.imp_left (by simp +contextual)

theorem DerivesStmt.mem_of_intLit {statement : Stmt} :
    ∀ {tokens : List Token}, DerivesStmt tokens statement →
      .intLit token ∈ statement.expressions → token ∈ tokens ∧ token.kind = .intLit := by
  induction statement with
  | assign target value =>
    intro tokens h hmem
    cases h with
    | assign _ _ hvalue => exact (hvalue.mem_of_intLit hmem).imp_left (by simp +contextual)
  | ifThen condition body ih =>
    intro tokens h hmem
    cases h with
    | ifThen _ hcondition _ hbody =>
      rcases List.mem_append.mp hmem with hmem | hmem
      · exact (hcondition.mem_of_intLit hmem).imp_left (by simp +contextual)
      · exact (ih hbody hmem).imp_left (by simp +contextual)
  | ifElse condition body alternative ihbody ihalternative =>
    intro tokens h hmem
    cases h with
    | ifElse _ hcondition _ hbody _ halternative =>
      simp only [Stmt.expressions, List.mem_append] at hmem
      rcases hmem with (hmem | hmem) | hmem
      · exact (hcondition.mem_of_intLit hmem).imp_left (by simp +contextual)
      · exact (ihbody hbody hmem).imp_left (by simp +contextual)
      · exact (ihalternative halternative hmem).imp_left (by simp +contextual)
  | loop condition body ih =>
    intro tokens h hmem
    cases h with
    | loop _ hcondition _ hbody =>
      rcases List.mem_append.mp hmem with hmem | hmem
      · exact (hcondition.mem_of_intLit hmem).imp_left (by simp +contextual)
      · exact (ih hbody hmem).imp_left (by simp +contextual)
  | block statements ih =>
    intro tokens h hmem
    cases h with
    | block _ hinner _ =>
      exact (hinner.mem_of_intLit (fun s hs _ ↦ ih s hs) hmem).imp_left (by simp +contextual)

end Grammar

section Scans

variable {file text : String} {depth : Nat} {lines : List String} {program : Program}
  {rest : TokenStream}

/-- The literals of a program that is read from a text are among the tokens of the text. -/
theorem mem_tokens_of_intLit
    (h : (scan file text).stream.readProgramWithin depth lines = (.ok program, rest))
    {token : Token} (hmem : .intLit token ∈ program.expressions) :
    token ∈ (scan file text).tokens ∧ token.kind = .intLit := by
  obtain ⟨tokens, htokens, hderives, -⟩ := TokenStream.derives_of_readProgramWithin h
  rw [Scan.tokens, htokens]
  cases hderives with
  | intro _ _ _ _ hbody => exact (hbody.mem_of_intLit hmem).imp_left (by simp +contextual)

/-- The literals of a program that is read from a text are integers. -/
theorem literalsAreIntegers_of_scan
    (h : (scan file text).stream.readProgramWithin depth lines = (.ok program, rest)) :
    LiteralsAreIntegers program.expressions := by
  intro token hmem
  obtain ⟨htoken, hkind⟩ := mem_tokens_of_intLit h hmem
  rw [literal_of_mem_tokens htoken, hkind]
  exact ⟨_, rfl⟩

/-- The literals of a program that is read from a text can be written. -/
theorem literalsAreWritable_of_scan
    (h : (scan file text).stream.readProgramWithin depth lines = (.ok program, rest)) :
    LiteralsAreWritable program.expressions := by
  intro e hmem
  cases e with
  | intLit token => exact isWritable_of_mem_tokens (mem_tokens_of_intLit h hmem).1
  | binary | boolLit | use => rfl

end Scans

end StackCompiler
