import Mathlib.Data.Nat.Digits.Defs
import StackCompiler.Diagnostic

/-!
# Words and the longest match

The source text of tokens as a language, without a word about how a text is cut into tokens. A word
is a name, a numeral, a decimal or one of twelve signs; `Reads` says what each is read as. A numeral
with too many digits is a word too, but it is read as a fault.

`Munches` is the scanner that takes the longest word at every place: blanks and comments are left
out, the longest word in front of the rest is read (`LongestWord`), and where there is no word one
character is dropped with a fault. Nothing is left open in it. The first character of a word tells
of which class it is, so a word is read as one thing (`Reads.unique`), and a text is munched in one
way (`Munches.unique`).
-/

set_option autoImplicit false
set_option relaxedAutoImplicit false

namespace StackCompiler.Scanning

/-! ### Words -/

/-- An ASCII letter or the underscore. -/
def IsLetter (c : Char) : Prop :=
  ('A' ≤ c ∧ c ≤ 'Z') ∨ ('a' ≤ c ∧ c ≤ 'z') ∨ c = '_'

def IsDigit (c : Char) : Prop :=
  '0' ≤ c ∧ c ≤ '9'

instance : DecidablePred IsLetter :=
  fun _ ↦ inferInstanceAs (Decidable (_ ∨ _))

instance : DecidablePred IsDigit :=
  fun _ ↦ inferInstanceAs (Decidable (_ ∧ _))

/-- A letter, and letters and digits behind it. -/
def IsName (word : List Char) : Prop :=
  ∃ c more, word = c :: more ∧ IsLetter c ∧ ∀ d ∈ more, IsLetter d ∨ IsDigit d

/-- One or more digits. -/
def IsNumeral (word : List Char) : Prop :=
  word ≠ [] ∧ ∀ c ∈ word, IsDigit c

/-- Two numerals with a point between them. -/
def IsDecimal (word : List Char) : Prop :=
  ∃ whole fraction, IsNumeral whole ∧ IsNumeral fraction ∧ word = whole ++ '.' :: fraction

/-- The two words that start with a colon, and the ten characters that are words of their own. -/
def signs : List (List Char × TokenKind) :=
  [([':', '='], .assign), ([':'], .colon), (['('], .lparen), ([')'], .rparen),
    ([';'], .semicolon), (['+'], .plus), (['-'], .minus), (['*'], .times), (['/'], .divide),
    (['<'], .less), (['>'], .greater), (['='], .equal)]

/-- The value of a numeral in base ten, the last digit being that of the units. -/
def decimalValue (word : List Char) : Nat :=
  Nat.ofDigits 10 (word.reverse.map fun c ↦ c.toNat - '0'.toNat)

/-- What a word is read as: a token, with the value of an integer literal, or a fault. -/
inductive Reading where
  | token (kind : TokenKind) (lexeme : String) (value : Option Int)
  | fault (cause : Cause)
  deriving DecidableEq

def Reading.isToken : Reading → Bool
  | token .. => true
  | fault _ => false

/-- A word is read as a token or a fault. -/
inductive Reads : List Char → Reading → Prop
  | keyword {word : List Char} {kind : TokenKind} (hword : IsName word)
      (hkeyword : (String.ofList word, kind) ∈ TokenKind.keywords) :
      Reads word (.token kind (String.ofList word) none)
  | name {word : List Char} (hword : IsName word)
      (hkeyword : ∀ kind, (String.ofList word, kind) ∉ TokenKind.keywords) :
      Reads word (.token .ident (String.ofList word) none)
  | numeral {word : List Char} (hword : IsNumeral word) (hlength : word.length ≤ 4300) :
      Reads word (.token .intLit (String.ofList word) (some (decimalValue word)))
  | oversized {word : List Char} (hword : IsNumeral word) (hlength : 4300 < word.length) :
      Reads word (.fault (.oversizedInteger word.length))
  | decimal {word : List Char} (hword : IsDecimal word) :
      Reads word (.token .floatLit (String.ofList word) none)
  | sign {word : List Char} {kind : TokenKind} (hsign : (word, kind) ∈ signs) :
      Reads word (.token kind (String.ofList word) none)

/-- A word that stands in front of a text, and no longer word does. -/
structure LongestWord (word text : List Char) : Prop where
  isPrefix : word <+: text
  exists_reads : ∃ reading, Reads word reading
  length_le : ∀ other reading, other <+: text → Reads other reading → other.length ≤ word.length

/-! ### Munching -/

/-- Space, tab, carriage return and line feed. -/
def blanks : List Char :=
  [' ', '\t', '\r', '\n']

/-- A text starts with a blank or a comment. -/
def StartsWithGap (text : List Char) : Prop :=
  (∃ c ∈ blanks, [c] <+: text) ∨ ['/', '/'] <+: text

/-- What a text is read as, from left to right. -/
inductive Munches : List Char → List Reading → Prop
  | done : Munches [] []
  | blank {c : Char} {rest : List Char} {readings : List Reading} (hblank : c ∈ blanks)
      (hrest : Munches rest readings) : Munches (c :: rest) readings
  | comment {body rest : List Char} {readings : List Reading} (hbody : '\n' ∉ body)
      (hend : ∀ c ∈ rest.head?, c = '\n') (hrest : Munches rest readings) :
      Munches ('/' :: '/' :: (body ++ rest)) readings
  | word {word rest : List Char} {reading : Reading} {readings : List Reading}
      (hgap : ¬ StartsWithGap (word ++ rest)) (hlongest : LongestWord word (word ++ rest))
      (hreads : Reads word reading) (hrest : Munches rest readings) :
      Munches (word ++ rest) (reading :: readings)
  | stray {c : Char} {rest : List Char} {readings : List Reading}
      (hgap : ¬ StartsWithGap (c :: rest))
      (hnone : ∀ word reading, word <+: c :: rest → ¬ Reads word reading)
      (hrest : Munches rest readings) :
      Munches (c :: rest) (.fault (.strayCharacter c) :: readings)

/-! ### A word is read as one thing -/

theorem IsLetter.not_isDigit {c : Char} (h : IsLetter c) : ¬ IsDigit c := by
  simp only [IsLetter, IsDigit, Char.le_def, UInt32.le_iff_toNat_le] at h ⊢
  rcases h with h | h | rfl
  · have hlower : '9'.val.toNat < 'A'.val.toNat := by decide
    omega
  · have hlower : '9'.val.toNat < 'a'.val.toNat := by decide
    omega
  · decide

theorem IsNumeral.exists_cons {word : List Char} (h : IsNumeral word) :
    ∃ c more, word = c :: more ∧ IsDigit c := by
  obtain ⟨c, more, rfl⟩ := List.exists_cons_of_ne_nil h.1
  exact ⟨c, more, rfl, h.2 c List.mem_cons_self⟩

theorem IsDecimal.exists_cons {word : List Char} (h : IsDecimal word) :
    ∃ c more, word = c :: more ∧ IsDigit c := by
  obtain ⟨whole, fraction, hwhole, -, rfl⟩ := h
  obtain ⟨c, more, rfl, hdigit⟩ := hwhole.exists_cons
  exact ⟨c, _, rfl, hdigit⟩

theorem exists_cons_of_mem_signs {word : List Char} {kind : TokenKind}
    (h : (word, kind) ∈ signs) : ∃ c more, word = c :: more ∧ ¬ IsLetter c ∧ ¬ IsDigit c := by
  have hall : ∀ sign ∈ signs, sign.1 ≠ [] ∧
      sign.1.all (fun c ↦ ¬ IsLetter c ∧ ¬ IsDigit c) = true := by
    decide
  obtain ⟨hne, hneither⟩ := hall _ h
  obtain ⟨c, more, rfl⟩ := List.exists_cons_of_ne_nil hne
  simp only [List.all_cons, Bool.and_eq_true, decide_eq_true_eq] at hneither
  exact ⟨c, more, rfl, hneither.1⟩

theorem IsName.not_isNumeral {word : List Char} (h : IsName word) : ¬ IsNumeral word := by
  obtain ⟨c, more, rfl, hletter, -⟩ := h
  exact fun hword ↦ hletter.not_isDigit (hword.2 c List.mem_cons_self)

theorem IsName.not_isDecimal {word : List Char} (h : IsName word) : ¬ IsDecimal word := by
  obtain ⟨c, more, rfl, hletter, -⟩ := h
  intro hword
  obtain ⟨d, _, hsame, hdigit⟩ := hword.exists_cons
  cases hsame
  exact hletter.not_isDigit hdigit

/-- A decimal holds a point, which is no digit. -/
theorem IsNumeral.not_isDecimal {word : List Char} (h : IsNumeral word) : ¬ IsDecimal word := by
  rintro ⟨whole, fraction, -, -, rfl⟩
  exact absurd (h.2 '.' (by simp)) (by decide)

theorem not_isName_of_mem_signs {word : List Char} {kind : TokenKind} (h : (word, kind) ∈ signs) :
    ¬ IsName word := by
  obtain ⟨c, more, rfl, hletter, -⟩ := exists_cons_of_mem_signs h
  rintro ⟨d, _, hsame, hd, -⟩
  cases hsame
  exact hletter hd

theorem not_isNumeral_of_mem_signs {word : List Char} {kind : TokenKind}
    (h : (word, kind) ∈ signs) : ¬ IsNumeral word := by
  obtain ⟨c, more, rfl, -, hdigit⟩ := exists_cons_of_mem_signs h
  exact fun hword ↦ hdigit (hword.2 c List.mem_cons_self)

theorem not_isDecimal_of_mem_signs {word : List Char} {kind : TokenKind}
    (h : (word, kind) ∈ signs) : ¬ IsDecimal word := by
  obtain ⟨c, more, rfl, -, hdigit⟩ := exists_cons_of_mem_signs h
  intro hword
  obtain ⟨d, _, hsame, hd⟩ := hword.exists_cons
  cases hsame
  exact hdigit hd

/-- A word is read as one thing. -/
theorem Reads.unique {word : List Char} {reading other : Reading} (h : Reads word reading)
    (hother : Reads word other) : reading = other := by
  have hkeywords : ∀ first ∈ TokenKind.keywords, ∀ second ∈ TokenKind.keywords,
      first.1 = second.1 → first.2 = second.2 := by decide
  have hsigns : ∀ first ∈ signs, ∀ second ∈ signs, first.1 = second.1 → first.2 = second.2 := by
    decide
  cases h with
  | keyword hword hkeyword =>
    cases hother with
    | keyword _ hsame =>
      exact congrArg (Reading.token · _ none) (hkeywords _ hkeyword _ hsame rfl)
    | name _ hno => exact absurd hkeyword (hno _)
    | numeral h _ | oversized h _ => exact absurd h hword.not_isNumeral
    | decimal h => exact absurd h hword.not_isDecimal
    | sign h => exact absurd hword (not_isName_of_mem_signs h)
  | name hword hno =>
    cases hother with
    | keyword _ hkeyword => exact absurd hkeyword (hno _)
    | name _ _ => rfl
    | numeral h _ | oversized h _ => exact absurd h hword.not_isNumeral
    | decimal h => exact absurd h hword.not_isDecimal
    | sign h => exact absurd hword (not_isName_of_mem_signs h)
  | numeral hword hlength =>
    cases hother with
    | keyword h _ | name h _ => exact absurd hword h.not_isNumeral
    | numeral _ _ => rfl
    | oversized _ hlong => omega
    | decimal h => exact absurd h hword.not_isDecimal
    | sign h => exact absurd hword (not_isNumeral_of_mem_signs h)
  | oversized hword hlong =>
    cases hother with
    | keyword h _ | name h _ => exact absurd hword h.not_isNumeral
    | numeral _ hlength => omega
    | oversized _ _ => rfl
    | decimal h => exact absurd h hword.not_isDecimal
    | sign h => exact absurd hword (not_isNumeral_of_mem_signs h)
  | decimal hword =>
    cases hother with
    | keyword h _ | name h _ => exact absurd hword h.not_isDecimal
    | numeral h _ | oversized h _ => exact absurd hword h.not_isDecimal
    | decimal _ => rfl
    | sign h => exact absurd hword (not_isDecimal_of_mem_signs h)
  | sign hsign =>
    cases hother with
    | keyword h _ | name h _ => exact absurd h (not_isName_of_mem_signs hsign)
    | numeral h _ | oversized h _ => exact absurd h (not_isNumeral_of_mem_signs hsign)
    | decimal h => exact absurd h (not_isDecimal_of_mem_signs hsign)
    | sign hsame => exact congrArg (Reading.token · _ none) (hsigns _ hsign _ hsame rfl)

/-! ### The first character of a word -/

section Head

variable {c : Char} {more : List Char} {reading : Reading}

theorem Reads.isName (h : Reads (c :: more) reading) (hc : IsLetter c) : IsName (c :: more) := by
  have hdigit := hc.not_isDigit
  cases h with
  | keyword hword _ | name hword _ => exact hword
  | numeral hword _ | oversized hword _ => exact absurd (hword.2 c List.mem_cons_self) hdigit
  | decimal hword =>
    obtain ⟨d, _, hword, hd⟩ := hword.exists_cons
    cases hword
    exact absurd hd hdigit
  | sign hsign =>
    obtain ⟨d, _, hword, hletter, -⟩ := exists_cons_of_mem_signs hsign
    cases hword
    exact absurd hc hletter

theorem Reads.isNumeral_or_isDecimal (h : Reads (c :: more) reading) (hc : IsDigit c) :
    IsNumeral (c :: more) ∨ IsDecimal (c :: more) := by
  cases h with
  | keyword hword _ | name hword _ =>
    obtain ⟨d, _, hword, hletter, -⟩ := hword
    cases hword
    exact absurd hc hletter.not_isDigit
  | numeral hword _ | oversized hword _ => exact .inl hword
  | decimal hword => exact .inr hword
  | sign hsign =>
    obtain ⟨d, _, hword, -, hdigit⟩ := exists_cons_of_mem_signs hsign
    cases hword
    exact absurd hc hdigit

theorem Reads.exists_mem_signs (h : Reads (c :: more) reading) (hletter : ¬ IsLetter c)
    (hdigit : ¬ IsDigit c) : ∃ kind, (c :: more, kind) ∈ signs := by
  cases h with
  | keyword hword _ | name hword _ =>
    obtain ⟨d, _, hword, hd, -⟩ := hword
    cases hword
    exact absurd hd hletter
  | numeral hword _ | oversized hword _ => exact absurd (hword.2 c List.mem_cons_self) hdigit
  | decimal hword =>
    obtain ⟨d, _, hword, hd⟩ := hword.exists_cons
    cases hword
    exact absurd hd hdigit
  | sign hsign => exact ⟨_, hsign⟩

end Head

theorem Reads.ne_nil {word : List Char} {reading : Reading} (h : Reads word reading) :
    word ≠ [] := by
  rintro rfl
  cases h with
  | keyword hword _ | name hword _ => obtain ⟨_, _, hword, -⟩ := hword; cases hword
  | numeral hword _ | oversized hword _ => exact hword.1 rfl
  | decimal hword => obtain ⟨_, _, hword, -⟩ := hword.exists_cons; cases hword
  | sign hsign => obtain ⟨_, _, hword, -⟩ := exists_cons_of_mem_signs hsign; cases hword

/-! ### A text is munched in one way -/

theorem LongestWord.unique {word other text : List Char} (h : LongestWord word text)
    (hother : LongestWord other text) : word = other := by
  obtain ⟨reading, hreads⟩ := h.exists_reads
  obtain ⟨reading', hreads'⟩ := hother.exists_reads
  have hle := hother.length_le word reading h.isPrefix hreads
  have hge := h.length_le other reading' hother.isPrefix hreads'
  exact (List.prefix_of_prefix_length_le h.isPrefix hother.isPrefix hle).eq_of_length_le hge

theorem startsWithGap_blank {c : Char} (h : c ∈ blanks) (rest : List Char) :
    StartsWithGap (c :: rest) :=
  .inl ⟨c, h, by simp⟩

theorem startsWithGap_comment (rest : List Char) : StartsWithGap ('/' :: '/' :: rest) :=
  .inr (by simp)

/-- The body of a comment is all that stands in front of the next line feed. -/
theorem comment_unique {body other rest more : List Char} (hbody : '\n' ∉ body)
    (hother : '\n' ∉ other) (hend : ∀ c ∈ rest.head?, c = '\n')
    (hendOther : ∀ c ∈ more.head?, c = '\n') (h : body ++ rest = other ++ more) : rest = more := by
  induction body generalizing other with
  | nil =>
    cases other with
    | nil => simpa using h
    | cons d other =>
      rw [List.nil_append] at h
      have hd := hend d (by simp [h])
      exact absurd (by simp [hd]) hother
  | cons c body ih =>
    cases other with
    | nil =>
      rw [List.nil_append] at h
      have hc := hendOther c (by simp [← h])
      exact absurd (by simp [hc]) hbody
    | cons d other =>
      simp only [List.cons_append, List.cons.injEq] at h
      exact ih (fun hmem ↦ hbody (List.mem_cons_of_mem _ hmem))
        (fun hmem ↦ hother (List.mem_cons_of_mem _ hmem)) h.2

theorem Munches.eq_nil {readings : List Reading} (h : Munches [] readings) : readings = [] := by
  generalize htext : [] = text at h
  cases h with
  | done => rfl
  | blank _ _ | comment _ _ _ | stray _ _ _ => cases htext
  | word _ hlongest hreads _ => exact absurd (List.append_eq_nil_iff.mp htext.symm).1 hreads.ne_nil

theorem Munches.of_blank {c : Char} {rest : List Char} {readings : List Reading}
    (hblank : c ∈ blanks) (h : Munches (c :: rest) readings) : Munches rest readings := by
  have hgap := startsWithGap_blank hblank rest
  generalize htext : c :: rest = text at h hgap
  cases h with
  | done => cases htext
  | blank _ hrest => cases htext; exact hrest
  | comment _ _ _ => cases htext; exact absurd hblank (by decide)
  | word hno _ _ _ | stray hno _ _ => exact absurd hgap hno

theorem Munches.of_comment {body rest : List Char} {readings : List Reading} (hbody : '\n' ∉ body)
    (hend : ∀ c ∈ rest.head?, c = '\n') (h : Munches ('/' :: '/' :: (body ++ rest)) readings) :
    Munches rest readings := by
  have hgap := startsWithGap_comment (body ++ rest)
  generalize htext : '/' :: '/' :: (body ++ rest) = text at h hgap
  cases h with
  | done => cases htext
  | blank hblank _ => cases htext; exact absurd hblank (by decide)
  | comment hother hendOther hrest =>
    simp only [List.cons.injEq, true_and] at htext
    rwa [comment_unique hbody hother hend hendOther htext]
  | word hno _ _ _ | stray hno _ _ => exact absurd hgap hno

theorem Munches.of_word {word rest : List Char} {readings : List Reading}
    (hgap : ¬ StartsWithGap (word ++ rest)) (hlongest : LongestWord word (word ++ rest))
    (h : Munches (word ++ rest) readings) :
    ∃ reading more, readings = reading :: more ∧ Reads word reading ∧ Munches rest more := by
  obtain ⟨reading, hword⟩ := hlongest.exists_reads
  generalize htext : word ++ rest = text at h hgap hlongest
  cases h with
  | done => exact absurd (List.append_eq_nil_iff.mp htext).1 hword.ne_nil
  | blank hblank _ => exact absurd (startsWithGap_blank hblank _) hgap
  | comment _ _ _ => exact absurd (startsWithGap_comment _) hgap
  | word _ hother hreads hrest =>
    cases hlongest.unique hother
    cases List.append_cancel_left htext
    exact ⟨_, _, rfl, hreads, hrest⟩
  | stray _ hnone _ => exact absurd hword (hnone word reading hlongest.isPrefix)

theorem Munches.of_stray {c : Char} {rest : List Char} {readings : List Reading}
    (hgap : ¬ StartsWithGap (c :: rest))
    (hnone : ∀ word reading, word <+: c :: rest → ¬ Reads word reading)
    (h : Munches (c :: rest) readings) :
    ∃ more, readings = .fault (.strayCharacter c) :: more ∧ Munches rest more := by
  generalize htext : c :: rest = text at h hgap hnone
  cases h with
  | done => cases htext
  | blank hblank _ => exact absurd (startsWithGap_blank hblank _) hgap
  | comment _ _ _ => exact absurd (startsWithGap_comment _) hgap
  | word _ _ hreads _ => exact absurd hreads (hnone _ _ (List.prefix_append _ _))
  | stray _ _ hrest => cases htext; exact ⟨_, rfl, hrest⟩

/-- A text is munched in one way. -/
theorem Munches.unique {text : List Char} {readings others : List Reading}
    (h : Munches text readings) (hother : Munches text others) : readings = others := by
  induction h generalizing others with
  | done => exact hother.eq_nil.symm
  | blank hblank _ ih => exact ih (hother.of_blank hblank)
  | comment hbody hend _ ih => exact ih (hother.of_comment hbody hend)
  | word hgap hlongest hreads _ ih =>
    obtain ⟨reading, more, rfl, hsame, hrest⟩ := hother.of_word hgap hlongest
    rw [hreads.unique hsame, ih hrest]
  | stray hgap hnone _ ih =>
    obtain ⟨more, rfl, hrest⟩ := hother.of_stray hgap hnone
    rw [ih hrest]

end StackCompiler.Scanning
