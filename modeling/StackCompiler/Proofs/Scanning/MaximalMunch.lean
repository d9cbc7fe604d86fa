import Mathlib.Data.List.TakeWhile
import StackCompiler.Proofs.Scanning.Word
import StackCompiler.Token.Scan

/-!
# A scan takes the longest words

`scan_munches` is the main statement: the tokens and faults of a scan are what its text is read as
when the longest word is taken at every place. A scan never looks for the longest word. It looks at
the next two characters to choose a tile (`Tile.tileAt`), and at what stands behind the digits of a
number to choose again. The lemmas on tiles say that each choice is right: the tile of a letter, of
a digit and of a sign is the longest word that starts there, and the only character without a word
is one for which there is no tile of its own (`Tile.tileAt_spec`).
-/

set_option autoImplicit false
set_option relaxedAutoImplicit false

namespace StackCompiler

open Scanning

/-! ### Classes of characters -/

theorem isBlank_iff (c : Char) : isBlank c = true ↔ c ∈ blanks := by
  simp [isBlank, blanks, or_assoc]

theorem isDigit_iff (c : Char) : c.isDigit = true ↔ IsDigit c := by
  simp [Char.isDigit, IsDigit, Char.le_def]

theorem isIdentStart_iff (c : Char) : isIdentStart c = true ↔ IsLetter c := by
  delta isIdentStart Char.isAlpha Char.isUpper Char.isLower
  simp [IsLetter, Char.le_def, or_assoc]

theorem isIdentChar_iff (c : Char) : isIdentChar c = true ↔ IsLetter c ∨ IsDigit c := by
  simp [isIdentChar, isIdentStart_iff, isDigit_iff]

theorem natOfDigits_eq (digits : List Char) : natOfDigits digits = decimalValue digits := by
  rw [natOfDigits, decimalValue, Nat.ofDigits_eq_foldr, List.foldr_map, List.foldr_reverse]
  simp [Nat.add_comm]

/-! ### What tiles and tokens are read as -/

/-- The integer that a literal stands for. -/
def Literal.int? : Literal → Option Int
  | int value => some value
  | float _ => none

def Token.reading (token : Token) : Reading :=
  .token token.kind token.lexeme (token.literal.bind Literal.int?)

def Diagnostic.reading (diagnostic : Diagnostic) : Reading :=
  .fault diagnostic.cause

def Finding.reading : Finding → Reading
  | token found => found.reading
  | fault found => found.reading

def Tile.reading? (tile : Tile) : Option Reading :=
  match tile.shape with
  | .blank | .comment => none
  | .token kind literal => some (.token kind (String.ofList tile.text) (literal.bind Literal.int?))
  | .strayCharacter c => some (.fault (.strayCharacter c))
  | .oversizedInteger digits => some (.fault (.oversizedInteger digits))

/-! ### Words in front of a text -/

/-- Characters of a class in front of a text belong to the longest such run. -/
theorem prefix_takeWhile {p : Char → Bool} {front text : List Char} (h : front <+: text)
    (hall : ∀ c ∈ front, p c = true) : front <+: text.takeWhile p := by
  obtain ⟨rest, rfl⟩ := h
  rw [List.takeWhile_append_of_pos hall]
  exact List.prefix_append _ _

/-- A decimal in front of a text starts with all digits in front of it, and goes on with a point and
further digits. -/
theorem Scanning.IsDecimal.eq_of_prefix {word text : List Char} (hword : IsDecimal word)
    (hbegins : word <+: text) :
    ∃ fraction, IsNumeral fraction ∧ word = text.takeWhile Char.isDigit ++ '.' :: fraction ∧
      '.' :: fraction <+: text.dropWhile Char.isDigit := by
  obtain ⟨whole, fraction, hwhole, hfraction, rfl⟩ := hword
  obtain ⟨rest, rfl⟩ := hbegins
  have hdigits : ∀ c ∈ whole, c.isDigit = true := fun c hc ↦ (isDigit_iff c).mpr (hwhole.2 c hc)
  have hpoint : ('.' :: (fraction ++ rest)).takeWhile Char.isDigit = [] := rfl
  have hbehind : ('.' :: (fraction ++ rest)).dropWhile Char.isDigit = '.' :: (fraction ++ rest) :=
    rfl
  rw [List.append_assoc, List.cons_append, List.takeWhile_append_of_pos hdigits,
    List.dropWhile_append_of_pos hdigits, hpoint, hbehind, List.append_nil]
  exact ⟨fraction, hfraction, rfl, by simp⟩

namespace Tile

/-! ### Names -/

theorem isName_cons_takeWhile {c : Char} (hc : IsLetter c) (rest : List Char) :
    IsName (c :: rest.takeWhile isIdentChar) :=
  ⟨c, _, rfl, hc, fun d hd ↦ (isIdentChar_iff d).mp (List.mem_takeWhile_imp hd)⟩

/-- A keyword is a name with a kind of its own. -/
theorem reads_word {text : List Char} (h : IsName text) :
    ∃ reading, (word text).reading? = some reading ∧ Reads text reading := by
  unfold word reading?
  cases hkeyword : TokenKind.keyword? (String.ofList text) with
  | none =>
    refine ⟨_, rfl, .name h fun kind hmem ↦ ?_⟩
    rw [TokenKind.keyword?, List.lookup_eq_none_iff] at hkeyword
    simpa using hkeyword _ hmem
  | some kind =>
    obtain ⟨before, after, htable, -⟩ := List.lookup_eq_some_iff.mp hkeyword
    exact ⟨_, rfl, .keyword h (by simp [htable])⟩

theorem longestWord_name {c : Char} (hc : IsLetter c) (rest : List Char) :
    LongestWord (c :: rest.takeWhile isIdentChar) (c :: rest) where
  isPrefix := (List.prefix_cons_inj c).mpr (List.takeWhile_prefix _)
  exists_reads := (reads_word (isName_cons_takeWhile hc rest)).imp fun _ h ↦ h.2
  length_le other reading hbegins hreads := by
    obtain ⟨d, more, rfl⟩ := List.exists_cons_of_ne_nil hreads.ne_nil
    obtain ⟨rfl, hmore⟩ := List.cons_prefix_cons.mp hbegins
    obtain ⟨_, _, hsame, -, hall⟩ := hreads.isName hc
    cases hsame
    have hrun := prefix_takeWhile hmore fun e he ↦ (isIdentChar_iff e).mpr (hall e he)
    simpa using hrun.length_le

/-! ### Numbers -/

theorem isNumeral_cons_takeWhile {c : Char} (hc : IsDigit c) (rest : List Char) :
    IsNumeral (c :: rest.takeWhile Char.isDigit) := by
  refine ⟨by simp, fun d hd ↦ ?_⟩
  rcases List.mem_cons.mp hd with rfl | hd
  · exact hc
  · exact (isDigit_iff d).mp (List.mem_takeWhile_imp hd)

theorem reads_integer {digits : List Char} (h : IsNumeral digits) :
    ∃ reading, (integer digits).reading? = some reading ∧ Reads digits reading := by
  unfold integer
  split
  · rename_i hlong
    exact ⟨_, rfl, .oversized h hlong⟩
  · rename_i hlength
    refine ⟨_, rfl, ?_⟩
    have hvalue := Reads.numeral h (by simpa [integerDigitLimit] using hlength)
    rwa [← natOfDigits_eq] at hvalue

section Number

variable {digits behind : List Char}

/-- Of the words in front of a text, only a decimal is longer than the digits there. -/
theorem length_le_or_decimal (hdigits : IsNumeral digits)
    (hbehind : ∀ c ∈ behind.head?, c.isDigit = false) {other : List Char} {reading : Reading}
    (hbegins : other <+: digits ++ behind) (hreads : Reads other reading) :
    other.length ≤ digits.length ∨
      ∃ fraction, IsNumeral fraction ∧ '.' :: fraction <+: behind ∧
        other = digits ++ '.' :: fraction := by
  have hall : ∀ c ∈ digits, c.isDigit = true := fun c hc ↦ (isDigit_iff c).mpr (hdigits.2 c hc)
  have htake : (digits ++ behind).takeWhile Char.isDigit = digits := by
    rw [List.takeWhile_append_of_pos hall, List.append_right_eq_self, List.takeWhile_eq_nil_iff]
    intro hlength
    simpa using hbehind behind[0] (by simp [List.head?_eq_getElem?])
  have hdrop : (digits ++ behind).dropWhile Char.isDigit = behind := by
    have hsplit := List.takeWhile_append_dropWhile (p := Char.isDigit) (l := digits ++ behind)
    rw [htake] at hsplit
    exact List.append_cancel_left hsplit
  obtain ⟨c, more, rfl, hc⟩ := hdigits.exists_cons
  obtain ⟨d, later, rfl⟩ := List.exists_cons_of_ne_nil hreads.ne_nil
  obtain ⟨rfl, -⟩ := List.cons_prefix_cons.mp hbegins
  rcases hreads.isNumeral_or_isDecimal hc with hword | hword
  · have hrun := prefix_takeWhile hbegins fun e he ↦ (isDigit_iff e).mpr (hword.2 e he)
    rw [htake] at hrun
    exact .inl hrun.length_le
  · obtain ⟨fraction, hfraction, hsame, hpoint⟩ := hword.eq_of_prefix hbegins
    rw [htake] at hsame
    rw [hdrop] at hpoint
    exact .inr ⟨fraction, hfraction, hpoint, hsame⟩

/-- Digits are the longest word if no decimal goes on behind them. -/
theorem longestWord_digits (hdigits : IsNumeral digits)
    (hbehind : ∀ c ∈ behind.head?, c.isDigit = false)
    (hno : ∀ fraction, IsNumeral fraction → ¬ '.' :: fraction <+: behind) :
    LongestWord digits (digits ++ behind) where
  isPrefix := List.prefix_append _ _
  exists_reads := (reads_integer hdigits).imp fun _ h ↦ h.2
  length_le other reading hbegins hreads := by
    rcases length_le_or_decimal hdigits hbehind hbegins hreads with
      hle | ⟨fraction, hfraction, hpoint, -⟩
    · exact hle
    · exact absurd hpoint (hno fraction hfraction)

/-- With a point and a digit behind the digits, all digits behind the point belong to the longest
word. -/
theorem longestWord_decimal (hdigits : IsNumeral digits) {c : Char} (hc : IsDigit c)
    (more : List Char) :
    LongestWord (digits ++ '.' :: c :: more.takeWhile Char.isDigit)
      (digits ++ '.' :: c :: more) where
  isPrefix := by simp [List.prefix_append_right_inj, List.takeWhile_prefix]
  exists_reads := ⟨_, .decimal ⟨digits, _, hdigits, isNumeral_cons_takeWhile hc more, rfl⟩⟩
  length_le other reading hbegins hreads := by
    have hpoint : ∀ d ∈ ('.' :: c :: more).head?, d.isDigit = false := by simp
    rcases length_le_or_decimal hdigits hpoint hbegins hreads with
      hle | ⟨fraction, hfraction, hpoint, rfl⟩
    · simp only [List.length_append]
      omega
    · have hrun := prefix_takeWhile ((List.prefix_cons_inj '.').mp hpoint) fun d hd ↦
        (isDigit_iff d).mpr (hfraction.2 d hd)
      rw [List.takeWhile_cons_of_pos ((isDigit_iff c).mpr hc)] at hrun
      have hle := hrun.length_le
      simp only [List.length_append, List.length_cons] at hle ⊢
      omega

theorem number_spec (hdigits : IsNumeral digits)
    (hbehind : ∀ c ∈ behind.head?, c.isDigit = false) :
    (∃ reading, (number digits behind).reading? = some reading ∧
      Reads (number digits behind).text reading) ∧
        LongestWord (number digits behind).text (digits ++ behind) := by
  unfold number
  split
  · rename_i c more
    split
    · rename_i hc
      have hdigit := (isDigit_iff c).mp hc
      have hfraction := isNumeral_cons_takeWhile hdigit more
      exact ⟨⟨_, rfl, .decimal ⟨digits, _, hdigits, hfraction, rfl⟩⟩,
        longestWord_decimal hdigits hdigit more⟩
    · rename_i hc
      rw [integer_text]
      refine ⟨reads_integer hdigits, longestWord_digits hdigits hbehind fun fraction hword hpoint ↦
        hc ?_⟩
      obtain ⟨d, _, rfl, hd⟩ := hword.exists_cons
      obtain ⟨rfl, -⟩ := List.cons_prefix_cons.mp ((List.prefix_cons_inj '.').mp hpoint)
      exact (isDigit_iff d).mpr hd
  · rename_i hpoint
    rw [integer_text]
    refine ⟨reads_integer hdigits, longestWord_digits hdigits hbehind fun fraction hword hbegins ↦
      ?_⟩
    obtain ⟨d, more, rfl, -⟩ := hword.exists_cons
    obtain ⟨tail, htail⟩ := hbegins
    exact hpoint d (more ++ tail) (by simpa using htail.symm)

end Number

/-! ### Signs -/

theorem ofSymbol?_eq_some_iff {c : Char} {kind : TokenKind} (hc : c ≠ ':') :
    TokenKind.ofSymbol? c = some kind ↔ ([c], kind) ∈ signs := by
  constructor
  · intro h
    unfold TokenKind.ofSymbol? at h
    split at h <;> cases h <;> decide
  · intro h
    simp only [signs, List.mem_cons, Prod.mk.injEq, List.cons.injEq, List.not_mem_nil, or_false,
      reduceCtorEq, and_false, false_and, hc, false_or, and_true] at h
    rcases h with h | h | h | h | h | h | h | h | h | h <;> obtain ⟨rfl, rfl⟩ := h <;> rfl

section Sign

variable {c : Char} {rest : List Char}

/-- A word that is neither a name nor a number is one character, or the colon with the equals sign
behind it. -/
theorem eq_of_prefix_of_reads (hletter : ¬ IsLetter c) (hdigit : ¬ IsDigit c) {other : List Char}
    {reading : Reading} (hbegins : other <+: c :: rest) (hreads : Reads other reading) :
    (∃ kind, (other, kind) ∈ signs) ∧
      (other = [c] ∨ c = ':' ∧ other = [':', '='] ∧ ['='] <+: rest) := by
  have hall : ∀ sign ∈ signs, sign.1.tail = [] ∨ sign.1 = [':', '='] := by decide
  obtain ⟨d, more, rfl⟩ := List.exists_cons_of_ne_nil hreads.ne_nil
  obtain ⟨rfl, hmore⟩ := List.cons_prefix_cons.mp hbegins
  obtain ⟨kind, hsign⟩ := hreads.exists_mem_signs hletter hdigit
  refine ⟨⟨kind, hsign⟩, ?_⟩
  rcases hall _ hsign with hnil | hcolon
  · exact .inl (by simpa using hnil)
  · cases hcolon
    exact .inr ⟨rfl, rfl, hmore⟩

/-- A sign is the longest word unless it is a colon with an equals sign behind it. -/
theorem longestWord_sign {kind : TokenKind} (hletter : ¬ IsLetter c) (hdigit : ¬ IsDigit c)
    (hsign : ([c], kind) ∈ signs) (hassign : c = ':' → ¬ ['='] <+: rest) :
    LongestWord [c] (c :: rest) where
  isPrefix := by simp
  exists_reads := ⟨_, .sign hsign⟩
  length_le other reading hbegins hreads := by
    rcases (eq_of_prefix_of_reads hletter hdigit hbegins hreads).2 with rfl | ⟨hc, -, hequal⟩
    · exact Nat.le_refl _
    · exact absurd hequal (hassign hc)

theorem symbol_spec (hletter : ¬ IsLetter c) (hdigit : ¬ IsDigit c) :
    ((∃ reading, (symbol c rest).reading? = some reading ∧ Reads (symbol c rest).text reading) ∧
        LongestWord (symbol c rest).text (c :: rest)) ∨
      symbol c rest = ⟨.strayCharacter c, [c]⟩ ∧
        ∀ word reading, word <+: c :: rest → ¬ Reads word reading := by
  unfold symbol
  split
  · rename_i more
    have hsign : ([':', '='], TokenKind.assign) ∈ signs := by decide
    refine .inl ⟨⟨_, rfl, .sign hsign⟩, by simp, ⟨_, .sign hsign⟩, ?_⟩
    intro other reading hbegins hreads
    rcases (eq_of_prefix_of_reads hletter hdigit hbegins hreads).2 with rfl | ⟨-, rfl, -⟩
    · simp
    · exact Nat.le_refl _
  · rename_i hequal
    have hsign : ([':'], TokenKind.colon) ∈ signs := by decide
    refine .inl ⟨⟨_, rfl, .sign hsign⟩, longestWord_sign hletter hdigit hsign ?_⟩
    rintro - ⟨tail, rfl⟩
    exact hequal tail rfl
  · rename_i hcolon _
    have hc : c ≠ ':' := hcolon
    cases hkind : TokenKind.ofSymbol? c with
    | some kind =>
      have hsign := (ofSymbol?_eq_some_iff hc).mp hkind
      exact .inl ⟨⟨_, rfl, .sign hsign⟩, longestWord_sign hletter hdigit hsign fun h ↦ absurd h hc⟩
    | none =>
      refine .inr ⟨rfl, fun word reading hbegins hreads ↦ ?_⟩
      obtain ⟨⟨kind, hsign⟩, rfl | ⟨h, -⟩⟩ := eq_of_prefix_of_reads hletter hdigit hbegins hreads
      · simp [(ofSymbol?_eq_some_iff hc).mpr hsign] at hkind
      · exact hc h

end Sign

/-! ### Tiles -/

theorem tileAt_of_blank {c : Char} (h : c ∈ blanks) (rest : List Char) :
    tileAt c rest = ⟨.blank, [c]⟩ := by
  rw [tileAt, if_pos ((isBlank_iff c).mpr h)]

theorem tileAt_of_comment (rest : List Char) :
    tileAt '/' ('/' :: rest) = ⟨.comment, '/' :: '/' :: rest.takeWhile (· != '\n')⟩ :=
  rfl

/-- Where a blank or a comment starts, the tile is this blank, or the comment up to the end of its
line. -/
theorem tileAt_gap {c : Char} {more behind : List Char}
    (htext : (tileAt c (more ++ behind)).text = c :: more)
    (hgap : StartsWithGap (c :: (more ++ behind))) :
    (c ∈ blanks ∧ more = [] ∧ tileAt c (more ++ behind) = ⟨.blank, [c]⟩) ∨
      ∃ body, c = '/' ∧ more = '/' :: body ∧ '\n' ∉ body ∧ (∀ d ∈ behind.head?, d = '\n') ∧
        tileAt c (more ++ behind) = ⟨.comment, '/' :: '/' :: body⟩ := by
  rcases hgap with ⟨d, hd, hbegins⟩ | hbegins
  · obtain ⟨rfl, -⟩ := List.cons_prefix_cons.mp hbegins
    have hblank := tileAt_of_blank hd (more ++ behind)
    rw [hblank, List.cons.injEq] at htext
    exact .inl ⟨hd, htext.2.symm, hblank⟩
  · obtain ⟨rfl, tail, htail⟩ := List.cons_prefix_cons.mp hbegins
    simp only [List.cons_append, List.nil_append] at htail
    have hcomment := tileAt_of_comment tail
    rw [htail] at hcomment
    rw [hcomment, List.cons.injEq] at htext
    obtain ⟨-, rfl⟩ := htext
    have hend : behind = tail.dropWhile (· != '\n') := by
      rw [List.cons_append, List.cons.injEq] at htail
      have hsplit := List.takeWhile_append_dropWhile (p := (· != '\n')) (l := tail)
      exact List.append_cancel_left (htail.2.symm.trans hsplit.symm)
    refine .inr ⟨_, rfl, rfl, fun hmem ↦ ?_, fun d hd ↦ ?_, hcomment⟩
    · simpa using List.mem_takeWhile_imp hmem
    · have hhead := List.head?_dropWhile_not (· != '\n') tail
      rw [← hend, Option.mem_def.mp hd] at hhead
      simpa using hhead

/-- Where no blank and no comment starts, the tile is the longest word, or there is no word. -/
theorem tileAt_spec {c : Char} {rest : List Char} (hgap : ¬ StartsWithGap (c :: rest)) :
    ((∃ reading, (tileAt c rest).reading? = some reading ∧ Reads (tileAt c rest).text reading) ∧
        LongestWord (tileAt c rest).text (c :: rest)) ∨
      tileAt c rest = ⟨.strayCharacter c, [c]⟩ ∧
        ∀ word reading, word <+: c :: rest → ¬ Reads word reading := by
  have hblank : ¬ isBlank c = true := fun h ↦ hgap (startsWithGap_blank ((isBlank_iff c).mp h) rest)
  have hcomment : ¬ (c == '/' && rest.head? == some '/') = true := by
    simp only [Bool.and_eq_true, beq_iff_eq, not_and]
    rintro rfl hhead
    obtain ⟨more, rfl⟩ := List.head?_eq_some_iff.mp hhead
    exact hgap (startsWithGap_comment more)
  unfold tileAt
  rw [if_neg hblank, if_neg hcomment]
  split
  · rename_i hletter
    have hletter := (isIdentStart_iff c).mp hletter
    exact .inl ⟨reads_word (isName_cons_takeWhile hletter rest), longestWord_name hletter rest⟩
  · rename_i hletter
    rw [isIdentStart_iff] at hletter
    split
    · rename_i hdigit
      have hbehind : ∀ d ∈ (rest.dropWhile Char.isDigit).head?, d.isDigit = false := by
        intro d hd
        have hhead := List.head?_dropWhile_not Char.isDigit rest
        rw [Option.mem_def.mp hd] at hhead
        simpa using hhead
      have hnumeral := isNumeral_cons_takeWhile ((isDigit_iff c).mp hdigit) rest
      have hnumber := number_spec hnumeral hbehind
      rw [List.cons_append, List.takeWhile_append_dropWhile] at hnumber
      exact .inl hnumber
    · rename_i hdigit
      rw [isDigit_iff] at hdigit
      exact symbol_spec hletter hdigit

end Tile

/-! ### Scans -/

/-- The tiles of a text, apart from blanks and comments, are the longest words in it and the
characters that no word starts with. -/
theorem munches_tiles (text : List Char) : Munches text ((tiles text).filterMap Tile.reading?) := by
  fun_induction tiles text with
  | case1 => exact .done
  | case2 c rest tile ih =>
    obtain ⟨more, htext, behind, rfl⟩ := Tile.tileAt_text c rest
    have htile : tile = Tile.tileAt c (more ++ behind) := rfl
    have hbehind : (more ++ behind).drop (tile.text.length - 1) = behind := by
      rw [htile, htext]
      simp
    rw [hbehind] at ih ⊢
    by_cases hgap : StartsWithGap (c :: (more ++ behind))
    · rcases Tile.tileAt_gap htext hgap with
        ⟨hblank, rfl, hshape⟩ | ⟨body, rfl, rfl, hbody, hend, hshape⟩
      · rw [htile, hshape]
        exact .blank hblank ih
      · rw [htile, hshape]
        exact .comment hbody hend ih
    · rcases Tile.tileAt_spec hgap with ⟨⟨reading, hreading, hreads⟩, hlongest⟩ | ⟨hstray, hnone⟩
      · rw [htext] at hreads hlongest
        rw [htile, List.filterMap_cons_some hreading]
        exact .word hgap hlongest hreads ih
      · rw [hstray] at htext
        cases htext
        rw [htile, hstray]
        exact .stray hgap hnone ih

/-- The finding of a tile is read as the tile is. -/
theorem finding?_reading (file : String) (lines : Array (List Char)) (place : Place) (tile : Tile) :
    (tile.finding? file lines place).map Finding.reading = tile.reading? := by
  unfold Tile.finding? Tile.reading?
  cases tile.shape <;> rfl

theorem findingsFrom_reading (file : String) (lines : Array (List Char)) (place : Place)
    (pieces : List Tile) :
    (findingsFrom file lines place pieces).map Finding.reading =
      pieces.filterMap Tile.reading? := by
  induction pieces generalizing place with
  | nil => rfl
  | cons tile more ih =>
    have hfinding := finding?_reading file lines place tile
    rw [findingsFrom, List.filterMap_cons, ← hfinding, ← ih (place.behind tile.text)]
    cases tile.finding? file lines place <;> rfl

theorem tokens_reading (findings : List Finding) :
    (findings.filterMap Finding.token?).map Token.reading =
      (findings.map Finding.reading).filter Reading.isToken := by
  induction findings with
  | nil => rfl
  | cons finding more ih =>
    cases finding with
    | token found =>
      rw [List.filterMap_cons_some (f := Finding.token?) rfl, List.map_cons, ih, List.map_cons,
        List.filter_cons_of_pos rfl]
      rfl
    | fault found =>
      rw [List.filterMap_cons_none rfl, ih, List.map_cons,
        List.filter_cons_of_neg Bool.false_ne_true]

theorem faults_reading (findings : List Finding) :
    (findings.filterMap Finding.fault?).map Diagnostic.reading =
      (findings.map Finding.reading).filter (!·.isToken) := by
  induction findings with
  | nil => rfl
  | cons finding more ih =>
    cases finding with
    | token found =>
      rw [List.filterMap_cons_none rfl, ih, List.map_cons,
        List.filter_cons_of_neg Bool.false_ne_true]
    | fault found =>
      rw [List.filterMap_cons_some (f := Finding.fault?) rfl, List.map_cons, ih, List.map_cons,
        List.filter_cons_of_pos rfl]
      rfl

theorem Scanning.Reads.lexeme_eq {word : List Char} {kind : TokenKind} {lexeme : String}
    {value : Option Int} (h : Reads word (.token kind lexeme value)) :
    lexeme = String.ofList word := by
  cases h <;> rfl

/-- What a text is read as are words, the faults apart. -/
theorem Scanning.Munches.reads_of_mem {text : List Char} {readings : List Reading}
    (h : Munches text readings) {kind : TokenKind} {lexeme : String} {value : Option Int}
    (hmem : .token kind lexeme value ∈ readings) :
    Reads lexeme.toList (.token kind lexeme value) := by
  induction h with
  | done => cases hmem
  | blank _ _ ih | comment _ _ _ ih => exact ih hmem
  | word _ _ hreads _ ih =>
    rcases List.mem_cons.mp hmem with rfl | hmem
    · rwa [hreads.lexeme_eq, String.toList_ofList, ← hreads.lexeme_eq]
    · exact ih hmem
  | stray _ _ _ ih =>
    rcases List.mem_cons.mp hmem with hstray | hmem
    · cases hstray
    · exact ih hmem

/-- The tokens and faults of a scan are what its text is read as. -/
theorem scan_of_munches {text : String} {readings : List Reading}
    (h : Munches text.toList readings) (file : String) :
    (scan file text).stream.pending.map Token.reading = readings.filter Reading.isToken ∧
      (scan file text).faults.map Diagnostic.reading = readings.filter (!·.isToken) := by
  have hreadings := findingsFrom_reading file (Text.lineFeedLines text.toList).toArray .start
    (tiles text.toList)
  rw [← h.unique (munches_tiles text.toList)] at hreadings
  rw [← hreadings, ← tokens_reading, ← faults_reading]
  exact ⟨rfl, rfl⟩

/-- Every token of a scan but the one at the end is a word and is read as itself. -/
theorem reads_of_mem_pending {file text : String} {token : Token}
    (h : token ∈ (scan file text).stream.pending) : Reads token.lexeme.toList token.reading := by
  have hmunches := munches_tiles text.toList
  have hmem := List.mem_map_of_mem (f := Token.reading) h
  rw [(scan_of_munches hmunches file).1] at hmem
  exact hmunches.reads_of_mem (List.mem_filter.mp hmem).1

/-- A text is munched in exactly one way, and what it is read as then are the tokens of its scan, in
front of the one at the end, and the faults of its scan. -/
theorem scan_munches (file text : String) :
    ∃ readings, (∀ others, Munches text.toList others ↔ others = readings) ∧
      (scan file text).tokens.map Token.reading =
        readings.filter Reading.isToken ++ [.token .endOfFile "" none] ∧
      (scan file text).faults.map Diagnostic.reading = readings.filter (!·.isToken) := by
  have hmunches := munches_tiles text.toList
  have hreadings := findingsFrom_reading file (Text.lineFeedLines text.toList).toArray .start
    (tiles text.toList)
  refine ⟨_, fun others ↦ ⟨fun h ↦ h.unique hmunches, fun h ↦ h ▸ hmunches⟩, ?_, ?_⟩
  · rw [← hreadings, ← tokens_reading]
    simp only [Scan.tokens, TokenStream.toList, List.map_append]
    rfl
  · rw [← hreadings, ← faults_reading]
    rfl

end StackCompiler
