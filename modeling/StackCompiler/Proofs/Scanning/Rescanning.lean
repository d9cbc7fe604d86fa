import Mathlib.Data.List.Forall2
import StackCompiler.Proofs.Execution.Literals
import StackCompiler.Proofs.Scanning.Places

/-!
# Words written out and scanned again

The tokens of a scan, written one after another, are scanned again as what they were, if something
stands between any two of them that begins with a blank and consists of blanks and of comments that
end with their line (`scan_separates`). Whatever else was in the text is gone by then: its faults
and its own spacing. So writing the tokens with single spaces between them is done once for all.

In front of a blank every word is the longest one (`LongestWord.of_blank`), so a text of words with
separators between them is munched as these words (`Munches.of_separates`). Only what is behind the
colon, a slash, digits or a name could make a longer word or a comment of them, and a blank does
not.
-/

set_option autoImplicit false
set_option relaxedAutoImplicit false

namespace StackCompiler

open Scanning

namespace Scanning

/-! ### Separators -/

/-- Blanks, and comments that are closed by a line feed. -/
inductive IsPadding : List Char → Prop
  | nil : IsPadding []
  | blank {c : Char} {rest : List Char} (hblank : c ∈ blanks) (hrest : IsPadding rest) :
      IsPadding (c :: rest)
  | comment {body rest : List Char} (hbody : '\n' ∉ body) (hrest : IsPadding rest) :
      IsPadding ('/' :: '/' :: (body ++ '\n' :: rest))

/-- Padding that begins with a blank. -/
def IsSeparator (text : List Char) : Prop :=
  ∃ c rest, text = c :: rest ∧ c ∈ blanks ∧ IsPadding rest

/-- A text consists of words, one after another, with a separator between any two of them. -/
inductive Separates : List (List Char) → List Char → Prop
  | nil : Separates [] []
  | single (word : List Char) : Separates [word] word
  | cons {word next separator text : List Char} {more : List (List Char)}
      (hseparator : IsSeparator separator) (hmore : Separates (next :: more) text) :
      Separates (word :: next :: more) (word ++ (separator ++ text))

theorem IsPadding.munches {padding text : List Char} {readings : List Reading}
    (h : IsPadding padding) (htext : Munches text readings) :
    Munches (padding ++ text) readings := by
  induction h with
  | nil => exact htext
  | blank hblank _ ih => exact .blank hblank ih
  | @comment body rest hbody _ ih =>
    have hlineFeed : Munches ('\n' :: (rest ++ text)) readings := .blank (by decide) ih
    have hcomment := Munches.comment hbody (by simp) hlineFeed
    simpa using hcomment

/-! ### Words in front of blanks -/

section Word

variable {word behind : List Char} {reading : Reading}

/-- No word begins with a comment. -/
theorem Reads.not_startsWithGap (h : Reads word reading)
    (hbehind : ∀ c ∈ behind.head?, c ∈ blanks) :
    ¬ StartsWithGap (word ++ behind) := by
  have hsigns : ∀ sign ∈ signs, sign.1.head? = some '/' → sign.1 = ['/'] := by decide
  obtain ⟨c, more, rfl⟩ := List.exists_cons_of_ne_nil h.ne_nil
  rintro (⟨d, hd, hprefix⟩ | hprefix)
  · obtain ⟨rfl, -⟩ := List.cons_prefix_cons.mp hprefix
    exact h.not_mem_blanks d List.mem_cons_self hd
  · obtain ⟨rfl, hslash⟩ := List.cons_prefix_cons.mp hprefix
    obtain ⟨kind, hsign⟩ := h.exists_mem_signs (by decide) (by decide)
    obtain rfl : more = [] := by simpa using hsigns _ hsign rfl
    obtain ⟨rest, rfl⟩ := hslash
    exact absurd (hbehind '/' rfl) (by decide)

/-- In front of a blank, or at the end, a word is the longest one: no word holds a blank. -/
theorem LongestWord.of_blank (h : Reads word reading) (hbehind : ∀ c ∈ behind.head?, c ∈ blanks) :
    LongestWord word (word ++ behind) where
  isPrefix := List.prefix_append word behind
  exists_reads := ⟨reading, h⟩
  length_le other found hprefix hreads := by
    refine Nat.le_of_not_lt fun hlonger ↦ ?_
    obtain ⟨tail, rfl⟩ : word <+: other :=
      List.prefix_of_prefix_length_le (List.prefix_append word behind) hprefix
        (Nat.le_of_lt hlonger)
    obtain ⟨c, rest, rfl⟩ : ∃ c rest, tail = c :: rest :=
      List.exists_cons_of_ne_nil fun hnil ↦ by simp [hnil] at hlonger
    obtain ⟨later, rfl⟩ := (List.prefix_append_right_inj word).mp hprefix
    exact hreads.not_mem_blanks c (by simp) (hbehind c rfl)

end Word

/-- A text of words with separators between them is read as the words. -/
theorem Munches.of_separates {words : List (List Char)} {text : List Char}
    {readings : List Reading} (h : Separates words text)
    (hreads : List.Forall₂ Reads words readings) :
    Munches text readings := by
  induction h generalizing readings with
  | nil =>
    cases hreads
    exact .done
  | single word =>
    obtain ⟨reading, hword, rfl⟩ : ∃ reading, Reads word reading ∧ readings = [reading] := by
      cases hreads with
      | cons hword hnil => cases hnil; exact ⟨_, hword, rfl⟩
    have hend : ∀ c ∈ ([] : List Char).head?, c ∈ blanks := by simp
    have hmunches := Munches.word (hword.not_startsWithGap hend) (.of_blank hword hend) hword .done
    rwa [List.append_nil] at hmunches
  | cons hseparator _ ih =>
    obtain ⟨c, rest, rfl, hblank, hpadding⟩ := hseparator
    cases hreads with
    | cons hword hmore =>
      have hbehind : Munches (c :: rest ++ _) _ := .blank hblank (hpadding.munches (ih hmore))
      have hhead : ∀ d ∈ (c :: rest).head?, d ∈ blanks := by simpa using hblank
      exact .word (hword.not_startsWithGap hhead) (.of_blank hword hhead) hword hbehind

end Scanning

/-! ### Scans -/

/-- All of a token but its place. -/
def Token.meaning (token : Token) : TokenKind × String × Option Literal :=
  (token.kind, token.lexeme, token.literal)

/-- What the token means that is made of a reading. -/
def Scanning.Reading.meaning? : Reading → Option (TokenKind × String × Option Literal)
  | .token kind lexeme _ => some (kind, lexeme, kind.value? lexeme.toList)
  | .fault _ => none

theorem meaning_of_pending {file text : String} {token : Token}
    (h : token ∈ (scan file text).stream.pending) :
    token.reading.meaning? = some token.meaning := by
  have hliteral := literal_of_mem_tokens (List.mem_append_left _ h)
  simp only [Token.meaning, hliteral]
  rfl

/-- What a token of a scan means is what it is read as: the value of a literal is in its digits. -/
theorem meaning_of_readings {file text other written : String}
    (h : (scan file text).stream.pending.map Token.reading =
      (scan other written).stream.pending.map Token.reading) :
    (scan file text).stream.pending.map Token.meaning =
      (scan other written).stream.pending.map Token.meaning := by
  have hmeaning (file text : String) :
      ((scan file text).stream.pending.map Token.meaning).map some =
        ((scan file text).stream.pending.map Token.reading).map Reading.meaning? := by
    rw [List.map_map, List.map_map]
    exact List.map_congr_left fun token hmem ↦ (meaning_of_pending hmem).symm
  apply List.map_injective_iff.mpr (Option.some_injective _)
  rw [hmeaning, hmeaning, h]

/-- The words that tokens are written with, the one at the end apart. -/
def TokenStream.words (stream : TokenStream) : List (List Char) :=
  (stream.pending.map Token.lexeme).map String.toList

/-- The words of a text without its faults, with single spaces between them. -/
def respaced (file text : String) : String :=
  " ".intercalate ((scan file text).stream.pending.map Token.lexeme)

theorem separates_intercalate (words : List String) :
    Separates (words.map String.toList) (" ".intercalate words).toList := by
  have hspace : IsSeparator [' '] := ⟨' ', [], rfl, by decide, .nil⟩
  induction words with
  | nil => simpa using Separates.nil
  | cons word more ih =>
    cases more with
    | nil => simpa using Separates.single word.toList
    | cons next more =>
      rw [String.intercalate_cons_cons, String.append_assoc, String.toList_append,
        String.toList_append]
      exact .cons hspace ih

/-- Every token of a scan but the one at the end is read as the token that it is. -/
theorem forall₂_reads_pending (file text : String) :
    List.Forall₂ Reads (scan file text).stream.words
      ((scan file text).stream.pending.map Token.reading) := by
  rw [TokenStream.words, List.map_map, List.forall₂_map_left_iff, List.forall₂_map_right_iff,
    List.forall₂_same]
  exact fun _ ↦ reads_of_mem_pending

/-- The words of a scan with separators between them are scanned without faults as the tokens that
they are. -/
theorem readings_of_separates {file text written : String}
    (h : Separates (scan file text).stream.words written.toList) (other : String) :
    (scan other written).faults = [] ∧
      (scan other written).stream.pending.map Token.reading =
        (scan file text).stream.pending.map Token.reading := by
  obtain ⟨hpending, hfaults⟩ :=
    scan_of_munches (Munches.of_separates h (forall₂_reads_pending file text)) other
  have htokens :
      ((scan file text).stream.pending.map Token.reading).all Reading.isToken = true := by
    simp [Token.reading, Reading.isToken]
  rw [List.all_eq_true] at htokens
  rw [List.filter_eq_self.mpr htokens] at hpending
  rw [List.filter_eq_nil_iff.mpr fun reading hmem ↦ by simp [htokens reading hmem],
    List.map_eq_nil_iff] at hfaults
  exact ⟨hfaults, hpending⟩

/-- The tokens of a scan, written with separators between them, are scanned without faults as the
same kinds, lexemes and literals. Writing them with single spaces changes such a text no more. -/
theorem scan_separates (file text other written : String)
    (h : Separates (scan file text).stream.words written.toList) :
    (scan other written).faults = [] ∧
      (scan other written).stream.pending.map Token.meaning =
        (scan file text).stream.pending.map Token.meaning ∧
      Separates (scan file text).stream.words (respaced file text).toList ∧
      respaced other (respaced file text) = respaced file text := by
  have hrespaced : Separates (scan file text).stream.words (respaced file text).toList :=
    separates_intercalate _
  obtain ⟨hfaults, hpending⟩ := readings_of_separates h other
  obtain ⟨-, hagain⟩ := readings_of_separates hrespaced other
  refine ⟨hfaults, meaning_of_readings hpending, hrespaced, ?_⟩
  have hlexemes : (scan other (respaced file text)).stream.pending.map Token.lexeme =
      (scan file text).stream.pending.map Token.lexeme := by
    have hmeaning := congrArg (List.map fun meaning ↦ meaning.2.1) (meaning_of_readings hagain)
    simpa [Token.meaning, Function.comp_def] using hmeaning
  change " ".intercalate _ = " ".intercalate _
  rw [hlexemes]

/-- The colon and the equals sign of this text are apart, one character is stray, and a comment
stands between two of the words that are written again. -/
theorem scan_separates_strayCharacter :
    (scan "a.src" "k: =07?/1.5//").stream.words =
        [['k'], [':'], ['='], ['0', '7'], ['/'], ['1', '.', '5']] ∧
      (scan "b.src" "k\t: // := /\n= 07\r/\n 1.5").faults = [] ∧
      (scan "b.src" "k\t: // := /\n= 07\r/\n 1.5").stream.pending.map Token.meaning =
        (scan "a.src" "k: =07?/1.5//").stream.pending.map Token.meaning := by
  have hwords : (scan "a.src" "k: =07?/1.5//").stream.words =
      [['k'], [':'], ['='], ['0', '7'], ['/'], ['1', '.', '5']] := by
    decide +kernel
  have hblank {c : Char} (hc : c ∈ blanks) : IsSeparator [c] := ⟨c, [], rfl, hc, .nil⟩
  have hcomment : IsSeparator [' ', '/', '/', ' ', ':', '=', ' ', '/', '\n'] :=
    ⟨' ', _, rfl, by decide, .comment (by decide : '\n' ∉ [' ', ':', '=', ' ', '/']) .nil⟩
  have hpair : IsSeparator ['\n', ' '] := ⟨'\n', [' '], rfl, by decide, .blank (by decide) .nil⟩
  have hwritten : Separates (scan "a.src" "k: =07?/1.5//").stream.words
      "k\t: // := /\n= 07\r/\n 1.5".toList := by
    rw [hwords]
    exact .cons (hblank (by decide : '\t' ∈ blanks)) <| .cons hcomment <|
      .cons (hblank (by decide : ' ' ∈ blanks)) <| .cons (hblank (by decide : '\r' ∈ blanks)) <|
      .cons hpair <| .single ['1', '.', '5']
  obtain ⟨hfaults, hmeaning, -⟩ := scan_separates "a.src" _ "b.src" _ hwritten
  exact ⟨hwords, hfaults, hmeaning⟩

end StackCompiler
