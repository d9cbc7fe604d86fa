import StackCompiler.Text.Lines

/-!
# Two ways to cut a text into lines

Line numbers count line feeds, so they number the lines of `lineFeedLines`. `breakLines` cuts at
more characters, and its lines have the same numbers only as long as no such character has come up:
if the lines up to some line are plain, the line with that number in `breakLines` is this line, less
a carriage return at its end (`breakLines_of_isPlain`). Everything follows from what a cut makes of
a text with a stop in it (`cutAt_append_stop`).
-/

set_option autoImplicit false
set_option relaxedAutoImplicit false

namespace StackCompiler.Text

/-! ### Cuts -/

section Cuts

variable {stop : Char → Bool} {front : List Char}

theorem cutAt_cons (stop : Char → Bool) (c : Char) (rest : List Char) :
    cutAt stop (c :: rest) =
      if stop c then [] :: cutAt stop rest else consLine c (cutAt stop rest) :=
  rfl

theorem cutAt_cons_stop {c : Char} (hstop : stop c = true) (rest : List Char) :
    cutAt stop (c :: rest) = [] :: cutAt stop rest := by
  rw [cutAt_cons, if_pos hstop]

theorem cutAt_cons_of_not_stop {c : Char} (hstop : stop c = false) {rest line : List Char}
    {more : List (List Char)} (hrest : cutAt stop rest = line :: more) :
    cutAt stop (c :: rest) = (c :: line) :: more := by
  rw [cutAt_cons, if_neg (by simp [hstop]), hrest, consLine]

/-- Characters that are no stops go in front of the first line. -/
theorem cutAt_append_of_free (hfree : ∀ c ∈ front, stop c = false) {rest line : List Char}
    {more : List (List Char)} (hrest : cutAt stop rest = line :: more) :
    cutAt stop (front ++ rest) = (front ++ line) :: more := by
  induction front with
  | nil => exact hrest
  | cons c front ih =>
    exact cutAt_cons_of_not_stop (hfree c (by simp)) (ih fun d hd ↦ hfree d (by simp [hd]))

theorem cutAt_of_free (hfree : ∀ c ∈ front, stop c = false) : cutAt stop front = [front] := by
  have hempty : cutAt stop [] = [[]] := rfl
  simpa using cutAt_append_of_free hfree hempty

/-- A stop ends the line in front of it. -/
theorem cutAt_append_stop (hfree : ∀ c ∈ front, stop c = false) {c : Char}
    (hstop : stop c = true) (rest : List Char) :
    cutAt stop (front ++ c :: rest) = front :: cutAt stop rest := by
  simpa using cutAt_append_of_free hfree (cutAt_cons_stop hstop rest)

theorem exists_cutAt_eq_cons (stop : Char → Bool) (text : List Char) :
    ∃ line more, cutAt stop text = line :: more :=
  List.exists_cons_of_ne_nil (cutAt_ne_nil stop text)

theorem lineFeedLines_lineFeed (rest : List Char) :
    lineFeedLines ('\n' :: rest) = [] :: lineFeedLines rest :=
  rfl

/-- A word without line feeds goes in front of the first line. -/
theorem lineFeedLines_append_of_free {word : List Char} (hword : '\n' ∉ word)
    {rest row : List Char} {more : List (List Char)} (hrest : lineFeedLines rest = row :: more) :
    lineFeedLines (word ++ rest) = (word ++ row) :: more := by
  have hfree : ∀ c ∈ word, (c == '\n') = false := by
    rintro c hc
    exact beq_eq_false_iff_ne.mpr fun hsame ↦ hword (hsame ▸ hc)
  exact cutAt_append_of_free hfree hrest

/-- The lines of a text are those in front of its first line feed, and those behind it. -/
theorem lineFeedLines_cases (text : List Char) :
    ('\n' ∉ text ∧ lineFeedLines text = [text]) ∨
      ∃ row rest, '\n' ∉ row ∧ text = row ++ '\n' :: rest ∧
        lineFeedLines text = row :: lineFeedLines rest := by
  by_cases hmem : '\n' ∈ text
  · obtain ⟨row, rest, rfl, hrow⟩ := List.eq_append_cons_of_mem hmem
    have hlines := lineFeedLines_append_of_free hrow (lineFeedLines_lineFeed rest)
    rw [List.append_nil] at hlines
    exact .inr ⟨row, rest, hrow, rfl, hlines⟩
  · have hempty : lineFeedLines [] = [[]] := rfl
    have hlines := lineFeedLines_append_of_free hmem hempty
    rw [List.append_nil] at hlines
    exact .inl ⟨hmem, hlines⟩

end Cuts

/-! ### Carriage returns at the end of a line -/

/-- A line without the carriage return that it may end with. -/
def withoutReturn (row : List Char) : List Char :=
  if row.getLast? = some '\r' then row.dropLast else row

theorem withoutReturn_cases (row : List Char) :
    withoutReturn row = row ∧ row.getLast? ≠ some '\r' ∨ row = withoutReturn row ++ ['\r'] := by
  unfold withoutReturn
  split
  · rename_i hlast
    obtain ⟨front, rfl⟩ := List.getLast?_eq_some_iff.mp hlast
    exact .inr (by simp)
  · exact .inl ⟨rfl, ‹_›⟩

/-- A line in which nothing ends a line, a carriage return at its end apart. -/
def IsPlain (row : List Char) : Prop :=
  ∀ c ∈ withoutReturn row, isLineBreak c = false

instance : DecidablePred IsPlain :=
  fun row ↦ List.decidableBAll (fun c ↦ isLineBreak c = false) (withoutReturn row)

theorem joinPairs_cons_of_ne {c : Char} {rest : List Char}
    (h : c = '\r' → rest.head? ≠ some '\n') : joinPairs (c :: rest) = c :: joinPairs rest := by
  rw [joinPairs]
  rintro tail rfl rfl
  exact h rfl rfl

/-- Without line feeds there is nothing to join. -/
theorem joinPairs_of_free {row : List Char} (h : '\n' ∉ row) : joinPairs row = row := by
  induction row with
  | nil => rfl
  | cons c rest ih =>
    have hrest : '\n' ∉ rest := fun hmem ↦ h (List.mem_cons_of_mem _ hmem)
    rw [joinPairs_cons_of_ne fun _ hhead ↦ hrest (List.mem_of_head? hhead), ih hrest]

/-- In front of a line feed only the carriage return next to it goes. -/
theorem joinPairs_append_lineFeed {row : List Char} (h : '\n' ∉ row) (rest : List Char) :
    joinPairs (row ++ '\n' :: rest) = withoutReturn row ++ '\n' :: joinPairs rest := by
  induction row with
  | nil => rfl
  | cons c row ih =>
    have hrow : '\n' ∉ row := fun hmem ↦ h (List.mem_cons_of_mem _ hmem)
    cases row with
    | nil =>
      by_cases hc : c = '\r'
      · subst hc
        rfl
      · rw [List.cons_append, joinPairs_cons_of_ne fun h ↦ absurd h hc]
        simp [withoutReturn, hc, joinPairs]
    | cons d row =>
      have hd : d ≠ '\n' := fun h ↦ hrow (by simp [h])
      rw [List.cons_append, joinPairs_cons_of_ne (by simpa using fun _ ↦ hd), ih hrow]
      unfold withoutReturn
      split <;> simp_all

/-! ### Lines with the same number -/

theorem breakLines_prefix (text : List Char) :
    breakLines text <+: cutAt isLineBreak (joinPairs text) := by
  unfold breakLines
  simp only
  split
  · exact List.dropLast_prefix _
  · exact List.prefix_rfl

/-- Cut at all line ends, a text starts with the plain lines that it starts with. -/
theorem getElem?_cutAt_joinPairs {text row : List Char} {n : Nat}
    (hrow : (lineFeedLines text)[n]? = some row)
    (hplain : ∀ earlier ∈ (lineFeedLines text).take (n + 1), IsPlain earlier) :
    (cutAt isLineBreak (joinPairs text))[n]? = some (withoutReturn row) := by
  induction n generalizing text with
  | zero =>
    rcases lineFeedLines_cases text with ⟨hfree, hlines⟩ | ⟨first, rest, hfirst, rfl, hlines⟩
    · rw [hlines] at hrow hplain
      obtain rfl : text = row := by simpa using hrow
      have hline : IsPlain text := hplain text (by simp)
      rw [joinPairs_of_free hfree]
      rcases withoutReturn_cases text with ⟨hsame, -⟩ | hreturn
      · rw [IsPlain, hsame] at hline
        rw [hsame, cutAt_of_free hline]
        rfl
      · have hcut := cutAt_append_stop hline (c := '\r') (by decide) []
        rw [← hreturn] at hcut
        rw [hcut]
        rfl
    · rw [hlines] at hrow hplain
      obtain rfl : first = row := by simpa using hrow
      rw [joinPairs_append_lineFeed hfirst,
        cutAt_append_stop (hplain first (by simp)) (by decide)]
      rfl
  | succ n ih =>
    rcases lineFeedLines_cases text with ⟨-, hlines⟩ | ⟨first, rest, hfirst, rfl, hlines⟩
    · simp [hlines] at hrow
    · rw [hlines] at hrow hplain
      rw [List.take_succ_cons] at hplain
      rw [joinPairs_append_lineFeed hfirst,
        cutAt_append_stop (hplain first (by simp)) (by decide), List.getElem?_cons_succ]
      exact ih (by simpa using hrow) fun earlier hmem ↦ hplain earlier (by simp [hmem])

/-- As long as all lines are plain, they have the same numbers in both ways to cut. -/
theorem breakLines_of_isPlain {text row line : List Char} {n : Nat}
    (hrow : (lineFeedLines text)[n]? = some row)
    (hplain : ∀ earlier ∈ (lineFeedLines text).take (n + 1), IsPlain earlier)
    (hline : (breakLines text)[n]? = some line) : line = withoutReturn row := by
  obtain ⟨more, hmore⟩ := breakLines_prefix text
  have hcut := getElem?_cutAt_joinPairs hrow hplain
  rw [← hmore, List.getElem?_append_left (List.getElem?_eq_some_iff.mp hline).1, hline] at hcut
  exact Option.some.inj hcut

end StackCompiler.Text
