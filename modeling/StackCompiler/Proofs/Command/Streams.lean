import StackCompiler.Command.Tools

/-!
# What a command shows

A command shows line by line what it says and what it warns of, and both are plain text
(`Console.shown_printLines`); events are shown as they are (`Console.err_log`). A text without an
escape character is plain already (`Text.plain_eq_self`). Showing something changes no file, and
takes nothing back (`Console.Extends`).

On streams that take every text a command shows all that it has to show and goes on
(`Console.tellLines_free`, `Console.failWith_free`).
-/

set_option autoImplicit false
set_option relaxedAutoImplicit false

namespace StackCompiler

/-! ### Plain text -/

namespace Text

theorem behindOrder?_of_ne {c : Char} (h : c ≠ '\x1b') (rest : List Char) :
    behindOrder? (c :: rest) = none := by
  unfold behindOrder?
  split
  · rename_i htext
    exact absurd (List.cons.inj htext).1 h
  · rfl

/-- Text without an escape character holds no orders. -/
theorem plain_eq_self {text : String} (h : '\x1b' ∉ text.toList) : plain text = text := by
  have hdrop : ∀ characters : List Char, '\x1b' ∉ characters →
      dropOrders characters = characters := by
    intro characters hfree
    induction characters with
    | nil => rw [dropOrders]
    | cons c rest ih =>
      have hc : c ≠ '\x1b' := fun hc ↦ hfree (hc ▸ List.mem_cons_self)
      have hrest := ih fun hmem ↦ hfree (List.mem_cons_of_mem _ hmem)
      rw [dropOrders]
      split
      · rename_i hbehind
        rw [behindOrder?_of_ne hc] at hbehind
        cases hbehind
      · rw [hrest]
  rw [plain, hdrop _ h, String.ofList_toList]

end Text

namespace Command

/-- Lines, each closed by a line feed. -/
def linesText (lines : List String) : String :=
  String.join (lines.map fun line ↦ line ++ "\n")

theorem linesText_cons (line : String) (more : List String) :
    linesText (line :: more) = line ++ "\n" ++ linesText more := by
  rw [linesText, List.map_cons, String.join_cons]
  rfl

namespace Console

variable (console : Console) (stream : Stream) (text : String) (lines : List String)

@[simp] theorem console_ends (status : ExitStatus) : (console.ends status).console = console :=
  rfl

/-! ### Texts -/

@[simp] theorem files_print : (console.print stream text).files = console.files := by
  cases stream <;> rfl

@[simp] theorem files_warn (line : String) : (console.warn line).files = console.files :=
  rfl

theorem shown_print (other : Stream) : (console.print stream text).shown other =
    if other = stream then console.shown stream ++ text else console.shown other := by
  cases stream <;> cases other <;> rfl

/-! ### Lines -/

/-- Shows lines, one after another. -/
def printLines : Console :=
  lines.foldl (fun console line ↦ console.print stream (lineText line)) console

@[simp] theorem files_printLines : (console.printLines stream lines).files = console.files := by
  unfold printLines
  induction lines generalizing console with
  | nil => rfl
  | cons line more ih => exact (ih _).trans (console.files_print stream _)

/-- Lines are shown on their stream as plain text, and nothing on the other one. -/
theorem shown_printLines (other : Stream) : (console.printLines stream lines).shown other =
    if other = stream then console.shown stream ++ linesText (lines.map Text.plain)
    else console.shown other := by
  unfold printLines
  induction lines generalizing console with
  | nil => by_cases hother : other = stream <;> simp [linesText, hother]
  | cons line more ih =>
    rw [List.foldl_cons, ih, shown_print, shown_print, if_pos rfl, List.map_cons, linesText_cons]
    by_cases hother : other = stream
    · rw [if_pos hother, if_pos hother, String.append_assoc]
      rfl
    · rw [if_neg hother, if_neg hother, if_neg hother]

theorem err_printLines_out : (console.printLines .out lines).err = console.err :=
  console.shown_printLines .out lines .err

theorem err_printLines_err :
    (console.printLines .err lines).err = console.err ++ linesText (lines.map Text.plain) :=
  console.shown_printLines .err lines .err

/-! ### Events -/

@[simp] theorem files_log : (console.log lines).files = console.files :=
  rfl

@[simp] theorem out_log : (console.log lines).out = console.out :=
  rfl

theorem err_log : (console.log lines).err = console.err ++ linesText lines := by
  have hfold : ∀ shown : String, lines.foldl (fun shown line ↦ shown ++ line ++ "\n") shown =
      shown ++ linesText lines := by
    induction lines with
    | nil => intro shown; simp [linesText]
    | cons line more ih =>
      intro shown
      rw [List.foldl_cons, ih, linesText_cons]
      simp only [String.append_assoc]
  exact hfold console.err

/-! ### Failures -/

@[simp] theorem files_failWith (outlet : Outlet) (failure : Failure) :
    (console.failWith outlet failure).console.files = console.files := by
  unfold failWith
  dsimp only
  split <;> rfl

theorem out_failWith (outlet : Outlet) (failure : Failure) :
    (console.failWith outlet failure).console.out = console.out := by
  unfold failWith
  dsimp only
  split <;> rfl

/-! ### Streams that take every text -/

section Free

variable (next : Console → Outcome)

theorem tell_free : console.tell .free stream text next = next (console.print stream text) :=
  rfl

theorem tellLines_free :
    console.tellLines .free stream lines next = next (console.printLines stream lines) := by
  induction lines generalizing console with
  | nil => rfl
  | cons line more ih => exact ih (console.print stream (lineText line))

theorem failWith_free (failure : Failure) : console.failWith .free failure =
    (console.warn (failure.status.announce failure.message)).ends failure.status :=
  rfl

end Free

/-! ### Consoles that show more -/

/-- The later console shows what the former one does, and may show more behind it. -/
def Extends (later former : Console) : Prop :=
  ∀ stream, (former.shown stream).toList <+: (later.shown stream).toList

namespace Extends

variable {first second third : Console}

theorem refl (console : Console) : console.Extends console :=
  fun _ ↦ List.prefix_rfl

theorem trans (h : third.Extends second) (hother : second.Extends first) : third.Extends first :=
  fun stream ↦ (hother stream).trans (h stream)

theorem print (console : Console) (stream : Stream) (text : String) :
    (console.print stream text).Extends console := by
  intro other
  rw [shown_print]
  split
  · rename_i hother
    rw [hother, String.toList_append]
    exact List.prefix_append ..
  · exact List.prefix_rfl

theorem printLines (console : Console) (stream : Stream) (lines : List String) :
    (console.printLines stream lines).Extends console := by
  unfold Console.printLines
  induction lines generalizing console with
  | nil => exact .refl console
  | cons line more ih => exact (ih _).trans (.print console stream _)

theorem log (console : Console) (lines : List String) : (console.log lines).Extends console := by
  intro stream
  cases stream with
  | out => exact List.prefix_rfl
  | err =>
    change console.err.toList <+: (console.log lines).err.toList
    rw [err_log, String.toList_append]
    exact List.prefix_append ..

end Extends

end Console

end Command

end StackCompiler
