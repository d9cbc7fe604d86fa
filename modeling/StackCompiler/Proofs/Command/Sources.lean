import StackCompiler.Compilation.Files

/-!
# Source and code in files

What it takes to compile a source file, and what becomes of a tree of files when code is written. A
source that was compiled was read in the encoding of the options (`Platform.exists_of_compileFile`),
so this encoding is there when the code is written. Writing then depends on the place of the code
alone: where there can be no file the tree stays as it is (`Platform.writeCode_of_no_target`), and
where there can be one it has changed in this file, under all the names that the file has, and
nowhere else (`FileTree.changedAt_set`).
-/

set_option autoImplicit false
set_option relaxedAutoImplicit false

namespace StackCompiler

/-! ### Results of steps -/

section Steps

variable {ε ε' α β : Type} {x : Except ε α} {f : α → Except ε β} {g : ε → ε'}

theorem exists_of_bind_eq_ok {b : β} (h : (x >>= f) = .ok b) : ∃ a, x = .ok a ∧ f a = .ok b := by
  cases x with
  | error fault => cases h
  | ok a => exact ⟨a, rfl, h⟩

theorem cases_of_bind_eq_error {fault : ε} (h : (x >>= f) = .error fault) :
    x = .error fault ∨ ∃ a, x = .ok a ∧ f a = .error fault := by
  cases x with
  | error found => cases h; exact .inl rfl
  | ok a => exact .inr ⟨a, rfl, h⟩

theorem exists_of_map_eq_ok {k : α → β} {b : β} (h : x.map k = .ok b) :
    ∃ a, x = .ok a ∧ k a = b := by
  cases x with
  | error fault => cases h
  | ok a => exact ⟨a, rfl, Except.ok.inj h⟩

theorem exists_of_map_pair_eq_ok {γ : Type} {k : α → β} {l : α → γ} {b : β} {c : γ}
    (h : x.map (fun a ↦ (k a, l a)) = .ok (b, c)) : ∃ a, x = .ok a ∧ k a = b ∧ l a = c := by
  obtain ⟨a, ha, hpair⟩ := exists_of_map_eq_ok h
  exact ⟨a, ha, Prod.mk.inj hpair⟩

theorem eq_ok_of_mapError {a : α} (h : x.mapError g = .ok a) : x = .ok a := by
  cases x with
  | error fault => cases h
  | ok b => cases h; rfl

theorem exists_of_mapError_eq_error {fault : ε'} (h : x.mapError g = .error fault) :
    ∃ found, x = .error found ∧ fault = g found := by
  cases x with
  | error found => cases h; exact ⟨found, rfl, rfl⟩
  | ok a => cases h

end Steps

/-! ### Statuses -/

theorem ExitStatus.eq_of_code_eq {status other : ExitStatus} (h : status.code = other.code) :
    status = other := by
  cases status <;> cases other <;> first | rfl | cases h

namespace Failure

/-- A file is missing, or what was to be done with it is forbidden. -/
def IsMissingOrForbidden (failure : Failure) : Prop :=
  failure.error? = some .missingFile ∨ failure.error? = some .forbidden

/-- The failure is neither a diagnostic nor one of the words of a command line. -/
def IsOrdinary (failure : Failure) : Prop :=
  ∃ error, failure.error? = some error ∧ error ≠ .badParameter

variable {failure : Failure}

theorem IsOrdinary.code_status_eq_two_iff (h : failure.IsOrdinary) :
    failure.status.code = 2 ↔ failure.IsMissingOrForbidden := by
  obtain ⟨error, herror, hne⟩ := h
  rw [status, IsMissingOrForbidden, herror]
  cases error with
  | badParameter => exact absurd rfl hne
  | missingFile | forbidden | other => simp [ErrorClass.status, ExitStatus.code]

theorem IsOrdinary.code_status_eq_three_iff (h : failure.IsOrdinary) :
    failure.status.code = 3 ↔ ¬ failure.IsMissingOrForbidden := by
  obtain ⟨error, herror, hne⟩ := h
  rw [status, IsMissingOrForbidden, herror]
  cases error with
  | badParameter => exact absurd rfl hne
  | missingFile | forbidden | other => simp [ErrorClass.status, ExitStatus.code]

theorem IsOrdinary.status_ne_buildError (h : failure.IsOrdinary) :
    failure.status ≠ .buildError := by
  obtain ⟨error, herror, -⟩ := h
  rw [status, herror]
  cases error <;> nofun

theorem status_ne_success (failure : Failure) : failure.status ≠ .success := by
  rw [status]
  split
  · nofun
  · rename_i error _
    cases error <;> nofun

end Failure

/-! ### Source and code in files -/

namespace FileTree

variable {names : List String}

/-- The later tree has this entry at these names and at every other name of the same file, and all
else is as in the former. -/
structure ChangedAt (before : FileTree) (names : List String) (entry : FileEntry)
    (after : FileTree) : Prop where
  working : after.working = before.working
  links : after.links = before.links
  aliases : after.aliases = before.aliases
  there : after.lookup names = some entry
  shared : ∀ other, other ≠ [] → before.home other = before.home names →
    after.lookup other = some entry
  elsewhere : ∀ other, before.home other ≠ before.home names →
    after.lookup other = before.lookup other

theorem changedAt_set (hnames : names ≠ []) (tree : FileTree) (entry : FileEntry) :
    tree.ChangedAt names entry (tree.set names entry) where
  working := tree.working_set names entry
  links := tree.links_set names entry
  aliases := tree.aliases_set names entry
  there := by rw [lookup_set hnames, if_pos rfl]
  shared other hother hhome := by rw [lookup_set hother, if_pos hhome]
  elsewhere other hhome := by
    by_cases hother : other = []
    · rw [hother]
      rfl
    · rw [lookup_set hother, if_neg hhome]

/-- What is written is never the root. -/
theorem ne_nil_of_target {tree : FileTree} {path : Path} {entry : FileEntry}
    (h : tree.target path = .ok (names, entry)) : names ≠ [] := by
  rintro rfl
  obtain ⟨found, -, h⟩ := exists_of_bind_eq_ok h
  split at h
  · cases h
  · rename_i hentry hfound
    split at h <;> cases h
    exact absurd (Option.some.inj hfound).symm (hentry _)
  · rename_i hnone
    repeat' split at h
    all_goals cases h
    cases hnone

end FileTree

namespace Platform

variable {platform : Platform} {options : Options} {tree : FileTree}

theorem codec_eq_ok_iff {name : String} {encoding : Text.Codec} :
    platform.codec name = .ok encoding ↔ platform.codec? name = some encoding := by
  unfold codec
  split <;> simp_all

/-- A source file that is compiled was read in the encoding of the options. -/
theorem exists_of_compileFile {source : String} {run : Run}
    (h : platform.compileFile options tree source = .ok run) :
    ∃ encoding file text, platform.codec? options.encoding = some encoding ∧
      compileWith platform.passes options.keepsOutline file text = .ok run := by
  unfold compileFile at h
  dsimp only at h
  split at h
  · cases h
  · obtain ⟨text, htext, hrun⟩ := exists_of_bind_eq_ok h
    obtain ⟨bytes, -, hread⟩ := exists_of_bind_eq_ok htext
    obtain ⟨encoding, hencoding, -⟩ := exists_of_bind_eq_ok hread
    exact ⟨encoding, _, text, codec_eq_ok_iff.mp hencoding, eq_ok_of_mapError hrun⟩

/-- What keeps a text from being read is an ordinary failure. -/
theorem isOrdinary_of_readText {encoding : String} {path : Path} {failure : Failure}
    (h : platform.readText tree encoding path = .error failure) : failure.IsOrdinary := by
  unfold readText at h
  rcases cases_of_bind_eq_error h with h | ⟨bytes, -, h⟩
  · obtain ⟨fault, -, rfl⟩ := exists_of_mapError_eq_error h
    cases fault <;> exact ⟨_, rfl, nofun⟩
  · rcases cases_of_bind_eq_error h with h | ⟨codec, -, h⟩
    · unfold Platform.codec at h
      split at h <;> cases h
      exact ⟨_, rfl, nofun⟩
    · rcases cases_of_bind_eq_error h with h | ⟨characters, -, h⟩
      · obtain ⟨words, -, rfl⟩ := exists_of_mapError_eq_error h
        exact ⟨_, rfl, nofun⟩
      · cases h

/-- What keeps a source file from being compiled is an ordinary failure. -/
theorem isOrdinary_of_compileFile {source : String} {failure : Failure}
    (h : platform.compileFile options tree source = .error failure) :
    failure.IsOrdinary := by
  unfold compileFile at h
  dsimp only at h
  split at h
  · rename_i fault _
    cases h
    cases fault <;> exact ⟨_, rfl, nofun⟩
  · rcases cases_of_bind_eq_error h with h | ⟨text, -, h⟩
    · exact isOrdinary_of_readText h
    · obtain ⟨found, -, rfl⟩ := exists_of_mapError_eq_error h
      exact ⟨_, rfl, nofun⟩

variable {result : Compilation} {code : List Instr} {path : Path}

theorem writeCode_of_no_target (hverdict : result.verdict = .compiled code) {fault : FileFault}
    (htarget : tree.target path = .error fault) :
    platform.writeCode options tree result path = (.error (.file fault path.text), tree) := by
  simp only [writeCode, hverdict, writeText, htarget]
  rfl

theorem writeCode_of_target (hverdict : result.verdict = .compiled code) {names : List String}
    {entry : FileEntry} (htarget : tree.target path = .ok (names, entry)) {encoding : Text.Codec}
    (hcodec : platform.codec? options.encoding = some encoding) {bytes : List UInt8}
    (hbytes : encoding.encode (codeText code) = some bytes) :
    platform.writeCode options tree result path =
      (.ok (.wrote code.length path.text), tree.set names (entry.write bytes)) := by
  simp only [writeCode, hverdict, writeText, htarget, codec, hcodec, hbytes]
  rfl

end Platform

end StackCompiler
