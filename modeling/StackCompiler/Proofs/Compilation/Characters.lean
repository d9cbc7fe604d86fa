import StackCompiler.Proofs.Compilation.Ending
import StackCompiler.Proofs.Execution.TypedCode
import StackCompiler.Proofs.Scanning.Places
import StackCompiler.Text.Encoding

/-!
# The characters of code

A source text may hold any characters, in comments for one. The text of its code is ASCII
(`isAscii_codeText`): words of the machine, numbers, names of labels, and names of variables, which
are names in the source text. So code can be written in every encoding that has a form for ASCII
text, and the encodings that are spelled out are of this sort (`Encoding.writesAscii_codec`).

Names reach the code from declarations. In a well-typed program no other name is used, so it is
enough that the tokens of declared names are words (`reads_of_mem_tokens`).
-/

set_option autoImplicit false
set_option relaxedAutoImplicit false

namespace StackCompiler

open Scanning

/-! ### ASCII text -/

namespace Text

def IsAscii (text : String) : Prop :=
  ∀ c ∈ text.toList, c.toNat < 0x80

theorem IsAscii.append {first second : String} (hfirst : IsAscii first)
    (hsecond : IsAscii second) : IsAscii (first ++ second) := by
  intro c hc
  rw [String.toList_append] at hc
  exact (List.mem_append.mp hc).elim (hfirst c) (hsecond c)

theorem isAscii_join {texts : List String} (h : ∀ text ∈ texts, IsAscii text) :
    IsAscii (String.join texts) := by
  intro c hc
  rw [String.toList_join] at hc
  obtain ⟨text, htext, hc⟩ := List.mem_flatMap.mp hc
  exact h text htext c hc

/-- A text of fixed characters is looked at character by character. -/
theorem isAscii_of_all {text : String}
    (h : text.toList.all (fun c ↦ decide (c.toNat < 0x80)) = true) : IsAscii text :=
  fun c hc ↦ of_decide_eq_true (List.all_eq_true.mp h c hc)

theorem toNat_lt_of_isDigit {c : Char} (h : IsDigit c) : c.toNat < 0x80 := by
  have hnine : c.toNat ≤ '9'.toNat := h.2
  exact Nat.lt_of_le_of_lt hnine (by decide)

theorem toNat_lt_of_isLetter {c : Char} (h : IsLetter c) : c.toNat < 0x80 := by
  rcases h with ⟨-, hc⟩ | ⟨-, hc⟩ | rfl
  · have hlast : c.toNat ≤ 'Z'.toNat := hc
    exact Nat.lt_of_le_of_lt hlast (by decide)
  · have hlast : c.toNat ≤ 'z'.toNat := hc
    exact Nat.lt_of_le_of_lt hlast (by decide)
  · decide

theorem isAscii_natText (n : Nat) : IsAscii (toString n) := by
  intro c hc
  have hmem : c ∈ Nat.toDigits 10 n := by simpa using hc
  exact toNat_lt_of_isDigit
    ((isDigit_iff c).mp (Nat.isDigit_of_mem_toDigits (by decide) (by decide) hmem))

theorem isAscii_intText (n : Int) : IsAscii (toString n) := by
  cases n with
  | ofNat n => exact isAscii_natText n
  | negSucc n => exact (isAscii_of_all (by decide) : IsAscii "-").append (isAscii_natText (n + 1))

/-- An encoding has a form for every ASCII text. -/
def Codec.WritesAscii (codec : Codec) : Prop :=
  ∀ text, IsAscii text → ∃ bytes, codec.encode text = some bytes

theorem exists_mapM_of_forall {α β : Type} {f : α → Option β} {items : List α}
    (h : ∀ a ∈ items, ∃ b, f a = some b) : ∃ found, items.mapM f = some found := by
  induction items with
  | nil => exact ⟨[], rfl⟩
  | cons a more ih =>
    obtain ⟨b, hb⟩ := h a List.mem_cons_self
    obtain ⟨later, hlater⟩ := ih fun other hother ↦ h other (List.mem_cons_of_mem _ hother)
    exact ⟨b :: later, by simp [List.mapM_cons, hb, hlater]⟩

/-- Each of the encodings that are spelled out covers ASCII. -/
theorem Encoding.writesAscii_codec (encoding : Encoding) : encoding.codec.WritesAscii := by
  intro text htext
  have hdirect (limit : Nat) (hlimit : 0x80 ≤ limit) :
      ∃ bytes, text.toList.mapM (fun c ↦ if c.toNat < limit then some (UInt8.ofNat c.toNat)
        else none) = some bytes :=
    exists_mapM_of_forall fun c hc ↦ ⟨_, if_pos (Nat.lt_of_lt_of_le (htext c hc) hlimit)⟩
  cases encoding with
  | utf8 => exact ⟨_, rfl⟩
  | latin1 => exact hdirect 0x100 (by decide)
  | ascii => exact hdirect 0x80 (Nat.le_refl _)

end Text

open Text

/-! ### Tokens are words -/

theorem reads_of_mem_tokens {file text : String} {token : Token}
    (h : token ∈ (scan file text).tokens) (hkind : token.kind ≠ .endOfFile) :
    Reads token.lexeme.toList token.reading := by
  rcases List.mem_append.mp h with hpending | hfinal
  · exact reads_of_mem_pending hpending
  · -- the one at the end is of a kind of its own
    cases List.mem_singleton.mp hfinal
    exact absurd rfl hkind

theorem Scanning.IsName.isAscii {word : List Char} (h : IsName word) :
    ∀ c ∈ word, c.toNat < 0x80 := by
  obtain ⟨first, more, rfl, hfirst, hmore⟩ := h
  intro c hc
  rcases List.mem_cons.mp hc with rfl | hc
  · exact toNat_lt_of_isLetter hfirst
  · exact (hmore c hc).elim toNat_lt_of_isLetter toNat_lt_of_isDigit

/-- An identifier is a name and no keyword. -/
theorem Scanning.Reads.isName_of_ident {word : List Char} {lexeme : String} {value : Option Int}
    (h : Reads word (.token .ident lexeme value)) :
    IsName word ∧ ∀ kind, (String.ofList word, kind) ∉ TokenKind.keywords := by
  have hkeywords : ∀ entry ∈ TokenKind.keywords, entry.2 ≠ .ident := by decide
  have hsigns : ∀ sign ∈ signs, sign.2 ≠ .ident := by decide
  cases h with
  | keyword _ hkeyword => exact absurd rfl (hkeywords _ hkeyword)
  | name hword hno => exact ⟨hword, hno⟩
  | sign hsign => exact absurd rfl (hsigns _ hsign)

/-! ### Names of variables -/

/-- The token of a declared name is among the tokens of the program, and it is an identifier. -/
theorem Grammar.DerivesDecls.mem_of_mem {tokens : List Token} {declarations : List Decl}
    (h : DerivesDecls tokens declarations) {decl : Decl} (hmem : decl ∈ declarations) :
    decl.name ∈ tokens ∧ decl.name.kind = .ident := by
  induction h with
  | nil => cases hmem
  | cons _ hname _ _ _ _ ih =>
    rcases List.mem_cons.mp hmem with rfl | hmem
    · exact ⟨by simp, hname⟩
    · exact ⟨by simp [(ih hmem).1], (ih hmem).2⟩

theorem Program.exists_decl_of_types {program : Program} {name : String} {type : Ty}
    (h : program.types name = some type) :
    ∃ decl ∈ program.declarations, decl.name.lexeme = name := by
  obtain ⟨decl, hfound, -⟩ := Option.bind_eq_some_iff.mp h
  exact ⟨decl, List.mem_of_find?_eq_some hfound, by simpa using List.find?_some hfound⟩

/-- The variables of a program that was read from a text have names of the text. -/
theorem isName_of_types {file text : String} {depth : Nat} {lines : List String}
    {program : Program} {rest : TokenStream}
    (hread : (scan file text).stream.readProgramWithin depth lines = (.ok program, rest))
    {name : String} {type : Ty} (h : program.types name = some type) :
    IsName name.toList ∧ ∀ kind, (name, kind) ∉ TokenKind.keywords := by
  obtain ⟨tokens, htokens, hderives, -⟩ := TokenStream.derives_of_readProgramWithin hread
  obtain ⟨decl, hdecl, rfl⟩ := program.exists_decl_of_types h
  cases hderives with
  | intro _ _ _ hdeclarations _ =>
    obtain ⟨hmem, hkind⟩ := hdeclarations.mem_of_mem hdecl
    have hscanned : decl.name ∈ (scan file text).tokens := by
      rw [Scan.tokens, htokens]
      simp [hmem]
    have hreads := reads_of_mem_tokens hscanned (by simp [hkind])
    rw [Token.reading, hkind] at hreads
    simpa using hreads.isName_of_ident

/-! ### Code -/

theorem Operation.isAscii_text (operation : Operation) : IsAscii operation.text := by
  cases operation <;> exact isAscii_of_all (by decide)

/-- Fixed characters in front of an ASCII text. -/
theorem Text.IsAscii.prepend {behind : String} (h : IsAscii behind) {word : String}
    (hword : word.toList.all (fun c ↦ decide (c.toNat < 0x80)) = true) : IsAscii (word ++ behind) :=
  (isAscii_of_all hword).append h

theorem Instr.isAscii_labelText (label : Label) : IsAscii (labelText label) :=
  (isAscii_natText label).prepend (by decide : "L".toList.all _ = true)

/-- The text of a typed instruction is ASCII, if the names of the variables are. -/
theorem Instr.Typed.isAscii_text {types : TypeEnv} {code : List Instr} {instruction : Instr}
    {before after : List Ty} (h : instruction.Typed types code before after)
    (hnames : ∀ name type, types name = some type → IsAscii name) : IsAscii instruction.text := by
  cases h with
  | @push value => exact (isAscii_intText value).prepend (by decide : "LOADL ".toList.all _ = true)
  | load hname => exact (hnames _ _ hname).prepend (by decide : "LOAD ".toList.all _ = true)
  | store hname => exact (hnames _ _ hname).prepend (by decide : "STORE ".toList.all _ = true)
  | apply => exact Operation.isAscii_text _
  | jump =>
    exact (isAscii_labelText _).prepend (by decide : "JUMP ".toList.all _ = true)
  | jumpIfZero =>
    exact (isAscii_labelText _).prepend (by decide : "JUMPIF(0) ".toList.all _ = true)
  | label mark => exact (isAscii_labelText mark).append (isAscii_of_all (by decide))

/-- Code is that of a well-typed program that was read. -/
theorem Ending.exists_of_compiled {passes : Passes} {keepsOutline : Bool} {file text : String}
    {result : Compilation} (h : Ending passes keepsOutline file text result) {code : List Instr}
    (hverdict : result.verdict = .compiled code) :
    ∃ program, passes.read (scan file text).stream (sourceLines text) = .ok program ∧
      program.WellTyped ∧ code = program.code := by
  cases h with
  | lexical | unread | unsketched | unchecked | violation | ungenerated => cases hverdict
  | compiled _ hread _ hcheck =>
    cases hverdict
    exact ⟨_, hread, (Program.check_eq_ok.mp hcheck).2.2, rfl⟩

theorem Program.WellTyped.isAscii_codeText {program : Program} (h : program.WellTyped)
    (hliterals : LiteralsAreIntegers program.expressions)
    (hnames : ∀ name type, program.types name = some type → IsAscii name) :
    IsAscii (codeText program.code) := by
  obtain ⟨piece, hcode, htyped⟩ := h.exists_codeTyped hliterals
  refine isAscii_join fun line hline ↦ ?_
  obtain ⟨instruction, hinstruction, rfl⟩ := List.mem_map.mp hline
  refine IsAscii.append ?_ (isAscii_of_all (by decide))
  rw [hcode] at hinstruction
  rcases List.mem_append.mp hinstruction with hmem | hmem
  · obtain ⟨_, _, hinstr⟩ := htyped.exists_typed_of_mem hmem
    exact hinstr.isAscii_text hnames
  · cases List.mem_singleton.mp hmem
    exact isAscii_of_all (by decide)

/-- The text of the code that a compilation gives is ASCII. -/
theorem isAscii_codeText {passes : Passes} (hpasses : passes.Faithful) {keepsOutline : Bool}
    {file text : String} {run : Run} (hrun : compileWith passes keepsOutline file text = .ok run)
    {code : List Instr} (hverdict : run.result.verdict = .compiled code) :
    IsAscii (codeText code) := by
  obtain ⟨found, hfound, hending⟩ := exists_ending hpasses keepsOutline file text
  obtain rfl : found = run := Except.ok.inj (hfound.symm.trans hrun)
  obtain ⟨program, hread, htyped, rfl⟩ := hending.exists_of_compiled hverdict
  have hwhole : (scan file text).stream.readProgramWithin _ (sourceLines text) =
      (.ok program, _) := Prod.ext (hpasses.whole_read_eq_ok hread) rfl
  exact htyped.isAscii_codeText (literalsAreIntegers_of_scan hwhole)
    fun name type hname ↦ (isName_of_types hwhole hname).1.isAscii

end StackCompiler
