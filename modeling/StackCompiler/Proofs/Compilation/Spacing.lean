import StackCompiler.Proofs.Compilation.Coherence
import StackCompiler.Proofs.Compilation.Relocation
import StackCompiler.Proofs.Execution.Literals
import StackCompiler.Proofs.Grammar.ViablePrefix

/-!
# Where tokens stand does not matter

Two texts with the same words, one after another, are compiled alike, whatever blanks, comments and
line ends stand between the words (`compileWith_spacing`). Both token streams are the same stream
with its tokens moved (`TokenStream.core_relocate`, `TokenStream.core_congr`): the core has numbers
for places. A compilation of moved tokens gives what the core gives, moved (`Ending.follows`), and
from this the two results agree (`Compilation.Follows.sameUpToPlaces`); the token at fault is the
one with the same number.

The source lines that reading and check are given go into the diagnostics alone, and there only the
excerpt is made from them.
-/

set_option autoImplicit false
set_option relaxedAutoImplicit false

namespace StackCompiler

open Grammar

/-! ### The core of a token stream -/

/-- Kind and characters, which are all of a token that does not depend on where it stands. -/
def Token.word (token : Token) : TokenKind × String :=
  (token.kind, token.lexeme)

/-- A token of a scan at another place is known by its word. -/
theorem Token.relocate_eq_of_word {token other : Token} (hword : token.word = other.word)
    (hvalue : token.literal = token.kind.value? token.lexeme.toList)
    (hother : other.literal = other.kind.value? other.lexeme.toList) (place : Location) :
    token.relocate (fun _ ↦ place) = other.relocate fun _ ↦ place := by
  obtain ⟨kind, lexeme, literal, location⟩ := token
  obtain ⟨kind', lexeme', literal', location'⟩ := other
  simp only [word, Prod.mk.injEq] at hword
  obtain ⟨rfl, rfl⟩ := hword
  simp only at hvalue hother
  rw [relocate, relocate, hvalue, hother]

/-- A number in the place of a place. -/
def Location.ofNumber (n : Nat) : Location :=
  ⟨"", n, 0⟩

/-- The place of the token with a number. -/
def placeIn (tokens : List Token) (number : Location) : Location :=
  (tokens[number.line.toNat]?.map Token.location).getD number

theorem Token.relocate_placeIn {tokens : List Token} {n : Nat} {token : Token}
    (h : tokens[n]? = some token) :
    (token.relocate fun _ ↦ .ofNumber n).relocate (placeIn tokens) = token := by
  simp [relocate, placeIn, Location.ofNumber, h]

namespace TokenStream

/-- The stream with its tokens moved. -/
def relocate (stream : TokenStream) (move : Location → Location) : TokenStream :=
  ⟨stream.pending.map (Token.relocate move), stream.final.relocate move, stream.final_kind⟩

theorem ext_of_eq {stream other : TokenStream} (hpending : stream.pending = other.pending)
    (hfinal : stream.final = other.final) : stream = other := by
  obtain ⟨pending, final, hkind⟩ := stream
  cases hpending
  cases hfinal
  rfl

theorem toList_relocate (stream : TokenStream) (move : Location → Location) :
    (stream.relocate move).toList = stream.toList.map (Token.relocate move) := by
  simp [relocate, toList]

theorem next_relocate (stream : TokenStream) (move : Location → Location) :
    (stream.relocate move).next = stream.next.relocate move := by
  obtain ⟨pending, final, hfinal⟩ := stream
  cases pending <;> rfl

/-- The stream with numbers for the places of its tokens. -/
def core (stream : TokenStream) : TokenStream where
  pending := stream.pending.mapIdx fun n token ↦ token.relocate fun _ ↦ .ofNumber n
  final := stream.final.relocate fun _ ↦ .ofNumber stream.pending.length
  final_kind := stream.final_kind

theorem core_relocate (stream : TokenStream) :
    stream.core.relocate (placeIn stream.toList) = stream := by
  refine ext_of_eq (List.ext_getElem? fun n ↦ ?_) (Token.relocate_placeIn (by simp [toList]))
  simp only [relocate, core, List.getElem?_map, List.getElem?_mapIdx]
  cases htoken : stream.pending[n]? with
  | none => rfl
  | some token =>
    have hn := (List.getElem?_eq_some_iff.mp htoken).1
    have hmem : stream.toList[n]? = some token := by
      rw [toList, List.getElem?_append_left hn, htoken]
    exact congrArg some (Token.relocate_placeIn hmem)

/-- Streams of the same words have the same core. -/
theorem core_congr {stream other : TokenStream}
    (hwords : stream.toList.map Token.word = other.toList.map Token.word)
    (hvalues : ∀ token ∈ stream.toList, token.literal = token.kind.value? token.lexeme.toList)
    (hothers : ∀ token ∈ other.toList, token.literal = token.kind.value? token.lexeme.toList) :
    stream.core = other.core := by
  simp only [toList, List.map_append, List.map_cons, List.map_nil] at hwords
  obtain ⟨hpending, hlast⟩ := List.append_inj' hwords rfl
  have hlength : stream.pending.length = other.pending.length := by
    simpa using congrArg List.length hpending
  refine ext_of_eq (List.ext_getElem? fun n ↦ ?_) ?_
  · have hword := congrArg (·[n]?) hpending
    simp only [List.getElem?_map] at hword
    simp only [core, List.getElem?_mapIdx]
    cases htoken : stream.pending[n]? with
    | none =>
      rw [htoken, Option.map_none, eq_comm, Option.map_eq_none_iff] at hword
      rw [hword]
    | some token =>
      rw [htoken, Option.map_some, eq_comm, Option.map_eq_some_iff] at hword
      obtain ⟨same, hsame, hword⟩ := hword
      have hmem : token ∈ stream.toList := List.mem_append_left _ (List.mem_of_getElem? htoken)
      have hother : same ∈ other.toList := List.mem_append_left _ (List.mem_of_getElem? hsame)
      rw [hsame]
      exact congrArg some
        (Token.relocate_eq_of_word hword.symm (hvalues token hmem) (hothers same hother) _)
  · have hmem : stream.final ∈ stream.toList := by simp [toList]
    have hother : other.final ∈ other.toList := by simp [toList]
    simp only [core, hlength]
    exact Token.relocate_eq_of_word (List.cons.inj hlast).1 (hvalues _ hmem) (hothers _ hother) _

end TokenStream

/-- The names of the declared variables and their types, in order. -/
def Scope.declared (scope : Scope) : List (String × Ty) :=
  scope.entries.map fun entry ↦ (entry.name, entry.type)

@[simp] theorem Scope.declared_relocate (scope : Scope) (move : Location → Location) :
    (scope.relocate move).declared = scope.declared := by
  simp [declared, relocate, Function.comp_def]

/-! ### What is made of moved tokens -/

/-- The cause without the place that it may name. -/
def Cause.unplaced : Cause → Cause
  | duplicateDeclaration name _ => duplicateDeclaration name none
  | other => other

@[simp] theorem Cause.unplaced_relocate (cause : Cause) (move : Location → Location) :
    (cause.relocate move).unplaced = cause.unplaced := by
  cases cause <;> rfl

/-- What a compilation gives for the tokens of a core that are moved, unless nesting stops it: the
program of the core is read, and its check and its code are those of the core. -/
inductive Compilation.Follows (core : TokenStream) (move : Location → Location)
    (keepsOutline : Bool) : Compilation → Prop
  | unread {file : String} {lines : List String} {refusal : Refusal} {rest : List Token}
      (hread : program (core.pending.length + 1) core.pending = .error ⟨refusal, rest⟩) :
      Follows core move keepsOutline
        ⟨⟨file, (core.relocate move).toList, none, none, none⟩,
          .failed (refusal.diagnostic
            (({ core with pending := rest } : TokenStream).next.relocate move) lines) []⟩
  | violation {file : String} {lines : List String} {tree : Program} {rest : List Token}
      {shown : Option String} {found : Violation}
      (hread : program (core.pending.length + 1) core.pending = .ok (tree, rest))
      (hshown : Passes.whole.Sketches keepsOutline tree shown)
      (hcheck : (tree.node.check .empty).1 = .error (.violation found)) :
      Follows core move keepsOutline
        ⟨⟨file, (core.relocate move).toList, some (tree.mapTokens (Token.relocate move)), shown,
          none⟩,
          .failed ((found.token.relocate move).diagnostic lines (found.cause.relocate move)) []⟩
  | compiled {file : String} {tree : Program} {rest : List Token} {shown : Option String}
      {scope : Scope}
      (hread : program (core.pending.length + 1) core.pending = .ok (tree, rest))
      (hshown : Passes.whole.Sketches keepsOutline tree shown)
      (hcheck : tree.node.check .empty = (.ok none, scope)) :
      Follows core move keepsOutline
        ⟨⟨file, (core.relocate move).toList, some (tree.mapTokens (Token.relocate move)), shown,
          some (scope.relocate move)⟩, .compiled tree.code⟩

section Reading

variable {core stream : TokenStream} {move : Location → Location} {lines : List String}

/-- Moved tokens are read as the core is: the same program, or the same refusal in front of the same
token. -/
theorem read_relocate (core : TokenStream) (move : Location → Location) (lines : List String) :
    Passes.whole.read (core.relocate move) lines =
      match program (core.pending.length + 1) core.pending with
      | .ok (tree, _) => .ok (tree.mapTokens (Token.relocate move))
      | .error stop => .error (stop.refusal.diagnostic
          (({ core with pending := stop.pending } : TokenStream).next.relocate move) lines) := by
  have hkinds : KeepsKinds (Token.relocate move) := Token.relocate_keepsKinds
  have hfollows := program_follows hkinds (core.pending.length + 1) core.pending
  simp only [Passes.whole, TokenStream.readProgramWithin, TokenStream.relocate, List.length_map]
  rw [hfollows]
  cases program (core.pending.length + 1) core.pending with
  | ok result => rfl
  | error stop =>
    exact congrArg (fun token ↦ Except.error (stop.refusal.diagnostic token lines))
      (TokenStream.next_relocate { core with pending := stop.pending } move)

theorem exists_program_of_relocate {found : Program}
    (hread : Passes.whole.read (core.relocate move) lines = .ok found) :
    ∃ tree rest, program (core.pending.length + 1) core.pending = .ok (tree, rest) ∧
      found = tree.mapTokens (Token.relocate move) := by
  rw [read_relocate] at hread
  rcases hrun : program (core.pending.length + 1) core.pending with stop | ⟨tree, rest⟩
  · simp [hrun] at hread
  · rw [hrun] at hread
    exact ⟨tree, rest, rfl, (Except.ok.inj hread).symm⟩

end Reading

/-- What stops the check of moved tokens is what stops that of the core, moved. -/
theorem exists_violation_of_relocate {tree : Program} {move : Location → Location}
    {found : Violation} (hcheck :
      ((tree.mapTokens (Token.relocate move)).node.check .empty).1 = .error (.violation found)) :
    ∃ own, (tree.node.check .empty).1 = .error (.violation own) ∧ found = own.relocate move := by
  have hmoved := Program.check_relocate move tree .empty
  rcases hrun : tree.node.check .empty with ⟨fault | type, after⟩
  all_goals
    rw [hrun] at hmoved
    change ((tree.mapTokens (Token.relocate move)).node.check .empty) = _ at hmoved
    rw [hmoved] at hcheck
  · cases fault with
    | breakdown other => cases hcheck
    | violation own =>
      cases hcheck
      exact ⟨own, rfl, rfl⟩
  · cases hcheck

/-- The check of moved tokens gives what that of the core gives, moved. -/
theorem exists_scope_of_relocate {tree : Program} {move : Location → Location} {scope : Scope}
    (hcheck : (tree.mapTokens (Token.relocate move)).node.check .empty = (.ok none, scope)) :
    ∃ own : Scope, tree.node.check .empty = (.ok none, own) ∧ scope = own.relocate move := by
  have hmoved := Program.check_relocate move tree .empty
  rcases hrun : tree.node.check .empty with ⟨fault | type, after⟩
  all_goals
    rw [hrun] at hmoved
    change ((tree.mapTokens (Token.relocate move)).node.check .empty) = _ at hmoved
    rw [hmoved] at hcheck
    cases hcheck
  exact ⟨after, rfl, rfl⟩

/-- Passes show the outline of moved tokens as the passes without limits show that of the core. -/
theorem Passes.Faithful.sketches_relocate {passes : Passes} (hpasses : passes.Faithful)
    {keepsOutline : Bool} {tree : Program} {move : Location → Location} {shown : Option String}
    (h : passes.Sketches keepsOutline (tree.mapTokens (Token.relocate move)) shown) :
    whole.Sketches keepsOutline tree shown := by
  cases keepsOutline with
  | false => exact h
  | true =>
    obtain ⟨outline, houtline, hshown⟩ : ∃ outline, passes.outline _ = .ok outline ∧ _ := h
    rcases hpasses.outline (tree.mapTokens (Token.relocate move)) with hstruck | hsame
    · cases hstruck.symm.trans houtline
    · have hown : tree.node.outline = .ok outline :=
        tree.outline_relocate.symm.trans (hsame.symm.trans houtline)
      exact ⟨outline, hown, hshown⟩

/-- Nothing in a result is about nesting. -/
def Compilation.Unnested (result : Compilation) : Prop :=
  ∀ found ∈ result.diagnostics, found.cause ≠ .nestedTooDeeply

/-- A compilation that nesting does not stop gives what the core gives, moved. -/
theorem Ending.follows {passes : Passes} (hpasses : passes.Faithful) {keepsOutline : Bool}
    {file text : String} {result : Compilation} (h : Ending passes keepsOutline file text result)
    (hfaults : (scan file text).faults = []) (hunnested : result.Unnested) {core : TokenStream}
    {move : Location → Location} (hstream : core.relocate move = (scan file text).stream) :
    result.Follows core move keepsOutline := by
  have htokens : (scan file text).tokens = (core.relocate move).toList :=
    congrArg TokenStream.toList hstream.symm
  cases h with
  | lexical hsome => cases hfaults.symm.trans hsome
  | unsketched | unchecked | ungenerated =>
    exact absurd rfl (hunnested nestingDiagnostic (List.mem_singleton_self _))
  | @unread found _ hread _ =>
    rw [htokens]
    rcases hpasses.read (scan file text).stream (sourceLines text) with ⟨place, hstruck⟩ | hsame
    · rw [hread] at hstruck
      cases hstruck
      exact absurd rfl (hunnested _ (List.mem_singleton_self _))
    · have hwhole := hsame.symm.trans hread
      rw [← hstream, read_relocate] at hwhole
      rcases hrun : program (core.pending.length + 1) core.pending with ⟨refusal, rest⟩ | result
      · rw [hrun] at hwhole
        cases hwhole
        exact .unread hrun
      · simp [hrun] at hwhole
  | violation _ hread hsketches hcheck _ =>
    rw [htokens]
    obtain ⟨tree, rest, hrun, rfl⟩ :=
      exists_program_of_relocate (hstream ▸ hpasses.whole_read_eq_ok hread)
    obtain ⟨own, hown, rfl⟩ := exists_violation_of_relocate hcheck
    exact .violation hrun (hpasses.sketches_relocate hsketches) hown
  | compiled _ hread hsketches hcheck =>
    rw [htokens]
    obtain ⟨tree, rest, hrun, rfl⟩ :=
      exists_program_of_relocate (hstream ▸ hpasses.whole_read_eq_ok hread)
    obtain ⟨own, hown, rfl⟩ := exists_scope_of_relocate hcheck
    rw [tree.code_relocate]
    exact .compiled hrun (hpasses.sketches_relocate hsketches) hown

/-! ### Results that differ in places -/

/-- Two diagnostics say the same of the tokens with one number in two lists. -/
structure Diagnostic.SameUpToPlace (tokens others : List Token) (found other : Diagnostic) :
    Prop where
  cause : found.cause.unplaced = other.cause.unplaced
  place : ∃ (n : Nat) (token same : Token), tokens[n]? = some token ∧ others[n]? = some same ∧
    found.location = some token.location ∧ other.location = some same.location

/-- Two results differ at most in the places of tokens and in source lines. -/
structure Compilation.SameUpToPlaces (result other : Compilation) : Prop where
  succeeded : result.succeeded = other.succeeded
  code : result.code = other.code
  outline : result.outline = other.outline
  declared : result.scope.map Scope.declared = other.scope.map Scope.declared
  diagnostics : List.Forall₂ (Diagnostic.SameUpToPlace result.tokens other.tokens)
    result.diagnostics other.diagnostics

section Agreement

variable {core : TokenStream} {move other : Location → Location}

/-- Diagnostics at one token of the core, moved in two ways, stand at the tokens with its number. -/
theorem Diagnostic.sameUpToPlace_of_mem {token : Token} (hmem : token ∈ core.toList)
    {found same : Diagnostic} (hcause : found.cause.unplaced = same.cause.unplaced)
    (hfound : found.location = some (token.relocate move).location)
    (hsame : same.location = some (token.relocate other).location) :
    found.SameUpToPlace (core.relocate move).toList (core.relocate other).toList same := by
  obtain ⟨n, hn⟩ := List.getElem?_of_mem hmem
  refine ⟨hcause, n, token.relocate move, token.relocate other, ?_, ?_, hfound, hsame⟩
  all_goals rw [TokenStream.toList_relocate, List.getElem?_map, hn, Option.map_some]

/-- What a refusal says does not depend on where the token stands. -/
theorem Grammar.Refusal.cause_relocate (refusal : Refusal) (token : Token)
    (lines more : List String) :
    (refusal.diagnostic (token.relocate move) lines).cause =
      (refusal.diagnostic (token.relocate other) more).cause := by
  cases refusal with
  | unexpected expected => cases expected <;> rfl
  | floatLiteral | tooDeep => rfl

theorem Passes.Sketches.unique {keepsOutline : Bool} {tree : Program} {shown same : Option String}
    (h : Passes.whole.Sketches keepsOutline tree shown)
    (hsame : Passes.whole.Sketches keepsOutline tree same) : shown = same := by
  cases keepsOutline with
  | false => exact Eq.trans h (Eq.symm hsame)
  | true =>
    obtain ⟨outline, houtline, rfl⟩ : ∃ outline, Passes.whole.outline _ = .ok outline ∧ _ := h
    obtain ⟨again, hagain, rfl⟩ : ∃ again, Passes.whole.outline _ = .ok again ∧ _ := hsame
    rw [Except.ok.inj (houtline.symm.trans hagain)]

/-- The token at which the check of a program stops is one of those that it was read from. -/
theorem token_mem_of_check_eq_error {depth : Nat} {tree : Program} {rest : List Token}
    {found : Violation} (hread : program depth core.pending = .ok (tree, rest))
    (hcheck : (tree.node.check .empty).1 = .error (.violation found)) :
    found.token ∈ core.toList := by
  obtain ⟨tokens, hpending, hderives, hnearest⟩ := program_sound depth _ _ _ hread
  obtain ⟨own, hsame, hwithin⟩ := (hderives.wellFormed hnearest).check_eq_error hcheck
  cases hsame
  have hmem := hwithin.token_mem
  rw [hderives.tokens_eq] at hmem
  have hpart : found.token ∈ core.pending := by
    rw [hpending]
    exact List.mem_append_left _ (List.mem_of_mem_filter hmem)
  exact List.mem_append_left _ hpart

/-- What follows one core in two ways differs at most in places. -/
theorem Compilation.Follows.sameUpToPlaces {keepsOutline : Bool} {result again : Compilation}
    (h : result.Follows core move keepsOutline) (hagain : again.Follows core other keepsOutline) :
    result.SameUpToPlaces again := by
  cases h with
  | unread hread =>
    cases hagain with
    | violation hother | compiled hother => cases hread.symm.trans hother
    | unread hother =>
      cases hread.symm.trans hother
      refine ⟨rfl, rfl, rfl, rfl, .cons ?_ .nil⟩
      exact Diagnostic.sameUpToPlace_of_mem (TokenStream.next_mem_of_stop hread)
        (congrArg Cause.unplaced (Refusal.cause_relocate ..)) (Refusal.location_diagnostic ..)
        (Refusal.location_diagnostic ..)
  | violation hread hshown hcheck =>
    cases hagain with
    | unread hother => cases hread.symm.trans hother
    | violation hother hsame hfound =>
      cases hread.symm.trans hother
      cases hcheck.symm.trans hfound
      refine ⟨rfl, rfl, hshown.unique hsame, rfl, .cons ?_ .nil⟩
      exact Diagnostic.sameUpToPlace_of_mem (token_mem_of_check_eq_error hread hcheck)
        (by simp [Token.diagnostic]) rfl rfl
    | compiled hother _ hchecked =>
      cases hread.symm.trans hother
      rw [hchecked] at hcheck
      cases hcheck
  | compiled hread hshown hcheck =>
    cases hagain with
    | unread hother => cases hread.symm.trans hother
    | violation hother _ hfound =>
      cases hread.symm.trans hother
      rw [hcheck] at hfound
      cases hfound
    | compiled hother hsame hchecked =>
      cases hread.symm.trans hother
      cases hcheck.symm.trans hchecked
      exact ⟨rfl, rfl, hshown.unique hsame, by simp, .nil⟩

end Agreement

/-! ### Source lines -/

def Diagnostic.withoutLine (found : Diagnostic) : Diagnostic :=
  { found with sourceLine := none }

def StageFault.withoutLine : StageFault → StageFault
  | diagnostic found => diagnostic found.withoutLine
  | other => other

/-- Of the lines of a message only the excerpt is made from the source line. -/
theorem Diagnostic.message_of_withoutLine_eq {found other : Diagnostic}
    (h : found.withoutLine = other.withoutLine) :
    found.message = "\n".intercalate (other.headline :: found.excerpt ++ other.advice) := by
  obtain ⟨cause, location, line⟩ := found
  obtain ⟨cause', location', line'⟩ := other
  simp only [withoutLine, mk.injEq, and_true] at h
  obtain ⟨rfl, rfl⟩ := h
  rfl

theorem Grammar.Refusal.withoutLine_diagnostic (refusal : Refusal) (token : Token)
    (lines more : List String) :
    (refusal.diagnostic token lines).withoutLine = (refusal.diagnostic token more).withoutLine := by
  cases refusal <;> rfl

/-- Reading takes the same tokens, and gives the same program or the same diagnostic but for the
source line, whatever lines it is given. -/
theorem TokenStream.readProgramWithin_withoutLine (stream : TokenStream) (depth : Nat)
    (lines more : List String) :
    (stream.readProgramWithin depth lines).2 = (stream.readProgramWithin depth more).2 ∧
      (stream.readProgramWithin depth lines).1.mapError Diagnostic.withoutLine =
        (stream.readProgramWithin depth more).1.mapError Diagnostic.withoutLine := by
  unfold readProgramWithin
  cases program depth stream.pending with
  | ok result => exact ⟨rfl, rfl⟩
  | error stop =>
    exact ⟨rfl, congrArg Except.error (Refusal.withoutLine_diagnostic ..)⟩

theorem StageFault.withoutLine_ofCheckFault (fault : CheckFault) (lines more : List String) :
    (ofCheckFault lines fault).withoutLine = (ofCheckFault more fault).withoutLine := by
  cases fault <;> rfl

/-! ### Compilations -/

/-- Whatever source lines reading and check are given, they do the same, and of a diagnostic only
the source line and the excerpt depend on them. -/
structure LinesOnlyShown (lines more : List String) : Prop where
  reading (stream : TokenStream) (depth : Nat) :
    (stream.readProgramWithin depth lines).2 = (stream.readProgramWithin depth more).2 ∧
      (stream.readProgramWithin depth lines).1.mapError Diagnostic.withoutLine =
        (stream.readProgramWithin depth more).1.mapError Diagnostic.withoutLine
  check (fault : CheckFault) :
    (StageFault.ofCheckFault lines fault).withoutLine =
      (StageFault.ofCheckFault more fault).withoutLine
  message (found other : Diagnostic) : found.withoutLine = other.withoutLine →
    found.message = "\n".intercalate (other.headline :: found.excerpt ++ other.advice)

/-- Two texts that scan without faults to the same words are compiled alike, unless one of them
nests too deeply for the passes: both are compiled to the same code, or both are refused for the
same cause, at the token with the same number. And the source lines that reading and check are given
are only shown. -/
theorem compileWith_spacing {passes others : Passes} (hpasses : passes.Faithful)
    (hothers : others.Faithful) (keepsOutline : Bool) {file text otherFile otherText : String}
    (hfaults : (scan file text).faults = []) (hnone : (scan otherFile otherText).faults = [])
    (hwords : (scan file text).tokens.map Token.word =
      (scan otherFile otherText).tokens.map Token.word) :
    (∃ run again, compileWith passes keepsOutline file text = .ok run ∧
      compileWith others keepsOutline otherFile otherText = .ok again ∧
      (run.result.Unnested → again.result.Unnested →
        run.result.tokens = (scan file text).tokens ∧
          again.result.tokens = (scan otherFile otherText).tokens ∧
          run.result.SameUpToPlaces again.result)) ∧
      ∀ lines more, LinesOnlyShown lines more := by
  refine ⟨?_, fun lines more ↦ ?_⟩
  · obtain ⟨run, hrun, hending⟩ := exists_ending hpasses keepsOutline file text
    obtain ⟨again, hagain, hother⟩ := exists_ending hothers keepsOutline otherFile otherText
    have hcore : (scan file text).stream.core = (scan otherFile otherText).stream.core :=
      TokenStream.core_congr hwords (fun _ ↦ literal_of_mem_tokens) fun _ ↦ literal_of_mem_tokens
    have hstream := (scan file text).stream.core_relocate
    have hsame := (scan otherFile otherText).stream.core_relocate
    rw [← hcore] at hsame
    refine ⟨run, again, hrun, hagain, fun hrunUnnested hagainUnnested ↦
      ⟨hending.tokens_eq, hother.tokens_eq, ?_⟩⟩
    have hfollows := hending.follows hpasses hfaults hrunUnnested hstream
    exact hfollows.sameUpToPlaces (hother.follows hothers hnone hagainUnnested hsame)
  · exact
      { reading := fun stream depth ↦ stream.readProgramWithin_withoutLine depth lines more
        check := fun fault ↦ StageFault.withoutLine_ofCheckFault fault lines more
        message := fun _ _ ↦ Diagnostic.message_of_withoutLine_eq }

/-- A program with an undeclared variable. -/
def undeclaredTight : String :=
  "program p;begin x:=1;end"

/-- The same words over several lines, with comments between them. -/
def undeclaredWide : String :=
  "program p; // a program\n\tbegin\r\n  x //\n:= 1\n; end\n"

theorem compileWith_spacing_undeclared :
    Passes.standard.Faithful ∧ (scan "a.src" undeclaredTight).faults = [] ∧
      (scan "b.src" undeclaredWide).faults = [] ∧
      (scan "a.src" undeclaredTight).tokens.map Token.word =
        (scan "b.src" undeclaredWide).tokens.map Token.word ∧
      ∃ run again, compile false "a.src" undeclaredTight = .ok run ∧
        compile false "b.src" undeclaredWide = .ok again ∧
        run.result.diagnostics =
          [⟨.undeclared "x" [], some ⟨"a.src", 1, 17⟩, some "program p;begin x:=1;end"⟩] ∧
        again.result.diagnostics =
          [⟨.undeclared "x" [], some ⟨"b.src", 3, 3⟩, some "  x //"⟩] ∧
        run.result.SameUpToPlaces again.result := by
  have hpasses := Passes.within_faithful nestingLimit nestingLimit
  have htight : (scan "a.src" undeclaredTight).faults = [] := by decide +kernel
  have hwide : (scan "b.src" undeclaredWide).faults = [] := by decide +kernel
  have hwords : (scan "a.src" undeclaredTight).tokens.map Token.word =
      (scan "b.src" undeclaredWide).tokens.map Token.word := by
    decide +kernel
  have hfirst : (compile false "a.src" undeclaredTight).map (·.result.diagnostics) =
      .ok [⟨.undeclared "x" [], some ⟨"a.src", 1, 17⟩, some "program p;begin x:=1;end"⟩] := by
    decide +kernel
  have hsecond : (compile false "b.src" undeclaredWide).map (·.result.diagnostics) =
      .ok [⟨.undeclared "x" [], some ⟨"b.src", 3, 3⟩, some "  x //"⟩] := by
    decide +kernel
  obtain ⟨⟨run, again, hrun, hagain, hsame⟩, -⟩ :=
    compileWith_spacing hpasses hpasses false htight hwide hwords
  change compile false _ _ = _ at hrun hagain
  rw [hrun] at hfirst
  rw [hagain] at hsecond
  have hrunDiagnostics := Except.ok.inj hfirst
  have hagainDiagnostics := Except.ok.inj hsecond
  obtain ⟨-, -, hresults⟩ := hsame (by simp [Compilation.Unnested, hrunDiagnostics])
    (by simp [Compilation.Unnested, hagainDiagnostics])
  exact ⟨hpasses, htight, hwide, hwords, run, again, hrun, hagain, hrunDiagnostics,
    hagainDiagnostics, hresults⟩

end StackCompiler
