import StackCompiler.Token.Basic

/-!
# Token streams

A stream is a list of tokens that ends with one of the kind `endOfFile`. The pending tokens can be
taken one after another; the token at the end never is.
-/

set_option autoImplicit false
set_option relaxedAutoImplicit false

namespace StackCompiler

/-- The token at the end of a text. -/
def Token.endOfFile (location : Location) : Token :=
  ⟨.endOfFile, "", none, location⟩

structure TokenStream where
  pending : List Token
  final : Token
  final_kind : final.kind = .endOfFile
  deriving DecidableEq, Repr

namespace TokenStream

/-- A stream of the tokens, if the last one is of the right kind. -/
def ofList? (tokens : List Token) : Option TokenStream :=
  match tokens.getLast? with
  | some final => if h : final.kind = .endOfFile then some ⟨tokens.dropLast, final, h⟩ else none
  | none => none

def toList (stream : TokenStream) : List Token :=
  stream.pending ++ [stream.final]

/-- The next token. -/
def next (stream : TokenStream) : Token :=
  stream.pending.headD stream.final

theorem ofList?_toList (stream : TokenStream) : ofList? stream.toList = some stream := by
  have hlast : stream.toList.getLast? = some stream.final := by simp [toList]
  unfold ofList?
  rw [hlast]
  simp [toList, stream.final_kind]

theorem toList_of_ofList? {tokens : List Token} {stream : TokenStream}
    (h : ofList? tokens = some stream) : stream.toList = tokens := by
  unfold ofList? at h
  split at h
  · rename_i final hlast
    split at h
    · cases h
      obtain ⟨before, rfl⟩ := List.getLast?_eq_some_iff.mp hlast
      simp [toList]
    · simp at h
  · simp at h

end TokenStream

end StackCompiler
