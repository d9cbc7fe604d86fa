import StackCompiler.Typing.Check

/-!
# Requests to a scope

A scope on its own, as it is used outside of a check: variables are declared in it and it is asked
for them, one request after another. A declaration is refused with the violation at which a check
would stop.
-/

set_option autoImplicit false
set_option relaxedAutoImplicit false

namespace StackCompiler.Scope

/-- What a scope can be asked for. -/
inductive Request where
  | declare (new : Variable)
  | find (name : String)
  | contains (name : String)
  | size
  | list
  | similar (name : String)
  deriving DecidableEq, Repr

inductive Reply where
  | declared
  | refused (found : Violation)
  | found (known : Option Variable)
  | contained (known : Bool)
  | counted (size : Nat)
  | listed (entries : List Variable)
  | proposed (names : List String)
  deriving DecidableEq, Repr

def serve (scope : Scope) : Request → Reply × Scope
  | .declare new =>
    match scope.declare new with
    | .ok larger => (.declared, larger)
    | .error first => (.refused (duplicate first new), scope)
  | .find name => (.found (scope.find? name), scope)
  | .contains name => (.contained (scope.contains name), scope)
  | .size => (.counted scope.size, scope)
  | .list => (.listed scope.entries, scope)
  | .similar name => (.proposed (scope.similarNames name), scope)

end StackCompiler.Scope
