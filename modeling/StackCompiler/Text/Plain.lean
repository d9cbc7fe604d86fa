/-!
# Plain text

Text without the orders to a terminal that stand in it. Such an order is an escape character, an
opening bracket, any number of digits, semicolons and question marks, and one letter. Everything
else stays, the start of an order that no letter closes as well.
-/

set_option autoImplicit false
set_option relaxedAutoImplicit false

namespace StackCompiler.Text

/-- The characters between the bracket and the letter of an order. -/
def isParameter (c : Char) : Bool :=
  c.isDigit || c == ';' || c == '?'

/-- What stands behind an order, if the text starts with one. -/
def behindOrder? : List Char → Option (List Char)
  | '\x1b' :: '[' :: rest =>
    match rest.dropWhile isParameter with
    | c :: behind => if c.isAlpha then some behind else none
    | [] => none
  | _ => none

theorem behindOrder?_length {text behind : List Char} (h : behindOrder? text = some behind) :
    behind.length < text.length := by
  unfold behindOrder? at h
  split at h
  · rename_i rest
    have shorter : (rest.dropWhile isParameter).length ≤ rest.length :=
      (List.dropWhile_sublist isParameter).length_le
    split at h
    · rename_i dropped
      rw [dropped, List.length_cons] at shorter
      split at h
      · cases h
        simp only [List.length_cons]
        omega
      · cases h
    · cases h
  · cases h

/-- The text without its orders. -/
def dropOrders (text : List Char) : List Char :=
  match text with
  | [] => []
  | c :: rest =>
    match _ : behindOrder? (c :: rest) with
    | some behind => dropOrders behind
    | none => c :: dropOrders rest
termination_by text.length
decreasing_by
  · exact behindOrder?_length (by assumption)
  · simp

def plain (text : String) : String :=
  String.ofList (dropOrders text.toList)

end StackCompiler.Text
