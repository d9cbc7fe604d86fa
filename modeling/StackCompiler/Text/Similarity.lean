/-!
# Similar words

How alike two words are, and which words of a list are close to a given one.

The measure is that of Ratcliff and Obershelp: take the longest common block of the two words, then
do the same with what stands left of it in both and with what stands right of it in both. Twice the
number of characters in all the blocks, over the characters of both words, is the `Ratio`. Of
blocks of one length the one that starts first in the first word counts, then first in the second.

In a second word of 200 characters or more, a character that makes up more than one in a hundred of
them is popular: blocks do not start from it, though they extend over it.
-/

set_option autoImplicit false
set_option relaxedAutoImplicit false

namespace StackCompiler.Text.Similarity

/-- A common block: where it starts in either word and how long it is. -/
structure Block where
  left : Nat
  right : Nat
  size : Nat
  deriving DecidableEq, Repr

/-- The lengths of the common blocks that end at one character `c` of the first word and at each
character of the second, from those that end one character earlier in both. -/
def endingBlocks (popular : List Char) (c : Char) : Nat → List Nat → List Char → List Nat
  | before, sizes, d :: word =>
    let here := if c == d && !popular.contains d then before + 1 else 0
    here :: endingBlocks popular c (sizes.headD 0) sizes.tail word
  | _, _, [] => []

/-- The better of a block and the blocks that end at one character of the first word: a later block
has to be longer. -/
def improve (leftEnd : Nat) (best : Block) (sizes : List Nat) : Block :=
  (sizes.zipIdx 1).foldl
    (fun best entry =>
      if best.size < entry.1 then ⟨leftEnd - entry.1, entry.2 - entry.1, entry.1⟩ else best) best

/-- The longest common block without popular characters. -/
def longestSeed (popular : List Char) (first second : List Char) : Block :=
  ((first.zipIdx 1).foldl
    (fun state entry =>
      let sizes := endingBlocks popular entry.1 0 state.1 second
      (sizes, improve entry.2 state.2 sizes))
    (([] : List Nat), (⟨0, 0, 0⟩ : Block))).2

/-- The length of the longest common start of two words. -/
def commonStart : List Char → List Char → Nat
  | c :: first, d :: second => if c == d then commonStart first second + 1 else 0
  | _, _ => 0

/-- The longest block, extended at both ends over equal characters, popular or not. -/
def longestBlock (popular : List Char) (first second : List Char) : Block :=
  let seed := longestSeed popular first second
  let back := commonStart (first.take seed.left).reverse (second.take seed.right).reverse
  let onward :=
    commonStart (first.drop (seed.left + seed.size)) (second.drop (seed.right + seed.size))
  ⟨seed.left - back, seed.right - back, back + seed.size + onward⟩

/-- The number of characters in common blocks, at most `bound` blocks deep. Each block takes at
least one character of the first word, so its length is bound enough. -/
def sharedWithin (popular : List Char) : Nat → List Char → List Char → Nat
  | 0, _, _ => 0
  | bound + 1, first, second =>
    let block := longestBlock popular first second
    if block.size == 0 then 0
    else
      sharedWithin popular bound (first.take block.left) (second.take block.right) + block.size +
        sharedWithin popular bound (first.drop (block.left + block.size))
          (second.drop (block.right + block.size))

/-- The characters that are too frequent in a long word to start a block. -/
def popularIn (word : List Char) : List Char :=
  if word.length < 200 then []
  else word.eraseDups.filter fun c => word.length / 100 + 1 < word.count c

/-- The number of characters in common blocks of two words. -/
def shared (first second : List Char) : Nat :=
  sharedWithin (popularIn second) first.length first second

/-- The likeness `2 * matched / total` of two words with `total` characters together. Two empty
words are alike. -/
structure Ratio where
  matched : Nat
  total : Nat
  deriving DecidableEq, Repr

def Ratio.ofWords (first second : List Char) : Ratio :=
  let total := first.length + second.length
  if total == 0 then ⟨1, 2⟩ else ⟨shared first second, total⟩

def Ratio.lt (a b : Ratio) : Bool :=
  a.matched * b.total < b.matched * a.total

/-- A likeness of three fifths or more. -/
def Ratio.isClose (a : Ratio) : Bool :=
  3 * a.total ≤ 10 * a.matched

/-- Whether one candidate comes no later than another: the more alike first, and of two equally
alike the greater word. -/
def comesFirst (a b : Ratio × String) : Bool :=
  b.1.lt a.1 || (!a.1.lt b.1 && b.2 ≤ a.2)

end Similarity

/-- The words of a list that are close to a given word, at most three, the closest first. -/
def closeWords (word : String) (candidates : List String) : List String :=
  let rated := candidates.map fun name =>
    (Similarity.Ratio.ofWords name.toList word.toList, name)
  (((rated.filter (·.1.isClose)).mergeSort Similarity.comesFirst).take 3).map (·.2)

end StackCompiler.Text
