import StackCompiler.Text.Similarity
import Mathlib.Data.List.Basic
import Mathlib.Order.Lattice

/-!
# The likeness of two words

The measure of `Text.Similarity` told without its tables. `Shares` says how many characters two
words share: those of the block that counts (`IsLongest`), and those that the words share before it
and behind it. The block is as great as it can be around its seed, which has no popular characters,
and of the common blocks without these that are longest the seed starts first (`Leads`).
`shares_shared` is the main statement: the number that is worked out is this one, and no other
number is (`Shares.unique`).

The search reads the ends of blocks in both words, the first word outside and the second inside.
`LeadsBy` is what holds of the best block so far: it leads those that end at a place that was read
(`LeadsBy.step`). What the table of a row holds is the size of the longest block without popular
characters at each end (`endingBlocks_rowSizes`), so the lead is kept along a row (`LeadsBy.row`)
and then along all rows (`LeadsBy.rows`).
-/

set_option autoImplicit false
set_option relaxedAutoImplicit false

namespace StackCompiler.Text.Similarity

variable {popular first second : List Char}

/-! ### Common starts -/

/-- The length of the longest common start of two words in which no character is popular. -/
def startWithout (popular : List Char) : List Char → List Char → Nat
  | c :: first, d :: second =>
    if c == d && !popular.contains d then startWithout popular first second + 1 else 0
  | _, _ => 0

theorem le_startWithout_iff {n : Nat} :
    n ≤ startWithout popular first second ↔ n ≤ first.length ∧ n ≤ second.length ∧
      first.take n = second.take n ∧ ∀ c ∈ second.take n, c ∉ popular := by
  induction first generalizing second n with
  | nil => cases n <;> simp [startWithout]
  | cons c first ih =>
    cases second with
    | nil => cases n <;> simp [startWithout]
    | cons d second =>
      cases n with
      | zero => simp
      | succ n =>
        by_cases hgoesOn : c = d ∧ d ∉ popular
        · simp [startWithout, ih, hgoesOn]
        · have hstops : startWithout popular (c :: first) (d :: second) = 0 := by
            simpa [startWithout] using hgoesOn
          rw [hstops]
          simp only [List.take_succ_cons, List.cons.injEq, List.mem_cons, forall_eq_or_imp]
          constructor
          · intro h
            omega
          · rintro ⟨-, -, ⟨hc, -⟩, hd, -⟩
            exact absurd ⟨hc, hd⟩ hgoesOn

theorem startWithout_le_length (popular first second : List Char) :
    startWithout popular first second ≤ first.length ∧
      startWithout popular first second ≤ second.length := by
  obtain ⟨hfirst, hsecond, -⟩ :=
    le_startWithout_iff.mp (le_refl (startWithout popular first second))
  exact ⟨hfirst, hsecond⟩

theorem commonStart_eq_startWithout : ∀ first second : List Char,
    commonStart first second = startWithout [] first second
  | [], _ => by simp [commonStart, startWithout]
  | _ :: _, [] => by simp [commonStart, startWithout]
  | c :: first, d :: second => by
    simp [commonStart, startWithout, commonStart_eq_startWithout first second]

/-! ### Common blocks -/

/-- The block lies in both words, which have the same characters there, none of them popular. -/
structure IsCommon (popular first second : List Char) (block : Block) : Prop where
  left : block.left + block.size ≤ first.length
  right : block.right + block.size ≤ second.length
  same : (first.drop block.left).take block.size = (second.drop block.right).take block.size
  free : ∀ c ∈ (second.drop block.right).take block.size, c ∉ popular

/-- What is in front of a place, read backwards up to a block that ends there, is the block. -/
theorem take_reverse_take (word : List Char) {start size : Nat}
    (h : start + size ≤ word.length) :
    (word.take (start + size)).reverse.take size = ((word.drop start).take size).reverse := by
  rw [List.take_reverse, List.length_take, Nat.min_eq_left h, Nat.add_sub_cancel,
    List.drop_take, Nat.add_sub_cancel_left]

/-- A block ends at two places just if the words in front of them, read backwards, start alike. -/
theorem isCommon_iff_le_startWithout {block : Block}
    (hleft : block.left + block.size ≤ first.length)
    (hright : block.right + block.size ≤ second.length) :
    IsCommon popular first second block ↔
      block.size ≤ startWithout popular (first.take (block.left + block.size)).reverse
        (second.take (block.right + block.size)).reverse := by
  rw [le_startWithout_iff, take_reverse_take first hleft, take_reverse_take second hright,
    List.reverse_inj]
  simp only [List.length_reverse, List.length_take, List.mem_reverse]
  constructor
  · intro h
    exact ⟨by omega, by omega, h.same, h.free⟩
  · rintro ⟨-, -, hsame, hfree⟩
    exact ⟨hleft, hright, hsame, hfree⟩

/-- The longest block without popular characters that ends at two places. -/
def blockTo (popular first second : List Char) (leftEnd rightEnd : Nat) : Block :=
  let size := startWithout popular (first.take leftEnd).reverse (second.take rightEnd).reverse
  ⟨leftEnd - size, rightEnd - size, size⟩

theorem blockTo_ends {leftEnd rightEnd : Nat} {block : Block}
    (h : blockTo popular first second leftEnd rightEnd = block) :
    block.left + block.size = leftEnd ∧ block.right + block.size = rightEnd := by
  have hlength := startWithout_le_length popular (first.take leftEnd).reverse
    (second.take rightEnd).reverse
  simp only [List.length_reverse, List.length_take] at hlength
  subst h
  simp only [blockTo]
  omega

theorem isCommon_blockTo {leftEnd rightEnd : Nat} (hleft : leftEnd ≤ first.length)
    (hright : rightEnd ≤ second.length) :
    IsCommon popular first second (blockTo popular first second leftEnd rightEnd) := by
  obtain ⟨hl, hr⟩ := blockTo_ends (Eq.refl (blockTo popular first second leftEnd rightEnd))
  rw [isCommon_iff_le_startWithout (by rwa [hl]) (by rwa [hr]), hl, hr]
  exact le_rfl

theorem IsCommon.size_le_blockTo {block : Block} (h : IsCommon popular first second block) :
    block.size ≤ (blockTo popular first second (block.left + block.size)
      (block.right + block.size)).size :=
  (isCommon_iff_le_startWithout h.left h.right).mp h

/-! ### The block that leads -/

/-- The block starts no later than another one: earlier in the first word, or at the same place
there and no later in the second. -/
def Block.StartsBy (block other : Block) : Prop :=
  block.left < other.left ∨ block.left = other.left ∧ block.right ≤ other.right

/-- Of the blocks of a class this is the first one of the longest. -/
structure Leads (blocks : Block → Prop) (best : Block) : Prop where
  mem : blocks best
  longest : ∀ other, blocks other → other.size ≤ best.size
  earliest : ∀ other, blocks other → other.size = best.size → best.StartsBy other

theorem Leads.unique {blocks : Block → Prop} {best other : Block} (h : Leads blocks best)
    (hother : Leads blocks other) : best = other := by
  have hsize := (hother.longest _ h.mem).antisymm (h.longest _ hother.mem)
  have hearly := h.earliest _ hother.mem hsize.symm
  have hlate := hother.earliest _ h.mem hsize
  unfold Block.StartsBy at hearly hlate
  obtain ⟨left, right, size⟩ := best
  obtain ⟨left', right', size'⟩ := other
  simp only [Block.mk.injEq] at *
  omega

/-- A block leads a larger class as well if what is new there is no longer, and starts no earlier
if it is as long. -/
theorem Leads.keep {blocks blocks' : Block → Prop} {best : Block} (h : Leads blocks best)
    (hmem : blocks' best) (hnew : ∀ other, blocks' other → blocks other ∨
      other.size ≤ best.size ∧ (other.size = best.size → best.StartsBy other)) :
    Leads blocks' best := by
  refine ⟨hmem, fun other hother ↦ ?_, fun other hother hsize ↦ ?_⟩
  · rcases hnew other hother with hold | ⟨hshort, -⟩
    · exact h.longest other hold
    · exact hshort
  · rcases hnew other hother with hold | ⟨-, hlate⟩
    · exact h.earliest other hold hsize
    · exact hlate hsize

/-- A longer block takes the lead of a larger class if it leads what is new there. -/
theorem Leads.replace {blocks blocks' : Block → Prop} {best new : Block} (h : Leads blocks best)
    (hlonger : best.size < new.size) (hmem : blocks' new)
    (hnew : ∀ other, blocks' other → blocks other ∨
      other.size ≤ new.size ∧ (other.size = new.size → new.StartsBy other)) :
    Leads blocks' new := by
  refine ⟨hmem, fun other hother ↦ ?_, fun other hother hsize ↦ ?_⟩
  · rcases hnew other hother with hold | ⟨hshort, -⟩
    · exact (h.longest other hold).trans hlonger.le
    · exact hshort
  · rcases hnew other hother with hold | ⟨-, hlate⟩
    · exact absurd (h.longest other hold) (by omega)
    · exact hlate hsize

/-- The block ends at a place that was read, when the first word is read outside and the second
one inside. -/
def Block.EndsBy (leftEnd rightEnd : Nat) (block : Block) : Prop :=
  block.left + block.size < leftEnd ∨
    block.left + block.size = leftEnd ∧ block.right + block.size ≤ rightEnd

/-- The block leads those without popular characters that end at a place that was read. -/
def LeadsBy (popular first second : List Char) (leftEnd rightEnd : Nat) : Block → Prop :=
  Leads fun block ↦ IsCommon popular first second block ∧ block.EndsBy leftEnd rightEnd

theorem leadsBy_zero : LeadsBy popular first second 0 second.length ⟨0, 0, 0⟩ where
  mem := ⟨⟨by simp, by simp, by simp, by simp⟩, .inr (by simp)⟩
  longest other hother := by
    obtain ⟨-, hends⟩ := hother
    unfold Block.EndsBy at hends
    omega
  earliest other _ _ := by
    unfold Block.StartsBy
    dsimp only
    omega

section Steps

variable {leftEnd rightEnd : Nat} {best : Block}

/-- One place further, the longest block that ends there takes the lead if it is longer. -/
theorem LeadsBy.step (h : LeadsBy popular first second leftEnd rightEnd best)
    (hleft : leftEnd ≤ first.length) (hright : rightEnd < second.length) :
    LeadsBy popular first second leftEnd (rightEnd + 1)
      (if best.size < (blockTo popular first second leftEnd (rightEnd + 1)).size then
        blockTo popular first second leftEnd (rightEnd + 1) else best) := by
  generalize hnew : blockTo popular first second leftEnd (rightEnd + 1) = new
  obtain ⟨hnewLeft, hnewRight⟩ := blockTo_ends hnew
  have hcommon : IsCommon popular first second new := hnew ▸ isCommon_blockTo hleft hright
  obtain ⟨hbest, hbestEnds⟩ := h.mem
  -- A block that ends by the new place ended by the one before it, or ends there.
  have hends : ∀ other : Block, IsCommon popular first second other →
      other.EndsBy leftEnd (rightEnd + 1) → other.EndsBy leftEnd rightEnd ∨
        other.left + other.size = leftEnd ∧ other.right + other.size = rightEnd + 1 ∧
          other.size ≤ new.size := by
    intro other hother hby
    by_cases hthere : other.left + other.size = leftEnd ∧ other.right + other.size = rightEnd + 1
    · have hsize := hother.size_le_blockTo
      rw [hthere.1, hthere.2, hnew] at hsize
      exact .inr ⟨hthere.1, hthere.2, hsize⟩
    · unfold Block.EndsBy at *
      omega
  unfold Block.EndsBy at hbestEnds
  split
  · rename_i hlonger
    refine h.replace hlonger ⟨hcommon, .inr ⟨hnewLeft, hnewRight.le⟩⟩ fun other ⟨hother, hby⟩ ↦ ?_
    rcases hends other hother hby with hold | ⟨hl, hr, hsize⟩
    · exact .inl ⟨hother, hold⟩
    · refine .inr ⟨hsize, fun hsame ↦ ?_⟩
      unfold Block.StartsBy
      omega
  · rename_i hshorter
    have hbestBy : best.EndsBy leftEnd (rightEnd + 1) := by
      unfold Block.EndsBy
      omega
    refine h.keep ⟨hbest, hbestBy⟩ fun other ⟨hother, hby⟩ ↦ ?_
    rcases hends other hother hby with hold | ⟨hl, hr, hsize⟩
    · exact .inl ⟨hother, hold⟩
    · refine .inr ⟨by omega, fun hsame ↦ ?_⟩
      unfold Block.StartsBy
      omega

/-- Nothing ends in front of the second word but blocks without characters. -/
theorem LeadsBy.nextRow (h : LeadsBy popular first second leftEnd second.length best) :
    LeadsBy popular first second (leftEnd + 1) 0 best := by
  obtain ⟨hbest, hbestEnds⟩ := h.mem
  unfold Block.EndsBy at hbestEnds
  refine h.keep ⟨hbest, .inl (by omega)⟩ fun other ⟨hother, hby⟩ ↦ ?_
  have hright := hother.right
  unfold Block.EndsBy at hby
  by_cases hempty : other.left = leftEnd + 1 ∧ other.size = 0
  · refine .inr ⟨by omega, fun hsame ↦ ?_⟩
    unfold Block.StartsBy
    omega
  · refine .inl ⟨hother, ?_⟩
    unfold Block.EndsBy
    omega

theorem LeadsBy.leads (h : LeadsBy popular first second first.length second.length best) :
    Leads (IsCommon popular first second) best := by
  refine h.keep h.mem.1 fun other hother ↦ .inl ⟨hother, ?_⟩
  have hleft := hother.left
  have hright := hother.right
  unfold Block.EndsBy
  omega

end Steps

/-! ### The table -/

/-- The sizes of the longest blocks that end where `behind` was read of the first word, and at each
further character of the second, of which `passed` was read. What was read is in backward order. -/
def rowSizes (popular behind : List Char) : List Char → List Char → List Nat
  | passed, d :: word =>
    startWithout popular behind (d :: passed) :: rowSizes popular behind (d :: passed) word
  | _, [] => []

theorem endingBlocks_nil (c : Char) (passed word : List Char) :
    endingBlocks popular c 0 [] word = rowSizes popular [c] passed word := by
  induction word generalizing passed with
  | nil => rfl
  | cons d word ih =>
    simp only [endingBlocks, rowSizes, startWithout, List.headD_nil, List.tail_nil]
    rw [ih]

theorem endingBlocks_rowSizes (popular : List Char) (c : Char) (behind passed word : List Char) :
    endingBlocks popular c (startWithout popular behind passed)
        (rowSizes popular behind passed word) word =
      rowSizes popular (c :: behind) passed word := by
  induction word generalizing passed with
  | nil => rfl
  | cons d word ih =>
    simp only [endingBlocks, rowSizes, startWithout, List.headD_cons, List.tail_cons]
    rw [ih]

/-- The sizes that the next row is worked out from. -/
def Serves (popular second behind : List Char) (sizes : List Nat) : Prop :=
  ∀ c, endingBlocks popular c 0 sizes second = rowSizes popular (c :: behind) [] second

theorem serves_nil : Serves popular second [] [] :=
  fun c ↦ endingBlocks_nil c [] second

theorem serves_rowSizes (behind : List Char) :
    Serves popular second behind (rowSizes popular behind [] second) := by
  intro c
  have hrow := endingBlocks_rowSizes popular c behind [] second
  have hzero : startWithout popular behind [] = 0 := by cases behind <;> rfl
  rwa [hzero] at hrow

/-- What was read up to a character, read backwards. -/
theorem reverse_take_succ (passed word : List Char) (c : Char) :
    ((passed ++ c :: word).take (passed.length + 1)).reverse = c :: passed.reverse := by
  have hlength : (passed ++ [c]).length = passed.length + 1 := by simp
  rw [List.append_cons, List.take_left' hlength, List.reverse_append]
  rfl

/-- The lead is kept along the rest of a row. -/
theorem LeadsBy.row {leftEnd : Nat} (hleft : leftEnd ≤ first.length) :
    ∀ (passed word : List Char) {best : Block}, second = passed ++ word →
      LeadsBy popular first second leftEnd passed.length best →
      LeadsBy popular first second leftEnd second.length
        (((rowSizes popular (first.take leftEnd).reverse passed.reverse word).zipIdx
          (passed.length + 1)).foldl
            (fun best entry ↦ if best.size < entry.1 then
              ⟨leftEnd - entry.1, entry.2 - entry.1, entry.1⟩ else best) best) := by
  intro passed word
  induction word generalizing passed with
  | nil =>
    intro best hsecond h
    subst hsecond
    simpa [rowSizes] using h
  | cons d word ih =>
    intro best hsecond h
    have hnext : second = (passed ++ [d]) ++ word := by simpa using hsecond
    have hright : passed.length < second.length := by simp [hsecond]
    have htake : (second.take (passed.length + 1)).reverse = d :: passed.reverse := by
      rw [hsecond, reverse_take_succ]
    have hstep := h.step hleft hright
    simp only [blockTo, htake] at hstep
    have hrest := ih (passed ++ [d]) hnext (by simpa using hstep)
    simpa [rowSizes] using hrest

theorem LeadsBy.improve {leftEnd : Nat} {best : Block} (hleft : leftEnd ≤ first.length)
    (h : LeadsBy popular first second leftEnd 0 best) :
    LeadsBy popular first second leftEnd second.length
      (Similarity.improve leftEnd best
        (rowSizes popular (first.take leftEnd).reverse [] second)) :=
  LeadsBy.row hleft [] second rfl h

/-- The lead is kept along the rest of the rows. -/
theorem LeadsBy.rows : ∀ (passed word : List Char) {sizes : List Nat} {best : Block},
    first = passed ++ word → Serves popular second passed.reverse sizes →
    LeadsBy popular first second passed.length second.length best →
    LeadsBy popular first second first.length second.length
      ((word.zipIdx (passed.length + 1)).foldl
        (fun state entry ↦
          let sizes := endingBlocks popular entry.1 0 state.1 second
          (sizes, Similarity.improve entry.2 state.2 sizes)) (sizes, best)).2 := by
  intro passed word
  induction word generalizing passed with
  | nil =>
    intro sizes best hfirst _ h
    subst hfirst
    simpa using h
  | cons c word ih =>
    intro sizes best hfirst hserves h
    have hnext : first = (passed ++ [c]) ++ word := by simpa using hfirst
    have hlength : passed.length + 1 ≤ first.length := by simp [hfirst]
    have htake : (first.take (passed.length + 1)).reverse = c :: passed.reverse := by
      rw [hfirst, reverse_take_succ]
    have hrow := h.nextRow.improve hlength
    rw [htake] at hrow
    have hnextServes : Serves popular second (passed ++ [c]).reverse
        (rowSizes popular (c :: passed.reverse) [] second) := by
      rw [List.reverse_append]
      exact serves_rowSizes (c :: passed.reverse)
    have hrest := ih (passed ++ [c]) hnext hnextServes (by simpa using hrow)
    simpa [hserves c] using hrest

/-- The search finds the longest common block without popular characters, and of several the one
that starts first in the first word, then in the second. -/
theorem leads_longestSeed (popular first second : List Char) :
    Leads (IsCommon popular first second) (longestSeed popular first second) :=
  (LeadsBy.rows [] first rfl serves_nil leadsBy_zero).leads

/-! ### Extended blocks -/

/-- The outer block holds the inner one, which starts as far behind its start in the first word as
in the second. -/
def Block.Covers (outer inner : Block) : Prop :=
  ∃ back onward, inner.left = outer.left + back ∧ inner.right = outer.right + back ∧
    outer.size = back + inner.size + onward

/-- The block is the greatest common block around a seed. Characters may be popular in it. -/
structure Extends (first second : List Char) (seed block : Block) : Prop where
  common : IsCommon [] first second block
  covers : block.Covers seed
  greatest : ∀ other, IsCommon [] first second other → other.Covers seed → block.Covers other

theorem Extends.unique {seed block other : Block} (h : Extends first second seed block)
    (hother : Extends first second seed other) : block = other := by
  obtain ⟨back, onward, hleft, hright, hsize⟩ := h.greatest _ hother.common hother.covers
  obtain ⟨back', onward', hleft', hright', hsize'⟩ := hother.greatest _ h.common h.covers
  obtain ⟨left, right, size⟩ := block
  obtain ⟨left', right', size'⟩ := other
  simp only [Block.mk.injEq] at *
  omega

theorem IsCommon.toNil {block : Block} (h : IsCommon popular first second block) :
    IsCommon [] first second block :=
  ⟨h.left, h.right, h.same, fun _ _ ↦ List.not_mem_nil⟩

/-- A common block is made of its two parts wherever it is cut. -/
theorem isCommon_add_iff {left right size more : Nat} :
    IsCommon [] first second ⟨left, right, size + more⟩ ↔
      IsCommon [] first second ⟨left, right, size⟩ ∧
        IsCommon [] first second ⟨left + size, right + size, more⟩ := by
  constructor
  · rintro ⟨hleft, hright, hsame, -⟩
    dsimp only at hleft hright hsame
    rw [List.take_add, List.take_add, List.drop_drop, List.drop_drop] at hsame
    have hlength : ((first.drop left).take size).length =
        ((second.drop right).take size).length := by
      simp only [List.length_take, List.length_drop]
      omega
    obtain ⟨hfront, hback⟩ := List.append_inj hsame hlength
    exact ⟨⟨by dsimp only; omega, by dsimp only; omega, hfront, by simp⟩,
      ⟨by dsimp only; omega, by dsimp only; omega, hback, by simp⟩⟩
  · rintro ⟨⟨hleft, hright, hfront, -⟩, ⟨hleft', hright', hback, -⟩⟩
    dsimp only at hleft' hright' hfront hback
    refine ⟨by dsimp only; omega, by dsimp only; omega, ?_, by simp⟩
    dsimp only
    rw [List.take_add, List.take_add, List.drop_drop, List.drop_drop, hfront, hback]

/-- How far common blocks reach back from two places. -/
theorem isCommon_back_iff {left right size : Nat} (hleft : left + size ≤ first.length)
    (hright : right + size ≤ second.length) :
    IsCommon [] first second ⟨left, right, size⟩ ↔
      size ≤ commonStart (first.take (left + size)).reverse
        (second.take (right + size)).reverse := by
  rw [commonStart_eq_startWithout]
  exact isCommon_iff_le_startWithout hleft hright

/-- How far common blocks reach on from two places. -/
theorem isCommon_onward_iff {left right size : Nat} (hleft : left ≤ first.length)
    (hright : right ≤ second.length) :
    IsCommon [] first second ⟨left, right, size⟩ ↔
      size ≤ commonStart (first.drop left) (second.drop right) := by
  rw [commonStart_eq_startWithout, le_startWithout_iff, List.length_drop, List.length_drop]
  constructor
  · intro h
    have hl := h.left
    have hr := h.right
    dsimp only at hl hr
    exact ⟨by omega, by omega, h.same, h.free⟩
  · rintro ⟨hl, hr, hsame, hfree⟩
    exact ⟨by dsimp only; omega, by dsimp only; omega, hsame, hfree⟩

theorem commonStart_le (first second : List Char) :
    commonStart first second ≤ first.length ∧ commonStart first second ≤ second.length := by
  rw [commonStart_eq_startWithout]
  exact startWithout_le_length [] first second

/-- The longest block is the greatest one around the seed that is found. -/
theorem extends_longestBlock (popular first second : List Char) :
    Extends first second (longestSeed popular first second)
      (longestBlock popular first second) := by
  rcases hseed : longestSeed popular first second with ⟨left, right, size⟩
  have hcommon : IsCommon [] first second ⟨left, right, size⟩ :=
    hseed ▸ (leads_longestSeed popular first second).mem.toNil
  have hleft := hcommon.left
  have hright := hcommon.right
  dsimp only at hleft hright
  simp only [longestBlock, hseed]
  generalize hback : commonStart (first.take left).reverse (second.take right).reverse = back
  generalize honward :
    commonStart (first.drop (left + size)) (second.drop (right + size)) = onward
  obtain ⟨hbackLeft, hbackRight⟩ := commonStart_le (first.take left).reverse
    (second.take right).reverse
  simp only [List.length_reverse, List.length_take, hback] at hbackLeft hbackRight
  have hl : left - back + back = left := by omega
  have hr : right - back + back = right := by omega
  refine ⟨?_, ⟨back, onward, by dsimp only; omega, by dsimp only; omega, rfl⟩, ?_⟩
  · rw [isCommon_add_iff, isCommon_add_iff, hl, hr, ← Nat.add_assoc, ← Nat.add_assoc, hl, hr]
    refine ⟨⟨?_, hcommon⟩, ?_⟩
    · rw [isCommon_back_iff (by omega) (by omega), hl, hr, hback]
    · rw [isCommon_onward_iff hleft hright, honward]
  · rintro ⟨left', right', size'⟩ hother ⟨back', onward', hleft', hright', hsize'⟩
    dsimp only at hleft' hright' hsize'
    subst hleft' hright' hsize'
    rw [isCommon_add_iff, isCommon_add_iff, ← Nat.add_assoc, ← Nat.add_assoc] at hother
    obtain ⟨⟨hbefore, -⟩, hbehind⟩ := hother
    rw [isCommon_back_iff (by omega) (by omega), hback] at hbefore
    rw [isCommon_onward_iff hleft hright, honward] at hbehind
    exact ⟨back - back', onward - onward', by dsimp only; omega, by dsimp only; omega,
      by dsimp only; omega⟩

/-- The block is that of two words that counts: the greatest one around the first of the longest
common blocks without popular characters. -/
def IsLongest (popular first second : List Char) (block : Block) : Prop :=
  ∃ seed, Leads (IsCommon popular first second) seed ∧ Extends first second seed block

theorem IsLongest.unique {block other : Block} (h : IsLongest popular first second block)
    (hother : IsLongest popular first second other) : block = other := by
  obtain ⟨seed, hseed, hblock⟩ := h
  obtain ⟨seed', hseed', hblock'⟩ := hother
  obtain rfl := hseed.unique hseed'
  exact hblock.unique hblock'

theorem IsLongest.isCommon {block : Block} (h : IsLongest popular first second block) :
    IsCommon [] first second block := by
  obtain ⟨seed, -, hblock⟩ := h
  exact hblock.common

theorem isLongest_longestBlock (popular first second : List Char) :
    IsLongest popular first second (longestBlock popular first second) :=
  ⟨_, leads_longestSeed popular first second, extends_longestBlock popular first second⟩

/-! ### Shared characters -/

/-- The words share this number of characters: none if the block that counts has none, otherwise
those of the block, and those that the words share before it and behind it. -/
inductive Shares (popular : List Char) : List Char → List Char → Nat → Prop
  | nothing {first second : List Char} {block : Block}
      (hblock : IsLongest popular first second block) (hnone : block.size = 0) :
      Shares popular first second 0
  | around {first second : List Char} {block : Block} {before behind : Nat}
      (hblock : IsLongest popular first second block) (hsome : block.size ≠ 0)
      (hbefore : Shares popular (first.take block.left) (second.take block.right) before)
      (hbehind : Shares popular (first.drop (block.left + block.size))
        (second.drop (block.right + block.size)) behind) :
      Shares popular first second (before + block.size + behind)

theorem Shares.unique {matched other : Nat} (h : Shares popular first second matched)
    (hother : Shares popular first second other) : matched = other := by
  induction h generalizing other with
  | nothing hblock hnone =>
    cases hother with
    | nothing => rfl
    | around hblock' hsome =>
      obtain rfl := hblock.unique hblock'
      exact absurd hnone hsome
  | around hblock hsome _ _ ihbefore ihbehind =>
    cases hother with
    | nothing hblock' hnone =>
      obtain rfl := hblock.unique hblock'
      exact absurd hnone hsome
    | around hblock' _ hbefore hbehind =>
      obtain rfl := hblock.unique hblock'
      rw [ihbefore hbefore, ihbehind hbehind]

/-- As many steps as the first word has characters are enough. -/
theorem shares_sharedWithin {bound : Nat} (hbound : first.length ≤ bound) :
    Shares popular first second (sharedWithin popular bound first second) := by
  induction bound generalizing first second with
  | zero =>
    have hblock := isLongest_longestBlock popular first second
    have hleft := hblock.isCommon.left
    exact .nothing hblock (by omega)
  | succ bound ih =>
    have hblock := isLongest_longestBlock popular first second
    have hleft := hblock.isCommon.left
    rw [sharedWithin]
    split
    · rename_i hnone
      exact .nothing hblock (by simpa using hnone)
    · rename_i hsome
      have hsize : (longestBlock popular first second).size ≠ 0 := by simpa using hsome
      refine .around hblock hsize (ih ?_) (ih ?_)
      · rw [List.length_take]
        omega
      · rw [List.length_drop]
        omega

/-- The characters that are worked out to be shared are those that the words share. -/
theorem shares_shared (first second : List Char) :
    Shares (popularIn second) first second (shared first second) :=
  shares_sharedWithin le_rfl

/-- The longest block of two words is not the same the other way round, so the words may share
another number of characters. -/
example : shared "tide".toList "diet".toList = 1 ∧ shared "diet".toList "tide".toList = 2 := by
  decide +kernel

end StackCompiler.Text.Similarity
