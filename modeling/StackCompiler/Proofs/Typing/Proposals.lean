import StackCompiler.Typing.Scope
import StackCompiler.Proofs.Typing.Likeness
import Mathlib.Algebra.Order.Field.Basic
import Mathlib.Algebra.Order.Field.Rat
import Mathlib.Data.List.Perm.Subperm
import Mathlib.Data.Prod.Lex
import Mathlib.Data.String.Basic
import Mathlib.Tactic.Linarith
import Mathlib.Tactic.NormNum
import Mathlib.Tactic.Positivity

/-!
# The names that are proposed for another

In the place of a name that is not declared, the declared names close to it are proposed.
`Scope.similarNames_listsClosest` is the main statement: they are the closest three, or fewer if
fewer are alike enough, in descending order (`ListsClosest`), and they are the same in whatever
order the names were declared. Likeness is that of `Similarity.Shares`, with the declared name as
the first word; of two names that are equally alike the greater one comes first (`rank`).

The comparisons of the sort are those of ranks (`comesFirst_eq`), so the sorted names descend, and
strictly, since no name is declared twice. That the order of the declarations plays no part is not
seen from the sort: there is one list of closest names for each set of names
(`ListsClosest.unique`).
-/

set_option autoImplicit false
set_option relaxedAutoImplicit false

namespace StackCompiler

namespace Text

open Similarity

/-! ### Likenesses as numbers -/

namespace Similarity

/-- The likeness of two words is twice the number of the characters that they share over the number
of all their characters. Two empty words are alike. -/
def Resembles (first second : List Char) (likeness : ℚ) : Prop :=
  ∃ matched, Shares (popularIn second) first second matched ∧
    likeness = if first.length + second.length = 0 then (1 : ℚ)
      else (2 * matched : ℚ) / (first.length + second.length : ℕ)

theorem Resembles.unique {first second : List Char} {likeness other : ℚ}
    (h : Resembles first second likeness) (hother : Resembles first second other) :
    likeness = other := by
  obtain ⟨matched, hshares, rfl⟩ := h
  obtain ⟨matched', hshares', rfl⟩ := hother
  rw [hshares.unique hshares']

/-- The number that a likeness stands for. -/
def Ratio.value (ratio : Ratio) : ℚ :=
  2 * ratio.matched / ratio.total

theorem resembles_ofWords (first second : List Char) :
    Resembles first second (Ratio.ofWords first second).value := by
  refine ⟨shared first second, shares_shared first second, ?_⟩
  rw [Ratio.ofWords]
  by_cases hempty : first.length + second.length = 0
  · rw [if_pos (by simpa using hempty), if_pos hempty]
    norm_num [Ratio.value]
  · rw [if_neg (by simpa using hempty), if_neg hempty, Ratio.value]

theorem Ratio.total_ofWords_pos (first second : List Char) :
    0 < (Ratio.ofWords first second).total := by
  rw [Ratio.ofWords]
  split
  · exact Nat.two_pos
  · rename_i hsome
    simp only [beq_iff_eq] at hsome
    exact Nat.pos_of_ne_zero hsome

theorem Ratio.lt_iff {a b : Ratio} (ha : 0 < a.total) (hb : 0 < b.total) :
    a.lt b = true ↔ a.value < b.value := by
  have ha' : (0 : ℚ) < a.total := by exact_mod_cast ha
  have hb' : (0 : ℚ) < b.total := by exact_mod_cast hb
  rw [Ratio.lt, decide_eq_true_iff, value, value, div_lt_div_iff₀ ha' hb']
  constructor
  · intro h
    have h' : (a.matched * b.total : ℚ) < b.matched * a.total := by exact_mod_cast h
    linarith
  · intro h
    have h' : (a.matched * b.total : ℚ) < b.matched * a.total := by linarith
    exact_mod_cast h'

theorem Ratio.isClose_iff {a : Ratio} (ha : 0 < a.total) :
    a.isClose = true ↔ 3 / 5 ≤ a.value := by
  have ha' : (0 : ℚ) < a.total := by exact_mod_cast ha
  rw [isClose, decide_eq_true_iff, value, le_div_iff₀ ha']
  constructor
  · intro h
    have h' : (3 * a.total : ℚ) ≤ 10 * a.matched := by exact_mod_cast h
    linarith
  · intro h
    have h' : (3 * a.total : ℚ) ≤ 10 * a.matched := by linarith
    exact_mod_cast h'

end Similarity

/-! ### Ranks -/

/-- The likeness of a declared name, which is taken first, to a word. -/
def likeness (word name : String) : ℚ :=
  (Ratio.ofWords name.toList word.toList).value

/-- Names are ranked by their likeness to a word, and those that are equally alike by themselves. -/
def rank (word name : String) : ℚ ×ₗ String :=
  toLex (likeness word name, name)

theorem rank_injective (word : String) : Function.Injective (rank word) := by
  intro name other h
  exact congrArg (fun place ↦ (ofLex place).2) h

theorem comesFirst_eq (word name other : String) :
    comesFirst (Ratio.ofWords name.toList word.toList, name)
        (Ratio.ofWords other.toList word.toList, other) =
      decide (rank word other ≤ rank word name) := by
  have hlt := Ratio.lt_iff (Ratio.total_ofWords_pos other.toList word.toList)
    (Ratio.total_ofWords_pos name.toList word.toList)
  have hgt := Ratio.lt_iff (Ratio.total_ofWords_pos name.toList word.toList)
    (Ratio.total_ofWords_pos other.toList word.toList)
  rw [Bool.eq_iff_iff, decide_eq_true_iff, rank, rank, Prod.Lex.toLex_le_toLex, comesFirst]
  simp only [Bool.or_eq_true, Bool.and_eq_true, Bool.not_eq_true', decide_eq_true_iff,
    ← Bool.not_eq_true, hlt, hgt, likeness, not_lt]
  constructor
  · rintro (h | ⟨h, hname⟩)
    · exact .inl h
    · exact (lt_or_eq_of_le h).imp id fun h ↦ ⟨h, hname⟩
  · rintro (h | ⟨h, hname⟩)
    · exact .inl h
    · exact .inr ⟨h.le, hname⟩

/-- The close words are the first three of those that are alike enough, ranked from the top. -/
theorem closeWords_eq (word : String) (names : List String) :
    closeWords word names =
      ((names.filter fun name ↦ decide (3 / 5 ≤ likeness word name)).mergeSort
        fun name other ↦ decide (rank word other ≤ rank word name)).take 3 := by
  have hclose : ∀ name : String, (Ratio.ofWords name.toList word.toList).isClose =
      decide (3 / 5 ≤ likeness word name) := fun name ↦ by
    rw [Bool.eq_iff_iff, decide_eq_true_iff, likeness]
    exact Ratio.isClose_iff (Ratio.total_ofWords_pos _ _)
  have hsort := List.map_mergeSort (f := fun name : String ↦
    (Ratio.ofWords name.toList word.toList, name))
    (l := names.filter fun name ↦ decide (3 / 5 ≤ likeness word name))
    (r := fun name other ↦ decide (rank word other ≤ rank word name)) (s := comesFirst)
    fun name _ other _ ↦ (comesFirst_eq word name other).symm
  rw [closeWords]
  rw [List.filter_map]
  simp only [Function.comp_def, hclose]
  rw [← hsort, ← List.map_take, List.map_map]
  simp [Function.comp_def]

/-! ### The closest names -/

/-- The list has the closest of some names: three of them, or all that are alike enough. -/
structure ListsClosest (word : String) (names listed : List String) : Prop where
  length_le : listed.length ≤ 3
  mem : ∀ name ∈ listed, name ∈ names
  /-- No name is listed twice, as none ranks below itself. -/
  descending : listed.Pairwise fun name later ↦ rank word later < rank word name
  close : ∀ name ∈ listed, 3 / 5 ≤ likeness word name
  /-- A name that is left out is not alike enough, or it ranks below three that are listed. -/
  rest : ∀ name ∈ names, name ∉ listed → likeness word name < 3 / 5 ∨
    listed.length = 3 ∧ ∀ other ∈ listed, rank word name < rank word other

namespace ListsClosest

variable {word : String} {names listed : List String}

theorem nodup (h : ListsClosest word names listed) : listed.Nodup :=
  h.descending.imp fun hlt hsame ↦ absurd (hsame ▸ hlt) (lt_irrefl _)

/-- What is listed for some names is listed for the same names in any order. -/
theorem subset {names' listed' : List String} (h : ListsClosest word names listed)
    (h' : ListsClosest word names' listed') (hsame : ∀ name, name ∈ names ↔ name ∈ names') :
    listed ⊆ listed' := by
  intro name hname
  by_contra hout
  have hclose := h.close name hname
  rcases h'.rest name ((hsame name).mp (h.mem name hname)) hout with hfar | ⟨hthree, habove⟩
  · exact absurd hclose (not_le.mpr hfar)
  · -- The three names that are listed in the place of this one are all listed beside it.
    have hbeside : listed' ⊆ listed := by
      intro other hother
      by_contra hmissing
      rcases h.rest other ((hsame other).mpr (h'.mem other hother)) hmissing with
        hfar | ⟨-, hbelow⟩
      · exact absurd (h'.close other hother) (not_le.mpr hfar)
      · exact lt_asymm (hbelow name hname) (habove other hother)
    have hfour : (name :: listed').length ≤ listed.length :=
      (List.subperm_of_subset (List.nodup_cons.mpr ⟨hout, h'.nodup⟩)
        (List.cons_subset.mpr ⟨hname, hbeside⟩)).length_le
    have hlength := h.length_le
    rw [List.length_cons, hthree] at hfour
    omega

/-- There is one list of closest names for each set of names. -/
theorem unique {names' listed' : List String} (h : ListsClosest word names listed)
    (h' : ListsClosest word names' listed') (hsame : ∀ name, name ∈ names ↔ name ∈ names') :
    listed = listed' := by
  have hperm : listed.Perm listed' := (List.perm_ext_iff_of_nodup h.nodup h'.nodup).mpr fun name ↦
    ⟨fun hname ↦ h.subset h' hsame hname,
      fun hname ↦ h'.subset h (fun name ↦ (hsame name).symm) hname⟩
  exact hperm.eq_of_pairwise (fun _ _ _ _ hlt hgt ↦ absurd hlt (lt_asymm hgt)) h.descending
    h'.descending

end ListsClosest

/-- Of names that are all different the closest are found. -/
theorem listsClosest_closeWords {names : List String} (hdistinct : names.Nodup) (word : String) :
    ListsClosest word names (closeWords word names) := by
  rw [closeWords_eq]
  generalize hsorted : (names.filter fun name ↦ decide (3 / 5 ≤ likeness word name)).mergeSort
    (fun name other ↦ decide (rank word other ≤ rank word name)) = sorted
  have hperm : sorted.Perm (names.filter fun name ↦ decide (3 / 5 ≤ likeness word name)) :=
    hsorted ▸ List.mergeSort_perm _ _
  have hmem : ∀ name, name ∈ sorted ↔ name ∈ names ∧ 3 / 5 ≤ likeness word name := fun name ↦ by
    rw [hperm.mem_iff, List.mem_filter, decide_eq_true_iff]
  have hranked : sorted.Pairwise fun name later ↦ rank word later ≤ rank word name := by
    rw [← hsorted]
    refine (List.pairwise_mergeSort ?_ ?_ _).imp fun h ↦ of_decide_eq_true h
    · intro first second third h h'
      simp only [decide_eq_true_iff] at *
      exact h'.trans h
    · intro first second
      simpa using le_total (rank word second) (rank word first)
  have hstrict : sorted.Pairwise fun name later ↦ rank word later < rank word name := by
    refine (hranked.and (hperm.nodup_iff.mpr (hdistinct.filter _))).imp fun h ↦ ?_
    exact lt_of_le_of_ne h.1 fun hsame ↦ h.2 (rank_injective word hsame).symm
  refine ⟨List.length_take_le _ _, fun name hname ↦ ?_, hstrict.sublist (List.take_sublist _ _),
    fun name hname ↦ ?_, fun name hname hout ↦ ?_⟩
  · exact ((hmem name).mp (List.mem_of_mem_take hname)).1
  · exact ((hmem name).mp (List.mem_of_mem_take hname)).2
  · by_cases hclose : 3 / 5 ≤ likeness word name
    · have hbehind : name ∈ sorted.drop 3 := by
        have hsplit := (hmem name).mpr ⟨hname, hclose⟩
        rw [← List.take_append_drop 3 sorted, List.mem_append] at hsplit
        exact hsplit.resolve_left hout
      have hlength := List.length_pos_of_mem hbehind
      rw [← List.take_append_drop 3 sorted, List.pairwise_append] at hstrict
      rw [List.length_drop] at hlength
      refine .inr ⟨by rw [List.length_take]; omega, fun other hother ↦ ?_⟩
      exact hstrict.2.2 other hother name hbehind
    · exact .inl (not_le.mp hclose)

end Text

namespace Scope

open Text Text.Similarity

/-- The names that are proposed for a word are the closest of the declared ones, in whatever order
these were declared. The names of a scope are all different as long as it refuses a name that it has
(`nodup_names_after_requests`). -/
theorem similarNames_listsClosest (scope : Scope) (hdistinct : scope.names.Nodup) (word : String) :
    (∀ name, Resembles name.toList word.toList (likeness word name)) ∧
      ListsClosest word scope.names (scope.similarNames word) ∧
      ∀ other : Scope, other.names.Nodup → (∀ name, name ∈ other.names ↔ name ∈ scope.names) →
        other.similarNames word = scope.similarNames word :=
  ⟨fun name ↦ resembles_ofWords name.toList word.toList, listsClosest_closeWords hdistinct word,
    fun _ hother hsame ↦ (listsClosest_closeWords hother word).unique
      (listsClosest_closeWords hdistinct word) hsame⟩

/-- Integer variables of these names, declared in this order. -/
def ofNames (names : List String) : Scope :=
  ⟨names.map fun name ↦ ⟨⟨.ident, name, none, ⟨"", 1, 1⟩⟩, .integer⟩⟩

@[simp] theorem names_ofNames (list : List String) : (ofNames list).names = list := by
  rw [names, ofNames, List.map_map]
  exact List.map_id list

/-- Of three names two are close to a word, and they come in the same order when they are declared
the other way round. -/
theorem similarNames_ofNames :
    (ofNames ["idade", "idx", "idades"]).names.Nodup ∧
      (ofNames ["idade", "idx", "idades"]).similarNames "idad" = ["idade", "idades"] ∧
      ListsClosest "idad" (ofNames ["idade", "idx", "idades"]).names ["idade", "idades"] ∧
      (ofNames ["idades", "idx", "idade"]).similarNames "idad" = ["idade", "idades"] := by
  have hdistinct : (ofNames ["idade", "idx", "idades"]).names.Nodup := by decide
  have hlisted : (ofNames ["idade", "idx", "idades"]).similarNames "idad" =
      ["idade", "idades"] := by
    have hclose : ((ofNames ["idade", "idx", "idades"]).names.map fun name ↦
        (Ratio.ofWords name.toList "idad".toList, name)).filter (·.1.isClose) =
          [(⟨4, 9⟩, "idade"), (⟨4, 10⟩, "idades")] := by
      decide +kernel
    rw [similarNames, closeWords, hclose, List.mergeSort_of_pairwise (by decide +kernel)]
    rfl
  obtain ⟨-, hclosest, hsame⟩ := similarNames_listsClosest _ hdistinct "idad"
  have hother := hsame (ofNames ["idades", "idx", "idade"]) (by decide) fun name ↦ by
    rw [names_ofNames, names_ofNames]
    grind
  exact ⟨hdistinct, hlisted, hlisted ▸ hclosest, hother.trans hlisted⟩

end Scope

end StackCompiler
