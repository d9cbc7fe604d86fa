import Mathlib.Data.List.Nodup
import StackCompiler.Proofs.Passes.Entries
import StackCompiler.Typing.Requests

/-!
# A scope in use

A scope is asked for variables, and variables are declared in it, in any order. It knows the
variables whose declarations it has not refused, in the order in which they were declared, and no
two of them have the same name. All its replies are about these: a declaration is refused exactly if
one of them has the name already, with the place where that one was declared, and what is refused or
only asked makes no difference to any later reply (`Scope.Remembers`).

What was declared is read off the requests and the replies to them (`Scope.declaredBy`), not off the
scope, so `Scope.remembers_after` says how the replies to any requests hang together. The step from
one request to the next is `Scope.serve_cases`: the variable is new and goes behind the others, or
the scope stays as it is.
-/

set_option autoImplicit false
set_option relaxedAutoImplicit false

namespace StackCompiler

namespace Scope

/-! ### Requests and replies -/

def reply (scope : Scope) (request : Request) : Reply :=
  (scope.serve request).1

/-- The scope after some requests. -/
def after (scope : Scope) : List Request → Scope
  | [] => scope
  | request :: more => (scope.serve request).2.after more

/-- The replies to some requests, one for each. -/
def replies (scope : Scope) : List Request → List Reply
  | [] => []
  | request :: more => scope.reply request :: (scope.serve request).2.replies more

/-- The variable that a request has declared, if the reply does not refuse it. -/
def Request.declared? : Request → Reply → Option Variable
  | declare new, .declared => some new
  | _, _ => none

/-- The variables that some requests have declared, by the replies to them. -/
def declaredBy (scope : Scope) (requests : List Request) : List Variable :=
  (requests.zip (scope.replies requests)).filterMap fun entry ↦ entry.1.declared? entry.2

/-- The replies of a scope are about some variables that have been declared. -/
structure Remembers (scope : Scope) (declared : List Variable) : Prop where
  listed : scope.reply .list = .listed declared
  distinct : (declared.map Variable.name).Nodup
  counted : scope.reply .size = .counted declared.length
  found : ∀ name, ∃ known, scope.reply (.find name) = .found known ∧
    ∀ entry, known = some entry ↔ entry ∈ declared ∧ entry.name = name
  contained : ∀ name, ∃ known, scope.reply (.contains name) = .contained known ∧
    (known = true ↔ ∃ entry ∈ declared, entry.name = name)
  /-- A new name is declared behind the others. -/
  declares : ∀ new : Variable, (∀ entry ∈ declared, entry.name ≠ new.name) →
    scope.reply (.declare new) = .declared
  /-- A name that is declared already is refused, whatever the types are. -/
  refuses : ∀ new : Variable, ∀ entry ∈ declared, entry.name = new.name →
    scope.reply (.declare new) = .refused
      ⟨.duplicateDeclaration new.name (some entry.token.location), new.token⟩
  /-- What declares nothing changes nothing. -/
  unchanged : ∀ request, scope.reply request ≠ .declared →
    ∀ later, (scope.serve request).2.replies later = scope.replies later
  /-- A check enters a declaration as the scope replies to it. -/
  entered : ∀ (name keyword : Token) (type : Ty), keyword.type = .ok type →
    ((enter name keyword).run.run scope).run =
      match scope.serve (.declare ⟨name, type⟩) with
      | (.refused found, left) => (.error (.violation found), left)
      | (_, larger) => (.ok (), larger)

/-! ### One request -/

/-- A request declares a variable whose name is new, or leaves the scope as it is. -/
theorem serve_cases (scope : Scope) (request : Request) :
    (∃ new, request = .declare new ∧ new.name ∉ scope.names ∧
      scope.serve request = (.declared, ⟨scope.entries ++ [new]⟩)) ∨
    (scope.reply request ≠ .declared ∧ (scope.serve request).2 = scope) := by
  cases request with
  | declare new =>
    cases hfound : scope.find? new.name with
    | none =>
      refine .inl ⟨new, rfl, Scope.find?_eq_none.mp hfound, ?_⟩
      simp only [serve, Scope.declare, hfound]
    | some first =>
      refine .inr ⟨?_, ?_⟩
      · simp [reply, serve, Scope.declare, hfound]
      · simp only [serve, Scope.declare, hfound]
  | find name | contains name | similar name => exact .inr ⟨by simp [reply, serve], rfl⟩
  | size | list => exact .inr ⟨by simp [reply, serve], rfl⟩

/-- The variable that a name finds is the one of this name, since the names are distinct. -/
theorem find?_eq_some_iff {scope : Scope} (hdistinct : scope.names.Nodup) {name : String}
    {entry : Variable} :
    scope.find? name = some entry ↔ entry ∈ scope.entries ∧ entry.name = name := by
  constructor
  · intro hfound
    exact ⟨List.mem_of_find?_eq_some hfound, by simpa using List.find?_some hfound⟩
  · rintro ⟨hentry, hname⟩
    obtain ⟨other, hother⟩ : ∃ other, scope.find? name = some other := by
      rw [← Option.isSome_iff_exists, find?, List.find?_isSome]
      exact ⟨entry, hentry, by simpa using hname⟩
    have hsame : other.name = name := by simpa using List.find?_some hother
    have hmem : other ∈ scope.entries := List.mem_of_find?_eq_some hother
    have hentries := List.inj_on_of_nodup_map hdistinct hmem hentry (hsame.trans hname.symm)
    rw [hother, hentries]

theorem isSome_find?_iff {scope : Scope} {name : String} :
    (scope.find? name).isSome = true ↔ ∃ entry ∈ scope.entries, entry.name = name := by
  simp [find?, List.find?_isSome]

/-- A scope remembers its entries. -/
theorem remembers_entries {scope : Scope} (hdistinct : scope.names.Nodup) :
    scope.Remembers scope.entries where
  listed := rfl
  distinct := hdistinct
  counted := rfl
  found name := ⟨_, rfl, fun _ ↦ find?_eq_some_iff hdistinct⟩
  contained name := ⟨_, rfl, isSome_find?_iff⟩
  declares new hnew := by
    have hnone : scope.find? new.name = none := by
      rw [Scope.find?_eq_none, names, List.mem_map]
      rintro ⟨entry, hentry, hname⟩
      exact hnew entry hentry hname
    simp only [reply, serve, Scope.declare, hnone]
  refuses new entry hentry hname := by
    have hfound := (find?_eq_some_iff hdistinct).mpr ⟨hentry, hname⟩
    simp only [reply, serve, Scope.declare, hfound, duplicate]
  unchanged request hrequest later := by
    obtain ⟨new, rfl, -, hserve⟩ | ⟨-, hsame⟩ := scope.serve_cases request
    · exact absurd (congrArg Prod.fst hserve) hrequest
    · rw [hsame]
  entered name keyword type htype := by
    rw [run_enter, htype]
    simp only [serve]
    cases scope.declare ⟨name, type⟩ <;> rfl

/-! ### Any number of requests -/

theorem declaredBy_cons (scope : Scope) (request : Request) (more : List Request) :
    scope.declaredBy (request :: more) =
      (request.declared? (scope.reply request)).toList ++
        (scope.serve request).2.declaredBy more := by
  rw [declaredBy, replies, List.zip_cons_cons, List.filterMap_cons]
  cases request.declared? (scope.reply request) <;> rfl

theorem entries_after (scope : Scope) (requests : List Request) :
    (scope.after requests).entries = scope.entries ++ scope.declaredBy requests := by
  induction requests generalizing scope with
  | nil => exact (List.append_nil _).symm
  | cons request more ih =>
    rw [after, ih, declaredBy_cons]
    obtain ⟨new, rfl, -, hserve⟩ | ⟨hreply, hsame⟩ := scope.serve_cases request
    · rw [reply, hserve]
      simp [Request.declared?]
    · have hnone : request.declared? (scope.reply request) = none := by
        unfold Request.declared?
        split
        · rename_i hdeclared
          exact absurd hdeclared hreply
        · rfl
      rw [hsame, hnone]
      rfl

theorem nodup_names_after_requests {scope : Scope} (hdistinct : scope.names.Nodup)
    (requests : List Request) : (scope.after requests).names.Nodup := by
  induction requests generalizing scope with
  | nil => exact hdistinct
  | cons request more ih =>
    refine ih ?_
    obtain ⟨new, rfl, hnew, hserve⟩ | ⟨-, hsame⟩ := scope.serve_cases request
    · rw [hserve]
      exact Scope.nodup_names_concat.mpr ⟨hdistinct, hnew⟩
    · rw [hsame]
      exact hdistinct

/-- Whatever a scope was asked for since it was empty, it remembers what was declared. -/
theorem remembers_after (requests : List Request) :
    (Scope.empty.after requests).Remembers (Scope.empty.declaredBy requests) := by
  have hentries : (Scope.empty.after requests).entries = Scope.empty.declaredBy requests :=
    Scope.empty.entries_after requests
  have hdistinct : Scope.empty.names.Nodup := List.nodup_nil
  rw [← hentries]
  exact remembers_entries (nodup_names_after_requests hdistinct requests)

/-- The second declaration of `n` is refused although its type is another one. -/
example :
    let token (line : Int) : Token := ⟨.ident, "n", none, ⟨"", line, 5⟩⟩
    Scope.empty.replies [.contains "n", .declare ⟨token 1, .integer⟩, .declare ⟨token 2, .boolean⟩,
      .find "n", .size] =
      [.contained false, .declared,
        .refused ⟨.duplicateDeclaration "n" (some ⟨"", 1, 5⟩), token 2⟩,
        .found (some ⟨token 1, .integer⟩), .counted 1] := by
  decide

end Scope

end StackCompiler
