import StackCompiler.Proofs.Typing.Check

/-!
# What a check enters into its scope

A check comes to the declarations of a tree one after another, and enters them until it is stopped.
Nothing else changes its scope: behind a check the scope holds what it held before, and behind that
the variables of the first declarations of the tree, of all of them if the check was not stopped
(`Node.findType_enters`). So a tree without declarations leaves the scope as it is
(`Node.check_of_no_declarations`), and a program with such a body stops at its first declaration
that cannot be entered, or enters them all (`exists_findTypes_decls`).

Scopes are built by declarations: a check on top of a scope is a check from the start of the tree
with the declarations of the scope in front of its own (`Node.check_program_append`).
-/

set_option autoImplicit false
set_option relaxedAutoImplicit false

namespace StackCompiler

/-! ### The declarations of a tree -/

mutual

/-- The declarations in a tree, in the order in which a check comes to them. -/
def Node.declarations : Node → List Decl
  | .program _ declarations body => Node.declarationsOfAll declarations ++ body.declarations
  | .varDecl name type => [⟨name, type⟩]
  | .block statements => Node.declarationsOfAll statements
  | .assign _ value => value.declarations
  | .ifThen condition body | .loop condition body => condition.declarations ++ body.declarations
  | .ifElse condition body alternative =>
    condition.declarations ++ (body.declarations ++ alternative.declarations)
  | .binary left _ right => left.declarations ++ right.declarations
  | .intLit _ | .boolLit _ | .use _ | .hole _ => []

def Node.declarationsOfAll : List Node → List Decl
  | [] => []
  | node :: more => node.declarations ++ Node.declarationsOfAll more

end

theorem Node.declarationsOfAll_map_node (declarations : List Decl) :
    Node.declarationsOfAll (declarations.map Decl.node) = declarations := by
  induction declarations with
  | nil => rfl
  | cons decl more ih =>
    rw [List.map_cons, Node.declarationsOfAll, ih]
    rfl

/-! ### Growing scopes -/

/-- A scope has grown by the variables of some declarations, and keeps its names apart. -/
structure Scope.GrowsBy (before after : Scope) (entered : List Decl) : Prop where
  entries : ∃ further, List.Forall₂ Decl.Declares entered further ∧
    after.entries = before.entries ++ further
  nodup : before.names.Nodup → after.names.Nodup

theorem Scope.GrowsBy.refl (scope : Scope) : scope.GrowsBy scope [] where
  entries := ⟨[], .nil, by simp⟩
  nodup h := h

theorem Scope.GrowsBy.trans {before middle after : Scope} {first second : List Decl}
    (hfirst : before.GrowsBy middle first) (hsecond : middle.GrowsBy after second) :
    before.GrowsBy after (first ++ second) where
  entries := by
    obtain ⟨further, hdeclares, hmiddle⟩ := hfirst.entries
    obtain ⟨more, hmore, hafter⟩ := hsecond.entries
    exact ⟨further ++ more, List.rel_append hdeclares hmore, by simp [hafter, hmiddle]⟩
  nodup h := hsecond.nodup (hfirst.nodup h)

theorem Scope.GrowsBy.eq_of_nil {before after : Scope} (h : before.GrowsBy after []) :
    after = before := by
  obtain ⟨further, hdeclares, hafter⟩ := h.entries
  obtain rfl := List.forall₂_nil_left_iff.mp hdeclares
  cases before
  cases after
  simpa using hafter

theorem Scope.GrowsBy.isPrefix {before after : Scope} {entered : List Decl}
    (h : before.GrowsBy after entered) : before.entries <+: after.entries := by
  obtain ⟨further, -, hafter⟩ := h.entries
  exact ⟨further, hafter.symm⟩

theorem Scope.GrowsBy.size_eq {before after : Scope} {entered : List Decl}
    (h : before.GrowsBy after entered) : after.size = before.size + entered.length := by
  obtain ⟨further, hdeclares, hafter⟩ := h.entries
  rw [Scope.size, hafter, List.length_append, ← hdeclares.length_eq, Scope.size]

/-- What is declared in front of a scope that has grown is declared in it. -/
theorem Scope.GrowsBy.declares {before after : Scope} {earlier entered : List Decl}
    (h : before.GrowsBy after entered)
    (hearlier : List.Forall₂ Decl.Declares earlier before.entries) :
    List.Forall₂ Decl.Declares (earlier ++ entered) after.entries := by
  obtain ⟨further, hdeclares, hafter⟩ := h.entries
  rw [hafter]
  exact List.rel_append hearlier hdeclares

/-! ### Checks that enter declarations -/

/-- The first of some declarations were entered, and all of them unless the check was stopped. -/
def Scope.Enters {α : Type} (before : Scope) (declared : List Decl)
    (result : Except CheckFault α × Scope) : Prop :=
  ∃ entered rest, declared = entered ++ rest ∧ before.GrowsBy result.2 entered ∧
    ((∃ a, result.1 = .ok a) → rest = [])

theorem Scope.Enters.nothing {α : Type} (before : Scope) (found : Except CheckFault α) :
    before.Enters [] (found, before) :=
  ⟨[], [], rfl, .refl before, fun _ ↦ rfl⟩

theorem Scope.Enters.stopped {α : Type} (before : Scope) (declared : List Decl)
    (fault : CheckFault) : before.Enters (α := α) declared (.error fault, before) :=
  ⟨[], declared, rfl, .refl before, fun ⟨_, hok⟩ ↦ nomatch hok⟩

/-- A check enters the first of some declarations, and all of them unless it is stopped. -/
def Check.Enters {α : Type} (check : Check α) (declared : List Decl) : Prop :=
  ∀ before : Scope, before.Enters declared (check.run.run before).run

section Laws

variable {α β : Type}

theorem Check.Enters.pure (a : α) : (Pure.pure a : Check α).Enters [] :=
  fun before ↦ .nothing before _

theorem Check.Enters.violate (cause : Cause) (token : Token) :
    (StackCompiler.violate cause token : Check α).Enters [] :=
  fun before ↦ .nothing before _

theorem Check.Enters.breakDown (breakdown : Breakdown) :
    (StackCompiler.breakDown breakdown : Check α).Enters [] :=
  fun before ↦ .nothing before _

theorem Check.Enters.bind {check : Check α} {next : α → Check β} {first second : List Decl}
    (h : check.Enters first) (hnext : ∀ a, (next a).Enters second) :
    (check >>= next).Enters (first ++ second) := by
  intro before
  obtain ⟨entered, rest, rfl, hgrows, hall⟩ := h before
  rw [Check.run_bind]
  rcases hrun : (check.run.run before).run with ⟨fault | a, middle⟩ <;> rw [hrun] at hgrows hall
  · exact ⟨entered, rest ++ second, by simp, hgrows, fun ⟨_, hok⟩ ↦ nomatch hok⟩
  · obtain rfl := hall ⟨a, rfl⟩
    obtain ⟨more, left, rfl, hmore, hleft⟩ := hnext a middle
    exact ⟨entered ++ more, left, by simp, hgrows.trans hmore, hleft⟩

/-- A check may look at the scope first. -/
theorem Check.Enters.get_bind {next : Scope → Check α} {declared : List Decl}
    (h : ∀ scope, (next scope).Enters declared) : (get >>= next).Enters declared :=
  fun before ↦ h before before

end Laws

theorem requireVariable_enters (name : Token) : (requireVariable name).Enters [] := by
  refine .get_bind fun scope ↦ ?_
  cases scope.find? name.lexeme with
  | none => exact .violate _ name
  | some found => exact .pure found

theorem operationType_enters (operator : Token) (left right : Option Ty) :
    (operationType operator left right).Enters [] := by
  unfold operationType
  split
  · split
    · exact .pure _
    · exact .violate _ operator
  · exact .breakDown _

theorem Node.firstToken_enters : ∀ node : Node, node.firstToken.Enters []
  | .binary left _ _ => left.firstToken_enters
  | .intLit token | .boolLit token | .use token => .pure token
  | .program .. | .varDecl .. | .block _ | .assign .. | .ifThen .. | .ifElse .. | .loop ..
  | .hole _ => .breakDown _

theorem requireBoolean_enters (statement : String) (condition : Node) (type : Option Ty) :
    (requireBoolean statement condition type).Enters [] := by
  unfold requireBoolean
  split
  · exact .pure ()
  · exact .bind condition.firstToken_enters fun first ↦ .violate _ first

/-- A variable is entered behind the others, unless one of them has its name. -/
theorem Scope.growsBy_declare {before larger : Scope} {decl : Decl} {type : Ty}
    (htype : Ty.ofKind? decl.type.kind = some type)
    (h : before.declare ⟨decl.name, type⟩ = .ok larger) : before.GrowsBy larger [decl] := by
  unfold Scope.declare at h
  split at h
  · cases h
  · rename_i hnew
    cases h
    refine ⟨⟨[⟨decl.name, type⟩], .cons ⟨rfl, htype⟩ .nil, rfl⟩, fun hnodup ↦ ?_⟩
    exact Scope.nodup_names_concat.mpr ⟨hnodup, Scope.find?_eq_none.mp hnew⟩

/-- How a declaration is entered: not if its type is no type, and not if its name is there. -/
theorem run_enter (name type : Token) (before : Scope) :
    ((enter name type).run.run before).run = match type.type with
      | .error found => (.error (.breakdown found), before)
      | .ok found => match before.declare ⟨name, found⟩ with
        | .ok larger => (.ok (), larger)
        | .error first => (.error (.violation
            ⟨.duplicateDeclaration name.lexeme (some first.token.location), name⟩), before) := by
  unfold enter
  cases type.type with
  | error found => rfl
  | ok found =>
    change ((match before.declare ⟨name, found⟩ with
      | .ok larger => set larger
      | .error first =>
        violate (.duplicateDeclaration name.lexeme (some first.token.location)) name :
          Check Unit).run.run before).run = _
    dsimp only
    cases before.declare ⟨name, found⟩ <;> rfl

theorem enter_enters (name type : Token) : (enter name type).Enters [⟨name, type⟩] := by
  intro before
  rw [run_enter]
  cases htype : Ty.ofKind? type.kind with
  | none =>
    simp only [Token.type, htype]
    exact .stopped before _ _
  | some found =>
    simp only [Token.type, htype]
    cases hdeclare : before.declare ⟨name, found⟩ with
    | error first => exact .stopped before _ _
    | ok larger =>
      exact ⟨[⟨name, type⟩], [], rfl, Scope.growsBy_declare htype hdeclare, fun _ ↦ rfl⟩

mutual

/-- A check enters the declarations of a tree in their order, and nothing else. -/
theorem Node.findType_enters : ∀ node : Node, node.findType.Enters node.declarations
  | .program name declarations body => by
    simpa [Node.findType, Node.declarations] using
      (Node.findTypes_enters declarations).bind fun _ ↦ body.findType_enters.bind fun _ ↦ .pure none
  | .varDecl name type => (enter_enters name type).bind fun _ ↦ .pure none
  | .block statements => by
    simpa [Node.findType, Node.declarations] using
      (Node.findTypes_enters statements).bind fun _ ↦ .pure none
  | .assign target value => by
    have h (declared : Variable) : (value.findType >>= fun type ↦
        if type == some declared.type then pure none
        else violate (.assignmentType target.lexeme declared.type.name (typeText type)) target :
          Check (Option Ty)).Enters (value.declarations ++ []) := by
      refine value.findType_enters.bind fun type ↦ ?_
      split
      · exact .pure none
      · exact .violate _ target
    simpa [Node.findType, Node.declarations] using (requireVariable_enters target).bind h
  | .ifThen condition body => by
    have h := condition.findType_enters.bind fun type ↦
      (requireBoolean_enters "if" condition type).bind fun _ ↦
      body.findType_enters.bind fun _ ↦ .pure (none : Option Ty)
    simpa [Node.findType, Node.declarations] using h
  | .ifElse condition body alternative => by
    have h := condition.findType_enters.bind fun type ↦
      (requireBoolean_enters "if" condition type).bind fun _ ↦
      body.findType_enters.bind fun _ ↦ alternative.findType_enters.bind fun _ ↦
      .pure (none : Option Ty)
    simpa [Node.findType, Node.declarations] using h
  | .loop condition body => by
    have h := condition.findType_enters.bind fun type ↦
      (requireBoolean_enters "while" condition type).bind fun _ ↦
      body.findType_enters.bind fun _ ↦ .pure (none : Option Ty)
    simpa [Node.findType, Node.declarations] using h
  | .binary left operator right => by
    have h := left.findType_enters.bind fun first ↦ right.findType_enters.bind fun second ↦
      (operationType_enters operator first second).bind fun type ↦ .pure (some type)
    simpa [Node.findType, Node.declarations] using h
  | .intLit _ => .pure _
  | .boolLit _ => .pure _
  | .use name => (requireVariable_enters name).bind fun declared ↦ .pure _
  | .hole gap => .breakDown _

theorem Node.findTypes_enters : ∀ nodes : List Node,
    (Node.findTypes nodes).Enters (Node.declarationsOfAll nodes)
  | [] => .pure ()
  | node :: more => node.findType_enters.bind fun _ ↦ Node.findTypes_enters more

end

/-- A tree without declarations is checked on the scope as it is. -/
theorem Node.check_of_no_declarations {tree : Node} (h : tree.declarations = []) (scope : Scope) :
    (tree.check scope).2 = scope := by
  obtain ⟨entered, rest, hnone, hgrows, -⟩ := tree.findType_enters scope
  rw [h] at hnone
  obtain ⟨rfl, -⟩ := List.append_eq_nil_iff.mp hnone.symm
  exact hgrows.eq_of_nil

/-! ### Programs -/

/-- A declaration is entered, or stops the check without a change. -/
theorem Decl.run_findType (decl : Decl) (before : Scope) :
    (∃ larger, (decl.node.findType.run.run before).run = (.ok none, larger) ∧
        before.GrowsBy larger [decl]) ∨
      ∃ fault, (decl.node.findType.run.run before).run = (.error fault, before) := by
  have hrun : (decl.node.findType.run.run before).run =
      match ((enter decl.name decl.type).run.run before).run with
        | (.ok _, larger) => (.ok none, larger)
        | (.error fault, left) => (.error fault, left) :=
    (Check.run_bind (enter decl.name decl.type) (fun _ ↦ pure none) before).trans (by
      rcases ((enter decl.name decl.type).run.run before).run with ⟨_ | _, _⟩ <;> rfl)
  rw [hrun, run_enter]
  cases htype : Ty.ofKind? decl.type.kind with
  | none =>
    simp only [Token.type, htype]
    exact .inr ⟨_, rfl⟩
  | some found =>
    simp only [Token.type, htype]
    cases hdeclare : before.declare ⟨decl.name, found⟩ with
    | error first => exact .inr ⟨_, rfl⟩
    | ok larger => exact .inl ⟨larger, rfl, Scope.growsBy_declare htype hdeclare⟩

/-- The first declaration that cannot be entered stops the check, which has entered those in front
of it. -/
theorem exists_findTypes_decls (declarations : List Decl) (before : Scope) :
    ∃ entered rest after, declarations = entered ++ rest ∧ before.GrowsBy after entered ∧
      (rest = [] ∧ ((Node.findTypes (declarations.map Decl.node)).run.run before).run =
          (.ok (), after) ∨
        ∃ decl more fault, rest = decl :: more ∧ decl.node.check after = (.error fault, after) ∧
          ((Node.findTypes (declarations.map Decl.node)).run.run before).run =
            (.error fault, after)) := by
  induction declarations generalizing before with
  | nil => exact ⟨[], [], before, rfl, .refl before, .inl ⟨rfl, rfl⟩⟩
  | cons decl more ih =>
    rw [List.map_cons, Node.findTypes, Check.run_bind]
    rcases decl.run_findType before with ⟨larger, hrun, hgrows⟩ | ⟨fault, hrun⟩
    · rw [hrun]
      obtain ⟨entered, rest, after, rfl, hmore, hending⟩ := ih larger
      exact ⟨decl :: entered, rest, after, rfl, hgrows.trans hmore, hending⟩
    · rw [hrun]
      exact ⟨[], decl :: more, before, rfl, .refl before, .inr ⟨decl, more, fault, rfl, hrun, rfl⟩⟩

/-- A program whose body declares nothing enters its declarations up to the first that stops the
check. If none does, its body is checked on all of them. -/
theorem Node.exists_check_program {body : Node} (hbody : body.declarations = []) (name : Token)
    (declarations : List Decl) (before : Scope) :
    ∃ entered rest after found, declarations = entered ++ rest ∧ before.GrowsBy after entered ∧
      (Node.program name (declarations.map Decl.node) body).check before = (found, after) ∧
      (rest = [] ∧ (body.check after).2 = after ∧ found = (fun _ ↦ none) <$> (body.check after).1 ∨
        ∃ decl more fault, rest = decl :: more ∧ decl.node.check after = (.error fault, after) ∧
          found = .error fault) := by
  obtain ⟨entered, rest, after, hall, hgrows, hending⟩ :=
    exists_findTypes_decls declarations before
  have hlast (middle : Scope) :
      ((do let _ ← body.findType; return none : Check (Option Ty)).run.run middle).run =
        ((fun _ ↦ none) <$> (body.check middle).1, (body.check middle).2) := by
    refine (Check.run_bind _ _ middle).trans ?_
    unfold Node.check
    generalize body.findType.run.run middle = ran
    rcases ran with ⟨_ | _, _⟩ <;> rfl
  have hrun := Check.run_bind (Node.findTypes (declarations.map Decl.node))
    (fun _ ↦ do let _ ← body.findType; return (none : Option Ty)) before
  rcases hending with ⟨hrest, hdone⟩ | ⟨decl, more, fault, hrest, hdecl, hstopped⟩
  · have hsame := Node.check_of_no_declarations hbody after
    rw [hdone] at hrun
    exact ⟨entered, rest, after, _, hall, hgrows,
      (hrun.trans (hlast after)).trans (by rw [hsame]), .inl ⟨hrest, hsame, rfl⟩⟩
  · rw [hstopped] at hrun
    exact ⟨entered, rest, after, _, hall, hgrows, hrun, .inr ⟨decl, more, fault, hrest, hdecl, rfl⟩⟩

theorem Node.findTypes_append (first second : List Node) :
    Node.findTypes (first ++ second) = (do
      Node.findTypes first
      Node.findTypes second) := by
  induction first with
  | nil => rfl
  | cons node more ih => simp [Node.findTypes, ih]

/-- A check on top of a scope is one from the start, with the declarations of the scope in front. -/
theorem Node.check_program_append {scope : Scope} {earlier : List Decl}
    (hearlier : List.Forall₂ Decl.Declares earlier scope.entries) (hnodup : scope.names.Nodup)
    (name : Token) (declarations : List Decl) (body : Node) :
    (Node.program name ((earlier ++ declarations).map Decl.node) body).check .empty =
      (Node.program name (declarations.map Decl.node) body).check scope := by
  have hbuilt : ((Node.findTypes (earlier.map Decl.node)).run.run .empty).run = (.ok (), scope) :=
    (findTypes_decls_yields (by simp [Scope.names, Scope.empty])).mpr
      ⟨scope.entries, hearlier, rfl, hnodup⟩
  simp only [Node.check, Node.findType, List.map_append, Node.findTypes_append, bind_assoc]
  exact (Check.run_bind _ _ _).trans (by rw [hbuilt]; rfl)

end StackCompiler
