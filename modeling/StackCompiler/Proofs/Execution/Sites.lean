import StackCompiler.Proofs.Execution.Layout

/-!
# Where statements stand in code

A `Site` says of a statement on which line its code starts and from which label on its labels are
numbered. `Stmt.sites` lists the sites of a statement and of all statements in it, the outer ones
first and the others in the order in which they are written, and the code of each stands at its site
(`Stmt.hasAt_of_mem_sites`).

Conditions and loops own two labels each. In the order of the sites these are the first two, the
next two and so on (`Stmt.ownLabels_sites`), whatever else stands between them. A jump goes back to
a label behind which it stands exactly if the label is that of the start of a loop
(`Stmt.jumpsBack_iff`).
-/

set_option autoImplicit false
set_option relaxedAutoImplicit false

namespace StackCompiler

/-! ### Sites -/

/-- Where the code of a statement stands. -/
structure Site where
  line : Nat
  first : Label
  statement : Stmt

def Site.code (site : Site) : List Instr :=
  site.statement.code site.first

mutual

/-- The sites of a statement and of the statements in it. -/
def Stmt.sites (line : Nat) (first : Label) : Stmt → List Site
  | .assign target value => [⟨line, first, .assign target value⟩]
  | .ifThen condition body =>
    ⟨line, first, .ifThen condition body⟩ ::
      body.sites (line + condition.code.length + 1) (first + 2)
  | .ifElse condition body alternative =>
    let bodyLine := line + condition.code.length + 1
    ⟨line, first, .ifElse condition body alternative⟩ ::
      (body.sites bodyLine (first + 2) ++
        alternative.sites (bodyLine + (body.code (first + 2)).length + 2)
          (first + 2 + body.labelCount))
  | .loop condition body =>
    ⟨line, first, .loop condition body⟩ ::
      body.sites (line + 1 + condition.code.length + 1) (first + 2)
  | .block statements =>
    ⟨line, first, .block statements⟩ :: Stmt.sitesOfAll line first statements

def Stmt.sitesOfAll (line : Nat) (first : Label) : List Stmt → List Site
  | [] => []
  | statement :: more =>
    statement.sites line first ++
      Stmt.sitesOfAll (line + (statement.code first).length) (first + statement.labelCount) more

end

/-- The sites of the statements of a program, its body being the first. -/
def Program.sites (program : Program) : List Site :=
  (Stmt.block program.statements).sites 0 0

theorem Stmt.hasAt_of_mem_sitesOfAll {machine : Machine} {statements : List Stmt}
    (ih : ∀ statement ∈ statements, ∀ {line first}, machine.HasAt line (statement.code first) →
      ∀ site ∈ statement.sites line first, machine.HasAt site.line site.code)
    {line : Nat} {first : Label} (h : machine.HasAt line (Stmt.codeOfAll statements first)) :
    ∀ site ∈ Stmt.sitesOfAll line first statements, machine.HasAt site.line site.code := by
  induction statements generalizing line first with
  | nil => simp [sitesOfAll]
  | cons statement more ihmore =>
    rw [codeOfAll] at h
    intro site hsite
    rcases List.mem_append.mp hsite with hsite | hsite
    · exact ih statement List.mem_cons_self h.left site hsite
    · exact ihmore (fun other hother ↦ ih other (List.mem_cons_of_mem _ hother)) h.right site hsite

/-- Where a statement stands in code, the statements in it stand at their sites. -/
theorem Stmt.hasAt_of_mem_sites {machine : Machine} (statement : Stmt) :
    ∀ {line : Nat} {first : Label}, machine.HasAt line (statement.code first) →
      ∀ site ∈ statement.sites line first, machine.HasAt site.line site.code := by
  induction statement with
  | assign target value =>
    intro line first h site hsite
    cases List.mem_singleton.mp hsite
    exact h
  | ifThen condition body ih =>
    intro line first h site hsite
    rcases List.mem_cons.mp hsite with rfl | hsite
    · exact h
    · have hbody := h.left.left.left.right
      rw [List.length_append, List.length_singleton, ← Nat.add_assoc] at hbody
      exact ih hbody site hsite
  | ifElse condition body alternative ihbody ihalternative =>
    intro line first h site hsite
    rcases List.mem_cons.mp hsite with rfl | hsite
    · exact h
    · have hbody := h.left.left.left.right
      have halternative := h.left.right
      simp only [List.length_append, List.length_cons, List.length_nil, Nat.zero_add,
        ← Nat.add_assoc] at hbody halternative
      rcases List.mem_append.mp hsite with hsite | hsite
      · exact ihbody hbody site hsite
      · exact ihalternative halternative site hsite
  | loop condition body ih =>
    intro line first h site hsite
    rcases List.mem_cons.mp hsite with rfl | hsite
    · exact h
    · have hbody := h.left.right
      simp only [List.length_append, List.length_cons, List.length_nil, Nat.zero_add,
        ← Nat.add_assoc] at hbody
      exact ih hbody site hsite
  | block statements ih =>
    intro line first h site hsite
    rcases List.mem_cons.mp hsite with rfl | hsite
    · exact h
    · exact hasAt_of_mem_sitesOfAll ih h site hsite

theorem Program.hasAt_of_mem_sites {program : Program} {divide : Division} {site : Site}
    (h : site ∈ program.sites) : Machine.HasAt ⟨program.code, divide⟩ site.line site.code :=
  Stmt.hasAt_of_mem_sites (.block program.statements) ⟨[], [.halt], rfl, rfl⟩ site h

/-! ### The labels of conditions and loops -/

def Stmt.isLoop : Stmt → Bool
  | .loop .. => true
  | .assign .. | .ifThen .. | .ifElse .. | .block _ => false

/-- Whether a statement is a condition or a loop. -/
def Stmt.isBranching : Stmt → Bool
  | .ifThen .. | .ifElse .. | .loop .. => true
  | .assign .. | .block _ => false

/-- The sites of conditions and loops. -/
def branchings (sites : List Site) : List Site :=
  sites.filter (·.statement.isBranching)

/-- The conditions and loops among some sites own so many labels from a first one on, two each and
in their order. -/
def OwnLabels (sites : List Site) (first : Label) (count : Nat) : Prop :=
  count = 2 * (branchings sites).length ∧
    (branchings sites).map Site.first = List.range' first (branchings sites).length 2

section OwnLabels

variable {site : Site} {sites front back : List Site} {first : Label} {count more : Nat}

theorem OwnLabels.nil : OwnLabels [] first 0 :=
  ⟨rfl, rfl⟩

theorem OwnLabels.append (hfront : OwnLabels front first count)
    (hback : OwnLabels back (first + count) more) :
    OwnLabels (front ++ back) first (count + more) := by
  obtain ⟨rfl, hfront⟩ := hfront
  obtain ⟨rfl, hback⟩ := hback
  have happend : branchings (front ++ back) = branchings front ++ branchings back :=
    List.filter_append ..
  refine ⟨by rw [happend, List.length_append, Nat.mul_add], ?_⟩
  rw [happend, List.map_append, hfront, hback, List.range'_append, List.length_append]

theorem OwnLabels.skip (hsite : site.statement.isBranching = false)
    (h : OwnLabels sites first count) : OwnLabels (site :: sites) first count := by
  have hskip : branchings (site :: sites) = branchings sites :=
    List.filter_cons_of_neg (by simp [hsite])
  rwa [OwnLabels, hskip]

theorem OwnLabels.own (hsite : site.statement.isBranching = true)
    (h : OwnLabels sites (site.first + 2) count) :
    OwnLabels (site :: sites) site.first (2 + count) := by
  obtain ⟨rfl, h⟩ := h
  have hown : branchings (site :: sites) = site :: branchings sites :=
    List.filter_cons_of_pos hsite
  refine ⟨by rw [hown, List.length_cons]; omega, ?_⟩
  rw [hown, List.map_cons, List.length_cons, List.range'_succ, h]

end OwnLabels

theorem Stmt.ownLabels_sitesOfAll {statements : List Stmt}
    (ih : ∀ statement ∈ statements, ∀ line first,
      OwnLabels (statement.sites line first) first statement.labelCount) (line : Nat)
    (first : Label) :
    OwnLabels (Stmt.sitesOfAll line first statements) first (Stmt.labelCountOfAll statements) := by
  induction statements generalizing line first with
  | nil => exact .nil
  | cons statement more ihmore =>
    exact (ih statement List.mem_cons_self line first).append
      (ihmore (fun other hother ↦ ih other (List.mem_cons_of_mem _ hother)) _ _)

theorem Stmt.ownLabels_sites (statement : Stmt) (line : Nat) (first : Label) :
    OwnLabels (statement.sites line first) first statement.labelCount := by
  induction statement generalizing line first with
  | assign target value => exact .skip rfl .nil
  | ifThen condition body ih | loop condition body ih => exact .own rfl (ih _ _)
  | ifElse condition body alternative ihbody ihalternative =>
    rw [labelCount, Nat.add_assoc]
    refine .own rfl ((ihbody _ _).append (ihalternative _ _))
  | block statements ih => exact .skip rfl (ownLabels_sitesOfAll ih line first)

/-! ### Jumps back -/

/-- A jump to a label stands behind the line that the label marks. -/
def JumpsBack (code : List Instr) (label : Label) : Prop :=
  ∃ instruction, instruction.target? = some label ∧ [.label label, instruction].Sublist code

theorem jumpsBack_append {first second : List Instr} {label : Label} :
    JumpsBack (first ++ second) label ↔ JumpsBack first label ∨ JumpsBack second label ∨
      .label label ∈ first ∧ label ∈ second.filterMap Instr.target? := by
  simp only [JumpsBack, List.mem_filterMap]
  constructor
  · rintro ⟨jump, htarget, hsublist⟩
    obtain ⟨front, back, hsplit, hfront, hback⟩ := List.sublist_append_iff.mp hsublist
    match front, hsplit with
    | [], hsplit =>
      cases hsplit
      exact .inr (.inl ⟨jump, htarget, hback⟩)
    | [_], hsplit =>
      cases hsplit
      exact .inr (.inr ⟨List.singleton_sublist.mp hfront, jump, List.singleton_sublist.mp hback,
        htarget⟩)
    | [_, _], hsplit =>
      cases hsplit
      exact .inl ⟨jump, htarget, hfront⟩
  · rintro (⟨jump, htarget, hfirst⟩ | ⟨jump, htarget, hsecond⟩ | ⟨hlabel, jump, hmem, htarget⟩)
    · exact ⟨jump, htarget, hfirst.trans (List.sublist_append_left ..)⟩
    · exact ⟨jump, htarget, hsecond.trans (List.sublist_append_right ..)⟩
    · exact ⟨jump, htarget, (List.singleton_sublist.mpr hlabel).append
        (List.singleton_sublist.mpr hmem)⟩

@[simp] theorem not_jumpsBack_nil {label : Label} : ¬ JumpsBack [] label := by
  simp [JumpsBack]

@[simp] theorem jumpsBack_cons {instruction : Instr} {code : List Instr} {label : Label} :
    JumpsBack (instruction :: code) label ↔ JumpsBack code label ∨
      instruction = .label label ∧ label ∈ code.filterMap Instr.target? := by
  have hone : ¬ JumpsBack [instruction] label := by
    rintro ⟨jump, -, hsublist⟩
    simpa using hsublist.length_le
  rw [← List.singleton_append, jumpsBack_append]
  simp [hone, eq_comm]

/-- Without the label there is no jump back to it. -/
theorem not_jumpsBack {code : List Instr} {label : Label} (h : .label label ∉ code) :
    ¬ JumpsBack code label := by
  rintro ⟨jump, -, hsublist⟩
  exact h (hsublist.subset List.mem_cons_self)

theorem Expr.label_not_mem_code (e : Expr) (label : Label) : .label label ∉ e.code := by
  rw [label_mem_iff, oncePerLabel_mark.filterMap_expr]
  exact List.not_mem_nil

theorem jumpsBack_branchCode (condition : Expr) (body : Stmt) {first label : Label}
    {alternative : List Instr}
    (h : label ∈ alternative.filterMap Instr.target? → first + 2 + body.labelCount ≤ label) :
    JumpsBack (branchCode first condition.code (body.code (first + 2)) alternative) label ↔
      JumpsBack (body.code (first + 2)) label ∨ JumpsBack alternative label := by
  have hcondition := condition.label_not_mem_code label
  simp only [branchCode, jumpsBack_append, jumpsBack_cons, not_jumpsBack_nil,
    not_jumpsBack hcondition, List.mem_append, hcondition, body.label_mem_code_iff,
    List.filterMap_cons, List.filterMap_nil, Instr.target?_jump, Instr.target?_label,
    List.mem_cons, List.not_mem_nil, reduceCtorEq, Instr.label.injEq]
  grind

/-- Of the jumps of a loop the one to its first label goes back. -/
theorem jumpsBack_loopCode (condition : Expr) (body : Stmt) {first label : Label} :
    JumpsBack (loopCode first condition.code (body.code (first + 2))) label ↔
      label = first ∨ JumpsBack (body.code (first + 2)) label := by
  have hcondition := condition.label_not_mem_code label
  have htargets := oncePerLabel_target.mem_filterMap body (first + 2) label
  simp only [loopCode, jumpsBack_append, jumpsBack_cons, not_jumpsBack_nil,
    not_jumpsBack hcondition, List.mem_append, hcondition, body.label_mem_code_iff, htargets,
    oncePerLabel_target.filterMap_expr, List.filterMap_cons, List.filterMap_nil,
    Instr.target?_jump, Instr.target?_jumpIfZero, Instr.target?_label,
    List.mem_cons, List.not_mem_nil, reduceCtorEq, Instr.label.injEq]
  grind

theorem Stmt.jumpsBack_codeOfAll {statements : List Stmt} {label : Label}
    (ih : ∀ statement ∈ statements, ∀ line first, JumpsBack (statement.code first) label ↔
      ∃ site ∈ statement.sites line first, site.statement.isLoop = true ∧ site.first = label)
    (line : Nat) (first : Label) : JumpsBack (Stmt.codeOfAll statements first) label ↔
      ∃ site ∈ Stmt.sitesOfAll line first statements,
        site.statement.isLoop = true ∧ site.first = label := by
  induction statements generalizing line first with
  | nil => simp [codeOfAll, sitesOfAll]
  | cons statement more ihmore =>
    have hmore := ihmore fun other hother ↦ ih other (List.mem_cons_of_mem _ hother)
    have htargets := oncePerLabel_target.mem_filterMap (.block more)
      (first + statement.labelCount) label
    rw [Stmt.code] at htargets
    have hcross : ¬ (.label label ∈ statement.code first ∧
        label ∈ (Stmt.codeOfAll more (first + statement.labelCount)).filterMap Instr.target?) := by
      rw [statement.label_mem_code_iff, htargets]
      omega
    rw [codeOfAll, sitesOfAll, jumpsBack_append, ih statement List.mem_cons_self line first,
      hmore (line + (statement.code first).length) (first + statement.labelCount)]
    simp only [hcross, or_false, List.mem_append, or_and_right, exists_or]

/-- The labels to which jumps go back are those of the starts of loops. -/
theorem Stmt.jumpsBack_iff {label : Label} (statement : Stmt) (line : Nat) (first : Label) :
    JumpsBack (statement.code first) label ↔
      ∃ site ∈ statement.sites line first, site.statement.isLoop = true ∧ site.first = label := by
  induction statement generalizing line first with
  | assign target value =>
    have hvalue := value.label_not_mem_code label
    simp [code, sites, isLoop, jumpsBack_append, not_jumpsBack hvalue, hvalue]
  | ifThen condition body ih =>
    rw [code, jumpsBack_branchCode condition body (by simp), ih (line + condition.code.length + 1)]
    simp [sites, isLoop]
  | ifElse condition body alternative ihbody ihalternative =>
    have htargets := oncePerLabel_target.mem_filterMap alternative
      (first + 2 + body.labelCount) label
    rw [code, jumpsBack_branchCode condition body fun h ↦ (htargets.mp h).1,
      ihbody (line + condition.code.length + 1), ihalternative
        (line + condition.code.length + 1 + (body.code (first + 2)).length + 2)]
    simp [sites, isLoop, or_and_right, exists_or]
  | loop condition body ih =>
    rw [code, jumpsBack_loopCode, ih (line + 1 + condition.code.length + 1), eq_comm]
    simp [sites, isLoop]
  | block statements ih =>
    rw [code, jumpsBack_codeOfAll (fun s hs ↦ ih s hs) line first]
    simp [sites, isLoop]

end StackCompiler
