import StackCompiler.Proofs.Command.Refusals

/-!
# Where the code goes

Without an output file on the command line the code goes to the path of the source with the suffix
of the options. `default_output_spares_source` is the main statement: this path is in the directory
of the source, and it is the path of the source itself just if the name of the source ends in the
suffix already (`Path.EndsIn`); a run leaves every other source file as it was, if the two paths do
not end in symbolic links and the file has no other names. Any other source can be replaced by its
code (`exists_source_replaced`): nothing compares the two files before the code is written.

The suffix of a name is cut off at its last dot (`Path.stem_append`, `Path.stem_cases`), so a name
gets itself back only from a suffix that it had (`Path.stem_append_eq_iff`). A run writes at most
the one file that it is asked for (`writes_runWith`). The names in front of the last one lead both
paths through the same links to the same directory (`FileTree.follow_append`), whatever `..` is
among them, so two paths that differ in the last name alone lead to different places unless a last
name is that of a link (`FileTree.ne_of_locate`).
-/

set_option autoImplicit false
set_option relaxedAutoImplicit false

namespace StackCompiler

/-! ### Names and suffixes -/

namespace Path

/-- The name is a stem that is not empty with the suffix behind it, and there is no dot behind the
one that the suffix starts with. -/
def NameEndsIn (name suffix : String) : Prop :=
  ∃ front extension, front ≠ [] ∧ extension ≠ [] ∧ '.' ∉ extension ∧
    suffix.toList = '.' :: extension ∧ name.toList = front ++ '.' :: extension

theorem stem_append {name : String} {front extension : List Char} (hfront : front ≠ [])
    (hextension : extension ≠ []) (hdot : '.' ∉ extension)
    (hname : name.toList = front ++ '.' :: extension) : stem name = String.ofList front := by
  have hreverse : name.toList.reverse = extension.reverse ++ '.' :: front.reverse := by
    simp [hname]
  have hfree : ∀ c ∈ extension.reverse, (c != '.') = true := by
    intro c hc
    have hne : c ≠ '.' := fun hsame ↦ hdot (hsame ▸ List.mem_reverse.mp hc)
    simpa using hne
  have hbehind : name.toList.reverse.takeWhile (· != '.') = extension.reverse := by
    rw [hreverse, List.takeWhile_append_of_pos hfree]
    simp
  have hbefore : name.toList.reverse.dropWhile (· != '.') = '.' :: front.reverse := by
    rw [hreverse, List.dropWhile_append_of_pos hfree]
    simp
  obtain ⟨c, before, hcut⟩ := List.exists_cons_of_ne_nil (List.reverse_ne_nil_iff.mpr hfront)
  have hnonempty : extension.reverse.isEmpty = false := by simpa using hextension
  rw [stem]
  simp only [hbehind, hbefore, hcut, hnonempty, Bool.false_eq_true, if_false]
  rw [← hcut, List.reverse_reverse]

/-- A name either has no suffix, or it is its stem and what follows from its last dot on. -/
theorem stem_cases (name : String) :
    stem name = name ∨ ∃ front extension, front ≠ [] ∧ extension ≠ [] ∧ '.' ∉ extension ∧
      name.toList = front ++ '.' :: extension := by
  have hparts : name.toList.reverse.takeWhile (· != '.') ++
      name.toList.reverse.dropWhile (· != '.') = name.toList.reverse :=
    List.takeWhile_append_dropWhile
  have hdot := List.head?_dropWhile_not (· != '.') name.toList.reverse
  have hfree : '.' ∉ name.toList.reverse.takeWhile (· != '.') := fun hmem ↦
    absurd (List.mem_takeWhile_imp hmem) (by simp)
  unfold stem
  dsimp only
  split
  · rename_i mark c before hbefore
    split
    · exact .inl rfl
    · rename_i hnonempty
      refine .inr ⟨(c :: before).reverse, (name.toList.reverse.takeWhile (· != '.')).reverse,
        by simp, by simpa using hnonempty, by simpa using hfree, ?_⟩
      have hmark : mark = '.' := by simpa [hbefore] using hdot
      rw [hbefore, hmark] at hparts
      have hname := congrArg List.reverse hparts
      rw [List.reverse_append, List.reverse_reverse] at hname
      exact hname.symm.trans (by simp)
  · exact .inl rfl

theorem exists_of_isSuffix {suffix : String} (h : isSuffix suffix = true) :
    ∃ extension, extension ≠ [] ∧ suffix.toList = '.' :: extension := by
  simp only [isSuffix, Bool.and_eq_true, String.startsWith_string_iff, bne_iff_ne] at h
  obtain ⟨⟨⟨extension, hextension⟩, hne⟩, -⟩ := h
  refine ⟨extension, ?_, hextension.symm⟩
  rintro rfl
  exact hne (String.toList_injective (by simpa using hextension.symm))

/-- The suffix in the place of that of a name gives the same name only if it was there. -/
theorem stem_append_eq_iff {name suffix : String} (h : isSuffix suffix = true) :
    stem name ++ suffix = name ↔ NameEndsIn name suffix := by
  constructor
  · intro hsame
    obtain ⟨extension, hextension, hsuffix⟩ := exists_of_isSuffix h
    rcases stem_cases name with hstem | ⟨front, behind, hfront, hbehind, hdot, hname⟩
    · have hlists := congrArg String.toList hsame
      rw [hstem, String.toList_append, hsuffix] at hlists
      simp at hlists
    · have hlists := congrArg String.toList hsame
      rw [stem_append hfront hbehind hdot hname, String.toList_append, String.toList_ofList,
        hname] at hlists
      exact ⟨front, behind, hfront, hbehind, hdot, List.append_cancel_left hlists, hname⟩
  · rintro ⟨front, extension, hfront, hextension, hdot, hsuffix, hname⟩
    refine String.toList_injective ?_
    rw [stem_append hfront hextension hdot hname, String.toList_append, String.toList_ofList,
      hsuffix, hname]

/-- A name with a suffix is longer than the two names that stand for directories. -/
theorem stem_append_ne {name suffix : String} (hname : name ≠ "") (h : isSuffix suffix = true) :
    stem name ++ suffix ≠ "." ∧ stem name ++ suffix ≠ ".." := by
  obtain ⟨extension, hextension, hsuffix⟩ := exists_of_isSuffix h
  have hstem : (stem name).toList ≠ [] := by
    rcases stem_cases name with hsame | ⟨front, behind, hfront, hbehind, hdot, hparts⟩
    · rw [hsame]
      simpa using hname
    · rwa [stem_append hfront hbehind hdot hparts, String.toList_ofList]
  have hlength : 3 ≤ (stem name ++ suffix).toList.length := by
    have hstem := List.length_pos_iff.mpr hstem
    have hextension := List.length_pos_iff.mpr hextension
    rw [String.toList_append, hsuffix, List.length_append, List.length_cons]
    omega
  constructor <;> intro hsame <;> rw [hsame] at hlength <;> exact absurd hlength (by decide)

/-! ### Paths -/

/-- The directory that a path leads through last. -/
def directory (path : Path) : Path :=
  { path with names := path.names.dropLast }

/-- The last name of the path ends in the suffix. -/
def EndsIn (path : Path) (suffix : String) : Prop :=
  ∃ name ∈ path.names.getLast?, NameEndsIn name suffix

theorem withSuffix_eq_ok {path out : Path} {suffix : String}
    (h : path.withSuffix suffix = .ok out) :
    isSuffix suffix = true ∧ ∃ names name, path = ⟨path.root, names ++ [name]⟩ ∧
      out = ⟨path.root, names ++ [stem name ++ suffix]⟩ := by
  unfold withSuffix at h
  split at h
  · cases h
  · rename_i hsuffix
    refine ⟨by simpa using hsuffix, ?_⟩
    split at h
    · rename_i name hlast
      cases h
      refine ⟨path.names.dropLast, name, ?_, rfl⟩
      rw [List.dropLast_append_getLast? name hlast]
    · cases h

/-- Every path with a name in it gets every suffix that is one. -/
theorem exists_withSuffix_iff {path : Path} {suffix : String} :
    (∃ out, path.withSuffix suffix = .ok out) ↔ isSuffix suffix = true ∧ path.names ≠ [] := by
  constructor
  · rintro ⟨out, h⟩
    obtain ⟨hsuffix, names, name, hpath, -⟩ := withSuffix_eq_ok h
    refine ⟨hsuffix, ?_⟩
    rw [hpath]
    simp
  · rintro ⟨hsuffix, hnames⟩
    obtain ⟨name, hname⟩ := Option.ne_none_iff_exists'.mp
      (mt List.getLast?_eq_none_iff.mp hnames)
    refine ⟨{ path with names := path.names.dropLast ++ [stem name ++ suffix] }, ?_⟩
    rw [withSuffix, hsuffix, hname]
    rfl

theorem directory_withSuffix {path out : Path} {suffix : String}
    (h : path.withSuffix suffix = .ok out) : out.directory = path.directory := by
  obtain ⟨-, names, name, hpath, rfl⟩ := withSuffix_eq_ok h
  rw [hpath]
  simp [directory]

theorem withSuffix_eq_self_iff {path out : Path} {suffix : String}
    (h : path.withSuffix suffix = .ok out) : out = path ↔ path.EndsIn suffix := by
  obtain ⟨hsuffix, names, name, hpath, rfl⟩ := withSuffix_eq_ok h
  have hends : path.EndsIn suffix ↔ NameEndsIn name suffix := by
    rw [EndsIn, hpath]
    simp
  rw [hends, ← stem_append_eq_iff hsuffix, hpath]
  simp

/-- A name that is read from a text is not empty. -/
theorem ne_empty_of_mem_ofText {text name : String} (h : name ∈ (ofText text).names) :
    name ≠ "" := by
  have hkept := (List.mem_filter.mp h).2
  rintro rfl
  simp at hkept

end Path

/-! ### Files -/

namespace FileTree

variable {tree : FileTree}

/-- The last name of a path is one of a symbolic link. -/
def IsLink (tree : FileTree) (path : Path) : Prop :=
  ∃ front last directory, path.names = front ++ [last] ∧
    tree.follow mostLinks (start tree.working path.root) front = .ok directory ∧
    (tree.links.lookup (step directory last)).isSome = true

/-- What comes of names that are followed behind others: a fault, whatever they are, or what comes
of them from a directory on, through the links that are left. -/
def GoesOn (tree : FileTree) (outcome : List String → Except FileFault (List String)) : Prop :=
  (∃ fault, ∀ rest, outcome rest = .error fault) ∨
    ∃ links directory, ∀ rest, outcome rest = tree.follow links directory rest

theorem followWith_append
    {onward : List String → List String → Except FileFault (List String)}
    (honward : ∀ names first, tree.GoesOn fun rest ↦ onward names (first ++ rest))
    {links : Nat} (hfollow : tree.followWith onward = tree.follow links) (first : List String) :
    ∀ names, tree.GoesOn fun rest ↦ tree.follow links names (first ++ rest) := by
  rw [← hfollow]
  unfold GoesOn at honward ⊢
  induction first with
  | nil => exact fun names ↦ .inr ⟨links, names, fun rest ↦ by rw [hfollow]; rfl⟩
  | cons name more ih =>
    intro names
    simp only [List.cons_append, followWith]
    split
    · split
      · exact .inl ⟨_, fun _ ↦ rfl⟩
      · split
        · exact .inl ⟨_, fun _ ↦ rfl⟩
        · split
          · -- The path of the link is in front of the names that are left, and both go on as one.
            rename_i path _
            simpa only [List.append_assoc] using
              honward (start names path.root) (path.names ++ more)
          · exact ih (step names name)
    · exact .inl ⟨_, fun _ ↦ rfl⟩
    · exact .inl ⟨_, fun _ ↦ rfl⟩
    · exact .inl ⟨_, fun _ ↦ rfl⟩

/-- Names that stand in front of others lead nowhere, or to a directory from which the others are
followed. -/
theorem follow_append (links : Nat) (first names : List String) :
    tree.GoesOn fun rest ↦ tree.follow links names (first ++ rest) := by
  induction links generalizing first names with
  | zero => exact followWith_append (fun _ _ ↦ .inl ⟨_, fun _ ↦ rfl⟩) rfl first names
  | succ links ih => exact followWith_append (fun names first ↦ ih first names) rfl first names

theorem follow_nil (links : Nat) (names : List String) :
    tree.follow links names [] = .ok names := by
  cases links <;> rfl

/-- A name that is none of a link is one step. -/
theorem eq_step_of_follow {links : Nat} {directory names : List String} {name : String}
    (hlink : tree.links.lookup (step directory name) = none)
    (h : tree.follow links directory [name] = .ok names) : names = step directory name := by
  obtain ⟨onward, honward⟩ : ∃ onward, tree.follow links = tree.followWith onward := by
    cases links <;> exact ⟨_, rfl⟩
  simp only [honward, followWith, hlink] at h
  repeat' split at h
  all_goals cases h
  rfl

/-- The names in front of the last one lead to a directory, and the last one, if it is none of a
link, is one step from there. -/
theorem exists_of_locate {root : PathRoot} {front names : List String} {last : String}
    (hlink : ¬ tree.IsLink ⟨root, front ++ [last]⟩)
    (h : tree.locate ⟨root, front ++ [last]⟩ = .ok names) :
    ∃ directory, tree.follow mostLinks (start tree.working root) front = .ok directory ∧
      names = step directory last := by
  have hfollow : tree.follow mostLinks (start tree.working root) (front ++ [last]) = .ok names := by
    unfold locate at h
    repeat' split at h
    all_goals first | cases h | exact h
  rcases tree.follow_append mostLinks front (start tree.working root) with
    ⟨fault, hfault⟩ | ⟨left, directory, hdirectory⟩
  · cases hfollow.symm.trans (hfault _)
  · have hfront : tree.follow mostLinks (start tree.working root) front = .ok directory := by
      have hnone := (hdirectory []).trans (follow_nil left directory)
      simpa only [List.append_nil] using hnone
    refine ⟨directory, hfront, eq_step_of_follow ?_ ((hdirectory _).symm.trans hfollow)⟩
    rw [← Option.not_isSome_iff_eq_none]
    exact fun hsome ↦ hlink ⟨front, last, directory, rfl, hfront, hsome⟩

/-- A step to a name leads elsewhere than a step to another one. -/
theorem step_ne_append {directory : List String} {name other : String} (hne : name ≠ other) :
    step directory name ≠ directory ++ [other] := by
  intro hsame
  unfold step at hsame
  split at hsame
  · have hlength := congrArg List.length hsame
    rw [List.length_dropLast, List.length_append, List.length_singleton] at hlength
    omega
  · split at hsame
    · simp at hsame
    · exact hne (by simpa using hsame)

/-- Two paths that differ in the last name alone lead to different places, if neither ends in a link
and the second of the names is that of a file. -/
theorem ne_of_locate {root : PathRoot} {names found other : List String} {name last : String}
    (hne : name ≠ last) (hfile : last ≠ "." ∧ last ≠ "..")
    (hlink : ¬ tree.IsLink ⟨root, names ++ [name]⟩) (hlast : ¬ tree.IsLink ⟨root, names ++ [last]⟩)
    (hfound : tree.locate ⟨root, names ++ [name]⟩ = .ok found)
    (hother : tree.locate ⟨root, names ++ [last]⟩ = .ok other) : found ≠ other := by
  obtain ⟨directory, hdirectory, rfl⟩ := exists_of_locate hlink hfound
  obtain ⟨directory', hdirectory', rfl⟩ := exists_of_locate hlast hother
  obtain rfl := Except.ok.inj (hdirectory.symm.trans hdirectory')
  have hstep : step directory last = directory ++ [last] := by
    rw [step, if_neg (by simpa using hfile.2), if_neg (by simpa using hfile.1)]
  rw [hstep]
  exact step_ne_append hne

theorem locate_of_target {path : Path} {names : List String} {entry : FileEntry}
    (h : tree.target path = .ok (names, entry)) : tree.locate path = .ok names := by
  unfold target at h
  obtain ⟨found, hfound, h⟩ := exists_of_bind_eq_ok h
  repeat' split at h
  all_goals cases h
  all_goals exact hfound

end FileTree

namespace Platform

/-- Writing a text leaves the files as they were, or writes to the entry at the place of the
path. -/
theorem tree_writeText (platform : Platform) (tree : FileTree) (encoding : String) (path : Path)
    (text : String) :
    (platform.writeText tree encoding path text).2 = tree ∨
      ∃ names entry bytes, tree.target path = .ok (names, entry) ∧
        (platform.writeText tree encoding path text).2 = tree.set names (entry.write bytes) := by
  unfold writeText
  cases htarget : tree.target path with
  | error fault => exact .inl rfl
  | ok place =>
    obtain ⟨names, entry⟩ := place
    dsimp only
    split
    · exact .inr ⟨names, entry, _, rfl, rfl⟩
    · split
      · exact .inr ⟨names, entry, _, rfl, rfl⟩
      · exact .inr ⟨names, entry, _, rfl, rfl⟩

end Platform

/-! ### Runs -/

namespace Command

namespace Compiler

variable {platform : Platform} {outlet : Outlet} {given : Surroundings} {request : Request}
  {options : Options}

/-- The files after a run are those before, but for one at the place that the request asks for. -/
def Writes (given : Surroundings) (request : Request) (options : Options) (files : FileTree) :
    Prop :=
  files = given.files ∨ ∃ path names entry bytes, request.target options = .ok path ∧
    given.files.target path = .ok (names, entry) ∧
    files = given.files.set names (entry.write bytes)

theorem writes_deliver {result : Compilation} {console : Console}
    (hfiles : console.files = given.files) :
    Writes given request options
      (deliver platform .free request options result console).console.files := by
  unfold deliver
  cases hpath : request.target options with
  | error failure => exact .inl hfiles
  | ok path =>
    have hwritten : Writes given request options
        (platform.writeCode options console.files result path).2 := by
      rw [hfiles]
      unfold Platform.writeCode
      split
      · exact .inl rfl
      · rcases platform.tree_writeText given.files options.encoding path (codeText _) with
          hsame | ⟨names, entry, bytes, htarget, hset⟩
        · exact .inl hsame
        · exact .inr ⟨path, names, entry, bytes, hpath, htarget, hset⟩
    dsimp only
    split
    · exact hwritten
    · rw [Console.tellLines_free]
      simpa using hwritten

theorem writes_settle {result : Compilation} {console : Console}
    (hfiles : console.files = given.files) :
    Writes given request options
      (settle platform .free request options result console).console.files := by
  unfold settle
  split
  · rw [Console.tellLines_free]
    exact .inl (by simpa using hfiles)
  · split
    · exact .inl hfiles
    · split
      · exact .inl ((Console.files_print ..).trans hfiles)
      · exact writes_deliver hfiles

theorem writes_serve (hoptions : request.options given.environment = .ok options) :
    Writes given request options
      (serve platform .free request given.environment given.files).console.files := by
  unfold serve
  rw [hoptions]
  dsimp only
  rw [Console.tellLines_free]
  split
  · exact .inl (by simp [Console.start])
  · unfold present
    rw [Console.tellLines_free]
    exact writes_settle (by simp [Console.start])

/-- A run that is let through writes at most the file that is asked for. -/
theorem writes_runWith {outcome : Outcome} (h : runWith platform outlet given = .ok outcome) :
    outcome.console.files = given.files ∨ ∃ request options, Asks given request ∧
      request.options given.environment = .ok options ∧
      Writes given request options outcome.console.files := by
  obtain ⟨free, hfree, hends⟩ := runWith_endsLike h
  have hfiles : outcome.console.files = given.files ∨
      outcome.console.files = free.console.files := by
    rcases hends with rfl | hcut
    · exact .inr rfl
    · exact hcut.files
  rcases hfiles with hfiles | hfiles
  · exact .inl hfiles
  rw [hfiles]
  obtain ⟨words, hwords, hfree⟩ := exists_of_bind_eq_ok hfree
  split at hfree
  · cases hfree
    exact .inl (Console.files_print ..)
  · rename_i hnone
    obtain ⟨request, hrequest, hfree⟩ := exists_of_bind_eq_ok hfree
    cases hfree
    cases hoptions : request.options given.environment with
    | error failure =>
      rw [serve, hoptions]
      exact .inl (Console.files_failWith ..)
    | ok options =>
      exact .inr ⟨request, options, ⟨words, hwords, hnone, hrequest⟩, hoptions,
        writes_serve hoptions⟩

/-- A file that is written in the place of the source, in its directory and under another name,
leaves the source as it was, if neither name is one of a link and the source has no other names. -/
theorem Writes.lookup_source {files : FileTree} (h : Writes given request options files)
    (hdefault : request.output = none)
    (hother : ¬ (Path.ofText request.source).EndsIn options.outputSuffix)
    (hlink : ¬ given.files.IsLink (.ofText request.source))
    (hlast : ∀ out, outputPath options (.ofText request.source) = .ok out →
      ¬ given.files.IsLink out)
    {names : List String} (hsource : given.files.locate (.ofText request.source) = .ok names)
    (halone : ∀ other, given.files.home other = given.files.home names → other = names) :
    files.lookup names = given.files.lookup names := by
  rcases h with rfl | ⟨out, place, entry, bytes, hout, htarget, rfl⟩
  · rfl
  · rw [Request.target, hdefault] at hout
    have hlast := hlast out hout
    have hsuffix := eq_ok_of_mapError hout
    have hne := mt (Path.withSuffix_eq_self_iff hsuffix).mp hother
    obtain ⟨his, front, name, hpath, rfl⟩ := Path.withSuffix_eq_ok hsuffix
    have hmem : name ∈ (Path.ofText request.source).names := by
      rw [hpath]
      simp
    have hname := Path.ne_empty_of_mem_ofText hmem
    have hnames : name ≠ Path.stem name ++ options.outputSuffix := by
      intro hsame
      rw [← hsame] at hne
      exact hne hpath.symm
    rw [hpath] at hsource hlink
    have hplace := FileTree.ne_of_locate hnames (Path.stem_append_ne hname his) hlink hlast hsource
      (FileTree.locate_of_target htarget)
    have hhome : given.files.home names ≠ given.files.home place :=
      fun hsame ↦ hplace (halone place hsame.symm).symm
    have hwritten := FileTree.changedAt_set (FileTree.ne_nil_of_target htarget) given.files
      (entry.write bytes)
    exact hwritten.elsewhere names hhome

/-- The code of a source with a name goes to a path in the directory of the source, and this is the
path of the source just if its name ends in the suffix of the options. A run without an output file
leaves every source whose name does not as it was, if neither its own name nor that of the code is
one of a symbolic link and the source is a file of no other name. -/
theorem default_output_spares_source :
    (∀ (options : Options) (source : Path), (∃ out, outputPath options source = .ok out) ↔
      Path.isSuffix options.outputSuffix = true ∧ source.names ≠ []) ∧
    (∀ (options : Options) (source out : Path), outputPath options source = .ok out →
      out.directory = source.directory ∧ (out = source ↔ source.EndsIn options.outputSuffix)) ∧
    ∀ (platform : Platform) (outlet : Outlet) (given : Surroundings) (outcome : Outcome)
      (request : Request) (names : List String), runWith platform outlet given = .ok outcome →
      Asks given request → request.output = none →
      (∀ options, request.options given.environment = .ok options →
        ¬ (Path.ofText request.source).EndsIn options.outputSuffix ∧
        ∀ out, outputPath options (.ofText request.source) = .ok out → ¬ given.files.IsLink out) →
      ¬ given.files.IsLink (.ofText request.source) →
      given.files.locate (.ofText request.source) = .ok names →
      (∀ other, given.files.home other = given.files.home names → other = names) →
      outcome.console.files.lookup names = given.files.lookup names := by
  refine ⟨fun options source ↦ ?_, fun options source out hout ↦ ?_, ?_⟩
  · rw [← Path.exists_withSuffix_iff]
    exact ⟨fun ⟨out, hout⟩ ↦ ⟨out, eq_ok_of_mapError hout⟩,
      fun ⟨out, hout⟩ ↦ ⟨out, by rw [outputPath, hout]; rfl⟩⟩
  · have hsuffix := eq_ok_of_mapError hout
    exact ⟨Path.directory_withSuffix hsuffix, Path.withSuffix_eq_self_iff hsuffix⟩
  · intro platform outlet given outcome request names hrun hasks hdefault hother hlink hsource
      halone
    rcases writes_runWith hrun with hfiles | ⟨request', options, hasks', hoptions, hwrites⟩
    · rw [hfiles]
    · obtain rfl := hasks.unique hasks'
      obtain ⟨hends, hlast⟩ := hother options hoptions
      exact hwrites.lookup_source hdefault hends hlink hlast hsource halone

/-- A source with a suffix of its own is still there when the code is. -/
theorem default_output_spares_source_oneAssignment :
    outputPath .standard (.ofText "p.src") = .ok (.ofText "p.tam") ∧
      Path.ofText "p.tam" ≠ Path.ofText "p.src" ∧
      ∃ outcome, runWith .standard .free (runOn "p.src" thirtySource) = .ok outcome ∧
        outcome.console.files.lookup ["work", "p.tam"] = some (.file thirtyCode) ∧
        outcome.console.files.lookup ["work", "p.src"] =
          some (.file thirtySource.toUTF8.toList) := by
  have hout : outputPath .standard (.ofText "p.src") = .ok (.ofText "p.tam") := by
    decide +kernel
  have hne : Path.ofText "p.tam" ≠ Path.ofText "p.src" := by
    decide +kernel
  have hends := (default_output_spares_source.2.1 .standard _ _ hout).2
  have hrun : (runWith .standard .free (runOn "p.src" thirtySource)).map
      (fun outcome ↦ outcome.console.files.lookup ["work", "p.tam"]) =
        .ok (some (.file thirtyCode)) := by
    decide +kernel
  have hasks : Asks (runOn "p.src" thirtySource) ⟨"p.src", none, false, false, false⟩ :=
    ⟨⟨[], ["p.src"]⟩, by decide +kernel, by decide +kernel, by decide +kernel⟩
  have hoptions : Request.options ⟨"p.src", none, false, false, false⟩
      (runOn "p.src" thirtySource).environment = .ok .standard := by
    decide +kernel
  have hlinks : (runOn "p.src" thirtySource).files.links = [] := by
    decide +kernel
  have hnone (path : Path) : ¬ (runOn "p.src" thirtySource).files.IsLink path := by
    rintro ⟨front, last, directory, -, -, hlink⟩
    rw [hlinks] at hlink
    cases hlink
  have haliases : (runOn "p.src" thirtySource).files.aliases = [] := by
    decide +kernel
  have hlocate : (runOn "p.src" thirtySource).files.locate (.ofText "p.src") =
      .ok ["work", "p.src"] := by
    decide +kernel
  have hbefore : (runOn "p.src" thirtySource).files.lookup ["work", "p.src"] =
      some (.file thirtySource.toUTF8.toList) := by
    decide +kernel
  obtain ⟨outcome, houtcome, hcode⟩ := exists_of_map_eq_ok hrun
  have hspared := default_output_spares_source.2.2 .standard .free _ outcome _ _ houtcome hasks rfl
    (fun options h ↦ ⟨Except.ok.inj (hoptions.symm.trans h) ▸ fun hsame ↦ hne (hends.mpr hsame),
      fun out _ ↦ hnone out⟩)
    (hnone _) hlocate (fun other hother ↦ by simpa [FileTree.home, haliases] using hother)
  exact ⟨hout, hne, outcome, houtcome, hcode, hspared.trans hbefore⟩

/-- The name of the code leads to the source before the run. -/
def linkedRun : Surroundings :=
  let plain := runOn "p.src" thirtySource
  { plain with files := { plain.files with links := [(["work", "p.tam"], .ofText "p.src")] } }

/-- The name of the code is another name of the source before the run. -/
def sharedRun : Surroundings :=
  let plain := runOn "p.src" thirtySource
  { plain with files := { plain.files with aliases := [(["work", "p.tam"], ["work", "p.src"])] } }

/-- A source with the suffix of code is replaced by its code, and so is one that the name of its
code leads to, as a symbolic link or as a further name. -/
theorem exists_source_replaced :
    outputPath .standard (.ofText "p.tam") = .ok (.ofText "p.tam") ∧
      (runOn "p.tam" thirtySource).files.lookup ["work", "p.tam"] =
        some (.file thirtySource.toUTF8.toList) ∧
      (∃ outcome, runWith .standard .free (runOn "p.tam" thirtySource) = .ok outcome ∧
        outcome.status = .success ∧
        outcome.console.files.lookup ["work", "p.tam"] = some (.file thirtyCode)) ∧
      ∀ given ∈ [linkedRun, sharedRun],
        given.files.lookup ["work", "p.src"] = some (.file thirtySource.toUTF8.toList) ∧
        ∃ outcome, runWith .standard .free given = .ok outcome ∧ outcome.status = .success ∧
          outcome.console.files.lookup ["work", "p.src"] = some (.file thirtyCode) := by
  have hout : outputPath .standard (.ofText "p.tam") = .ok (.ofText "p.tam") := by
    decide +kernel
  have hrun : (runWith .standard .free (runOn "p.tam" thirtySource)).map
      (fun outcome ↦ (outcome.status, outcome.console.files.lookup ["work", "p.tam"])) =
        .ok (.success, some (.file thirtyCode)) := by
    decide +kernel
  have hothers : ∀ given ∈ [linkedRun, sharedRun],
      given.files.lookup ["work", "p.src"] = some (.file thirtySource.toUTF8.toList) ∧
      (runWith .standard .free given).map
        (fun outcome ↦ (outcome.status, outcome.console.files.lookup ["work", "p.src"])) =
          .ok (.success, some (.file thirtyCode)) := by
    intro given hgiven
    simp only [List.mem_cons, List.not_mem_nil, or_false] at hgiven
    rcases hgiven with rfl | rfl <;> decide +kernel
  obtain ⟨outcome, houtcome, hstatus, hcode⟩ := exists_of_map_pair_eq_ok hrun
  refine ⟨hout, by decide +kernel, ⟨outcome, houtcome, hstatus, hcode⟩, fun given hgiven ↦ ?_⟩
  obtain ⟨hbefore, hafter⟩ := hothers given hgiven
  obtain ⟨outcome, houtcome, hstatus, hcode⟩ := exists_of_map_pair_eq_ok hafter
  exact ⟨hbefore, outcome, houtcome, hstatus, hcode⟩

end Compiler

end Command

end StackCompiler
