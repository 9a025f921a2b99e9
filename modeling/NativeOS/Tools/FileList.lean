/-
  NativeOS.Tools.FileList — which files a kernel is built from (`tools/kcons`,
  `FileListParser`).

  A list declares files as standard, or as optional with the options they need. A file that
  is declared twice is what its last declaration says, in the place of its first one. What
  is not a declaration is recorded as an error and passed over; a directive of a single
  word cannot be taken apart and raises ValueError.

  The options are the profile's, where the last of `option` and `nooption` decides.

  Proved:
  * `processFiles_ok_iff`, `processFiles_errors` — what is raised, and one error for each
    directive that is no declaration, in order.
  * `mem_compilableFiles` — a file is compiled exactly if its last declaration says so.
  * `process_options`, `process_arch`, `process_errors` — the same for a profile, whatever
    other directives stand between.
-/

import NativeOS.Lib.LastWord
import NativeOS.Tools.Profile

namespace NativeOS.Tools.Kcons

open NativeOS.Lib

/-! ## FileListParser -/

/-- `{"standard": True}`, or `{"standard": False, "options": options}`. -/
inductive FileConfig where
  | standard
  | optional (options : List Text)
  deriving DecidableEq

structure FileList where
  files : Dict Text FileConfig
  errors : List Text

/-- `FileListParser.__init__`. -/
def FileList.new : FileList := ⟨Dict.empty, []⟩

def invalidKind (file kind : Text) : Text := "Invalid file kind ".toList ++ kind ++ " for file ".toList ++ file

def noOptionsGiven (file : Text) : Text := "No options given for optional file ".toList ++ file

/-- `process`'s loop body. -/
def processFile (l : FileList) : List Text → Except Raised FileList
  | file :: kind :: options =>
    if kind ∉ ["standard".toList, "optional".toList] then .ok { l with errors := l.errors ++ [invalidKind file kind] }
    else if kind = "standard".toList then .ok { l with files := l.files.set file .standard }
    else if options = [] then .ok { l with errors := l.errors ++ [noOptionsGiven file] }
    else .ok { l with files := l.files.set file (.optional options) }
  | _ => .error .valueError

def processFiles (l : FileList) (directives : List (List Text)) : Except Raised FileList := directives.foldlM processFile l

/-- `config["standard"] or matches(config["options"])`. -/
def FileConfig.matches (p : Profile) : FileConfig → Bool
  | .standard => true
  | .optional options => options.all (· ∈ p.options)

def compilableFiles (l : FileList) (p : Profile) : List Text :=
  (l.files.entries.filter fun (_, config) => config.matches p).map Prod.fst

/-! ## What a list should mean -/

/-- What a directive declares, and of which file. -/
def declares : List Text → Option (Text × FileConfig)
  | file :: kind :: options =>
    if kind = "standard".toList then some (file, .standard)
    else if kind = "optional".toList ∧ options ≠ [] then some (file, .optional options)
    else none
  | _ => none

/-- What a directive declares the file to be. -/
def declaresOf (file : Text) (directive : List Text) : Option FileConfig :=
  ((declares directive).filter (·.1 = file)).map Prod.snd

/-- What is wrong with a directive that can be taken apart. -/
def fileComplaint : List Text → Option Text
  | file :: kind :: options =>
    if kind = "standard".toList then none
    else if kind = "optional".toList then if options = [] then some (noOptionsGiven file) else none
    else some (invalidKind file kind)
  | _ => none

/-- The options a file needs are all there. -/
def FileConfig.Wanted (enabled : Text → Prop) : FileConfig → Prop
  | .standard => True
  | .optional options => ∀ opt ∈ options, enabled opt

/-- The list's last declaration of the file selects it. -/
def Selects (enabled : Text → Prop) (directives : List (List Text)) (file : Text) : Prop :=
  ∃ config, lastSaid (declaresOf file) directives = some config ∧ config.Wanted enabled

/-! ## One directive -/

section Directive

variable {l l' : FileList} {directive : List Text} {file : Text}

theorem processFile_ok_iff : (∃ l', processFile l directive = .ok l') ↔ 2 ≤ directive.length := by
  rcases directive with _ | ⟨file, _ | ⟨kind, options⟩⟩
  · simp [processFile]
  · simp [processFile]
  · refine iff_of_true ?_ (by simp)
    simp only [processFile]
    split_ifs
    · exact ⟨_, rfl⟩
    · exact ⟨_, rfl⟩
    · exact ⟨_, rfl⟩
    · exact ⟨_, rfl⟩

/-- A directive is a declaration or a complaint. -/
theorem processFile_eq (h : processFile l directive = .ok l') :
    (∃ file config, declares directive = some (file, config) ∧ fileComplaint directive = none ∧
      l' = { l with files := l.files.set file config }) ∨
    (∃ error, declares directive = none ∧ fileComplaint directive = some error ∧
      l' = { l with errors := l.errors ++ [error] }) := by
  rcases directive with _ | ⟨file, _ | ⟨kind, options⟩⟩
  · cases h
  · cases h
  · have hne : "optional".toList ≠ "standard".toList := by decide
    simp only [processFile] at h
    simp only [declares, fileComplaint]
    by_cases hs : kind = "standard".toList
    · rw [if_neg (by simp [hs]), if_pos hs] at h
      cases h
      rw [if_pos hs, if_pos hs]
      exact .inl ⟨file, .standard, rfl, rfl, rfl⟩
    by_cases ho : kind = "optional".toList
    · rw [if_neg (by simp [ho]), if_neg hs] at h
      rw [if_neg hs, if_neg hs, if_pos ho]
      by_cases hopts : options = []
      · rw [if_pos hopts] at h
        cases h
        rw [if_neg (by simp [hopts]), if_pos hopts]
        exact .inr ⟨_, rfl, rfl, rfl⟩
      · rw [if_neg hopts] at h
        cases h
        rw [if_pos ⟨ho, hopts⟩, if_neg hopts]
        exact .inl ⟨file, .optional options, rfl, rfl, rfl⟩
    · have hkind : kind ∉ ["standard".toList, "optional".toList] := by
        rw [List.mem_pair]
        exact not_or.mpr ⟨hs, ho⟩
      rw [if_pos hkind] at h
      cases h
      rw [if_neg hs, if_neg hs, if_neg (mt And.left ho), if_neg ho]
      exact .inr ⟨_, rfl, rfl, rfl⟩

theorem processFile_files (h : processFile l directive = .ok l') :
    l'.files.get? file = (declaresOf file directive).or (l.files.get? file) := by
  unfold declaresOf
  rcases processFile_eq h with ⟨file', config, hd, -, rfl⟩ | ⟨error, hd, -, rfl⟩
  · rw [hd, Dict.get?_set]
    by_cases hf : file' = file
    · rw [if_pos hf.symm, Option.filter_some_pos (by simpa using hf)]
      rfl
    · rw [if_neg (Ne.symm hf), Option.filter_some_neg (by simpa using hf)]
      rfl
  · rw [hd]
    rfl

theorem processFile_errors (h : processFile l directive = .ok l') :
    l'.errors = l.errors ++ (fileComplaint directive).toList := by
  rcases processFile_eq h with ⟨file', config, -, hc, rfl⟩ | ⟨error, -, hc, rfl⟩
  · rw [hc, Option.toList_none, List.append_nil]
  · rw [hc, Option.toList_some]

end Directive

/-! ## Every list -/

section List

variable {l : FileList} {directives : List (List Text)}

theorem processFiles_ok_iff : (∃ l', processFiles l directives = .ok l') ↔ ∀ d ∈ directives, 2 ≤ d.length := by
  unfold processFiles
  induction directives generalizing l with
  | nil => exact iff_of_true ⟨l, rfl⟩ (by simp)
  | cons d directives ih =>
    rw [List.forall_mem_cons, ← processFile_ok_iff (l := l), List.foldlM_cons]
    cases hd : processFile l d with
    | error e => exact iff_of_false (by rintro ⟨l', hl'⟩; cases hl') (by rintro ⟨⟨l', hl'⟩, -⟩; cases hl')
    | ok l1 => exact ih.trans (and_iff_right ⟨l1, rfl⟩).symm

theorem processFiles_files (h : processFiles .new directives = .ok l) (file : Text) :
    l.files.get? file = lastSaid (declaresOf file) directives := by
  have := foldlM_lastSaid (fun l : FileList => l.files.get? file) (fun _ _ _ h => processFile_files h) h
  rw [this]
  exact Option.or_none

/-- One error for each directive that declares nothing, in order. -/
theorem processFiles_errors (h : processFiles .new directives = .ok l) : l.errors = directives.filterMap fileComplaint :=
  foldlM_collects FileList.errors (fun _ _ _ h => processFile_errors h) h

theorem mem_compilableFiles {p : Profile} (h : processFiles .new directives = .ok l) (file : Text) :
    file ∈ compilableFiles l p ↔ Selects (· ∈ p.options) directives file := by
  have hwanted : ∀ config : FileConfig, config.matches p = true ↔ config.Wanted (· ∈ p.options) := by
    intro config
    cases config with
    | standard => exact iff_of_true rfl trivial
    | optional options => simp [FileConfig.matches, FileConfig.Wanted]
  unfold compilableFiles Selects
  simp only [← processFiles_files h, List.mem_map, List.mem_filter, hwanted]
  constructor
  · rintro ⟨⟨file', config⟩, ⟨he, hw⟩, rfl⟩
    exact ⟨config, Dict.mem_entries.mp he, hw⟩
  · rintro ⟨config, he, hw⟩
    exact ⟨(file, config), ⟨Dict.mem_entries.mpr he, hw⟩, rfl⟩

end List

/-! ## The profile's options -/

/-- What a directive does to an option. -/
def switches (opt : Text) : List Text → Option Bool
  | cmd :: args =>
    if cmd = "option".toList ∧ opt ∈ args then some true
    else if cmd = "nooption".toList ∧ opt ∈ args then some false
    else none
  | [] => none

/-- The architecture a directive sets. -/
def setsArch : List Text → Option Text
  | [cmd, arch] => if cmd = "arch".toList then some arch else none
  | _ => none

def profileComplaint : List Text → Option Text
  | cmd :: args =>
    if cmd = "arch".toList then if args.length = 1 then none else some "arch: invalid value".toList
    else if cmd ∈ ["define".toList, "makeoption".toList, "nodefine".toList, "nooption".toList, "option".toList] then none
    else some ("Unknown directive: ".toList ++ cmd)
  | [] => none

/-- The last of `option` and `nooption` decides. -/
def Enabled (directives : List (List Text)) (opt : Text) : Prop := lastSaid (switches opt) directives = some true

section Profile

variable {p p' : Profile} {cmd : Text} {args : List Text} {directives : List (List Text)}

/-- What the makeoption and define directives leave alone. -/
def Profile.rest (p : Profile) : Option Text × Finset Text × List Text := (p.arch, p.options, p.errors)

theorem unpack_bind {parts : List Text} {f : Text × Text → Profile} (h : (unpack parts >>= fun nv => pure (f nv)) = .ok p') :
    ∃ nv, p' = f nv := by
  cases hu : unpack parts with
  | error e =>
    rw [hu] at h
    cases h
  | ok nv =>
    rw [hu] at h
    cases h
    exact ⟨nv, rfl⟩

theorem addOneDefine_rest {define : Text} (h : addOneDefine p define = .ok p') : p'.rest = p.rest := by
  unfold addOneDefine at h
  split at h
  · cases h
    rfl
  · obtain ⟨nv, rfl⟩ := unpack_bind h
    rfl

theorem removeOneDefine_rest {option : Text} (h : removeOneDefine p option = .ok p') : p'.rest = p.rest := by
  unfold removeOneDefine at h
  split at h
  · cases h
    rfl
  · cases h

theorem appendMakeoption_rest (p : Profile) (name value : Text) : (appendMakeoption p name value).rest = p.rest := by
  unfold appendMakeoption
  split
  · rfl
  · rfl

theorem applyMakeoption_rest {makeoption : Text} (h : applyMakeoption p makeoption = .ok p') : p'.rest = p.rest := by
  unfold applyMakeoption at h
  split at h
  · obtain ⟨nv, rfl⟩ := unpack_bind h
    exact appendMakeoption_rest p nv.1 nv.2
  · obtain ⟨nv, rfl⟩ := unpack_bind h
    rfl

/-- Each directive, by its word. -/
inductive Did (p p' : Profile) : List Text → Prop
  | arch (args : List Text) : p' = setArch p args → Did p p' ("arch".toList :: args)
  | option (args : List Text) : p' = addOptions p args → Did p p' ("option".toList :: args)
  | nooption (args : List Text) : p' = removeOptions p args → Did p p' ("nooption".toList :: args)
  | other (cmd : Text) (args : List Text) : cmd ∈ ["define".toList, "makeoption".toList, "nodefine".toList] →
      p'.rest = p.rest → Did p p' (cmd :: args)
  | unknown (cmd : Text) (args : List Text) :
      cmd ∉ ["arch".toList, "define".toList, "makeoption".toList, "nodefine".toList, "nooption".toList, "option".toList] →
      p' = { p with errors := p.errors ++ ["Unknown directive: ".toList ++ cmd] } → Did p p' (cmd :: args)

theorem processDirective_did {d : List Text} (h : processDirective p d = .ok p') : Did p p' d := by
  cases d with
  | nil => cases h
  | cons cmd args =>
    simp only [processDirective] at h
    split_ifs at h with h1 h2 h3 h4 h5 h6
    · cases h
      exact h1 ▸ .arch args rfl
    · exact .other cmd args (by simp [h2]) (foldlM_keeps (fun _ _ _ => addOneDefine_rest) h)
    · exact .other cmd args (by simp [h3]) (foldlM_keeps (fun _ _ _ h => applyMakeoption_rest h) h)
    · exact .other cmd args (by simp [h4]) (foldlM_keeps (fun _ _ _ => removeOneDefine_rest) h)
    · cases h
      exact h5 ▸ .nooption args rfl
    · cases h
      exact h6 ▸ .option args rfl
    · cases h
      refine .unknown cmd args ?_ rfl
      simp only [List.mem_cons, List.not_mem_nil, or_false, not_or]
      exact ⟨h1, h2, h3, h4, h5, h6⟩

theorem Did.arch_eq {d : List Text} (h : Did p p' d) : p'.arch = (setsArch d).or p.arch := by
  cases h with
  | arch args hp =>
    subst hp
    rcases args with _ | ⟨arch, _ | ⟨arch', args⟩⟩
    · rfl
    · rfl
    · rfl
  | option args hp =>
    subst hp
    rcases args with _ | ⟨opt, _ | ⟨opt', args⟩⟩ <;> simp [setsArch, addOptions]
  | nooption args hp =>
    subst hp
    rcases args with _ | ⟨opt, _ | ⟨opt', args⟩⟩ <;> simp [setsArch, removeOptions]
  | other cmd args hcmd hp =>
    have hset : setsArch (cmd :: args) = none := by
      simp only [List.mem_cons, List.not_mem_nil, or_false] at hcmd
      rcases hcmd with rfl | rfl | rfl <;> rcases args with _ | ⟨word, _ | ⟨word', args⟩⟩ <;> simp [setsArch]
    rw [hset, Option.none_or]
    exact congrArg Prod.fst hp
  | unknown cmd args hcmd hp =>
    have hset : setsArch (cmd :: args) = none := by
      rcases args with _ | ⟨word, _ | ⟨word', args⟩⟩
      · rfl
      · refine if_neg ?_
        rintro rfl
        exact hcmd List.mem_cons_self
      · rfl
    rw [hset, hp, Option.none_or]

/-- The option is on or off. -/
def Profile.switch (opt : Text) (p : Profile) : Option Bool := some (decide (opt ∈ p.options))

theorem Did.switch_eq {d : List Text} (h : Did p p' d) (opt : Text) : p'.switch opt = (switches opt d).or (p.switch opt) := by
  cases h with
  | arch args hp =>
    have hsame : p'.options = p.options := by
      rw [hp]
      unfold setArch
      split
      · rfl
      · rfl
    simp [switches, Profile.switch, hsame]
  | option args hp =>
    subst hp
    by_cases hopt : opt ∈ args <;> simp [switches, Profile.switch, addOptions, hopt]
  | nooption args hp =>
    subst hp
    by_cases hopt : opt ∈ args <;> simp [switches, Profile.switch, removeOptions, hopt]
  | other cmd args hcmd hp =>
    have hset : switches opt (cmd :: args) = none := by
      simp only [List.mem_cons, List.not_mem_nil, or_false] at hcmd
      rcases hcmd with rfl | rfl | rfl <;> simp [switches]
    have hsame : p'.options = p.options := congrArg (fun r => r.2.1) hp
    rw [hset, Option.none_or, Profile.switch, Profile.switch, hsame]
  | unknown cmd args hcmd hp =>
    have hset : switches opt (cmd :: args) = none := by
      simp only [List.mem_cons, List.not_mem_nil, or_false, not_or] at hcmd
      simp only [switches, hcmd, false_and, if_false]
    rw [hset, hp, Option.none_or]
    rfl

theorem Did.errors_eq {d : List Text} (h : Did p p' d) : p'.errors = p.errors ++ (profileComplaint d).toList := by
  cases h with
  | arch args hp =>
    subst hp
    rcases args with _ | ⟨arch, _ | ⟨arch', args⟩⟩ <;> simp [setArch, profileComplaint]
  | option args hp =>
    subst hp
    simp [profileComplaint, addOptions]
  | nooption args hp =>
    subst hp
    simp [profileComplaint, removeOptions]
  | other cmd args hcmd hp =>
    have hnone : profileComplaint (cmd :: args) = none := by
      simp only [List.mem_cons, List.not_mem_nil, or_false] at hcmd
      rcases hcmd with rfl | rfl | rfl <;> simp [profileComplaint]
    rw [hnone, Option.toList_none, List.append_nil]
    exact congrArg (fun r => r.2.2) hp
  | unknown cmd args hcmd hp =>
    have hsome : profileComplaint (cmd :: args) = some ("Unknown directive: ".toList ++ cmd) := by
      rw [List.mem_cons, not_or] at hcmd
      simp only [profileComplaint, hcmd, if_false]
    rw [hsome, hp, Option.toList_some]

theorem process_arch (h : process .new directives = .ok p) : p.arch = lastSaid setsArch directives := by
  have hstep : ∀ p d p', processDirective p d = .ok p' → p'.arch = (setsArch d).or p.arch :=
    fun _ _ _ h => (processDirective_did h).arch_eq
  rw [foldlM_lastSaid _ hstep h]
  exact Option.or_none

theorem process_options (h : process .new directives = .ok p) (opt : Text) : opt ∈ p.options ↔ Enabled directives opt := by
  have hstep : ∀ p d p', processDirective p d = .ok p' → p'.switch opt = (switches opt d).or (p.switch opt) :=
    fun _ _ _ h => (processDirective_did h).switch_eq opt
  have hview : some (decide (opt ∈ p.options)) = (lastSaid (switches opt) directives).or (some false) := foldlM_lastSaid _ hstep h
  unfold Enabled
  cases hs : lastSaid (switches opt) directives with
  | none =>
    rw [hs, Option.none_or, Option.some.injEq, decide_eq_false_iff_not] at hview
    exact iff_of_false hview (by simp)
  | some b =>
    rw [hs, Option.some_or, Option.some.injEq] at hview
    rw [← hview, Option.some.injEq, decide_eq_true_eq]

/-- One error for each directive that is none or has no single architecture, in order. -/
theorem process_errors (h : process .new directives = .ok p) : p.errors = directives.filterMap profileComplaint := by
  have hstep : ∀ p d p', processDirective p d = .ok p' → p'.errors = p.errors ++ (profileComplaint d).toList :=
    fun _ _ _ h => (processDirective_did h).errors_eq
  exact foldlM_collects _ hstep h

end Profile

end NativeOS.Tools.Kcons
