/-
  NativeOS.Tools.Context — a whole run of kcons (`tools/kcons`, `Context`).

  The profile is read first, then the file lists `files` and `files.{arch}`, then the
  Makefile's template. An error in any of them ends the run before anything is written that
  depends on it: with exit code 65 and the errors found, or with the exception that Python
  prints. The last step makes the link `machine` to the architecture's headers, in place of
  what `os.path.exists` finds there: it sees no link that leads nowhere, and a directory
  cannot be unlinked.

  `shlex` is a parameter, and so are the paths and contents of the files. Creating the
  compile directory and writing the two files in it is taken to succeed.

  Proved:
  * `kcons_builds_iff` — a run ends well exactly if every directive is known, nothing is raised
    while the profile is processed, every file is there and `machine` can be linked. Then the
    files to compile are those that one of the lists selects with the profile's options, each
    once and in order, and the files written are made of the template and the profile.
  * `rejected_iff` — a file is rejected exactly if it can be read to its end and holds errors,
    and what is printed is each of them, in the order of the file.
-/

import NativeOS.Tools.FileList
import NativeOS.Tools.ReadBack

namespace NativeOS.Tools.Kcons

open NativeOS.Lib

/-- What stands at a path. -/
inductive Entry where
  | absent
  /-- A link that leads nowhere. -/
  | dangling
  /-- A file, or a link that leads somewhere. -/
  | file
  | directory
  deriving DecidableEq

/-- The files of the configuration directory, and what the last step meets. -/
structure ConfDir where
  /-- `normalize_file(name, base=conf_dir)`. -/
  normalizeFile : Text → Text
  /-- `os.path.join(conf_dir, name)`. -/
  join : Text → Text
  /-- `open(path).readlines()`; nothing where there is no such file. -/
  readlines : Text → Option (List Text)
  /-- Whether `kernel/{arch}/include` is there. -/
  includeExists : Text → Bool
  /-- What stands at `machine` in the compile directory. -/
  machine : Entry

/-- How a run ends that does not come to its end. -/
inductive Stopped where
  /-- An exception of kcons. -/
  | raised (e : Raised)
  /-- shlex's ValueError, with its message. -/
  | shlex (message : Text)
  | typeError
  | fileNotFound (path : Text)
  | fileExists
  | isADirectory
  | exit (code : Nat) (stderr : List Text)
  deriving DecidableEq

/-- `for … in self.parse()`, with the loop's body. -/
def forDirectives {σ : Type} (split : Shlex) (body : σ → List Text → Except Raised σ) (s : σ) (lines : List Text) :
    Except Stopped σ :=
  let parsed := parse split lines
  match parsed.directives.foldlM body s with
  | .error e => .error (.raised e)
  | .ok s' =>
    match parsed.error with
    | some message => .error (.shlex message)
    | none => .ok s'

/-- What `print` makes of the errors. -/
def report (head indent : Text) (errors : List Text) : List Text := head :: errors.map fun error => indent ++ ' ' :: error

/-- Both kinds of files are processed, and errors that were recorded end the run. -/
def processOrExit {σ : Type} (split : Shlex) (body : σ → List Text → Except Raised σ) (s : σ) (errors : σ → List Text)
    (head indent : Text) (lines : List Text) : Except Stopped σ :=
  match forDirectives split body s lines with
  | .error e => .error e
  | .ok s' => if errors s' ≠ [] then .error (.exit 65 (report head indent (errors s'))) else .ok s'

def parseProfile (split : Shlex) (conf : ConfDir) (profileFile : Text) : Except Stopped Profile :=
  match conf.readlines profileFile with
  | none => .error (.exit 66 ["Error! ".toList ++ profileFile ++ " not found".toList])
  | some lines =>
    processOrExit split processDirective .new Profile.errors "Error! Parsing the profile failed".toList "  ".toList lines

/-- `parse_file` of a file list. -/
def parseFile (split : Shlex) (conf : ConfDir) (path : Text) : Except Stopped FileList :=
  match conf.readlines path with
  | none => .error (.fileNotFound path)
  | some lines => processOrExit split processFile .new FileList.errors ("Error! Parsing ".toList ++ path) " ".toList lines

/-- `parse_files`; without an architecture "files." has nothing to be joined with. -/
def parseFileLists (split : Shlex) (conf : ConfDir) (profile : Profile) : Except Stopped (List Text) :=
  match profile.arch with
  | none => .error .typeError
  | some arch => do
    let files ← parseFile split conf (conf.normalizeFile "files".toList)
    let machdep ← parseFile split conf (conf.normalizeFile ("files.".toList ++ arch))
    return parseFiles (compilableFiles files profile) (compilableFiles machdep profile)

/-- The files written to the compile directory, and what they were written from. -/
structure Compile where
  profile : Profile
  fileList : List Text
  makefile : Text
  config : Text

/-- `create_compile`. -/
def createCompile (conf : ConfDir) (profile : Profile) (fileList : List Text) : Except Stopped Compile :=
  match profile.arch with
  | none => .error .typeError
  | some arch =>
    let makefileOrig := conf.join ("Makefile.".toList ++ arch)
    match conf.readlines makefileOrig with
    | none => .error (.fileNotFound makefileOrig)
    | some makefileLines => .ok ⟨profile, fileList, dump profile fileList makefileLines, dumpConfig profile⟩

/-- `try_create_machdep_references`. -/
def tryCreateMachdepReferences (conf : ConfDir) (profile : Profile) : Except Stopped Unit :=
  match profile.arch with
  | none => .error .typeError
  | some arch =>
    if conf.includeExists arch then
      match conf.machine with
      | .absent => .ok ()
      -- `os.path.exists` follows the link, so it is not unlinked and `os.symlink` finds it
      | .dangling => .error .fileExists
      | .file => .ok ()
      | .directory => .error .isADirectory
    else .ok ()

def kcons (split : Shlex) (conf : ConfDir) (profileFile : Text) : Except Stopped Compile := do
  let profile ← parseProfile split conf profileFile
  let fileList ← parseFileLists split conf profile
  let compile ← createCompile conf profile fileList
  tryCreateMachdepReferences conf profile
  return compile

/-! ## What a run should do -/

/-- The directives of a file that can be read to its end. -/
structure Reads (split : Shlex) (conf : ConfDir) (path : Text) (directives : List (List Text)) : Prop where
  lines : ∃ lines, conf.readlines path = some lines ∧ parse split lines = ⟨directives, none⟩

/-- The file can be read, and what is printed is each error in it. -/
def Rejects (split : Shlex) (conf : ConfDir) (path : Text) (taken : List (List Text) → Prop)
    (complaint : List Text → Option Text) (head indent : Text) (stderr : List Text) : Prop :=
  ∃ directives, Reads split conf path directives ∧ taken directives ∧ directives.filterMap complaint ≠ [] ∧
    stderr = report head indent (directives.filterMap complaint)

/-- Nothing in a file list is passed over. -/
def AllDeclare (directives : List (List Text)) : Prop := ∀ d ∈ directives, (declares d).isSome

/-- Where there are headers to link to, nothing stands at `machine` that is in the way. -/
def Linkable (conf : ConfDir) (arch : Text) : Prop :=
  conf.includeExists arch = true → conf.machine = .absent ∨ conf.machine = .file

/-- A build from a profile, two file lists and a template. -/
structure BuiltFrom (c : Compile) (profile files machdep : List (List Text)) (template : List Text) : Prop where
  known : ∀ d ∈ profile, profileComplaint d = none
  defines : process .new profile = .ok c.profile
  declared : AllDeclare files ∧ AllDeclare machdep
  selected : ∀ path, path ∈ c.fileList ↔ Selects (Enabled profile) files path ∨ Selects (Enabled profile) machdep path
  sorted : c.fileList.SortedLT
  makefile : c.makefile = dump c.profile c.fileList template
  config : c.config = dumpConfig c.profile

section Runs

variable {split : Shlex} {conf : ConfDir}

theorem forDirectives_ok {σ : Type} {body : σ → List Text → Except Raised σ} {s s' : σ} {lines : List Text} :
    forDirectives split body s lines = .ok s' ↔
      ∃ directives, parse split lines = ⟨directives, none⟩ ∧ directives.foldlM body s = .ok s' := by
  unfold forDirectives
  cases hp : parse split lines with
  | mk directives error =>
    cases hf : directives.foldlM body s with
    | error e => simp [hf]
    | ok s1 =>
      cases error with
      | some message => simp [hf]
      | none => simp [hf]

theorem forDirectives_error {σ : Type} {body : σ → List Text → Except Raised σ} {s : σ} {lines : List Text} {e : Stopped}
    (h : forDirectives split body s lines = .error e) : ∀ stderr, e ≠ .exit 65 stderr := by
  unfold forDirectives at h
  dsimp only at h
  split at h
  · cases h
    simp
  · split at h
    · cases h
      simp
    · cases h

section Checked

variable {σ : Type} {body : σ → List Text → Except Raised σ} {s s' : σ} {errors : σ → List Text} {head indent : Text}
  {lines stderr : List Text}

theorem processOrExit_ok : processOrExit split body s errors head indent lines = .ok s' ↔
    ∃ directives, parse split lines = ⟨directives, none⟩ ∧ directives.foldlM body s = .ok s' ∧ errors s' = [] := by
  simp only [← and_assoc, exists_and_right, ← forDirectives_ok]
  unfold processOrExit
  cases forDirectives split body s lines with
  | error e => simp
  | ok s1 =>
    by_cases hnil : errors s1 = []
    · simp only [hnil, ne_eq, not_true_eq_false, if_false, Except.ok.injEq]
      exact ⟨fun h => ⟨h, h ▸ hnil⟩, And.left⟩
    · simp only [ne_eq, hnil, not_false_eq_true, if_true, reduceCtorEq, Except.ok.injEq, false_iff]
      exact fun h => hnil (h.1 ▸ h.2)

theorem processOrExit_exit : processOrExit split body s errors head indent lines = .error (.exit 65 stderr) ↔
    ∃ directives s', parse split lines = ⟨directives, none⟩ ∧ directives.foldlM body s = .ok s' ∧ errors s' ≠ [] ∧
      stderr = report head indent (errors s') := by
  have hfor : (∃ directives s', parse split lines = ⟨directives, none⟩ ∧ directives.foldlM body s = .ok s' ∧ errors s' ≠ [] ∧
      stderr = report head indent (errors s')) ↔
      ∃ s', forDirectives split body s lines = .ok s' ∧ errors s' ≠ [] ∧ stderr = report head indent (errors s') := by
    simp only [forDirectives_ok]
    constructor
    · rintro ⟨directives, s', hp, hrun, hne, hout⟩
      exact ⟨s', ⟨directives, hp, hrun⟩, hne, hout⟩
    · rintro ⟨s', ⟨directives, hp, hrun⟩, hne, hout⟩
      exact ⟨directives, s', hp, hrun, hne, hout⟩
  rw [hfor]
  unfold processOrExit
  cases hd : forDirectives split body s lines with
  | error e =>
    refine iff_of_false ?_ (by simp)
    intro h
    exact forDirectives_error hd stderr (Except.error.inj h)
  | ok s1 =>
    by_cases hnil : errors s1 = []
    · simp [hnil]
    · simp [hnil, eq_comm]

end Checked

theorem length_of_declares {directive : List Text} (h : (declares directive).isSome) : 2 ≤ directive.length := by
  rcases directive with _ | ⟨file, _ | ⟨kind, options⟩⟩
  · cases h
  · cases h
  · simp

theorem declares_isSome_of {directive : List Text} (hlen : 2 ≤ directive.length) (h : fileComplaint directive = none) :
    (declares directive).isSome := by
  obtain ⟨l', hl'⟩ := processFile_ok_iff (l := .new) |>.mpr hlen
  rcases processFile_eq hl' with ⟨file, config, hd, -, -⟩ | ⟨error, -, hc, -⟩
  · rw [hd]
    rfl
  · rw [hc] at h
    cases h

theorem fileComplaint_of_declares {directive : List Text} (h : (declares directive).isSome) : fileComplaint directive = none := by
  obtain ⟨l', hl'⟩ := processFile_ok_iff (l := .new) |>.mpr (length_of_declares h)
  rcases processFile_eq hl' with ⟨file, config, -, hc, -⟩ | ⟨error, hd, -, -⟩
  · exact hc
  · rw [hd] at h
    cases h

theorem parseProfile_iff {path : Text} {p : Profile} : parseProfile split conf path = .ok p ↔
    ∃ directives, Reads split conf path directives ∧ process .new directives = .ok p ∧
      ∀ d ∈ directives, profileComplaint d = none := by
  have hnone : ∀ {directives : List (List Text)}, process .new directives = .ok p →
      (p.errors = [] ↔ ∀ d ∈ directives, profileComplaint d = none) := by
    intro directives hrun
    rw [process_errors hrun, List.filterMap_eq_nil_iff]
  unfold parseProfile
  cases hlines : conf.readlines path with
  | none =>
    refine iff_of_false (by simp) ?_
    rintro ⟨directives, ⟨lines, hl, -⟩, -⟩
    cases hlines.symm.trans hl
  | some lines =>
    dsimp only
    rw [processOrExit_ok]
    constructor
    · rintro ⟨directives, hparse, hrun, hnil⟩
      exact ⟨directives, ⟨lines, hlines, hparse⟩, hrun, (hnone hrun).mp hnil⟩
    · rintro ⟨directives, ⟨lines', hl, hparse⟩, hrun, hknown⟩
      cases hlines.symm.trans hl
      exact ⟨directives, hparse, hrun, (hnone hrun).mpr hknown⟩

theorem parseFile_iff {path : Text} {l : FileList} : parseFile split conf path = .ok l ↔
    ∃ directives, Reads split conf path directives ∧ processFiles .new directives = .ok l ∧ AllDeclare directives := by
  have hnone : ∀ {directives : List (List Text)}, processFiles .new directives = .ok l →
      (l.errors = [] ↔ AllDeclare directives) := by
    intro directives hrun
    rw [processFiles_errors hrun, List.filterMap_eq_nil_iff]
    refine forall₂_congr fun d hd => ⟨?_, fileComplaint_of_declares⟩
    exact declares_isSome_of (processFiles_ok_iff.mp ⟨_, hrun⟩ d hd)
  unfold parseFile
  cases hlines : conf.readlines path with
  | none =>
    refine iff_of_false (by simp) ?_
    rintro ⟨directives, ⟨lines, hl, -⟩, -⟩
    cases hlines.symm.trans hl
  | some lines =>
    dsimp only
    rw [processOrExit_ok]
    constructor
    · rintro ⟨directives, hparse, hrun, hnil⟩
      exact ⟨directives, ⟨lines, hlines, hparse⟩, hrun, (hnone hrun).mp hnil⟩
    · rintro ⟨directives, ⟨lines', hl, hparse⟩, hrun, hdeclare⟩
      cases hlines.symm.trans hl
      exact ⟨directives, hparse, hrun, (hnone hrun).mpr hdeclare⟩

theorem sorted_parseFiles (files machdep : List Text) : (parseFiles files machdep).SortedLT := by
  unfold parseFiles
  exact Finset.sortedLT_sort _

/-- The files that two lists select, in order. -/
theorem selected_iff {p : Profile} {profile files machdep : List (List Text)} {l l' : FileList}
    (hp : process .new profile = .ok p) (hl : processFiles .new files = .ok l) (hl' : processFiles .new machdep = .ok l')
    (path : Text) : path ∈ parseFiles (compilableFiles l p) (compilableFiles l' p) ↔
      Selects (Enabled profile) files path ∨ Selects (Enabled profile) machdep path := by
  have hopts : (fun opt => opt ∈ p.options) = Enabled profile := funext fun opt => propext (process_options hp opt)
  rw [mem_parseFiles, List.mem_append, mem_compilableFiles hl, mem_compilableFiles hl', hopts]

theorem parseFileLists_iff {p : Profile} {fileList : List Text} : parseFileLists split conf p = .ok fileList ↔
    ∃ arch l l', p.arch = some arch ∧ parseFile split conf (conf.normalizeFile "files".toList) = .ok l ∧
      parseFile split conf (conf.normalizeFile ("files.".toList ++ arch)) = .ok l' ∧
      fileList = parseFiles (compilableFiles l p) (compilableFiles l' p) := by
  unfold parseFileLists
  constructor
  · intro h
    cases ha : p.arch with
    | none =>
      rw [ha] at h
      cases h
    | some arch =>
      rw [ha] at h
      cases hl : parseFile split conf (conf.normalizeFile "files".toList) with
      | error e =>
        rw [hl] at h
        cases h
      | ok l =>
        rw [hl] at h
        cases hl' : parseFile split conf (conf.normalizeFile ("files.".toList ++ arch)) with
        | error e =>
          dsimp only [Bind.bind, Except.bind] at h
          rw [hl'] at h
          cases h
        | ok l' =>
          dsimp only [Bind.bind, Except.bind] at h
          rw [hl'] at h
          cases h
          exact ⟨arch, l, l', rfl, rfl, hl', rfl⟩
  · rintro ⟨arch, l, l', ha, hl, hl', rfl⟩
    rw [ha, hl]
    dsimp only [Bind.bind, Except.bind]
    rw [hl']
    rfl

theorem createCompile_iff {p : Profile} {fileList : List Text} {c : Compile} : createCompile conf p fileList = .ok c ↔
    ∃ arch template, p.arch = some arch ∧ conf.readlines (conf.join ("Makefile.".toList ++ arch)) = some template ∧
      c = ⟨p, fileList, dump p fileList template, dumpConfig p⟩ := by
  unfold createCompile
  constructor
  · intro h
    cases ha : p.arch with
    | none =>
      rw [ha] at h
      cases h
    | some arch =>
      rw [ha] at h
      dsimp only at h
      cases ht : conf.readlines (conf.join ("Makefile.".toList ++ arch)) with
      | none =>
        rw [ht] at h
        cases h
      | some template =>
        rw [ht] at h
        cases h
        exact ⟨arch, template, rfl, ht, rfl⟩
  · rintro ⟨arch, template, ha, ht, rfl⟩
    rw [ha]
    dsimp only
    rw [ht]

theorem tryCreateMachdepReferences_iff {p : Profile} {arch : Text} (ha : p.arch = some arch) :
    tryCreateMachdepReferences conf p = .ok () ↔ Linkable conf arch := by
  unfold tryCreateMachdepReferences Linkable
  rw [ha]
  by_cases hinc : conf.includeExists arch = true
  · cases conf.machine <;> simp [hinc]
  · simp [hinc]

theorem kcons_iff {path : Text} {c : Compile} : kcons split conf path = .ok c ↔
    ∃ p fileList, parseProfile split conf path = .ok p ∧ parseFileLists split conf p = .ok fileList ∧
      createCompile conf p fileList = .ok c ∧ tryCreateMachdepReferences conf p = .ok () := by
  unfold kcons
  cases hp : parseProfile split conf path with
  | error e => simp [Bind.bind, Except.bind]
  | ok p =>
    cases hf : parseFileLists split conf p with
    | error e => simp [hf, Bind.bind, Except.bind]
    | ok fileList =>
      cases hc : createCompile conf p fileList with
      | error e => simp [hf, hc, Bind.bind, Except.bind]
      | ok c' =>
        cases ht : tryCreateMachdepReferences conf p with
        | error e => simp [hf, hc, ht, Bind.bind, Except.bind]
        | ok u => simp [hf, hc, ht, Bind.bind, Except.bind, Pure.pure, Except.pure]

/-- A run ends well exactly if every directive of the profile and of the two lists can be
    read and is known, nothing is raised while the profile is processed, it names an
    architecture, all files are there, and nothing is in the way of the link; and what is
    built is then the files selected, the template and the profile. -/
theorem kcons_builds_iff {path : Text} {c : Compile} : kcons split conf path = .ok c ↔
    ∃ profile files machdep arch template, Reads split conf path profile ∧
      lastSaid setsArch profile = some arch ∧
      Reads split conf (conf.normalizeFile "files".toList) files ∧
      Reads split conf (conf.normalizeFile ("files.".toList ++ arch)) machdep ∧
      conf.readlines (conf.join ("Makefile.".toList ++ arch)) = some template ∧
      Linkable conf arch ∧ BuiltFrom c profile files machdep template := by
  rw [kcons_iff]
  constructor
  · rintro ⟨p, fileList, hprofile, hlists, hcompile, hlink⟩
    obtain ⟨profile, hreads, hp, hknown⟩ := parseProfile_iff.mp hprofile
    obtain ⟨arch, l, l', harch, hl, hl', rfl⟩ := parseFileLists_iff.mp hlists
    obtain ⟨arch', template, harch', htemplate, rfl⟩ := createCompile_iff.mp hcompile
    obtain ⟨files, hfiles, hrun, hdeclare⟩ := parseFile_iff.mp hl
    obtain ⟨machdep, hmachdep, hrun', hdeclare'⟩ := parseFile_iff.mp hl'
    cases harch.symm.trans harch'
    refine ⟨profile, files, machdep, arch, template, hreads, (process_arch hp).symm.trans harch, hfiles, hmachdep, htemplate,
      (tryCreateMachdepReferences_iff harch).mp hlink, ?_⟩
    exact {
      known := hknown
      defines := hp
      declared := ⟨hdeclare, hdeclare'⟩
      selected := selected_iff hp hrun hrun'
      sorted := sorted_parseFiles _ _
      makefile := rfl
      config := rfl }
  · rintro ⟨profile, files, machdep, arch, template, hreads, harch, hfiles, hmachdep, htemplate, hlink, hbuilt⟩
    have hp := hbuilt.defines
    have harch' : c.profile.arch = some arch := (process_arch hp).trans harch
    obtain ⟨l, hl⟩ := processFiles_ok_iff (l := .new) |>.mpr fun d hd => length_of_declares (hbuilt.declared.1 d hd)
    obtain ⟨l', hl'⟩ := processFiles_ok_iff (l := .new) |>.mpr fun d hd => length_of_declares (hbuilt.declared.2 d hd)
    have hlist : c.fileList = parseFiles (compilableFiles l c.profile) (compilableFiles l' c.profile) := by
      refine hbuilt.sorted.eq_of_mem_iff (sorted_parseFiles _ _) ?_
      intro path
      exact (hbuilt.selected path).trans (selected_iff hp hl hl' path).symm
    refine ⟨c.profile, c.fileList, parseProfile_iff.mpr ⟨profile, hreads, hp, hbuilt.known⟩, ?_, ?_,
      (tryCreateMachdepReferences_iff harch').mpr hlink⟩
    · exact parseFileLists_iff.mpr ⟨arch, l, l', harch', parseFile_iff.mpr ⟨files, hfiles, hl, hbuilt.declared.1⟩,
        parseFile_iff.mpr ⟨machdep, hmachdep, hl', hbuilt.declared.2⟩, hlist⟩
    · refine createCompile_iff.mpr ⟨arch, template, harch', htemplate, ?_⟩
      rw [← hbuilt.makefile, ← hbuilt.config]

/-- A profile or a file list is rejected exactly if it can be read to its end, nothing is
    raised and something in it is no directive; what is printed is each of these, in order. -/
theorem rejected_iff (path : Text) (stderr : List Text) :
    (parseProfile split conf path = .error (.exit 65 stderr) ↔
      Rejects split conf path (fun ds => ∃ p, process .new ds = .ok p) profileComplaint
        "Error! Parsing the profile failed".toList "  ".toList stderr) ∧
    (parseFile split conf path = .error (.exit 65 stderr) ↔
      Rejects split conf path (fun ds => ∀ d ∈ ds, 2 ≤ d.length) fileComplaint
        ("Error! Parsing ".toList ++ path) " ".toList stderr) := by
  unfold parseProfile parseFile Rejects
  cases hlines : conf.readlines path with
  | none =>
    have hno : ∀ ds, ¬ Reads split conf path ds := by
      rintro ds ⟨lines, hl, -⟩
      cases hlines.symm.trans hl
    exact ⟨by simp [hno], by simp [hno]⟩
  | some lines =>
    have hreads : ∀ ds, Reads split conf path ds ↔ parse split lines = ⟨ds, none⟩ := by
      intro ds
      refine ⟨?_, fun hp => ⟨lines, hlines, hp⟩⟩
      rintro ⟨lines', hl, hp⟩
      cases hlines.symm.trans hl
      exact hp
    simp only [hreads, processOrExit_exit]
    constructor
    · refine exists_congr fun ds => ?_
      constructor
      · rintro ⟨p, hp, hrun, hne, hout⟩
        rw [process_errors hrun] at hne hout
        exact ⟨hp, ⟨p, hrun⟩, hne, hout⟩
      · rintro ⟨hp, ⟨p, hrun⟩, hne, hout⟩
        rw [← process_errors hrun] at hne hout
        exact ⟨p, hp, hrun, hne, hout⟩
    · refine exists_congr fun ds => ?_
      constructor
      · rintro ⟨l, hp, hrun, hne, hout⟩
        rw [processFiles_errors hrun] at hne hout
        exact ⟨hp, processFiles_ok_iff.mp ⟨l, hrun⟩, hne, hout⟩
      · rintro ⟨hp, htaken, hne, hout⟩
        obtain ⟨l, hrun⟩ := processFiles_ok_iff (l := .new) |>.mpr htaken
        rw [← processFiles_errors hrun] at hne hout
        exact ⟨l, hp, hrun, hne, hout⟩

end Runs

end NativeOS.Tools.Kcons
