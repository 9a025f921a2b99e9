/-
  NativeOS.Tools.Makefile — the rules and objects of the generated Makefile (`tools/kcons`,
  `MakefileDumper`).

  The files to compile are a set of paths, written out in order. `object_file_for` names an
  object after the file alone: the directory goes, and the extension. Two sources of one
  name then share an object, which has two rules and stands twice among the objects.

  Proved:
  * `builds_each_iff` — for every two lists of files: the objects differ, each source has one
    rule and is linked once, exactly if no two of the paths have the same name up to the
    extension, in whatever directories.
  * `a_name_in_two_directories` — "kernel/a/foo.c" and "kernel/b/foo.s" both become "foo.o".
  * `makeopts_iff` — the variables written are the settings of the profile, one line for each.
-/

import Mathlib.Data.Char
import Mathlib.Data.Finset.Sort
import Mathlib.Data.List.Lex
import NativeOS.Tools.Profile

namespace NativeOS.Tools.Kcons

open NativeOS.Lib

/-! ## Context.parse_files -/

/-- `file_list`: what the two lists select, as a set and in order. -/
def parseFiles (files machdep : List Text) : List Text := (files ++ machdep).toFinset.sort

/-! ## MakefileDumper -/

/-- `os.path.basename`. -/
def basename (path : Text) : Text := path.rtakeWhile (· ≠ '/')

/-- `os.path.splitext` of a name without directory. Dots in front of everything else do not
    begin an extension. -/
def splitext (name : Text) : Text × Text :=
  let root := (name.rdropWhile (· ≠ '.')).dropLast
  if root.any (· ≠ '.') then (root, name.drop root.length) else (name, [])

def objectFileFor (name : Text) : Text := (splitext (basename name)).1 ++ ".o".toList

/-- `MAKEFILE_RULE_TEMPLATE`. -/
def makefileRuleTemplate : Text :=
  "%%object%%: $(ROOT)/%%source%%\n\t$(CC) $(CFLAGS) $(%%object%%_CFLAGS) $(ROOT)/%%source%%\n".toList

/-- `replace_all`. -/
def replaceAll (str : Text) (tokens : List (Text × Text)) : Text :=
  tokens.foldl (fun str token => replace token.1 token.2 str) str

/-- The rule `expand_rules` writes for a file. -/
def ruleFor (sourceFile : Text) : Text :=
  replaceAll makefileRuleTemplate
    [("%%source%%".toList, sourceFile), ("%%object%%".toList, objectFileFor sourceFile)]

def expandRules (fileList : List Text) : Text := (fileList.map ruleFor).flatten

/-- What `expand_list_of_files` writes from here on. -/
def listLoop (buffer : Text) : List Text → Text
  | [] => (if buffer.getLast? = some ' ' then buffer.dropLast else buffer) ++ ['\n']
  | item :: items =>
    let beforeBuffer := buffer ++ ' ' :: item
    if beforeBuffer.length > 60 then buffer ++ "\\\n".toList ++ listLoop ('\t' :: item ++ [' ']) items
    else listLoop (buffer ++ item ++ [' ']) items

def expandListOfFiles (preffix : Text) (items : List Text) : Text := listLoop preffix items

def objects (fileList : List Text) : List Text := fileList.map objectFileFor

def expandObjs (fileList : List Text) : Text := expandListOfFiles "OBJS = \t".toList (objects fileList)

/-- The lines of `expand_makeopts`, as they are sorted. -/
def makeopts (p : Profile) : List Text :=
  ((p.makeoptions.entries.map fun (name, value) => name ++ '=' :: value) ++
    (p.appendmakeoptions.entries.map fun (name, value) => name ++ '+' :: '=' :: value)).mergeSort fun a b => decide (a ≤ b)

def expandMakeopts (p : Profile) : Text := ['\n'].intercalate (makeopts p) ++ ['\n']

/-! ## What it should do -/

/-- How a rule for the source's object begins. -/
def ruleHead (sourceFile : Text) : Text := objectFileFor sourceFile ++ ": $(ROOT)/".toList

/-- Every source has an object of its own, one rule to make it, and is linked once. -/
structure BuildsEach (fileList : List Text) : Prop where
  distinct : (objects fileList).Nodup
  oneRule : ∀ s ∈ fileList, (fileList.map ruleFor).countP (ruleHead s).isPrefixOf = 1
  linkedOnce : ∀ s ∈ fileList, (objects fileList).count (objectFileFor s) = 1

/-- The extension of a name with this stem: from the last dot on, or nothing where there is
    no dot but in front. -/
def IsExtension (stem ext : Text) : Prop :=
  (∃ e, ext = '.' :: e ∧ '.' ∉ e ∧ ∃ c ∈ stem, c ≠ '.') ∨
    (ext = [] ∧ ∀ a b, stem = a ++ '.' :: b → ∀ c ∈ a, c = '.')

/-- The path is a directory, the stem and an extension. -/
def HasStem (path stem : Text) : Prop :=
  ∃ dir ext, path = dir ++ stem ++ ext ∧ (∀ c ∈ dir.getLast?, c = '/') ∧ '/' ∉ stem ++ ext ∧ IsExtension stem ext

/-- The same name, in some directory and with some extension. -/
def Clash (a b : Text) : Prop := ∃ stem, HasStem a stem ∧ HasStem b stem

/-! ## Stems -/

theorem basename_append {dir file : Text} (hdir : ∀ c ∈ dir.getLast?, c = '/') (hfile : '/' ∉ file) :
    basename (dir ++ file) = file := by
  refine rtakeWhile_append_of ?_ ?_
  · intro c hc
    simp [hdir c hc]
  · intro c hc
    rw [decide_eq_true_eq]
    rintro rfl
    exact hfile hc

theorem slash_not_mem_basename (path : Text) : '/' ∉ basename path := by
  intro h
  simpa using List.mem_rtakeWhile_imp h

theorem basename_parts (path : Text) : ∃ dir, path = dir ++ basename path ∧ ∀ c ∈ dir.getLast?, c = '/' := by
  refine ⟨path.rdropWhile (· ≠ '/'), List.rdropWhile_append_rtakeWhile.symm, ?_⟩
  intro c hc
  simpa using rdropWhile_getLast? hc

/-- The last dot of a name, and what is in front of it. -/
theorem lastDot_parts (name : Text) : name.rdropWhile (· ≠ '.') = [] ∨
    ∃ e, name = (name.rdropWhile (· ≠ '.')).dropLast ++ '.' :: e ∧ '.' ∉ e := by
  have hparts : name.rdropWhile (· ≠ '.') ++ name.rtakeWhile (· ≠ '.') = name := List.rdropWhile_append_rtakeWhile
  have htail : '.' ∉ name.rtakeWhile (· ≠ '.') := by
    intro h
    simpa using List.mem_rtakeWhile_imp h
  cases hlast : (name.rdropWhile (· ≠ '.')).getLast? with
  | none => exact .inl (List.getLast?_eq_none_iff.mp hlast)
  | some c =>
    have hc : c = '.' := by simpa using rdropWhile_getLast? hlast
    obtain ⟨front, hfront⟩ := List.getLast?_eq_some_iff.mp hlast
    rw [hc] at hfront
    refine .inr ⟨name.rtakeWhile (· ≠ '.'), ?_, htail⟩
    rw [hfront, List.dropLast_concat, List.append_cons, ← hfront, hparts]

theorem splitext_root {name : Text} (h : ∃ c ∈ (name.rdropWhile (· ≠ '.')).dropLast, c ≠ '.') :
    (splitext name).1 = (name.rdropWhile (· ≠ '.')).dropLast := by
  have hany : (name.rdropWhile (· ≠ '.')).dropLast.any (· ≠ '.') = true := by simpa using h
  unfold splitext
  rw [if_pos hany]

theorem splitext_name {name : Text} (h : ¬ ∃ c ∈ (name.rdropWhile (· ≠ '.')).dropLast, c ≠ '.') :
    (splitext name).1 = name := by
  have hnone : ¬ (name.rdropWhile (· ≠ '.')).dropLast.any (· ≠ '.') = true := by simpa using h
  unfold splitext
  rw [if_neg hnone]

theorem splitext_of_extension {stem e : Text} (he : '.' ∉ e) (hstem : ∃ c ∈ stem, c ≠ '.') :
    (splitext (stem ++ '.' :: e)).1 = stem := by
  have hdrop : (stem ++ '.' :: e).rdropWhile (· ≠ '.') = stem ++ ['.'] := by
    rw [List.append_cons]
    refine rdropWhile_append_of ?_ ?_
    · intro c hc
      rw [List.getLast?_concat] at hc
      cases hc
      decide
    · intro c hc
      rw [decide_eq_true_eq]
      rintro rfl
      exact he hc
  have hroot : ((stem ++ '.' :: e).rdropWhile (· ≠ '.')).dropLast = stem := by rw [hdrop, List.dropLast_concat]
  rw [splitext_root (by rwa [hroot]), hroot]

/-- Everything in front of any dot is in front of the last one. -/
theorem mem_root {name a b : Text} (h : name = a ++ '.' :: b) {c : Char} (hc : c ∈ a) :
    c ∈ (name.rdropWhile (· ≠ '.')).dropLast := by
  have hdot : ∃ x ∈ '.' :: b, ¬ decide (x ≠ '.') = true := ⟨'.', List.mem_cons_self, by decide⟩
  have hne : ('.' :: b).rdropWhile (· ≠ '.') ≠ [] := by
    intro h0
    obtain ⟨x, hx, hxp⟩ := hdot
    exact hxp (List.rdropWhile_eq_nil_iff.mp h0 x hx)
  rw [h, rdropWhile_append_of_not_all a hdot, List.dropLast_append_of_ne_nil hne]
  exact List.mem_append_left _ hc

theorem splitext_iff {name stem : Text} : (splitext name).1 = stem ↔ ∃ ext, name = stem ++ ext ∧ IsExtension stem ext := by
  constructor
  · intro h
    by_cases hroot : ∃ c ∈ (name.rdropWhile (· ≠ '.')).dropLast, c ≠ '.'
    · rw [splitext_root hroot] at h
      rcases lastDot_parts name with hnone | ⟨e, he, hdot⟩
      · rw [hnone] at hroot
        obtain ⟨c, hc, -⟩ := hroot
        cases hc
      · rw [h] at he hroot
        exact ⟨'.' :: e, he, .inl ⟨e, rfl, hdot, hroot⟩⟩
    · rw [splitext_name hroot] at h
      refine ⟨[], by rw [h, List.append_nil], .inr ⟨rfl, ?_⟩⟩
      intro a b hab c hc
      by_contra hne
      exact hroot ⟨c, mem_root (h.trans hab) hc, hne⟩
  · intro h
    obtain ⟨ext, rfl, hext⟩ := h
    rcases hext with ⟨e, rfl, he, hstem⟩ | ⟨rfl, hdots⟩
    · exact splitext_of_extension he hstem
    · rw [List.append_nil]
      refine splitext_name ?_
      intro hroot
      obtain ⟨c, hc, hne⟩ := hroot
      rcases lastDot_parts stem with hnone | ⟨e, he, -⟩
      · rw [hnone] at hc
        cases hc
      · exact hne (hdots _ e he c hc)

theorem hasStem_iff {path stem : Text} : HasStem path stem ↔ (splitext (basename path)).1 = stem := by
  rw [splitext_iff]
  constructor
  · intro h
    obtain ⟨dir, ext, hpath, hdir, hslash, hext⟩ := h
    refine ⟨ext, ?_, hext⟩
    rw [hpath, List.append_assoc, basename_append hdir hslash]
  · intro h
    obtain ⟨ext, hname, hext⟩ := h
    obtain ⟨dir, hpath, hdir⟩ := basename_parts path
    refine ⟨dir, ext, ?_, hdir, ?_, hext⟩
    · rw [List.append_assoc, ← hname]
      exact hpath
    · rw [← hname]
      exact slash_not_mem_basename path

/-- Two paths share an object exactly if they clash. -/
theorem objectFileFor_eq_iff {a b : Text} : objectFileFor a = objectFileFor b ↔ Clash a b := by
  unfold objectFileFor Clash
  rw [List.append_cancel_right_eq]
  constructor
  · intro h
    exact ⟨_, hasStem_iff.mpr h, hasStem_iff.mpr rfl⟩
  · intro h
    obtain ⟨stem, ha, hb⟩ := h
    exact (hasStem_iff.mp ha).trans (hasStem_iff.mp hb).symm

theorem slash_not_mem_object (path : Text) : '/' ∉ objectFileFor path := by
  obtain ⟨ext, hname, -⟩ := splitext_iff.mp (rfl : (splitext (basename path)).1 = _)
  have hbase := slash_not_mem_basename path
  rw [hname, List.mem_append, not_or] at hbase
  unfold objectFileFor
  rw [List.mem_append, not_or]
  exact ⟨hbase.1, by decide⟩

/-! ## Rules -/

/-- The template up to its first source, between the two, and behind the second. -/
theorem split_template : split "%%source%%".toList makefileRuleTemplate =
    ["%%object%%: $(ROOT)/".toList, "\n\t$(CC) $(CFLAGS) $(%%object%%_CFLAGS) $(ROOT)/".toList, "\n".toList] := by
  decide

/-- The template with the source in it. -/
def sourced (sourceFile : Text) : Text :=
  sourceFile ++ ("\n\t$(CC) $(CFLAGS) $(".toList ++ ("%%object%%".toList ++ ("_CFLAGS) $(ROOT)/".toList ++
    (sourceFile ++ "\n".toList))))

theorem replace_source (sourceFile : Text) : replace "%%source%%".toList sourceFile makefileRuleTemplate =
    "%%object%%".toList ++ (": $(ROOT)/".toList ++ sourced sourceFile) := by
  unfold replace
  rw [split_template, List.intercalate_cons_cons, List.intercalate_cons_cons, List.intercalate_singleton]
  unfold sourced
  simp

/-- A text without '%' in it stays. -/
theorem replace_object {object l : Text} (h : '%' ∉ l) (rest : Text) :
    replace "%%object%%".toList object (l ++ rest) = l ++ replace "%%object%%".toList object rest :=
  replace_append (not_begins_of_not_mem (by decide) h rest)

theorem ruleFor_head (sourceFile : Text) : ruleFor sourceFile =
    ruleHead sourceFile ++ replace "%%object%%".toList (objectFileFor sourceFile) (sourced sourceFile) := by
  unfold ruleFor replaceAll
  simp only [List.foldl_cons, List.foldl_nil]
  rw [replace_source, replace_front (by decide), replace_object (by decide), ruleHead, List.append_assoc]

/-- The whole rule, unless the path itself holds the template's "%%object%%". -/
theorem ruleFor_eq {sourceFile : Text} (h : ¬ "%%object%%".toList <:+: sourceFile) : ruleFor sourceFile =
    ruleHead sourceFile ++ (sourceFile ++ ("\n\t$(CC) $(CFLAGS) $(".toList ++ (objectFileFor sourceFile ++
      ("_CFLAGS) $(ROOT)/".toList ++ (sourceFile ++ "\n".toList))))) := by
  have hsource : ∀ rest : Text, rest.head? = some '\n' → replace "%%object%%".toList (objectFileFor sourceFile)
      (sourceFile ++ rest) = sourceFile ++ replace "%%object%%".toList (objectFileFor sourceFile) rest := by
    intro rest hrest
    exact replace_append (not_begins_of_absent h hrest (by decide))
  rw [ruleFor_head, sourced, hsource _ rfl, replace_object (by decide), replace_front (by decide),
    replace_object (by decide), hsource _ rfl, replace_of_absent (by decide)]


/-- A rule begins like another source's exactly if they share the object: there is no '/' in
    an object, and one behind it. -/
theorem ruleHead_prefix_iff {s t : Text} : ruleHead s <+: ruleFor t ↔ objectFileFor s = objectFileFor t := by
  have hsplit : ∀ path, ruleHead path = objectFileFor path ++ ": $(ROOT)".toList ++ ['/'] := by
    intro path
    unfold ruleHead
    rw [List.append_assoc]
    rfl
  have hno : ∀ path, '/' ∉ objectFileFor path ++ ": $(ROOT)".toList := by
    intro path
    rw [List.mem_append, not_or]
    exact ⟨slash_not_mem_object path, by decide⟩
  constructor
  · intro h
    obtain ⟨rest, hrest⟩ := h
    rw [ruleFor_head, hsplit, hsplit, List.append_assoc _ ['/'], List.append_assoc _ ['/'], List.singleton_append,
      List.singleton_append] at hrest
    have hfront := congrArg (List.takeWhile (· ≠ '/')) hrest
    rw [takeWhile_ne_append (hno s), takeWhile_ne_append (hno t)] at hfront
    exact List.append_cancel_right hfront
  · intro h
    rw [ruleFor_head, ruleHead, ruleHead, h]
    exact List.prefix_append _ _

/-! ## Variables -/

theorem makeopts_iff {p : Profile} {settings : Text → Option Setting} (h : Agrees p settings) {line : Text} :
    line ∈ makeopts p ↔ ∃ name value, settings name = some (.assigned value) ∧ line = name ++ '=' :: value ∨
      settings name = some (.appended value) ∧ line = name ++ '+' :: '=' :: value := by
  unfold makeopts
  rw [List.mem_mergeSort, List.mem_append, List.mem_map, List.mem_map]
  constructor
  · intro hline
    rcases hline with ⟨⟨name, value⟩, he, hl⟩ | ⟨⟨name, value⟩, he, hl⟩
    · exact ⟨name, value, .inl ⟨h.assigned_iff.mp he, hl.symm⟩⟩
    · exact ⟨name, value, .inr ⟨h.appended_iff.mp he, hl.symm⟩⟩
  · intro hline
    obtain ⟨name, value, ⟨hs, hl⟩ | ⟨hs, hl⟩⟩ := hline
    · exact .inl ⟨(name, value), h.assigned_iff.mpr hs, hl.symm⟩
    · exact .inr ⟨(name, value), h.appended_iff.mpr hs, hl.symm⟩

/-! ## Every set of files -/

theorem mem_parseFiles {files machdep : List Text} {path : Text} : path ∈ parseFiles files machdep ↔ path ∈ files ++ machdep := by
  unfold parseFiles
  rw [Finset.mem_sort, List.mem_toFinset]

theorem nodup_parseFiles (files machdep : List Text) : (parseFiles files machdep).Nodup := Finset.sort_nodup _ _

/-- What differs has rules and objects of its own. -/
theorem BuildsEach.of_distinct {fileList : List Text} (h : (objects fileList).Nodup) : BuildsEach fileList := by
  have hcount : ∀ s ∈ fileList, (objects fileList).count (objectFileFor s) = 1 := by
    intro s hs
    exact List.count_eq_one_of_mem h (List.mem_map_of_mem hs)
  refine ⟨h, ?_, hcount⟩
  intro s hs
  rw [List.countP_map, ← hcount s hs]
  unfold objects
  rw [List.count, List.countP_map]
  refine List.countP_congr ?_
  intro t _
  show (ruleHead s).isPrefixOf (ruleFor t) = true ↔ (objectFileFor t == objectFileFor s) = true
  rw [List.isPrefixOf_iff_prefix, ruleHead_prefix_iff, beq_iff_eq, eq_comm]

/-- For every two lists of files: each source has an object of its own, one rule, and is
    linked once, exactly if no two paths among them have a name in common. -/
theorem builds_each_iff (files machdep : List Text) : BuildsEach (parseFiles files machdep) ↔
    ∀ a ∈ files ++ machdep, ∀ b ∈ files ++ machdep, Clash a b → a = b := by
  have hdistinct : (objects (parseFiles files machdep)).Nodup ↔
      ∀ a ∈ files ++ machdep, ∀ b ∈ files ++ machdep, Clash a b → a = b := by
    unfold objects
    rw [List.nodup_map_iff_inj_on (nodup_parseFiles files machdep)]
    simp only [mem_parseFiles, objectFileFor_eq_iff]
  rw [← hdistinct]
  constructor
  · intro h
    exact h.distinct
  · intro h
    exact .of_distinct h

/-- Two directories, two extensions: one object. -/
theorem a_name_in_two_directories : ¬ BuildsEach (parseFiles ["kernel/a/foo.c".toList] ["kernel/b/foo.s".toList]) := by
  intro h
  have hinj := List.inj_on_of_nodup_map h.distinct
  have hsame := hinj (mem_parseFiles.mpr (List.mem_cons_self)) (mem_parseFiles.mpr (List.mem_cons_of_mem _ List.mem_cons_self))
    (by decide)
  revert hsame
  decide

end NativeOS.Tools.Kcons
