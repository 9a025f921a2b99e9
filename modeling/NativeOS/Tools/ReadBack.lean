/-
  NativeOS.Tools.ReadBack — what the generated files say when they are read again
  (`tools/kcons`, `expand_makeopts` and `ConfigDumper`).

  The make options are written one a line, sorted as texts. The order does not matter, since
  no name stands in two lines. `config.h` has one `#define` for each macro, with the white
  space at the end of the line trimmed off. Of make and of the preprocessor only as much is
  here as these lines need: names of letters, digits and underscores, and values without
  comments. What a template's own lines set is not looked at.

  Proved:
  * `settings_reach_make_iff` — for every sequence of make options whose values can be read:
    make finds the documented settings in the lines that stand in for `%%MAKEOPTIONS%%`
    exactly if nothing but blanks is lost of a pending append.
  * `macros_reach_the_compiler` — for every sequence of define and nodefine directives: the
    macros in `config.h` are the documented ones, each with its value trimmed.
-/

import NativeOS.Tools.Template

namespace NativeOS.Tools.Kcons

open NativeOS.Lib

/-! ## Texts that stay on their line -/

/-- Digits, letters and the underscore: a name's characters, to make and to the preprocessor. -/
def isNameChar (c : Char) : Bool :=
  let n := c.toNat
  (48 ≤ n && n ≤ 57) || (65 ≤ n && n ≤ 90) || n == 95 || (97 ≤ n && n ≤ 122)

def NameChars (name : Text) : Prop := ∀ c ∈ name, isNameChar c = true

instance (name : Text) : Decidable (NameChars name) := List.decidableBAll (fun c : Char => isNameChar c = true) name

/-- Nothing ends the line or makes it go on. -/
def OneLine (text : Text) : Prop := '\n' ∉ text ∧ text.getLast? ≠ some '\\'

instance (text : Text) : Decidable (OneLine text) := inferInstanceAs (Decidable (_ ∧ _))

/-- No control characters but tabs. -/
def Printing (text : Text) : Prop := ∀ c ∈ text, c.toNat < 32 → c = '\t'

instance (text : Text) : Decidable (Printing text) := List.decidableBAll (fun c : Char => c.toNat < 32 → c = '\t') text

theorem Printing.noNewline {text : Text} (h : Printing text) : '\n' ∉ text :=
  fun hmem => absurd (h _ hmem (by decide)) (by decide)

theorem Printing.append {a b : Text} (ha : Printing a) (hb : Printing b) : Printing (a ++ b) :=
  List.forall_mem_append.mpr ⟨ha, hb⟩

theorem OneLine.append {a b : Text} (ha : OneLine a) (hb : OneLine b) : OneLine (a ++ b) := by
  refine ⟨by simp [ha.1, hb.1], ?_⟩
  intro hlast
  rw [List.getLast?_append, Option.or_eq_some_iff] at hlast
  rcases hlast with hlast | ⟨-, hlast⟩
  · exact hb.2 hlast
  · exact ha.2 hlast

section Names

variable {name : Text}

theorem NameChars.noNewline (h : NameChars name) : '\n' ∉ name :=
  fun hmem => absurd (h _ hmem) (by decide)

theorem NameChars.oneLine (h : NameChars name) : OneLine name :=
  ⟨h.noNewline, fun hlast => absurd (h _ (List.mem_of_getLast? hlast)) (by decide)⟩

end Names

/-! ## Settings, as make reads them -/

/-- White space within a line. -/
def isMakeBlank (c : Char) : Bool := c == ' ' || c == '\t'

/-- A line that begins with a name and '=' or "+=". Make cuts off the comment and skips the
    blanks in front of the value. -/
def readSetting (line : Text) : Option (Text × Setting) :=
  let code := line.takeWhile (· ≠ '#')
  let name := code.takeWhile isNameChar
  if name = [] then none
  else
    match code.dropWhile isNameChar with
    | '=' :: value => some (name, .assigned (value.dropWhile isMakeBlank))
    | '+' :: '=' :: value => some (name, .appended (value.dropWhile isMakeBlank))
    | _ => none

def readSettings (text : Text) : List (Text × Setting) := (makeLines text).filterMap readSetting

/-- A setting without the blanks in front of its value. -/
def Setting.stripped : Setting → Setting
  | .assigned value => .assigned (value.dropWhile isMakeBlank)
  | .appended value => .appended (value.dropWhile isMakeBlank)

/-- These are the settings, up to the blanks in front, and each name has one. -/
structure SettingsRead (text : Text) (settings : Text → Option Setting) : Prop where
  read : ∀ name s, (name, s) ∈ readSettings text ↔ (settings name).map Setting.stripped = some s
  once : ((readSettings text).map Prod.fst).Nodup

def Setting.value : Setting → Text
  | .assigned value => value
  | .appended value => value

def Makeoption.value : Makeoption → Text
  | .bare _ => []
  | .assign _ value => value
  | .append _ value => value

/-- A value that stays on its line and that make does not cut. -/
structure PlainValue (value : Text) : Prop where
  printing : Printing value
  noBackslash : value.getLast? ≠ some '\\'
  noComment : '#' ∉ value

instance (value : Text) : Decidable (PlainValue value) :=
  decidable_of_iff (Printing value ∧ value.getLast? ≠ some '\\' ∧ '#' ∉ value)
    ⟨fun ⟨h1, h2, h3⟩ => ⟨h1, h2, h3⟩, fun h => ⟨h.1, h.2, h.3⟩⟩

/-- A name of letters, digits and underscores, and a plain value. -/
structure Proper (name value : Text) : Prop where
  nonempty : name ≠ []
  nameChars : NameChars name
  plain : PlainValue value

instance (name value : Text) : Decidable (Proper name value) :=
  decidable_of_iff (name ≠ [] ∧ NameChars name ∧ PlainValue value)
    ⟨fun ⟨h1, h2, h3⟩ => ⟨h1, h2, h3⟩, fun h => ⟨h.1, h.2, h.3⟩⟩

/-- Of a name that is never assigned, every append but the last is made of blanks. -/
def NothingWrittenLost (args : List Makeoption) : Prop :=
  ∀ n, (∃ arg ∈ args, arg.AssignsTo n) ∨
    ∀ value ∈ (args.filterMap (Makeoption.appendedTo n)).dropLast, ∀ c ∈ value, isMakeBlank c = true

section Settings

variable {p : Profile} {name value : Text} {settings : Text → Option Setting} {arg : Makeoption}

theorem PlainValue.oneLine (h : PlainValue value) : OneLine value := ⟨h.printing.noNewline, h.noBackslash⟩

theorem PlainValue.append {a b : Text} (ha : PlainValue a) (hb : PlainValue b) : PlainValue (a ++ b) where
  printing := ha.printing.append hb.printing
  noBackslash := (ha.oneLine.append hb.oneLine).2
  noComment := by simp [ha.noComment, hb.noComment]

/-- With a '=' in front, the value decides how the line ends. -/
theorem OneLine.equals {front : Text} (hfront : '\n' ∉ front) (h : OneLine value) : OneLine (front ++ '=' :: value) := by
  have hequals : OneLine ('=' :: value) := .append (a := ['=']) (by decide) h
  refine ⟨by simpa [hfront] using h.1, ?_⟩
  rw [List.getLast?_append, List.getLast?_eq_getLast_of_ne_nil (List.cons_ne_nil _ _), Option.some_or,
    ← List.getLast?_eq_getLast_of_ne_nil]
  exact hequals.2

/-- No part of a line for a proper setting is a comment. -/
theorem Proper.code (h : Proper name value) (op : Text) (hop : '#' ∉ op) :
    (name ++ (op ++ value)).takeWhile (· ≠ '#') = name ++ (op ++ value) := by
  refine List.takeWhile_eq_self_iff.mpr ?_
  intro c hc
  rw [decide_eq_true_eq]
  rintro rfl
  rcases List.mem_append.mp hc with hc | hc
  · exact absurd (h.nameChars _ hc) (by decide)
  · exact (List.mem_append.mp hc).elim hop h.plain.noComment

theorem readSetting_assigned (h : Proper name value) :
    readSetting (name ++ '=' :: value) = some (name, (Setting.assigned value).stripped) := by
  have hcode : (name ++ '=' :: value).takeWhile (· ≠ '#') = name ++ '=' :: value := h.code ['='] (by decide)
  unfold readSetting
  simp only [hcode, takeWhile_append_of h.nameChars (c := '=') (by decide), dropWhile_append_of h.nameChars (c := '=') (by decide),
    if_neg h.nonempty]
  rfl

theorem readSetting_appended (h : Proper name value) :
    readSetting (name ++ '+' :: '=' :: value) = some (name, (Setting.appended value).stripped) := by
  have hcode : (name ++ '+' :: '=' :: value).takeWhile (· ≠ '#') = name ++ '+' :: '=' :: value :=
    h.code ['+', '='] (by decide)
  unfold readSetting
  simp only [hcode, takeWhile_append_of h.nameChars (c := '+') (by decide), dropWhile_append_of h.nameChars (c := '+') (by decide),
    if_neg h.nonempty]
  rfl

/-- All settings are proper. -/
def AllProper (settings : Text → Option Setting) : Prop := ∀ name s, settings name = some s → Proper name s.value

theorem AllProper.step {plus : Option Setting → Text → Setting}
    (hplus : ∀ s v, PlainValue v → (∀ t ∈ s, PlainValue t.value) → PlainValue (plus s v).value) (h : AllProper settings)
    (harg : Proper arg.name.text arg.value) : AllProper (settingStep plus settings arg) := by
  intro name s hs
  by_cases hn : arg.name.text = name
  · rw [settingStep_of_eq hn, Option.some.injEq] at hs
    subst hn hs
    refine ⟨harg.nonempty, harg.nameChars, ?_⟩
    cases arg with
    | bare n => exact harg.plain
    | assign n v => exact harg.plain
    | append n v => exact hplus _ v harg.plain fun t ht => (h _ t ht).plain
  · rw [settingStep_of_ne hn] at hs
    exact h name s hs

theorem codedSettings_proper {args : List Makeoption} (hargs : ∀ arg ∈ args, Proper arg.name.text arg.value) :
    AllProper (codedSettings args) := by
  have hoverwrite : ∀ s v, PlainValue v → (∀ t ∈ s, PlainValue t.value) → PlainValue (Setting.overwrite s v).value := by
    intro s v hv hs
    match s with
    | none => exact hv
    | some (.assigned old) => exact (hs (.assigned old) rfl).append hv
    | some (.appended _) => exact hv
  unfold codedSettings
  induction args using List.reverseRecOn with
  | nil =>
    intro name s hs
    cases hs
  | append_singleton args arg ih =>
    rw [List.forall_mem_append] at hargs
    rw [List.foldl_concat]
    exact (ih hargs.1).step hoverwrite (hargs.2 arg List.mem_cons_self)

theorem Agrees.plainBuild (ha : Agrees p settings) (h : AllProper settings) : PlainBuild p [] := by
  have hline : ∀ opt ∈ makeopts p, OneLine opt := by
    intro opt hopt
    obtain ⟨n, v, ⟨hs, rfl⟩ | ⟨hs, rfl⟩⟩ := (makeopts_iff ha).mp hopt
    · exact .equals (h n _ hs).nameChars.noNewline (h n _ hs).plain.oneLine
    · rw [List.append_cons]
      exact .equals (by simpa using (h n _ hs).nameChars.noNewline) (h n _ hs).plain.oneLine
  exact ⟨by simp, by simp, fun opt hopt => (hline opt hopt).1, fun opt hopt => (hline opt hopt).2⟩

/-- What is written for the two dictionaries, read again. -/
theorem readSettings_perm (ha : Agrees p settings) (h : AllProper settings) :
    (readSettings (expandMakeopts p)).Perm ((p.makeoptions.entries.map fun e => (e.1, (Setting.assigned e.2).stripped)) ++
      p.appendmakeoptions.entries.map fun e => (e.1, (Setting.appended e.2).stripped)) := by
  have hlines : readSettings (expandMakeopts p) = (makeopts p).filterMap readSetting := by
    rw [readSettings, expandMakeopts_lines (ha.plainBuild h)]
    split
    · next hnil =>
      rw [hnil]
      rfl
    · rfl
  have hassigned : (p.makeoptions.entries.map fun e => e.1 ++ '=' :: e.2).filterMap readSetting =
      p.makeoptions.entries.map fun e => (e.1, (Setting.assigned e.2).stripped) := by
    rw [List.filterMap_map, ← List.filterMap_eq_map]
    exact List.filterMap_congr fun e he => readSetting_assigned (h _ _ (ha.assigned_iff.mp he))
  have happended : (p.appendmakeoptions.entries.map fun e => e.1 ++ '+' :: '=' :: e.2).filterMap readSetting =
      p.appendmakeoptions.entries.map fun e => (e.1, (Setting.appended e.2).stripped) := by
    rw [List.filterMap_map, ← List.filterMap_eq_map]
    exact List.filterMap_congr fun e he => readSetting_appended (h _ _ (ha.appended_iff.mp he))
  rw [hlines, ← hassigned, ← happended, ← List.filterMap_append]
  exact (List.mergeSort_perm _ _).filterMap _

theorem settingsRead (ha : Agrees p settings) (h : AllProper settings) : SettingsRead (expandMakeopts p) settings := by
  have hperm := readSettings_perm ha h
  constructor
  · intro name s
    rw [hperm.mem_iff, List.mem_append, List.mem_map, List.mem_map, Option.map_eq_some_iff]
    constructor
    · intro hmem
      rcases hmem with ⟨e, he, heq⟩ | ⟨e, he, heq⟩
      · cases heq
        exact ⟨_, ha.assigned_iff.mp he, rfl⟩
      · cases heq
        exact ⟨_, ha.appended_iff.mp he, rfl⟩
    · rintro ⟨t, ht, rfl⟩
      cases t with
      | assigned value => exact .inl ⟨(name, value), ha.assigned_iff.mpr ht, rfl⟩
      | appended value => exact .inr ⟨(name, value), ha.appended_iff.mpr ht, rfl⟩
  · rw [(hperm.map Prod.fst).nodup_iff, List.map_append, List.map_map, List.map_map, List.nodup_append]
    refine ⟨p.makeoptions.nodup, p.appendmakeoptions.nodup, ?_⟩
    intro n hn n' hn' heq
    obtain ⟨e, he, rfl⟩ := List.mem_map.mp hn
    obtain ⟨e', he', rfl⟩ := List.mem_map.mp hn'
    have hs := ha.assigned_iff.mp he
    have hs' := ha.appended_iff.mp he'
    dsimp only [Function.comp_apply] at heq
    rw [heq, hs'] at hs
    cases hs

/-- The code's fold shows the documented settings exactly if only blanks are lost. -/
theorem stripped_coded_iff (args : List Makeoption) :
    (∀ n, (codedSettings args n).map Setting.stripped = (documentedSettings args n).map Setting.stripped) ↔
      NothingWrittenLost args := by
  refine forall_congr' fun n => ?_
  by_cases h : ∃ arg ∈ args, arg.AssignsTo n
  · obtain ⟨v, hc, hd⟩ := settings_of_assigned h
    exact iff_of_true (by rw [hc, hd]) (.inl h)
  · have hnot : ∀ arg ∈ args, ¬ arg.AssignsTo n := fun arg harg hto => h ⟨arg, harg, hto⟩
    rw [or_iff_right h]
    unfold codedSettings documentedSettings
    rw [settings_of_unassigned Setting.overwrite hnot, settings_of_unassigned Setting.plus hnot]
    cases args.filterMap (Makeoption.appendedTo n) using List.reverseRecOn with
    | nil => simp
    | append_singleton values last =>
      rw [foldl_overwrite, foldl_plus, List.dropLast_concat, Option.map_some, Option.map_some, Option.some.injEq]
      unfold Setting.stripped
      rw [Setting.appended.injEq, dropWhile_append_eq_iff]
      exact List.forall_mem_flatten

/-- For every sequence of make options that can be read, with plain names and values: make
    finds the documented settings in the lines that are written for them, one for each name,
    exactly if of a name that is never assigned every append but the last is made of blanks. -/
theorem settings_reach_make_iff {args : List Makeoption} (hread : ∀ arg ∈ args, Readable arg)
    (hplain : ∀ arg ∈ args, Proper arg.name.text arg.value) :
    (∃ p, addMakeoption .new (args.map Makeoption.text) = .ok p ∧ SettingsRead (expandMakeopts p) (documentedSettings args)) ↔
      NothingWrittenLost args := by
  have hnew : Agrees .new fun _ => none := ⟨fun _ => rfl, fun _ => rfl⟩
  obtain ⟨p, hp, ha⟩ := addMakeoption_readable hread hnew
  have hcoded : SettingsRead (expandMakeopts p) (codedSettings args) := settingsRead ha (codedSettings_proper hplain)
  rw [← stripped_coded_iff]
  constructor
  · intro h n
    obtain ⟨p', hp', hs⟩ := h
    cases hp.symm.trans hp'
    refine Option.ext fun s => ?_
    rw [← hcoded.read, hs.read]
  · intro h
    refine ⟨p, hp, ?_, hcoded.once⟩
    intro name s
    rw [hcoded.read, h]

/-- "CFLAGS=-g" and "CFLAGS+= -O0". -/
theorem two_flags_reach_make : ∃ p, addMakeoption .new ["CFLAGS=-g".toList, "CFLAGS+= -O0".toList] = .ok p ∧
    SettingsRead (expandMakeopts p) (documentedSettings [.assign cflags "-g".toList, .append cflags " -O0".toList]) := by
  have hread : ∀ arg ∈ [Makeoption.assign cflags "-g".toList, .append cflags " -O0".toList], Readable arg := by
    simp only [List.forall_mem_cons, Readable]
    exact ⟨by decide, by decide, by simp⟩
  refine (settings_reach_make_iff hread ?_).mpr ?_
  · simp only [List.forall_mem_cons]
    exact ⟨by decide, by decide, by simp⟩
  · intro n
    by_cases hn : "CFLAGS".toList = n
    · exact .inl ⟨_, List.mem_cons_self, hn⟩
    · right
      have hnone : Makeoption.appendedTo n (.append cflags " -O0".toList) = none := if_neg hn
      rw [List.filterMap_cons_none rfl, List.filterMap_cons_none hnone]
      simp

end Settings

/-! ## ConfigDumper -/

/-- What is written for a macro. -/
def defineLine (name value : Text) : Text := strip ("#define ".toList ++ name ++ ' ' :: value)

def configHead : List Text := ["#pragma once".toList, [], "// This file was generated by kcons".toList, []]

/-- `dump_config_file`. -/
def dumpConfig (p : Profile) : Text :=
  ((configHead ++ p.defines.entries.map fun e => defineLine e.1 e.2).map (· ++ ['\n'])).flatten

/-! ## Macros, as the preprocessor reads them -/

/-- White space within a line: space, tab, vertical tab and form feed. -/
def isCppBlank (c : Char) : Bool := c == ' ' || c == '\t' || c == Char.ofNat 0x0B || c == Char.ofNat 0x0C

/-- A backslash and the newline behind it are deleted. -/
def cppLines (text : Text) : List Text := lines '\n' (replace "\\\n".toList [] text)

/-- A macro without parameters on a line without comments: its name, and the text behind it. -/
def readMacro (line : Text) : Option (Text × Text) :=
  if "#define ".toList <+: line then
    let rest := line.drop "#define ".toList.length
    let name := rest.takeWhile isNameChar
    if name = [] then none
    else
      match rest.dropWhile isNameChar with
      | [] => some (name, [])
      | c :: body =>
        if isCppBlank c = true ∧ ¬ "//".toList <:+: body ∧ ¬ "/*".toList <:+: body then
          some (name, body.dropWhile isCppBlank)
        else none
  else none

def readMacros (text : Text) : List (Text × Text) := (cppLines text).filterMap readMacro

/-- What is left of a value at the end of its line. -/
def trimmed (value : Text) : Text := (value.rdropWhile isSpace).dropWhile isCppBlank

/-- These are the macros, and each name is defined once. -/
structure MacrosRead (text : Text) (macros : Text → Option Text) : Prop where
  read : ∀ name v, (name, v) ∈ readMacros text ↔ ∃ value, macros name = some value ∧ v = trimmed value
  once : ((readMacros text).map Prod.fst).Nodup

/-- What is no part of a value: comments, the operators of macros, and trigraphs. -/
def notInValue : List Text := ["//".toList, "/*".toList, "##".toList, "%:%:".toList, "??".toList]

/-- An identifier that begins with a letter and may be defined, and a value that stays on its
    line and that the preprocessor keeps as it is. -/
structure PlainMacro (name value : Text) : Prop where
  letter : name.head?.any Char.isAlpha = true
  nameChars : NameChars name
  notDefined : name ≠ "defined".toList
  printing : Printing value
  noBackslash : (value.rdropWhile isSpace).getLast? ≠ some '\\'
  plain : ∀ part ∈ notInValue, ¬ part <:+: value

instance (name value : Text) : Decidable (PlainMacro name value) :=
  decidable_of_iff (name.head?.any Char.isAlpha = true ∧ NameChars name ∧ name ≠ "defined".toList ∧
    Printing value ∧ (value.rdropWhile isSpace).getLast? ≠ some '\\' ∧ ∀ part ∈ notInValue, ¬ part <:+: value)
    ⟨fun ⟨h1, h2, h3, h4, h5, h6⟩ => ⟨h1, h2, h3, h4, h5, h6⟩, fun h => ⟨h.1, h.2, h.3, h.4, h.5, h.6⟩⟩

section Config

variable {p : Profile} {name value : Text}

theorem not_isSpace_of_isNameChar {c : Char} (h : isNameChar c = true) : isSpace c = false := by
  simp only [isNameChar, Bool.or_eq_true, Bool.and_eq_true, decide_eq_true_eq, beq_iff_eq] at h
  simp only [isSpace, Bool.or_eq_false_iff, Bool.and_eq_false_iff, decide_eq_false_iff_not, beq_eq_false_iff_ne]
  omega

theorem PlainMacro.nonempty (h : PlainMacro name value) : name ≠ [] := by
  rintro rfl
  exact absurd h.letter (by decide)

/-- What is written of the value. -/
theorem PlainMacro.written (h : PlainMacro name value) :
    '\n' ∉ value.rdropWhile isSpace ∧ ∀ part ∈ notInValue, ¬ part <:+: value.rdropWhile isSpace :=
  have hpre : value.rdropWhile isSpace <+: value := List.rdropWhile_prefix _ _
  ⟨fun hmem => h.printing.noNewline (hpre.subset hmem), fun part hp hin => h.plain part hp (hin.trans hpre.isInfix)⟩

/-- The line, with its value trimmed at the end. -/
theorem defineLine_eq (h : PlainMacro name value) : defineLine name value =
    if value.rdropWhile isSpace = [] then "#define ".toList ++ name
    else "#define ".toList ++ name ++ ' ' :: value.rdropWhile isSpace := by
  have hstrip : defineLine name value = ("#define ".toList ++ name ++ ' ' :: value).rdropWhile isSpace := by
    refine strip_of_head ?_
    intro c hc
    cases hc
    decide
  have hlast : ∀ c ∈ ("#define ".toList ++ name).getLast?, ¬ isSpace c := by
    intro c hc
    rw [List.getLast?_append, List.getLast?_eq_getLast_of_ne_nil h.nonempty, Option.some_or] at hc
    cases hc
    simpa using not_isSpace_of_isNameChar (h.nameChars _ (List.getLast_mem h.nonempty))
  rw [hstrip]
  split
  · next hnil =>
    have hall : ∀ c ∈ ' ' :: value, isSpace c := by
      intro c hc
      rcases List.mem_cons.mp hc with rfl | hc
      · decide
      · exact List.rdropWhile_eq_nil_iff.mp hnil c hc
    exact rdropWhile_append_of hlast hall
  · next hne =>
    rw [List.append_cons, List.append_cons _ _ (value.rdropWhile isSpace)]
    refine rdropWhile_append_of_not_all _ ?_
    rw [List.rdropWhile_eq_nil_iff] at hne
    simpa using hne

theorem defineLine_oneLine (h : PlainMacro name value) : OneLine (defineLine name value) := by
  rw [defineLine_eq h]
  split
  · exact .append (by decide) (h.nameChars.oneLine)
  · rw [List.append_cons]
    have hfront : ("#define ".toList ++ name ++ [' ']).getLast? ≠ some '\\' := by
      rw [List.getLast?_concat]
      decide
    exact .append ⟨by simp [h.nameChars.noNewline], hfront⟩ ⟨h.written.1, h.noBackslash⟩

theorem readMacro_defineLine (h : PlainMacro name value) : readMacro (defineLine name value) = some (name, trimmed value) := by
  unfold readMacro trimmed
  rw [defineLine_eq h]
  split
  · next hnil =>
    rw [if_pos (List.prefix_append _ _), hnil]
    simp only [List.drop_left, List.takeWhile_eq_self_iff.mpr h.nameChars, List.dropWhile_eq_nil_iff.mpr h.nameChars,
      if_neg h.nonempty, List.dropWhile_nil]
  · next hne =>
    have hbody : isCppBlank ' ' = true ∧ ¬ "//".toList <:+: value.rdropWhile isSpace ∧ ¬ "/*".toList <:+: value.rdropWhile isSpace :=
      ⟨by decide, h.written.2 _ (by decide), h.written.2 _ (by decide)⟩
    rw [List.append_assoc, if_pos (List.prefix_append _ _)]
    simp only [List.drop_left, takeWhile_append_of h.nameChars (c := ' ') (by decide),
      dropWhile_append_of h.nameChars (c := ' ') (by decide), if_neg h.nonempty, if_pos hbody]

/-- No line of the text goes on. -/
def NoBreak (text : Text) : Prop := text.IsChain fun c d => ¬ (c = '\\' ∧ d = '\n')

theorem NoBreak.absent {text : Text} (h : NoBreak text) : ¬ ['\\', '\n'] <:+: text := by
  intro hin
  have hpair := List.IsChain.infix h hin
  rw [List.isChain_cons_cons] at hpair
  exact hpair.1 ⟨rfl, rfl⟩

theorem OneLine.noBreak {line : Text} (h : OneLine line) : NoBreak (line ++ ['\n']) := by
  have hline : NoBreak line := by
    refine List.Pairwise.isChain (List.pairwise_iff_getElem.mpr ?_)
    intro i j _ hj _ hcd
    exact h.1 (hcd.2 ▸ List.getElem_mem hj)
  refine List.isChain_append.mpr ⟨hline, List.isChain_singleton _, ?_⟩
  intro c hc d _ hcd
  exact h.2 (hcd.1 ▸ hc)

theorem noBreak_flatten {parts : List Text} (h : ∀ part ∈ parts, OneLine part) : NoBreak (parts.map (· ++ ['\n'])).flatten := by
  induction parts with
  | nil => exact List.isChain_nil
  | cons part parts ih =>
    rw [List.forall_mem_cons] at h
    rw [List.map_cons, List.flatten_cons]
    refine List.isChain_append.mpr ⟨h.1.noBreak, ih h.2, ?_⟩
    intro c hc d _ hcd
    rw [List.getLast?_concat] at hc
    cases hc
    exact absurd hcd.1 (by decide)

/-- The macros of the file are the profile's, in its order. -/
theorem readMacros_dumpConfig (h : ∀ e ∈ p.defines.entries, PlainMacro e.1 e.2) :
    readMacros (dumpConfig p) = p.defines.entries.map fun e => (e.1, trimmed e.2) := by
  have hfront : ∀ part ∈ configHead, OneLine part := by
    simp only [configHead, List.forall_mem_cons]
    exact ⟨by decide, by decide, by decide, by decide, by simp⟩
  have hparts : ∀ part ∈ configHead ++ p.defines.entries.map (fun e => defineLine e.1 e.2), OneLine part := by
    intro part hpart
    rcases List.mem_append.mp hpart with hpart | hpart
    · exact hfront part hpart
    · obtain ⟨e, he, rfl⟩ := List.mem_map.mp hpart
      exact defineLine_oneLine (h e he)
  have hhead : configHead.filterMap readMacro = [] := by decide
  have habsent : ¬ "\\\n".toList <:+: _ := (noBreak_flatten hparts).absent
  unfold readMacros cppLines dumpConfig
  rw [replace_of_absent habsent, lines_flatten fun part hpart => (hparts part hpart).1, List.filterMap_append, hhead,
    List.nil_append, List.filterMap_map, ← List.filterMap_eq_map]
  exact List.filterMap_congr fun e he => readMacro_defineLine (h e he)

theorem config_reads (h : ∀ e ∈ p.defines.entries, PlainMacro e.1 e.2) : MacrosRead (dumpConfig p) p.defines.get? := by
  have hread := readMacros_dumpConfig h
  constructor
  · intro name v
    rw [hread, List.mem_map]
    constructor
    · rintro ⟨e, he, heq⟩
      cases heq
      exact ⟨e.2, Dict.mem_entries.mp he, rfl⟩
    · rintro ⟨value, hv, rfl⟩
      exact ⟨(name, value), Dict.mem_entries.mpr hv, rfl⟩
  · rw [hread, List.map_map]
    exact p.defines.nodup

theorem mem_of_documentedDefines {words : List DefineWord} (h : documentedDefines words name = some value) :
    ∃ w ∈ words, w.name = name ∧ w.value = some value := by
  unfold documentedDefines at h
  obtain ⟨w, hw, hv⟩ := Option.bind_eq_some_iff.mp h
  have hmem := List.mem_filter.mp (List.mem_of_getLast? hw)
  exact ⟨w, hmem.1, by simpa using hmem.2, hv⟩

/-- For every sequence of define and nodefine directives with plain macros: what the compiler
    finds in `config.h` are the documented macros, each once and with its value trimmed,
    exactly if no define holds a second '=' and each nodefine names a macro that is defined
    there. -/
theorem macros_reach_the_compiler (directives : List DefineDirective)
    (hplain : ∀ w ∈ directives.flatMap DefineDirective.words, ∀ v ∈ w.value, PlainMacro w.name v) :
    (∃ p, process .new (directives.map DefineDirective.tokens) = .ok p ∧
        MacrosRead (dumpConfig p) (documentedDefines (directives.flatMap DefineDirective.words))) ↔
      ∀ k w, (directives.flatMap DefineDirective.words)[k]? = some w →
        PlainDefine (documentedDefines ((directives.flatMap DefineDirective.words).take k)) w := by
  rw [← process_ok_iff]
  refine exists_congr fun p => and_iff_left_of_imp fun hp => ?_
  rw [← funext (process_defines hp)]
  refine config_reads ?_
  intro e he
  have hget := Dict.mem_entries.mp he
  rw [process_defines hp] at hget
  obtain ⟨w, hw, hname, hvalue⟩ := mem_of_documentedDefines hget
  exact hname ▸ hplain w hw e.2 hvalue

/-- "define VERSION=\"1 \"", which loses its blank, "define DEBUG", and "nodefine DEBUG". -/
theorem a_version_reaches_the_compiler :
    ∃ p, process .new ["define".toList :: ["VERSION=1 ".toList, "DEBUG".toList], "nodefine".toList :: ["DEBUG".toList]] = .ok p ∧
      MacrosRead (dumpConfig p) (documentedDefines
        [.define "VERSION=1 ".toList, .define "DEBUG".toList, .nodefine "DEBUG".toList]) := by
  refine (macros_reach_the_compiler [.define ["VERSION=1 ".toList, "DEBUG".toList], .nodefine ["DEBUG".toList]] ?_).mpr ?_
  · show ∀ w ∈ [DefineWord.define "VERSION=1 ".toList, .define "DEBUG".toList, .nodefine "DEBUG".toList], _
    simp only [List.forall_mem_cons]
    refine ⟨?_, ?_, ?_, by simp⟩
    · intro v hv
      cases hv
      decide
    · intro v hv
      cases hv
      decide
    · intro v hv
      cases hv
  · intro k w hw
    match k with
    | 0 =>
      cases hw
      show List.count _ _ ≤ 1
      decide
    | 1 =>
      cases hw
      show List.count _ _ ≤ 1
      decide
    | 2 =>
      cases hw
      show documentedDefines _ _ ≠ none
      decide
    | k + 3 => cases hw

end Config

end NativeOS.Tools.Kcons
