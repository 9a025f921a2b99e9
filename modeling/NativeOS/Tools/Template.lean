/-
  NativeOS.Tools.Template — the generated Makefile, as make reads it (`tools/kcons`,
  `MakefileDumper.dump`).

  The template is copied line by line. A line that holds nothing but a command, with
  whatever white space around it, is replaced by what the command stands for; every other
  line is copied as it is, its newline included.

  To make a line goes on behind a backslash. So a command that follows a continued line
  would be swallowed by it, and so would what follows an expansion that ends in a backslash.
  Neither happens with plain paths and options, if the template does not continue the line
  in front of a command. Lines are only taken apart into words here, comments included.

  Proved:
  * `makefile_reads` — for every such template, profile and list of files: what make reads at a
    command is the command's lines, and what stands around it is read as without it.
  * `dump_verbatim` — a template without commands is copied.
-/

import Mathlib.Data.List.Chain
import NativeOS.Tools.LineWrapping

namespace NativeOS.Tools.Kcons

open NativeOS.Lib

/-! ## MakefileDumper.dump -/

/-- What is written for a line of the template. -/
def dumpLine (p : Profile) (fileList : List Text) (line : Text) : Text :=
  let cleanLine := strip line
  if cleanLine = "%%MAKEOPTIONS".toList then expandMakeopts p
  else if cleanLine = "%%OBJS".toList then expandObjs fileList
  else if cleanLine = "%%SRCS".toList then expandSrcs fileList
  else if cleanLine = "%%RULES".toList then expandRules fileList
  else line

def dump (p : Profile) (fileList : List Text) (makefileLines : List Text) : Text :=
  (makefileLines.map (dumpLine p fileList)).flatten

/-! ## What make should read -/

def makeLines (text : Text) : List Text := lines '\n' (joinLines text)

/-- The words of each line; comments are not cut off. -/
def wordLines (text : Text) : List (List Text) := (makeLines text).map (words isMakeSpace)

/-- The rule for a source: its object needs it, and how it is compiled. -/
def ruleWords (sourceFile : Text) : List (List Text) :=
  [[objectFileFor sourceFile ++ [':'], "$(ROOT)/".toList ++ sourceFile],
    ["$(CC)".toList, "$(CFLAGS)".toList, "$(".toList ++ objectFileFor sourceFile ++ "_CFLAGS)".toList,
      "$(ROOT)/".toList ++ sourceFile]]

/-- The lines of a command. Without any option there is an empty line. -/
def commandWords (p : Profile) (fileList : List Text) (line : Text) : Option (List (List Text)) :=
  let cleanLine := strip line
  if cleanLine = "%%MAKEOPTIONS".toList then
    some (if makeopts p = [] then [[]] else (makeopts p).map (words isMakeSpace))
  else if cleanLine = "%%OBJS".toList then some [["OBJS".toList, "=".toList] ++ objects fileList]
  else if cleanLine = "%%SRCS".toList then
    some [["SRCS".toList, "=".toList] ++ fileList.map fun s => "$(ROOT)/".toList ++ s]
  else if cleanLine = "%%RULES".toList then some (fileList.flatMap ruleWords)
  else none

def IsCommand (line : Text) : Prop :=
  strip line ∈ ["%%MAKEOPTIONS".toList, "%%OBJS".toList, "%%SRCS".toList, "%%RULES".toList]

/-- The text ends with a line, and the line does not go on. -/
def Ended (text : Text) : Prop := text = [] ∨ ∃ body, text = body ++ ['\n'] ∧ body.getLast? ≠ some '\\'

/-- As `readlines` has it: only the last line may be without a newline. And no line goes on
    into a command. -/
structure Template (makefileLines : List Text) : Prop where
  newlines : ∀ line ∈ makefileLines.dropLast, line.getLast? = some '\n'
  apart : makefileLines.IsChain fun line next => IsCommand next → IsCommand line ∨ Ended line

/-- Paths and options that mean nothing to make. -/
structure PlainBuild (p : Profile) (fileList : List Text) : Prop where
  paths : ∀ s ∈ fileList, PlainPath s
  noToken : ∀ s ∈ fileList, ¬ "%%object%%".toList <:+: s
  noNewline : ∀ opt ∈ makeopts p, '\n' ∉ opt
  noSlash : ∀ opt ∈ makeopts p, opt.getLast? ≠ some '\\'

/-! ## Lines that end -/

section Lines

variable {a b l : Text}

theorem joinLines_nil : joinLines [] = [] := rfl

theorem joinLines_cons {c : Char} (h : ¬ ['\\', '\n'] <+: c :: l) : joinLines (c :: l) = c :: joinLines l := by
  unfold joinLines replace
  have hsplit : split "\\\n".toList (c :: l) = (split "\\\n".toList l).modifyHead ([c] ++ ·) := split_cons h
  rw [hsplit, intercalate_modifyHead _ _ (split_ne_nil l), List.singleton_append]

/-- No line is joined across the end of a text without a backslash there. -/
theorem joinLines_append (h : a.getLast? ≠ some '\\') (b : Text) : joinLines (a ++ b) = joinLines a ++ joinLines b := by
  induction hn : a.length using Nat.strongRecOn generalizing a with
  | _ n ih =>
    subst hn
    cases a with
    | nil => rw [List.nil_append, joinLines_nil, List.nil_append]
    | cons c a =>
      by_cases hbreak : ['\\', '\n'] <+: c :: a
      · obtain ⟨rest, hrest⟩ := hbreak
        cases hrest
        have hlast : rest.getLast? ≠ some '\\' := by
          cases rest with
          | nil => simp
          | cons d rest => simpa using h
        have hshort : rest.length < ('\\' :: '\n' :: rest).length := by
          rw [List.length_cons, List.length_cons]
          omega
        have hjoin := ih rest.length hshort hlast rfl
        show joinLines ('\\' :: '\n' :: (rest ++ b)) = joinLines ('\\' :: '\n' :: rest) ++ joinLines b
        rw [joinLines_break, joinLines_break, hjoin, List.cons_append]
      · have hnot : ¬ ['\\', '\n'] <+: c :: (a ++ b) := by
          intro hpre
          cases a with
          | nil =>
            obtain ⟨rest, hrest⟩ := hpre
            cases hrest
            exact h rfl
          | cons d a =>
            obtain ⟨rest, hrest⟩ := hpre
            cases hrest
            exact hbreak ⟨a, rfl⟩
        have hlast : a.getLast? ≠ some '\\' := by
          cases a with
          | nil => simp
          | cons d a => simpa using h
        rw [List.cons_append, joinLines_cons hnot, joinLines_cons hbreak, ih a.length (by simp) hlast rfl, List.cons_append]

theorem Ended.newline (h : Ended a) : ∀ c ∈ a.getLast?, c = '\n' := by
  intro c hc
  rcases h with rfl | ⟨body, rfl, -⟩
  · cases hc
  · rw [List.getLast?_concat] at hc
    cases hc
    rfl

theorem Ended.makeLines_append (h : Ended a) (b : Text) : makeLines (a ++ b) = makeLines a ++ makeLines b := by
  have hslash : a.getLast? ≠ some '\\' := by
    intro hlast
    exact absurd (h.newline _ hlast) (by decide)
  unfold makeLines
  rw [joinLines_append hslash]
  refine lines_append ?_ _
  intro c hc
  rcases h with rfl | ⟨body, rfl, hbody⟩
  · cases hc
  · have hend : joinLines ['\n'] = ['\n'] := rfl
    rw [joinLines_append hbody, hend, List.getLast?_concat] at hc
    cases hc
    rfl

theorem Ended.wordLines_append (h : Ended a) (b : Text) : wordLines (a ++ b) = wordLines a ++ wordLines b := by
  unfold wordLines
  rw [h.makeLines_append, List.map_append]

theorem Ended.append (ha : Ended a) (hb : Ended b) : Ended (a ++ b) := by
  rcases hb with rfl | ⟨body, rfl, hbody⟩
  · rwa [List.append_nil]
  · refine .inr ⟨a ++ body, by rw [List.append_assoc], ?_⟩
    intro hlast
    rw [List.getLast?_append] at hlast
    cases hb : body.getLast? with
    | none =>
      rw [hb, Option.none_or] at hlast
      exact absurd (ha.newline _ hlast) (by decide)
    | some c =>
      rw [hb, Option.some_or] at hlast
      exact hbody (hb.trans hlast)

theorem Ended.flatten {parts : List Text} (h : ∀ part ∈ parts, Ended part) : Ended parts.flatten := by
  induction parts with
  | nil => exact .inl rfl
  | cons part parts ih =>
    rw [List.forall_mem_cons] at h
    rw [List.flatten_cons]
    exact h.1.append (ih h.2)

theorem ended_concat (h : l.getLast? ≠ some '\\') : Ended (l ++ ['\n']) := .inr ⟨l, rfl, h⟩

/-- A line without a backslash at its end or a newline in it is read as it is. -/
theorem makeLines_line (hnewline : '\n' ∉ l) (hslash : l.getLast? ≠ some '\\') : makeLines (l ++ ['\n']) = [l] := by
  have habsent : joinLines l = l := by
    refine replace_of_absent ?_
    rintro ⟨x, y, hxy⟩
    refine hnewline ?_
    rw [← hxy]
    exact List.mem_append_left _ (List.mem_append_right _ (List.mem_cons_of_mem _ List.mem_cons_self))
  have hend : joinLines ['\n'] = ['\n'] := rfl
  unfold makeLines
  rw [joinLines_append hslash, habsent, hend, lines_of_line hnewline, lines_nil]

theorem makeLines_flatten {parts : List Text} (hnewline : ∀ part ∈ parts, '\n' ∉ part)
    (hslash : ∀ part ∈ parts, part.getLast? ≠ some '\\') : makeLines (parts.map (· ++ ['\n'])).flatten = parts := by
  induction parts with
  | nil => rfl
  | cons part parts ih =>
    rw [List.forall_mem_cons] at hnewline hslash
    rw [List.map_cons, List.flatten_cons, (ended_concat hslash.1).makeLines_append, makeLines_line hnewline.1 hslash.1,
      ih hnewline.2 hslash.2, List.singleton_append]

end Lines

/-! ## Expansions -/

section Expansions

variable {p : Profile} {fileList : List Text} {sourceFile : Text}

theorem ReadsAs.wordLines_eq {text : Text} {items : List Text} (h : ReadsAs text items) : wordLines text = [items] := by
  obtain ⟨line, hline, hnot⟩ := h.oneLine
  have hread := h.read
  rw [makeWords, hline, words_concat (by decide)] at hread
  rw [wordLines, makeLines, hline, lines_of_line hnot, lines_nil, List.map_cons, hread, List.map_nil]

theorem ReadsAs.ended {text : Text} {items : List Text} (h : ReadsAs text items) : Ended text := .inr h.newline

theorem intercalate_newline {opts : List Text} (h : opts ≠ []) :
    ['\n'].intercalate opts ++ ['\n'] = (opts.map (· ++ ['\n'])).flatten := by
  induction opts with
  | nil => exact absurd rfl h
  | cons opt opts ih =>
    cases opts with
    | nil => simp
    | cons next opts =>
      rw [List.intercalate_cons_cons, List.map_cons, List.flatten_cons, ← ih (List.cons_ne_nil _ _)]
      simp only [List.append_assoc]

theorem expandMakeopts_ended (h : PlainBuild p fileList) : Ended (expandMakeopts p) := by
  unfold expandMakeopts
  by_cases hnil : makeopts p = []
  · rw [hnil]
    exact .inr ⟨[], rfl, by simp⟩
  · rw [intercalate_newline hnil]
    refine .flatten ?_
    intro part hpart
    obtain ⟨opt, hopt, rfl⟩ := List.mem_map.mp hpart
    exact ended_concat (h.noSlash opt hopt)

theorem expandMakeopts_lines (h : PlainBuild p fileList) :
    makeLines (expandMakeopts p) = if makeopts p = [] then [[]] else makeopts p := by
  unfold expandMakeopts
  by_cases hnil : makeopts p = []
  · rw [if_pos hnil, hnil]
    rfl
  · rw [if_neg hnil, intercalate_newline hnil, makeLines_flatten h.noNewline h.noSlash]

/-- The rule's first line, and the line that compiles. -/
def ruleLine (sourceFile : Text) : Text := objectFileFor sourceFile ++ [':'] ++ ' ' :: ("$(ROOT)/".toList ++ sourceFile)

def recipeLine (sourceFile : Text) : Text :=
  '\t' :: ("$(CC)".toList ++ ' ' :: ("$(CFLAGS)".toList ++ ' ' :: (("$(".toList ++ objectFileFor sourceFile ++ "_CFLAGS)".toList) ++
    ' ' :: ("$(ROOT)/".toList ++ sourceFile))))

theorem ruleFor_lines (h : ¬ "%%object%%".toList <:+: sourceFile) :
    ruleFor sourceFile = (ruleLine sourceFile ++ ['\n']) ++ (recipeLine sourceFile ++ ['\n']) := by
  rw [ruleFor_eq h]
  simp [ruleHead, ruleLine, recipeLine]

theorem objectFileFor_plain (h : PlainPath sourceFile) : PlainPath (objectFileFor sourceFile) := by
  have hext : PlainPath ".o".toList := by decide
  intro c hc
  rcases objectFileFor_subset hc with hc | hc
  · exact h c hc
  · exact hext c hc

theorem PlainPath.append {a b : Text} (ha : PlainPath a) (hb : PlainPath b) : PlainPath (a ++ b) := by
  intro c hc
  rcases List.mem_append.mp hc with hc | hc
  · exact ha c hc
  · exact hb c hc

theorem PlainPath.words {a : Text} (h : PlainPath a) (hne : a ≠ []) : words isMakeSpace a = [a] :=
  words_of_word hne fun c hc => (h c hc).1

/-- The words of plain texts with a space between. -/
theorem words_plain {a : Text} (h : PlainPath a) (hne : a ≠ []) (rest : Text) :
    words isMakeSpace (a ++ ' ' :: rest) = a :: words isMakeSpace rest := by
  rw [words_append_cons (by decide), h.words hne, List.singleton_append]

theorem PlainPath.no_newline {a : Text} (h : PlainPath a) : '\n' ∉ a := fun hmem => absurd (h _ hmem).1 (by decide)

theorem PlainPath.no_slash {a : Text} (h : PlainPath a) : '\\' ∉ a := fun hmem => (h _ hmem).2 rfl

theorem ruleFor_words (hpath : PlainPath sourceFile) (hobject : ¬ "%%object%%".toList <:+: sourceFile) :
    wordLines (ruleFor sourceFile) = ruleWords sourceFile ∧ Ended (ruleFor sourceFile) := by
  have hobj := objectFileFor_plain hpath
  have hhead : PlainPath (objectFileFor sourceFile ++ [':']) := hobj.append (by decide)
  have hsrc : PlainPath ("$(ROOT)/".toList ++ sourceFile) := .append (by decide) hpath
  have hflags : PlainPath ("$(".toList ++ objectFileFor sourceFile ++ "_CFLAGS)".toList) :=
    .append (.append (by decide) hobj) (by decide)
  have hrule : '\n' ∉ ruleLine sourceFile ∧ (ruleLine sourceFile).getLast? ≠ some '\\' := by
    constructor
    · simp [ruleLine, hobj.no_newline, hpath.no_newline]
    · exact fun hlast => absurd (List.mem_of_getLast? hlast) (by simp [ruleLine, hobj.no_slash, hpath.no_slash])
  have hrecipe : '\n' ∉ recipeLine sourceFile ∧ (recipeLine sourceFile).getLast? ≠ some '\\' := by
    constructor
    · simp [recipeLine, hobj.no_newline, hpath.no_newline]
    · exact fun hlast => absurd (List.mem_of_getLast? hlast) (by simp [recipeLine, hobj.no_slash, hpath.no_slash])
  have hend := (ended_concat hrule.2).append (ended_concat hrecipe.2)
  rw [ruleFor_lines hobject]
  refine ⟨?_, hend⟩
  rw [(ended_concat hrule.2).wordLines_append, wordLines, wordLines, makeLines_line hrule.1 hrule.2,
    makeLines_line hrecipe.1 hrecipe.2, List.map_singleton, List.map_singleton, ruleLine, recipeLine,
    words_plain hhead (by simp), hsrc.words (by simp), words_cons (by decide), words_plain (by decide) (by decide),
    words_plain (by decide) (by decide), words_plain hflags (by simp), hsrc.words (by simp)]
  rfl

theorem expandRules_words (h : PlainBuild p fileList) :
    wordLines (expandRules fileList) = fileList.flatMap ruleWords ∧ Ended (expandRules fileList) := by
  have hrules : ∀ s ∈ fileList, wordLines (ruleFor s) = ruleWords s ∧ Ended (ruleFor s) :=
    fun s hs => ruleFor_words (h.paths s hs) (h.noToken s hs)
  clear h
  unfold expandRules
  induction fileList with
  | nil => exact ⟨rfl, .inl rfl⟩
  | cons s fileList ih =>
    rw [List.forall_mem_cons] at hrules
    obtain ⟨⟨hwords, hended⟩, hrest⟩ := hrules
    obtain ⟨ihwords, ihended⟩ := ih hrest
    rw [List.map_cons, List.flatten_cons, List.flatMap_cons, hended.wordLines_append, hwords, ihwords]
    exact ⟨rfl, hended.append ihended⟩

/-- A command is read as its lines, and ends with the last of them. -/
theorem dumpLine_command (h : PlainBuild p fileList) {line : Text} {ls : List (List Text)}
    (hc : commandWords p fileList line = some ls) :
    wordLines (dumpLine p fileList line) = ls ∧ Ended (dumpLine p fileList line) := by
  simp only [commandWords] at hc
  simp only [dumpLine]
  split_ifs at hc ⊢ with h1 hnil h2 h3 h4
  · cases hc
    rw [wordLines, expandMakeopts_lines h, if_pos hnil]
    exact ⟨by simp, expandMakeopts_ended h⟩
  · cases hc
    rw [wordLines, expandMakeopts_lines h, if_neg hnil]
    exact ⟨rfl, expandMakeopts_ended h⟩
  · cases hc
    have hread := expandObjs_words h.paths
    exact ⟨hread.wordLines_eq, hread.ended⟩
  · cases hc
    have hread := expandSrcs_words h.paths
    exact ⟨hread.wordLines_eq, hread.ended⟩
  · cases hc
    exact expandRules_words h

end Expansions

/-! ## Every template -/

section Dump

variable {p : Profile} {fileList : List Text} {line : Text} {before after : List Text}

theorem commandWords_isSome : (commandWords p fileList line).isSome = true ↔ IsCommand line := by
  simp only [commandWords, IsCommand, List.mem_cons, List.not_mem_nil, or_false]
  split_ifs with h1 hnil h2 h3 h4
  · exact iff_of_true rfl (.inl h1)
  · exact iff_of_true rfl (.inl h1)
  · exact iff_of_true rfl (.inr (.inl h2))
  · exact iff_of_true rfl (.inr (.inr (.inl h3)))
  · exact iff_of_true rfl (.inr (.inr (.inr h4)))
  · exact iff_of_false (by simp) (not_or.mpr ⟨h1, not_or.mpr ⟨h2, not_or.mpr ⟨h3, h4⟩⟩⟩)

theorem IsCommand.words {line : Text} (h : IsCommand line) (p : Profile) (fileList : List Text) :
    ∃ ls, commandWords p fileList line = some ls := Option.isSome_iff_exists.mp (commandWords_isSome.mpr h)

theorem dumpLine_other (h : ¬ IsCommand line) : dumpLine p fileList line = line := by
  simp only [IsCommand, List.mem_cons, List.not_mem_nil, or_false, not_or] at h
  obtain ⟨h1, h2, h3, h4⟩ := h
  simp only [dumpLine, if_neg h1, if_neg h2, if_neg h3, if_neg h4]

theorem dump_append (before after : List Text) :
    dump p fileList (before ++ after) = dump p fileList before ++ dump p fileList after := by
  unfold dump
  rw [List.map_append, List.flatten_append]

theorem dump_concat (before : List Text) (line : Text) :
    dump p fileList (before ++ [line]) = dump p fileList before ++ dumpLine p fileList line := by
  rw [dump_append]
  unfold dump
  simp

theorem dump_newline (h : PlainBuild p fileList) (hlines : ∀ line ∈ before, line.getLast? = some '\n') :
    ∀ c ∈ (dump p fileList before).getLast?, c = '\n' := by
  induction before using List.reverseRecOn with
  | nil => simp [dump]
  | append_singleton before line ih =>
    rw [List.forall_mem_append] at hlines
    have hline : ∀ c ∈ (dumpLine p fileList line).getLast?, c = '\n' := by
      by_cases hc : IsCommand line
      · obtain ⟨ls, hls⟩ := hc.words p fileList
        exact (dumpLine_command h hls).2.newline
      · rw [dumpLine_other hc, hlines.2 line List.mem_cons_self]
        simp
    rw [dump_concat]
    intro c hmem
    rw [List.getLast?_append, Option.mem_def, Option.or_eq_some_iff] at hmem
    rcases hmem with hmem | ⟨-, hmem⟩
    · exact hline c hmem
    · exact ih hlines.1 c hmem

/-- In front of a command everything written ends with a line. -/
theorem dump_ended (h : PlainBuild p fileList) (ht : Template (before ++ line :: after)) (hc : IsCommand line) :
    Ended (dump p fileList before) := by
  induction before using List.reverseRecOn generalizing line after with
  | nil => exact .inl rfl
  | append_singleton before prev ih =>
    rw [List.append_assoc, List.singleton_append] at ht
    have hchain := List.isChain_cons_cons.mp ht.apart.right_of_append
    rw [dump_concat]
    by_cases hprev : IsCommand prev
    · obtain ⟨ls, hls⟩ := hprev.words p fileList
      exact (ih ht hprev).append (dumpLine_command h hls).2
    · have hended : Ended prev := (hchain.1 hc).resolve_left hprev
      have hlines : ∀ l ∈ before ++ [prev], l.getLast? = some '\n' := by
        intro l hl
        refine ht.newlines l ?_
        rw [← List.singleton_append, ← List.append_assoc, List.dropLast_append_of_ne_nil (List.cons_ne_nil _ _)]
        exact List.mem_append_left _ hl
      rw [dumpLine_other hprev]
      rcases hended with rfl | ⟨body, rfl, hbody⟩
      · exact absurd (hlines [] (by simp)) (by simp)
      · refine .inr ⟨dump p fileList before ++ body, by rw [List.append_assoc], ?_⟩
        intro hlast
        rw [List.getLast?_append, Option.or_eq_some_iff] at hlast
        rcases hlast with hlast | ⟨-, hlast⟩
        · exact hbody hlast
        · have := dump_newline h (fun l hl => hlines l (List.mem_append_left _ hl)) _ hlast
          exact absurd this (by decide)

/-- A template without commands is copied. -/
theorem dump_verbatim {makefileLines : List Text} (h : ∀ line ∈ makefileLines, ¬ IsCommand line) :
    dump p fileList makefileLines = makefileLines.flatten := by
  unfold dump
  rw [List.map_congr_left fun line hline => dumpLine_other (h line hline), List.map_id']

/-- For every template that continues no line in front of a command, and every profile and
    list of files with plain options and paths: at a command make reads its lines, between
    what it reads of the text written in front of it and of the text behind. -/
theorem makefile_reads (h : PlainBuild p fileList) {makefileLines : List Text} (ht : Template makefileLines)
    {ls : List (List Text)} (hlines : makefileLines = before ++ line :: after) (hc : commandWords p fileList line = some ls) :
    wordLines (dump p fileList makefileLines) =
      wordLines (dump p fileList before) ++ ls ++ wordLines (dump p fileList after) := by
  subst hlines
  have hcommand : IsCommand line := commandWords_isSome.mp (Option.isSome_iff_exists.mpr ⟨ls, hc⟩)
  obtain ⟨hwords, hended⟩ := dumpLine_command h hc
  rw [← List.singleton_append, ← List.append_assoc, dump_append, dump_concat,
    ((dump_ended h ht hcommand).append hended).wordLines_append, (dump_ended h ht hcommand).wordLines_append, hwords]

/-- The objects of one file, between two other lines. -/
theorem one_object_is_read : wordLines (dump .new ["kernel/a.c".toList] ["# objects\n".toList, " %%OBJS\n".toList, "ROOT=../..\n".toList]) =
    wordLines (dump .new ["kernel/a.c".toList] ["# objects\n".toList]) ++ [["OBJS".toList, "=".toList, "a.o".toList]] ++
      wordLines (dump .new ["kernel/a.c".toList] ["ROOT=../..\n".toList]) := by
  have hc : commandWords .new ["kernel/a.c".toList] " %%OBJS\n".toList = some [["OBJS".toList, "=".toList, "a.o".toList]] := by decide
  refine makefile_reads ⟨?_, ?_, ?_, ?_⟩ ⟨?_, ?_⟩ rfl hc
  · simp only [List.forall_mem_cons]
    exact ⟨by decide, by simp⟩
  · simp only [List.forall_mem_cons]
    exact ⟨by decide, by simp⟩
  · simp [makeopts, Profile.new, Dict.empty]
  · simp [makeopts, Profile.new, Dict.empty]
  · decide
  · refine List.isChain_cons_cons.mpr ⟨fun _ => .inr (.inr ⟨"# objects".toList, rfl, by decide⟩), ?_⟩
    exact List.isChain_cons_cons.mpr ⟨fun hc => absurd hc (by unfold IsCommand; decide), List.isChain_singleton _⟩

end Dump

end NativeOS.Tools.Kcons
