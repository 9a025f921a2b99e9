/-
  NativeOS.Tools.LineWrapping — the lists of files as make reads them (`tools/kcons`,
  `expand_list_of_files`).

  A line that grows over 60 characters is broken by a backslash, and what is pending begins
  the next one with a tab. To make, the backslash and the newline are a space, so a break is
  one more space between two words, wherever it falls.

  Proved:
  * `wrapping_loses_no_file` — for every prefix and every list of items, of any lengths: the
    words are the prefix's and the items, in order, and the only newline left is the last.
  * `expandSrcs_words`, `expandObjs_words` — `SRCS` and `OBJS` are the sources and objects.
-/

import NativeOS.Tools.Makefile

namespace NativeOS.Tools.Kcons

open NativeOS.Lib

/-- The text written for the sources. -/
def expandSrcs (fileList : List Text) : Text :=
  expandListOfFiles "SRCS = \t".toList (fileList.map fun s => "$(ROOT)/".toList ++ s)

/-! ## Reading a Makefile -/

/-- What make takes for white space: space, tab, newline, carriage return, and the vertical
    tab and form feed. -/
def isMakeSpace (c : Char) : Bool :=
  c == ' ' || c == '\t' || c == '\n' || c == '\r' || c == Char.ofNat 0x0B || c == Char.ofNat 0x0C

/-- A backslash and the newline behind it are a space. -/
def joinLines (text : Text) : Text := replace "\\\n".toList [' '] text

def makeWords (text : Text) : List Text := words isMakeSpace (joinLines text)

/-- The text is one line to make, with these words, and ends as a line does. -/
structure ReadsAs (text : Text) (items : List Text) : Prop where
  read : makeWords text = items
  oneLine : ∃ line, joinLines text = line ++ ['\n'] ∧ '\n' ∉ line
  newline : ∃ body, text = body ++ ['\n'] ∧ body.getLast? ≠ some '\\'

/-- What stands in front of the items, as "OBJS = \t" does. -/
structure ListPrefix where
  text : Text
  ends : text.getLast? = some ' ' ∨ text.getLast? = some '\t'
  noSlash : '\\' ∉ text
  noNewline : '\n' ∉ text

structure ListItem where
  text : Text
  nonempty : text ≠ []
  noSpace : ∀ c ∈ text, isMakeSpace c = false
  noSlash : '\\' ∉ text

/-! ## Joining lines -/

section Join

variable {l : Text}

theorem joinLines_plain (h : '\\' ∉ l) (rest : Text) : joinLines (l ++ rest) = l ++ joinLines rest :=
  replace_append (not_begins_of_not_mem rfl h rest)

theorem joinLines_break (rest : Text) : joinLines ('\\' :: '\n' :: rest) = ' ' :: joinLines rest :=
  replace_front (List.cons_ne_nil _ _) rest

end Join

/-! ## One line after the other -/

/-- A buffer as the loop has it: white space at its end, and no line broken. -/
structure Pending (buffer : Text) : Prop where
  ends : ∀ c ∈ buffer.getLast?, isMakeSpace c
  noSlash : '\\' ∉ buffer
  noNewline : '\n' ∉ buffer

section Loop

variable {buffer : Text}

theorem ListPrefix.pending (p : ListPrefix) : Pending p.text := by
  refine ⟨?_, p.noSlash, p.noNewline⟩
  intro c hc
  rcases p.ends with h | h
  · rw [h] at hc
    cases hc
    rfl
  · rw [h] at hc
    cases hc
    rfl

theorem ListItem.noNewline (item : ListItem) : '\n' ∉ item.text := by
  intro h
  exact absurd (item.noSpace '\n' h) (by decide)

theorem Pending.item (h : Pending buffer) (item : ListItem) : Pending (buffer ++ item.text ++ [' ']) := by
  refine ⟨?_, ?_, ?_⟩
  · intro c hc
    rw [List.getLast?_concat] at hc
    cases hc
    rfl
  · simpa using ⟨h.noSlash, item.noSlash⟩
  · simpa using ⟨h.noNewline, item.noNewline⟩

theorem pending_tab : Pending ['\t'] := by
  refine ⟨?_, by decide, by decide⟩
  intro c hc
  cases hc
  rfl

theorem Pending.words_item (h : Pending buffer) (item : ListItem) :
    words isMakeSpace (buffer ++ item.text ++ [' ']) = words isMakeSpace buffer ++ [item.text] := by
  rw [words_concat (by decide), words_append h.ends, words_of_word item.nonempty item.noSpace]

theorem listLoop_cons (item : ListItem) (items : List Text) : listLoop buffer (item.text :: items) =
    if (buffer ++ ' ' :: item.text).length > 60 then
      buffer ++ '\\' :: '\n' :: listLoop (['\t'] ++ item.text ++ [' ']) items
    else listLoop (buffer ++ item.text ++ [' ']) items := by
  rw [listLoop, List.append_assoc]
  rfl

/-- The words of a line and of the newline at its end. -/
theorem ReadsAs.of_line {text line : Text} (hline : joinLines text = line ++ ['\n']) (hnot : '\n' ∉ line)
    (hnewline : ∃ body, text = body ++ ['\n'] ∧ body.getLast? ≠ some '\\') : ReadsAs text (words isMakeSpace line) := by
  refine ⟨?_, ⟨line, hline, hnot⟩, hnewline⟩
  rw [makeWords, hline, words_concat (by decide)]

/-- The last line, with a space trimmed off it. -/
theorem Pending.last (h : Pending buffer) : ReadsAs (listLoop buffer []) (words isMakeSpace buffer) := by
  have hlast : ∃ line, listLoop buffer [] = line ++ ['\n'] ∧ words isMakeSpace line = words isMakeSpace buffer ∧
      '\\' ∉ line ∧ '\n' ∉ line := by
    unfold listLoop
    by_cases hspace : buffer.getLast? = some ' '
    · obtain ⟨front, hfront⟩ := List.getLast?_eq_some_iff.mp hspace
      have hslash := h.noSlash
      have hnewline := h.noNewline
      rw [hfront, List.mem_append, not_or] at hslash hnewline
      rw [if_pos hspace, hfront, List.dropLast_concat, words_concat (by decide)]
      exact ⟨front, rfl, rfl, hslash.1, hnewline.1⟩
    · rw [if_neg hspace]
      exact ⟨buffer, rfl, rfl, h.noSlash, h.noNewline⟩
  rcases hlast with ⟨line, htext, hwords, hslash, hnewline⟩
  rw [← hwords]
  refine .of_line ?_ hnewline ⟨line, htext, fun hend => hslash (List.mem_of_getLast? hend)⟩
  rw [htext, joinLines_plain hslash]
  rfl

/-- A line that is broken, and what is read of the lines behind it. -/
theorem Pending.broken (h : Pending buffer) {rest : Text} {items : List Text} (hrest : ReadsAs rest items) :
    ReadsAs (buffer ++ '\\' :: '\n' :: rest) (words isMakeSpace buffer ++ items) := by
  rcases hrest.oneLine with ⟨line, hline, hnot⟩
  rcases hrest.newline with ⟨body, hbody, hend⟩
  have hjoin : joinLines (buffer ++ '\\' :: '\n' :: rest) = buffer ++ ' ' :: line ++ ['\n'] := by
    rw [joinLines_plain h.noSlash, joinLines_break, hline]
    simp
  have hwords : words isMakeSpace (buffer ++ ' ' :: line) = words isMakeSpace buffer ++ items := by
    have hitems := hrest.read
    rw [makeWords, hline, words_concat (by decide)] at hitems
    rw [words_append_cons (by decide), hitems]
  rw [← hwords]
  refine .of_line hjoin ?_ ⟨buffer ++ '\\' :: '\n' :: body, by rw [hbody]; simp, ?_⟩
  · simpa using ⟨h.noNewline, hnot⟩
  · -- behind the break stands the body, or the newline itself
    have hlast : (buffer ++ '\\' :: '\n' :: body).getLast? = some (body.getLast?.getD '\n') := by
      cases body with
      | nil => simp
      | cons c body => simp [List.getLast?_cons]
    rw [hlast]
    cases hb : body.getLast? with
    | none => decide
    | some c =>
      rw [hb] at hend
      exact hend

/-- Whatever is pending, and however long the items are. -/
theorem listLoop_reads (items : List ListItem) (h : Pending buffer) :
    ReadsAs (listLoop buffer (items.map ListItem.text)) (words isMakeSpace buffer ++ items.map ListItem.text) := by
  induction items generalizing buffer with
  | nil =>
    rw [List.map_nil, List.append_nil]
    exact h.last
  | cons item items ih =>
    rw [List.map_cons, listLoop_cons]
    by_cases hlong : (buffer ++ ' ' :: item.text).length > 60
    · have hrest := ih (pending_tab.item item)
      rw [pending_tab.words_item, words_cons (by decide), words_nil] at hrest
      rw [if_pos hlong]
      exact h.broken hrest
    · have hrest := ih (h.item item)
      rw [h.words_item, List.append_assoc (words isMakeSpace buffer)] at hrest
      rw [if_neg hlong]
      exact hrest

end Loop

/-! ## Every list of files -/

/-- For every prefix and every list of items. -/
theorem wrapping_loses_no_file (preffix : ListPrefix) (items : List ListItem) :
    ReadsAs (expandListOfFiles preffix.text (items.map ListItem.text))
      (words isMakeSpace preffix.text ++ items.map ListItem.text) := listLoop_reads items preffix.pending

/-! ## Sources and objects -/

/-- A path that make reads as one word. -/
def PlainPath (path : Text) : Prop := ∀ c ∈ path, isMakeSpace c = false ∧ c ≠ '\\'

instance (path : Text) : Decidable (PlainPath path) :=
  List.decidableBAll (fun c => isMakeSpace c = false ∧ c ≠ '\\') path

theorem objectFileFor_subset {path : Text} {c : Char} (h : c ∈ objectFileFor path) : c ∈ path ∨ c ∈ ".o".toList := by
  unfold objectFileFor at h
  rcases List.mem_append.mp h with h | h
  · obtain ⟨ext, hname, -⟩ := splitext_iff.mp (rfl : (splitext (basename path)).1 = _)
    rcases basename_parts path with ⟨dir, hpath, -⟩
    have hbase : c ∈ basename path := by
      rw [hname]
      exact List.mem_append_left _ h
    rw [hpath]
    exact .inl (List.mem_append_right _ hbase)
  · exact .inr h

/-- A plain text that is not empty, as an item. -/
def itemOf (text : Text) (hne : text ≠ []) (h : PlainPath text) : ListItem :=
  ⟨text, hne, fun c hc => (h c hc).1, fun hc => (h _ hc).2 rfl⟩

theorem expand_words (preffix : ListPrefix) {texts : List Text} (h : ∀ text ∈ texts, text ≠ [] ∧ PlainPath text) :
    ReadsAs (expandListOfFiles preffix.text texts) (words isMakeSpace preffix.text ++ texts) := by
  obtain ⟨items, hitems⟩ : ∃ items : List ListItem, items.map ListItem.text = texts := by
    refine ⟨texts.attach.map fun text => itemOf text.1 (h _ text.2).1 (h _ text.2).2, ?_⟩
    rw [List.map_map]
    exact List.attach_map_subtype_val texts
  rw [← hitems]
  exact listLoop_reads items preffix.pending

theorem expandSrcs_words {fileList : List Text} (h : ∀ path ∈ fileList, PlainPath path) :
    ReadsAs (expandSrcs fileList) (["SRCS".toList, "=".toList] ++ fileList.map fun s => "$(ROOT)/".toList ++ s) := by
  have hroot : PlainPath "$(ROOT)/".toList := by decide
  refine expand_words ⟨"SRCS = \t".toList, .inr rfl, by decide, by decide⟩ ?_
  intro text htext
  rcases List.mem_map.mp htext with ⟨path, hpath, rfl⟩
  refine ⟨List.cons_ne_nil _ _, ?_⟩
  intro c hc
  rcases List.mem_append.mp hc with hc | hc
  · exact hroot c hc
  · exact h path hpath c hc

theorem expandObjs_words {fileList : List Text} (h : ∀ path ∈ fileList, PlainPath path) :
    ReadsAs (expandObjs fileList) (["OBJS".toList, "=".toList] ++ objects fileList) := by
  have hext : PlainPath ".o".toList := by decide
  refine expand_words ⟨"OBJS = \t".toList, .inr rfl, by decide, by decide⟩ ?_
  intro text htext
  rcases List.mem_map.mp htext with ⟨path, hpath, rfl⟩
  refine ⟨List.append_ne_nil_of_right_ne_nil _ (by decide), ?_⟩
  intro c hc
  rcases objectFileFor_subset hc with hc | hc
  · exact h path hpath c hc
  · exact hext c hc

end NativeOS.Tools.Kcons
