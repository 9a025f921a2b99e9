/-
  NativeOS.Tools.KconsParser — reading a configuration file (`tools/kcons`, `Parser`).

  A directive may be split among several lines by a backslash at the end of each but the
  last. `parse` keeps what stood before the backslash in `slash_buffer` until the next line
  comes. When that line is continued too, the buffer is not extended but overwritten, so of
  three or more lines only the last two are seen.

  `shlex.split` is a parameter. All that is asked of it is what its documentation says of
  white space: a blank at the end of a line is nothing, unless a backslash escapes it.

  Proved:
  * `parse_joins_iff` — whatever stands around it in the file: a directive is read as if it
    stood on one line exactly if no continued line but the last one holds anything but its
    backslash (and the joined line ends as plainly as it did).
  * `three_lines_lose_the_first` — "a\", "b\", "c" is read as "bc".
-/

import NativeOS.Lib.Text

namespace NativeOS.Tools.Kcons

open NativeOS.Lib

abbrev Text := List Char

/-! ## Strings -/

/-- The code points Python's `str.isspace` accepts. -/
def isSpace (c : Char) : Bool :=
  let n := c.toNat
  (0x09 ≤ n && n ≤ 0x0D) || (0x1C ≤ n && n ≤ 0x20) || n == 0x85 || n == 0xA0 || n == 0x1680 ||
    (0x2000 ≤ n && n ≤ 0x200A) || n == 0x2028 || n == 0x2029 || n == 0x202F || n == 0x205F || n == 0x3000

/-- `str.strip()`. -/
def strip (l : Text) : Text := (l.dropWhile isSpace).rdropWhile isSpace

/-- `endswith("\\")`. -/
def endsWithSlash (l : Text) : Bool := l.getLast? == some '\\'

/-! ## Parser.parse -/

/-- `shlex.split(line, comments="#")`: the tokens, or the message of its ValueError. -/
abbrev Shlex := Text → Except Text (List Text)

/-- What `parse` yields, and the error that ended it. -/
structure Parsed where
  directives : List (List Text)
  error : Option Text
  deriving DecidableEq

/-- `if split_line: yield split_line`, and what comes behind it. -/
def yieldLine (splitLine : Except Text (List Text)) (rest : Parsed) : Parsed :=
  match splitLine with
  | .error message => ⟨[], some message⟩
  | .ok tokens => if tokens ≠ [] then { rest with directives := tokens :: rest.directives } else rest

def parseLoop (split : Shlex) (slashBuffer : Text) : List Text → Parsed
  | [] => ⟨[], none⟩
  | rawLine :: lines =>
    let stripped := strip rawLine
    if endsWithSlash stripped then parseLoop split stripped.dropLast lines
    else
      let line := if slashBuffer ≠ [] then slashBuffer ++ stripped else stripped
      yieldLine (split line) (parseLoop split [] lines)

def parse (split : Shlex) (lines : List Text) : Parsed := parseLoop split [] lines

/-! ## What it should do -/

/-- The line is merged with the next one. -/
def Continued (rawLine : Text) : Prop := endsWithSlash (strip rawLine) = true

instance (rawLine : Text) : Decidable (Continued rawLine) := inferInstanceAs (Decidable (_ = true))

/-- What a continued line holds. -/
def piece (rawLine : Text) : Text := (strip rawLine).dropLast

/-- A directive, as the lines it is split among. -/
structure Directive where
  continued : List Text
  last : Text
  continues : ∀ l ∈ continued, Continued l
  ends : ¬ Continued last

def Directive.lines (d : Directive) : List Text := d.continued ++ [d.last]

def Directive.pieces (d : Directive) : List Text := d.continued.map piece

/-- The one line it stands for. -/
def Directive.joined (d : Directive) : Text := d.pieces.flatten ++ strip d.last

/-- No directive is left open. -/
def Complete (lines : List Text) : Prop := ∀ l ∈ lines.getLast?, ¬ Continued l

instance (lines : List Text) : Decidable (Complete lines) := inferInstanceAs (Decidable (∀ l ∈ lines.getLast?, ¬ Continued l))

/-- `shlex`'s own white space. -/
def isBlank (c : Char) : Bool := c == ' ' || c == '\t' || c == '\r' || c == '\n'

def IgnoresBlanks (split : Shlex) : Prop :=
  ∀ l b, isBlank b = true → endsWithSlash l = false → split (l ++ [b]) = split l

/-- The directive is read as if it stood on one line. -/
def Joins (before : List Text) (d : Directive) (after : List Text) : Prop :=
  ∀ split, IgnoresBlanks split → parse split (before ++ d.lines ++ after) = parse split (before ++ d.joined :: after)

def trimBlanks (l : Text) : Text := l.rdropWhile isBlank

/-- Neither white space nor a backslash ends the text. -/
def EndsPlain (l : Text) : Prop := ∀ c ∈ l.getLast?, isSpace c = false ∧ c ≠ '\\'

instance (l : Text) : Decidable (EndsPlain l) := inferInstanceAs (Decidable (∀ c ∈ l.getLast?, isSpace c = false ∧ c ≠ '\\'))

/-- The condition: nothing is overwritten, and the end is the directive's own. -/
structure Kept (d : Directive) : Prop where
  earlier : ∀ p ∈ d.pieces.dropLast, p = []
  plain : strip d.last = [] → EndsPlain (trimBlanks (d.pieces.getLastD []))

/-! ## Ends of lines -/

theorem isSpace_of_isBlank (c : Char) (h : isBlank c = true) : isSpace c = true := by
  unfold isBlank at h
  simp only [Bool.or_eq_true, beq_iff_eq] at h
  rcases h with ((rfl | rfl) | rfl) | rfl <;> decide

theorem endsWithSlash_iff {l : Text} : endsWithSlash l = true ↔ l.getLast? = some '\\' := by
  unfold endsWithSlash
  rw [beq_iff_eq]

theorem strip_of_head {l : Text} (h : ∀ c, l.head? = some c → ¬ isSpace c) : strip l = l.rdropWhile isSpace := by
  unfold strip
  rw [dropWhile_eq_self h]

theorem strip_getLast? {l : Text} {c : Char} (h : (strip l).getLast? = some c) : ¬ isSpace c := rdropWhile_getLast? h

theorem strip_head? {l : Text} {c : Char} (h : (strip l).head? = some c) : ¬ isSpace c := by
  unfold strip at h
  have hpre : (l.dropWhile isSpace).rdropWhile isSpace <+: l.dropWhile isSpace := List.rdropWhile_prefix _ _
  obtain ⟨t, ht⟩ := hpre
  have hhead : (l.dropWhile isSpace).head? = some c := by rw [← ht, List.head?_append, h]; rfl
  have hnot := List.head?_dropWhile_not isSpace l
  rw [hhead] at hnot
  simpa using hnot

theorem piece_head? {l : Text} {c : Char} (h : (piece l).head? = some c) : ¬ isSpace c := by
  refine strip_head? (l := l) ?_
  unfold piece at h
  cases hs : strip l with
  | nil =>
    rw [hs] at h
    cases h
  | cons x s =>
    cases s with
    | nil =>
      rw [hs] at h
      cases h
    | cons y s =>
      rw [hs, List.dropLast_cons_cons] at h
      exact h

/-! ## Lines -/

section Lines

variable (split : Shlex) {slashBuffer rawLine : Text} {lines rest : List Text}

theorem parseLoop_of_continued (h : Continued rawLine) :
    parseLoop split slashBuffer (rawLine :: lines) = parseLoop split (piece rawLine) lines := if_pos h

theorem parseLoop_of_complete (h : ¬ Continued rawLine) :
    parseLoop split slashBuffer (rawLine :: lines) =
      yieldLine (split (slashBuffer ++ strip rawLine)) (parseLoop split [] lines) := by
  have hline : (if slashBuffer ≠ [] then slashBuffer ++ strip rawLine else strip rawLine) = slashBuffer ++ strip rawLine := by
    by_cases h0 : slashBuffer = []
    · rw [if_neg (not_not.mpr h0), h0]
      rfl
    · rw [if_pos h0]
  rw [← hline]
  exact if_neg h

/-- The buffer holds the last continued line, and no other. -/
theorem parseLoop_continued (h : ∀ l ∈ lines, Continued l) :
    parseLoop split slashBuffer (lines ++ rest) = parseLoop split ((lines.map piece).getLastD slashBuffer) rest := by
  induction lines generalizing slashBuffer with
  | nil => rfl
  | cons l lines ih =>
    rw [List.cons_append, parseLoop_of_continued split (h l List.mem_cons_self),
      ih fun x hx => h x (List.mem_cons_of_mem l hx), List.map_cons, List.getLastD_cons]

/-- What comes behind a part of the file that leaves no directive open. -/
def Parsed.andThen (a b : Parsed) : Parsed :=
  match a.error with
  | some message => ⟨a.directives, some message⟩
  | none => ⟨a.directives ++ b.directives, b.error⟩

theorem yieldLine_andThen (splitLine : Except Text (List Text)) (a b : Parsed) :
    (yieldLine splitLine a).andThen b = yieldLine splitLine (a.andThen b) := by
  unfold yieldLine Parsed.andThen
  cases splitLine with
  | error message => rfl
  | ok tokens =>
    dsimp only
    by_cases ht : tokens = []
    · rw [if_neg (not_not.mpr ht), if_neg (not_not.mpr ht)]
    · rw [if_pos ht, if_pos ht]
      cases a.error <;> rfl

theorem Complete.tail {l : Text} (h : Complete (l :: lines)) : Complete lines := by
  intro x hx
  refine h x ?_
  rw [List.getLast?_cons, hx]
  rfl

theorem parseLoop_before (hb : lines = [] → slashBuffer = []) (h : Complete lines) :
    parseLoop split slashBuffer (lines ++ rest) = (parseLoop split slashBuffer lines).andThen (parseLoop split [] rest) := by
  induction lines generalizing slashBuffer with
  | nil =>
    rw [hb rfl]
    rfl
  | cons l lines ih =>
    by_cases hc : Continued l
    · have hne : lines ≠ [] := by
        intro h0
        rw [h0] at h
        exact h l rfl hc
      rw [List.cons_append, parseLoop_of_continued split hc, parseLoop_of_continued split hc,
        ih (fun h0 => absurd h0 hne) h.tail]
    · rw [List.cons_append, parseLoop_of_complete split hc, parseLoop_of_complete split hc, ih (fun _ => rfl) h.tail,
        yieldLine_andThen]

theorem parse_before {before : List Text} (h : Complete before) :
    parse split (before ++ rest) = (parse split before).andThen (parse split rest) := parseLoop_before split (fun _ => rfl) h

/-- The line `parse` makes of a directive. -/
def Directive.seen (d : Directive) : Text := d.pieces.getLastD [] ++ strip d.last

theorem parse_directive (d : Directive) (after : List Text) :
    parse split (d.lines ++ after) = yieldLine (split d.seen) (parse split after) := by
  unfold parse Directive.lines
  rw [List.append_assoc, parseLoop_continued split d.continues, List.singleton_append, parseLoop_of_complete split d.ends]
  rfl

theorem parse_line {l : Text} (h : ¬ Continued l) (after : List Text) :
    parse split (l :: after) = yieldLine (split (strip l)) (parse split after) := parseLoop_of_complete split h

end Lines

/-! ## What the directive's line is -/

theorem flatten_head? {ps : List Text} {P : Char → Prop} (h : ∀ p ∈ ps, ∀ c, p.head? = some c → P c) {c : Char}
    (hc : ps.flatten.head? = some c) : P c := by
  induction ps with
  | nil => cases hc
  | cons p ps ih =>
    rw [List.flatten_cons] at hc
    rcases head?_append_of hc with hp | ⟨-, hps⟩
    · exact h p List.mem_cons_self c hp
    · exact ih (fun q hq => h q (List.mem_cons_of_mem p hq)) hps

namespace Directive

variable (d : Directive)

/-- What `parse` drops. -/
def lost : Text := d.pieces.dropLast.flatten

theorem joined_eq : d.joined = d.lost ++ d.seen := by
  unfold joined lost seen
  rw [← List.append_assoc]
  congr 1
  cases h : d.pieces.getLast? with
  | none =>
    rw [List.getLast?_eq_none_iff] at h
    rw [h]
    rfl
  | some p =>
    obtain ⟨front, hfront⟩ := List.getLast?_eq_some_iff.mp h
    rw [hfront, List.dropLast_concat, List.getLastD_concat, List.flatten_concat]

theorem pieces_head? : ∀ p ∈ d.pieces, ∀ c, p.head? = some c → ¬ isSpace c := by
  intro p hp c hc
  obtain ⟨l, -, rfl⟩ := List.mem_map.mp hp
  exact piece_head? hc

theorem lost_head? {c : Char} (h : d.lost.head? = some c) : ¬ isSpace c :=
  flatten_head? (fun p hp => d.pieces_head? p (List.mem_of_mem_dropLast hp)) h

theorem joined_head? {c : Char} (h : d.joined.head? = some c) : ¬ isSpace c := by
  rcases head?_append_of h with h | ⟨-, h⟩
  · exact flatten_head? d.pieces_head? h
  · exact strip_head? h

theorem strip_joined : strip d.joined = d.joined.rdropWhile isSpace := strip_of_head fun _ => d.joined_head?

theorem lost_eq_nil : d.lost = [] ↔ ∀ p ∈ d.pieces.dropLast, p = [] := List.flatten_eq_nil_iff

theorem last_getLast? {c : Char} (h : (strip d.last).getLast? = some c) : isSpace c = false ∧ c ≠ '\\' := by
  refine ⟨by simpa using strip_getLast? h, ?_⟩
  rintro rfl
  exact d.ends (endsWithSlash_iff.mpr h)

end Directive

/-- Trimming blanks is as good as stripping a text that then ends plainly. -/
theorem EndsPlain.rstrip {l : Text} (h : EndsPlain (trimBlanks l)) : l.rdropWhile isSpace = trimBlanks l := by
  unfold trimBlanks at h ⊢
  rw [← rdropWhile_rdropWhile (q := isBlank) isSpace_of_isBlank]
  refine rdropWhile_eq_self ?_
  intro c hc
  simp [(h c hc).1]

theorem EndsPlain.not_continued {l : Text} (h : EndsPlain l) : ¬ endsWithSlash l = true := by
  intro hs
  exact (h _ (endsWithSlash_iff.mp hs)).2 rfl

/-- Trailing blanks are nothing to `split`, unless a backslash stands before them. -/
theorem IgnoresBlanks.trim {split : Shlex} (hs : IgnoresBlanks split) {l : Text} (h : EndsPlain (trimBlanks l)) :
    split (trimBlanks l) = split l := by
  unfold trimBlanks at h ⊢
  induction l using List.reverseRecOn with
  | nil => rfl
  | append_singleton l c ih =>
    by_cases hc : isBlank c
    · rw [List.rdropWhile_concat_pos _ _ _ hc] at h ⊢
      rw [ih h, hs l c hc]
      rw [Bool.eq_false_iff]
      intro hslash
      have hstay : l.rdropWhile isBlank = l := by
        refine rdropWhile_eq_self ?_
        intro x hx
        rw [endsWithSlash_iff.mp hslash] at hx
        cases hx
        decide
      rw [hstay] at h
      exact h.not_continued hslash
    · rw [List.rdropWhile_concat_neg _ _ _ hc]

section Joins

variable {split : Shlex} {d : Directive} {before after : List Text}

theorem Kept.parse_joined (hk : Kept d) (hs : IgnoresBlanks split) :
    parse split (d.joined :: after) = yieldLine (split d.seen) (parse split after) := by
  have hjoined : d.joined = d.seen := by rw [d.joined_eq, d.lost_eq_nil.mpr hk.earlier, List.nil_append]
  have hstrip : strip d.joined = d.seen.rdropWhile isSpace := by rw [d.strip_joined, hjoined]
  by_cases hlast : strip d.last = []
  · have hseen : d.seen = d.pieces.getLastD [] := by rw [Directive.seen, hlast, List.append_nil]
    have hplain : EndsPlain (trimBlanks d.seen) := by
      rw [hseen]
      exact hk.plain hlast
    rw [hplain.rstrip] at hstrip
    have hcomplete : ¬ Continued d.joined := by
      unfold Continued
      rw [hstrip]
      exact hplain.not_continued
    rw [parse_line split hcomplete, hstrip, hs.trim hplain]
  · have hplain : EndsPlain d.seen := by
      intro c hc
      unfold Directive.seen at hc
      rw [List.getLast?_append_of_ne_nil _ hlast] at hc
      exact d.last_getLast? hc
    rw [rdropWhile_eq_self fun c hc => by simp [(hplain c hc).1]] at hstrip
    have hcomplete : ¬ Continued d.joined := by
      unfold Continued
      rw [hstrip]
      exact hplain.not_continued
    rw [parse_line split hcomplete, hstrip]

theorem Kept.joins (hb : Complete before) (hk : Kept d) : Joins before d after := by
  intro split hs
  rw [List.append_assoc, parse_before split hb, parse_before split hb, parse_directive, hk.parse_joined hs]

/-! ## A split that shows the whole line -/

def wholeLine : Shlex := fun l => .ok [trimBlanks l]

theorem wholeLine_ignoresBlanks : IgnoresBlanks wholeLine := by
  intro l b hb _
  unfold wholeLine trimBlanks
  rw [List.rdropWhile_concat_pos _ _ _ hb]

theorem yieldLine_wholeLine (l : Text) (rest : Parsed) :
    yieldLine (wholeLine l) rest = ⟨[trimBlanks l] :: rest.directives, rest.error⟩ := rfl

/-- One directive for each line that is not continued. -/
theorem parseLoop_wholeLine (slashBuffer : Text) (lines : List Text) :
    (parseLoop wholeLine slashBuffer lines).error = none ∧
      (parseLoop wholeLine slashBuffer lines).directives.length = lines.countP fun l => ¬ Continued l := by
  induction lines generalizing slashBuffer with
  | nil => exact ⟨rfl, rfl⟩
  | cons l lines ih =>
    by_cases hc : Continued l
    · rw [parseLoop_of_continued wholeLine hc, List.countP_cons_of_neg (by simpa using hc)]
      exact ih (piece l)
    · rw [parseLoop_of_complete wholeLine hc, List.countP_cons_of_pos (by simpa using hc), yieldLine_wholeLine]
      exact ⟨(ih []).1, congrArg (· + 1) (ih []).2⟩

theorem Joins.shown (hb : Complete before) (h : Joins before d after) :
    (parse wholeLine (d.joined :: after)).directives = [trimBlanks d.seen] :: (parse wholeLine after).directives := by
  have hall := congrArg Parsed.directives (h wholeLine wholeLine_ignoresBlanks)
  rw [List.append_assoc, parse_before wholeLine hb, parse_before wholeLine hb, parse_directive] at hall
  have herror : (parse wholeLine before).error = none := (parseLoop_wholeLine [] before).1
  unfold Parsed.andThen at hall
  rw [herror] at hall
  exact (List.append_cancel_left hall).symm

/-- The joined line is the one that `parse` sees, up to blanks at its end. -/
theorem Joins.seen (hb : Complete before) (h : Joins before d after) :
    ¬ Continued d.joined ∧ trimBlanks d.seen = strip d.joined := by
  have hshown := h.shown hb
  by_cases hc : Continued d.joined
  · have hlength := congrArg List.length hshown
    unfold parse at hlength
    rw [parseLoop_of_continued wholeLine hc, List.length_cons, (parseLoop_wholeLine _ after).2,
      (parseLoop_wholeLine _ after).2] at hlength
    omega
  · rw [parse_line wholeLine hc, yieldLine_wholeLine] at hshown
    refine ⟨hc, ?_⟩
    have htrim : trimBlanks (strip d.joined) = strip d.joined := by
      refine rdropWhile_eq_self ?_
      intro c hlast hblank
      exact strip_getLast? hlast (isSpace_of_isBlank c hblank)
    rw [htrim] at hshown
    simpa using hshown.symm

theorem Joins.kept (hb : Complete before) (h : Joins before d after) : Kept d := by
  obtain ⟨hcomplete, hseen⟩ := h.seen hb
  have hplain : EndsPlain (trimBlanks d.seen) := by
    rw [hseen]
    intro c hc
    refine ⟨by simpa using strip_getLast? hc, ?_⟩
    rintro rfl
    exact hcomplete (endsWithSlash_iff.mpr hc)
  have hrstrip : d.seen.rdropWhile isSpace = d.joined.rdropWhile isSpace := by
    rw [hplain.rstrip, hseen, d.strip_joined]
  refine ⟨d.lost_eq_nil.mp ?_, ?_⟩
  · -- what was lost would stand before the line seen, and shows if either of them does
    rw [d.joined_eq] at hrstrip
    by_cases hall : ∃ c ∈ d.seen, ¬ isSpace c
    · rw [rdropWhile_append_of_not_all d.lost hall] at hrstrip
      simpa using hrstrip
    · have hnone : d.seen.rdropWhile isSpace = [] := by
        rw [List.rdropWhile_eq_nil_iff]
        intro c hc
        by_contra hn
        exact hall ⟨c, hc, hn⟩
      rw [hnone, eq_comm, List.rdropWhile_eq_nil_iff] at hrstrip
      cases hlost : d.lost with
      | nil => rfl
      | cons c l =>
        refine absurd (hrstrip c ?_) (d.lost_head? (by rw [hlost]; rfl))
        rw [hlost]
        exact List.mem_append_left _ List.mem_cons_self
  · intro hlast
    rwa [Directive.seen, hlast, List.append_nil] at hplain

end Joins

/-! ## Every file -/

/-- In every file and for every `split`: a directive that is split among lines is read as if
    it stood on one, exactly if the continued lines before the last continued one hold
    nothing, and, where an empty line ends it, the last continued one ends neither in white
    space (blanks apart) nor in a second backslash. -/
theorem parse_joins_iff {before : List Text} (hb : Complete before) (d : Directive) (after : List Text) :
    Joins before d after ↔ Kept d := by
  constructor
  · intro h
    exact h.kept hb
  · intro h
    exact h.joins hb

/-- One continued line, in the middle of a file. -/
theorem two_lines_are_joined : Joins ["arch I386\n".toList]
    ⟨["option a \\\n".toList], "b\n".toList, by decide, by decide⟩ ["option c\n".toList] :=
  (parse_joins_iff (by decide) _ _).mpr ⟨by decide, by decide⟩

def threeLines : Directive := ⟨["option a \\\n".toList, "b \\\n".toList], "c\n".toList, by decide, by decide⟩

/-- Of three lines the first is lost: no directive, and no "a". -/
theorem three_lines_lose_the_first : ¬ Joins [] threeLines [] ∧ threeLines.seen = "b c".toList := by
  constructor
  · intro h
    have hshown := h wholeLine wholeLine_ignoresBlanks
    revert hshown
    decide
  · decide

end NativeOS.Tools.Kcons
