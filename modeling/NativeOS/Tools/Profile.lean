/-
  NativeOS.Tools.Profile — processing a profile (`tools/kcons`, `ProfileParser`).

  Make options are kept in two dictionaries, the assigned ones and the appended ones, and an
  argument is taken apart by `split`, at every occurrence of the operator. So a second '='
  in a value is one part too many (ValueError), a "+=" in an assigned value is taken for the
  operator, and a second append to a name that was never assigned replaces the first one.
  Defines are split at '=' too, and `del` raises KeyError for a name that is not there.

  Proved:
  * `makeoptions_fold_iff` — every sequence of make options: nothing is raised and the
    dictionaries are what the documentation says exactly if no value holds its operator and,
    of a name that is never assigned, every append but the last is empty.
  * `defines_fold_iff` — every sequence of define and nodefine directives: none fails and the
    macros are as documented exactly if no define has a second '=' and no nodefine names a
    macro that is not defined.
-/

import Mathlib.Data.Finset.Basic
import NativeOS.Lib.Dict
import NativeOS.Lib.Runs
import NativeOS.Tools.KconsParser

namespace NativeOS.Tools.Kcons

open NativeOS.Lib

/-! ## ProfileParser -/

inductive Raised where
  | valueError
  | keyError (key : Text)
  deriving DecidableEq

structure Profile where
  arch : Option Text
  defines : Dict Text Text
  makeoptions : Dict Text Text
  appendmakeoptions : Dict Text Text
  options : Finset Text
  errors : List Text

/-- `ProfileParser.__init__`. -/
def Profile.new : Profile := ⟨none, Dict.empty, Dict.empty, Dict.empty, ∅, []⟩

/-- `name, value = parts`. -/
def unpack : List Text → Except Raised (Text × Text)
  | [name, value] => .ok (name, value)
  | _ => .error .valueError

def setArch (p : Profile) (argv : List Text) : Profile :=
  match argv with
  | [arch] => { p with arch := some arch }
  | _ => { p with errors := p.errors ++ ["arch: invalid value".toList] }

def addOptions (p : Profile) (options : List Text) : Profile := { p with options := p.options ∪ options.toFinset }

def removeOptions (p : Profile) (options : List Text) : Profile := { p with options := p.options \ options.toFinset }

/-- `add_define`'s loop body. -/
def addOneDefine (p : Profile) (define : Text) : Except Raised Profile :=
  if '=' ∉ define then .ok { p with defines := p.defines.set define [] }
  else do
    let (name, value) ← unpack (split ['='] define)
    return { p with defines := p.defines.set name value }

def addDefine (p : Profile) (options : List Text) : Except Raised Profile := options.foldlM addOneDefine p

/-- The two dictionaries after `name += value`. -/
def appendMakeoption (p : Profile) (name value : Text) : Profile :=
  match p.makeoptions.get? name with
  | some old => { p with makeoptions := p.makeoptions.set name (old ++ value) }
  | none => { p with appendmakeoptions := p.appendmakeoptions.set name value }

/-- The two dictionaries after `name = value`. -/
def assignMakeoption (p : Profile) (name value : Text) : Profile :=
  { p with makeoptions := p.makeoptions.set name value, appendmakeoptions := p.appendmakeoptions.erase name }

def applyMakeoption (p : Profile) (makeoption : Text) : Except Raised Profile :=
  if ['+', '='] <:+: makeoption then do
    let (name, value) ← unpack (split ['+', '='] makeoption)
    return appendMakeoption p name value
  else do
    let (name, value) ← unpack (split ['='] makeoption)
    return assignMakeoption p name value

/-- `add_makeoption`'s loop body. -/
def addOneMakeoption (p : Profile) (makeoption : Text) : Except Raised Profile :=
  applyMakeoption p (if '=' ∉ makeoption then makeoption ++ ['='] else makeoption)

def addMakeoption (p : Profile) (options : List Text) : Except Raised Profile := options.foldlM addOneMakeoption p

/-- `remove_define`'s loop body. -/
def removeOneDefine (p : Profile) (option : Text) : Except Raised Profile :=
  match p.defines.get? option with
  | some _ => .ok { p with defines := p.defines.erase option }
  | none => .error (.keyError option)

def removeDefine (p : Profile) (options : List Text) : Except Raised Profile := options.foldlM removeOneDefine p

/-- `process`'s loop body. -/
def processDirective (p : Profile) : List Text → Except Raised Profile
  | [] => .error .valueError
  | cmd :: args =>
    if cmd = "arch".toList then .ok (setArch p args)
    else if cmd = "define".toList then addDefine p args
    else if cmd = "makeoption".toList then addMakeoption p args
    else if cmd = "nodefine".toList then removeDefine p args
    else if cmd = "nooption".toList then .ok (removeOptions p args)
    else if cmd = "option".toList then .ok (addOptions p args)
    else .ok { p with errors := p.errors ++ ["Unknown directive: ".toList ++ cmd] }

def process (p : Profile) (directives : List (List Text)) : Except Raised Profile := directives.foldlM processDirective p

/-! ## What make options should be -/

/-- A variable's name: nothing in it is an operator or makes one with what follows. -/
structure OptionName where
  text : Text
  noEquals : '=' ∉ text
  noPlus : text.getLast? ≠ some '+'

inductive Makeoption where
  | bare (name : OptionName)
  | assign (name : OptionName) (value : Text)
  | append (name : OptionName) (value : Text)

/-- How the argument is written. -/
def Makeoption.text : Makeoption → Text
  | .bare name => name.text
  | .assign name value => name.text ++ '=' :: value
  | .append name value => name.text ++ '+' :: '=' :: value

/-- What the generated Makefile does with a variable. -/
inductive Setting where
  | assigned (value : Text)
  | appended (value : Text)
  deriving DecidableEq

def Setting.plus : Option Setting → Text → Setting
  | some (.assigned old), value => .assigned (old ++ value)
  | some (.appended old), value => .appended (old ++ value)
  | none, value => .appended value

def Makeoption.name : Makeoption → OptionName
  | .bare name => name
  | .assign name _ => name
  | .append name _ => name

/-- What an argument sets its name to; an append makes `plus` of the setting it meets. -/
def Makeoption.setting (plus : Option Setting → Text → Setting) (s : Option Setting) : Makeoption → Setting
  | .bare _ => .assigned []
  | .assign _ value => .assigned value
  | .append _ value => plus s value

def settingStep (plus : Option Setting → Text → Setting) (settings : Text → Option Setting) (arg : Makeoption) :
    Text → Option Setting :=
  Function.update settings arg.name.text (some (arg.setting plus (settings arg.name.text)))

/-- The documentation of the directive, as a fold. -/
def documentedSettings (args : List Makeoption) : Text → Option Setting := args.foldl (settingStep Setting.plus) fun _ => none

def Setting.assigned? : Setting → Option Text
  | .assigned value => some value
  | .appended _ => none

def Setting.appended? : Setting → Option Text
  | .assigned _ => none
  | .appended value => some value

/-- The two dictionaries hold one setting for each name: its value stands in one of them. -/
structure Agrees (p : Profile) (settings : Text → Option Setting) : Prop where
  assigned : ∀ n, p.makeoptions.get? n = (settings n).bind Setting.assigned?
  appended : ∀ n, p.appendmakeoptions.get? n = (settings n).bind Setting.appended?

/-- Nothing was raised, and the dictionaries are the documented ones. -/
def MakeoptionsFollow (args : List Makeoption) : Prop :=
  ∃ p, addMakeoption .new (args.map Makeoption.text) = .ok p ∧ Agrees p (documentedSettings args)

/-- The value is not cut up with the operator. -/
def Readable : Makeoption → Prop
  | .bare _ => True
  | .assign _ value => '=' ∉ value
  | .append _ value => ¬ ['+', '='] <:+: value

def Makeoption.AssignsTo (n : Text) : Makeoption → Prop
  | .bare name => name.text = n
  | .assign name _ => name.text = n
  | .append _ _ => False

/-- What the argument appends to a name. -/
def Makeoption.appendedTo (n : Text) : Makeoption → Option Text
  | .append name value => if name.text = n then some value else none
  | _ => none

/-- The condition on the appends: to a name that is never assigned, all but the last are empty. -/
def NothingPendingLost (args : List Makeoption) : Prop :=
  ∀ n, (∃ arg ∈ args, arg.AssignsTo n) ∨ ∀ value ∈ (args.filterMap (Makeoption.appendedTo n)).dropLast, value = []

/-! ## One argument's setting -/

section SettingStep

variable {plus : Option Setting → Text → Setting} {settings : Text → Option Setting} {arg : Makeoption} {n : Text}

theorem settingStep_of_eq (h : arg.name.text = n) :
    settingStep plus settings arg n = some (arg.setting plus (settings n)) := by
  unfold settingStep
  rw [h, Function.update_self]

theorem settingStep_of_ne (h : arg.name.text ≠ n) : settingStep plus settings arg n = settings n :=
  Function.update_of_ne (Ne.symm h) _ _

theorem Makeoption.AssignsTo.name_eq (h : arg.AssignsTo n) : arg.name.text = n := by
  cases arg with
  | bare name => exact h
  | assign name value => exact h
  | append name value => exact h.elim

theorem Makeoption.appendedTo_of_ne (h : arg.name.text ≠ n) : arg.appendedTo n = none := by
  cases arg with
  | bare name => rfl
  | assign name value => rfl
  | append name value => exact if_neg h

end SettingStep

theorem Setting.assigned?_eq_some {s : Setting} {v : Text} : s.assigned? = some v ↔ s = .assigned v := by
  cases s <;> simp [assigned?]

theorem Setting.appended?_eq_some {s : Setting} {v : Text} : s.appended? = some v ↔ s = .appended v := by
  cases s <;> simp [appended?]

theorem Agrees.assigned_iff {p : Profile} {settings : Text → Option Setting} (h : Agrees p settings) {name value : Text} :
    (name, value) ∈ p.makeoptions.entries ↔ settings name = some (.assigned value) := by
  rw [Dict.mem_entries, h.assigned, Option.bind_eq_some_iff]
  simp only [Setting.assigned?_eq_some, exists_eq_right]

theorem Agrees.appended_iff {p : Profile} {settings : Text → Option Setting} (h : Agrees p settings) {name value : Text} :
    (name, value) ∈ p.appendmakeoptions.entries ↔ settings name = some (.appended value) := by
  rw [Dict.mem_entries, h.appended, Option.bind_eq_some_iff]
  simp only [Setting.appended?_eq_some, exists_eq_right]

/-- No name ends up both assigned and appended. -/
theorem Agrees.not_both {p : Profile} {settings : Text → Option Setting} (h : Agrees p settings) (n : Text) :
    p.makeoptions.get? n = none ∨ p.appendmakeoptions.get? n = none := by
  rw [h.assigned, h.appended]
  cases settings n with
  | none => exact .inl rfl
  | some setting =>
    cases setting with
    | assigned value => exact .inr rfl
    | appended value => exact .inl rfl

/-! ## Taking arguments apart -/

section Parts

variable {n v : Text}

theorem equals_within : ['='] <:+: v ↔ '=' ∈ v := List.singleton_infix_iff ..

theorem split_equals (h : '=' ∉ n) : split ['='] (n ++ '=' :: v) = n :: split ['='] v :=
  split_first (List.cons_ne_nil _ _) (not_begins_of_not_mem rfl h _)

/-- The operator's '+' is no part of one that begins in the name. -/
theorem plusEquals_not_begins (h : '=' ∉ n) {rest : Text} (hrest : rest.head? ≠ some '=') :
    ∀ x y, n = x ++ y → y ≠ [] → ¬ ['+', '='] <+: y ++ rest := by
  intro x y hn hy hpre
  cases y with
  | nil => exact hy rfl
  | cons c y =>
    have htail : ['='] <+: y ++ rest := (List.cons_prefix_cons.mp hpre).2
    cases y with
    | nil =>
      obtain ⟨t, ht⟩ := htail
      rw [List.nil_append] at ht
      rw [← ht] at hrest
      exact hrest rfl
    | cons c' y =>
      have hc : '=' = c' := (List.cons_prefix_cons.mp htail).1
      rw [hn, ← hc] at h
      exact h (List.mem_append_right x (List.mem_cons_of_mem c List.mem_cons_self))

theorem split_plusEquals (h : '=' ∉ n) : split ['+', '='] (n ++ '+' :: '=' :: v) = n :: split ['+', '='] v :=
  split_first (List.cons_ne_nil _ _) (plusEquals_not_begins h (by simp))

theorem unpack_split {sep : Text} (hsep : sep ≠ []) :
    unpack (n :: split sep v) = if sep <:+: v then .error .valueError else .ok (n, v) := by
  by_cases h : sep <:+: v
  · rw [if_pos h]
    have hlength := one_lt_length_split hsep h
    cases hs : split sep v with
    | nil => exact absurd hs (split_ne_nil v)
    | cons a parts =>
      cases parts with
      | nil =>
        rw [hs] at hlength
        exact absurd hlength (by simp)
      | cons b parts => rfl
  · rw [if_neg h, split_of_absent h]
    rfl

end Parts

/-! ## One make option -/

section Options

variable {p p' : Profile} {settings : Text → Option Setting} {name : OptionName} {value n : Text}

theorem plusEquals_within : ['+', '='] <:+: name.text ++ '=' :: value ↔ ['+', '='] <:+: value := by
  constructor
  · intro h
    rcases List.infix_append_iff_ne_nil.mp h with h | h | ⟨l1, l2, h1, h2, he, hs, -⟩
    · exact absurd (h.subset (by simp)) name.noEquals
    · refine (List.infix_cons_iff.mp h).resolve_left ?_
      intro hp
      exact absurd (List.cons_prefix_cons.mp hp).1 (by decide)
    · -- the operator would be made of the name's last character and the '='
      have hl1 : l1 = ['+'] := by
        cases l1 with
        | nil => exact absurd rfl h1
        | cons c l1 =>
          rw [List.cons_append, List.cons.injEq] at he
          obtain ⟨hc, he⟩ := he
          cases l1 with
          | nil => rw [hc]
          | cons c' l1 =>
            rw [List.cons_append, List.cons.injEq] at he
            exact absurd (List.append_eq_nil_iff.mp he.2.symm).2 h2
      obtain ⟨front, hfront⟩ := hs
      rw [hl1] at hfront
      refine absurd ?_ name.noPlus
      rw [← hfront, List.getLast?_concat]
  · intro h
    exact List.infix_append_of_infix_right (List.infix_cons h)

/-- A name alone is assigned the empty value. -/
theorem addOneMakeoption_bare : addOneMakeoption p name.text = applyMakeoption p (name.text ++ ['=']) := by
  unfold addOneMakeoption
  rw [if_pos name.noEquals]

theorem addOneMakeoption_of_equals (h : '=' ∈ n) : addOneMakeoption p n = applyMakeoption p n := by
  unfold addOneMakeoption
  rw [if_neg (not_not.mpr h)]

theorem applyMakeoption_of_plusEquals (h : ['+', '='] <:+: n) : applyMakeoption p n =
    unpack (split ['+', '='] n) >>= fun parts => .ok (appendMakeoption p parts.1 parts.2) := if_pos h

theorem applyMakeoption_of_not (h : ¬ ['+', '='] <:+: n) : applyMakeoption p n =
    unpack (split ['='] n) >>= fun parts => .ok (assignMakeoption p parts.1 parts.2) := if_neg h

theorem applyMakeoption_assign (h : '=' ∉ value) :
    applyMakeoption p (name.text ++ '=' :: value) = .ok (assignMakeoption p name.text value) := by
  have hin : ¬ ['+', '='] <:+: name.text ++ '=' :: value := by
    rw [plusEquals_within]
    intro hi
    exact h (hi.subset (by simp))
  rw [applyMakeoption_of_not hin, split_equals name.noEquals, unpack_split (List.cons_ne_nil _ _),
    if_neg (mt equals_within.mp h)]
  rfl

theorem applyMakeoption_append : applyMakeoption p (name.text ++ '+' :: '=' :: value) =
    if ['+', '='] <:+: value then .error .valueError else .ok (appendMakeoption p name.text value) := by
  have hin : ['+', '='] <:+: name.text ++ '+' :: '=' :: value := ⟨name.text, value, by simp⟩
  rw [applyMakeoption_of_plusEquals hin, split_plusEquals name.noEquals, unpack_split (List.cons_ne_nil _ _)]
  by_cases h : ['+', '='] <:+: value
  · rw [if_pos h, if_pos h]
    rfl
  · rw [if_neg h, if_neg h]
    rfl

/-- No "+=" begins in a name and the '=' behind it. -/
theorem plusEquals_not_begins_name : ∀ x y, name.text ++ ['='] = x ++ y → y ≠ [] → ¬ ['+', '='] <+: y ++ value := by
  intro x y hn hy hpre
  obtain ⟨y0, c, rfl⟩ := (List.eq_nil_or_concat' y).resolve_left hy
  rw [← List.append_assoc] at hn
  obtain ⟨hname, hc⟩ := List.append_inj' hn rfl
  rw [← hc] at hpre
  cases y0 with
  | nil => exact absurd (List.cons_prefix_cons.mp hpre).1 (by decide)
  | cons c0 y0 =>
    rw [List.cons_append, List.cons_append, List.cons_prefix_cons] at hpre
    obtain ⟨hplus, hpre⟩ := hpre
    cases y0 with
    | nil =>
      refine name.noPlus ?_
      rw [hname, ← hplus, List.getLast?_concat]
    | cons c1 y0 =>
      have hequals : '=' = c1 := (List.cons_prefix_cons.mp hpre).1
      refine name.noEquals ?_
      rw [hname, ← hequals]
      simp

/-- A value with an '=' in it: an exception, or an append to a name with an '=' in it. -/
theorem applyMakeoption_equals (h : '=' ∈ value)
    (hp : applyMakeoption p (name.text ++ '=' :: value) = .ok p') :
    ∃ n v, '=' ∈ n ∧ p' = appendMakeoption p n v := by
  by_cases hin : ['+', '='] <:+: name.text ++ '=' :: value
  · have hsplit : split ['+', '='] (name.text ++ '=' :: value) =
        (split ['+', '='] value).modifyHead (name.text ++ ['='] ++ ·) := by
      rw [List.append_cons]
      exact split_append plusEquals_not_begins_name
    rw [applyMakeoption_of_plusEquals hin, hsplit] at hp
    cases hs : split ['+', '='] value with
    | nil => exact absurd hs (split_ne_nil value)
    | cons a parts =>
      rw [hs, List.modifyHead_cons] at hp
      cases parts with
      | nil => cases hp
      | cons b parts =>
        cases parts with
        | cons c parts => cases hp
        | nil =>
          cases hp
          exact ⟨_, b, by simp, rfl⟩
  · rw [applyMakeoption_of_not hin, split_equals name.noEquals, unpack_split (List.cons_ne_nil _ _),
      if_pos (equals_within.mpr h)] at hp
    cases hp

/-! ## The dictionaries and the settings

Each dictionary holds one kind of setting, which `part` picks. A change of one name's
setting changes it, takes it out, or has it untouched. -/

section Part

variable {d : Dict Text Text} {part : Setting → Option Text} {setting : Setting}

theorem set_part (h : ∀ k, d.get? k = (settings k).bind part) (n : Text) (hs : part setting = some value) :
    ∀ k, (d.set n value).get? k = (Function.update settings n (some setting) k).bind part := by
  intro k
  rw [Dict.get?_set, Function.update_apply, h]
  by_cases hk : k = n
  · rw [if_pos hk, if_pos hk]
    exact hs.symm
  · rw [if_neg hk, if_neg hk]

theorem erase_part (h : ∀ k, d.get? k = (settings k).bind part) (n : Text) (hs : part setting = none) :
    ∀ k, (d.erase n).get? k = (Function.update settings n (some setting) k).bind part := by
  intro k
  rw [Dict.get?_erase, Function.update_apply, h]
  by_cases hk : k = n
  · rw [if_pos hk, if_pos hk]
    exact hs.symm
  · rw [if_neg hk, if_neg hk]

theorem keep_part (h : ∀ k, d.get? k = (settings k).bind part) {n : Text} (hn : d.get? n = none)
    (hs : part setting = none) : ∀ k, d.get? k = (Function.update settings n (some setting) k).bind part := by
  intro k
  rw [Function.update_apply]
  by_cases hk : k = n
  · rw [if_pos hk, hk, hn]
    exact hs.symm
  · rw [if_neg hk]
    exact h k

end Part

theorem Agrees.assign (h : Agrees p settings) (n value : Text) :
    Agrees (assignMakeoption p n value) (Function.update settings n (some (.assigned value))) :=
  ⟨set_part h.assigned n rfl, erase_part h.appended n rfl⟩

theorem Agrees.setAssigned (h : Agrees p settings) {n : Text} (hn : p.appendmakeoptions.get? n = none) (value : Text) :
    Agrees { p with makeoptions := p.makeoptions.set n value }
      (Function.update settings n (some (.assigned value))) :=
  ⟨set_part h.assigned n rfl, keep_part h.appended hn rfl⟩

theorem Agrees.setAppended (h : Agrees p settings) {n : Text} (hn : p.makeoptions.get? n = none) (value : Text) :
    Agrees { p with appendmakeoptions := p.appendmakeoptions.set n value }
      (Function.update settings n (some (.appended value))) :=
  ⟨keep_part h.assigned hn rfl, set_part h.appended n rfl⟩

/-- The code's own append: it drops a pending value. -/
def Setting.overwrite : Option Setting → Text → Setting
  | some (.assigned old), value => .assigned (old ++ value)
  | _, value => .appended value

theorem Agrees.append (h : Agrees p settings) (n value : Text) :
    Agrees (appendMakeoption p n value) (Function.update settings n (some (Setting.overwrite (settings n) value))) := by
  have hassigned := h.assigned n
  have happended := h.appended n
  unfold appendMakeoption
  cases hs : settings n with
  | none =>
    rw [hs] at hassigned
    rw [hassigned]
    exact h.setAppended hassigned value
  | some setting =>
    rw [hs] at hassigned happended
    rw [hassigned]
    cases setting with
    | assigned old => exact h.setAssigned happended (old ++ value)
    | appended old => exact h.setAppended hassigned value

/-- The dictionaries determine the settings. -/
theorem Agrees.unique {settings' : Text → Option Setting} (h : Agrees p settings) (h' : Agrees p settings') :
    settings = settings' := by
  funext n
  have hassigned := (h.assigned n).symm.trans (h'.assigned n)
  have happended := (h.appended n).symm.trans (h'.appended n)
  cases hs : settings n with
  | none =>
    cases hs' : settings' n with
    | none => rfl
    | some t => cases t <;> simp [hs, hs', Setting.assigned?, Setting.appended?] at hassigned happended
  | some s =>
    cases hs' : settings' n with
    | none => cases s <;> simp [hs, hs', Setting.assigned?, Setting.appended?] at hassigned happended
    | some t => cases s <;> cases t <;> simp_all [Setting.assigned?, Setting.appended?]

/-- What an argument that can be read does. -/
def meant (p : Profile) : Makeoption → Profile
  | .bare name => assignMakeoption p name.text []
  | .assign name value => assignMakeoption p name.text value
  | .append name value => appendMakeoption p name.text value

theorem addOneMakeoption_readable {arg : Makeoption} (hr : Readable arg) : addOneMakeoption p arg.text = .ok (meant p arg) := by
  cases arg with
  | bare name => exact addOneMakeoption_bare.trans (applyMakeoption_assign List.not_mem_nil)
  | assign name value => exact (addOneMakeoption_of_equals List.mem_append_cons_self).trans (applyMakeoption_assign hr)
  | append name value =>
    have hequals : '=' ∈ (Makeoption.append name value).text := by simp [Makeoption.text]
    exact (addOneMakeoption_of_equals hequals).trans (applyMakeoption_append.trans (if_neg hr))

theorem Agrees.meant (h : Agrees p settings) (arg : Makeoption) :
    Agrees (meant p arg) (settingStep Setting.overwrite settings arg) := by
  cases arg with
  | bare name => exact h.assign name.text []
  | assign name value => exact h.assign name.text value
  | append name value => exact h.append name.text value

/-- One that cannot be read raises an exception or is an append to no name. -/
theorem addOneMakeoption_unreadable {arg : Makeoption} (hr : ¬ Readable arg) (hp : addOneMakeoption p arg.text = .ok p') :
    ∃ n v, '=' ∈ n ∧ p' = appendMakeoption p n v := by
  cases arg with
  | bare name => exact absurd trivial hr
  | assign name value =>
    have hrun : addOneMakeoption p (name.text ++ '=' :: value) = applyMakeoption p (name.text ++ '=' :: value) :=
      addOneMakeoption_of_equals (by simp)
    exact applyMakeoption_equals (not_not.mp hr) (hrun.symm.trans hp)
  | append name value =>
    have hrun : addOneMakeoption p (name.text ++ '+' :: '=' :: value) = .error .valueError :=
      (addOneMakeoption_of_equals (by simp)).trans (applyMakeoption_append.trans (if_pos (not_not.mp hr)))
    cases hrun.symm.trans hp

/-! ## An entry that no argument names -/

/-- Only names are assigned. -/
def NamesAssigned (p : Profile) : Prop := ∀ n, '=' ∈ n → p.makeoptions.get? n = none

/-- Something is appended to what is no name. -/
def Spoiled (p : Profile) : Prop := ∃ n, '=' ∈ n ∧ p.appendmakeoptions.get? n ≠ none

theorem NamesAssigned.assign (h : NamesAssigned p) (hn : '=' ∉ n) : NamesAssigned (assignMakeoption p n value) := by
  intro k hk
  have hne : k ≠ n := ne_of_mem_of_not_mem' hk hn
  refine (Dict.get?_set _ _ _ _).trans ?_
  rw [if_neg hne, h k hk]

theorem Spoiled.assign (h : Spoiled p) (hn : '=' ∉ n) : Spoiled (assignMakeoption p n value) := by
  obtain ⟨k, hk, hget⟩ := h
  have hne : k ≠ n := ne_of_mem_of_not_mem' hk hn
  refine ⟨k, hk, ?_⟩
  show (p.appendmakeoptions.erase n).get? k ≠ none
  rwa [Dict.get?_erase, if_neg hne]

theorem NamesAssigned.append (h : NamesAssigned p) : NamesAssigned (appendMakeoption p n value) := by
  unfold appendMakeoption
  cases hg : p.makeoptions.get? n with
  | none => exact h
  | some old =>
    intro k hk
    refine (Dict.get?_set _ _ _ _).trans ?_
    rw [if_neg, h k hk]
    rintro rfl
    rw [h k hk] at hg
    cases hg

theorem Spoiled.append (h : Spoiled p) : Spoiled (appendMakeoption p n value) := by
  unfold appendMakeoption
  cases p.makeoptions.get? n with
  | some old => exact h
  | none =>
    obtain ⟨k, hk, hget⟩ := h
    refine ⟨k, hk, ?_⟩
    show (p.appendmakeoptions.set n value).get? k ≠ none
    rw [Dict.get?_set]
    by_cases he : k = n
    · rw [if_pos he]
      exact Option.some_ne_none value
    · rwa [if_neg he]

theorem NamesAssigned.spoiled (h : NamesAssigned p) (hn : '=' ∈ n) : Spoiled (appendMakeoption p n value) := by
  unfold appendMakeoption
  rw [h n hn]
  refine ⟨n, hn, ?_⟩
  show (p.appendmakeoptions.set n value).get? n ≠ none
  rw [Dict.get?_set, if_pos rfl]
  exact Option.some_ne_none value

/-- One argument that raises nothing. -/
theorem addOneMakeoption_step (h : NamesAssigned p) {arg : Makeoption} (hp : addOneMakeoption p arg.text = .ok p') :
    NamesAssigned p' ∧ (Spoiled p ∨ ¬ Readable arg → Spoiled p') := by
  by_cases hr : Readable arg
  · have hp' : meant p arg = p' := Except.ok.inj ((addOneMakeoption_readable hr).symm.trans hp)
    rw [← hp', or_iff_left (not_not.mpr hr)]
    cases arg with
    | bare name => exact ⟨h.assign name.noEquals, fun hs => hs.assign name.noEquals⟩
    | assign name value => exact ⟨h.assign name.noEquals, fun hs => hs.assign name.noEquals⟩
    | append name value => exact ⟨h.append, fun hs => hs.append⟩
  · obtain ⟨n, v, hn, rfl⟩ := addOneMakeoption_unreadable hr hp
    exact ⟨h.append, fun _ => h.spoiled hn⟩

/-! ## Every sequence of make options -/

/-- The code's own fold. -/
def codedSettings (args : List Makeoption) : Text → Option Setting :=
  args.foldl (settingStep Setting.overwrite) fun _ => none

theorem addMakeoption_readable {args : List Makeoption} (hr : ∀ arg ∈ args, Readable arg) (h : Agrees p settings) :
    ∃ p', addMakeoption p (args.map Makeoption.text) = .ok p' ∧
      Agrees p' (args.foldl (settingStep Setting.overwrite) settings) := by
  unfold addMakeoption
  induction args generalizing p settings with
  | nil => exact ⟨p, rfl, h⟩
  | cons arg args ih =>
    rw [List.map_cons, List.foldlM_cons, addOneMakeoption_readable (hr arg List.mem_cons_self)]
    exact ih (fun a ha => hr a (List.mem_cons_of_mem arg ha)) (h.meant arg)

theorem addMakeoption_spoiled {args : List Makeoption} (hn : NamesAssigned p)
    (h : Spoiled p ∨ ∃ arg ∈ args, ¬ Readable arg) (hp : addMakeoption p (args.map Makeoption.text) = .ok p') :
    Spoiled p' := by
  unfold addMakeoption at hp
  induction args generalizing p with
  | nil =>
    cases hp
    exact h.resolve_right (by simp)
  | cons arg args ih =>
    rw [List.map_cons, List.foldlM_cons] at hp
    cases h1 : addOneMakeoption p arg.text with
    | error e =>
      rw [h1] at hp
      cases hp
    | ok p1 =>
      rw [h1] at hp
      obtain ⟨hn1, hs1⟩ := addOneMakeoption_step hn h1
      refine ih hn1 ?_ hp
      rw [List.exists_mem_cons_iff, ← or_assoc] at h
      exact h.imp_left hs1

/-- No setting is of what is no name. -/
theorem foldl_settingStep_equals (plus : Option Setting → Text → Setting) (args : List Makeoption) (h : '=' ∈ n)
    (hs : settings n = none) : args.foldl (settingStep plus) settings n = none := by
  induction args generalizing settings with
  | nil => exact hs
  | cons arg args ih =>
    have hne : arg.name.text ≠ n := (ne_of_mem_of_not_mem' h arg.name.noEquals).symm
    exact ih ((settingStep_of_ne hne).trans hs)

theorem Spoiled.not_agrees (h : Spoiled p) (args : List Makeoption) : ¬ Agrees p (documentedSettings args) := by
  intro ha
  obtain ⟨n, hn, hget⟩ := h
  refine hget ?_
  have hnone : documentedSettings args n = none := foldl_settingStep_equals Setting.plus args hn rfl
  rw [ha.appended, hnone]
  rfl

/-- The dictionaries are the documented ones if the arguments can be read and the code's
    own fold is the documented one. -/
theorem makeoptionsFollow_iff_coded (args : List Makeoption) :
    MakeoptionsFollow args ↔ (∀ arg ∈ args, Readable arg) ∧ codedSettings args = documentedSettings args := by
  have hnew : Agrees .new fun _ => none := ⟨fun _ => rfl, fun _ => rfl⟩
  constructor
  · intro h
    obtain ⟨p, hp, ha⟩ := h
    have hr : ∀ arg ∈ args, Readable arg := by
      intro arg harg
      by_contra hnot
      have hs : Spoiled p := addMakeoption_spoiled (fun _ _ => rfl) (.inr ⟨arg, harg, hnot⟩) hp
      exact hs.not_agrees args ha
    obtain ⟨p', hp', ha'⟩ := addMakeoption_readable hr hnew
    cases hp.symm.trans hp'
    exact ⟨hr, ha'.unique ha⟩
  · intro h
    obtain ⟨hr, hfold⟩ := h
    obtain ⟨p, hp, ha⟩ := addMakeoption_readable hr hnew
    refine ⟨p, hp, ?_⟩
    rw [← hfold]
    exact ha

/-! ## One name's setting -/

/-- Once a name is assigned, both folds concatenate what is appended to it. -/
theorem settings_of_assigned {args : List Makeoption} (h : ∃ arg ∈ args, arg.AssignsTo n) :
    ∃ v, codedSettings args n = some (.assigned v) ∧ documentedSettings args n = some (.assigned v) := by
  unfold codedSettings documentedSettings
  induction args using List.reverseRecOn with
  | nil => simp at h
  | append_singleton args arg ih =>
    rw [List.foldl_concat, List.foldl_concat]
    have hearlier : ¬ arg.AssignsTo n → ∃ a ∈ args, a.AssignsTo n := by
      intro hnot
      obtain ⟨a, ha, hto⟩ := h
      rcases List.mem_append.mp ha with ha | ha
      · exact ⟨a, ha, hto⟩
      · rw [List.mem_singleton.mp ha] at hto
        exact absurd hto hnot
    by_cases hn : arg.name.text = n
    · cases arg with
      | bare name => exact ⟨[], settingStep_of_eq hn, settingStep_of_eq hn⟩
      | assign name value => exact ⟨value, settingStep_of_eq hn, settingStep_of_eq hn⟩
      | append name value =>
        obtain ⟨v, hc, hd⟩ := ih (hearlier id)
        refine ⟨v ++ value, (settingStep_of_eq hn).trans ?_, (settingStep_of_eq hn).trans ?_⟩
        · rw [hc]
          rfl
        · rw [hd]
          rfl
    · obtain ⟨v, hc, hd⟩ := ih (hearlier (mt Makeoption.AssignsTo.name_eq hn))
      exact ⟨v, (settingStep_of_ne hn).trans hc, (settingStep_of_ne hn).trans hd⟩

/-- Of a name that is never assigned only the appends count. -/
theorem settings_of_unassigned (plus : Option Setting → Text → Setting) {args : List Makeoption}
    (h : ∀ arg ∈ args, ¬ arg.AssignsTo n) : args.foldl (settingStep plus) settings n =
      (args.filterMap (Makeoption.appendedTo n)).foldl (fun s value => some (plus s value)) (settings n) := by
  induction args generalizing settings with
  | nil => rfl
  | cons arg args ih =>
    have hrest : ∀ a ∈ args, ¬ a.AssignsTo n := fun a ha => h a (List.mem_cons_of_mem arg ha)
    rw [List.foldl_cons, ih hrest]
    by_cases hn : arg.name.text = n
    · cases arg with
      | bare name => exact absurd hn (h _ List.mem_cons_self)
      | assign name value => exact absurd hn (h _ List.mem_cons_self)
      | append name value =>
        have happends : (Makeoption.append name value).appendedTo n = some value := if_pos hn
        rw [List.filterMap_cons_some happends, List.foldl_cons, settingStep_of_eq hn]
        rfl
    · rw [List.filterMap_cons_none (Makeoption.appendedTo_of_ne hn), settingStep_of_ne hn]

theorem foldl_plus (values : List Text) (last : Text) :
    (values ++ [last]).foldl (fun s value => some (Setting.plus s value)) none = some (.appended (values.flatten ++ last)) := by
  induction values using List.reverseRecOn generalizing last with
  | nil => rfl
  | append_singleton values value ih =>
    rw [List.foldl_concat, ih, List.flatten_concat]
    rfl

theorem foldl_overwrite (values : List Text) (last : Text) :
    (values ++ [last]).foldl (fun s value => some (Setting.overwrite s value)) none = some (.appended last) := by
  induction values using List.reverseRecOn generalizing last with
  | nil => rfl
  | append_singleton values value ih =>
    rw [List.foldl_concat, ih]
    rfl

/-- Appends alone: the code keeps the last, which is all there is if the others are empty. -/
theorem foldl_overwrite_eq_plus_iff (values : List Text) :
    values.foldl (fun s value => some (Setting.overwrite s value)) none =
        values.foldl (fun s value => some (Setting.plus s value)) none ↔ ∀ value ∈ values.dropLast, value = [] := by
  cases values using List.reverseRecOn with
  | nil => simp
  | append_singleton values last =>
    rw [foldl_overwrite, foldl_plus, List.dropLast_concat, ← List.flatten_eq_nil_iff, Option.some.injEq,
      Setting.appended.injEq, List.self_eq_append_left]

theorem coded_eq_documented_iff (args : List Makeoption) :
    codedSettings args = documentedSettings args ↔ NothingPendingLost args := by
  rw [funext_iff]
  refine forall_congr' fun n => ?_
  by_cases h : ∃ arg ∈ args, arg.AssignsTo n
  · obtain ⟨v, hc, hd⟩ := settings_of_assigned h
    exact iff_of_true (hc.trans hd.symm) (.inl h)
  · rw [or_iff_right h, ← foldl_overwrite_eq_plus_iff]
    have hnot : ∀ arg ∈ args, ¬ arg.AssignsTo n := fun arg harg hto => h ⟨arg, harg, hto⟩
    unfold codedSettings documentedSettings
    rw [settings_of_unassigned Setting.overwrite hnot, settings_of_unassigned Setting.plus hnot]

end Options

/-- For every sequence of make options: nothing is raised and the dictionaries are what the
    documentation says exactly if each value can be read and no append is lost. -/
theorem makeoptions_fold_iff (args : List Makeoption) :
    MakeoptionsFollow args ↔ (∀ arg ∈ args, Readable arg) ∧ NothingPendingLost args := by
  rw [makeoptionsFollow_iff_coded, coded_eq_documented_iff]

def cflags : OptionName := ⟨"CFLAGS".toList, by decide, by decide⟩

/-- Of "CFLAGS+=a" and "CFLAGS+=b" only the last is left, and "CFLAGS=a=b" raises an exception. -/
theorem an_append_and_a_value_are_lost :
    ¬ MakeoptionsFollow [.append cflags "a".toList, .append cflags "b".toList] ∧
      ¬ MakeoptionsFollow [.assign cflags "a=b".toList] := by
  constructor
  · intro h
    rcases h with ⟨p, hp, ha⟩
    have hrun : (addMakeoption .new ["CFLAGS+=a".toList, "CFLAGS+=b".toList]).map
        (fun p => p.appendmakeoptions.get? "CFLAGS".toList) = .ok (some "b".toList) := by decide
    have hp' : addMakeoption .new ["CFLAGS+=a".toList, "CFLAGS+=b".toList] = .ok p := hp
    rw [hp'] at hrun
    have hlast := (Except.ok.inj hrun).symm.trans (ha.appended "CFLAGS".toList)
    revert hlast
    decide
  · intro h
    rcases h with ⟨p, hp, -⟩
    have hrun : addMakeoption .new ["CFLAGS=a=b".toList] = .error .valueError := rfl
    cases hrun.symm.trans hp

/-! ## What defines should be -/

/-- A word of a define or a nodefine directive. -/
inductive DefineWord where
  | define (text : Text)
  | nodefine (name : Text)

/-- The text before the first '='. -/
def DefineWord.name : DefineWord → Text
  | .define text => text.takeWhile (· ≠ '=')
  | .nodefine name => name

/-- The text behind the first '='. -/
def DefineWord.value : DefineWord → Option Text
  | .define text => some (text.dropWhile (· ≠ '=')).tail
  | .nodefine _ => none

inductive DefineDirective where
  | define (args : List Text)
  | nodefine (names : List Text)

/-- As `parse` yields it. -/
def DefineDirective.tokens : DefineDirective → List Text
  | .define args => "define".toList :: args
  | .nodefine names => "nodefine".toList :: names

def DefineDirective.words : DefineDirective → List DefineWord
  | .define args => args.map .define
  | .nodefine names => names.map .nodefine

/-- The last word about a name decides. -/
def documentedDefines (words : List DefineWord) (n : Text) : Option Text :=
  (words.filter fun w => w.name = n).getLast?.bind DefineWord.value

/-- Nothing is raised, and the macros are the documented ones. -/
def DefinesFollow (directives : List DefineDirective) : Prop :=
  ∃ p, process .new (directives.map DefineDirective.tokens) = .ok p ∧
    ∀ n, p.defines.get? n = documentedDefines (directives.flatMap DefineDirective.words) n

/-- The condition on a word and the macros it meets. -/
def PlainDefine (defines : Text → Option Text) : DefineWord → Prop
  | .define text => text.count '=' ≤ 1
  | .nodefine name => defines name ≠ none

/-! ## One define -/

theorem documentedDefines_concat (words : List DefineWord) (w : DefineWord) :
    documentedDefines (words ++ [w]) = Function.update (documentedDefines words) w.name w.value := by
  funext n
  unfold documentedDefines
  rw [List.filter_append, Function.update_apply]
  by_cases h : n = w.name
  · rw [if_pos h, List.filter_cons_of_pos (by simp [h]), List.filter_nil, List.getLast?_concat]
    rfl
  · rw [if_neg h, List.filter_cons_of_neg (by simpa using Ne.symm h), List.filter_nil, List.append_nil]

def oneDefine (p : Profile) : DefineWord → Except Raised Profile
  | .define text => addOneDefine p text
  | .nodefine name => removeOneDefine p name

theorem processDirective_words (p : Profile) (d : DefineDirective) :
    processDirective p d.tokens = d.words.foldlM oneDefine p := by
  cases d with
  | define args =>
    show addDefine p args = (args.map DefineWord.define).foldlM oneDefine p
    rw [List.foldlM_map]
    rfl
  | nodefine names =>
    show removeDefine p names = (names.map DefineWord.nodefine).foldlM oneDefine p
    rw [List.foldlM_map]
    rfl

theorem process_words (p : Profile) (directives : List DefineDirective) :
    process p (directives.map DefineDirective.tokens) = (directives.flatMap DefineDirective.words).foldlM oneDefine p := by
  unfold process
  induction directives generalizing p with
  | nil => rfl
  | cons d directives ih =>
    rw [List.map_cons, List.foldlM_cons, List.flatMap_cons, List.foldlM_append, processDirective_words]
    congr 1
    funext p'
    exact ih p'

section Defines

theorem not_ok_of_error (e : Raised) : ¬ ∃ p' : Profile, (Except.error e : Except Raised Profile) = .ok p' := by
  intro h
  rcases h with ⟨p', hp⟩
  cases hp

variable {p p' : Profile} {defines : Text → Option Text} {w : DefineWord}

theorem set_defines (h : ∀ n, p.defines.get? n = defines n) (name value : Text) :
    ∀ n, (p.defines.set name value).get? n = Function.update defines name (some value) n := by
  intro n
  rw [Dict.get?_set, Function.update_apply, h]

theorem define_parts (n v : Text) (h : '=' ∉ n) :
    (DefineWord.define (n ++ '=' :: v)).name = n ∧ (DefineWord.define (n ++ '=' :: v)).value = some v := by
  constructor
  · exact takeWhile_ne_append h v
  · show some ((n ++ '=' :: v).dropWhile (· ≠ '=')).tail = some v
    rw [dropWhile_ne_append h, List.tail_cons]

theorem addOneDefine_equals (n v : Text) (h : '=' ∉ n) : addOneDefine p (n ++ '=' :: v) =
    if '=' ∈ v then .error .valueError else .ok { p with defines := p.defines.set n v } := by
  unfold addOneDefine
  rw [if_neg (by simp), split_equals h, unpack_split (List.cons_ne_nil _ _)]
  by_cases hv : '=' ∈ v
  · rw [if_pos (equals_within.mpr hv), if_pos hv]
    rfl
  · rw [if_neg (mt equals_within.mp hv), if_neg hv]
    rfl

/-- A word that raises nothing does what it should. -/
theorem oneDefine_agrees (h : ∀ n, p.defines.get? n = defines n) (hp : oneDefine p w = .ok p') :
    ∀ n, p'.defines.get? n = Function.update defines w.name w.value n := by
  cases w with
  | define text =>
    by_cases ht : '=' ∈ text
    · obtain ⟨n, v, rfl, hn⟩ := List.eq_append_cons_of_mem ht
      obtain ⟨hname, hvalue⟩ := define_parts n v hn
      rw [hname, hvalue]
      have hrun := (addOneDefine_equals (p := p) n v hn).symm.trans hp
      by_cases hv : '=' ∈ v
      · rw [if_pos hv] at hrun
        cases hrun
      · rw [if_neg hv] at hrun
        cases hrun
        exact set_defines h n v
    · have hrun : addOneDefine p text = .ok { p with defines := p.defines.set text [] } := if_pos ht
      cases hrun.symm.trans hp
      have hall : ∀ c ∈ text, decide (c ≠ '=') = true := by
        intro c hc
        rw [decide_eq_true_eq]
        rintro rfl
        exact ht hc
      have hname : (DefineWord.define text).name = text := List.takeWhile_eq_self_iff.mpr hall
      have hvalue : (DefineWord.define text).value = some [] := by
        show some (text.dropWhile (· ≠ '=')).tail = some []
        rw [List.dropWhile_eq_nil_iff.mpr hall]
        rfl
      rw [hname, hvalue]
      exact set_defines h text []
  | nodefine name =>
    have hrun : removeOneDefine p name = .ok p' := hp
    unfold removeOneDefine at hrun
    cases hg : p.defines.get? name with
    | none =>
      rw [hg] at hrun
      cases hrun
    | some value =>
      rw [hg] at hrun
      cases hrun
      intro n
      exact (Dict.get?_erase _ _ _).trans (by rw [Function.update_apply, h]; rfl)

theorem oneDefine_ok_iff (h : ∀ n, p.defines.get? n = defines n) :
    (∃ p', oneDefine p w = .ok p') ↔ PlainDefine defines w := by
  cases w with
  | define text =>
    by_cases ht : '=' ∈ text
    · obtain ⟨n, v, rfl, hn⟩ := List.eq_append_cons_of_mem ht
      have hcount : PlainDefine defines (.define (n ++ '=' :: v)) ↔ '=' ∉ v := by
        show (n ++ '=' :: v).count '=' ≤ 1 ↔ '=' ∉ v
        rw [List.count_append, List.count_eq_zero.mpr hn, List.count_cons_self, ← List.count_eq_zero]
        omega
      have hrun : oneDefine p (.define (n ++ '=' :: v)) = _ := addOneDefine_equals n v hn
      rw [hcount, hrun]
      by_cases hv : '=' ∈ v
      · rw [if_pos hv]
        exact iff_of_false (not_ok_of_error _) (not_not.mpr hv)
      · rw [if_neg hv]
        exact iff_of_true ⟨_, rfl⟩ hv
    · have hrun : oneDefine p (.define text) = .ok { p with defines := p.defines.set text [] } := if_pos ht
      have hcount : text.count '=' ≤ 1 := by
        rw [List.count_eq_zero.mpr ht]
        exact Nat.zero_le 1
      exact iff_of_true ⟨_, hrun⟩ hcount
  | nodefine name =>
    show (∃ p', removeOneDefine p name = .ok p') ↔ defines name ≠ none
    unfold removeOneDefine
    rw [← h]
    cases p.defines.get? name with
    | none => exact iff_of_false (not_ok_of_error _) (not_not.mpr rfl)
    | some value => exact iff_of_true ⟨_, rfl⟩ (Option.some_ne_none value)

end Defines

/-! ## Every sequence of directives -/

theorem foldl_documentedDefines (words : List DefineWord) :
    words.foldl (fun defines w => Function.update defines w.name w.value) (fun _ => none) = documentedDefines words := by
  induction words using List.reverseRecOn with
  | nil => rfl
  | append_singleton words w ih => rw [List.foldl_concat, ih, documentedDefines_concat]

/-- The macros of a profile that was processed are the documented ones. -/
theorem process_defines {directives : List DefineDirective} {p : Profile}
    (hp : process .new (directives.map DefineDirective.tokens) = .ok p) (n : Text) :
    p.defines.get? n = documentedDefines (directives.flatMap DefineDirective.words) n := by
  rw [process_words] at hp
  rw [← foldl_documentedDefines]
  exact foldlM_follows (f := oneDefine) (g := fun defines w => Function.update defines w.name w.value)
    (R := fun p defines => ∀ n, p.defines.get? n = defines n) (fun _ _ _ _ h hp => oneDefine_agrees h hp)
    (t := fun _ => none) (fun _ => rfl) hp n

/-- Nothing is raised exactly if each word is plain where it stands. -/
theorem process_ok_iff (directives : List DefineDirective) :
    (∃ p, process .new (directives.map DefineDirective.tokens) = .ok p) ↔
      ∀ k w, (directives.flatMap DefineDirective.words)[k]? = some w →
        PlainDefine (documentedDefines ((directives.flatMap DefineDirective.words).take k)) w := by
  have hrun := foldlM_follows_iff (f := oneDefine) (g := fun defines w => Function.update defines w.name w.value)
    (R := fun p defines => ∀ n, p.defines.get? n = defines n) (N := PlainDefine)
    (fun _ _ _ _ h hp => oneDefine_agrees h hp) (fun _ _ _ h => oneDefine_ok_iff h)
    (s := .new) (t := fun _ => none) (fun _ => rfl) (directives.flatMap DefineDirective.words)
  unfold EachStep after at hrun
  simp only [foldl_documentedDefines] at hrun
  rw [← hrun, ← process_words]
  exact exists_congr fun p => (and_iff_left_of_imp process_defines).symm

/-- For every sequence of define and nodefine directives: nothing is raised, and the macros
    are those whose last word is a define, with the text behind its first '=', exactly if no
    define holds a second '=' and each nodefine names a macro that is defined there. -/
theorem defines_fold_iff (directives : List DefineDirective) :
    DefinesFollow directives ↔ ∀ k w, (directives.flatMap DefineDirective.words)[k]? = some w →
      PlainDefine (documentedDefines ((directives.flatMap DefineDirective.words).take k)) w := by
  rw [← process_ok_iff]
  exact exists_congr fun p => and_iff_left_of_imp process_defines

/-- "nodefine DEBUG" raises KeyError where DEBUG is not defined, and "define FLAGS=-DX=1" ValueError. -/
theorem directives_raise : ¬ DefinesFollow [.nodefine ["DEBUG".toList]] ∧ ¬ DefinesFollow [.define ["FLAGS=-DX=1".toList]] := by
  constructor
  · intro h
    rcases h with ⟨p, hp, -⟩
    have hrun : process .new ["nodefine".toList :: ["DEBUG".toList]] = .error (.keyError "DEBUG".toList) := rfl
    cases hrun.symm.trans hp
  · intro h
    rcases h with ⟨p, hp, -⟩
    have hrun : process .new ["define".toList :: ["FLAGS=-DX=1".toList]] = .error .valueError := rfl
    cases hrun.symm.trans hp

end NativeOS.Tools.Kcons
