/-
  NativeOS.Device.Modifiers — SHIFT, CTRL and ALT, and the keys held down.

  `decode_scancode` keeps the modifiers as three bits of the selected context's
  `kbd_status`. A left and a right key share each bit: the release of one clears it while
  the other is still down. And each context has a word of its own: a function key pressed
  with SHIFT held leaves the bit behind, and brings up whatever the other context was left
  with. The codes come one at a time here (`deliver`): the interrupts of one code, then a
  `vtcon_read` that decodes it.

  Proved:
  * `modifiers_track_keys` — the bits are the keys held down in every run whose releases come
    with the partner key up, and whose switches find the same modifiers in both contexts;
    any other step makes them differ.
  * `two_shift_keys_release_each_other`, `a_modifier_is_left_in_its_context` — from boot.
-/

import NativeOS.Device.KeyboardProofs

namespace NativeOS.Device.Vtcon

open NativeOS.Lib
open NativeOS.Stdkern
open NativeOS.Stdkern.Ring (Ringbuf ringbufWrite unread)

/-! ## The keys -/

inductive Modifier where
  | shift
  | ctrl
  | alt
  deriving DecidableEq

/-- Which bit of the keyboard state. -/
def Modifier.idx : Modifier → Nat
  | .shift => 0
  | .ctrl => 1
  | .alt => 2

def Modifier.mask : Modifier → Nat
  | .shift => kbdModShift
  | .ctrl => kbdModCtrl
  | .alt => kbdModAlt

/-- A physical key: the left or the right one. -/
structure ModKey where
  mod : Modifier
  right : Bool
  deriving DecidableEq

def ModKey.partner (k : ModKey) : ModKey := ⟨k.mod, !k.right⟩

/-- Keycodes of single bytes, and of the pairs. -/
def singleModKeys : List (Nat × ModKey) :=
  [(0x1D, ⟨.ctrl, false⟩), (0x2A, ⟨.shift, false⟩), (0x36, ⟨.shift, true⟩), (0x38, ⟨.alt, false⟩)]

def pairModKeys : List (Nat × ModKey) := [(0x1D, ⟨.ctrl, true⟩), (0x38, ⟨.alt, true⟩)]

/-- A single byte other than the prefix, or a pair. -/
def Complete (code : List UInt8) : Prop := (∃ b, code = [b] ∧ b ≠ 0xE0) ∨ ∃ b, code = [0xE0, b]

/-- The key without the bit that says it was released. -/
def keycodeOf (b : UInt8) : Nat := b.toNat &&& 0x7F

def released (b : UInt8) : Bool := b.toNat &&& 0x80 != 0

/-- The modifier key of a code, and whether it was released. -/
def modKeyOf : List UInt8 → Option (ModKey × Bool)
  | [b] => (singleModKeys.lookup (keycodeOf b)).map fun k => (k, released b)
  | [_, b] => (pairModKeys.lookup (keycodeOf b)).map fun k => (k, released b)
  | _ => none

/-- The context `n - first`, when there is one. -/
def contextFrom (first n : Nat) : Option (Fin 8) := if h : first ≤ n ∧ n < first + 8 then some ⟨n - first, by omega⟩ else none

/-- The context a code switches to: F1 to F8 pressed, or a pair without a case in
    `decode_scancode` that finds one of these keys in the uninitialised `vk`. -/
def switchKey (stale : UInt8) : List UInt8 → Option (Fin 8)
  | [b] => if released b then none else contextFrom 0x3B (keycodeOf b)
  | [_, b] =>
    if released b ∨ (extendedKeys.lookup (keycodeOf b)).isSome then none else contextFrom 243 stale.toNat
  | _ => none

/-! ## Runs -/

/-- Which modifier keys are down. -/
abbrev Held := ModKey → Bool

def Held.type (held : Held) (code : List UInt8) : Held :=
  match modKeyOf code with
  | some (k, up) => Function.update held k (!up)
  | none => held

/-- The interrupts of one code, and a `vtcon_read` for one event: two turns of its loop. -/
def deliver (env : Env) (stale : UInt8) (s : Machine) (code : List UInt8) : Machine :=
  let s1 := turn env stale.toNat (enterRead env (code.foldl keyHandler s) 4) ⟨4, 0, none⟩
  match s1.call with
  | some c => turn env stale.toNat s1 c
  | none => s1

/-- Codes delivered one by one, all of them `ok`. -/
inductive Delivered (env : Env) (ok : Held → Machine → UInt8 → List UInt8 → Prop) (start : Machine) : Held → Machine → Prop
  | start : Delivered env ok start (fun _ => false) start
  | code {held : Held} {s : Machine} (stale : UInt8) {code : List UInt8} : Delivered env ok start held s → Complete code →
      ok held s stale code → Delivered env ok start (held.type code) (deliver env stale s code)

/-- The bits of a state or of an event are the keys held down. -/
def Shows (status : Nat) (held : Held) : Prop :=
  ∀ m : Modifier, status &&& m.mask ≠ 0 ↔ held ⟨m, false⟩ = true ∨ held ⟨m, true⟩ = true

/-- What the next key is decoded with, and what the last event reported. -/
def Tracks (held : Held) (s : Machine) : Prop :=
  Shows s.con.context.kbdStatus held ∧ ∀ kbdev ∈ s.events.getLast?, Shows kbdev.flags held

/-- A release with the other key of the pair up, and a switch to a context with the modifiers of this one. -/
def Benign (held : Held) (s : Machine) (stale : UInt8) (code : List UInt8) : Prop :=
  (∀ k, modKeyOf code = some (k, true) → held k.partner = false) ∧
  ∀ j, switchKey stale code = some j → ∀ m : Modifier,
    (s.con.contexts j).kbdStatus &&& m.mask ≠ 0 ↔ s.con.context.kbdStatus &&& m.mask ≠ 0

/-! ## Bits -/

theorem mask_eq (m : Modifier) : m.mask = 2 ^ m.idx := by
  cases m <;> rfl

theorem Modifier.idx_lt (m : Modifier) : m.idx < 3 := by
  cases m <;> decide

theorem idx_inj {m m' : Modifier} : m.idx = m'.idx ↔ m = m' := by
  cases m <;> cases m' <;> decide

theorem and_mask {w : Nat} {m : Modifier} : w &&& m.mask ≠ 0 ↔ w.testBit m.idx = true := by
  rw [mask_eq, ne_eq, and_two_pow_eq_zero, Bool.not_eq_false]

theorem shows_iff {status : Nat} {held : Held} :
    Shows status held ↔ ∀ m : Modifier, status.testBit m.idx = (held ⟨m, false⟩ || held ⟨m, true⟩) := by
  unfold Shows
  refine forall_congr' fun m => ?_
  rw [and_mask, ← Bool.or_eq_true, Bool.coe_iff_coe]

/-- `releasebit` on a bit of the low 32. -/
theorem testBit_releasebit (status : Nat) {i : Nat} (hi : i < 32) (rel : Bool) {j : Nat} (hj : j < 32) :
    (releasebit status (2 ^ i) rel).testBit j = if j = i then !rel else status.testBit j := by
  have hones : (0xFFFFFFFF : Nat).testBit j = true := (word_full (by decide)).mp rfl j hj
  unfold releasebit
  by_cases h : j = i
  · subst h
    cases rel <;> simp [Nat.testBit_and, Nat.testBit_or, Nat.testBit_xor, hones]
  · have hne : ¬ i = j := fun e => h e.symm
    cases rel <;> simp [Nat.testBit_and, Nat.testBit_or, Nat.testBit_xor, hones, h, hne]

theorem testBit_eventFlags (status : Nat) (rel : Bool) {j : Nat} (hj : j < 16) (h4 : j ≠ 4) :
    (eventFlags status rel).testBit j = status.testBit j := by
  have hmod : (status % 65536).testBit j = status.testBit j := by
    rw [show 65536 = 2 ^ 16 from rfl, Nat.testBit_mod_two_pow, decide_eq_true hj, Bool.true_and]
  have hup : kbdCapUp.testBit j = false := by
    rw [show kbdCapUp = 2 ^ 4 from rfl, Nat.testBit_two_pow]
    exact decide_eq_false (Ne.symm h4)
  unfold eventFlags
  split
  · rw [Nat.testBit_or, hmod, hup, Bool.or_false]
  · exact hmod

/-! ## One code decoded -/

/-- What `get_single_scancode` gives for the keys that `decode_scancode` and the switch of
    contexts look at is the same whatever the modifiers. -/
theorem single_rows : ∀ key < 128, ∀ i < 8,
    let vk := if key > 0x58 then 0 else (usScancodes1.getD key []).getD i 0
    ((vk = vkLctl ↔ key = 0x1D) ∧ (vk = vkLshf ↔ key = 0x2A) ∧ (vk = vkRshf ↔ key = 0x36) ∧ (vk = vkLalt ↔ key = 0x38)) ∧
      vk < 256 ∧ contextFrom 243 vk = contextFrom 0x3B key := by
  decide +kernel

/-- The contexts `echo_scancode` switches to. -/
theorem echo_switches : ∀ vk < 256,
    (match echoOf vk with
      | some (.switchcontext target) => if h : target < 8 then some (⟨target, h⟩ : Fin 8) else none
      | _ => none) = contextFrom 243 vk := by
  decide +kernel

theorem keycodeOf_lt (b : UInt8) : keycodeOf b < 128 := Nat.and_lt_two_pow _ (by decide : 0x7F < 2 ^ 7)

theorem getSingleScancode_rows (status : Nat) (b : UInt8) :
    ((getSingleScancode status (keycodeOf b) = vkLctl ↔ keycodeOf b = 0x1D) ∧
      (getSingleScancode status (keycodeOf b) = vkLshf ↔ keycodeOf b = 0x2A) ∧
      (getSingleScancode status (keycodeOf b) = vkRshf ↔ keycodeOf b = 0x36) ∧
      (getSingleScancode status (keycodeOf b) = vkLalt ↔ keycodeOf b = 0x38)) ∧
    getSingleScancode status (keycodeOf b) < 256 ∧
    contextFrom 243 (getSingleScancode status (keycodeOf b)) = contextFrom 0x3B (keycodeOf b) :=
  single_rows _ (keycodeOf_lt b) (status &&& kbdMods) (Nat.and_lt_two_pow _ (by decide : kbdMods < 2 ^ 3))

/-- How a code changes the keyboard state, and the event it gives. -/
structure Decodes (stale : UInt8) (status : Nat) (code : List UInt8) (status' : Nat) (kbdev : Kbdev) : Prop where
  eq : decodeScancode stale.toNat status code = (status', some kbdev)
  mods : ∀ m : Modifier, status'.testBit m.idx = match modKeyOf code with
    | some (k, up) => if m = k.mod then !up else status.testBit m.idx
    | none => status.testBit m.idx
  up : status'.testBit 4 = status.testBit 4
  flags : ∀ m : Modifier, kbdev.flags.testBit m.idx = status'.testBit m.idx
  switch : status.testBit 4 = false → switchTarget kbdev = switchKey stale code

/-- The event's flags say that the key was released. -/
theorem capUp_eventFlags {status : Nat} (h4 : status.testBit 4 = false) (rel : Bool) :
    eventFlags status rel &&& kbdCapUp ≠ 0 ↔ rel = true := by
  have hbit : (status % 65536).testBit 4 = false := by
    rw [show 65536 = 2 ^ 16 from rfl, Nat.testBit_mod_two_pow, h4, Bool.and_false]
  rw [show kbdCapUp = 2 ^ 4 from rfl, ne_eq, and_two_pow_eq_zero, Bool.not_eq_false, eventFlags]
  cases rel with
  | true =>
    rw [if_pos rfl, Nat.testBit_or, hbit]
    decide
  | false =>
    rw [if_neg Bool.false_ne_true, hbit]

theorem switchTarget_eq {vk status : Nat} (hvk : vk < 256) (h4 : status.testBit 4 = false) (rel : Bool) :
    switchTarget ⟨vk, eventFlags status rel⟩ = if rel then none else contextFrom 243 vk := by
  unfold switchTarget
  cases rel with
  | true => rw [if_pos ((capUp_eventFlags h4 true).mpr rfl), if_pos rfl]
  | false =>
    rw [if_neg fun h => Bool.false_ne_true ((capUp_eventFlags h4 false).mp h), if_neg Bool.false_ne_true]
    exact echo_switches vk hvk

/-- A held modifier changes its own bit; what it does to the bits of a state. -/
theorem testBit_hold (status : Nat) (k : ModKey) (rel : Bool) (m : Modifier) :
    (releasebit status k.mod.mask rel).testBit m.idx = if m = k.mod then !rel else status.testBit m.idx := by
  have hm := m.idx_lt
  have hk := k.mod.idx_lt
  rw [mask_eq, testBit_releasebit status (by omega) rel (by omega)]
  simp only [idx_inj]

theorem testBit_hold_up (status : Nat) (k : ModKey) (rel : Bool) :
    (releasebit status k.mod.mask rel).testBit 4 = status.testBit 4 := by
  have hk := k.mod.idx_lt
  rw [mask_eq, testBit_releasebit status (by omega) rel (by decide), if_neg (by omega)]

/-- The modifier's bit is set or cleared, or no modifier's is; the other bits that count are as they were. -/
def Holds (key : Option ModKey) (rel : Bool) (status status' : Nat) : Prop :=
  (∃ k, key = some k ∧ status' = releasebit status k.mod.mask rel) ∨
    (key = none ∧ ∀ j < 5, j ≠ 3 → status'.testBit j = status.testBit j)

theorem Holds.bits {key : Option ModKey} {rel : Bool} {status status' : Nat} (h : Holds key rel status status') :
    (∀ m : Modifier, status'.testBit m.idx = match key.map fun k => (k, rel) with
      | some (k, up) => if m = k.mod then !up else status.testBit m.idx
      | none => status.testBit m.idx) ∧
    status'.testBit 4 = status.testBit 4 := by
  rcases h with ⟨k, rfl, rfl⟩ | ⟨rfl, hbits⟩
  · exact ⟨testBit_hold status k rel, testBit_hold_up status k rel⟩
  · refine ⟨fun m => ?_, hbits 4 (by decide) (by decide)⟩
    have hm := m.idx_lt
    exact hbits _ (by omega) (by omega)

/-- `holdSingle` by the keycode. -/
theorem holdSingle_eq (status : Nat) (b : UInt8) (rel : Bool) :
    Holds (singleModKeys.lookup (keycodeOf b)) rel status
      (holdSingle status (getSingleScancode status (keycodeOf b)) rel) := by
  obtain ⟨⟨hctl, hlshf, hrshf, halt⟩, -, -⟩ := getSingleScancode_rows status b
  unfold holdSingle
  simp only [hctl, hlshf, hrshf, halt]
  by_cases h1 : keycodeOf b = 0x1D
  · exact .inl ⟨⟨.ctrl, false⟩, by rw [h1]; rfl, by simp [h1, Modifier.mask]⟩
  by_cases h2 : keycodeOf b = 0x2A
  · exact .inl ⟨⟨.shift, false⟩, by rw [h2]; rfl, by simp [h2, Modifier.mask]⟩
  by_cases h3 : keycodeOf b = 0x36
  · exact .inl ⟨⟨.shift, true⟩, by rw [h3]; rfl, by simp [h3, Modifier.mask]⟩
  by_cases h4 : keycodeOf b = 0x38
  · exact .inl ⟨⟨.alt, false⟩, by rw [h4]; rfl, by simp [h4, Modifier.mask]⟩
  refine .inr ⟨?_, fun j hj _ => ?_⟩
  · simp [singleModKeys, List.lookup_cons, beq_eq_false_iff_ne.mpr h1, beq_eq_false_iff_ne.mpr h2, beq_eq_false_iff_ne.mpr h3,
      beq_eq_false_iff_ne.mpr h4]
  · -- the lock of capitals is bit 8
    have hcaps : (togglekbdbit status kbdLockCaps).testBit j = status.testBit j := by
      rw [togglekbdbit, show kbdLockCaps = 2 ^ 8 from rfl, Nat.testBit_xor, Nat.testBit_two_pow, decide_eq_false (by omega),
        Bool.xor_false]
    rw [if_neg h1, if_neg (by simp [h2, h3]), if_neg h4]
    split
    · split
      · exact hcaps
      · rfl
    · rfl

theorem holdExtended_eq (status : Nat) (b : UInt8) (rel : Bool) :
    Holds (pairModKeys.lookup (keycodeOf b)) rel status (holdExtended status (keycodeOf b) rel) := by
  unfold holdExtended
  by_cases h1 : keycodeOf b = 0x1D
  · exact .inl ⟨⟨.ctrl, true⟩, by rw [h1]; rfl, by simp [h1, Modifier.mask]⟩
  by_cases h2 : keycodeOf b = 0x38
  · exact .inl ⟨⟨.alt, true⟩, by rw [h2]; rfl, by simp [h2, Modifier.mask]⟩
  refine .inr ⟨?_, fun j hj h3 => ?_⟩
  · simp [pairModKeys, List.lookup_cons, beq_eq_false_iff_ne.mpr h1, beq_eq_false_iff_ne.mpr h2]
  · rw [if_neg h1, if_neg h2]
    split
    · rw [show kbdModMeta = 2 ^ 3 from rfl, testBit_releasebit status (by decide) rel (by omega), if_neg h3]
    · rfl

theorem flags_eventFlags (status : Nat) (rel : Bool) (m : Modifier) :
    (eventFlags status rel).testBit m.idx = status.testBit m.idx := by
  have hm := m.idx_lt
  exact testBit_eventFlags status rel (by omega) (by omega)

theorem decodes_single (stale : UInt8) (status : Nat) (b : UInt8) :
    ∃ status' kbdev, Decodes stale status [b] status' kbdev := by
  obtain ⟨-, hvk, hcontext⟩ := getSingleScancode_rows status b
  obtain ⟨hmods, hup⟩ := (holdSingle_eq status b (released b)).bits
  refine ⟨_, _, rfl, hmods, hup, flags_eventFlags _ _, fun h4 => ?_⟩
  refine (switchTarget_eq hvk (hup.trans h4) (released b)).trans ?_
  rw [hcontext]
  rfl

theorem extendedKeys_lookup : ∀ key < 128, ∀ vk, extendedKeys.lookup key = some vk → vk < 256 ∧ contextFrom 243 vk = none := by
  intro key hkey vk h
  have hall : ∀ key < 128, ∀ vk ∈ extendedKeys.lookup key, vk < 256 ∧ contextFrom 243 vk = none := by decide +kernel
  exact hall key hkey vk h

theorem decodes_pair (stale : UInt8) (status : Nat) (b : UInt8) :
    ∃ status' kbdev, Decodes stale status [0xE0, b] status' kbdev := by
  obtain ⟨hmods, hup⟩ := (holdExtended_eq status b (released b)).bits
  have hcontext : ((extendedKeys.lookup (keycodeOf b)).getD stale.toNat < 256) ∧
      contextFrom 243 ((extendedKeys.lookup (keycodeOf b)).getD stale.toNat) =
        if (extendedKeys.lookup (keycodeOf b)).isSome then none else contextFrom 243 stale.toNat := by
    cases hvk : extendedKeys.lookup (keycodeOf b) with
    | none => exact ⟨stale.toNat_lt, rfl⟩
    | some vk => exact extendedKeys_lookup _ (keycodeOf_lt b) vk hvk
  refine ⟨_, _, rfl, hmods, hup, flags_eventFlags _ _, fun h4 => ?_⟩
  refine (switchTarget_eq hcontext.1 (hup.trans h4) (released b)).trans ?_
  rw [hcontext.2, switchKey]
  by_cases hrel : released b = true
  · rw [if_pos hrel, if_pos (Or.inl hrel)]
  · by_cases hcase : (extendedKeys.lookup (keycodeOf b)).isSome = true
    · rw [if_neg hrel, if_pos hcase, if_pos (Or.inr hcase)]
    · rw [if_neg hrel, if_neg hcase, if_neg (not_or.mpr ⟨hrel, hcase⟩)]

theorem Complete.decodes {code : List UInt8} (h : Complete code) (stale : UInt8) (status : Nat) :
    ∃ status' kbdev, Decodes stale status code status' kbdev := by
  rcases h with ⟨b, rfl, -⟩ | ⟨b, rfl⟩
  · exact decodes_single stale status b
  · exact decodes_pair stale status b

theorem Complete.length {code : List UInt8} (h : Complete code) : code ≠ [] ∧ code.length ≤ 2 := by
  rcases h with ⟨b, rfl, -⟩ | ⟨b, rfl⟩ <;> simp

/-! ## One code delivered -/

/-- Between two codes: nothing is pending, no call is running, and no context's state has the
    bit that marks a release. -/
structure Idle (s : Machine) : Prop where
  ring : ∃ lost, Ring.Inv 1024 [] lost s.rbuf
  call : s.call = none
  up : ∀ k, (s.con.contexts k).kbdStatus.testBit 4 = false

theorem keyHandlers_ring {code q : List UInt8} {lost : Prop} {s : Machine} (h : Ring.Inv 1024 q lost s.rbuf)
    (hfits : q.length + code.length < 1024) :
    (code.foldl keyHandler s).con = s.con ∧ (code.foldl keyHandler s).events = s.events ∧
      (code.foldl keyHandler s).call = s.call ∧ ∃ lost', Ring.Inv 1024 (q ++ code) lost' (code.foldl keyHandler s).rbuf := by
  induction code generalizing q lost s with
  | nil => exact ⟨rfl, rfl, rfl, lost, by rwa [List.append_nil]⟩
  | cons b code ih =>
    rw [List.length_cons] at hfits
    have hring := h.ringbufWrite (by decide) (by decide) b
    rw [Ring.keepNewest_room b (by omega)] at hring
    have hlen : (q ++ [b]).length + code.length < 1024 := by
      rw [List.length_append, List.length_singleton]
      omega
    have hrest := @ih (q ++ [b]) _ (keyHandler s b) hring hlen
    rwa [List.append_assoc] at hrest

/-- The machine after one code: the keyboard states, and the event. -/
theorem deliver_spec (env : Env) (stale : UInt8) {s : Machine} {code : List UInt8} (hi : Idle s) (hc : Complete code) :
    ∃ status' kbdev, Decodes stale s.con.context.kbdStatus code status' kbdev ∧
      (deliver env stale s code).con.keys =
        ⟨(switchKey stale code).getD s.con.current, Function.update s.con.keys.status s.con.current status'⟩ ∧
      (deliver env stale s code).events = s.events ++ [kbdev] ∧ Idle (deliver env stale s code) := by
  obtain ⟨lost, hring⟩ := hi.ring
  obtain ⟨hne, hlen⟩ := hc.length
  have hroom : ([] : List UInt8).length + code.length < 1024 := by
    rw [List.length_nil]
    omega
  obtain ⟨hcon, hevents, -, lost', hring'⟩ := keyHandlers_ring hring hroom
  rw [List.nil_append] at hring'
  obtain ⟨hgot, lost'', hempty⟩ := keyboardRead_all hring' (by omega)
  obtain ⟨s1, hs1⟩ : ∃ s1, enterRead env (code.foldl keyHandler s) 4 = s1 := ⟨_, rfl⟩
  have hkeys : s1.con.keys = s.con.keys := by
    rw [← hs1, con_enterRead, (local_drawstatus env).keys, hcon]
  have hstatus : s1.con.context.kbdStatus = s.con.context.kbdStatus := by
    show s1.con.keys.status s1.con.keys.current = s.con.keys.status s.con.keys.current
    rw [hkeys]
  have hrbuf : s1.rbuf = (code.foldl keyHandler s).rbuf := by rw [← hs1, rbuf_enterRead]
  rw [← hrbuf] at hgot hempty
  have hevents' : s1.events = s.events := by rw [← hs1, events_enterRead, hevents]
  obtain ⟨status', kbdev, hd⟩ := hc.decodes stale s.con.context.kbdStatus
  have hdec : decodeScancode stale.toNat s1.con.context.kbdStatus code = (status', some kbdev) := by rw [hstatus, hd.eq]
  -- the first turn decodes the code, the second has no room for another event
  obtain ⟨s2, hs2⟩ : ∃ s2, decodeTurn env stale.toNat { s1 with rbuf := (keyboardRead s1.rbuf 16).2 } ⟨4, 0, none⟩ code = s2 :=
    ⟨_, rfl⟩
  have hturn : turn env stale.toNat s1 ⟨4, 0, none⟩ = s2 := by
    rw [← hs2]
    unfold turn
    rw [if_neg (by decide)]
    simp only [hgot, if_neg hne]
  have hcall : s2.call = some ⟨0, 4, some kbdev⟩ := by
    rw [← hs2]
    simp only [decodeTurn, hdec]
    rfl
  have hkeys2 : s2.con.keys =
      ⟨(switchKey stale code).getD s.con.current, Function.update s.con.keys.status s.con.current status'⟩ := by
    rw [← hs2, keys_decodeTurn env stale.toNat { s1 with rbuf := (keyboardRead s1.rbuf 16).2 } ⟨4, 0, none⟩ hdec,
      hd.switch (hi.up s.con.current)]
    show (⟨(switchKey stale code).getD s1.con.keys.current, Function.update s1.con.keys.status s1.con.keys.current status'⟩ : Keys) = _
    rw [hkeys]
    rfl
  have hdeliver : deliver env stale s code = leaveRead s2 ⟨0, 4, some kbdev⟩ := by
    simp only [deliver, hs1, hturn, hcall]
    rfl
  rw [hdeliver]
  refine ⟨status', kbdev, hd, hkeys2, ?_, ⟨lost'', ?_⟩, rfl, fun k => ?_⟩
  · rw [← hevents', leaveRead, ← hs2]
    simp only [decodeTurn, hdec]
  · show Ring.Inv 1024 [] lost'' s2.rbuf
    rw [← hs2, rbuf_decodeTurn]
    exact hempty
  · show (s2.con.keys.status k).testBit 4 = false
    rw [hkeys2]
    show (Function.update s.con.keys.status s.con.current status' k).testBit 4 = false
    by_cases hk : k = s.con.current
    · rw [hk, Function.update_self, hd.up]
      exact hi.up s.con.current
    · rw [Function.update_of_ne hk]
      exact hi.up k

/-! ## What one code does -/

/-- A key that switches contexts is no modifier. -/
theorem modKeyOf_switch {stale : UInt8} {code : List UInt8} (hc : Complete code) {j : Fin 8}
    (h : switchKey stale code = some j) : modKeyOf code = none := by
  have hsingle : ∀ key < 128, (contextFrom 0x3B key).isSome = true → singleModKeys.lookup key = none := by decide +kernel
  have hpair : ∀ key < 128, extendedKeys.lookup key = none → pairModKeys.lookup key = none := by decide +kernel
  rcases hc with ⟨b, rfl, -⟩ | ⟨b, rfl⟩
  · simp only [switchKey] at h
    split at h
    · cases h
    · rw [modKeyOf, hsingle _ (keycodeOf_lt b) (by rw [h]; rfl), Option.map_none]
  · simp only [switchKey] at h
    split at h
    · cases h
    · rename_i hcase
      have hnone : extendedKeys.lookup (keycodeOf b) = none := Option.not_isSome_iff_eq_none.mp fun e => hcase (Or.inr e)
      rw [modKeyOf, hpair _ (keycodeOf_lt b) hnone, Option.map_none]

/-- The bits after a code are the keys held down after it, unless it releases one of two. -/
theorem Decodes.shows_iff {stale : UInt8} {status status' : Nat} {code : List UInt8} {kbdev : Kbdev} {held : Held}
    (hd : Decodes stale status code status' kbdev) (h : Shows status held) :
    Shows status' (held.type code) ↔ ∀ k, modKeyOf code = some (k, true) → held k.partner = false := by
  rw [Vtcon.shows_iff] at h ⊢
  have hmods := hd.mods
  unfold Held.type
  cases hk : modKeyOf code with
  | none =>
    simp only [hk] at hmods
    exact iff_of_true (fun m => (hmods m).trans (h m)) fun k hk' => by cases hk'
  | some key =>
    obtain ⟨k, up⟩ := key
    simp only [hk] at hmods
    have hpair : ∀ m, (Function.update held k (!up) ⟨m, false⟩ || Function.update held k (!up) ⟨m, true⟩) =
        if m = k.mod then !up || held k.partner else status.testBit m.idx := by
      intro m
      obtain ⟨mod, right⟩ := k
      by_cases hm : m = mod
      · subst hm
        rw [if_pos rfl]
        cases right <;> simp [ModKey.partner, Bool.or_comm]
      · rw [if_neg hm, h m, Function.update_of_ne (by simp [hm]), Function.update_of_ne (by simp [hm])]
    simp only [hmods, hpair]
    constructor
    · intro hall k' hk'
      simp only [Option.some.injEq, Prod.mk.injEq] at hk'
      obtain ⟨rfl, rfl⟩ := hk'
      simpa using hall k.mod
    · intro hrel m
      by_cases hm : m = k.mod
      · rw [if_pos hm, if_pos hm]
        cases up with
        | true => rw [hrel k rfl]; rfl
        | false => rfl
      · rw [if_neg hm, if_neg hm]

theorem Shows.congr {status status' : Nat} {held : Held} (h : ∀ m : Modifier, status'.testBit m.idx = status.testBit m.idx) :
    Shows status' held ↔ Shows status held := by
  simp only [shows_iff, h]

/-- From a state that tracks the keys, a code leads to another one when it is benign, and only then. -/
theorem tracks_deliver_iff (env : Env) (stale : UInt8) {held : Held} {s : Machine} {code : List UInt8} (hi : Idle s)
    (hc : Complete code) (h : Tracks held s) : Tracks (held.type code) (deliver env stale s code) ↔ Benign held s stale code := by
  obtain ⟨status', kbdev, hd, hkeys, hevents, -⟩ := deliver_spec env stale hi hc
  have hstatus : (deliver env stale s code).con.context.kbdStatus =
      Function.update s.con.keys.status s.con.current status' ((switchKey stale code).getD s.con.current) := by
    show (deliver env stale s code).con.keys.status (deliver env stale s code).con.keys.current = _
    rw [hkeys]
  have hlast : (∀ e ∈ (deliver env stale s code).events.getLast?, Shows e.flags (held.type code)) ↔
      Shows status' (held.type code) := by
    rw [hevents, List.getLast?_concat]
    simp only [Option.mem_def, Option.some.injEq, forall_eq']
    exact Shows.congr hd.flags
  rw [Tracks, hlast, hstatus, hd.shows_iff h.1, Benign, and_comm]
  refine and_congr_right fun hrel => ?_
  have hshows := (hd.shows_iff h.1).mpr hrel
  cases hj : switchKey stale code with
  | none =>
    rw [Option.getD_none, Function.update_self]
    exact iff_of_true hshows fun j hj' => by cases hj'
  | some j =>
    have hmods := hd.mods
    rw [modKeyOf_switch hc hj] at hmods
    simp only [Option.some.injEq, forall_eq', and_mask, Bool.coe_iff_coe, Option.getD_some]
    by_cases hcur : j = s.con.current
    · subst hcur
      rw [Function.update_self]
      exact iff_of_true hshows fun _ => rfl
    · rw [Function.update_of_ne hcur]
      constructor
      · intro hnew m
        rw [Vtcon.shows_iff] at hnew hshows
        exact (hnew m).trans ((hshows m).symm.trans (hmods m))
      · intro hsame
        exact (Shows.congr fun m => (hsame m).trans (hmods m).symm).mpr hshows

/-! ## Every run -/

theorem booted_idle (env : Env) (vga : Vgafb.Vga) (buffer : Nat → UInt8) :
    Idle (booted (vtconOpen env (vtconInit vga)) buffer) ∧ Tracks (fun _ => false) (booted (vtconOpen env (vtconInit vga)) buffer) := by
  have hzero : ∀ k, ((vtconOpen env (vtconInit vga)).contexts k).kbdStatus = 0 := by
    intro k
    have hkeys : (vtconOpen env (vtconInit vga)).keys = (vtconInit vga).keys := (local_finish env).keys _
    exact congrFun (congrArg Keys.status hkeys) k
  refine ⟨⟨⟨_, ring_booted buffer⟩, rfl, fun k => ?_⟩, fun m => ?_, fun e he => by cases he⟩
  · show ((vtconOpen env (vtconInit vga)).contexts k).kbdStatus.testBit 4 = false
    rw [hzero k]
    rfl
  · show ((vtconOpen env (vtconInit vga)).contexts _).kbdStatus &&& m.mask ≠ 0 ↔ _
    simp [hzero]

/-- From boot, as long as a modifier is released with the other key of its pair up, and the
    context a key switches to has the modifiers of the one it leaves, the bits are the keys
    held down; and the first code that is neither makes them differ. -/
theorem modifiers_track_keys (env : Env) (vga : Vgafb.Vga) (buffer : Nat → UInt8) :
    ∀ held s, Delivered env Benign (booted (vtconOpen env (vtconInit vga)) buffer) held s →
      Tracks held s ∧ ∀ stale code, Complete code →
        (Tracks (held.type code) (deliver env stale s code) ↔ Benign held s stale code) := by
  have hrun : ∀ held s, Delivered env Benign (booted (vtconOpen env (vtconInit vga)) buffer) held s → Idle s ∧ Tracks held s := by
    intro held s hr
    induction hr with
    | start => exact booted_idle env vga buffer
    | @code held s stale code _ hc hok ih =>
      obtain ⟨-, -, -, -, -, hidle⟩ := deliver_spec env stale ih.1 hc
      exact ⟨hidle, (tracks_deliver_iff env stale ih.1 hc ih.2).mpr hok⟩
  intro held s hr
  obtain ⟨hidle, htracks⟩ := hrun held s hr
  exact ⟨htracks, fun stale code hc => tracks_deliver_iff env stale hidle hc htracks⟩

theorem complete_single {b : UInt8} (h : b ≠ 0xE0) : Complete [b] := .inl ⟨b, rfl, h⟩

/-- The left SHIFT key pressed, and then the A. -/
theorem a_shifted_key_is_tracked :
    Tracks (Held.type (Held.type (fun _ => false) [0x2A]) [0x1E]) (deliver quiet 0 (deliver quiet 0 desk [0x2A]) [0x1E]) := by
  have hshift : modKeyOf [0x2A] = some (⟨.shift, false⟩, false) := by decide
  have hkey : modKeyOf [0x1E] = none := by decide
  have hbenign : Benign (fun _ => false) desk 0 [0x2A] :=
    ⟨fun k hk => by simp [hshift] at hk, fun j hj => absurd hj (by simp [show switchKey 0 [0x2A] = none by decide])⟩
  have hrun : Delivered quiet Benign desk _ (deliver quiet 0 desk [0x2A]) := .code 0 .start (complete_single (by decide)) hbenign
  refine ((modifiers_track_keys quiet _ _ _ _ hrun).2 0 [0x1E] (complete_single (by decide))).mpr ⟨fun k hk => ?_, fun j hj => ?_⟩
  · simp [hkey] at hk
  · simp [show switchKey 0 [0x1E] = none by decide] at hj

/-- Both SHIFT keys pressed and the left one released: the right one is down and the bit is clear. -/
theorem two_shift_keys_release_each_other : ∃ held s, Delivered quiet (fun _ _ _ _ => True) desk held s ∧
    held ⟨.shift, true⟩ = true ∧ s.con.context.kbdStatus &&& kbdModShift = 0 ∧ ¬ Tracks held s := by
  have r₁ : Delivered quiet (fun _ _ _ _ => True) desk _ _ := .code 0 .start (complete_single (b := 0x2A) (by decide)) trivial
  have r₂ := r₁.code 0 (complete_single (b := 0x36) (by decide)) trivial
  have r₃ := r₂.code 0 (complete_single (b := 0xAA) (by decide)) trivial
  refine ⟨_, _, r₃, by decide, by decide +kernel, fun h => ?_⟩
  exact (h.1 .shift).mpr (.inr (by decide)) (by decide +kernel)

/-- The left SHIFT key held down while F2 is pressed: the second console does not know. -/
theorem a_modifier_is_left_in_its_context : ∃ held s, Delivered quiet (fun _ _ _ _ => True) desk held s ∧
    held ⟨.shift, false⟩ = true ∧ s.con.current = 1 ∧ s.con.context.kbdStatus &&& kbdModShift = 0 ∧ ¬ Tracks held s := by
  have r₁ : Delivered quiet (fun _ _ _ _ => True) desk _ _ := .code 0 .start (complete_single (b := 0x2A) (by decide)) trivial
  have r₂ := r₁.code 0 (complete_single (b := 0x3C) (by decide)) trivial
  refine ⟨_, _, r₂, by decide, by decide +kernel, by decide +kernel, fun h => ?_⟩
  exact (h.1 .shift).mpr (.inl (by decide)) (by decide +kernel)

end NativeOS.Device.Vtcon
