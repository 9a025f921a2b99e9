/-
  NativeOS.Device.KeyboardProofs — when polling does not matter.

  The keys decoded so far are those of the codes taken out of the ring buffer, one by one
  (`tap`), as long as every read of the keyboard finds nothing or one whole code; the codes
  are then the only way to read the bytes the interrupts delivered, since no code is a
  prefix of another.

  Proved:
  * `key_events_do_not_depend_on_polling` — any two such ways to poll decode the same keys.
  * `two_pending_codes_are_lost`, `a_prefix_is_taken_for_a_key` — and otherwise not: two codes
    that are read together are dropped; a prefix read alone is a key of its own.
-/

import NativeOS.Lib.Codes
import NativeOS.Device.Keyboard
import NativeOS.Device.VtconProofs

namespace NativeOS.Device.Vtcon

open NativeOS.Lib
open NativeOS.Stdkern
open NativeOS.Stdkern.Ring (Ringbuf ringbufRead ringbufTestReady ringbufWrite unread)

/-! ## Codes -/

theorem code_whole : Code Whole where
  nonempty := by
    rintro w (⟨b, rfl, -⟩ | ⟨b, rfl, -⟩)
    · exact List.cons_ne_nil _ _
    · exact List.cons_ne_nil _ _
  prefixFree := by
    rintro w v (⟨b, rfl, hb⟩ | ⟨b, rfl, hb⟩) (⟨c, rfl, hc⟩ | ⟨c, rfl, hc⟩) hp
    · rw [(List.cons_prefix_cons.mp hp).1]
    · exact absurd (List.cons_prefix_cons.mp hp).1 hb
    · exact absurd (List.cons_prefix_cons.mp hp).1.symm hc
    · rw [(List.cons_prefix_cons.mp (List.cons_prefix_cons.mp hp).2).1]

theorem Whole.length_le {bytes : List UInt8} (h : Whole bytes) : bytes.length ≤ 17 := by
  rcases h with ⟨b, rfl, -⟩ | ⟨b, rfl, -⟩
  · exact (by decide : 1 ≤ 17)
  · exact (by decide : 2 ≤ 17)

/-- A whole code is decoded, whatever is on the stack. -/
theorem Whole.decode {bytes : List UInt8} (h : Whole bytes) (stale status : Nat) :
    ∃ status' kbdev, decodeScancode stale status bytes = (status', some kbdev) ∧
      decodeScancode 0 status bytes = (status', some kbdev) := by
  rcases h with ⟨b, rfl, -⟩ | ⟨b, rfl, hb⟩
  · exact ⟨_, _, rfl, rfl⟩
  · obtain ⟨vk, hvk⟩ := Option.isSome_iff_exists.mp hb
    have hprefix : ¬ ((0xE0 : UInt8) ≠ 0xE0) := fun h => h rfl
    simp only [decodeScancode, if_neg hprefix, hvk, Option.getD_some]
    exact ⟨_, _, rfl, rfl⟩

/-! ## The keyboard states -/

/-- The selected context, and the keyboard state of each. -/
structure Keys where
  current : Fin 8
  status : Fin 8 → Nat

def Console.keys (s : Console) : Keys := ⟨s.current, fun k => (s.contexts k).kbdStatus⟩

theorem keys_eq {s t : Console} (hcur : t.current = s.current) (hcon : ∀ k, (t.contexts k).kbdStatus = (s.contexts k).kbdStatus) :
    t.keys = s.keys := by
  rw [Console.keys, Console.keys, hcur, funext hcon]

theorem Local.keys {F : Console → Console} (hF : Local F) (s : Console) : (F s).keys = s.keys := by
  refine keys_eq (hF.current s) fun k => ?_
  by_cases hk : k = s.current
  · have hkbd := hF.kbd s
    rw [Console.context, hF.current] at hkbd
    rw [hk]
    exact hkbd
  · rw [hF.others s k hk]

/-- The context a key event switches to. -/
def switchTarget (kbdev : Kbdev) : Option (Fin 8) :=
  if kbdev.flags &&& kbdCapUp ≠ 0 then none
  else match echoOf kbdev.vk with
    | some (.switchcontext target) => if h : target < 8 then some ⟨target, h⟩ else none
    | _ => none

theorem keys_switchcontext (env : Env) (s : Console) {target : Nat} (h : target < 8) :
    (switchcontext env s target).keys = ⟨⟨target, h⟩, s.keys.status⟩ := by
  rw [switchcontext_eq env s h, (local_finish env).keys]
  have hcon : ∀ k, ((saved s).contexts k).kbdStatus = (s.contexts k).kbdStatus := by
    intro k
    rw [contexts_saved]
    split
    · rfl
    · rfl
  rw [Console.keys, restored, contexts_fbWrite, current_fbWrite, funext hcon]
  rfl

theorem keys_echoScancode (env : Env) (s : Console) (kbdev : Kbdev) : (echoScancode env s kbdev.vk kbdev.flags).keys =
    ⟨(switchTarget kbdev).getD s.current, s.keys.status⟩ := by
  rw [echoScancode_eq, switchTarget]
  by_cases hup : kbdev.flags &&& kbdCapUp ≠ 0
  · rw [if_pos hup, if_pos hup]
    rfl
  · rw [if_neg hup, if_neg hup]
    cases echoOf kbdev.vk with
    | none => rfl
    | some echo =>
      cases echo with
      | putstr str => exact (local_putstr env str).keys s
      | putchar ch => exact (local_putchar env ch).keys s
      | clearscreen => exact (local_clearscreen env).keys s
      | switchcontext target =>
        by_cases h : target < 8
        · simp only [h, dite_true]
          exact keys_switchcontext env s h
        · simp only [h, dite_false]
          show (switchcontext env s target).keys = s.keys
          rw [switchcontext, dif_neg h]

/-- One code typed: the keyboard states and the keys so far, after it. -/
def tap (x : Keys × List Kbdev) (code : List UInt8) : Keys × List Kbdev :=
  let decoded := decodeScancode 0 (x.1.status x.1.current) code
  let status := Function.update x.1.status x.1.current decoded.1
  match decoded.2 with
  | some kbdev => (⟨(switchTarget kbdev).getD x.1.current, status⟩, x.2 ++ [kbdev])
  | none => (⟨x.1.current, status⟩, x.2)

/-- A code decoded to an event: the selected context's keyboard state, then the switch. -/
theorem keys_decodeTurn (env : Env) (stale : Nat) (s : Machine) (c : Call) {bytes : List UInt8} {status' : Nat} {kbdev : Kbdev}
    (h : decodeScancode stale s.con.context.kbdStatus bytes = (status', some kbdev)) :
    (decodeTurn env stale s c bytes).con.keys =
      ⟨(switchTarget kbdev).getD s.con.current, Function.update s.con.keys.status s.con.current status'⟩ := by
  simp only [decodeTurn, h]
  rw [keys_echoScancode, Keys.mk.injEq]
  refine ⟨rfl, ?_⟩
  funext k
  show (Function.update s.con.contexts s.con.current _ k).kbdStatus = Function.update s.con.keys.status s.con.current status' k
  by_cases hk : k = s.con.current
  · subst hk
    rw [Function.update_self, Function.update_self]
  · rw [Function.update_of_ne hk, Function.update_of_ne hk]
    rfl

theorem tap_decodeTurn (env : Env) (stale : Nat) (s : Machine) (c : Call) {bytes : List UInt8} (h : Whole bytes) :
    ((decodeTurn env stale s c bytes).con.keys, (decodeTurn env stale s c bytes).events) = tap (s.con.keys, s.events) bytes := by
  obtain ⟨status', kbdev, hdec, hdec0⟩ := h.decode stale s.con.context.kbdStatus
  have hstatus : s.con.keys.status s.con.keys.current = s.con.context.kbdStatus := rfl
  rw [keys_decodeTurn env stale s c hdec]
  simp only [decodeTurn, tap, hstatus, hdec, hdec0]
  rfl

theorem rbuf_decodeTurn (env : Env) (stale : Nat) (s : Machine) (c : Call) (bytes : List UInt8) :
    (decodeTurn env stale s c bytes).rbuf = s.rbuf := by
  unfold decodeTurn
  dsimp only
  split <;> rfl

theorem rbuf_turn (env : Env) (stale : Nat) (s : Machine) {c : Call} (hlen : kbdevSize ≤ c.len) :
    (turn env stale s c).rbuf = (keyboardRead s.rbuf 16).2 := by
  rw [turn, if_neg (Nat.not_lt.mpr hlen)]
  dsimp only
  split
  · rfl
  · rw [rbuf_decodeTurn]

/-! ## The ring buffer -/

theorem readLoop_take {n : Nat} (h0 : 0 < n) (hn : n < 4294967296) : ∀ (k : Nat) {q : List UInt8} {lost : Prop} {rbuf : Ringbuf},
    Ring.Inv n q lost rbuf → (readLoop k rbuf).1 = q.take k ∧ ∃ lost', Ring.Inv n (q.drop k) lost' (readLoop k rbuf).2
  | 0, q, lost, _, h => ⟨rfl, lost, h⟩
  | k + 1, [], lost, rbuf, h => by
    have hempty : ¬ ringbufTestReady rbuf ≠ 0 := fun hr => (h.ready h0).mp hr rfl
    rw [readLoop, if_neg hempty]
    exact ⟨rfl, lost, h⟩
  | k + 1, a :: q, _, rbuf, h => by
    have hready : ringbufTestReady rbuf ≠ 0 := (h.ready h0).mpr (List.cons_ne_nil a q)
    obtain ⟨hbyte, hrest⟩ := h.ringbufRead hn
    obtain ⟨htake, hdrop⟩ := readLoop_take h0 hn k hrest
    rw [readLoop, if_pos hready]
    refine ⟨?_, hdrop⟩
    rw [List.take_succ_cons, ← hbyte, ← htake]

/-- A read that finds at most seventeen bytes empties the buffer. -/
theorem keyboardRead_all {q : List UInt8} {lost : Prop} {rbuf : Ringbuf} (h : Ring.Inv 1024 q lost rbuf) (hq : q.length ≤ 17) :
    (keyboardRead rbuf 16).1 = q ∧ ∃ lost', Ring.Inv 1024 [] lost' (keyboardRead rbuf 16).2 := by
  obtain ⟨htake, hdrop⟩ := readLoop_take (by decide) (by decide) 17 h
  rw [List.take_of_length_le hq] at htake
  rw [List.drop_eq_nil_of_le hq] at hdrop
  exact ⟨htake, hdrop⟩

/-! ## Runs -/

/-- The bytes delivered are the codes typed and the bytes pending. -/
structure Typed (start : Keys) (evs : List KbdEv) (s : Machine) (codes : List (List UInt8)) (q : List UInt8) (lost : Prop) :
    Prop where
  whole : ∀ c ∈ codes, Whole c
  bytes : stream evs = codes.flatten ++ q
  ring : Ring.Inv 1024 q lost s.rbuf
  keys : (s.con.keys, s.events) = codes.foldl tap (start, [])

theorem Typed.pending {start : Keys} {evs : List KbdEv} {s : Machine} {codes : List (List UInt8)} {q : List UInt8} {lost : Prop}
    (h : Typed start evs s codes q lost) : unread s.rbuf = q := h.ring.unread (by decide)

theorem stream_irq (evs : List KbdEv) (b : UInt8) : stream (evs ++ [.irq b]) = stream evs ++ [b] := by
  simp [stream]

theorem stream_read (evs : List KbdEv) (len : Nat) : stream (evs ++ [.read len]) = stream evs := by
  simp [stream]

theorem stream_turn (evs : List KbdEv) (stale : Nat) : stream (evs ++ [.turn stale]) = stream evs := by
  simp [stream]

/-- One turn takes out one whole code, or nothing. -/
theorem typed_turn (env : Env) (stale : Nat) {start : Keys} {evs : List KbdEv} {s : Machine} {codes : List (List UInt8)}
    {q : List UInt8} {lost : Prop} (h : Typed start evs s codes q lost) {c : Call} (hc : s.call = some c)
    (hone : OneCode s (.turn stale)) :
    ∃ codes' q' lost', Typed start (evs ++ [.turn stale]) (turn env stale s c) codes' q' lost' := by
  have hstream := (stream_turn evs stale).trans h.bytes
  unfold turn
  by_cases hlen : c.len < kbdevSize
  · rw [if_pos hlen]
    exact ⟨codes, q, lost, h.whole, hstream, h.ring, h.keys⟩
  · rw [if_neg hlen]
    dsimp only
    have hcode := hone c hc (Nat.le_of_not_lt hlen)
    rw [h.pending] at hcode
    have hfits : q.length ≤ 17 := by
      rcases hcode with hq | hq
      · rw [hq]
        exact Nat.zero_le _
      · exact hq.length_le
    obtain ⟨hgot, lost', hring⟩ := keyboardRead_all h.ring hfits
    rw [hgot]
    by_cases hq : q = []
    · rw [if_pos hq]
      subst hq
      exact ⟨codes, [], lost', h.whole, hstream, hring, h.keys⟩
    · rw [if_neg hq]
      have hwhole : Whole q := hcode.resolve_left hq
      have htap := tap_decodeTurn env stale { s with rbuf := (keyboardRead s.rbuf 16).2 } c hwhole
      refine ⟨codes ++ [q], [], lost', ?_, ?_, ?_, ?_⟩
      · intro w hw
        rcases List.mem_append.mp hw with hw | hw
        · exact h.whole w hw
        · rw [List.mem_singleton.mp hw]
          exact hwhole
      · rw [hstream, List.flatten_append, List.flatten_singleton, List.append_nil]
      · rw [rbuf_decodeTurn]
        exact hring
      · rw [htap, h.keys, List.foldl_append]
        rfl

theorem ring_booted (buffer : Nat → UInt8) : Ring.Inv 1024 [] False ⟨buffer, 1024, 0, 0, 0⟩ := by
  refine ⟨rfl, (by decide : 0 < 1024), Nat.zero_le _, rfl, window_nil, ?_, ?_⟩
  · show (0 : Nat).testBit 0 = true ↔ (0 : Nat) = 1024
    decide
  · show (0 : Nat).testBit 1 = true ↔ False
    decide

theorem con_enterRead (env : Env) (s : Machine) (len : Nat) : (enterRead env s len).con = drawstatus env s.con := rfl

theorem rbuf_enterRead (env : Env) (s : Machine) (len : Nat) : (enterRead env s len).rbuf = s.rbuf := by
  rw [enterRead]

theorem events_enterRead (env : Env) (s : Machine) (len : Nat) : (enterRead env s len).events = s.events := by
  rw [enterRead]

/-- A run whose turns find whole codes. -/
theorem typed_run {env : Env} {con : Console} {buffer : Nat → UInt8} {evs : List KbdEv} {s : Machine}
    (h : Polled env (fun s e => Room s e ∧ OneCode s e) (booted con buffer) evs s) :
    ∃ codes q lost, Typed con.keys evs s codes q lost := by
  induction h with
  | start => exact ⟨[], [], False, ⟨List.forall_mem_nil _, rfl, ring_booted buffer, rfl⟩⟩
  | irq scancode _ hok ih =>
    obtain ⟨codes, q, lost, ht⟩ := ih
    have hroom : q.length + 1 < 1024 := by
      have := hok.1
      rwa [Room, ht.pending] at this
    have hring := ht.ring.ringbufWrite (by decide) (by decide) scancode
    rw [Ring.keepNewest_room scancode (by omega)] at hring
    refine ⟨codes, q ++ [scancode], _, ⟨ht.whole, ?_, hring, ht.keys⟩⟩
    rw [stream_irq, ht.bytes, List.append_assoc]
  | @read evs s len _ _ _ ih =>
    obtain ⟨codes, q, lost, ht⟩ := ih
    refine ⟨codes, q, lost, ⟨ht.whole, (stream_read evs len).trans ht.bytes, ?_, ?_⟩⟩
    · rw [rbuf_enterRead]
      exact ht.ring
    · rw [con_enterRead, (local_drawstatus env).keys, events_enterRead]
      exact ht.keys
  | turn stale _ hok hc ih =>
    obtain ⟨codes, q, lost, ht⟩ := ih
    exact typed_turn env stale ht hc hok.2

/-- The keys decoded are a function of the bytes delivered, when every read of the keyboard
    finds nothing or one whole code and nothing is left in the end. -/
theorem key_events_do_not_depend_on_polling {env₁ env₂ : Env} {con : Console} {buffer₁ buffer₂ : Nat → UInt8}
    {evs₁ evs₂ : List KbdEv} {s₁ s₂ : Machine}
    (h₁ : Polled env₁ (fun s e => Room s e ∧ OneCode s e) (booted con buffer₁) evs₁ s₁)
    (h₂ : Polled env₂ (fun s e => Room s e ∧ OneCode s e) (booted con buffer₂) evs₂ s₂)
    (hstream : stream evs₁ = stream evs₂) (hdrained₁ : unread s₁.rbuf = []) (hdrained₂ : unread s₂.rbuf = []) :
    s₁.events = s₂.events := by
  obtain ⟨codes₁, q₁, lost₁, ht₁⟩ := typed_run h₁
  obtain ⟨codes₂, q₂, lost₂, ht₂⟩ := typed_run h₂
  have hq₁ : q₁ = [] := ht₁.pending.symm.trans hdrained₁
  have hq₂ : q₂ = [] := ht₂.pending.symm.trans hdrained₂
  have hbytes : codes₁.flatten = codes₂.flatten := by
    have hb₁ := ht₁.bytes
    have hb₂ := ht₂.bytes
    rw [hq₁, List.append_nil] at hb₁
    rw [hq₂, List.append_nil] at hb₂
    rw [← hb₁, ← hb₂, hstream]
  have hcodes : codes₁ = codes₂ := code_whole.flatten_inj ht₁.whole ht₂.whole hbytes
  have hkeys := ht₁.keys
  rw [hcodes, ← ht₂.keys] at hkeys
  exact congrArg Prod.snd hkeys

/-! ## Runs on fixed bytes -/

/-- A machine with nothing on the screen. -/
def quiet : Env := ⟨[], fun _ => ⟨fun _ => 0⟩⟩
def desk : Machine := booted (vtconOpen quiet (vtconInit ⟨⟨fun _ => 0⟩, fun _ => 0⟩)) fun _ => 0

theorem room_of {s : Machine} {b : UInt8} (h : (unread s.rbuf).length + 1 < 1024) : Room s (.irq b) := h

theorem oneCode_of {s : Machine} {stale : Nat} {bytes : List UInt8} (h : unread s.rbuf = bytes) (hb : bytes = [] ∨ Whole bytes) :
    OneCode s (.turn stale) := by
  intro _ _ _
  rwa [h]

/-- A `vtcon_read` of one event: two turns of its loop, the second from the call `c`. -/
def poll (s : Machine) (c : Call) : Machine := turn quiet 0 (turn quiet 0 (enterRead quiet s 4) ⟨4, 0, none⟩) c

theorem Polled.poll {ok : Machine → KbdEv → Prop} {evs : List KbdEv} {s : Machine} (c : Call) (h : Polled quiet ok desk evs s)
    (hcall : s.call = none) (hread : ok s (.read 4)) (hfirst : ok (enterRead quiet s 4) (.turn 0))
    (hc : (Vtcon.turn quiet 0 (enterRead quiet s 4) ⟨4, 0, none⟩).call = some c)
    (hsecond : ok (Vtcon.turn quiet 0 (enterRead quiet s 4) ⟨4, 0, none⟩) (.turn 0)) :
    Polled quiet ok desk (evs ++ [.read 4] ++ [.turn 0] ++ [.turn 0]) (Vtcon.poll s c) := by
  have h₁ : Polled quiet ok desk (evs ++ [.read 4]) (enterRead quiet s 4) := .read 4 h hread hcall
  have h₂ : Polled quiet ok desk (evs ++ [.read 4] ++ [.turn 0]) _ := .turn 0 h₁ hfirst rfl
  exact .turn 0 h₂ hsecond hc

/-- The key A pressed and released, with and without a poll before it: the same two events. -/
theorem press_and_release_polled_twice : ∃ evs₁ evs₂, ∃ s₁ s₂ : Machine,
    Polled quiet (fun s e => Room s e ∧ OneCode s e) desk evs₁ s₁ ∧
    Polled quiet (fun s e => Room s e ∧ OneCode s e) desk evs₂ s₂ ∧
    evs₁.length = 8 ∧ evs₂.length = 10 ∧ s₁.events = s₂.events ∧ s₁.events = [⟨97, 0⟩, ⟨97, 16⟩] := by
  have press : Whole [0x1E] := .inl ⟨0x1E, rfl, by decide⟩
  have release : Whole [0x9E] := .inl ⟨0x9E, rfl, by decide⟩
  let ok := fun s e => Room s e ∧ OneCode s e
  -- a poll after each byte
  have r₁ : Polled quiet ok desk _ _ := .irq 0x1E .start ⟨room_of (by decide +kernel), trivial⟩
  have r₂ := r₁.poll ⟨0, 4, some ⟨97, 0⟩⟩ (by decide +kernel) ⟨trivial, trivial⟩
    ⟨trivial, oneCode_of (by decide +kernel) (.inr press)⟩ (by decide +kernel)
    ⟨trivial, oneCode_of (by decide +kernel) (.inl rfl)⟩
  have r₃ : Polled quiet ok desk _ _ := .irq 0x9E r₂ ⟨room_of (by decide +kernel), trivial⟩
  have r₄ := r₃.poll ⟨0, 4, some ⟨97, 16⟩⟩ (by decide +kernel) ⟨trivial, trivial⟩
    ⟨trivial, oneCode_of (by decide +kernel) (.inr release)⟩ (by decide +kernel)
    ⟨trivial, oneCode_of (by decide +kernel) (.inl rfl)⟩
  -- and one more before them
  have t₀ : Polled quiet ok desk _ _ := .read 4 .start ⟨trivial, trivial⟩ rfl
  have t₀' : Polled quiet ok desk _ _ := .turn 0 t₀ ⟨trivial, oneCode_of (by decide +kernel) (.inl rfl)⟩ rfl
  have t₁ : Polled quiet ok desk _ _ := .irq 0x1E t₀' ⟨room_of (by decide +kernel), trivial⟩
  have t₂ := t₁.poll ⟨0, 4, some ⟨97, 0⟩⟩ (by decide +kernel) ⟨trivial, trivial⟩
    ⟨trivial, oneCode_of (by decide +kernel) (.inr press)⟩ (by decide +kernel)
    ⟨trivial, oneCode_of (by decide +kernel) (.inl rfl)⟩
  have t₃ : Polled quiet ok desk _ _ := .irq 0x9E t₂ ⟨room_of (by decide +kernel), trivial⟩
  have t₄ := t₃.poll ⟨0, 4, some ⟨97, 16⟩⟩ (by decide +kernel) ⟨trivial, trivial⟩
    ⟨trivial, oneCode_of (by decide +kernel) (.inr release)⟩ (by decide +kernel)
    ⟨trivial, oneCode_of (by decide +kernel) (.inl rfl)⟩
  refine ⟨_, _, _, _, r₄, t₄, rfl, rfl, ?_, ?_⟩
  · exact key_events_do_not_depend_on_polling r₄ t₄ rfl (by decide +kernel) (by decide +kernel)
  · decide +kernel

/-- The same two bytes, both pending when the console polls: neither event is decoded. -/
theorem two_pending_codes_are_lost : ∃ evs₁ evs₂ s₁ s₂, Polled quiet Room desk evs₁ s₁ ∧ Polled quiet Room desk evs₂ s₂ ∧
    stream evs₁ = [0x1E, 0x9E] ∧ stream evs₂ = [0x1E, 0x9E] ∧ unread s₁.rbuf = [] ∧ unread s₂.rbuf = [] ∧
    s₁.events.map Kbdev.key = [(97, false), (97, true)] ∧ s₂.events.map Kbdev.key = [] := by
  have r₁ : Polled quiet Room desk _ _ := .irq 0x1E .start (room_of (by decide +kernel))
  have r₂ := r₁.poll ⟨0, 4, some ⟨97, 0⟩⟩ (by decide +kernel) trivial trivial (by decide +kernel) trivial
  have r₃ : Polled quiet Room desk _ _ := .irq 0x9E r₂ (room_of (by decide +kernel))
  have r₄ := r₃.poll ⟨0, 4, some ⟨97, 16⟩⟩ (by decide +kernel) trivial trivial (by decide +kernel) trivial
  have t₁ : Polled quiet Room desk _ _ := .irq 0x9E r₁ (room_of (by decide +kernel))
  have t₂ := t₁.poll ⟨4, 0, none⟩ (by decide +kernel) trivial trivial (by decide +kernel) trivial
  refine ⟨_, _, _, _, r₄, t₂, rfl, rfl, ?_⟩
  decide +kernel

/-- The cursor key up is 0xE0 0x48: polled between the two, it is a release of nothing and the digit 8. -/
theorem a_prefix_is_taken_for_a_key : ∃ evs₁ evs₂ s₁ s₂, Polled quiet Room desk evs₁ s₁ ∧ Polled quiet Room desk evs₂ s₂ ∧
    stream evs₁ = [0xE0, 0x48] ∧ stream evs₂ = [0xE0, 0x48] ∧ unread s₁.rbuf = [] ∧ unread s₂.rbuf = [] ∧
    s₁.events.map Kbdev.key = [(vkCup, false)] ∧ s₂.events.map Kbdev.key = [(0, true), (56, false)] := by
  have r₁ : Polled quiet Room desk _ _ := .irq 0xE0 .start (room_of (by decide +kernel))
  have r₂ : Polled quiet Room desk _ _ := .irq 0x48 r₁ (room_of (by decide +kernel))
  have r₃ := r₂.poll ⟨0, 4, some ⟨vkCup, 0⟩⟩ (by decide +kernel) trivial trivial (by decide +kernel) trivial
  have t₁ := r₁.poll ⟨0, 4, some ⟨0, 16⟩⟩ (by decide +kernel) trivial trivial (by decide +kernel) trivial
  have t₂ : Polled quiet Room desk _ _ := .irq 0x48 t₁ (room_of (by decide +kernel))
  have t₃ := t₂.poll ⟨0, 4, some ⟨56, 0⟩⟩ (by decide +kernel) trivial trivial (by decide +kernel) trivial
  refine ⟨_, _, _, _, r₃, t₃, rfl, rfl, ?_⟩
  decide +kernel

end NativeOS.Device.Vtcon
