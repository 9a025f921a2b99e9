/-
  NativeOS.Device.KeyArray — the buffer of a `vtcon_read` (`kernel/device/vtcon/vtcon.c`).

  A call decodes keys as long as there is room for one more event and the keyboard has
  something. It counts the room down and the bytes up, but it copies every event to the start
  of the buffer: only the last one is there in the end, and the rest of the buffer is as it was.

  Here the whole call is one function of what its polls of the keyboard return (`polls`); a
  turn of it is `NativeOS.Device.Keyboard`'s (`readPoll_turn`). `events` is no part of the
  code: the keys decoded, in order.

  Proved:
  * `read_is_an_array_iff` — the count returned is always right, and the buffer holds the events
    when at most one was decoded, and only then.
  * `the_second_event_overwrites_the_first` — two keys and room for both.
-/

import NativeOS.Device.KeyboardProofs

namespace NativeOS.Device.Vtcon

open NativeOS.Lib

/-- A `kbdev_t` in memory. -/
def kbdevBytes (kbdev : Kbdev) : List UInt8 := short kbdev.vk ++ short kbdev.flags

/-- A call of `vtcon_read` so far. -/
structure ReadCall where
  con : Console
  mem : Mem
  readBytes : Nat
  events : List Kbdev

/-- What one poll that finds `kbdBuf` does; `stale` is what `vk` held. -/
def readPoll (env : Env) (buf stale : Nat) (kbdBuf : List UInt8) (len : Nat) (r : ReadCall) : Nat × ReadCall :=
  let decoded := decodeScancode stale r.con.context.kbdStatus kbdBuf
  let con := r.con.setContext { r.con.context with kbdStatus := decoded.1 }
  match decoded.2 with
  | some kbdev =>
    (len - kbdevSize,
      { con := echoScancode env con kbdev.vk kbdev.flags
        mem := put r.mem buf (kbdevBytes kbdev)
        readBytes := r.readBytes + kbdevSize
        events := r.events ++ [kbdev] })
  | none => (len, { r with con := con })

/-- `vtcon_read`'s loop. Once the list of polls is used up the keyboard has nothing. -/
def vtconReadLoop (env : Env) (buf : Nat) : List (Nat × List UInt8) → Nat → ReadCall → ReadCall
  | [], _, r => r
  | (stale, kbdBuf) :: polls, len, r =>
    if len < kbdevSize ∨ kbdBuf = [] then r
    else
      let next := readPoll env buf stale kbdBuf len r
      vtconReadLoop env buf polls next.1 next.2

def vtconRead (env : Env) (s : Console) (m : Mem) (buf len : Nat) (polls : List (Nat × List UInt8)) : ReadCall :=
  vtconReadLoop env buf polls len ⟨drawstatus env s, m, 0, []⟩

/-- A code that `decode_scancode` decodes. -/
def Decodable (code : List UInt8) : Prop := ∃ b, code = [b] ∨ code = [0xE0, b]

/-- The events, one after the other from `buf` on. -/
def ArrayAt (m : Mem) (buf : Nat) (events : List Kbdev) : Prop :=
  ∀ i kbdev, events[i]? = some kbdev → slice m (buf + 4 * i) 4 = kbdevBytes kbdev

/-! ## One poll -/

@[simp] theorem length_kbdevBytes (kbdev : Kbdev) : (kbdevBytes kbdev).length = 4 := rfl

theorem Decodable.decode {code : List UInt8} (h : Decodable code) (stale status : Nat) :
    code ≠ [] ∧ ∃ status' kbdev, decodeScancode stale status code = (status', some kbdev) := by
  obtain ⟨b, rfl | rfl⟩ := h
  · exact ⟨by simp, _, _, rfl⟩
  · have hprefix : ¬ (0xE0 : UInt8) ≠ 0xE0 := fun h => h rfl
    simp only [decodeScancode, if_neg hprefix]
    exact ⟨by simp, _, _, rfl⟩

/-- A poll that finds a code: the event goes to the start of the buffer. -/
theorem Decodable.readPoll {code : List UInt8} (h : Decodable code) (env : Env) (buf stale len : Nat) (r : ReadCall) :
    ∃ con kbdev, readPoll env buf stale code len r =
      (len - 4, ⟨con, put r.mem buf (kbdevBytes kbdev), r.readBytes + 4, r.events ++ [kbdev]⟩) := by
  obtain ⟨-, status', kbdev, hdec⟩ := h.decode stale r.con.context.kbdStatus
  simp only [Vtcon.readPoll, hdec]
  exact ⟨_, _, rfl⟩

/-- What is decoded does not depend on the buffer. -/
theorem events_readPoll (env : Env) (buf stale len : Nat) (code : List UInt8) {r r' : ReadCall} (hcon : r'.con = r.con)
    (hevents : r'.events = r.events) :
    (readPoll env buf stale code len r').1 = (readPoll env buf stale code len r).1 ∧
    (readPoll env buf stale code len r').2.con = (readPoll env buf stale code len r).2.con ∧
    (readPoll env buf stale code len r').2.events = (readPoll env buf stale code len r).2.events := by
  unfold readPoll
  rw [hcon, hevents]
  dsimp only
  split <;> exact ⟨rfl, rfl, rfl⟩

/-- A turn of the loop is the turn of `NativeOS.Device.Keyboard` on what it found. -/
theorem readPoll_turn (env : Env) (buf stale : Nat) (s : Machine) (c : Call) (r : ReadCall) {code : List UInt8}
    (hcon : r.con = s.con) (hevents : r.events = s.events) (hbytes : r.readBytes = c.readBytes)
    (h : Decodable code) :
    let next := readPoll env buf stale code c.len r
    let s' := decodeTurn env stale s c code
    next.2.con = s'.con ∧ next.2.events = s'.events ∧
      ∃ kbdev, s'.call = some ⟨next.1, next.2.readBytes, some kbdev⟩ ∧ next.2.mem = put r.mem buf (kbdevBytes kbdev) := by
  obtain ⟨-, status', kbdev, hdec⟩ := h.decode stale s.con.context.kbdStatus
  simp only [readPoll, decodeTurn, hcon, hevents, hbytes, hdec, true_and]
  exact ⟨kbdev, rfl, rfl⟩

/-! ## The loop -/

theorem events_vtconReadLoop (env : Env) (buf : Nat) : ∀ (polls : List (Nat × List UInt8)) (len : Nat) {r r' : ReadCall},
    r'.con = r.con → r'.events = r.events →
    (vtconReadLoop env buf polls len r').events = (vtconReadLoop env buf polls len r).events
  | [], _, _, _, _, hevents => hevents
  | (stale, code) :: polls, len, r, r', hcon, hevents => by
    unfold vtconReadLoop
    split
    · exact hevents
    · obtain ⟨hlen, hcon', hevents'⟩ := events_readPoll env buf stale len code hcon hevents
      dsimp only
      rw [hlen]
      exact events_vtconReadLoop env buf polls _ hcon' hevents'

/-- The counters, and what was written: the last event, at the start of the buffer. -/
theorem vtconReadLoop_spec (env : Env) (buf : Nat) : ∀ (polls : List (Nat × List UInt8)) (len : Nat) (r : ReadCall),
    (∀ p ∈ polls, Decodable p.2) → ∃ es, (vtconReadLoop env buf polls len r).events = r.events ++ es ∧
      es.length = min (len / 4) polls.length ∧ (vtconReadLoop env buf polls len r).readBytes = r.readBytes + 4 * es.length ∧
      (∀ x, (x < buf ∨ buf + 4 ≤ x) → (vtconReadLoop env buf polls len r).mem x = r.mem x) ∧
      (es = [] → (vtconReadLoop env buf polls len r).mem = r.mem) ∧
      ∀ kbdev ∈ es.getLast?, slice (vtconReadLoop env buf polls len r).mem buf 4 = kbdevBytes kbdev
  | [], len, r, _ => ⟨[], by simp [vtconReadLoop], by simp, rfl, fun _ _ => rfl, fun _ => rfl, by simp⟩
  | (stale, code) :: polls, len, r, h => by
    obtain ⟨hcode, hpolls⟩ := List.forall_mem_cons.mp h
    have hne : code ≠ [] := (hcode.decode 0 0).1
    unfold vtconReadLoop
    by_cases hlen : len < kbdevSize
    · rw [if_pos (.inl hlen)]
      have h4 : len < 4 := hlen
      exact ⟨[], by simp, by simp; omega, rfl, fun _ _ => rfl, fun _ => rfl, by simp⟩
    · rw [if_neg (not_or.mpr ⟨hlen, hne⟩)]
      have h4 : ¬ len < 4 := hlen
      obtain ⟨con, kbdev, hpoll⟩ := Decodable.readPoll hcode env buf stale len r
      rw [hpoll]
      obtain ⟨es, hevents, hcount, hbytes, hout, hnone, hlast⟩ := vtconReadLoop_spec env buf polls (len - 4)
        ⟨con, put r.mem buf (kbdevBytes kbdev), r.readBytes + 4, r.events ++ [kbdev]⟩ hpolls
      refine ⟨kbdev :: es, by rw [hevents, List.append_assoc]; rfl, ?_, ?_, fun x hx => ?_, by simp, fun e he => ?_⟩
      · rw [List.length_cons, List.length_cons, hcount]
        omega
      · rw [hbytes, List.length_cons]
        show r.readBytes + 4 + _ = _
        omega
      · rw [hout x hx]
        exact put_out r.mem (by simpa using hx)
      · cases es with
        | nil =>
          simp only [List.getLast?_singleton, Option.mem_def, Option.some.injEq] at he
          rw [hnone rfl, ← he]
          exact slice_put_self r.mem buf (kbdevBytes kbdev)
        | cons e' es => exact hlast e (by simpa using he)

/-! ## The array -/

theorem short_ne {w : Nat} {c : UInt8} (hc : c = UInt8.ofNat w + 1) : UInt8.ofNat w ≠ c := by
  rw [hc]
  intro h
  simp at h

/-- For any codes and any room: the count is four times the number of events, as many as there
    are codes and room for, and over every buffer the events are an array in it when there is
    at most one, and only then. -/
theorem read_is_an_array_iff (env : Env) (s : Console) (buf len : Nat) {polls : List (Nat × List UInt8)}
    (h : ∀ p ∈ polls, Decodable p.2) :
    (∀ m, (vtconRead env s m buf len polls).readBytes = 4 * (vtconRead env s m buf len polls).events.length ∧
      (vtconRead env s m buf len polls).events.length = min (len / 4) polls.length) ∧
    ((∀ m, ArrayAt (vtconRead env s m buf len polls).mem buf (vtconRead env s m buf len polls).events) ↔
      len < 8 ∨ polls.length < 2) := by
  have hspec := fun m => vtconReadLoop_spec env buf polls len ⟨drawstatus env s, m, 0, []⟩ h
  refine ⟨fun m => ?_, ?_⟩
  · obtain ⟨es, hevents, hcount, hbytes, -⟩ := hspec m
    rw [List.nil_append] at hevents
    rw [vtconRead, hevents]
    exact ⟨by rw [hbytes, Nat.zero_add], hcount⟩
  constructor
  · intro harray
    by_contra hmore
    -- the second event of a run, and a buffer that held something else in its place
    obtain ⟨es, hevents, hcount, -⟩ := hspec ⟨fun _ => 0⟩
    rw [List.nil_append] at hevents
    have hlen : 1 < es.length := by omega
    let m : Mem := ⟨fun _ => UInt8.ofNat es[1].vk + 1⟩
    obtain ⟨es', hevents', -, -, hout, -⟩ := hspec m
    rw [List.nil_append] at hevents'
    have hsame : es' = es := by
      rw [← hevents', ← hevents]
      exact events_vtconReadLoop env buf polls len rfl rfl
    have hsecond := harray m 1 es[1] (by rw [vtconRead, hevents', hsame]; simp [hlen])
    have hfirst := congrArg (fun l => l.getD 0 0) hsecond
    rw [getD_slice _ _ (by decide)] at hfirst
    rw [vtconRead, hout _ (Or.inr (by omega))] at hfirst
    exact short_ne rfl hfirst.symm
  · intro hfew m i kbdev hi
    obtain ⟨es, hevents, hcount, -, -, -, hlast⟩ := hspec m
    rw [List.nil_append] at hevents
    rw [vtconRead, hevents] at hi
    have hilt : i < es.length := (List.getElem?_eq_some_iff.mp hi).1
    have h0 : i = 0 := by omega
    subst h0
    have hone : es.length = 1 := by omega
    obtain ⟨e, rfl⟩ := List.length_eq_one_iff.mp hone
    exact hlast kbdev (by simpa using hi)

/-- One key and room for one event. -/
theorem one_key_is_an_array : (vtconRead quiet desk.con ⟨fun _ => 0⟩ 0x2000 4 [(0, [0x1E])]).readBytes = 4 ∧
    ArrayAt (vtconRead quiet desk.con ⟨fun _ => 0⟩ 0x2000 4 [(0, [0x1E])]).mem 0x2000
      (vtconRead quiet desk.con ⟨fun _ => 0⟩ 0x2000 4 [(0, [0x1E])]).events := by
  have hcodes : ∀ p ∈ [((0 : Nat), [(0x1E : UInt8)])], Decodable p.2 := by
    intro p hp
    rw [List.mem_singleton.mp hp]
    exact ⟨0x1E, .inl rfl⟩
  obtain ⟨hcount, harray⟩ := read_is_an_array_iff quiet desk.con 0x2000 4 hcodes
  obtain ⟨hbytes, hevents⟩ := hcount ⟨fun _ => 0⟩
  exact ⟨by rw [hbytes, hevents]; decide, harray.mpr (.inl (by decide)) ⟨fun _ => 0⟩⟩

/-- The keys A and S, and room for two events: the buffer begins with the S, and the rest of it
    is as it was. -/
theorem the_second_event_overwrites_the_first :
    (vtconRead quiet desk.con ⟨fun _ => 0xFF⟩ 0x2000 8 [(0, [0x1E]), (0, [0x1F])]).readBytes = 8 ∧
    (vtconRead quiet desk.con ⟨fun _ => 0xFF⟩ 0x2000 8 [(0, [0x1E]), (0, [0x1F])]).events = [⟨97, 0⟩, ⟨115, 0⟩] ∧
    slice (vtconRead quiet desk.con ⟨fun _ => 0xFF⟩ 0x2000 8 [(0, [0x1E]), (0, [0x1F])]).mem 0x2000 8 =
      [115, 0, 0, 0, 0xFF, 0xFF, 0xFF, 0xFF] ∧
    ¬ ArrayAt (vtconRead quiet desk.con ⟨fun _ => 0xFF⟩ 0x2000 8 [(0, [0x1E]), (0, [0x1F])]).mem 0x2000
      (vtconRead quiet desk.con ⟨fun _ => 0xFF⟩ 0x2000 8 [(0, [0x1E]), (0, [0x1F])]).events := by
  have hevents : (vtconRead quiet desk.con ⟨fun _ => 0xFF⟩ 0x2000 8 [(0, [0x1E]), (0, [0x1F])]).events =
      [⟨97, 0⟩, ⟨115, 0⟩] := by decide +kernel
  have hmem : slice (vtconRead quiet desk.con ⟨fun _ => 0xFF⟩ 0x2000 8 [(0, [0x1E]), (0, [0x1F])]).mem 0x2000 8 =
      [115, 0, 0, 0, 0xFF, 0xFF, 0xFF, 0xFF] := by decide +kernel
  refine ⟨by decide +kernel, hevents, hmem, fun h => ?_⟩
  have hfirst := h 0 ⟨97, 0⟩ (by rw [hevents]; rfl)
  rw [Nat.mul_zero, Nat.add_zero, ← take_slice _ _ (show 4 ≤ 8 by decide), hmem] at hfirst
  exact absurd hfirst (by decide)

end NativeOS.Device.Vtcon
