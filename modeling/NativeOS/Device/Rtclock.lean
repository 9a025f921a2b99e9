/-
  NativeOS.Device.Rtclock — the real-time clock (`kernel/device/rtclock.c`).

  The fields come from the CMOS registers, in BCD unless status B says binary, and are read
  twice until two readings agree. `write_number` hands out its digits and one byte more: the
  one below its array, whose index it has reached when it stops. Each number's extra byte
  falls on the first digit of the number after it, and the last one on the NUL.

  Proved:
  * `updateClock_agrees` — whatever the registers do, the clock set is one that was read
    twice in a row.
  * `writeNumber_eq` — the digits, padded with zeros, and the byte below the array.
  * `clock_read_text` — with stable registers, whatever they hold and whatever is below the
    array, a read is the fifteen bytes of the time, and they decode to it.
-/

import NativeOS.Lib.Digits
import NativeOS.Lib.Spans

namespace NativeOS.Device.Clock

open NativeOS.Lib

/-! ## The registers -/

def regSeconds : Nat := 0
def regMinutes : Nat := 2
def regHours : Nat := 4
def regDay : Nat := 7
def regMonth : Nat := 8
def regYear : Nat := 9
def regCentury : Nat := 0x32
def regStatusB : Nat := 0xB

/-- What the `t`-th access finds in a register. -/
abbrev Cmos := Nat → Nat → UInt8

def readCmos (cmos : Cmos) (t reg : Nat) : Nat := (cmos t reg).toNat

/-! ## rtclock.c -/

def bcdToBin (bcd : Nat) : Nat := bcd / 16 * 10 + (bcd &&& 0xF)

/-- `struct rtclock`. Every value that is stored fits its field: at most 165 in a byte, and
    25755 in the year. -/
structure Rtclock where
  isBinary : Bool
  year : Nat
  month : Nat
  day : Nat
  hours : Nat
  minutes : Nat
  seconds : Nat
  deriving DecidableEq

def sameclock (a b : Rtclock) : Prop :=
  a.year = b.year ∧ a.month = b.month ∧ a.day = b.day ∧ a.hours = b.hours ∧ a.minutes = b.minutes ∧ a.seconds = b.seconds

instance (a b : Rtclock) : Decidable (sameclock a b) := inferInstanceAs (Decidable (_ ∧ _))

def copyclock (rtcClock clock : Rtclock) : Rtclock := { clock with isBinary := rtcClock.isBinary }

/-- Eight accesses from the `t`-th on; the day is read twice. -/
def readclock (cmos : Cmos) (rtcClock : Rtclock) (t : Nat) : Rtclock :=
  let seconds := readCmos cmos t regSeconds
  let minutes := readCmos cmos (t + 1) regMinutes
  let hours := readCmos cmos (t + 2) regHours
  let year := readCmos cmos (t + 3) regYear
  let month := readCmos cmos (t + 4) regMonth
  let day := readCmos cmos (t + 6) regDay
  let century := readCmos cmos (t + 7) regCentury
  let bin := fun v => if !rtcClock.isBinary then bcdToBin v else v
  { rtcClock with
    seconds := bin seconds, minutes := bin minutes, hours := bin hours, month := bin month, day := bin day
    year := bin century * 100 + bin year }

/-- The loop of `update_clock`, `fuel` turns of it. -/
def updateClock (cmos : Cmos) (rtcClock : Rtclock) : Nat → Nat → Option Rtclock
  | 0, _ => none
  | fuel + 1, t =>
    let clockA := readclock cmos rtcClock t
    let clockB := readclock cmos rtcClock (t + 8)
    if sameclock clockA clockB then some (copyclock rtcClock clockB) else updateClock cmos rtcClock fuel (t + 16)

/-- What `clock_init` leaves in `rtc_clock`. -/
def clockInit (cmos : Cmos) (t : Nat) (rtcClock : Rtclock) : Rtclock :=
  { rtcClock with isBinary := readCmos cmos t regStatusB &&& 0x4 ≠ 0 }

/-- `while (num > 0)`, with the entries of `tmp` so far. A number is not divided more often
    than it is high. -/
def digitLoop : Nat → Nat → List UInt8 → List UInt8
  | 0, _, tmp => tmp
  | fuel + 1, num, tmp => if num > 0 then digitLoop fuel (num / 10) (tmp ++ [UInt8.ofNat (48 + num % 10)]) else tmp

/-- `while (i < len) tmp[i++] = '0'`. -/
def padLoop : Nat → List UInt8 → List UInt8
  | 0, tmp => tmp
  | turns + 1, tmp => padLoop turns (tmp ++ [48])

/-- `while (i >= 0) *buf++ = tmp[--i]`: at `i` = 0 the byte below the array goes out. -/
def outLoop (tmp : List UInt8) (below : UInt8) : Nat → Nat → Mem → Mem
  | 0, buf, m => st8 m buf below
  | i + 1, buf, m => outLoop tmp below i (buf + 1) (st8 m buf (tmp.getD i 0))

def writeNumber (m : Mem) (buf num len : Nat) (below : UInt8) : Mem :=
  let digits := digitLoop num num []
  let tmp := padLoop (len - digits.length) digits
  outLoop tmp below tmp.length buf m

/-- `clock_read` after `update_clock`. `below k`: what is below the array at the `k`-th number. -/
def writeClock (rtcClock : Rtclock) (below : Nat → UInt8) (m : Mem) (buf : Nat) : Mem :=
  let m := writeNumber m buf rtcClock.year 4 (below 0)
  let m := writeNumber m (buf + 4) rtcClock.month 2 (below 1)
  let m := writeNumber m (buf + 6) rtcClock.day 2 (below 2)
  let m := writeNumber m (buf + 8) rtcClock.hours 2 (below 3)
  let m := writeNumber m (buf + 10) rtcClock.minutes 2 (below 4)
  let m := writeNumber m (buf + 12) rtcClock.seconds 2 (below 5)
  st8 m (buf + 14) 0

/-- The first register is read at the `t`-th access. `none`: the loop of `update_clock` takes
    more than `fuel` turns. -/
def clockRead (cmos : Cmos) (fuel t : Nat) (below : Nat → UInt8) (rtcClock : Rtclock) (m : Mem) (buf len : Nat) :
    Option (Rtclock × Mem × Nat) :=
  if len < 15 then some (rtcClock, m, 0)
  else do
    let rtcClock ← updateClock cmos rtcClock fuel t
    some (rtcClock, writeClock rtcClock below m buf, 15)

/-! ## The time -/

/-- A time as the registers can hold it: a value of 0 to 99 in each. -/
structure Time where
  century : Fin 100
  year : Fin 100
  month : Fin 100
  day : Fin 100
  hours : Fin 100
  minutes : Fin 100
  seconds : Fin 100

/-- The value of a register. -/
def encode (binary : Bool) (v : Nat) : Nat := if binary then v else 16 * (v / 10) + v % 10

/-- The registers do not change, and hold a time in the encoding that status B names. -/
structure Stable (cmos : Cmos) (statusB : UInt8) (time : Time) : Prop where
  status : ∀ t, readCmos cmos t regStatusB = statusB.toNat
  century : ∀ t, readCmos cmos t regCentury = encode (statusB.toNat &&& 0x4 ≠ 0) time.century
  year : ∀ t, readCmos cmos t regYear = encode (statusB.toNat &&& 0x4 ≠ 0) time.year
  month : ∀ t, readCmos cmos t regMonth = encode (statusB.toNat &&& 0x4 ≠ 0) time.month
  day : ∀ t, readCmos cmos t regDay = encode (statusB.toNat &&& 0x4 ≠ 0) time.day
  hours : ∀ t, readCmos cmos t regHours = encode (statusB.toNat &&& 0x4 ≠ 0) time.hours
  minutes : ∀ t, readCmos cmos t regMinutes = encode (statusB.toNat &&& 0x4 ≠ 0) time.minutes
  seconds : ∀ t, readCmos cmos t regSeconds = encode (statusB.toNat &&& 0x4 ≠ 0) time.seconds

def decimalLetter (d : Nat) : UInt8 := UInt8.ofNat (48 + d)
def decimalDigit (c : UInt8) : Nat := c.toNat - 48

/-- `n` decimal digits. -/
def decimal (n v : Nat) : List UInt8 := numeral decimalLetter 10 n v

def parseDecimal (text : List UInt8) : Nat := numeralValue decimalDigit 10 text

/-- YYYYMMDDHHMMSS and a NUL. -/
def clockText (time : Time) : List UInt8 :=
  decimal 4 (100 * time.century + time.year) ++ decimal 2 time.month ++ decimal 2 time.day ++ decimal 2 time.hours ++
    decimal 2 time.minutes ++ decimal 2 time.seconds ++ [0]

/-- The numbers at their places. -/
structure Decodes (m : Mem) (buf : Nat) (time : Time) : Prop where
  year : parseDecimal (slice m buf 4) = 100 * time.century + time.year
  month : parseDecimal (slice m (buf + 4) 2) = time.month
  day : parseDecimal (slice m (buf + 6) 2) = time.day
  hours : parseDecimal (slice m (buf + 8) 2) = time.hours
  minutes : parseDecimal (slice m (buf + 10) 2) = time.minutes
  seconds : parseDecimal (slice m (buf + 12) 2) = time.seconds
  nul : m (buf + 14) = 0

/-! ## Reading the registers -/

section Registers

variable {cmos : Cmos} {rtcClock clock : Rtclock} {statusB : UInt8} {time : Time}

/-- The two readings that agreed, whatever the registers answered before. -/
theorem updateClock_agrees {fuel t : Nat} (h : updateClock cmos rtcClock fuel t = some clock) :
    ∃ t', t ≤ t' ∧ sameclock (readclock cmos rtcClock t') (readclock cmos rtcClock (t' + 8)) ∧
      clock = copyclock rtcClock (readclock cmos rtcClock (t' + 8)) := by
  induction fuel generalizing t with
  | zero => cases h
  | succ fuel ih =>
    rw [updateClock] at h
    by_cases hsame : sameclock (readclock cmos rtcClock t) (readclock cmos rtcClock (t + 8))
    · rw [if_pos hsame] at h
      exact ⟨t, Nat.le_refl t, hsame, (Option.some.inj h).symm⟩
    · rw [if_neg hsame] at h
      obtain ⟨t', hle, hagree⟩ := ih h
      exact ⟨t', by omega, hagree⟩

theorem bcdToBin_encode (v : Fin 100) : bcdToBin (encode false v) = v := by
  have hlow : encode false v &&& 0xF = encode false v % 16 := Nat.and_two_pow_sub_one_eq_mod _ 4
  have hv := v.isLt
  rw [bcdToBin, hlow]
  simp only [encode, if_neg Bool.false_ne_true]
  omega

/-- A register read back as `readclock` reads it. -/
theorem decode_register (binary : Bool) (v : Fin 100) :
    (if !binary then bcdToBin (encode binary v) else encode binary v) = v := by
  cases binary with
  | true => rfl
  | false => exact bcdToBin_encode v

theorem readclock_stable (h : Stable cmos statusB time) (hb : rtcClock.isBinary = decide (statusB.toNat &&& 0x4 ≠ 0)) (t : Nat) :
    readclock cmos rtcClock t =
      ⟨rtcClock.isBinary, 100 * time.century + time.year, time.month, time.day, time.hours, time.minutes, time.seconds⟩ := by
  simp only [readclock, h.century, h.year, h.month, h.day, h.hours, h.minutes, h.seconds, hb, decode_register]
  rw [Nat.mul_comm]

theorem updateClock_stable (h : Stable cmos statusB time) (hb : rtcClock.isBinary = decide (statusB.toNat &&& 0x4 ≠ 0))
    (fuel t : Nat) : updateClock cmos rtcClock (fuel + 1) t =
      some ⟨rtcClock.isBinary, 100 * time.century + time.year, time.month, time.day, time.hours, time.minutes, time.seconds⟩ := by
  rw [updateClock, readclock_stable h hb, readclock_stable h hb, if_pos ⟨rfl, rfl, rfl, rfl, rfl, rfl⟩]
  rfl

end Registers

/-! ## Writing the numbers -/

theorem padLoop_eq (turns : Nat) (tmp : List UInt8) : padLoop turns tmp = tmp ++ List.replicate turns 48 := by
  induction turns generalizing tmp with
  | zero => exact (List.append_nil tmp).symm
  | succ turns ih => rw [padLoop, ih, List.append_assoc, List.replicate_succ, List.singleton_append]

/-- The digits of a number that has at most `len`, and zeros up to `len`. -/
theorem digits_eq (len : Nat) : ∀ (fuel num : Nat) (tmp : List UInt8), num < 10 ^ len → num ≤ fuel →
    padLoop (tmp.length + len - (digitLoop fuel num tmp).length) (digitLoop fuel num tmp) =
      tmp ++ (lowDigits 10 len num).map decimalLetter := by
  induction len with
  | zero =>
    intro fuel num tmp hnum _
    have h0 : num = 0 := by simpa using hnum
    have hdone : digitLoop fuel num tmp = tmp := by
      subst h0
      cases fuel <;> rfl
    rw [hdone, Nat.add_zero, Nat.sub_self, padLoop]
    exact (List.append_nil tmp).symm
  | succ len ih =>
    intro fuel num tmp hnum hfuel
    by_cases h0 : num = 0
    · have hdone : digitLoop fuel num tmp = tmp := by
        subst h0
        cases fuel <;> rfl
      rw [hdone, Nat.add_sub_cancel_left, padLoop_eq, h0, lowDigits_zero, List.map_replicate]
      rfl
    · obtain ⟨fuel, rfl⟩ : ∃ k, fuel = k + 1 := ⟨fuel - 1, by omega⟩
      have hnext := ih fuel (num / 10) (tmp ++ [UInt8.ofNat (48 + num % 10)])
        (by rw [Nat.pow_succ] at hnum; omega) (by omega)
      have hlen : (tmp ++ [UInt8.ofNat (48 + num % 10)]).length + len = tmp.length + (len + 1) := by
        rw [List.length_append, List.length_singleton]
        omega
      rw [hlen] at hnext
      rw [digitLoop, if_pos (by omega), hnext, lowDigits, List.map_cons, List.append_assoc]
      rfl

theorem outLoop_eq (tmp : List UInt8) (below : UInt8) (i : Nat) : ∀ (buf : Nat) (m : Mem), i ≤ tmp.length →
    outLoop tmp below i buf m = put m buf ((tmp.take i).reverse ++ [below]) := by
  induction i with
  | zero =>
    intro buf m _
    rfl
  | succ i ih =>
    intro buf m h
    have hlast : (tmp.take (i + 1)).reverse = tmp.getD i 0 :: (tmp.take i).reverse := by
      rw [List.take_succ_eq_append_getElem h, List.reverse_append]
      simp [List.getD, List.getElem?_eq_getElem h]
    rw [outLoop, ih _ _ (by omega), hlast]
    rfl

theorem writeNumber_eq (m : Mem) (buf : Nat) {num len : Nat} (h : num < 10 ^ len) (below : UInt8) :
    writeNumber m buf num len below = put m buf (decimal len num ++ [below]) := by
  have htmp := digits_eq len num num [] h (Nat.le_refl num)
  rw [List.length_nil, Nat.zero_add, List.nil_append] at htmp
  simp only [writeNumber]
  rw [htmp, outLoop_eq _ _ _ _ _ (Nat.le_refl _), List.take_length, decimal, numeral, List.map_reverse]

@[simp] theorem length_decimal (n v : Nat) : (decimal n v).length = n := length_numeral _ _ _ _

/-- The number after others that take `k` bytes, over the byte that is too much. -/
theorem writeNumber_over (m : Mem) (a : Nat) {l : List UInt8} {k : Nat} (last : UInt8) {num len : Nat} (below : UInt8)
    (h : num < 10 ^ len) (hk : l.length = k) :
    writeNumber (put m a (l ++ [last])) (a + k) num len below = put m a (l ++ decimal len num ++ [below]) := by
  rw [writeNumber_eq _ _ h, ← hk, put_over _ _ _ _ (by simp), List.append_assoc]

theorem writeClock_eq (time : Time) (binary : Bool) (below : Nat → UInt8) (m : Mem) (buf : Nat) :
    writeClock ⟨binary, 100 * time.century + time.year, time.month, time.day, time.hours, time.minutes, time.seconds⟩ below m buf =
      put m buf (clockText time) := by
  have hyear : 100 * (time.century : Nat) + time.year < 10 ^ 4 := by omega
  have hfield : ∀ v : Fin 100, (v : Nat) < 10 ^ 2 := fun v => v.isLt
  have hnul : ∀ (l : List UInt8) (last : UInt8), l.length = 14 → st8 (put m buf (l ++ [last])) (buf + 14) 0 = put m buf (l ++ [0]) := by
    intro l last hl
    rw [← hl]
    exact put_over m buf l last (List.cons_ne_nil 0 [])
  -- each number takes the extra byte of the one before it
  simp only [writeClock]
  rw [writeNumber_eq m buf hyear, writeNumber_over m buf _ _ (hfield time.month), writeNumber_over m buf _ _ (hfield time.day),
    writeNumber_over m buf _ _ (hfield time.hours), writeNumber_over m buf _ _ (hfield time.minutes),
    writeNumber_over m buf _ _ (hfield time.seconds), hnul]
  · rfl
  all_goals simp

/-! ## Reading them back -/

theorem decimalDigit_decimalLetter : ∀ d < 10, decimalDigit (decimalLetter d) = d := by decide

theorem parseDecimal_decimal {n v : Nat} (h : v < 10 ^ n) : parseDecimal (decimal n v) = v := by
  have hvalue : parseDecimal (decimal n v) = v % 10 ^ n := numeralValue_numeral decimalDigit_decimalLetter (by decide) n v
  rw [hvalue, Nat.mod_eq_of_lt h]

/-- A number in a text, between what is before and what is after it. -/
theorem parse_part (m : Mem) (buf : Nat) (text before after : List UInt8) {n v k : Nat} (h : v < 10 ^ n)
    (ht : text = before ++ decimal n v ++ after) (hk : before.length = k) :
    parseDecimal (slice (put m buf text) (buf + k) n) = v := by
  have hpart := slice_put_part m buf before (decimal n v) after
  rw [length_decimal] at hpart
  rw [ht, ← hk, hpart, parseDecimal_decimal h]

theorem clockText_decodes (m : Mem) (buf : Nat) (time : Time) : Decodes (put m buf (clockText time)) buf time := by
  have hyear : 100 * (time.century : Nat) + time.year < 10 ^ 4 := by omega
  have hfield : ∀ v : Fin 100, (v : Nat) < 10 ^ 2 := fun v => v.isLt
  have hnul : (clockText time).getD 14 0 = 0 := by simp [clockText, List.getD]
  refine ⟨?_, ?_, ?_, ?_, ?_, ?_, ?_⟩
  · have hfirst := parse_part m buf (clockText time) [] (decimal 2 time.month ++ decimal 2 time.day ++ decimal 2 time.hours ++
      decimal 2 time.minutes ++ decimal 2 time.seconds ++ [0]) hyear (by simp [clockText]) List.length_nil
    rwa [Nat.add_zero] at hfirst
  · exact parse_part m buf _ (decimal 4 (100 * time.century + time.year)) (decimal 2 time.day ++ decimal 2 time.hours ++
      decimal 2 time.minutes ++ decimal 2 time.seconds ++ [0]) (hfield time.month) (by simp [clockText]) (by simp)
  · exact parse_part m buf _ (decimal 4 (100 * time.century + time.year) ++ decimal 2 time.month) (decimal 2 time.hours ++
      decimal 2 time.minutes ++ decimal 2 time.seconds ++ [0]) (hfield time.day) (by simp [clockText]) (by simp)
  · exact parse_part m buf _ (decimal 4 (100 * time.century + time.year) ++ decimal 2 time.month ++ decimal 2 time.day)
      (decimal 2 time.minutes ++ decimal 2 time.seconds ++ [0]) (hfield time.hours) (by simp [clockText]) (by simp)
  · exact parse_part m buf _ (decimal 4 (100 * time.century + time.year) ++ decimal 2 time.month ++ decimal 2 time.day ++
      decimal 2 time.hours) (decimal 2 time.seconds ++ [0]) (hfield time.minutes) (by simp [clockText]) (by simp)
  · exact parse_part m buf _ (decimal 4 (100 * time.century + time.year) ++ decimal 2 time.month ++ decimal 2 time.day ++
      decimal 2 time.hours ++ decimal 2 time.minutes) [0] (hfield time.seconds) (by simp [clockText]) (by simp)
  · rw [put_in m (by simp [clockText]), hnul]

theorem length_clockText (time : Time) : (clockText time).length = 15 := by simp [clockText]

/-! ## Every time -/

/-- After `clock_init` with stable registers: any time they hold, any bytes below the array,
    any memory, any buffer of at least 15 bytes. One turn of `update_clock` is enough. -/
theorem clock_read_text {cmos : Cmos} {statusB : UInt8} {time : Time} (h : Stable cmos statusB time) (t₀ t fuel : Nat)
    (rtcClock : Rtclock) (below : Nat → UInt8) (m : Mem) (buf : Nat) {len : Nat} (hlen : 15 ≤ len) :
    ∃ rtcClock' m', clockRead cmos (fuel + 1) t below (clockInit cmos t₀ rtcClock) m buf len = some (rtcClock', m', 15) ∧
      m' = put m buf (clockText time) ∧ Decodes m' buf time ∧ Only m m' buf (buf + 15) := by
  have hb : (clockInit cmos t₀ rtcClock).isBinary = decide (statusB.toNat &&& 0x4 ≠ 0) := by
    simp only [clockInit, h.status]
  obtain ⟨clock, hclock, hwrite⟩ : ∃ clock, updateClock cmos (clockInit cmos t₀ rtcClock) (fuel + 1) t = some clock ∧
      writeClock clock below m buf = put m buf (clockText time) :=
    ⟨_, updateClock_stable h hb fuel t, writeClock_eq time _ below m buf⟩
  refine ⟨clock, put m buf (clockText time), ?_, rfl, clockText_decodes m buf time, ?_⟩
  · rw [clockRead, if_neg (by omega), hclock, ← hwrite]
    rfl
  · intro x hx
    refine put_out m ?_
    rw [length_clockText]
    exact hx

/-- 21 March 1999, in BCD. -/
def bcdRegisters : Cmos := fun _ reg =>
  if reg = regCentury then 0x19 else if reg = regYear then 0x99 else if reg = regMonth then 0x03
  else if reg = regDay then 0x21 else if reg = regHours then 0x12 else if reg = regMinutes then 0x34
  else if reg = regSeconds then 0x56 else 0x02

theorem bcdRegisters_stable : Stable bcdRegisters 0x02 ⟨19, 99, 3, 21, 12, 34, 56⟩ := by
  constructor <;> intro t <;> rfl

theorem a_bcd_clock_is_read : ∃ rtcClock' m',
    clockRead bcdRegisters 1 1 (fun _ => 7) (clockInit bcdRegisters 0 ⟨true, 0, 0, 0, 0, 0, 0⟩) ⟨fun _ => 0⟩ 100 15 =
      some (rtcClock', m', 15) ∧
    m' = put ⟨fun _ => 0⟩ 100 (clockText ⟨19, 99, 3, 21, 12, 34, 56⟩) ∧ Decodes m' 100 ⟨19, 99, 3, 21, 12, 34, 56⟩ ∧
    Only ⟨fun _ => 0⟩ m' 100 (100 + 15) :=
  clock_read_text bcdRegisters_stable 0 1 0 ⟨true, 0, 0, 0, 0, 0, 0⟩ (fun _ => 7) ⟨fun _ => 0⟩ 100 (Nat.le_refl 15)

end NativeOS.Device.Clock
