/-
  NativeOS.Lib.Bytes — byte-addressed memory with little-endian 32-bit words.

  A memory gives every address a byte. `ld32` and `st32` are the word accesses of a
  little-endian machine, at any alignment; a stored word keeps its low 32 bits. `Same`
  says two memories agree on a range, which is all a load of that range sees.
-/

namespace NativeOS.Lib

structure Mem where
  byte : Nat → UInt8

instance : CoeFun Mem (fun _ => Nat → UInt8) := ⟨Mem.byte⟩

def st8 (m : Mem) (a : Nat) (v : UInt8) : Mem := ⟨fun x => if x = a then v else m x⟩

def ld32 (m : Mem) (a : Nat) : Nat :=
  (m a).toNat + 256 * (m (a + 1)).toNat + 65536 * (m (a + 2)).toNat + 16777216 * (m (a + 3)).toNat

def st32 (m : Mem) (a w : Nat) : Mem where
  byte x :=
    if x = a then UInt8.ofNat w
    else if x = a + 1 then UInt8.ofNat (w / 256)
    else if x = a + 2 then UInt8.ofNat (w / 65536)
    else if x = a + 3 then UInt8.ofNat (w / 16777216)
    else m x

def ld64 (m : Mem) (a : Nat) : Nat := ld32 m a + 4294967296 * ld32 m (a + 4)

/-- 32-bit unsigned addition and subtraction. -/
def add32 (a b : Nat) : Nat := (a + b) % 4294967296

def sub32 (a b : Nat) : Nat := (a + (4294967296 - b)) % 4294967296

/-- `m'` holds the bytes of `m` on `[lo, hi)`. -/
def Same (m m' : Mem) (lo hi : Nat) : Prop := ∀ x, lo ≤ x → x < hi → m' x = m x

/-- `m'` differs from `m` on `[lo, hi)` at most. -/
def Only (m m' : Mem) (lo hi : Nat) : Prop := ∀ x, x < lo ∨ hi ≤ x → m' x = m x

/-- Two words four bytes apart. -/
abbrev Apart4 (a b : Nat) : Prop := a + 4 ≤ b ∨ b + 4 ≤ a

theorem add32_eq {a b : Nat} (h : a + b < 4294967296) : add32 a b = a + b := Nat.mod_eq_of_lt h

theorem sub32_eq {a b : Nat} (h : b ≤ a) (ha : a < 4294967296) : sub32 a b = a - b := by
  unfold sub32
  omega

/-! ## Bytes -/

theorem st8_ne (m : Mem) {a x : Nat} (v : UInt8) (h : x ≠ a) : st8 m a v x = m x := by simp [st8, h]

theorem st32_ne (m : Mem) {a x : Nat} (w : Nat) (h : x < a ∨ a + 4 ≤ x) : st32 m a w x = m x := by
  have h0 : x ≠ a := by omega
  have h1 : x ≠ a + 1 := by omega
  have h2 : x ≠ a + 2 := by omega
  have h3 : x ≠ a + 3 := by omega
  simp [st32, h0, h1, h2, h3]

theorem byte_lt (m : Mem) (a : Nat) : (m a).toNat < 256 := (m a).toNat_lt

/-! ## Words -/

theorem ld32_lt (m : Mem) (a : Nat) : ld32 m a < 4294967296 := by
  have h0 := byte_lt m a
  have h1 := byte_lt m (a + 1)
  have h2 := byte_lt m (a + 2)
  have h3 := byte_lt m (a + 3)
  unfold ld32
  omega

/-- The four bytes of a loaded word. -/
theorem ld32_bytes {m : Mem} {a w : Nat} (h : ld32 m a = w) :
    (m a).toNat = w % 256 ∧ (m (a + 1)).toNat = w / 256 % 256 ∧ (m (a + 2)).toNat = w / 65536 % 256 ∧
      (m (a + 3)).toNat = w / 16777216 := by
  have h0 := byte_lt m a
  have h1 := byte_lt m (a + 1)
  have h2 := byte_lt m (a + 2)
  have h3 := byte_lt m (a + 3)
  unfold ld32 at h
  omega

theorem ld32_same {m m' : Mem} {a : Nat} (h : Same m m' a (a + 4)) : ld32 m' a = ld32 m a := by
  unfold ld32
  rw [h a (by omega) (by omega), h (a + 1) (by omega) (by omega), h (a + 2) (by omega) (by omega),
    h (a + 3) (by omega) (by omega)]

theorem ld32_st32_mod (m : Mem) (a w : Nat) : ld32 (st32 m a w) a = w % 4294967296 := by
  simp [ld32, st32]
  omega

theorem ld32_st32_same (m : Mem) (a : Nat) {w : Nat} (h : w < 4294967296) : ld32 (st32 m a w) a = w := by
  rw [ld32_st32_mod, Nat.mod_eq_of_lt h]

theorem ld32_st32_ne (m : Mem) {a b : Nat} (w : Nat) (h : Apart4 a b) : ld32 (st32 m a w) b = ld32 m b :=
  ld32_same fun x hl hr => st32_ne m w (by omega)

/-! ## Agreement -/

theorem Same.refl (m : Mem) (lo hi : Nat) : Same m m lo hi := fun _ _ _ => rfl

theorem Same.trans {m m' m'' : Mem} {lo hi : Nat} (h : Same m m' lo hi) (h' : Same m' m'' lo hi) :
    Same m m'' lo hi := fun x hl hr => (h' x hl hr).trans (h x hl hr)

theorem Same.mono {m m' : Mem} {lo hi lo' hi' : Nat} (h : Same m m' lo hi) (hl : lo ≤ lo') (hr : hi' ≤ hi) :
    Same m m' lo' hi' := fun x h1 h2 => h x (by omega) (by omega)

theorem Only.trans {m m' m'' : Mem} {lo hi : Nat} (h : Only m m' lo hi) (h' : Only m' m'' lo hi) :
    Only m m'' lo hi := fun x hx => (h' x hx).trans (h x hx)

theorem Only.st32 (m : Mem) {a lo hi : Nat} (w : Nat) (hl : lo ≤ a) (hr : a + 4 ≤ hi) : Only m (st32 m a w) lo hi :=
  fun x hx => st32_ne m w (by omega)

theorem Only.same {m m' : Mem} {lo hi lo' hi' : Nat} (h : Only m m' lo hi) (ha : hi' ≤ lo ∨ hi ≤ lo') :
    Same m m' lo' hi' := fun x hl hr => h x (by omega)

end NativeOS.Lib
