/-
  NativeOS.Kern.Names — node names and the field they are copied to.

  Three functions make a node and copy a name into its 64 bytes: `reassemble_nodes` the last
  component of a TAR path, `rootfs_register_volume` a volume's name, both with `strcpy`, and
  `device_install` a device's name with `strncpy` and the length of the field.

  Proved:
  * `node_names_fit_iff` — exactly when the copy ends with a NUL in the field and writes
    nothing behind it: never for a device (`strncpy` either leaves the NUL out or writes one
    behind the field), for the others when the name has 1 to 63 bytes, or no byte at all
    and a NUL is there already.
  * `device_names_leave_the_field` — the short name of a device, a long one of a file.
-/

import NativeOS.Fs.TarPaths
import NativeOS.Kern.Vnode

namespace NativeOS.Kern

open NativeOS.Lib
open NativeOS.Stdkern
open NativeOS.Fs.Tar (normalize splitBasename slash lastComponent basename_cases basename_ne_nil splitBasename_basename headD_ne_zero)

/-! ## The three copies -/

/-- `reassemble_nodes`: what it copies when `path` is the normalised path. -/
def entryName (path : List UInt8) : List UInt8 := if path.headD 0 ≠ 0 then (splitBasename path).2 else []

def nameEntryNode (m : Mem) (vnode : Nat) (path : List UInt8) : Mem := strcpy m vnode (entryName path)

/-- It is not longer than the last component: it is that, or empty because of a slash behind it. -/
theorem entryName_length_le {path : List UInt8} (h0 : 0 ∉ path) : (entryName path).length ≤ (lastComponent path).length := by
  unfold entryName
  split
  · rcases basename_cases h0 with hb | ⟨-, hb⟩
    · exact Nat.le_of_eq (congrArg List.length hb)
    · rw [hb]
      exact Nat.zero_le _
  · exact Nat.zero_le _

theorem entryName_no_nul {path : List UInt8} (h0 : 0 ∉ path) : 0 ∉ entryName path := by
  unfold entryName
  split
  · rw [splitBasename_basename h0]
    exact fun hmem => h0 ((List.rtakeWhile_suffix _ _).subset hmem)
  · exact List.not_mem_nil

/-- `rootfs_register_volume`. -/
def nameVolumeNode (m : Mem) (vnode : Nat) (vvName : List UInt8) : Mem := strcpy m vnode vvName

/-- `device_install`. -/
def nameDeviceNode (m : Mem) (vnode : Nat) (mtname : List UInt8) : Mem := strncpy m vnode mtname 64

/-! ## What is in the field -/

/-- A name that fits is read back, whatever stands behind the field. -/
theorem cstr_strcpy (m : Mem) (vnode : Nat) {src : List UInt8} (h0 : cstr src ≠ []) (hlen : (cstr src).length < 64)
    (rest : List UInt8) : cstr ((nameField (strcpy m vnode src) vnode).bytes ++ rest) = cstr src := by
  have hfits : (cstr src ++ [0]).length ≤ 64 := by
    rw [List.length_append, List.length_singleton]
    exact hlen
  rw [bytes_nameField, strcpy_eq, if_neg h0, slice_put_prefix m vnode hfits, List.append_assoc, List.append_assoc]
  exact cstr_append_zero (zero_not_mem_cstr src) _

theorem cstr_strncpy (m : Mem) (vnode : Nat) {src : List UInt8} (hlen : strlen src < 64) (rest : List UInt8) :
    cstr ((nameField (strncpy m vnode src 64) vnode).bytes ++ rest) = cstr src := by
  have hlong : 64 ≤ (cstr src ++ List.replicate (64 + 1 - strlen src) 0).length := by
    rw [List.length_append, List.length_replicate]
    unfold strlen
    omega
  have hfield : (cstr src ++ List.replicate (64 + 1 - strlen src) 0).take 64 =
      cstr src ++ 0 :: List.replicate (63 - strlen src) 0 := by
    have hsplit : 64 + 1 - strlen src = (63 - strlen src) + 1 + 1 := by omega
    have hzeros : List.replicate (64 + 1 - strlen src) (0 : UInt8) = 0 :: List.replicate (63 - strlen src) 0 ++ [0] := by
      rw [hsplit, List.replicate_succ', List.replicate_succ]
    rw [hzeros, ← List.append_assoc]
    apply List.take_left'
    rw [List.length_append, List.length_cons, List.length_replicate]
    unfold strlen at hlen ⊢
    omega
  rw [bytes_nameField, strncpy_eq, if_pos hlen, slice_put_take m vnode hlong, hfield, List.append_assoc]
  exact cstr_append_zero (zero_not_mem_cstr src) _

/-- A longer one fills the field. -/
theorem field_strncpy (m : Mem) (vnode : Nat) {src : List UInt8} (hlen : 64 ≤ strlen src) :
    (nameField (strncpy m vnode src 64) vnode).bytes = (cstr src).take 64 := by
  have hfull : ((cstr src).take 64).length = 64 := by
    rw [List.length_take]
    exact Nat.min_eq_left hlen
  rw [bytes_nameField, strncpy_eq, if_neg (Nat.not_lt.mpr hlen), slice_put_take m vnode (Nat.le_of_eq hfull.symm),
    List.take_take, Nat.min_self]

/-! ## When a name fits -/

/-- A node about to be named; `stale` is what `strdup`'s buffer held. -/
inductive NewNode where
  | entry (stale name : List UInt8)
  | volume (stale name : List UInt8)
  | device (name : List UInt8)

def NewNode.copyName (m : Mem) (vnode : Nat) : NewNode → Mem
  | .entry stale name => nameEntryNode m vnode (normalize (strdup stale name))
  | .volume stale name => nameVolumeNode m vnode (strdup stale name)
  | .device name => nameDeviceNode m vnode name

def Terminated (m : Mem) (vnode : Nat) : Prop := ∃ i < 64, m (vnode + i) = 0

/-- `strcpy` stays in the field. -/
def FitsField (m : Mem) (vnode : Nat) (src : List UInt8) : Prop :=
  (cstr src = [] ∧ Terminated m vnode) ∨ (1 ≤ (cstr src).length ∧ (cstr src).length ≤ 63)

/-- A short last component fits, if there is a NUL already or no slash behind it. -/
theorem fitsField_entryName {m : Mem} {vnode : Nat} {path : List UInt8} (h0 : 0 ∉ path) (hlen : (lastComponent path).length ≤ 63)
    (h : Terminated m vnode ∨ path ≠ [] ∧ path.getLastD 0 ≠ slash) : FitsField m vnode (entryName path) := by
  have hle := entryName_length_le h0
  unfold FitsField
  rw [cstr_of_no_zero (entryName_no_nul h0)]
  by_cases hname : entryName path = []
  · rcases h with hnul | ⟨hne, hlast⟩
    · exact .inl ⟨hname, hnul⟩
    · rw [entryName, if_pos (headD_ne_zero hne h0)] at hname
      exact absurd hname (basename_ne_nil h0 hne hlast)
  · have hpos := List.length_pos_iff.mpr hname
    exact .inr ⟨hpos, by omega⟩

def NewNode.Fits (m : Mem) (vnode : Nat) : NewNode → Prop
  | .entry stale name => FitsField m vnode (entryName (normalize (strdup stale name)))
  | .volume stale name => FitsField m vnode (strdup stale name)
  | .device _ => False

/-- Nothing outside the field is written, over any memory. -/
def StaysInField (copy : Mem → Mem) (vnode : Nat) : Prop :=
  ∀ m a, (a < vnode ∨ vnode + 64 ≤ a) → copy m a = m a

theorem strcpy_fits_iff (m : Mem) (vnode : Nat) (src : List UInt8) :
    (Terminated (strcpy m vnode src) vnode ∧ StaysInField (fun m => strcpy m vnode src) vnode) ↔ FitsField m vnode src := by
  have hput : ∀ m, strcpy m vnode src = if cstr src = [] then m else put m vnode (cstr src ++ [0]) :=
    fun m => strcpy_eq m vnode src
  unfold FitsField StaysInField
  simp only [hput]
  by_cases h0 : cstr src = []
  · simp [h0]
  have hpos : 1 ≤ (cstr src).length := List.length_pos_iff.mpr h0
  have hlen : (cstr src ++ [0]).length = (cstr src).length + 1 := by rw [List.length_append, List.length_singleton]
  simp only [if_neg h0]
  constructor
  · rintro ⟨-, hstays⟩
    refine .inr ⟨hpos, ?_⟩
    by_contra hlong
    -- the byte behind the field is written: a memory that held another shows it
    have hin : 64 < (cstr src ++ [0]).length := by omega
    have hsame := hstays ⟨fun _ => (cstr src ++ [0]).getD 64 0 + 1⟩ (vnode + 64) (Or.inr (Nat.le_refl _))
    rw [put_in _ hin] at hsame
    exact absurd hsame (by simp)
  · rintro (⟨hnil, -⟩ | ⟨-, hfits⟩)
    · exact absurd hnil h0
    · refine ⟨⟨(cstr src).length, by omega, ?_⟩, fun m' a ha => put_out m' ?_⟩
      · rw [put_in _ (by omega)]
        simp
      · rw [hlen]
        omega

/-- A short name gets one NUL too many, a long one none. -/
theorem strncpy_never_fits (m : Mem) (vnode : Nat) (src : List UInt8) :
    ¬ (Terminated (strncpy m vnode src 64) vnode ∧ StaysInField (fun m => strncpy m vnode src 64) vnode) := by
  intro h
  rcases h with ⟨⟨i, hi, hnul⟩, hstays⟩
  by_cases hlen : strlen src < 64
  · have hsame := hstays ⟨fun _ => 1⟩ (vnode + 64) (Or.inr (Nat.le_refl _))
    rw [strncpy_byte, if_neg (by omega), if_pos ⟨rfl, hlen⟩] at hsame
    have hne : (0 : UInt8) ≠ 1 := by decide
    exact hne hsame
  · have hchar : i < (cstr src).length := Nat.lt_of_lt_of_le hi (Nat.le_of_not_lt hlen)
    rw [strncpy_byte, if_pos (by omega), Nat.add_sub_cancel_left, List.getD_eq_getElem _ _ hchar] at hnul
    have hmem : (cstr src)[i] ∈ cstr src := List.getElem_mem hchar
    rw [hnul] at hmem
    exact zero_not_mem_cstr src hmem

/-- The name of a new node ends inside its field and is copied to nothing else, when it fits
    and only then. -/
theorem node_names_fit_iff (m : Mem) (vnode : Nat) (x : NewNode) :
    (Terminated (x.copyName m vnode) vnode ∧ StaysInField (fun m => x.copyName m vnode) vnode) ↔ x.Fits m vnode := by
  cases x with
  | entry stale name => exact strcpy_fits_iff m vnode (entryName (normalize (strdup stale name)))
  | volume stale name => exact strcpy_fits_iff m vnode (strdup stale name)
  | device name => exact iff_of_false (strncpy_never_fits m vnode name) id

/-- A device called `fb` clears the low byte of `vn_flags`, and so does a file whose name has
    64 bytes. -/
theorem device_names_leave_the_field :
    ¬ StaysInField (fun m => NewNode.copyName m 0 (.device [102, 98])) 0 ∧
    ¬ StaysInField (fun m => NewNode.copyName m 0 (.entry [] ([100, 47] ++ List.replicate 64 97))) 0 := by
  have hdevice : NewNode.copyName ⟨fun _ => 0xFF⟩ 0 (.device [102, 98]) 64 = 0 := by decide +kernel
  have hentry : NewNode.copyName ⟨fun _ => 0xFF⟩ 0 (.entry [] ([100, 47] ++ List.replicate 64 97)) 64 = 0 := by
    decide +kernel
  constructor
  · intro h
    have hsame := h ⟨fun _ => 0xFF⟩ 64 (Or.inr (Nat.le_refl _))
    rw [hdevice] at hsame
    exact absurd hsame (by decide)
  · intro h
    have hsame := h ⟨fun _ => 0xFF⟩ 64 (Or.inr (Nat.le_refl _))
    rw [hentry] at hsame
    exact absurd hsame (by decide)

end NativeOS.Kern
