/-
  NativeOS.Kern.TarRead — reading a file of a TAR image (`tarfs_read` of
  `kernel/fs/tarfs/tar.c`, `kernel/kern/fs_fsops.c`, `kernel_welcome` of
  `kernel/kern/kern_main.c`).

  `tarfs_read` decodes the size field of the entry on every call and copies from the block
  behind the header, byte by byte, until the length is used up or the offset has reached
  the size. `kernel_welcome` asks for 64 bytes at a time, hands them to the console and moves
  the offset by what it got, until it gets nothing.

  The image and the caller's buffer are in one memory. What the console is handed is a list
  of its own (`out`): what it does with it is `NativeOS.Device.Vtcon`'s.

  Proved:
  * `tar_file_read_back` — a read returns the bytes asked for, and the loop emits the file.
-/

import NativeOS.Fs.TarArchive
import NativeOS.Kern.Vfs

namespace NativeOS.Kern

open NativeOS.Lib
open NativeOS.Fs.Tar

def voFread : Nat := 1
def voFwrite : Nat := 2

/-! ## tarfs_read -/

/-- `tarfs_read`'s loop, `len` bytes before the buffer is full. -/
def readLoop (data dst size : Nat) : Nat → Nat → Nat → Mem → Mem × Nat
  | 0, read, _, m => (m, read)
  | len + 1, read, offt, m =>
    if offt < size then
      readLoop data dst size len (add32 read 1) (add32 offt 1) (st8 m (add32 dst read) (m (add32 data offt)))
    else (m, read)

def tarfsRead (s : Fs) (node : NodePtr) (offt buf len : Nat) : Option (Fs × Nat) := do
  let block := (s.tnode (s.node node).payload).block
  let size ← octal2int s.mem (add32 block sizeOffset)
  let r := readLoop (add32 block 512) buf size len 0 offt s.mem
  some ({ s with mem := r.1 }, r.2)

/-! ## fs_fsops.c -/

/-- The kinds of nodes that `fs_open`, `fs_close`, `fs_read` and `fs_write` pass on. -/
def OpensAsFile (flags : Nat) : Prop := flags = vnFregfile ∨ flags = vnFchardev ∨ flags = vnFblockdev

instance (flags : Nat) : Decidable (OpensAsFile flags) :=
  inferInstanceAs (Decidable (flags = vnFregfile ∨ flags = vnFchardev ∨ flags = vnFblockdev))

/-- What the four functions have in common; `op` is the driver's operation. -/
def fileOp {α : Type} (s : Fs) (node : NodePtr) (fails : α) (op : Family → α) : α :=
  if (s.node node).volume = 0 then fails
  else if OpensAsFile (s.node node).flags then op (s.vol (s.node node).volume).family
  else fails

/-- `devOpen`: `dev_open` of the device the node's payload points at. -/
def fsOpen (devOpen : Nat → Nat → Int) (s : Fs) (node : NodePtr) (flags : Nat) : Int :=
  fileOp s node (-1) fun
    | .rootfs => if flags &&& voFread = 0 ∨ flags &&& voFwrite ≠ 0 then -1 else 0
    | .devfs => devOpen (s.node node).payload flags
    | .tarfs => 0

/-- `devRead`: `devfs_read`, which calls the device. -/
def fsRead (devRead : Fs → NodePtr → Nat → Nat → Nat → Option (Fs × Nat)) (s : Fs) (node : NodePtr) (offt buf len : Nat) :
    Option (Fs × Nat) :=
  fileOp s node (some (s, 4294967295)) fun
    | .rootfs => some (s, 0)
    | .devfs => devRead s node offt buf len
    | .tarfs => tarfsRead s node offt buf len

/-! ## kernel_welcome -/

/-- `kernel_welcome`'s loop with a buffer of `chunk` bytes. `read` is an `int`: a count from
    2^31 on, and the failure answer, are negative. -/
def welcomeLoop (devRead : Fs → NodePtr → Nat → Nat → Nat → Option (Fs × Nat)) (motd : NodePtr) (buffer chunk : Nat) :
    Nat → Fs → Nat → List UInt8 → Option (Fs × List UInt8)
  | 0, _, _, _ => none
  | fuel + 1, s, offt, out => do
    let r ← fsRead devRead s motd offt buffer chunk
    if 0 < r.2 ∧ r.2 < 2147483648 then
      welcomeLoop devRead motd buffer chunk fuel r.1 (add32 offt r.2) (out ++ slice r.1.mem buffer r.2)
    else some (r.1, out)

/-! ## A file in memory -/

/-- The node's payload is the entry `x`, whose header is at `block`. -/
structure FileAt (s : Fs) (node : NodePtr) (block : Nat) (x : Entry) : Prop where
  payload : (s.tnode (s.node node).payload).block = block
  wellFormed : x.WellFormed
  length : x.content.length < 2147483648
  fits : block + blockSize + x.content.length < 4294967296
  size : BytesAt s.mem (block + sizeOffset) (x.digits ++ [0])
  content : BytesAt s.mem (block + blockSize) x.content

/-- How many bytes a read of `len` bytes at `offt` returns. -/
def readCount (x : Entry) (offt len : Nat) : Nat :=
  if x.content.length ≤ offt then 0 else min len (x.content.length - offt)

/-- The `n` bytes at `buf` are memory, and none of them is in `[lo, hi)`. -/
def BufferApart (buf n lo hi : Nat) : Prop := buf + n ≤ 4294967296 ∧ (buf + n ≤ lo ∨ hi ≤ buf)

theorem readCount_eq (x : Entry) (offt len : Nat) : readCount x offt len = ((x.content.drop offt).take len).length := by
  simp only [readCount, List.length_take, List.length_drop]
  split <;> omega

theorem bytesAt_slice {m : Mem} {a : Nat} {l : List UInt8} (h : BytesAt m a l) {offt : Nat} (ho : offt < l.length) :
    l.drop offt = m (a + offt) :: l.drop (offt + 1) := by
  rw [List.drop_eq_getElem_cons ho, h offt ho]
  simp [ho]

/-! ## One read -/

/-- The bytes from `offt` on, one after the other. -/
theorem readLoop_eq {data : Nat} (dst : Nat) {content : List UInt8} (hdata : data + content.length ≤ 4294967296) :
    ∀ (len read offt : Nat) {m : Mem}, BytesAt m data content →
    BufferApart (dst + read) ((content.drop offt).take len).length data (data + content.length) →
    read + content.length - offt ≤ 4294967295 →
    readLoop data dst content.length len read offt m =
      (put m (dst + read) ((content.drop offt).take len), read + ((content.drop offt).take len).length)
  | 0, read, offt, m, _, _, _ => by simp [readLoop, put]
  | len + 1, read, offt, m, hb, hap, hread => by
    by_cases ho : offt < content.length
    · have hstep := bytesAt_slice hb ho
      rw [hstep, List.take_succ_cons, List.length_cons] at hap ⊢
      unfold BufferApart at hap
      have hb' : BytesAt (st8 m (dst + read) (m (data + offt))) data content :=
        bytesAt_congr hb fun x hl hr => st8_ne m _ (by omega)
      have hnext := readLoop_eq dst hdata len (read + 1) (offt + 1) hb' (by unfold BufferApart; omega) (by omega)
      have hr : add32 read 1 = read + 1 := add32_eq (by omega)
      have ho' : add32 offt 1 = offt + 1 := add32_eq (by omega)
      have hdst : add32 dst read = dst + read := add32_eq (by omega)
      have hsrc : add32 data offt = data + offt := add32_eq (by omega)
      rw [readLoop, if_pos ho, hr, ho', hdst, hsrc, hnext, put_cons, Nat.add_assoc dst, Nat.add_assoc read, Nat.add_comm 1]
    · rw [readLoop, if_neg ho, List.drop_of_length_le (by omega)]
      simp [put]

section

variable {devOpen : Nat → Nat → Int} {devRead : Fs → NodePtr → Nat → Nat → Nat → Option (Fs × Nat)}
variable {s : Fs} {node : NodePtr} {block : Nat} {x : Entry}

theorem FileAt.read (h : FileAt s node block x) {offt buf len : Nat}
    (hbuf : BufferApart buf (readCount x offt len) (block + blockSize) (block + blockSize + x.content.length)) :
    tarfsRead s node offt buf len =
      some ({ s with mem := put s.mem buf ((x.content.drop offt).take len) }, readCount x offt len) := by
  have hfits : block + 512 + x.content.length < 4294967296 := h.fits
  have hlength := h.length
  have hfield : add32 block sizeOffset = block + sizeOffset := add32_eq (by show block + 124 < _; omega)
  have hdata : add32 block 512 = block + 512 := add32_eq (by omega)
  have hsize : octal2int s.mem (block + sizeOffset) = some x.content.length :=
    octal2int_entry h.wellFormed (by show block + 124 + 11 < _; omega) (by omega) h.size
  rw [readCount_eq] at hbuf ⊢
  have hloop := readLoop_eq buf (Nat.le_of_lt h.fits) len 0 offt h.content hbuf (by omega)
  rw [Nat.add_zero, Nat.zero_add] at hloop
  unfold tarfsRead
  rw [h.payload]
  simp only [hfield, hdata, hsize, Option.bind_eq_bind, Option.bind_some]
  rw [hloop]

/-! ## The loop -/

/-- A buffer that is neither in the header nor in the content. -/
theorem FileAt.write (h : FileAt s node block x) {buf : Nat} {l : List UInt8}
    (hap : BufferApart buf l.length block (block + blockSize + x.content.length)) :
    FileAt { s with mem := put s.mem buf l } node block x := by
  have hout : ∀ a, block ≤ a → a < block + blockSize + x.content.length → put s.mem buf l a = s.mem a :=
    fun a hl hr => put_out s.mem (by unfold BufferApart at hap; omega)
  have hdigits := h.wellFormed.digits_le
  have hsize : (x.digits ++ [0]).length ≤ 12 := by
    rw [List.length_append, List.length_singleton]
    exact Nat.succ_le_succ hdigits
  refine ⟨h.payload, h.wellFormed, h.length, h.fits, bytesAt_congr h.size fun a hl hr => hout a ?_ ?_,
    bytesAt_congr h.content fun a hl hr => hout a ?_ hr⟩
  · exact Nat.le_trans (Nat.le_add_right _ _) hl
  · have hend : a < block + 124 + 12 := Nat.lt_of_lt_of_le hr (Nat.add_le_add_left hsize _)
    show a < block + 512 + x.content.length
    omega
  · exact Nat.le_trans (Nat.le_add_right _ _) hl

/-- `fs_read` of the node is `tarfs_read`. -/
def ReadsTar (s : Fs) (node : NodePtr) : Prop :=
  (s.node node).volume ≠ 0 ∧ OpensAsFile (s.node node).flags ∧ (s.vol (s.node node).volume).family = .tarfs

theorem ReadsTar.fsRead (h : ReadsTar s node) (offt buf len : Nat) :
    fsRead devRead s node offt buf len = tarfsRead s node offt buf len := by
  rw [Kern.fsRead, fileOp, if_neg h.1, if_pos h.2.1, h.2.2]

/-- What `fs_open` lets through. -/
theorem readsTar_of_open {flags : Nat} (hfamily : (s.vol (s.node node).volume).family = .tarfs)
    (hopen : fsOpen devOpen s node flags = 0) : ReadsTar s node := by
  unfold fsOpen fileOp at hopen
  split at hopen
  · cases hopen
  · split at hopen
    · exact ⟨‹_›, ‹_›, hfamily⟩
    · cases hopen

/-- `offt` bytes of the file are emitted, and the loop emits the others: each turn a chunk, the
    last turn none. -/
theorem FileAt.welcome {motd : NodePtr} {buffer chunk : Nat} (hchunk : 0 < chunk) :
    ∀ (fuel : Nat) {s : Fs} (offt : Nat) (out : List UInt8), FileAt s motd block x → ReadsTar s motd →
    BufferApart buffer chunk block (block + blockSize + x.content.length) → offt ≤ x.content.length →
    x.content.length - offt < fuel →
    ∃ m, welcomeLoop devRead motd buffer chunk fuel s offt out = some ({ s with mem := m }, out ++ x.content.drop offt) ∧
      ∀ a, (a < buffer ∨ buffer + chunk ≤ a) → m a = s.mem a
  | 0, _, _, _, _, _, _, _, hf => absurd hf (Nat.not_lt_zero _)
  | fuel + 1, s, offt, out, h, hreads, hap, ho, hf => by
    have hlength := h.length
    have hcount : readCount x offt chunk ≤ chunk := by
      rw [readCount_eq]
      exact List.length_take_le _ _
    have hbuf : BufferApart buffer (readCount x offt chunk) block (block + blockSize + x.content.length) := by
      unfold BufferApart at hap ⊢
      omega
    have hdata : BufferApart buffer (readCount x offt chunk) (block + blockSize) (block + blockSize + x.content.length) := by
      have hlo : block ≤ block + blockSize := Nat.le_add_right _ _
      unfold BufferApart at hbuf ⊢
      omega
    have hread := h.read hdata
    rw [welcomeLoop, hreads.fsRead, hread]
    simp only [Option.bind_eq_bind, Option.bind_some]
    rw [readCount_eq] at hbuf hcount ⊢
    by_cases hend : offt = x.content.length
    · -- nothing is left
      have hnil : x.content.drop offt = [] := List.drop_of_length_le (Nat.le_of_eq hend.symm)
      refine ⟨s.mem, ?_, fun _ _ => rfl⟩
      rw [hnil]
      simp [put]
    · have hpos : 0 < ((x.content.drop offt).take chunk).length := by
        rw [List.length_take, List.length_drop]
        omega
      have hle : ((x.content.drop offt).take chunk).length ≤ x.content.length - offt := by
        rw [List.length_take, List.length_drop]
        omega
      have hnext : add32 offt ((x.content.drop offt).take chunk).length =
          offt + ((x.content.drop offt).take chunk).length := add32_eq (by omega)
      rw [if_pos ⟨hpos, by omega⟩, slice_put_self, hnext]
      obtain ⟨m, hrun, hout⟩ := FileAt.welcome hchunk fuel (offt + ((x.content.drop offt).take chunk).length)
        (out ++ (x.content.drop offt).take chunk) (h.write hbuf) hreads hap (by omega) (by omega)
      refine ⟨m, ?_, fun a ha => (hout a ha).trans (put_out s.mem (by omega))⟩
      have hrest : (x.content.drop offt).take chunk ++ x.content.drop (offt + ((x.content.drop offt).take chunk).length) =
          x.content.drop offt := by
        rw [← List.drop_drop, List.length_take]
        rcases Nat.le_total chunk (x.content.drop offt).length with hc | hc
        · rw [Nat.min_eq_left hc, List.take_append_drop]
        · rw [Nat.min_eq_right hc, List.take_of_length_le hc, List.drop_length, List.append_nil]
      rw [hrun, List.append_assoc, hrest]

/-- A read of an entry returns the bytes asked for, as many as there are, and writes them to the
    buffer and nothing else. Once the file is opened, the loop over any buffer that is not in
    the file comes to an end, and what it has emitted is the file. -/
theorem tar_file_read_back (h : FileAt s node block x) :
    (∀ offt buf len, BufferApart buf (readCount x offt len) (block + blockSize) (block + blockSize + x.content.length) →
      tarfsRead s node offt buf len =
        some ({ s with mem := put s.mem buf ((x.content.drop offt).take len) },
          if x.content.length ≤ offt then 0 else min len (x.content.length - offt))) ∧
    ((s.vol (s.node node).volume).family = .tarfs → fsOpen devOpen s node voFread = 0 →
      ∀ buffer chunk, 0 < chunk → BufferApart buffer chunk block (block + blockSize + x.content.length) →
      ∀ fuel, x.content.length < fuel → ∃ m,
        welcomeLoop devRead node buffer chunk fuel s 0 [] = some ({ s with mem := m }, x.content) ∧
        ∀ a, (a < buffer ∨ buffer + chunk ≤ a) → m a = s.mem a) := by
  refine ⟨fun offt buf len hbuf => h.read hbuf, fun hfamily hopen buffer chunk hchunk hap fuel hfuel => ?_⟩
  have hreads := readsTar_of_open hfamily hopen
  exact h.welcome hchunk fuel 0 [] hreads hap (Nat.zero_le _) hfuel

end

/-! ## Two bytes -/

def twoBytes : Entry := ⟨[97], [50], [104, 105]⟩

/-- Their node, on a volume of its own. -/
def twoBytesFs : Fs :=
  { bareFs with
    mem := put (put (put ⟨fun _ => 0⟩ 0x100000 [97]) 0x10007C [50]) 0x100200 [104, 105]
    node := fun _ => ⟨emptyName, vnFregfile, none, 16, 64⟩
    vol := fun _ => ⟨[84], .tarfs, none, 32⟩
    tnode := fun _ => ⟨80, 0x100000⟩ }

theorem twoBytesFs_file : FileAt twoBytesFs (.heap 80) 0x100000 twoBytes where
  payload := rfl
  wellFormed := by decide
  length := by decide
  fits := by decide
  size := by decide
  content := by decide

theorem two_bytes_are_read_and_emitted :
    (tarfsRead twoBytesFs (.heap 80) 1 0x200000 64).map Prod.snd = some 1 ∧
    ∃ m, welcomeLoop (fun _ _ _ _ _ => none) (.heap 80) 0x200000 1 3 twoBytesFs 0 [] =
      some ({ twoBytesFs with mem := m }, [104, 105]) := by
  obtain ⟨hread, hloop⟩ := @tar_file_read_back (fun _ _ => -1) (fun _ _ _ _ _ => none) _ _ _ _ twoBytesFs_file
  refine ⟨by rw [hread 1 0x200000 64 ⟨by decide, .inr (by decide)⟩]; rfl, ?_⟩
  obtain ⟨m, hm, -⟩ := hloop rfl rfl 0x200000 1 (by decide) ⟨by decide, .inr (by decide)⟩ 3 (by decide)
  exact ⟨m, hm⟩

end NativeOS.Kern
