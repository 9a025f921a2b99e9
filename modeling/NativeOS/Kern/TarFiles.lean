/-
  NativeOS.Kern.TarFiles — an archive's files, from the image to the caller's buffer.

  `vfs_mount` leaves the tree of the archive's paths (`TarVolume`) over an image whose names may
  have lost slashes (`Fs.TarImage`). A reader goes through `fs_resolve`, `fs_open` and `fs_read`,
  and the driver decodes the header in the image again on every read; so what is read back
  rests on what the mount has left of the image. That is an archive again, of the same files,
  which can be mounted another time.

  Proved: `archived_files_read_back`.
-/

import NativeOS.Fs.TarImage
import NativeOS.Kern.Fsops
import NativeOS.Kern.TarVolume

namespace NativeOS.Kern

open NativeOS.Lib
open NativeOS.Stdkern
open NativeOS.Fs.Tar

/-! ## Names in the tree -/

section

variable {s : Fs} {vnodes : Nat → VnodeAnswer} {slots : List Slot} {vol : Nat}

/-- Nothing is in what is not a directory. -/
theorem below_dir (hs : Slots vnodes slots) {y : Slot} (hy : y ∈ slots) (htype : y.entry.type ≠ 53) (c : List UInt8) :
    Directory.find (fun x => x.entry.comps) slots (y.entry.comps ++ [c]) = none := by
  rw [Directory.find_eq_none]
  intro x hx hxc
  obtain ⟨z, hz, hzc, hztype⟩ := hs.parent hx (by rw [hxc]; simp)
  rw [hxc, List.dropLast_concat] at hzc
  rw [hs.comps_inj hz hy hzc] at hztype
  exact htype hztype

/-- A name in a node is the entry of one component more. -/
theorem TarTree.finddir (h : TarTree vnodes slots vol s) (hs : Slots vnodes slots) {y : Slot} (hy : y ∈ slots) {c : List UInt8}
    (hc : 0 ∉ c) : fsFinddir s (y.vnode vnodes) c =
      (Directory.find (fun x => x.entry.comps) slots (y.entry.comps ++ [c])).map (Slot.vnode vnodes) := by
  rw [fsFinddir_slot hs h hy, cstr_of_no_zero hc]
  by_cases htype : y.entry.type = 53
  · rw [if_pos htype]
  · rw [if_neg htype, below_dir hs hy htype]
    rfl

theorem entryFlags_bit {type : UInt8} (h : type ≠ 53) : entryFlags type &&& vnFdir = 0 := by
  rw [entryFlags, if_neg h]
  split <;> rfl

/-- A path of two names in a volume with an archive's tree. -/
theorem TarTree.resolveTwo (h : TarTree vnodes slots vol s) (hs : Slots vnodes slots) {volume c d : List UInt8} (h0 : 0 ∉ volume)
    (hcolon : colon ∉ volume) (hvolume : vfsGetVolume s volume = (s.vol vol).root) (hc : 0 ∉ c ∧ slash ∉ c) (hd : 0 ∉ d ∧ slash ∉ d)
    (dup : List UInt8) :
    fsResolve dup s (volumePath volume (c ++ slash :: d)) =
      if (Directory.find (fun x => x.entry.comps) slots [c]).isNone then .nullDeref
      else .ret ((Directory.find (fun x => x.entry.comps) slots [c, d]).map (Slot.vnode vnodes)) := by
  obtain ⟨r, hr, hrc⟩ := hs.root
  have hpath : 0 ∉ c ++ slash :: d := by
    rw [List.mem_append, List.mem_cons, not_or, not_or]
    exact ⟨hc.1, by decide, hd.1⟩
  have hhead : (c ++ slash :: d).headD 0 ≠ 0 := headD_ne_zero (by simp) hpath
  have hfirst := h.finddir hs hr hc.1
  rw [hrc, List.nil_append] at hfirst
  rw [fsResolve_volumePath h0 hcolon hpath, hvolume, h.root r hr hrc]
  dsimp only
  rw [if_pos hhead, fsFollowPath_step hc.1 hc.2, hfirst]
  cases hdir : Directory.find (fun x => x.entry.comps) slots [c] with
  | none => rfl
  | some dir =>
    obtain ⟨hmem, hcomps⟩ := Directory.find_mem hdir
    have hnext := h.finddir hs hmem hd.1
    rw [hcomps] at hnext
    rw [Option.map_some, if_neg (by simp)]
    dsimp only
    rw [(h.made dir hmem).flags]
    by_cases htype : dir.entry.type = 53
    · rw [htype, if_neg (by decide), fsFollowPath_last hd.1 hd.2, hnext]
      rfl
    · have hnone := below_dir hs hmem htype d
      rw [hcomps] at hnone
      rw [if_pos (entryFlags_bit htype)]
      exact congrArg Resolved.ret (congrArg (Option.map _) hnone).symm

end

/-! ## The image a mount leaves -/

section

variable {answers : MountAnswers} {s s' : Fs} {name : List UInt8} {argp : Nat} {es es' : List ArchiveEntry}

/-- The mount is the driver's, as far as memory is concerned. -/
theorem NewTarVolume.driven (h : NewTarVolume answers s name argp es)
    (hmount : vfsMount answers s Family.tarfs.ident name argp = some (s', 0)) :
    ∃ t : Fs × Int, tarfsMount answers.tar (s.setVol answers.volume ⟨strdup answers.dup name, .tarfs, none, argp⟩) answers.volume =
      some t ∧ s'.mem = t.1.mem ∧ s'.spilled = t.1.spilled := by
  rcases vfsMount_cases hmount with hr | ⟨family, mounted, -, hdriver, -, hfsd, hend⟩
  · exact absurd (Prod.mk.inj hr).2 (by decide)
  rw [h.driver, Option.some.injEq] at hdriver
  subst hdriver
  refine ⟨mounted, hfsd, ?_⟩
  rcases hend with ⟨-, hr⟩ | ⟨-, hr⟩
  · exact absurd (Prod.mk.inj hr).2 (by decide)
  · rw [(Prod.mk.inj hr).1]
    exact ⟨rfl, rfl⟩

theorem NewTarVolume.trimmed (h : NewTarVolume answers s name argp es)
    (hmount : vfsMount answers s Family.tarfs.ident name argp = some (s', 0)) :
    Trimmed (namesAt argp (es.map ArchiveEntry.entry)) s.mem s'.mem := by
  obtain ⟨t, ht, hmem, -⟩ := h.driven hmount
  generalize hs1 : s.setVol answers.volume ⟨strdup answers.dup name, .tarfs, none, argp⟩ = s1 at ht
  have hpayload : (s1.vol answers.volume).payload = argp := by rw [← hs1, Fs.setVol_self]
  have hmem1 : s1.mem = s.mem := by rw [← hs1]; rfl
  have hdriver := @tarfsMount_trimmed answers.tar s1 answers.volume _ h.archive.wellFormed
  rw [hpayload, hmem1] at hdriver
  obtain ⟨t', ht', htrimmed⟩ := hdriver h.image.1 h.fits h.tar.payload (by rw [List.length_map]; exact h.tar.entry)
  rw [ht, Option.some.injEq] at ht'
  rw [hmem, ht']
  exact htrimmed

/-- An archive's names fit their nodes. -/
theorem NewTarVolume.spilled (h : NewTarVolume answers s name argp es)
    (hmount : vfsMount answers s Family.tarfs.ident name argp = some (s', 0)) : s'.spilled = s.spilled := by
  obtain ⟨t, ht, -, hspilled⟩ := h.driven hmount
  generalize hs1 : s.setVol answers.volume ⟨strdup answers.dup name, .tarfs, none, argp⟩ = s1 at ht
  have hpayload : (s1.vol answers.volume).payload = argp := by rw [← hs1, Fs.setVol_self]
  have himage : ImageAt s1.mem (s1.vol answers.volume).payload (es.map ArchiveEntry.entry) := by
    rw [hpayload, ← hs1]
    exact h.image.1
  have hshort : ∀ y ∈ es.map ArchiveEntry.entry, (lastComponent (normalize y.name)).length ≤ 79 :=
    List.forall_mem_map.mpr fun x hx => Nat.le_trans (h.archive.ok x hx).lastComponent (by decide)
  have hsame := tarfsMount_spilled h.archive.wellFormed himage (by rw [hpayload]; exact h.fits)
    (by rw [List.length_map]; exact h.tar.toAllocates) hshort ht
  rw [hspilled, hsame, ← hs1]
  rfl

/-- There is an archive of the same files where the archive was. -/
theorem NewTarVolume.left (h : NewTarVolume answers s name argp es)
    (hmount : vfsMount answers s Family.tarfs.ident name argp = some (s', 0)) :
    ∃ es', List.Forall₂ SameArchived es es' ∧ Archive es' ∧ ArchiveAt s'.mem argp es' := by
  have hwell := h.archive.wellFormed
  have htrimmed := h.trimmed hmount
  obtain ⟨ys, hys, himage⟩ := htrimmed.image (namesAt_apart _ hwell) _ hwell h.image.1 (fun bn hbn => .inr hbn) fun bn hbn => hbn
  obtain ⟨es', hes, hentries⟩ := archived_of_files h.archive.ok hys
  rw [← hentries] at himage
  refine ⟨es', hes, h.archive.sameArchived hes, himage, fun bx hbx => ?_⟩
  rw [withHeaders, headers_sameArchived hes] at hbx
  obtain ⟨x, hx, hmem⟩ := Directory.paired_zip hes.flip _ bx hbx
  refine (htrimmed.header hwell (List.of_mem_zip hbx).1 (by decide)).trans ?_
  rw [h.image.2 (bx.1, x) hmem, hx.type]

/-- The bytes of an entry after the mount. -/
theorem NewTarVolume.fileLeft (h : NewTarVolume answers s name argp es)
    (hmount : vfsMount answers s Family.tarfs.ident name argp = some (s', 0)) {block : Nat} {x : ArchiveEntry}
    (hx : (block, x) ∈ withHeaders argp es) : BytesAt s'.mem (block + sizeOffset) (x.entry.digits ++ [0]) ∧
      BytesAt s'.mem (block + blockSize) x.entry.content ∧
      block + blockSize + x.entry.content.length ≤ argp + imageSize (es.map ArchiveEntry.entry) := by
  have hentry : ∀ {l : List ArchiveEntry} {y : ArchiveEntry}, (block, y) ∈ withHeaders argp l →
      (block, y.entry) ∈ (headers argp (l.map ArchiveEntry.entry)).zip (l.map ArchiveEntry.entry) := by
    intro l y hy
    rw [List.zip_map_right]
    exact List.mem_map_of_mem hy
  obtain ⟨es', hes, -, himage⟩ := h.left hmount
  obtain ⟨x', hsame, hx'⟩ := Directory.paired_zip hes _ _ hx
  rw [← headers_sameArchived hes] at hx'
  obtain ⟨hsize, hcontent, -⟩ := imageAt_file _ himage.1 _ (hentry hx')
  have hend := (imageAt_file _ h.image.1 _ (hentry hx)).2.2
  have hdigits : x'.entry.digits = x.entry.digits := hsame.digits
  have hsamecontent : x'.entry.content = x.entry.content := hsame.content
  rw [hdigits] at hsize
  rw [hsamecontent] at hcontent
  exact ⟨hsize, hcontent, hend⟩

/-! ## Reading -/

/-- A read of an entry that is in memory, from anywhere to anywhere else. -/
theorem tarfsRead_entry {node : NodePtr} {block : Nat} {x : Entry} (hpayload : (s.tnode (s.node node).payload).block = block)
    (hwell : x.WellFormed) (hfits : block + blockSize + x.content.length < 4294967296)
    (hsize : BytesAt s.mem (block + sizeOffset) (x.digits ++ [0])) (hcontent : BytesAt s.mem (block + blockSize) x.content)
    {offt buf len : Nat}
    (hbuf : BufferApart buf (readCount x offt len) (block + blockSize) (block + blockSize + x.content.length)) :
    tarfsRead s node offt buf len =
      some ({ s with mem := put s.mem buf ((x.content.drop offt).take len) }, readCount x offt len) := by
  have hblock : blockSize = 512 := rfl
  have hfield : add32 block sizeOffset = block + sizeOffset := add32_eq (by show block + 124 < _; omega)
  have hdata : add32 block 512 = block + 512 := add32_eq (by omega)
  have hoctal : octal2int s.mem (block + sizeOffset) = some x.content.length :=
    octal2int_entry hwell (by show block + 124 + 11 < _; omega) (by omega) hsize
  rw [readCount_eq] at hbuf ⊢
  have hloop := readLoop_eq buf (Nat.le_of_lt hfits) len 0 offt hcontent hbuf (by omega)
  rw [Nat.add_zero, Nat.zero_add] at hloop
  unfold tarfsRead
  rw [hpayload]
  simp only [hfield, hdata, hoctal, Option.bind_eq_bind, Option.bind_some]
  rw [hloop]

theorem opensAsFile_entryFlags (type : UInt8) : OpensAsFile (entryFlags type) ↔ type = 48 := by
  unfold entryFlags
  split
  · rename_i h
    rw [h]
    decide
  · rename_i h
    split
    · exact iff_of_false (by decide) h
    · exact iff_of_false (by decide) h

/-- A call on an entry's node gets to the driver when the entry is a file. -/
theorem onFile_slot {W α : Type} {answers : Nat → VnodeAnswer} {slots : List Slot} {vol : Nat} {x : Slot}
    (htree : TarTree answers slots vol s) (hx : x ∈ slots) (fails : α) (hook : NodePtr → Family → Fsops.Op W α) :
    Fsops.onFile (some (x.vnode answers)) fails hook s =
      if x.entry.type = 48 then hook (x.vnode answers) .tarfs s else Fsops.ret fails s := by
  have hmade := htree.made x hx
  unfold Fsops.onFile fileOp
  simp only [hmade.volume, hmade.flags, htree.family, opensAsFile_entryFlags]
  rw [if_neg htree.volume]
  split <;> rfl

theorem TarTree.store {answers : Nat → VnodeAnswer} {slots : List Slot} {vol : Nat} (h : TarTree answers slots vol s) (m : Mem) :
    TarTree answers slots vol { s with mem := m } :=
  ⟨h.volume, h.family, h.nodes, h.block, fun x hx => (h.made x hx).congr rfl rfl, h.root⟩

/-- A file's bytes are where they were, in an image of 4 GiB at most. -/
theorem TarTree.fsRead {W : Type} (devs : Nat → Fsops.Device W) {answers : Nat → VnodeAnswer} {slots : List Slot} {vol : Nat}
    {z : Slot} (htree : TarTree answers slots vol s) (hs : Slots answers slots) (hz : z ∈ slots) (htype : z.entry.type = 48)
    {lo top offt buf len : Nat}
    (hsize : BytesAt s.mem (z.block + sizeOffset) (z.entry.entry.digits ++ [0]))
    (hcontent : BytesAt s.mem (z.block + blockSize) z.entry.entry.content)
    (hend : z.block + blockSize + z.entry.entry.content.length ≤ top) (htop : top < 4294967296) (hlo : lo ≤ z.block)
    (hbuf : BufferApart buf (readCount z.entry.entry offt len) lo top) (w : W) :
    Fsops.fsRead devs (some (z.vnode answers)) offt buf len s w =
      some (put s.mem buf ((z.entry.content.drop offt).take len), w, readCount z.entry.entry offt len) := by
  have hread := @tarfsRead_entry s (z.vnode answers) z.block z.entry.entry
    (by rw [(htree.made z hz).payload]; exact htree.block z hz) (hs.ok hz).entry (by omega) hsize hcontent offt buf len ⟨hbuf.1, ?_⟩
  · rw [Fsops.fsRead, onFile_slot htree hz, if_pos htype]
    dsimp only
    rw [hread]
    rfl
  · exact hbuf.2.imp (fun hlo => by omega) fun hhi => by omega

/-- Mounting an archive leaves an archive of the same entries where it was. As long as its bytes
    are as the mount has left them, every entry's path resolves; a file can be opened and a read
    returns its content from the offset on, to a buffer outside the image, and changes nothing
    else; what is not a file cannot be opened or read. -/
theorem archived_files_read_back {W : Type} (devs : Nat → Fsops.Device W) (h : NewTarVolume answers s name argp es) :
    ∃ s' es', vfsMount answers s Family.tarfs.ident name argp = some (s', 0) ∧
      (List.Forall₂ SameArchived es es' ∧ Archive es' ∧ ArchiveAt s'.mem argp es') ∧
      ∀ m, (∀ a, argp ≤ a → a < argp + imageSize (es.map ArchiveEntry.entry) → m a = s'.mem a) → ∀ x ∈ es,
        ∃ n, (∀ dup, fsResolve dup { s' with mem := m } (volumePath name x.path) = .ret (some n)) ∧
          (x.type = 48 → ∀ w : W,
            (∀ flags, Fsops.fsOpen devs (some n) flags { s' with mem := m } w = some (m, w, 0)) ∧
            ∀ offt buf len,
              BufferApart buf (readCount x.entry offt len) argp (argp + imageSize (es.map ArchiveEntry.entry)) →
              Fsops.fsRead devs (some n) offt buf len { s' with mem := m } w =
                some (put m buf ((x.content.drop offt).take len), w, readCount x.entry offt len)) ∧
          (x.type ≠ 48 → ∀ w : W,
            (∀ flags, Fsops.fsOpen devs (some n) flags { s' with mem := m } w = some (m, w, -1)) ∧
            ∀ offt buf len, Fsops.fsRead devs (some n) offt buf len { s' with mem := m } w = some (m, w, Fsops.minusOne)) := by
  obtain ⟨s', hs', htree, hvolume⟩ := h.mount
  obtain ⟨es', hes, harchive, himage⟩ := h.left hs'
  refine ⟨s', es', hs', ⟨hes, harchive, himage⟩, fun m hm x hx => ?_⟩
  have hs := h.tar.slots argp h.archive
  obtain ⟨z, hz, rfl⟩ : ∃ z ∈ slotsAt answers.tar argp es, z.entry = x := by
    rw [← slotsFrom_entry es 0 argp] at hx
    exact List.mem_map.mp hx
  have htree' := htree.store m
  refine ⟨z.vnode answers.tar.vnode, fun dup => htree'.resolve hs hz h.no_nul h.no_colon hvolume dup,
    fun htype w => ⟨fun flags => ?_, ?_⟩, fun htype w => ⟨fun flags => ?_, fun offt buf len => ?_⟩⟩
  · rw [Fsops.fsOpen, onFile_slot htree' hz, if_pos htype]
    rfl
  · intro offt buf len hbuf
    have hzmem : (z.block, z.entry) ∈ withHeaders argp es := by
      rw [← slotsFrom_headers es 0 argp]
      exact List.mem_map_of_mem hz
    obtain ⟨hsize, hcontent, hend⟩ := h.fileLeft hs' hzmem
    have hge := headers_ge _ _ _ (List.of_mem_zip hzmem).1
    have hdigits := (hs.ok hz).entry.digits_le
    have hfits := h.fits
    refine htree'.fsRead devs hs hz htype (bytesAt_congr hsize fun a hl hr => hm a (by omega) ?_)
      (bytesAt_congr hcontent fun a hl hr => hm a (by omega) (by omega)) hend (by omega) hge hbuf w
    have hblock : blockSize = 512 := rfl
    have hoffset : sizeOffset = 124 := rfl
    rw [List.length_append, List.length_singleton] at hr
    omega
  · rw [Fsops.fsOpen, onFile_slot htree' hz, if_neg htype]
    rfl
  · rw [Fsops.fsRead, onFile_slot htree' hz, if_neg htype]
    rfl

end

/-! ## Two bytes in a directory -/

def rootAndFile : List ArchiveEntry :=
  [⟨[dot, slash], [], [], 53, [], []⟩, ⟨[dot, slash], [[97]], [], 48, [50], [104, 105]⟩]

/-- Their image at 1 MiB. -/
def rootAndFileImage : Mem :=
  put (put (put (put (put (put ⟨fun _ => 0⟩ 0x100000 [dot, slash]) 0x10009C [53]) 0x100200 [dot, slash, 97]) 0x10027C [50])
    0x10029C [48]) 0x100400 [104, 105]

theorem rootAndFile_new :
    NewTarVolume tarAnswers { bareFs with mem := rootAndFileImage, drivers := [.tarfs] } [84] 0x100000 rootAndFile where
  archive := ⟨by decide, by decide, by decide, by decide⟩
  image := by
    refine ⟨⟨by decide, by decide, by decide, by decide, by decide, by decide, ?_⟩, by decide⟩
    show rootAndFileImage _ = 0
    decide
  fits := by decide
  length := by decide
  no_nul := by decide
  no_colon := by decide
  new := rfl
  driver := rfl
  volume := by decide
  tar := ⟨⟨by decide, by constructor <;> simp only [tarAnswers, upwards] <;> decide, by decide, by decide⟩, rfl⟩
  rootNode := by decide

theorem second_byte_is_read : ∃ s' n, vfsMount tarAnswers { bareFs with mem := rootAndFileImage, drivers := [.tarfs] }
      Family.tarfs.ident [84] 0x100000 = some (s', 0) ∧
    fsResolve [] s' (volumePath [84] [97]) = .ret (some n) ∧
    Fsops.fsRead (fun _ => Fsops.noDevice) (some n) 1 0x200000 64 s' () = some (put s'.mem 0x200000 [105], (), 1) := by
  obtain ⟨s', -, hmount, -, hfiles⟩ := archived_files_read_back (fun _ => (Fsops.noDevice : Fsops.Device Unit)) rootAndFile_new
  obtain ⟨n, hresolve, hfile, -⟩ := hfiles s'.mem (fun _ _ _ => rfl) ⟨[dot, slash], [[97]], [], 48, [50], [104, 105]⟩ (by decide)
  exact ⟨s', n, hmount, hresolve [], (hfile rfl ()).2 1 0x200000 64 ⟨by decide, .inr (by decide)⟩⟩

end NativeOS.Kern
