/-
  NativeOS.Kern.Devfs — the device directory (`kernel/kern/fs_devfs.c`).

  `device_install` copies up to 64 bytes of a name into the node, and looks names up with a
  comparison of 64 bytes that looks at one more. A name of 64 bytes or more leaves the
  field without a NUL, so that byte of the node is the low byte of `vn_flags`: such a name
  is found again only if its own byte 64 happens to be the kind of device installed.

  Proved: `device_directory_is_a_map` — over every run whose names have fewer than 64 bytes or
  agree with `vn_flags` there, the directory is a map from the first 64 bytes of names.
  As built it is none: `a_long_name_is_installed_twice`.
-/

import NativeOS.Lib.Directory
import NativeOS.Kern.Names

namespace NativeOS.Kern

open NativeOS.Lib
open NativeOS.Stdkern

/-! ## fs_devfs.c -/

def dvFchardev : Nat := 1
def dvFblckdev : Nat := 2

/-- `vn_flags` of the node of a device whose driver has the flags `drvFlags`. -/
def deviceFlags (drvFlags : Nat) : Nat :=
  if drvFlags &&& (dvFblckdev ||| dvFchardev) = dvFblckdev then vnFblockdev
  else if drvFlags &&& (dvFblckdev ||| dvFchardev) = dvFchardev then vnFchardev
  else 0

def devfsFinddir (s : Fs) (name : List UInt8) : Option NodePtr :=
  s.devices.find? fun p => decide (strncmp (s.node p).text name 64 = 0)

/-- The node `device_install` fills in, over memory that holds `stale`. -/
def deviceNode (drvFlags : Nat → Nat) (s : Fs) (dev : Nat) (mtname : List UInt8) (stale : Mem) : Vnode where
  name := nameField (nameDeviceNode stale 0 mtname) 0
  flags := deviceFlags (drvFlags dev)
  parent := some .devfsRootdir
  volume := (s.node .devfsRootdir).volume
  payload := dev

/-- `list_append(devmgr_list, node)`. -/
def Fs.addDevice (s : Fs) (node : NodePtr) (n : Vnode) : Fs := { s.setNode node n with devices := s.devices ++ [node] }

/-- `answer`: the node `malloc` returns and what it holds; `drvFlags dev` is `dev->dev_family->drv_flags`. -/
def deviceInstall (drvFlags : Nat → Nat) (s : Fs) (dev : Nat) (mtname : List UInt8) (answer : Nat × Mem) : Fs × Int :=
  match devfsFinddir s mtname with
  | some _ => (s, -2)
  | none =>
    if answer.1 = 0 then (s, -1)
    else (s.addDevice (.heap answer.1) (deviceNode drvFlags s dev mtname answer.2), 0)

def deviceRemove (s : Fs) (mtname : List UInt8) : Fs :=
  match devfsFinddir s mtname with
  | some node => { s with devices := s.devices.erase node }
  | none => s

/-- `fsd_mount`. -/
def devfsMount (s : Fs) (vol : Nat) : Fs × Int :=
  if (s.node .devfsRootdir).volume ≠ 0 then (s, -1)
  else
    let s1 := s.setNode .devfsRootdir { s.node .devfsRootdir with volume := vol }
    (s1.setVol vol { s1.vol vol with root := some .devfsRootdir }, 0)

/-! ## The comparison -/

/-- What a name is kept under. -/
def devKey (name : List UInt8) : List UInt8 := (cstr name).take 64

/-- What a node is found under. -/
def nodeKey (s : Fs) (p : NodePtr) : List UInt8 := cstr (s.node p).name.bytes

/-- Byte 64 of a name, 0 if there is none, is this `vn_flags`; short names need not have it. -/
def EndsIn (name : List UInt8) (flags : Nat) : Prop := 64 ≤ strlen name → (cstr name).getD 64 0 = UInt8.ofNat flags

/-- The string that starts at `vn_name`. -/
theorem cstr_text (n : Vnode) (hf : n.flags < 256) :
    cstr n.text = if 0 ∈ n.name.bytes then cstr n.name.bytes
      else n.name.bytes ++ if UInt8.ofNat n.flags = 0 then [] else [UInt8.ofNat n.flags] := by
  have hhigh : UInt8.ofNat (n.flags / 256) = 0 := by rw [Nat.div_eq_of_lt hf]; rfl
  rw [Vnode.text, cstr_append, hhigh]
  congr 2
  by_cases h0 : UInt8.ofNat n.flags = 0
  · rw [if_pos h0, h0, cstr_zero]
  · rw [if_neg h0, cstr_cons h0, cstr_zero]

theorem length_cstr (l : List UInt8) : (cstr l).length ≤ l.length := (List.takeWhile_sublist _).length_le

theorem length_cstr_lt {l : List UInt8} (h : 0 ∈ l) : (cstr l).length < l.length := by
  refine Nat.lt_of_le_of_ne (length_cstr l) fun he => ?_
  have hsame : cstr l = l := (List.takeWhile_sublist _).eq_of_length he
  refine zero_not_mem_cstr l ?_
  rwa [hsame]

/-- One byte after a string's first 64, or the end. -/
theorem take_one_drop {c : List UInt8} (h0 : 0 ∉ c) (f : UInt8) :
    (if f = 0 then [] else [f]) = (c.drop 64).take 1 ↔ c.getD 64 0 = f := by
  have hget : c.getD 64 0 = (c.drop 64).headD 0 := by
    rw [List.headD_eq_head?_getD, List.head?_drop, List.getD_eq_getElem?_getD]
  rw [hget]
  cases hd : c.drop 64 with
  | nil =>
    by_cases hf : f = 0
    · simp [hf]
    · simp [hf, Ne.symm hf]
  | cons x t =>
    have hx : x ≠ 0 := by
      intro hx
      have hmem : x ∈ c := List.mem_of_mem_drop (hd ▸ List.mem_cons_self)
      exact h0 (hx ▸ hmem)
    by_cases hf : f = 0
    · simp [hf, hx]
    · simp [hf, eq_comm]

/-- The 65 bytes that are compared. -/
theorem strncmp_text (n : Vnode) (hf : n.flags < 256) (name : List UInt8) :
    strncmp n.text name 64 = 0 ↔ cstr n.name.bytes = devKey name ∧ EndsIn name n.flags := by
  have hsize := n.name.size
  rw [strncmp_eq_zero (by decide), cstr_text n hf]
  unfold devKey EndsIn strlen
  by_cases h0 : 0 ∈ n.name.bytes
  · -- the field holds the whole name
    have hlt := length_cstr_lt h0
    rw [if_pos h0, List.take_of_length_le (by omega)]
    constructor
    · intro h
      have hlen := congrArg List.length h
      rw [List.length_take] at hlen
      rw [h, List.take_of_length_le (by omega), List.take_of_length_le (by omega)]
      exact ⟨rfl, fun hlong => absurd hlong (by omega)⟩
    · rintro ⟨h, -⟩
      have hlen := congrArg List.length h
      rw [List.length_take] at hlen
      rw [h, List.take_of_length_le (by omega), List.take_of_length_le (by omega)]
  · -- it is full, and the flags follow
    have htail : (n.name.bytes ++ if UInt8.ofNat n.flags = 0 then [] else [UInt8.ofNat n.flags]).length ≤ 65 := by
      rw [List.length_append, hsize]
      split <;> simp
    rw [if_neg h0, cstr_of_no_zero h0, List.take_of_length_le htail, List.take_add]
    by_cases hlong : 64 ≤ (cstr name).length
    · have hlen : n.name.bytes.length = ((cstr name).take 64).length := by
        rw [List.length_take, hsize, Nat.min_eq_left hlong]
      constructor
      · intro h
        obtain ⟨hfield, htail⟩ := List.append_inj h hlen
        exact ⟨hfield, fun _ => (take_one_drop (zero_not_mem_cstr name) _).mp htail⟩
      · rintro ⟨hfield, hend⟩
        rw [hfield, (take_one_drop (zero_not_mem_cstr name) _).mpr (hend hlong)]
    · have hne : n.name.bytes ≠ (cstr name).take 64 := by
        intro h
        have hlen := congrArg List.length h
        rw [List.length_take, hsize] at hlen
        omega
      refine iff_of_false (fun h => ?_) fun h => hne h.1
      have hlen := congrArg List.length h
      rw [List.length_append, List.length_append, List.length_take, List.length_take, List.length_drop, hsize] at hlen
      omega

theorem cstr_field (m : Mem) (mtname : List UInt8) : cstr (nameField (nameDeviceNode m 0 mtname) 0).bytes = devKey mtname := by
  unfold nameDeviceNode devKey
  by_cases hlen : strlen mtname < 64
  · have h := cstr_strncpy m 0 hlen []
    rw [List.append_nil] at h
    rw [h, List.take_of_length_le (Nat.le_of_lt hlen)]
  · have h0 : 0 ∉ (cstr mtname).take 64 := fun h => zero_not_mem_cstr mtname (List.mem_of_mem_take h)
    rw [field_strncpy m 0 (Nat.le_of_not_lt hlen), cstr_of_no_zero h0]

theorem deviceFlags_lt (drvFlags : Nat) : deviceFlags drvFlags < 256 := by
  unfold deviceFlags
  split
  · decide
  · split <;> decide

/-! ## The directory it should be -/

/-- The name and the device installed under each key. -/
abbrev Dir := List UInt8 → Option (List UInt8 × Nat)

def Dir.install (d : Dir) (name : List UInt8) (dev : Nat) : Dir :=
  if (d (devKey name)).isSome then d else Function.update d (devKey name) (some (name, dev))

def Dir.remove (d : Dir) (name : List UInt8) : Dir := Function.update d (devKey name) none

/-- Byte 64 of the name is the kind of the device that has its key, if one has. -/
def Agrees (s : Fs) (name : List UInt8) : Prop := ∀ p ∈ s.devices, nodeKey s p = devKey name → EndsIn name (s.node p).flags

/-- And the kind of the new device, if none has. -/
def Installable (drvFlags : Nat → Nat) (s : Fs) (dev : Nat) (name : List UInt8) : Prop :=
  Agrees s name ∧ ((∀ p ∈ s.devices, nodeKey s p ≠ devKey name) → EndsIn name (deviceFlags (drvFlags dev)))

/-- The runs whose names meet the condition, and the directory that should result. -/
inductive DeviceRun (drvFlags : Nat → Nat) : Fs → Dir → Prop
  | start (s : Fs) : s.devices = [] → DeviceRun drvFlags s fun _ => none
  | install {s : Fs} {d : Dir} (dev : Nat) (name : List UInt8) (answer : Nat × Mem) : DeviceRun drvFlags s d →
      answer.1 ≠ 0 → .heap answer.1 ∉ s.devices → Installable drvFlags s dev name →
      DeviceRun drvFlags (deviceInstall drvFlags s dev name answer).1 (d.install name dev)
  | remove {s : Fs} {d : Dir} (name : List UInt8) : DeviceRun drvFlags s d → Agrees s name →
      DeviceRun drvFlags (deviceRemove s name) (d.remove name)

/-- What is in the list is the directory, and every installed name is found. -/
structure Lists (s : Fs) (d : Dir) : Prop where
  distinct : Directory.Distinct (nodeKey s) s.devices
  flags : ∀ p ∈ s.devices, (s.node p).flags < 256
  found : ∀ k, (d k).map Prod.snd = (Directory.find (nodeKey s) s.devices k).map fun p => (s.node p).payload
  named : ∀ k name dev, d k = some (name, dev) → devKey name = k ∧ Agrees s name

theorem Lists.finddir {s : Fs} {d : Dir} (h : Lists s d) {name : List UInt8} (ha : Agrees s name) :
    devfsFinddir s name = Directory.find (nodeKey s) s.devices (devKey name) := by
  have hmatch : ∀ p ∈ s.devices, decide (strncmp (s.node p).text name 64 = 0) = decide (nodeKey s p = devKey name) := by
    intro p hp
    rw [decide_eq_decide, strncmp_text _ (h.flags p hp)]
    constructor
    · exact fun hm => hm.1
    · exact fun hk => ⟨hk, ha p hp hk⟩
  exact Directory.find?_eq_find hmatch

theorem Lists.find_none {s : Fs} {d : Dir} (h : Lists s d) {name : List UInt8}
    (hn : Directory.find (nodeKey s) s.devices (devKey name) = none) : d (devKey name) = none := by
  have hf := h.found (devKey name)
  rw [hn] at hf
  simpa using hf

theorem Lists.find_some {s : Fs} {d : Dir} (h : Lists s d) {name : List UInt8} {p : NodePtr}
    (hp : Directory.find (nodeKey s) s.devices (devKey name) = some p) : (d (devKey name)).isSome = true := by
  have hf := h.found (devKey name)
  rw [hp] at hf
  cases hd : d (devKey name) with
  | none => simp [hd] at hf
  | some x => rfl

section AddDevice

variable {s : Fs} {node : NodePtr} {n : Vnode}

theorem addDevice_new (s : Fs) (node : NodePtr) (n : Vnode) : (s.addDevice node n).node node = n := Fs.setNode_self s node n

theorem addDevice_old (hfresh : node ∉ s.devices) {p : NodePtr} (hp : p ∈ s.devices) :
    (s.addDevice node n).node p = s.node p := Fs.setNode_ne s n fun he => hfresh (he ▸ hp)

/-- Nobody has the key: the new node gets it. -/
theorem Lists.addDevice {d : Dir} (h : Lists s d) (hfresh : node ∉ s.devices) {name : List UInt8}
    (hname : cstr n.name.bytes = devKey name) (hflags : n.flags < 256) (hends : EndsIn name n.flags)
    (hnone : Directory.find (nodeKey s) s.devices (devKey name) = none) :
    Lists (s.addDevice node n) (Function.update d (devKey name) (some (name, n.payload))) := by
  have hunique := Directory.find_eq_none.mp hnone
  have hkey : nodeKey (s.addDevice node n) node = devKey name := by rw [nodeKey, addDevice_new, hname]
  have hkeys : ∀ p ∈ s.devices, nodeKey (s.addDevice node n) p = nodeKey s p := by
    intro p hp
    rw [nodeKey, nodeKey, addDevice_old hfresh hp]
  have hapart : ∀ p ∈ s.devices, nodeKey (s.addDevice node n) p ≠ nodeKey (s.addDevice node n) node := by
    intro p hp
    rw [hkey, hkeys p hp]
    exact hunique p hp
  have hsplit : ∀ p ∈ (s.addDevice node n).devices, p ∈ s.devices ∨ p = node := by
    intro p hp
    rcases List.mem_append.mp hp with hp | hp
    · exact .inl hp
    · exact .inr (List.mem_singleton.mp hp)
  refine ⟨(h.distinct.congr hkeys).snoc hapart, ?_, ?_, ?_⟩
  · intro p hp
    rcases hsplit p hp with hp | rfl
    · rw [addDevice_old hfresh hp]
      exact h.flags p hp
    · rwa [addDevice_new]
  · intro k
    rw [show (s.addDevice node n).devices = s.devices ++ [node] from rfl, Directory.find_snoc hapart, hkey]
    by_cases hk : k = devKey name
    · subst hk
      rw [if_pos rfl, Function.update_self, Option.map_some, Option.map_some, addDevice_new]
    · rw [if_neg hk, Function.update_of_ne hk, h.found, Directory.find_congr hkeys]
      cases hf : Directory.find (nodeKey s) s.devices k with
      | none => rfl
      | some p => rw [Option.map_some, Option.map_some, addDevice_old hfresh (Directory.find_mem hf).1]
  · intro k name' dev' hd
    by_cases hk : k = devKey name
    · subst hk
      rw [Function.update_self, Option.some.injEq, Prod.mk.injEq] at hd
      obtain ⟨rfl, -⟩ := hd
      refine ⟨rfl, fun p hp hpk => ?_⟩
      rcases hsplit p hp with hp | rfl
      · exact absurd ((hkeys p hp).symm.trans hpk) (hunique p hp)
      · rwa [addDevice_new]
    · rw [Function.update_of_ne hk] at hd
      obtain ⟨hkey', hagrees⟩ := h.named k name' dev' hd
      refine ⟨hkey', fun p hp hpk => ?_⟩
      rcases hsplit p hp with hp | rfl
      · rw [addDevice_old hfresh hp]
        exact hagrees p hp ((hkeys p hp).symm.trans hpk)
      · exact absurd ((hkey'.symm.trans hpk.symm).trans hkey) hk

end AddDevice

/-! ## Runs -/

theorem Lists.install {drvFlags : Nat → Nat} {s : Fs} {d : Dir} (h : Lists s d) {dev : Nat} {name : List UInt8}
    {answer : Nat × Mem} (h0 : answer.1 ≠ 0) (hfresh : .heap answer.1 ∉ s.devices) (hi : Installable drvFlags s dev name) :
    (deviceInstall drvFlags s dev name answer).2 = (if (d (devKey name)).isSome then -2 else 0) ∧
      Lists (deviceInstall drvFlags s dev name answer).1 (d.install name dev) := by
  have hfind := h.finddir hi.1
  unfold deviceInstall Dir.install
  rw [hfind]
  cases hk : Directory.find (nodeKey s) s.devices (devKey name) with
  | some p =>
    rw [if_pos (h.find_some hk), if_pos (h.find_some hk)]
    exact ⟨rfl, h⟩
  | none =>
    have hd : ¬ (d (devKey name)).isSome = true := by simp [h.find_none hk]
    dsimp only
    rw [if_neg hd, if_neg hd, if_neg h0]
    refine ⟨rfl, ?_⟩
    have hadd := h.addDevice (n := deviceNode drvFlags s dev name answer.2) hfresh (cstr_field answer.2 name)
      (deviceFlags_lt (drvFlags dev)) (hi.2 (Directory.find_eq_none.mp hk)) hk
    exact hadd

theorem Lists.remove {s : Fs} {d : Dir} (h : Lists s d) {name : List UInt8} (ha : Agrees s name) :
    Lists (deviceRemove s name) (d.remove name) := by
  have hfind := h.finddir ha
  unfold deviceRemove Dir.remove
  rw [hfind]
  cases hk : Directory.find (nodeKey s) s.devices (devKey name) with
  | none =>
    rw [← h.find_none hk, Function.update_eq_self]
    exact h
  | some p =>
    obtain ⟨hp, hpk⟩ := Directory.find_mem hk
    have hsub : ∀ q ∈ s.devices.erase p, q ∈ s.devices := fun q hq => List.mem_of_mem_erase hq
    refine ⟨h.distinct.erase p, fun q hq => h.flags q (hsub q hq), fun k => ?_, fun k name' dev' hd => ?_⟩
    · show _ = (Directory.find (nodeKey s) (s.devices.erase p) k).map fun q => (s.node q).payload
      rw [Directory.find_erase h.distinct hp, hpk]
      by_cases hkk : k = devKey name
      · rw [if_pos hkk, hkk, Function.update_self]
        rfl
      · rw [if_neg hkk, Function.update_of_ne hkk, h.found]
    · by_cases hkk : k = devKey name
      · rw [hkk, Function.update_self] at hd
        cases hd
      · rw [Function.update_of_ne hkk] at hd
        obtain ⟨hkey, hagrees⟩ := h.named k name' dev' hd
        exact ⟨hkey, fun q hq => hagrees q (hsub q hq)⟩

theorem deviceRun_lists {drvFlags : Nat → Nat} {s : Fs} {d : Dir} (hr : DeviceRun drvFlags s d) : Lists s d := by
  induction hr with
  | start s hs =>
    refine ⟨?_, ?_, fun k => ?_, fun k name dev hd => nomatch hd⟩
    · rw [hs]
      exact List.nodup_nil
    · rw [hs]
      exact List.forall_mem_nil _
    · rw [hs]
      rfl
  | install dev name answer _ h0 hfresh hi ih => exact (ih.install h0 hfresh hi).2
  | remove name _ ha ih => exact ih.remove ha

/-- In every run whose names meet the condition the list is the directory: every installed
    device is found under its name and every name that meets the condition finds what is
    installed under its first 64 bytes; the next `device_install` returns -2 and changes
    nothing exactly when something is, and 0 otherwise. -/
theorem device_directory_is_a_map {drvFlags : Nat → Nat} {s : Fs} {d : Dir} (hr : DeviceRun drvFlags s d) :
    (∀ k name dev, d k = some (name, dev) → devKey name = k ∧
      (devfsFinddir s name).map (fun p => (s.node p).payload) = some dev) ∧
    (∀ name, Agrees s name → (devfsFinddir s name).map (fun p => (s.node p).payload) = (d (devKey name)).map Prod.snd) ∧
    ∀ dev name (answer : Nat × Mem), answer.1 ≠ 0 → .heap answer.1 ∉ s.devices → Installable drvFlags s dev name →
      ((deviceInstall drvFlags s dev name answer).2 = -2 ↔ (d (devKey name)).isSome = true) ∧
      ((d (devKey name)).isSome = true → (deviceInstall drvFlags s dev name answer).1 = s) ∧
      (d (devKey name) = none → (deviceInstall drvFlags s dev name answer).2 = 0) := by
  have h := deviceRun_lists hr
  have hfound : ∀ name, Agrees s name →
      (devfsFinddir s name).map (fun p => (s.node p).payload) = (d (devKey name)).map Prod.snd := by
    intro name ha
    rw [h.finddir ha, h.found]
  refine ⟨fun k name dev hd => ?_, hfound, fun dev name answer h0 hfresh hi => ⟨?_, fun hd => ?_, fun hd => ?_⟩⟩
  · obtain ⟨hk, ha⟩ := h.named k name dev hd
    rw [hfound name ha, hk, hd]
    exact ⟨rfl, rfl⟩
  · rw [(h.install h0 hfresh hi).1]
    split <;> simp_all
  · unfold deviceInstall
    rw [h.finddir hi.1]
    cases hk : Directory.find (nodeKey s) s.devices (devKey name) with
    | some p => rfl
    | none => simp [h.find_none hk] at hd
  · rw [(h.install h0 hfresh hi).1, hd]
    rfl

/-- Short names always meet the condition. -/
theorem installable_short (drvFlags : Nat → Nat) (s : Fs) (dev : Nat) {name : List UInt8} (h : strlen name < 64) :
    Installable drvFlags s dev name :=
  ⟨fun _ _ _ hlong => absurd h (Nat.not_lt.mpr hlong), fun _ hlong => absurd h (Nat.not_lt.mpr hlong)⟩

/-- The kernel before anything is mounted or installed. -/
def bareFs : Fs :=
  { mem := ⟨fun _ => 0⟩
    node := fun _ => staticRoot
    vol := fun _ => ⟨[], .rootfs, none, 0⟩
    volumes := []
    drivers := []
    rootfsNodes := none
    devices := []
    tarfs := fun _ => ⟨0, [], 0, none⟩
    tnode := fun _ => ⟨0, 0⟩ }

/-- The framebuffer and the keyboard, installed; the framebuffer again. -/
theorem two_devices_installed : ∃ s d, DeviceRun (fun _ => dvFchardev) s d ∧
    (devfsFinddir s [102, 98]).map (fun p => (s.node p).payload) = some 5 ∧
    (deviceInstall (fun _ => dvFchardev) s 7 [102, 98] (48, ⟨fun _ => 1⟩)).2 = -2 := by
  have h₁ : DeviceRun (fun _ => dvFchardev) _ _ := .install 5 [102, 98] (16, ⟨fun _ => 1⟩) (.start bareFs rfl) (by decide)
    (by decide) (installable_short _ _ _ (by decide))
  have h₂ : DeviceRun (fun _ => dvFchardev) _ _ := .install 6 [107, 98, 100] (32, ⟨fun _ => 1⟩) h₁ (by decide)
    (by decide +kernel) (installable_short _ _ _ (by decide))
  obtain ⟨hfound, -, hinstall⟩ := device_directory_is_a_map h₂
  refine ⟨_, _, h₂, (hfound [102, 98] [102, 98] 5 (by decide +kernel)).2, ?_⟩
  have hagain := hinstall 7 [102, 98] (48, ⟨fun _ => 1⟩) (by decide) (by decide +kernel)
    (installable_short _ _ _ (by decide))
  exact hagain.1.mpr (by decide +kernel)

/-- A character device whose name has 64 bytes: the byte behind the field is `vn_flags`, 3. It
    is not found, and installed twice. -/
theorem a_long_name_is_installed_twice :
    let s := (deviceInstall (fun _ => dvFchardev) bareFs 5 (List.replicate 64 97) (16, ⟨fun _ => 0⟩)).1
    devfsFinddir s (List.replicate 64 97) = none ∧
    (deviceInstall (fun _ => dvFchardev) s 6 (List.replicate 64 97) (32, ⟨fun _ => 0⟩)).2 = 0 := by
  decide +kernel

end NativeOS.Kern
