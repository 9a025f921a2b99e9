/-
  NativeOS.Fs.TarMount — mounting the image of an archive.

  The header walk leaves a slot for each entry (`slotsAt`); what it leaves is where the
  invariant of the reassembly starts.

  Proved: `tarfsMount_makes` — mounting ends, and every entry's node is made.
-/

import NativeOS.Fs.TarForest
import NativeOS.Fs.TarTree

namespace NativeOS.Fs.Tar

open NativeOS.Lib
open NativeOS.Stdkern
open NativeOS.Kern

/-! ## The slots of an image -/

def slotsFrom (entry : Nat → Nat × Nat) : Nat → Nat → List ArchiveEntry → List Slot
  | _, _, [] => []
  | i, a, x :: es => ⟨(entry i).1, a, x⟩ :: slotsFrom entry (i + 1) (a + x.entry.room) es

def slotsAt (answers : TarfsAnswers) (buf : Nat) (es : List ArchiveEntry) : List Slot := slotsFrom answers.entry 0 buf es

section

variable {entry : Nat → Nat × Nat}

theorem slotsFrom_entry : ∀ (es : List ArchiveEntry) (i a : Nat), (slotsFrom entry i a es).map (·.entry) = es
  | [], _, _ => rfl
  | x :: es, i, _ => congrArg (x :: ·) (slotsFrom_entry es (i + 1) _)

theorem slotsFrom_block : ∀ (es : List ArchiveEntry) (i a : Nat),
    (slotsFrom entry i a es).map (·.block) = headers a (es.map ArchiveEntry.entry)
  | [], _, _ => rfl
  | _ :: es, i, a => congrArg (a :: ·) (slotsFrom_block es (i + 1) _)

theorem slotsFrom_tnode : ∀ (es : List ArchiveEntry) (i a : Nat),
    (slotsFrom entry i a es).map (·.tnode) = (List.range' i es.length).map fun j => (entry j).1
  | [], _, _ => rfl
  | _ :: es, i, _ => congrArg ((entry i).1 :: ·) (slotsFrom_tnode es (i + 1) _)

theorem slotsFrom_headers (es : List ArchiveEntry) (i a : Nat) :
    (slotsFrom entry i a es).map (fun x => (x.block, x.entry)) = withHeaders a es := by
  rw [withHeaders, ← slotsFrom_block es i a, ← List.zip_map']
  exact congrArg (List.zip _) (slotsFrom_entry es i a)

theorem slotsFrom_apart (es : List ArchiveEntry) (i a : Nat) : ∀ x ∈ slotsFrom entry i a es, ∀ y ∈ slotsFrom entry i a es,
    x = y ∨ x.block + 512 ≤ y.block ∨ y.block + 512 ≤ x.block := by
  have hpairwise := headers_pairwise (es.map ArchiveEntry.entry) a
  rw [← slotsFrom_block es i a, List.pairwise_map] at hpairwise
  exact apart_of_pairwise hpairwise

theorem slotsFrom_name {m : Mem} {es : List ArchiveEntry} (i : Nat) {a : Nat} (hes : ∀ x ∈ es, x.Ok)
    (himg : ImageAt m a (es.map ArchiveEntry.entry)) : ∀ x ∈ slotsFrom entry i a es, NameAt m x.block x.entry.entry.name := by
  intro x hx
  have hentry : x.entry ∈ es := by
    rw [← slotsFrom_entry es i a]
    exact List.mem_map_of_mem hx
  have hmem : (x.block, x.entry.entry) ∈ (headers a (es.map ArchiveEntry.entry)).zip (es.map ArchiveEntry.entry) := by
    have hheaders := List.mem_map_of_mem (f := fun x : Slot => (x.block, x.entry)) hx
    rw [slotsFrom_headers] at hheaders
    rw [List.zip_map_right]
    exact List.mem_map_of_mem (f := Prod.map id ArchiveEntry.entry) hheaders
  exact ⟨imageAt_name _ himg _ hmem, fun h0 => (hes _ hentry).entry.name_ne 0 h0 rfl⟩

end

/-! ## What malloc gives -/

/-- Allocations succeed, each with memory of its own, for an archive of `n` entries, and
    `payload->root` is found NULL. -/
structure TarAllocates (answers : TarfsAnswers) (n : Nat) : Prop extends Allocates answers n where
  root : answers.root = none

section

variable {answers : TarfsAnswers} {es : List ArchiveEntry} {x : Slot} (buf : Nat)

theorem slotsAt_tnode : (slotsAt answers buf es).map (·.tnode) = (List.range es.length).map fun j => (answers.entry j).1 := by
  rw [List.range_eq_range']
  exact slotsFrom_tnode es 0 buf

theorem slotsAt_tnode_mem {buf : Nat} (hx : x ∈ slotsAt answers buf es) : ∃ i < es.length, x.tnode = (answers.entry i).1 := by
  have hmem := List.mem_map_of_mem (f := (·.tnode)) hx
  rw [slotsAt_tnode, List.mem_map] at hmem
  obtain ⟨i, hi, ht⟩ := hmem
  exact ⟨i, List.mem_range.mp hi, ht.symm⟩

theorem TarAllocates.slots (h : TarAllocates answers es.length) (harchive : Archive es) :
    Slots answers.vnode (slotsAt answers buf es) := by
  have halloc := h.toAllocates.allocated
  have hmem : ∀ x ∈ slotsAt answers buf es, x.tnode ∈ entryNodes answers es.length := by
    intro x hx
    have htnode := List.mem_map_of_mem (f := (·.tnode)) hx
    rwa [slotsAt_tnode] at htnode
  have htnodes : ((slotsAt answers buf es).map (·.tnode)).Nodup := by
    rw [slotsAt_tnode]
    exact halloc.distinct
  refine ⟨?_, htnodes, fun x hx => halloc.vnode _ (hmem x hx), fun x hx y hy hv => ?_, slotsFrom_apart es 0 buf⟩
  · rw [slotsAt, slotsFrom_entry]
    exact harchive
  · exact List.inj_on_of_nodup_map htnodes hx hy (halloc.vnode_inj _ (hmem x hx) _ (hmem y hy) hv)

end

/-! ## init_nodes -/

theorem tarfsMount_makes {answers : TarfsAnswers} {s : Fs} {vol : Nat} {es : List ArchiveEntry} (harchive : Archive es)
    (himage : ArchiveAt s.mem (s.vol vol).payload es)
    (hfit : (s.vol vol).payload + imageSize (es.map ArchiveEntry.entry) + 512 ≤ 4294967296)
    (halloc : TarAllocates answers es.length) :
    ∃ s', tarfsMount answers s vol =
        some (s'.setVol vol { s.vol vol with root := (s'.tarfs answers.payload).root, payload := answers.payload }, 0) ∧
      TarKeeps answers.vnode s s' ∧
      Reassembling answers.vnode (slotsAt answers (s.vol vol).payload es) answers.payload vol s' ∧
      ∀ x ∈ slotsAt answers (s.vol vol).payload es,
        Made answers.vnode (slotsAt answers (s.vol vol).payload es) vol s' x := by
  have hwell := harchive.wellFormed
  have hmalloc : Mallocs answers.entry (es.map ArchiveEntry.entry).length := by
    rw [List.length_map]
    exact halloc.entry
  obtain ⟨s2, hinit, hkeeps2, hmem2, hspilled2, htarfs2, hblock⟩ := initNodes_walked hwell himage.1 hfit hmalloc
  generalize hbuf : (s.vol vol).payload = buf at himage hinit htarfs2 hblock ⊢
  have hs := halloc.slots buf harchive
  rw [List.length_map, ← slotsAt_tnode buf] at hinit htarfs2
  have htnode : ∀ x ∈ slotsAt answers buf es, s2.tnode x.tnode = ⟨0, x.block⟩ := by
    have hmap := List.map_map (g := s2.tnode) (f := fun x : Slot => x.tnode) (l := slotsAt answers buf es)
    rw [slotsAt_tnode, List.map_map] at hmap
    rw [List.length_map, ← slotsFrom_block es 0 buf, List.map_map] at hblock
    exact List.map_inj_left.mp (hmap.symm.trans hblock)
  have hstart : Reassembling answers.vnode (slotsAt answers buf es) answers.payload vol s2 := by
    refine ⟨⟨?_, ?_, fun x hx => ?_, fun x hx => ?_, fun x hx => ?_, fun x hx h0 => ?_⟩, fun x hx _ => ?_⟩
    · rw [htarfs2]
    · rw [htarfs2]
    · rw [htnode x hx]
    · rw [hmem2]
      exact ⟨_, (hs.ok hx).spells, slotsFrom_name 0 harchive.ok himage.1 x hx⟩
    · have hmem : (x.block, x.entry) ∈ withHeaders buf es := by
        rw [← slotsFrom_headers es 0 buf]
        exact List.mem_map_of_mem hx
      rw [hmem2]
      exact himage.2 _ hmem
    · rw [htnode x hx] at h0
      exact absurd rfl h0
    · rw [htarfs2, htnode x hx, if_pos rfl]
      exact halloc.root
  obtain ⟨s', hs', hgrows, hmade⟩ := reassembleLoop_makes hs _ (fun _ hx => hx) hstart
  have hsteps := tarKeeps_steps answers.vnode answers.payload
  have hkeeps : TarKeeps answers.vnode s s' := hsteps.trans hkeeps2 (hsteps.loop _ _ hs')
  refine ⟨s', ?_, hkeeps, hgrows.inv, hmade⟩
  rw [hs', ← hbuf] at hinit
  rw [tarfsMount_of_init halloc.payload hinit, hkeeps.vol]

end NativeOS.Fs.Tar
