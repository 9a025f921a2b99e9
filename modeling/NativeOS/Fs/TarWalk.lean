/-
  NativeOS.Fs.TarWalk — the header walk decodes the image.

  One turn of the loop steps over exactly one entry: the size field gives the length of
  the content, and `bx` moves by the header and the blocks that length takes. So the walk
  visits the header blocks and nothing between them, whatever the content looks like.

  Proved: `header_walk_decodes_image`.
-/

import Mathlib.Data.List.GetD
import NativeOS.Fs.Tar
import NativeOS.Stdkern.LinkedListProofs

namespace NativeOS.Fs.Tar

open NativeOS.Lib
open NativeOS.Stdkern

/-! ## The size field -/

theorem bytesAt_cons {m : Mem} {a : Nat} {c : UInt8} {l : List UInt8} (h : BytesAt m a (c :: l)) :
    m a = c ∧ BytesAt m (a + 1) l := by
  refine ⟨h 0 (Nat.zero_lt_succ _), ?_⟩
  intro i hi
  have hnext := h (i + 1) (Nat.succ_lt_succ hi)
  rw [List.getD_cons_succ] at hnext
  rwa [Nat.add_assoc, Nat.add_comm 1]

theorem bytesAt_append {m : Mem} {a : Nat} {l l' : List UInt8} :
    BytesAt m a (l ++ l') ↔ BytesAt m a l ∧ BytesAt m (a + l.length) l' := by
  unfold BytesAt
  constructor
  · intro h
    refine ⟨fun i hi => ?_, fun i hi => ?_⟩
    · rw [h i (by rw [List.length_append]; omega), List.getD_append _ _ _ _ hi]
    · rw [Nat.add_assoc, h (l.length + i) (by rw [List.length_append]; omega), List.getD_append_right _ _ _ _ (by omega),
        Nat.add_sub_cancel_left]
  · intro h i hi
    obtain ⟨h, h'⟩ := h
    rw [List.length_append] at hi
    by_cases hl : i < l.length
    · rw [h i hl, List.getD_append _ _ _ _ hl]
    · have hrest := h' (i - l.length) (by omega)
      rw [Nat.add_assoc, Nat.add_sub_cancel' (Nat.le_of_not_lt hl)] at hrest
      rw [hrest, List.getD_append_right _ _ _ _ (Nat.le_of_not_lt hl)]

theorem bytesAt_congr {m m' : Mem} {a : Nat} {l : List UInt8} (h : BytesAt m a l) (hm : ∀ x, a ≤ x → x < a + l.length → m' x = m x) :
    BytesAt m' a l := fun i hi => (hm _ (by omega) (by omega)).trans (h i hi)

theorem octal_le (digits : List UInt8) (acc : Nat) : acc ≤ digits.foldl (fun acc d => acc * 8 + (d.toNat - 48)) acc := by
  induction digits generalizing acc with
  | nil => exact Nat.le_refl _
  | cons d digits ih =>
    calc acc ≤ acc * 8 + (d.toNat - 48) := by omega
      _ ≤ _ := ih _

/-- One turn of the loop. -/
def octalStep (acc : Nat) (c : UInt8) : Nat := (acc * 8 + sub32 (charInt c) 48) % 4294967296

/-- The loop takes whatever stands before the first NUL. -/
theorem octalLoop_bytes {m : Mem} : ∀ (l : List UInt8) {fuel a acc : Nat}, BytesAt m a (l ++ [0]) → 0 ∉ l →
    a + l.length < 4294967296 → l.length < fuel → octalLoop m fuel a acc = some (l.foldl octalStep acc)
  | [], fuel + 1, a, acc, hb, _, _, _ => by
    rw [octalLoop, if_pos (bytesAt_cons hb).1]
    rfl
  | c :: l, fuel + 1, a, acc, hb, h0, ha, hf => by
    obtain ⟨hc, hb⟩ := bytesAt_cons hb
    rw [List.mem_cons, not_or] at h0
    rw [List.length_cons] at ha hf
    have hne : ¬ m a = 0 := by
      rw [hc]
      exact Ne.symm h0.1
    rw [octalLoop, if_neg hne, add32_eq (by omega), hc, List.foldl_cons]
    exact octalLoop_bytes l hb h0.2 (by omega) (by omega)

/-- No digit overflows, because the whole number does not. -/
theorem foldl_octalStep : ∀ (digits : List UInt8) {acc : Nat}, (∀ d ∈ digits, 48 ≤ d.toNat ∧ d.toNat ≤ 55) →
    digits.foldl (fun acc d => acc * 8 + (d.toNat - 48)) acc < 4294967296 →
    digits.foldl octalStep acc = digits.foldl (fun acc d => acc * 8 + (d.toNat - 48)) acc
  | [], _, _, _ => by rw [List.foldl_nil, List.foldl_nil]
  | d :: digits, acc, ho, hv => by
    obtain ⟨hd, ho⟩ := List.forall_mem_cons.mp ho
    rw [List.foldl_cons] at hv
    have hacc := octal_le digits (acc * 8 + (d.toNat - 48))
    have hdigit : octalStep acc d = acc * 8 + (d.toNat - 48) := by
      rw [octalStep, charInt, if_pos (by omega), sub32_eq hd.1 (by omega), Nat.mod_eq_of_lt (by omega)]
    rw [List.foldl_cons, List.foldl_cons, hdigit, foldl_octalStep digits ho hv]

theorem zero_not_mem_digits {digits : List UInt8} (ho : ∀ d ∈ digits, 48 ≤ d.toNat ∧ d.toNat ≤ 55) : 0 ∉ digits := by
  intro h
  exact absurd (ho 0 h).1 (by decide)

theorem octalLoop_digits {m : Mem} (digits : List UInt8) {fuel a acc : Nat} (hb : BytesAt m a (digits ++ [0]))
    (ho : ∀ d ∈ digits, 48 ≤ d.toNat ∧ d.toNat ≤ 55) (ha : a + digits.length < 4294967296) (hf : digits.length < fuel)
    (hv : digits.foldl (fun acc d => acc * 8 + (d.toNat - 48)) acc < 4294967296) :
    octalLoop m fuel a acc = some (digits.foldl (fun acc d => acc * 8 + (d.toNat - 48)) acc) := by
  rw [octalLoop_bytes digits hb (zero_not_mem_digits ho) ha hf, foldl_octalStep digits ho hv]

/-! ## One header -/

/-- The nodes made for the first `i` headers, which are at `blocks`. -/
structure Decoded (malloc : Nat → Nat × Nat) (i : Nat) (tar : Payload) (blocks : List Nat) : Prop where
  rep : LinkedList.Rep tar.nodes ((List.range i).map fun j => (malloc j).2)
  data : ((List.range i).map fun j => (malloc j).2).map tar.nodes.store.data = (List.range i).map fun j => (malloc j).1
  block : (List.range i).map (fun j => tar.tnode (malloc j).1) = blocks.map fun b => ⟨0, b⟩

theorem Decoded.next {malloc : Nat → Nat × Nat} {n i : Nat} {tar : Payload} {blocks : List Nat}
    (h : Decoded malloc i tar blocks) (hm : Mallocs malloc n) (hi : i < n) (b : Nat) :
    Decoded malloc (i + 1) (decodeBlock tar b (malloc i)) (blocks ++ [b]) := by
  have ht0 := hm.tnode i hi
  obtain ⟨hl0, hroom⟩ := hm.lnode i hi
  have hfresh : LinkedList.Fresh tar.nodes (malloc i).2 := by
    refine .inr ⟨hroom, ?_⟩
    intro a ha
    obtain ⟨j, hj, rfl⟩ := List.mem_map.mp ((h.rep.alive a).mp ha)
    exact hm.lnodes i hi j (List.mem_range.mp hj)
  obtain ⟨hrep, hdata⟩ := LinkedList.listAppend_rep h.rep hfresh hl0 (malloc i).1
  have hsnoc : ∀ f : Nat → Nat, (List.range (i + 1)).map f = (List.range i).map f ++ [f i] := by
    intro f
    rw [List.range_succ, List.map_append]
    rfl
  unfold decodeBlock
  rw [if_pos ht0]
  refine ⟨?_, ?_, ?_⟩
  · rw [hsnoc]
    exact hrep
  · rw [hsnoc, hsnoc, ← h.data]
    exact hdata
  · rw [List.range_succ, List.map_append, List.map_append, ← h.block]
    congr 1
    · apply List.map_congr_left
      intro j hj
      have hapart := hm.tnodes i hi j (List.mem_range.mp hj)
      exact if_neg (by omega)
    · exact congrArg (fun x => [x]) (if_pos rfl)

theorem octal2int_entry {m : Mem} {x : Entry} {a : Nat} (hx : x.WellFormed) (ha : a + sizeOffset + 11 < 4294967296)
    (hlen : x.content.length < 4294967296) (hb : BytesAt m (a + sizeOffset) (x.digits ++ [0])) :
    octal2int m (a + sizeOffset) = some x.content.length := by
  have hd := hx.digits_le
  rw [← hx.size] at hlen ⊢
  exact octalLoop_digits x.digits hb hx.octal (by omega) (by omega) hlen

theorem name_first {m : Mem} {x : Entry} {a : Nat} (hx : x.WellFormed) (hb : BytesAt m a (x.name ++ [0])) : m a ≠ 0 := by
  have hpos := hx.name_pos
  have hne := hx.name_ne
  cases hname : x.name with
  | nil => simp [hname] at hpos
  | cons c name =>
    rw [hname] at hb hne
    rw [(bytesAt_cons hb).1]
    exact hne c List.mem_cons_self

/-! ## The walk -/

theorem imageSize_ge (es : List Entry) : 512 * es.length ≤ imageSize es := by
  induction es with
  | nil => exact Nat.le_refl _
  | cons x es ih =>
    have hroom : 512 ≤ x.room := Nat.le_add_right _ _
    have hsum : imageSize (x :: es) = x.room + imageSize es := rfl
    rw [hsum, List.length_cons]
    omega

/-- The header blocks are apart, and each holds its entry's name. -/
theorem headers_ge : ∀ (es : List Entry) (a : Nat), ∀ b ∈ headers a es, a ≤ b
  | [], _, _, hb => absurd hb List.not_mem_nil
  | x :: es, a, b, hb => by
    rcases List.mem_cons.mp hb with rfl | hb
    · exact Nat.le_refl _
    · exact Nat.le_trans (Nat.le_add_right _ _) (headers_ge es (a + x.room) b hb)

theorem headers_pairwise : ∀ (es : List Entry) (a : Nat), (headers a es).Pairwise fun b c => b + 512 ≤ c
  | [], _ => .nil
  | x :: es, a => by
    have hroom : 512 ≤ x.room := Nat.le_add_right _ _
    refine .cons (fun c hc => ?_) (headers_pairwise es (a + x.room))
    have hge := headers_ge es (a + x.room) c hc
    omega

theorem apart_of_pairwise {α : Type} {f : α → Nat} {l : List α} (h : l.Pairwise fun x y => f x + 512 ≤ f y) :
    ∀ x ∈ l, ∀ y ∈ l, x = y ∨ f x + 512 ≤ f y ∨ f y + 512 ≤ f x := by
  induction h with
  | nil => exact fun _ hx => absurd hx List.not_mem_nil
  | @cons a l ha _ ih =>
    intro x hx y hy
    rcases List.mem_cons.mp hx with rfl | hx'
    · rcases List.mem_cons.mp hy with rfl | hy'
      · exact .inl rfl
      · exact .inr (.inl (ha y hy'))
    · rcases List.mem_cons.mp hy with rfl | hy'
      · exact .inr (.inr (ha x hx'))
      · exact ih x hx' y hy'

theorem length_headers : ∀ (es : List Entry) (a : Nat), (headers a es).length = es.length
  | [], _ => rfl
  | x :: es, a => congrArg (· + 1) (length_headers es (a + x.room))

theorem imageAt_name {m : Mem} : ∀ (es : List Entry) {a : Nat}, ImageAt m a es →
    ∀ bx ∈ (headers a es).zip es, BytesAt m bx.1 (bx.2.name ++ [0])
  | [], _, _, _, hbx => absurd hbx List.not_mem_nil
  | x :: es, a, h, bx, hbx => by
    obtain ⟨hname, -, -, hrest⟩ := h
    rcases List.mem_cons.mp hbx with rfl | hbx
    · exact hname
    · exact imageAt_name es hrest bx hbx

theorem walkLoop_image {m : Mem} {buf n : Nat} {malloc : Nat → Nat × Nat} (hm : Mallocs malloc n) :
    ∀ (es : List Entry) (fuel bx : Nat) {i : Nat} {tar : Payload} {blocks : List Nat}, (∀ x ∈ es, x.WellFormed) →
    ImageAt m (buf + 512 * bx) es → buf + 512 * bx + imageSize es + 512 ≤ 4294967296 → es.length < fuel →
    i + es.length ≤ n → Decoded malloc i tar blocks →
    ∃ tar', walkLoop m buf malloc fuel i bx tar = some tar' ∧
      Decoded malloc (i + es.length) tar' (blocks ++ headers (buf + 512 * bx) es)
  | [], fuel + 1, bx, i, tar, blocks, _, himg, hfit, _, _, hd => by
    have hend : m (buf + 512 * bx) = 0 := himg
    have hblock : add32 buf (blockSize * bx) = buf + 512 * bx := add32_eq (by show buf + 512 * bx < _; omega)
    refine ⟨tar, ?_, ?_⟩
    · unfold walkLoop
      simp only [hblock]
      exact if_pos hend
    · rw [headers, List.append_nil]
      exact hd
  | x :: es, fuel + 1, bx, i, tar, blocks, hes, himg, hfit, hf, hi, hd => by
    obtain ⟨hname, hsize, -, hrest⟩ := himg
    have hx := hes x List.mem_cons_self
    have hroom : x.room = 512 + (x.content.length + 511) / 512 * 512 := rfl
    have hsum : imageSize (x :: es) = x.room + imageSize es := rfl
    rw [hsum] at hfit
    rw [List.length_cons] at hf hi
    have hblock : add32 buf (blockSize * bx) = buf + 512 * bx := add32_eq (by show buf + 512 * bx < _; omega)
    have hfield : add32 (buf + 512 * bx) sizeOffset = buf + 512 * bx + sizeOffset :=
      add32_eq (by show buf + 512 * bx + 124 < _; omega)
    have hlen : octal2int m (buf + 512 * bx + sizeOffset) = some x.content.length :=
      octal2int_entry hx (by show buf + 512 * bx + 124 + 11 < _; omega) (by omega) hsize
    -- the header and the blocks of the content, the last one begun or not
    have hbx : (if x.content.length % 512 ≠ 0 then add32 (add32 bx (add32 (x.content.length / 512) 1)) 1
        else add32 bx (add32 (x.content.length / 512) 1)) = bx + 1 + (x.content.length + 511) / 512 := by
      rw [add32_eq (a := x.content.length / 512) (by omega), add32_eq (a := bx) (by omega)]
      split
      · rw [add32_eq (by omega)]
        omega
      · omega
    have hnext : buf + 512 * (bx + 1 + (x.content.length + 511) / 512) = buf + 512 * bx + x.room := by omega
    have hd' := hd.next hm (by omega) (buf + 512 * bx)
    rw [← hnext] at hrest
    obtain ⟨tar', h1, h2⟩ := walkLoop_image hm es fuel _ (fun y hy => hes y (List.mem_cons_of_mem _ hy)) hrest
      (by omega) (Nat.lt_of_succ_lt_succ hf) (by omega) hd'
    refine ⟨tar', ?_, ?_⟩
    · unfold walkLoop
      simp only [hblock, hfield, hlen, if_neg (name_first hx hname), Option.bind_eq_bind, Option.bind_some, hbx]
      exact h1
    · rw [hnext, List.append_assoc, Nat.add_right_comm] at h2
      exact h2

theorem walkHeaders_decoded {m : Mem} {buf : Nat} {es : List Entry} {malloc : Nat → Nat × Nat}
    (hes : ∀ x ∈ es, x.WellFormed) (himg : ImageAt m buf es) (hfit : buf + imageSize es + 512 ≤ 4294967296)
    (hm : Mallocs malloc es.length) (store : LinkedList.Store) (tnode : Nat → TarfsNode) :
    ∃ tar, walkHeaders m buf malloc ⟨⟨store, LinkedList.listAlloc, []⟩, tnode⟩ = some tar ∧
      Decoded malloc es.length tar (headers buf es) := by
  have hlen := imageSize_ge es
  have hstart : Decoded malloc 0 ⟨⟨store, LinkedList.listAlloc, []⟩, tnode⟩ [] := by
    refine ⟨⟨rfl, rfl, trivial, rfl, fun a => Iff.rfl, ?_, List.Pairwise.nil⟩, rfl, rfl⟩
    intro a ha
    cases ha
  obtain ⟨tar, h1, h2⟩ := walkLoop_image hm es 4294967296 0 hes himg (by omega) (by omega) (by omega) hstart
  rw [Nat.zero_add] at h2
  exact ⟨tar, h1, h2⟩

/-- The walk over any image ends, and leaves one node for each entry, in the image's order
    and with that entry's header block. -/
theorem header_walk_decodes_image {m : Mem} {buf : Nat} {es : List Entry} {malloc : Nat → Nat × Nat}
    (hes : ∀ x ∈ es, x.WellFormed) (himg : ImageAt m buf es) (hfit : buf + imageSize es + 512 ≤ 2 ^ 32)
    (hm : Mallocs malloc es.length) (store : LinkedList.Store) (tnode : Nat → TarfsNode) :
    ∃ tar, walkHeaders m buf malloc ⟨⟨store, LinkedList.listAlloc, []⟩, tnode⟩ = some tar ∧
      ∃ ps, LinkedList.Shows tar.nodes ps ∧ ps.map tar.tnode = (headers buf es).map fun b => ⟨0, b⟩ := by
  obtain ⟨tar, h1, h2⟩ := walkHeaders_decoded hes himg hfit hm store tnode
  refine ⟨tar, h1, _, h2.rep.shows, ?_⟩
  rw [h2.data, List.map_map]
  exact h2.block

/-- A file of one byte, and an empty one with an empty size field. -/
def oneByte : Entry := ⟨[97], [49], [104]⟩
def noBytes : Entry := ⟨[98], [], []⟩

/-- Their image at 1 MiB: the content's first byte could start a name as well. -/
def twoFiles : Mem :=
  ⟨fun x => if x = 0x100000 then 97 else if x = 0x10007C then 49 else if x = 0x100200 then 104
    else if x = 0x100400 then 98 else 0⟩

/-- A `malloc` that never reuses memory. -/
def upwards (i : Nat) : Nat × Nat := (0x200000 + 64 * i, 0x200020 + 64 * i)

theorem twoFiles_wellFormed : ∀ x ∈ [oneByte, noBytes], x.WellFormed := by decide

theorem twoFiles_image : ImageAt twoFiles 0x100000 [oneByte, noBytes] := by
  refine ⟨by decide, by decide, by decide, by decide, by decide, by decide, ?_⟩
  show twoFiles (0x100000 + oneByte.room + noBytes.room) = 0
  decide

theorem upwards_mallocs : Mallocs upwards 2 := by
  constructor <;> simp only [upwards] <;> omega

theorem two_files_decoded : ∃ tar, walkHeaders twoFiles 0x100000 upwards ⟨LinkedList.emptyList, fun _ => ⟨0, 0⟩⟩ = some tar ∧
    ∃ ps, LinkedList.Shows tar.nodes ps ∧ ps.map tar.tnode = [⟨0, 0x100000⟩, ⟨0, 0x100400⟩] :=
  header_walk_decodes_image twoFiles_wellFormed twoFiles_image (by decide) upwards_mallocs _ _

end NativeOS.Fs.Tar
