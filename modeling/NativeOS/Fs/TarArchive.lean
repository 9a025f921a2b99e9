/-
  NativeOS.Fs.TarArchive — archives and the names in their headers.

  An archive's entries are named by a path of components, with `./` or `/` in front of it
  and a slash behind it or not. `lookup_vnode` cuts that slash off in the header itself, so
  a header holds one spelling of its path or another (`Spells`): each turn of the scan
  finds the path, leaves a spelling of it, and touches no other header (`Spells.cut`).
-/

import NativeOS.Fs.Tarfs
import NativeOS.Fs.TarWalk

namespace NativeOS.Fs.Tar

open NativeOS.Lib
open NativeOS.Stdkern

/-! ## Strings in memory -/

/-- The string at `a` is `t`. -/
def NameAt (m : Mem) (a : Nat) (t : List UInt8) : Prop := BytesAt m a (t ++ [0]) ∧ 0 ∉ t

section

variable {m m' : Mem} {a : Nat} {t u : List UInt8}

theorem NameAt.congr (h : NameAt m a t) (hm : ∀ x, a ≤ x → x ≤ a + t.length → m' x = m x) : NameAt m' a t := by
  refine ⟨bytesAt_congr h.1 fun x hl hr => hm x hl ?_, h.2⟩
  rw [List.length_append, List.length_singleton] at hr
  omega

theorem NameAt.head (h : NameAt m a t) : m a = t.headD 0 := by
  cases t with
  | nil => exact (bytesAt_cons h.1).1
  | cons c t => exact (bytesAt_cons h.1).1

theorem NameAt.tail {c : UInt8} (h : NameAt m a (c :: t)) : NameAt m (a + 1) t :=
  ⟨(bytesAt_cons h.1).2, fun h0 => h.2 (List.mem_cons_of_mem _ h0)⟩

theorem NameAt.drop (h : NameAt m a t) {k : Nat} (hk : k ≤ t.length) : NameAt m (a + k) (t.drop k) := by
  refine ⟨?_, fun h0 => h.2 (List.mem_of_mem_drop h0)⟩
  have hb := h.1
  rw [← List.take_append_drop k t, List.append_assoc, bytesAt_append, List.length_take, Nat.min_eq_left hk] at hb
  exact hb.2

theorem strLoop_name : ∀ {t : List UInt8} {fuel a : Nat}, NameAt m a t → t.length < fuel → strLoop m fuel a = t
  | [], fuel + 1, a, h, _ => by
    have h0 : m a = 0 := h.head
    rw [strLoop, if_pos h0]
  | c :: t, fuel + 1, a, h, hf => by
    have hc : ¬ m a = 0 := by
      rw [h.head]
      exact fun h0 => h.2 (h0 ▸ List.mem_cons_self)
    rw [strLoop, if_neg hc, strLoop_name h.tail (Nat.lt_of_succ_lt_succ hf), h.head]
    rfl

theorem strAt_name (h : NameAt m a t) (hlen : t.length < 4294967296) : strAt m a = t := strLoop_name h hlen

/-! ## kiwi -/

/-- The pointer is moved over what `skipDot` and `skipSlash` drop. -/
theorem kiwiStart_name (h : NameAt m a t) : kiwiStart m a = a + skipped t := by
  unfold kiwiStart
  cases t with
  | nil =>
    have h0 : m a = 0 := h.head
    have hdot : ¬ (m a = dot ∧ m (a + 1) = slash) := by
      rw [h0]
      exact fun hd => absurd hd.1 (by decide)
    rw [if_neg hdot, if_neg (by rw [h0]; decide)]
    rfl
  | cons c t =>
    have hc : m a = c := h.head
    have hnext : m (a + 1) = t.headD 0 := h.tail.head
    rw [skipped_cons, hc, hnext]
    dsimp only
    by_cases hdot : c = dot ∧ t.headD 0 = slash
    · rw [if_pos hdot, if_pos hdot, hnext, if_pos hdot.2]
    · rw [if_neg hdot, if_neg hdot, hc]
      split
      · rfl
      · rfl

/-- The slash is cut off in place. -/
theorem cutKiwi_name (h : NameAt m a u) (hlen : u.length < 4294967296) :
    NameAt (cutKiwi m a) a (cutSlash u) ∧ ∀ x, (x < a ∨ a + u.length ≤ x) → cutKiwi m a x = m x := by
  unfold cutKiwi cutSlash
  rw [strAt_name h hlen, strlen, cstr_of_no_zero h.2, h.head]
  rcases List.eq_nil_or_concat' u with rfl | ⟨d, b, rfl⟩
  · exact ⟨h, fun _ _ => rfl⟩
  · have hlast : sub32 (d ++ [b]).length 1 = d.length := by
      rw [List.length_append, List.length_singleton] at hlen ⊢
      rw [sub32_eq (by omega) hlen, Nat.add_sub_cancel]
    have hb : m (a + d.length) = b := by
      have hbytes := h.1
      rw [List.append_assoc, bytesAt_append] at hbytes
      exact (bytesAt_cons hbytes.2).1
    dsimp only
    rw [hlast, hb, List.getLastD_concat]
    by_cases hcut : (d ++ [b]).headD 0 ≠ 0 ∧ b = slash
    · rw [if_pos hcut, if_pos hcut, List.dropLast_concat]
      have hbytes := (bytesAt_append.mp (bytesAt_append.mp h.1).1).1
      refine ⟨⟨bytesAt_append.mpr ⟨bytesAt_congr hbytes fun x _ hx => st8_ne m 0 (by omega), ?_⟩, ?_⟩, ?_⟩
      · intro i hi
        have hi0 : i = 0 := Nat.lt_one_iff.mp hi
        subst hi0
        simp [st8]
      · exact fun h0 => h.2 (List.mem_append_left _ h0)
      · intro x hx
        rw [List.length_append, List.length_singleton] at hx
        exact st8_ne m 0 (by omega)
    · rw [if_neg hcut, if_neg hcut]
      exact ⟨h, fun _ _ => rfl⟩

theorem cutSlash_length (u : List UInt8) : (cutSlash u).length ≤ u.length := by
  unfold cutSlash
  split
  · have hle := (List.takeWhile_sublist (l := u) (· ≠ 0)).length_le
    rw [List.length_dropLast]
    unfold cstr
    omega
  · exact Nat.le_refl _

/-- One turn of `lookup_vnode`'s scan over a header whose name is `t`. -/
theorem scan_name (h : NameAt m a t) (hlen : t.length < 4294967296) :
    strAt (cutKiwi m (kiwiStart m a)) (kiwiStart m a) = cutSlash (t.drop (skipped t)) ∧
      NameAt (cutKiwi m (kiwiStart m a)) a (t.take (skipped t) ++ cutSlash (t.drop (skipped t))) ∧
      ∀ x, (x < a ∨ a + t.length ≤ x) → cutKiwi m (kiwiStart m a) x = m x := by
  have hk := skipped_le t
  have hdrop : (t.drop (skipped t)).length = t.length - skipped t := List.length_drop
  have hle := cutSlash_length (t.drop (skipped t))
  obtain ⟨hname, hsame⟩ := cutKiwi_name (h.drop hk) (by omega)
  rw [kiwiStart_name h]
  refine ⟨strAt_name hname (by omega), ?_, fun x hx => hsame x (by omega)⟩
  have htake : (t.take (skipped t)).length = skipped t := by rw [List.length_take, Nat.min_eq_left hk]
  have hb := h.1
  rw [← List.take_append_drop (skipped t) t, List.append_assoc, bytesAt_append] at hb
  refine ⟨?_, ?_⟩
  · rw [List.append_assoc, bytesAt_append, htake]
    exact ⟨bytesAt_congr hb.1 fun x _ hx => hsame x (by omega), hname.1⟩
  · rw [List.mem_append]
    exact fun h0 => h0.elim (fun h0 => h.2 (List.mem_of_mem_take h0)) hname.2

end

/-! ## Archives -/

/-- An entry by its path: `lead` is in front of it, `tail` behind it. -/
structure ArchiveEntry where
  lead : List UInt8
  comps : List (List UInt8)
  tail : List UInt8
  type : UInt8
  digits : List UInt8
  content : List UInt8
  deriving DecidableEq

/-- The normalised path. -/
def ArchiveEntry.path (x : ArchiveEntry) : List UInt8 := joinSlash x.comps

def ArchiveEntry.entry (x : ArchiveEntry) : Entry := ⟨x.lead ++ (x.path ++ x.tail), x.digits, x.content⟩

structure ArchiveEntry.Ok (x : ArchiveEntry) : Prop where
  lead : x.lead = [] ∨ x.lead = [dot, slash] ∨ x.lead = [slash]
  comps : ∀ c ∈ x.comps, Component c ∧ c.length ≤ 63
  tail : x.tail = [] ∨ x.tail = [slash]
  entry : x.entry.WellFormed

instance (x : ArchiveEntry) : Decidable x.Ok :=
  decidable_of_iff ((x.lead = [] ∨ x.lead = [dot, slash] ∨ x.lead = [slash]) ∧ (∀ c ∈ x.comps, Component c ∧ c.length ≤ 63) ∧
      (x.tail = [] ∨ x.tail = [slash]) ∧ x.entry.WellFormed)
    ⟨fun h => ⟨h.1, h.2.1, h.2.2.1, h.2.2.2⟩, fun h => ⟨h.lead, h.comps, h.tail, h.entry⟩⟩

theorem ArchiveEntry.Ok.components {x : ArchiveEntry} (h : x.Ok) : ∀ c ∈ x.comps, Component c := fun c hc => (h.comps c hc).1

/-- Every path once, the empty one among them, and every entry's parent a directory. -/
structure Archive (es : List ArchiveEntry) : Prop where
  ok : ∀ x ∈ es, x.Ok
  distinct : (es.map ArchiveEntry.path).Nodup
  root : ∃ x ∈ es, x.comps = []
  parent : ∀ x ∈ es, x.comps ≠ [] → ∃ y ∈ es, y.comps = x.comps.dropLast ∧ y.type = 53

theorem Archive.wellFormed {es : List ArchiveEntry} (h : Archive es) : ∀ y ∈ es.map ArchiveEntry.entry, y.WellFormed :=
  List.forall_mem_map.mpr fun x hx => (h.ok x hx).entry

/-- The entries with their header blocks. -/
def withHeaders (buf : Nat) (es : List ArchiveEntry) : List (Nat × ArchiveEntry) :=
  (headers buf (es.map ArchiveEntry.entry)).zip es

/-- The archive's image lies at `buf`. -/
def ArchiveAt (m : Mem) (buf : Nat) (es : List ArchiveEntry) : Prop :=
  ImageAt m buf (es.map ArchiveEntry.entry) ∧ ∀ bx ∈ withHeaders buf es, m (bx.1 + typeOffset) = bx.2.type

/-! ## Spellings of a path -/

/-- A name of at most 99 bytes that normalises to the entry's path. -/
inductive ArchiveEntry.Spells (x : ArchiveEntry) : List UInt8 → Prop
  | intro {lead tail : List UInt8} : ((lead = [] ∧ x.comps ≠ []) ∨ lead = [dot, slash] ∨ lead = [slash]) →
      (tail = [] ∨ tail = [slash]) → (lead ++ (x.path ++ tail)).length ≤ 99 → x.Spells (lead ++ (x.path ++ tail))

section

variable {x : ArchiveEntry} {t : List UInt8}

theorem ArchiveEntry.Ok.spells (h : x.Ok) : x.Spells x.entry.name := by
  have hlen := h.entry.name_le
  by_cases hc : x.comps = []
  · have hpath : x.path = [] := by rw [ArchiveEntry.path, hc]; rfl
    have hpos := h.entry.name_pos
    rw [ArchiveEntry.entry] at hlen hpos ⊢
    dsimp only at hlen hpos ⊢
    rcases h.lead with hl | hl
    · -- a single slash: it is the one in front
      rcases h.tail with ht | ht
      · rw [hl, hpath, ht] at hpos
        exact absurd hpos (by decide)
      · have hname : x.lead ++ (x.path ++ x.tail) = [slash] ++ (x.path ++ []) := by rw [hl, hpath, ht]; rfl
        rw [hname] at hlen ⊢
        exact .intro (.inr (.inr rfl)) (.inl rfl) hlen
    · exact .intro (.inr hl) h.tail hlen
  · refine .intro ?_ h.tail hlen
    exact h.lead.imp (fun hl => ⟨hl, hc⟩) id

variable (hx : ∀ c ∈ x.comps, Component c)
include hx

theorem ArchiveEntry.Spells.skip {lead tail : List UInt8}
    (hlead : (lead = [] ∧ x.comps ≠ []) ∨ lead = [dot, slash] ∨ lead = [slash]) (htail : tail = [] ∨ tail = [slash]) :
    skipSlash (skipDot (lead ++ (x.path ++ tail))) = x.path ++ tail := by
  rcases hlead with ⟨rfl, hne⟩ | rfl | rfl
  · exact skip_joinSlash hx hne htail
  · rfl
  · rfl

theorem ArchiveEntry.Spells.normalize (h : x.Spells t) : normalize t = x.path := by
  obtain ⟨hlead, htail, -⟩ := h
  rw [Tar.normalize, ArchiveEntry.Spells.skip hx hlead htail]
  exact cutSlash_joinSlash hx htail

theorem ArchiveEntry.Spells.ne_nil (h : x.Spells t) : t ≠ [] := by
  obtain ⟨hlead, -, -⟩ := h
  rcases hlead with ⟨rfl, hne⟩ | rfl | rfl
  · intro hnil
    exact hne ((joinSlash_eq_nil hx).mp (List.append_eq_nil_iff.mp (List.append_eq_nil_iff.mp hnil).2).1)
  · exact List.cons_ne_nil _ _
  · exact List.cons_ne_nil _ _

omit hx in
/-- The last component fits a node. -/
theorem ArchiveEntry.Ok.lastComponent (h : x.Ok) : (lastComponent (Tar.normalize x.entry.name)).length ≤ 63 := by
  rw [h.spells.normalize h.components]
  by_cases hc : x.comps = []
  · rw [ArchiveEntry.path, hc]
    exact Nat.zero_le _
  · have hsplit := splitBasename_joinSlash h.components (List.dropLast_append_getLast hc).symm
    have hlast := (basename_cases (joinSlash_no_nul h.components)).resolve_right fun hslash =>
      getLastD_joinSlash h.components hc hslash.1
    rw [ArchiveEntry.path, ← hlast, hsplit]
    exact (h.comps _ (List.getLast_mem hc)).2

/-- The scan finds the path, and leaves a spelling of it behind. -/
theorem ArchiveEntry.Spells.cut {m : Mem} {a : Nat} (h : x.Spells t) (hm : NameAt m a t) :
    strAt (cutKiwi m (kiwiStart m a)) (kiwiStart m a) = x.path ∧
      (∃ t', x.Spells t' ∧ NameAt (cutKiwi m (kiwiStart m a)) a t') ∧
      ∀ y, (y < a ∨ a + 99 ≤ y) → cutKiwi m (kiwiStart m a) y = m y := by
  obtain ⟨hlead, htail, hlen⟩ := h
  rename_i lead tail
  obtain ⟨hfound, hleft, hsame⟩ := scan_name hm (by omega)
  have hk := skipped_le (lead ++ (x.path ++ tail))
  have hskip := ArchiveEntry.Spells.skip hx hlead htail
  rw [skip_eq] at hskip
  have hlength := congrArg List.length hskip
  rw [List.length_drop] at hlength
  have hsplit : (lead ++ (x.path ++ tail)).length = lead.length + (x.path ++ tail).length := List.length_append
  rw [hsplit] at hlength hk
  have hkl : skipped (lead ++ (x.path ++ tail)) = lead.length := by omega
  rw [hkl, List.drop_left, ArchiveEntry.path, cutSlash_joinSlash hx htail] at hfound hleft
  rw [List.take_left] at hleft
  refine ⟨hfound, ⟨lead ++ (x.path ++ []), ?_, ?_⟩, fun y hy => hsame y (by omega)⟩
  · refine .intro hlead (.inl rfl) ?_
    simp only [List.length_append, List.length_nil] at hlen ⊢
    omega
  · rw [List.append_nil]
    exact hleft

end

end NativeOS.Fs.Tar
