/-
  NativeOS.Fs.TarImage — what mounting does to the image.

  The driver works on the loaded image itself: each time `lookup_vnode` looks at a header it cuts
  a slash off the end of the name there, and the next time perhaps another one. It writes
  nothing else, and no name is cut down to nothing.

  Proved:
  * `mounting_trims_names` — after mounting any image there is an image of the same files in
    its place, and every byte that was not in a name is what it was.
-/

import NativeOS.Fs.TarDir
import NativeOS.Lib.Directory

namespace NativeOS.Fs.Tar

open NativeOS.Lib
open NativeOS.Stdkern
open NativeOS.Kern

/-! ## Slashes cut off -/

/-- `u` is `t` without some of the slashes at its end, and with what is skipped at its beginning. -/
def Trims (t u : List UInt8) : Prop := skipped t ≤ u.length ∧ ∃ k, t = u ++ List.replicate k slash

theorem Trims.refl (t : List UInt8) : Trims t t := ⟨skipped_le t, 0, by simp⟩

theorem Trims.skipped_le {t u : List UInt8} (h : Trims t u) : skipped t ≤ skipped u := by
  obtain ⟨hlen, k, ht⟩ := h
  rcases skipped_cases t with ⟨rest, rfl, h2⟩ | ⟨rest, rfl, h1⟩ | ⟨h0, -⟩
  · rw [h2] at hlen ⊢
    match u, hlen, ht with
    | c :: d :: u, _, ht =>
      simp only [List.cons_append, List.cons.injEq] at ht
      rw [← ht.1, ← ht.2.1]
      exact Nat.le_refl 2
  · rw [h1] at hlen ⊢
    match u, hlen, ht with
    | c :: u, _, ht =>
      simp only [List.cons_append, List.cons.injEq] at ht
      rw [← ht.1]
      exact Nat.le_refl 1
  · rw [h0]
    exact Nat.zero_le _

theorem Trims.trans {t u v : List UInt8} (h : Trims t u) (h' : Trims u v) : Trims t v := by
  have hlen := Nat.le_trans h.skipped_le h'.1
  obtain ⟨-, k, rfl⟩ := h
  obtain ⟨-, l, rfl⟩ := h'
  exact ⟨hlen, l + k, by rw [List.append_assoc, List.replicate_append_replicate]⟩

theorem Trims.length_le {t u : List UInt8} (h : Trims t u) : u.length ≤ t.length := by
  obtain ⟨-, k, rfl⟩ := h
  simp

theorem Trims.subset {t u : List UInt8} (h : Trims t u) : u ⊆ t := by
  obtain ⟨-, k, rfl⟩ := h
  simp

/-- What a turn of the scan leaves of a name. -/
theorem trims_scan {u : List UInt8} (h0 : 0 ∉ u) : Trims u (u.take (skipped u) ++ cutSlash (u.drop (skipped u))) := by
  obtain ⟨k, hk⟩ := cutFrom_cutSlash fun h => h0 (List.mem_of_mem_drop h : (0 : UInt8) ∈ u)
  refine ⟨?_, k, ?_⟩
  · rw [List.length_append, List.length_take, Nat.min_eq_left (skipped_le u)]
    exact Nat.le_add_right _ _
  · rw [List.append_assoc, ← hk, List.take_append_drop]

/-! ## The names in the image -/

/-- The header blocks of an image at `buf`, and the names in them. -/
def namesAt (buf : Nat) (es : List Entry) : List (Nat × List UInt8) := (headers buf es).zip (es.map Entry.name)

/-- `m` is the image `m₀` with slashes cut off the ends of the names. -/
structure Trimmed (named : List (Nat × List UInt8)) (m₀ m : Mem) : Prop where
  name : ∀ bn ∈ named, ∃ u, u ≠ [] ∧ Trims bn.2 u ∧ NameAt m bn.1 u
  other : ∀ a, (∀ bn ∈ named, a < bn.1 ∨ bn.1 + bn.2.length ≤ a) → m a = m₀ a

/-- The names are short, and the headers apart. -/
structure NamesApart (named : List (Nat × List UInt8)) : Prop where
  length : ∀ bn ∈ named, bn.2.length ≤ 99
  apart : named.Pairwise fun x y => x.1 + 512 ≤ y.1

section

variable {named : List (Nat × List UInt8)} {m₀ m : Mem}

theorem Trimmed.scan (hn : NamesApart named) (h : Trimmed named m₀ m) {bn : Nat × List UInt8} (hbn : bn ∈ named) :
    Trimmed named m₀ (cutKiwi m (kiwiStart m bn.1)) := by
  obtain ⟨u, hne, htrims, hu⟩ := h.name bn hbn
  have hlen := hn.length bn hbn
  have hle := htrims.length_le
  obtain ⟨-, hleft, hsame⟩ := scan_name hu (by omega)
  refine ⟨fun bn' hbn' => ?_, fun a ha => ?_⟩
  · obtain ⟨u', hne', htrims', hu'⟩ := h.name bn' hbn'
    have hlen' := hn.length bn' hbn'
    have hle' := htrims'.length_le
    rcases apart_of_pairwise hn.apart bn hbn bn' hbn' with rfl | hapart
    · exact ⟨_, skipped_cut_ne_nil hne, htrims.trans (trims_scan hu.2), hleft⟩
    · exact ⟨u', hne', htrims', hu'.congr fun z hl hr => hsame z (by omega)⟩
  · have hout := ha bn hbn
    rw [hsame a (by omega), h.other a ha]

/-! ## Everything the reassembly does to it -/

/-- The nodes are those of the image's headers. -/
structure Entered (named : List (Nat × List UInt8)) (m₀ : Mem) (ns : List Nat) (tar : Nat) (s : Fs) : Prop where
  trimmed : Trimmed named m₀ s.mem
  nodes : (s.tarfs tar).nodes = ns
  block : ∀ t ∈ ns, ∃ bn ∈ named, (s.tnode t).block = bn.1

variable {answers : Nat → VnodeAnswer} {ns : List Nat} {tar : Nat} {s s' : Fs}

theorem Entered.congr (h : Entered named m₀ ns tar s) (hm : s'.mem = s.mem) (hb : ∀ t, (s'.tnode t).block = (s.tnode t).block)
    (hns : (s'.tarfs tar).nodes = (s.tarfs tar).nodes) : Entered named m₀ ns tar s' := by
  refine ⟨?_, hns.trans h.nodes, fun t ht => ?_⟩
  · rw [hm]
    exact h.trimmed
  · rw [hb]
    exact h.block t ht

theorem Entered.scan (hn : NamesApart named) (h : Entered named m₀ ns tar s) {t : Nat} (ht : t ∈ ns) :
    Entered named m₀ ns tar { s with mem := cutKiwi s.mem (kiwiStart s.mem (s.tnode t).block) } := by
  obtain ⟨bn, hbn, hblock⟩ := h.block t ht
  refine ⟨?_, h.nodes, h.block⟩
  rw [hblock]
  exact h.trimmed.scan hn hbn

theorem lookupLoop_entered (hn : NamesApart named) {reassemble : Fs → Nat → Option Fs}
    (hre : ∀ s t s', t ∈ ns → Entered named m₀ ns tar s → reassemble s t = some s' → Entered named m₀ ns tar s')
    (path : List UInt8) : ∀ (l : List Nat) {s : Fs} {r : Fs × Option NodePtr}, (∀ t ∈ l, t ∈ ns) →
      Entered named m₀ ns tar s → lookupLoop reassemble path s l = some r → Entered named m₀ ns tar r.1
  | [], _, _, _, h, hr => by
    cases hr
    exact h
  | t :: l, _, _, hl, h, hr => by
    have ht := hl t List.mem_cons_self
    have hscan := h.scan hn ht
    rw [lookupLoop] at hr
    dsimp only at hr
    split at hr
    · rw [Option.bind_eq_bind, Option.bind_eq_some_iff] at hr
      obtain ⟨s2, h2, hr⟩ := hr
      cases hr
      exact hre _ t s2 ht hscan h2
    · exact lookupLoop_entered hn hre path l (fun t' ht' => hl t' (List.mem_cons_of_mem _ ht')) hscan hr

theorem reassembleNodes_entered (hn : NamesApart named) : ∀ (fuel : Nat) (s : Fs) (t : Nat) (s' : Fs), t ∈ ns →
    Entered named m₀ ns tar s → reassembleNodes answers tar fuel s t = some s' → Entered named m₀ ns tar s' := by
  intro fuel
  induction fuel with
  | zero =>
    intro s t s' _ _ hr
    cases hr
  | succ fuel ih =>
    intro s t s' ht h hr
    rw [reassembleNodes] at hr
    split at hr
    · cases hr
      exact h
    · dsimp only at hr
      split at hr
      · rw [Option.bind_eq_bind, Option.bind_eq_some_iff] at hr
        obtain ⟨found, hfound, hr⟩ := hr
        cases hr
        have hlookup := lookupLoop_entered hn ih _ _ (fun t' ht' => h.nodes ▸ ht') h hfound
        exact hlookup.congr rfl (fun _ => finishNode_block) rfl
      · cases hr
        obtain ⟨root, hroot, -⟩ := setRoot_fields tar (answers t).vnode s
        rw [hroot]
        refine h.congr rfl (fun _ => finishNode_block) ?_
        simp

theorem reassembleLoop_entered (hn : NamesApart named) : ∀ (l : List Nat) {s s' : Fs}, (∀ t ∈ l, t ∈ ns) →
    Entered named m₀ ns tar s → reassembleLoop answers tar l s = some s' → Entered named m₀ ns tar s'
  | [], _, _, _, h, hr => by
    cases hr
    exact h
  | t :: l, s, _, hl, h, hr => by
    rw [reassembleLoop, Option.bind_eq_bind, Option.bind_eq_some_iff] at hr
    obtain ⟨s1, h1, hr⟩ := hr
    have hnext := reassembleNodes_entered hn 4294967296 s t s1 (hl t List.mem_cons_self) h h1
    exact reassembleLoop_entered hn l (fun t' ht' => hl t' (List.mem_cons_of_mem _ ht')) hnext hr

end

/-! ## The image that is left -/

/-- A file as it was, but for slashes at the end of its name. -/
structure SameFile (x x' : Entry) : Prop where
  name : Trims x.name x'.name
  digits : x'.digits = x.digits
  content : x'.content = x.content
  wellFormed : x'.WellFormed

theorem SameFile.room {x x' : Entry} (h : SameFile x x') : x'.room = x.room := by
  rw [Entry.room, h.content, Entry.room]

theorem namesAt_cons (a : Nat) (x : Entry) (es : List Entry) : namesAt a (x :: es) = (a, x.name) :: namesAt (a + x.room) es := rfl

theorem namesAt_ge {es : List Entry} {a : Nat} : ∀ bn ∈ namesAt a es, a ≤ bn.1 := by
  intro bn hbn
  exact headers_ge es a bn.1 (List.of_mem_zip hbn).1

theorem namesAt_apart {es : List Entry} (a : Nat) (hwell : ∀ x ∈ es, x.WellFormed) : NamesApart (namesAt a es) := by
  refine ⟨fun bn hbn => ?_, ?_⟩
  · obtain ⟨x, hx, hname⟩ := List.mem_map.mp (List.of_mem_zip hbn).2
    rw [← hname]
    exact (hwell x hx).name_le
  · induction es generalizing a with
    | nil => exact .nil
    | cons x es ih =>
      have hroom : 512 ≤ x.room := Nat.le_add_right _ _
      rw [namesAt_cons]
      refine .cons (fun bn hbn => ?_) (ih _ fun y hy => hwell y (List.mem_cons_of_mem _ hy))
      have hge := namesAt_ge bn hbn
      show a + 512 ≤ bn.1
      omega

theorem trimmed_start {m : Mem} {a : Nat} {es : List Entry} (hwell : ∀ x ∈ es, x.WellFormed) (himage : ImageAt m a es) :
    Trimmed (namesAt a es) m m := by
  refine ⟨fun bn hbn => ⟨bn.2, ?_, .refl _, ?_⟩, fun _ _ => rfl⟩
  · obtain ⟨x, hx, hname⟩ := List.mem_map.mp (List.of_mem_zip hbn).2
    rw [← hname]
    exact List.length_pos_iff.mp (hwell x hx).name_pos
  · have hzip : namesAt a es = ((headers a es).zip es).map (Prod.map id Entry.name) := List.zip_map_right ..
    rw [hzip] at hbn
    obtain ⟨bx, hbx, rfl⟩ := List.mem_map.mp hbn
    exact ⟨imageAt_name es himage bx hbx, fun h0 => (hwell _ (List.of_mem_zip hbx).2).name_ne 0 h0 rfl⟩

/-- Entry by entry; the names that are not of the entries left lie before them. -/
theorem Trimmed.image {named : List (Nat × List UInt8)} {m₀ m : Mem} (hn : NamesApart named) (h : Trimmed named m₀ m) :
    ∀ (es : List Entry) {a : Nat}, (∀ x ∈ es, x.WellFormed) → ImageAt m₀ a es →
      (∀ bn ∈ named, bn.1 + 512 ≤ a ∨ bn ∈ namesAt a es) → (∀ bn ∈ namesAt a es, bn ∈ named) →
      ∃ es', List.Forall₂ SameFile es es' ∧ ImageAt m a es'
  | [], a, _, himage, hbefore, _ => by
    refine ⟨[], .nil, ?_⟩
    have hend : m a = m₀ a := by
      refine h.other a fun bn hbn => .inr ?_
      have hlen := hn.length bn hbn
      have hlt := (hbefore bn hbn).resolve_right List.not_mem_nil
      omega
    exact hend.trans himage
  | x :: es, a, hwell, himage, hbefore, hmem => by
    obtain ⟨-, hdigits, hcontent, hrest⟩ := himage
    have hx := hwell x List.mem_cons_self
    have hself := hmem (a, x.name) List.mem_cons_self
    have hroom : x.room = 512 + (x.content.length + 511) / 512 * 512 := rfl
    have hwhole := Nat.div_add_mod (x.content.length + 511) 512
    have hmod := Nat.mod_lt (x.content.length + 511) (show 0 < 512 by decide)
    -- nothing between the entry's name and the next header is a name
    have hkept : ∀ b, a + 99 ≤ b → b < a + x.room → m b = m₀ b := by
      intro b hl hr
      refine h.other b fun bn hbn => ?_
      have hlen := hn.length bn hbn
      rcases hbefore bn hbn with hlt | hin
      · omega
      · rw [namesAt_cons] at hin
        rcases List.mem_cons.mp hin with rfl | hin
        · dsimp only at hlen ⊢
          omega
        · have hge := namesAt_ge bn hin
          omega
    obtain ⟨es', hes', himage'⟩ := Trimmed.image hn h es (fun y hy => hwell y (List.mem_cons_of_mem _ hy)) hrest (fun bn hbn => by
      rcases hbefore bn hbn with hlt | hin
      · exact .inl (by omega)
      · rw [namesAt_cons] at hin
        rcases List.mem_cons.mp hin with rfl | hin
        · exact .inl (by dsimp only; omega)
        · exact .inr hin) fun bn hbn => hmem bn (by rw [namesAt_cons]; exact List.mem_cons_of_mem _ hbn)
    obtain ⟨u, hne, htrims, hu⟩ := h.name _ hself
    have hle := htrims.length_le
    have hname := hx.name_le
    have hdlen := hx.digits_le
    have hsame : SameFile x ⟨u, x.digits, x.content⟩ :=
      ⟨htrims, rfl, rfl, ⟨List.length_pos_iff.mpr hne, Nat.le_trans hle hname, fun c hc => hx.name_ne c (htrims.subset hc),
        hx.digits_le, hx.octal, hx.size⟩⟩
    refine ⟨⟨u, x.digits, x.content⟩ :: es', .cons hsame hes', hu.1, bytesAt_congr hdigits fun b hl hr => ?_,
      bytesAt_congr hcontent fun b hl hr => ?_, ?_⟩
    · have hsizeOffset : sizeOffset = 124 := rfl
      simp at hr
      exact hkept b (by omega) (by omega)
    · have hblockSize : blockSize = 512 := rfl
      dsimp only at hr
      exact hkept b (by omega) (by omega)
    · rw [hsame.room]
      exact himage'

/-! ## The archive that is left -/

/-- The entry as it was, but for a slash at the end of its name. -/
structure SameArchived (x x' : ArchiveEntry) : Prop where
  ok : x'.Ok
  comps : x'.comps = x.comps
  type : x'.type = x.type
  digits : x'.digits = x.digits
  content : x'.content = x.content

/-- What is in front of a path is skipped, and a path does not end in a slash. -/
theorem ArchiveEntry.Ok.not_slash {x : ArchiveEntry} (h : x.Ok) {tail u : List UInt8} (hu : u ≠ [])
    (hskip : skipped (x.lead ++ (x.path ++ tail)) ≤ u.length) (k : Nat) : x.lead ++ x.path ≠ u ++ List.replicate (k + 1) slash := by
  intro heq
  by_cases hpath : x.path = []
  · have hlen := congrArg List.length heq
    have hpos := List.length_pos_iff.mpr hu
    rw [hpath, List.append_nil, List.length_append, List.length_replicate] at hlen
    rw [hpath, List.nil_append] at hskip
    rcases h.lead with hl | hl | hl
    · rw [hl, List.length_nil] at hlen
      omega
    · have h2 : skipped (x.lead ++ tail) = 2 := by rw [hl]; rfl
      rw [hl] at hlen
      simp at hlen
      omega
    · rw [hl] at hlen
      simp at hlen
      omega
  · have hc : x.comps ≠ [] := fun hc => hpath ((joinSlash_eq_nil h.components).mpr hc)
    have hlast := congrArg (fun l => l.getLastD 0) heq
    have hright : (u ++ List.replicate (k + 1) slash).getLastD 0 = slash := by
      rw [List.replicate_succ', ← List.append_assoc]
      simp
    have hleft : (x.lead ++ x.path).getLastD 0 = x.path.getLastD 0 := by
      rw [← List.dropLast_append_getLast hpath, ← List.append_assoc]
      simp
    rw [hright, hleft] at hlast
    exact getLastD_joinSlash h.components hc hlast

/-- A name that lost slashes lost at most the one behind the path. -/
theorem ArchiveEntry.Ok.trimmed {x : ArchiveEntry} (h : x.Ok) {y : Entry} (hy : SameFile x.entry y) :
    ∃ x', SameArchived x x' ∧ x'.entry = y := by
  obtain ⟨⟨hskip, k, hname⟩, hdigits, hcontent, hwell⟩ := hy
  have hne : y.name ≠ [] := List.length_pos_iff.mp hwell.name_pos
  have hentry : x.entry.name = x.lead ++ (x.path ++ x.tail) := rfl
  rw [hentry] at hskip hname
  cases k with
  | zero =>
    have hyx : x.entry = y := by
      rw [List.replicate_zero, List.append_nil] at hname
      cases y
      simp_all [ArchiveEntry.entry]
    exact ⟨x, ⟨h, rfl, rfl, rfl, rfl⟩, hyx⟩
  | succ k =>
    rcases h.tail with ht | ht
    · rw [ht, List.append_nil] at hname
      exact absurd hname (h.not_slash hne hskip k)
    · have hrest : x.lead ++ x.path = y.name ++ List.replicate k slash := by
        rw [ht, List.replicate_succ', ← List.append_assoc, ← List.append_assoc] at hname
        exact List.append_cancel_right hname
      cases k with
      | succ k => exact absurd hrest (h.not_slash hne hskip k)
      | zero =>
        rw [List.replicate_zero, List.append_nil] at hrest
        have hyx : ArchiveEntry.entry { x with tail := [] } = y := by
          obtain ⟨name, digits, content⟩ := y
          simp_all [ArchiveEntry.entry, ArchiveEntry.path]
        refine ⟨{ x with tail := [] }, ⟨⟨h.lead, h.comps, .inl rfl, ?_⟩, rfl, rfl, rfl, rfl⟩, hyx⟩
        rw [hyx]
        exact hwell

/-- Entry by entry. -/
theorem archived_of_files {es : List ArchiveEntry} (hok : ∀ x ∈ es, x.Ok) {ys : List Entry}
    (h : List.Forall₂ SameFile (es.map ArchiveEntry.entry) ys) :
    ∃ es', List.Forall₂ SameArchived es es' ∧ es'.map ArchiveEntry.entry = ys := by
  induction es generalizing ys with
  | nil =>
    cases h
    exact ⟨[], .nil, rfl⟩
  | cons x es ih =>
    rw [List.map_cons] at h
    cases h with
    | cons hx hrest =>
      obtain ⟨x', hx', hy⟩ := (hok x List.mem_cons_self).trimmed hx
      obtain ⟨es', hes', hys⟩ := ih (fun z hz => hok z (List.mem_cons_of_mem _ hz)) hrest
      exact ⟨x' :: es', .cons hx' hes', by rw [List.map_cons, hy, hys]⟩

section

variable {es es' : List ArchiveEntry}

theorem SameArchived.path {x x' : ArchiveEntry} (h : SameArchived x x') : x'.path = x.path := by
  rw [ArchiveEntry.path, h.comps, ArchiveEntry.path]

theorem SameArchived.room {x x' : ArchiveEntry} (h : SameArchived x x') : x'.entry.room = x.entry.room := by
  unfold Entry.room
  rw [show x'.entry.content = x.entry.content from h.content]

theorem headers_sameArchived (h : List.Forall₂ SameArchived es es') :
    ∀ a, headers a (es'.map ArchiveEntry.entry) = headers a (es.map ArchiveEntry.entry) := by
  induction h with
  | nil => intro a; rfl
  | cons hx _ ih => intro a; rw [List.map_cons, List.map_cons, headers, headers, hx.room, ih]

theorem Archive.sameArchived (h : Archive es) (hes : List.Forall₂ SameArchived es es') : Archive es' := by
  have hpaths : es'.map ArchiveEntry.path = es.map ArchiveEntry.path := by
    rw [← List.forall₂_eq_eq_eq, List.forall₂_map_left_iff, List.forall₂_map_right_iff]
    exact hes.flip.imp fun _ _ hx => hx.path
  have hto : ∀ x ∈ es, ∃ x' ∈ es', SameArchived x x' := Directory.paired_left hes
  have hfrom : ∀ x' ∈ es', ∃ x ∈ es, SameArchived x x' := Directory.paired_left hes.flip
  refine ⟨fun x' hx' => ?_, ?_, ?_, fun x' hx' hne => ?_⟩
  · obtain ⟨x, -, hx⟩ := hfrom x' hx'
    exact hx.ok
  · rw [hpaths]
    exact h.distinct
  · obtain ⟨r, hr, hrc⟩ := h.root
    obtain ⟨r', hr', hrr⟩ := hto r hr
    exact ⟨r', hr', hrr.comps.trans hrc⟩
  · obtain ⟨x, hx, hxx⟩ := hfrom x' hx'
    rw [hxx.comps] at hne ⊢
    obtain ⟨y, hy, hyc, hyt⟩ := h.parent x hx hne
    obtain ⟨y', hy', hyy⟩ := hto y hy
    exact ⟨y', hy', hyy.comps.trans hyc, hyy.type.trans hyt⟩

end

theorem imageAt_file {m : Mem} : ∀ (es : List Entry) {a : Nat}, ImageAt m a es → ∀ bx ∈ (headers a es).zip es,
    BytesAt m (bx.1 + sizeOffset) (bx.2.digits ++ [0]) ∧ BytesAt m (bx.1 + blockSize) bx.2.content ∧
      bx.1 + blockSize + bx.2.content.length ≤ a + imageSize es
  | [], _, _, _, hbx => absurd hbx List.not_mem_nil
  | x :: es, a, h, bx, hbx => by
    obtain ⟨-, hsize, hcontent, hrest⟩ := h
    have hsum : imageSize (x :: es) = x.room + imageSize es := rfl
    have hroom : x.room = 512 + (x.content.length + 511) / 512 * 512 := rfl
    rcases List.mem_cons.mp hbx with rfl | hbx
    · have hblock : blockSize = 512 := rfl
      refine ⟨hsize, hcontent, ?_⟩
      dsimp only
      omega
    · obtain ⟨hsize', hcontent', hend⟩ := imageAt_file es hrest bx hbx
      exact ⟨hsize', hcontent', by omega⟩

/-- A byte of a header that is behind its name. -/
theorem Trimmed.header {es : List Entry} {buf : Nat} {m₀ m : Mem} (hwell : ∀ x ∈ es, x.WellFormed)
    (h : Trimmed (namesAt buf es) m₀ m) {b : Nat} (hb : b ∈ headers buf es) {i : Nat} (hi : 99 ≤ i ∧ i < 512) :
    m (b + i) = m₀ (b + i) := by
  refine h.other _ fun bn hbn => ?_
  have hlen := (namesAt_apart buf hwell).length bn hbn
  have hpairwise := headers_pairwise es buf
  rcases apart_of_pairwise (f := id) hpairwise b hb bn.1 (List.of_mem_zip hbn).1 with rfl | hlt | hlt
  · exact .inr (by omega)
  · exact .inl (by dsimp only [id] at hlt; omega)
  · exact .inr (by dsimp only [id] at hlt; omega)

/-! ## Mounting -/

/-- The mount succeeds, and what it does to the image is to cut slashes off names. -/
theorem tarfsMount_trimmed {answers : TarfsAnswers} {s : Fs} {vol : Nat} {es : List Entry} (hwell : ∀ x ∈ es, x.WellFormed)
    (himage : ImageAt s.mem (s.vol vol).payload es) (hfit : (s.vol vol).payload + imageSize es + 512 ≤ 4294967296)
    (h0 : answers.payload ≠ 0) (hmalloc : Mallocs answers.entry es.length) :
    ∃ s', tarfsMount answers s vol = some (s', 0) ∧ Trimmed (namesAt (s.vol vol).payload es) s.mem s'.mem := by
  obtain ⟨s', hs'⟩ := tarfsMount_ends hwell himage hfit h0 hmalloc
  obtain ⟨s2, hinit, -, hmem, -, htarfs2, hblock⟩ := initNodes_walked hwell himage hfit hmalloc
  have hn := namesAt_apart (s.vol vol).payload hwell
  have hentered : Entered (namesAt (s.vol vol).payload es) s.mem ((List.range es.length).map fun j => (answers.entry j).1)
      answers.payload s2 := by
    refine ⟨?_, by rw [htarfs2], fun t ht => ?_⟩
    · rw [hmem]
      exact trimmed_start hwell himage
    · obtain ⟨i, hi, rfl⟩ := List.mem_map.mp ht
      rw [List.mem_range] at hi
      obtain ⟨hb, hnode, -⟩ := walked_entry hwell himage hblock hi
      refine ⟨((headers (s.vol vol).payload es)[i], es[i].name), ?_, by rw [hnode]⟩
      rw [namesAt, List.mem_iff_getElem]
      exact ⟨i, by simp [length_headers, hi], by simp⟩
  obtain ⟨s3, hs3, hmem3⟩ : ∃ s3, reassembleLoop answers.vnode answers.payload
      ((List.range es.length).map fun j => (answers.entry j).1) s2 = some s3 ∧ s'.mem = s3.mem := by
    rw [tarfsMount, if_neg h0] at hs'
    dsimp only at hs'
    rw [hinit, Option.bind_eq_bind, Option.bind_eq_some_iff] at hs'
    obtain ⟨s3, hs3, hs'⟩ := hs'
    cases hs'
    exact ⟨s3, hs3, rfl⟩
  refine ⟨s', hs', ?_⟩
  rw [hmem3]
  exact (reassembleLoop_entered hn _ (fun _ ht => ht) hentered hs3).trimmed

/-- Mounting an image of any files succeeds where no last component goes over the end of its node, and
    nothing is written behind the nodes then. Where the image was there is an image of the same
    files, whose names may have lost slashes at their ends but nothing else, and whose sizes and
    contents are what they were; and no byte that is not in a name is changed. -/
theorem mounting_trims_names {answers : TarfsAnswers} {s : Fs} {vol : Nat} {es : List Entry} (hwell : ∀ x ∈ es, x.WellFormed)
    (himage : ImageAt s.mem (s.vol vol).payload es) (hfit : (s.vol vol).payload + imageSize es + 512 ≤ 4294967296)
    (halloc : Allocates answers es.length) (hshort : ∀ x ∈ es, (lastComponent (normalize x.name)).length ≤ 79) :
    ∃ s' es', tarfsMount answers s vol = some (s', 0) ∧ s'.spilled = s.spilled ∧ List.Forall₂ SameFile es es' ∧
      ImageAt s'.mem (s.vol vol).payload es' ∧
      ∀ a, (∀ bn ∈ namesAt (s.vol vol).payload es, a < bn.1 ∨ bn.1 + bn.2.length ≤ a) → s'.mem a = s.mem a := by
  obtain ⟨s', hs', hleft⟩ := tarfsMount_trimmed hwell himage hfit halloc.payload halloc.entry
  obtain ⟨es', hes', himage'⟩ := hleft.image (namesAt_apart _ hwell) es hwell himage (fun bn hbn => .inr hbn) fun bn hbn => hbn
  exact ⟨s', es', hs', tarfsMount_spilled hwell himage hfit halloc hshort hs', hes', himage', hleft.other⟩

theorem two_files_are_left : ∃ s' es', tarfsMount (twoFilesAnswers none) twoFilesVolume 0 = some (s', 0) ∧ s'.spilled = [] ∧
    List.Forall₂ SameFile [oneByte, noBytes] es' ∧ ImageAt s'.mem 0x100000 es' ∧
    ∀ a, (∀ bn ∈ namesAt 0x100000 [oneByte, noBytes], a < bn.1 ∨ bn.1 + bn.2.length ≤ a) → s'.mem a = twoFiles a :=
  mounting_trims_names twoFiles_wellFormed twoFiles_image (by decide) (twoFiles_allocates none) (by decide)

end NativeOS.Fs.Tar
