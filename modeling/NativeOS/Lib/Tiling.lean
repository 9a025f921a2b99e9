/-
  NativeOS.Lib.Tiling — a region cut into consecutive blocks.

  A block starts at `addr` with a header of `h` bytes and has `size` bytes of data.
  `Tiles h addr size lo hi bs`: the blocks `bs` follow each other from `lo` to `hi`
  without a gap. Blocks of a tiling are ordered and apart (`tiles_before`,
  `tiles_after`), lie in the region (`tiles_mem`) and cover it (`tiles_cover`).
-/

namespace NativeOS.Lib

variable {β : Type} {h : Nat} {addr size : β → Nat}

def Tiles (h : Nat) (addr size : β → Nat) : Nat → Nat → List β → Prop
  | lo, hi, [] => lo = hi
  | lo, hi, b :: bs => addr b = lo ∧ Tiles h addr size (lo + h + size b) hi bs

theorem tiles_le {lo hi : Nat} {bs : List β} (ht : Tiles h addr size lo hi bs) : lo ≤ hi := by
  induction bs generalizing lo with
  | nil => exact Nat.le_of_eq ht
  | cons b bs ih => have := ih ht.2; omega

theorem tiles_append {lo hi : Nat} {xs ys : List β} :
    Tiles h addr size lo hi (xs ++ ys) ↔ ∃ mid, Tiles h addr size lo mid xs ∧ Tiles h addr size mid hi ys := by
  induction xs generalizing lo with
  | nil => simp [Tiles]
  | cons b xs ih =>
    simp only [List.cons_append, Tiles, ih]
    constructor
    · intro ⟨e, mid, h1, h2⟩; exact ⟨mid, ⟨e, h1⟩, h2⟩
    · intro ⟨mid, ⟨e, h1⟩, h2⟩; exact ⟨e, mid, h1, h2⟩

/-- A tiling cut at one of its blocks. -/
theorem tiles_split {lo hi : Nat} {pre post : List β} {b : β} :
    Tiles h addr size lo hi (pre ++ b :: post) ↔
      Tiles h addr size lo (addr b) pre ∧ Tiles h addr size (addr b + h + size b) hi post := by
  rw [tiles_append]
  constructor
  · intro ⟨mid, h1, e, h2⟩; subst e; exact ⟨h1, h2⟩
  · intro ⟨h1, h2⟩; exact ⟨addr b, h1, rfl, h2⟩

/-- A tiling has one end, and one start unless it is empty. -/
theorem tiles_unique {lo hi lo' hi' : Nat} {bs : List β} (ht : Tiles h addr size lo hi bs)
    (ht' : Tiles h addr size lo' hi' bs) (hne : bs ≠ []) : lo = lo' ∧ hi = hi' := by
  induction bs generalizing lo lo' with
  | nil => exact absurd rfl hne
  | cons b bs ih =>
    obtain ⟨e, h1⟩ := ht
    obtain ⟨e', h2⟩ := ht'
    cases bs with
    | nil => simp only [Tiles] at h1 h2; omega
    | cons c bs => exact ⟨by omega, (ih h1 h2 (by simp)).2⟩

theorem tiles_ne_nil {lo hi : Nat} {bs : List β} (ht : Tiles h addr size lo hi bs) (hl : lo < hi) : bs ≠ [] := by
  intro e
  subst e
  simp only [Tiles] at ht
  omega

theorem tiles_mem {lo hi : Nat} {bs : List β} (ht : Tiles h addr size lo hi bs) {b : β} (hb : b ∈ bs) :
    lo ≤ addr b ∧ addr b + h + size b ≤ hi := by
  obtain ⟨pre, post, rfl⟩ := List.append_of_mem hb
  obtain ⟨h1, h2⟩ := tiles_split.mp ht
  exact ⟨tiles_le h1, tiles_le h2⟩

theorem tiles_before {lo hi : Nat} {pre post : List β} {b c : β}
    (ht : Tiles h addr size lo hi (pre ++ b :: post)) (hc : c ∈ pre) : addr c + h + size c ≤ addr b :=
  (tiles_mem (tiles_split.mp ht).1 hc).2

theorem tiles_after {lo hi : Nat} {pre post : List β} {b c : β}
    (ht : Tiles h addr size lo hi (pre ++ b :: post)) (hc : c ∈ post) : addr b + h + size b ≤ addr c :=
  (tiles_mem (tiles_split.mp ht).2 hc).1

/-- Two blocks of a tiling are the same or apart. -/
theorem tiles_apart {lo hi : Nat} {bs : List β} (ht : Tiles h addr size lo hi bs) {b c : β} (hb : b ∈ bs)
    (hc : c ∈ bs) : b = c ∨ addr b + h + size b ≤ addr c ∨ addr c + h + size c ≤ addr b := by
  obtain ⟨pre, post, rfl⟩ := List.append_of_mem hb
  rcases List.mem_append.mp hc with hc | hc
  · exact .inr (.inr (tiles_before ht hc))
  · rcases List.mem_cons.mp hc with rfl | hc
    · exact .inl rfl
    · exact .inr (.inl (tiles_after ht hc))

theorem tiles_cover {lo hi x : Nat} {bs : List β} (ht : Tiles h addr size lo hi bs) (hl : lo ≤ x) (hr : x < hi) :
    ∃ b ∈ bs, addr b ≤ x ∧ x < addr b + h + size b := by
  induction bs generalizing lo with
  | nil => simp only [Tiles] at ht; omega
  | cons b bs ih =>
    obtain ⟨e, ht⟩ := ht
    by_cases hx : x < lo + h + size b
    · exact ⟨b, List.mem_cons_self, by omega, by omega⟩
    · obtain ⟨c, hc, h1⟩ := ih ht (by omega)
      exact ⟨c, List.mem_cons_of_mem _ hc, h1⟩

theorem tiles_length {lo hi : Nat} {bs : List β} (ht : Tiles h addr size lo hi bs) : lo + h * bs.length ≤ hi := by
  induction bs generalizing lo with
  | nil => simp only [Tiles] at ht; simp [ht]
  | cons b bs ih =>
    have := ih ht.2
    simp only [List.length_cons, Nat.mul_add]
    omega

end NativeOS.Lib
